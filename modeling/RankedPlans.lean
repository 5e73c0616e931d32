import RankedPlans.Archive.FileTree
import RankedPlans.Archive.Location
import RankedPlans.Archive.Reading
import RankedPlans.Archive.Writing
import RankedPlans.Cost
import RankedPlans.Digest.Basic
import RankedPlans.Digest.Sha256
import RankedPlans.Entries
import RankedPlans.Enumeration.Basic
import RankedPlans.Enumeration.Policy
import RankedPlans.Enumeration.Request
import RankedPlans.Enumeration.Result
import RankedPlans.Enumeration.Termination
import RankedPlans.Graph.Basic
import RankedPlans.Graph.ShortestPaths
import RankedPlans.Heap.Leftist
import RankedPlans.Heap.PriorityQueue
import RankedPlans.Heuristic.Basic
import RankedPlans.Heuristic.Choice
import RankedPlans.Heuristic.Max
import RankedPlans.Json.Basic
import RankedPlans.Json.Bytes
import RankedPlans.Json.Numeral
import RankedPlans.Json.Printer
import RankedPlans.Json.Reader
import RankedPlans.Json.Record
import RankedPlans.Json.Written
import RankedPlans.Number.Binary
import RankedPlans.Number.Bounds
import RankedPlans.Number.Decimal
import RankedPlans.Numbering
import RankedPlans.Path.Enumeration
import RankedPlans.Path.Sidetrack
import RankedPlans.Pattern.Basic
import RankedPlans.Pattern.CharClass
import RankedPlans.Pattern.CharClass.Reader
import RankedPlans.Pattern.Footprint
import RankedPlans.Pattern.Form
import RankedPlans.Pattern.Matching
import RankedPlans.Pattern.Reader
import RankedPlans.Pattern.WholeName
import RankedPlans.Plan.Key
import RankedPlans.Plan.Reordering
import RankedPlans.Plan.Selection
import RankedPlans.Proofs.Archive.Interruption
import RankedPlans.Proofs.Archive.Reading
import RankedPlans.Proofs.Enumeration.CostRange
import RankedPlans.Proofs.Enumeration.Finiteness
import RankedPlans.Proofs.Enumeration.Pruning
import RankedPlans.Proofs.Enumeration.Reopening
import RankedPlans.Proofs.Enumeration.Rounds
import RankedPlans.Proofs.Enumeration.Unsolvable
import RankedPlans.Proofs.Graph.SpanningTree
import RankedPlans.Proofs.Heap.Calls
import RankedPlans.Proofs.Heap.Leftist
import RankedPlans.Proofs.Heap.PriorityQueue
import RankedPlans.Proofs.Heuristic.Max
import RankedPlans.Proofs.Heuristic.Symmetric
import RankedPlans.Proofs.Path.Enumeration
import RankedPlans.Proofs.Path.HeapTable
import RankedPlans.Proofs.Path.ShortestWalk
import RankedPlans.Proofs.Path.SidetrackSequence
import RankedPlans.Proofs.Pattern.WholeName
import RankedPlans.Proofs.Plan.Offers
import RankedPlans.Proofs.Search.Certificate
import RankedPlans.Proofs.Search.Decoding
import RankedPlans.Proofs.Search.Frontier
import RankedPlans.Proofs.Search.Lookups
import RankedPlans.Proofs.Symmetry.Equitable
import RankedPlans.Proofs.Symmetry.GeneratedGroup
import RankedPlans.Proofs.Symmetry.OrbitMinimum
import RankedPlans.Proofs.Symmetry.Orbits
import RankedPlans.Proofs.Symmetry.PlanIdentity
import RankedPlans.Proofs.Symmetry.Relabelling
import RankedPlans.Proofs.Symmetry.Representative
import RankedPlans.Proofs.Symmetry.SymmetricPlans
import RankedPlans.Proofs.Symmetry.UnionFindCalls
import RankedPlans.Proofs.Task.Strips
import RankedPlans.Proofs.Task.Text
import RankedPlans.Proofs.World.Blocks
import RankedPlans.Proofs.World.Grid
import RankedPlans.Proofs.World.Gripper
import RankedPlans.Report.Basic
import RankedPlans.Search.Basic
import RankedPlans.Search.Decoding
import RankedPlans.Search.OpenList
import RankedPlans.Sorting
import RankedPlans.Symmetry.Automorphism
import RankedPlans.Symmetry.ColoredGraph
import RankedPlans.Symmetry.Description
import RankedPlans.Symmetry.Generator
import RankedPlans.Symmetry.Group
import RankedPlans.Symmetry.PlanOrbit
import RankedPlans.Symmetry.Refinement
import RankedPlans.Symmetry.UnionFind
import RankedPlans.Task.Basic
import RankedPlans.Task.Execution
import RankedPlans.Task.Record
import RankedPlans.Task.Strips
import RankedPlans.Task.Validation
import RankedPlans.Text.Blank
import RankedPlans.Text.Quoted
import RankedPlans.Text.Unseen
import RankedPlans.Text.Utf8
import RankedPlans.Text.Utf8Ranges
import RankedPlans.Text.Word
import RankedPlans.World.Basic
import RankedPlans.World.Blocks
import RankedPlans.World.Fault
import RankedPlans.World.Grid
import RankedPlans.World.Gripper
import RankedPlans.World.LockedDoor
