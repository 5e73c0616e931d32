import RankedPlans.Enumeration.Basic
import RankedPlans.Heuristic.Choice
import RankedPlans.Task.Record
import RankedPlans.World.Basic

/-!
Reports: a task, the result of enumerating its plans and what identifies both. A report depends on task,
heuristic, request and policy alone.
-/

namespace RankedPlans

/-- Why there is no report. -/
inductive ReportFault where
  | world (fault : WorldFault)
  | search (fault : EnumerationFault)

/-- The wording of a fault. -/
def ReportFault.message : ReportFault → String
  | world fault => "world: " ++ fault.message
  | search fault => "search: " ++ fault.message

structure Report where
  /-- The name of the world. -/
  world : String
  heuristic : HeuristicChoice
  task : Task
  result : Result
  /-- The digest of the symmetries, if the policy uses any. -/
  symmetryDigest : Option ContentHash

namespace SymmetryPolicy

/-- The digest of the group for the search if there is one, and else of the group for plans. -/
def groupDigest? (p : SymmetryPolicy) (t : Task) : Option ContentHash :=
  if p.inUse then
    some (SymmetryGroup.ofTask t p (!p.pruneSearch || p.fixInitial)).digest
  else none

end SymmetryPolicy

namespace Report

/-- The report on a task, from an enumeration of at most so many steps; none if these do not suffice. -/
def ofTask? (world : String) (t : Task) (h : HeuristicChoice) (r : Request) (p : Policy)
    (steps : Nat) : Option (Except ReportFault Report) :=
  match t.enumerate? h.heuristic r p steps with
  | none => none
  | some (.error fault) => some (.error (.search fault))
  | some (.ok result) => some (.ok ⟨world, h, t, result, p.symmetry.groupDigest? t⟩)

/-- The report on the task of a world. -/
def ofWorld? (w : World) (h : HeuristicChoice) (r : Request) (p : Policy) (steps : Nat) :
    Option (Except ReportFault Report) :=
  match w.task with
  | .error fault => some (.error (.world fault))
  | .ok t => ofTask? w.id t h r p steps

end Report

end RankedPlans
