/-!
Classes of numbers that are merged step by step. Each number has a parent, and the number at the end of
a chain of parents stands for its class. Looking a number up shortens its chain by half.
-/

namespace RankedPlans

structure UnionFind where
  parents : Array Nat
  ranks : Array Nat
deriving DecidableEq, Repr

namespace UnionFind

/-- Every number below `n` is a class of its own. -/
def ofSize (n : Nat) : UnionFind :=
  ⟨Array.range n, Array.replicate n 0⟩

/-- The parent of a number; a number beyond the range is its own parent. -/
def parent (u : UnionFind) (x : Nat) : Nat :=
  u.parents.getD x x

/-- Follows grandparents, each of which becomes the parent of the number before it. -/
def findWithin (u : UnionFind) : Nat → Nat → UnionFind × Nat
  | 0, x => (u, x)
  | fuel + 1, x =>
    if u.parent x = x then (u, x)
    else
      let grandparent := u.parent (u.parent x)
      findWithin { u with parents := u.parents.setIfInBounds x grandparent } fuel grandparent

/-- The number that stands for the class of `x`. -/
def find (u : UnionFind) (x : Nat) : UnionFind × Nat :=
  u.findWithin u.parents.size x

/-- Merges the classes of two numbers and says whether they were different. The class of lower rank
goes below the other one, and the second below the first at equal ranks. -/
def union (u : UnionFind) (a b : Nat) : UnionFind × Bool :=
  let (u, ra) := u.find a
  let (u, rb) := u.find b
  if ra = rb then (u, false)
  else
    let ka := u.ranks.getD ra 0
    let kb := u.ranks.getD rb 0
    if ka < kb then ({ u with parents := u.parents.setIfInBounds ra rb }, true)
    else if kb < ka then ({ u with parents := u.parents.setIfInBounds rb ra }, true)
    else
      (⟨u.parents.setIfInBounds rb ra, u.ranks.setIfInBounds ra (ka + 1)⟩, true)

/-- Whether two numbers are in one class. -/
def same (u : UnionFind) (a b : Nat) : UnionFind × Bool :=
  let (u, ra) := u.find a
  let (u, rb) := u.find b
  (u, ra = rb)

/-- The root of every number, after looking all of them up. -/
def roots (u : UnionFind) : UnionFind × Array Nat :=
  (List.range u.parents.size).foldl (fun (u, found) x =>
    let (u, r) := u.find x
    (u, found.push r)) (u, #[])

/-- The numbers with each root, in ascending order. -/
def byRoot (roots : Array Nat) : Array (List Nat) :=
  roots.toList.zipIdx.foldr (fun (r, x) lists => lists.modify r (x :: ·))
    (Array.replicate roots.size [])

/-- The classes of more than one number, each ascending, by their least numbers. -/
def classes (u : UnionFind) : UnionFind × List (List Nat) :=
  let (u, roots) := u.roots
  let lists := byRoot roots
  (u, roots.toList.zipIdx.filterMap fun (r, x) =>
    match lists[r]? with
    | some (least :: other :: rest) => if least = x then some (least :: other :: rest) else none
    | _ => none)

/-- Merges every number with its image. -/
def unionImages (u : UnionFind) (image : Array Nat) : UnionFind :=
  image.toList.zipIdx.foldl (fun u (y, x) => (u.union x y).1) u

end UnionFind

end RankedPlans
