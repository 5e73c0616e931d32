import RankedPlans.Heap.PriorityQueue

/-!
Open lists with lazy deletion. Entries come out by ascending estimate and, at equal estimates, in the
order of insertion. An entry that is no longer current is dropped when it comes to the front.
-/

namespace RankedPlans

/-- What an entry holds besides its key: a node and the path cost at the time of insertion. -/
structure OpenEntry where
  node : Nat
  cost : Int
deriving DecidableEq, Repr, Inhabited

structure OpenList where
  /-- Entries by estimate and insertion number. -/
  queue : PriorityQueue (Int × Nat) OpenEntry := {}
  /-- How many entries were ever inserted. -/
  inserted : Nat := 0
  /-- The greatest number of entries held at once. -/
  highWater : Nat := 0
deriving Inhabited

namespace OpenList

/-- The number of entries, outdated ones included. -/
def size (o : OpenList) : Nat :=
  o.queue.size

/-- Inserts a node with its estimate and path cost. -/
def push (o : OpenList) (node : Nat) (estimate cost : Int) : OpenList where
  queue := o.queue.push costThenNumber (estimate, o.inserted) ⟨node, cost⟩
  inserted := o.inserted + 1
  highWater := max o.highWater (o.size + 1)

/-- Drops entries from the front as long as they are not current. -/
def settleWithin (current : Nat → Int → Bool) : Nat → OpenList → OpenList
  | 0, o => o
  | fuel + 1, o =>
    match o.queue.peek? with
    | none => o
    | some (_, entry) =>
      if current entry.node entry.cost then o
      else settleWithin current fuel { o with queue := o.queue.pop costThenNumber }

/-- The open list with a current entry at its front, or without entries. -/
def settle (current : Nat → Int → Bool) (o : OpenList) : OpenList :=
  settleWithin current o.size o

/-- The least estimate of a current entry. -/
def least? (current : Nat → Int → Bool) (o : OpenList) : Option Int × OpenList :=
  let o := o.settle current
  (o.queue.peek?.map fun ((estimate, _), _) => estimate, o)

/-- Takes out the first current entry; gives its node, its estimate and its insertion number. -/
def pop? (current : Nat → Int → Bool) (o : OpenList) : Option (Nat × Int × Nat) × OpenList :=
  let o := o.settle current
  match o.queue.peek? with
  | none => (none, o)
  | some ((estimate, number), entry) =>
    (some (entry.node, estimate, number), { o with queue := o.queue.pop costThenNumber })

end OpenList

end RankedPlans
