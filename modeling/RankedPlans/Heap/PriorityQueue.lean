import RankedPlans.Heap.Leftist

/-!
Priority queues on leftist heaps: the least key comes out first.
-/

namespace RankedPlans

/-- A heap and the number of its elements. -/
structure PriorityQueue (κ ι : Type) where
  heap : LeftistHeap κ ι := .nil
  size : Nat := 0
deriving Inhabited

namespace PriorityQueue

variable {κ ι : Type}

/-- The queue with one more element. -/
def push (le : κ → κ → Bool) (q : PriorityQueue κ ι) (key : κ) (item : ι) : PriorityQueue κ ι :=
  ⟨(q.heap.insert le 0 key item).1, q.size + 1⟩

/-- The element with the least key. -/
def peek? (q : PriorityQueue κ ι) : Option (κ × ι) :=
  match q.heap with
  | .nil => none
  | .node _ _ key item _ _ => some (key, item)

/-- The queue without the element of the least key. -/
def pop (le : κ → κ → Bool) (q : PriorityQueue κ ι) : PriorityQueue κ ι :=
  match q.heap with
  | .nil => q
  | .node _ _ _ _ left right => ⟨(left.merge le 0 right).1, q.size - 1⟩

/-- The elements in no particular order. -/
def toList (q : PriorityQueue κ ι) : List (κ × ι) :=
  q.heap.toList

end PriorityQueue

/-- The lexicographic order of a cost and a number. -/
def costThenNumber (a b : Int × Nat) : Bool :=
  a.1 < b.1 || (a.1 == b.1 && a.2 ≤ b.2)

end RankedPlans
