/-!
Leftist heaps that are never changed. Every node has a serial number, and a merge makes new nodes for
the path it follows and shares all others with the heaps that it merges. Operations take the next free
serial number and give it back, so that it counts the nodes made so far.
-/

namespace RankedPlans

/-- A heap over keys and items. The rank is the number of nodes on the rightmost path. -/
inductive LeftistHeap (κ ι : Type) where
  | nil
  | node (serial rank : Nat) (key : κ) (item : ι) (left right : LeftistHeap κ ι)
deriving DecidableEq, Repr, Inhabited

namespace LeftistHeap

variable {κ ι : Type}

/-- The stored rank of the root. -/
def rank : LeftistHeap κ ι → Nat
  | nil => 0
  | node _ rank _ _ _ _ => rank

/-- The serial number of the root. -/
def serial? : LeftistHeap κ ι → Option Nat
  | nil => none
  | node serial _ _ _ _ _ => some serial

/-- The number of nodes on the rightmost path. -/
def spine : LeftistHeap κ ι → Nat
  | nil => 0
  | node _ _ _ _ _ right => spine right + 1

/-- The number of nodes. -/
def size : LeftistHeap κ ι → Nat
  | nil => 0
  | node _ _ _ _ left right => size left + size right + 1

/-- The keys and items of all nodes, from the root down. -/
def toList : LeftistHeap κ ι → List (κ × ι)
  | nil => []
  | node _ _ key item left right => (key, item) :: (toList left ++ toList right)

/-- A heap of one node. -/
def singleton (next : Nat) (key : κ) (item : ι) : LeftistHeap κ ι × Nat :=
  (node next 1 key item nil nil, next + 1)

/-- A new node above two heaps, the one of smaller rank to the right. -/
def join (next : Nat) (key : κ) (item : ι) (a b : LeftistHeap κ ι) : LeftistHeap κ ι × Nat :=
  if b.rank ≤ a.rank then (node next (b.rank + 1) key item a b, next + 1)
  else (node next (a.rank + 1) key item b a, next + 1)

/-- Merges along the rightmost paths, which bound the number of steps. -/
def mergeWithin (le : κ → κ → Bool) :
    Nat → Nat → LeftistHeap κ ι → LeftistHeap κ ι → LeftistHeap κ ι × Nat
  | _, next, nil, b => (b, next)
  | _, next, a, nil => (a, next)
  | 0, next, a, _ => (a, next)
  | fuel + 1, next, a@(node _ _ ka ia la ra), b@(node _ _ kb ib lb rb) =>
    if le ka kb then
      let (merged, next) := mergeWithin le fuel next ra b
      join next ka ia la merged
    else
      let (merged, next) := mergeWithin le fuel next rb a
      join next kb ib lb merged

/-- The union of two heaps. Of two roots with one key the first heap's comes to the top. -/
def merge (le : κ → κ → Bool) (next : Nat) (a b : LeftistHeap κ ι) : LeftistHeap κ ι × Nat :=
  mergeWithin le (a.spine + b.spine) next a b

/-- The heap with one more element. -/
def insert (le : κ → κ → Bool) (next : Nat) (heap : LeftistHeap κ ι) (key : κ) (item : ι) :
    LeftistHeap κ ι × Nat :=
  let (single, next) := singleton next key item
  merge le next heap single

/-- The key of the root. -/
def key? : LeftistHeap κ ι → Option κ
  | nil => none
  | node _ _ key _ _ _ => some key

/-- The subtrees of the root that hold nodes, the left one first. -/
def children : LeftistHeap κ ι → List (LeftistHeap κ ι)
  | nil => []
  | node _ _ _ _ left right => [left, right].filter (·.serial?.isSome)

/-- Whether the root of a heap comes strictly before that of another. -/
def beats (le : κ → κ → Bool) : LeftistHeap κ ι → LeftistHeap κ ι → Bool
  | node _ _ ka _ _ _, node _ _ kb _ _ _ => !le kb ka
  | _, _ => false

/-- The first position of a least key among the roots of some heaps. -/
def leastPosition (le : κ → κ → Bool) (heaps : Array (LeftistHeap κ ι)) : Nat :=
  heaps.size.fold (fun i h best => if beats le heaps[i] (heaps.getD best nil) then i else best) 0

/-- Takes out the element of a position and puts the last one there. -/
def swapRemove {α : Type} (xs : Array α) (i : Nat) : Array α :=
  match xs.back? with
  | some last => (xs.setIfInBounds i last).pop
  | none => xs

/-- Takes least roots out of some heaps and leaves their subtrees behind. -/
def drainWithin (le : κ → κ → Bool) : Nat → Array (LeftistHeap κ ι) → List (κ × ι)
  | 0, _ => []
  | fuel + 1, heaps =>
    let i := leastPosition le heaps
    match heaps[i]? with
    | some h@(node _ _ key item _ _) =>
      (key, item) :: drainWithin le fuel (swapRemove heaps i ++ h.children)
    | _ => []

/-- All keys and items by ascending key. -/
def drain (le : κ → κ → Bool) (heap : LeftistHeap κ ι) : List (κ × ι) :=
  drainWithin le heap.size #[heap]

end LeftistHeap

end RankedPlans
