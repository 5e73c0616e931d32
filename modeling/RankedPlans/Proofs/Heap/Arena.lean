import RankedPlans.Proofs.Heap.Drain

/-! Leftist heaps kept as numbered nodes in one table that only grows. Reading a root of the table gives the heap
that the operations on trees give, and no later call changes what an earlier root reads as, although heaps share
their nodes. -/

namespace RankedPlans

/-- A node that names its subtrees by their numbers. -/
structure HeapNode (κ ι : Type) where
  key : κ
  item : ι
  rank : Nat
  left : Option Nat
  right : Option Nat

/-- Nodes by number. -/
abbrev HeapArena (κ ι : Type) := Array (HeapNode κ ι)

namespace LeftistHeap

variable {κ ι : Type}

/-- More steps than the rightmost paths have nodes change nothing. -/
theorem mergeWithin_congr (le : κ → κ → Bool) (fuel fuel' next : Nat) {a b : LeftistHeap κ ι}
    (hf : a.spine + b.spine ≤ fuel) (hf' : a.spine + b.spine ≤ fuel') :
    mergeWithin le fuel next a b = mergeWithin le fuel' next a b := by
  induction fuel generalizing fuel' next a b with
  | zero =>
    cases a with
    | nil => simp only [mergeWithin]
    | node => simp [spine] at hf
  | succ fuel ih =>
    cases a with
    | nil => simp only [mergeWithin]
    | node sa na ka ia la ra =>
      cases b with
      | nil => simp only [mergeWithin]
      | node sb nb kb ib lb rb =>
        obtain ⟨fuel', rfl⟩ : ∃ n, fuel' = n + 1 := Nat.exists_eq_succ_of_ne_zero (by simp [spine] at hf'; omega)
        simp only [mergeWithin, spine] at hf hf' ⊢
        split
        · rw [ih fuel' next (by simp only [spine]; omega) (by simp only [spine]; omega)]
        · rw [ih fuel' next (by simp only [spine]; omega) (by simp only [spine]; omega)]

theorem mergeWithin_eq_merge (le : κ → κ → Bool) {fuel : Nat} (next : Nat) {a b : LeftistHeap κ ι}
    (hf : a.spine + b.spine ≤ fuel) : mergeWithin le fuel next a b = merge le next a b :=
  mergeWithin_congr le _ _ next hf (Nat.le_refl _)

end LeftistHeap

namespace HeapArena

variable {κ ι : Type}

/-- The stored rank of a root. -/
def rank (arena : HeapArena κ ι) (root : Option Nat) : Nat :=
  (root.bind (arena[·]?)).elim 0 HeapNode.rank

/-- A new node, and its number. -/
def add (arena : HeapArena κ ι) (node : HeapNode κ ι) : Option Nat × HeapArena κ ι :=
  (some arena.size, arena.push node)

def singleton (arena : HeapArena κ ι) (key : κ) (item : ι) : Option Nat × HeapArena κ ι :=
  arena.add ⟨key, item, 1, none, none⟩

/-- A new node above two heaps, the one of smaller rank to the right. -/
def join (arena : HeapArena κ ι) (key : κ) (item : ι) (a b : Option Nat) : Option Nat × HeapArena κ ι :=
  if arena.rank b ≤ arena.rank a then arena.add ⟨key, item, arena.rank b + 1, a, b⟩
  else arena.add ⟨key, item, arena.rank a + 1, b, a⟩

/-- Merges along the rightmost paths: the node with the smaller key is copied, with the rest merged below it. -/
def mergeWithin (le : κ → κ → Bool) :
    Nat → HeapArena κ ι → Option Nat → Option Nat → Option Nat × HeapArena κ ι
  | _, arena, none, b => (b, arena)
  | _, arena, a, none => (a, arena)
  | 0, arena, a, _ => (a, arena)
  | fuel + 1, arena, some a, some b =>
    match arena[a]?, arena[b]? with
    | some x, some y =>
      if le x.key y.key then
        let (merged, arena) := mergeWithin le fuel arena x.right (some b)
        arena.join x.key x.item x.left merged
      else
        let (merged, arena) := mergeWithin le fuel arena y.right (some a)
        arena.join y.key y.item y.left merged
    | _, _ => (some a, arena)

/-- The union of two heaps. No rightmost path is longer than the table. -/
def merge (le : κ → κ → Bool) (arena : HeapArena κ ι) (a b : Option Nat) : Option Nat × HeapArena κ ι :=
  mergeWithin le (arena.size + arena.size) arena a b

def insert (le : κ → κ → Bool) (arena : HeapArena κ ι) (heap : Option Nat) (key : κ) (item : ι) :
    Option Nat × HeapArena κ ι :=
  let (single, arena) := arena.singleton key item
  arena.merge le heap single

/-- A root reads as a tree whose nodes have the numbers, keys, items and ranks of the table. -/
inductive Reads (arena : HeapArena κ ι) : Option Nat → LeftistHeap κ ι → Prop where
  | nil : Reads arena none .nil
  | node {i : Nat} {n : HeapNode κ ι} {left right : LeftistHeap κ ι} (get : arena[i]? = some n)
      (left_reads : Reads arena n.left left) (right_reads : Reads arena n.right right) :
      Reads arena (some i) (.node i n.rank n.key n.item left right)

variable {arena arena' : HeapArena κ ι} {root : Option Nat} {h : LeftistHeap κ ι}

theorem Reads.unique {h' : LeftistHeap κ ι} (hr : arena.Reads root h) (hr' : arena.Reads root h') : h = h' := by
  induction hr generalizing h' with
  | nil => cases hr'; rfl
  | node get _ _ ihl ihr =>
    cases hr' with
    | node get' left_reads right_reads =>
      obtain rfl := Option.some.inj (get.symm.trans get')
      rw [ihl left_reads, ihr right_reads]

theorem Reads.reads_iff (hr : arena.Reads root h) {h' : LeftistHeap κ ι} : arena.Reads root h' ↔ h' = h :=
  ⟨fun hr' => hr'.unique hr, fun heq => heq ▸ hr⟩

/-- The nodes of a table are the first ones of another. -/
def Begins (arena arena' : HeapArena κ ι) : Prop :=
  ∀ (i : Nat) (n : HeapNode κ ι), arena[i]? = some n → arena'[i]? = some n

theorem Begins.refl (arena : HeapArena κ ι) : arena.Begins arena := fun _ _ => id

theorem Begins.trans {arena'' : HeapArena κ ι} (h : arena.Begins arena') (h' : arena'.Begins arena'') :
    arena.Begins arena'' := fun i n hn => h' i n (h i n hn)

theorem begins_push (arena : HeapArena κ ι) (n : HeapNode κ ι) : arena.Begins (arena.push n) := by
  intro i m hm
  have hlt := (Array.getElem?_eq_some_iff.mp hm).1
  rwa [Array.getElem?_push_lt hlt, ← Array.getElem?_eq_getElem hlt]

/-- What a root reads as does not change when nodes are added. -/
theorem Reads.mono (hr : arena.Reads root h) (hb : arena.Begins arena') : arena'.Reads root h := by
  induction hr with
  | nil => exact .nil
  | node get _ _ ihl ihr => exact .node (hb _ _ get) ihl ihr

theorem Reads.root_eq (hr : arena.Reads root h) : root = h.serial? := by
  cases hr <;> rfl

theorem Reads.rank_eq (hr : arena.Reads root h) : arena.rank root = h.rank := by
  cases hr with
  | nil => rfl
  | node get _ _ => simp [rank, get, LeftistHeap.rank]

/-- Subtrees are older than the nodes above them. -/
def Older (arena : HeapArena κ ι) : Prop :=
  ∀ (i : Nat) (n : HeapNode κ ι), arena[i]? = some n → ∀ c, n.left = some c ∨ n.right = some c → c < i

theorem Reads.lt_size (hr : arena.Reads root h) {i : Nat} (hi : root = some i) : i < arena.size := by
  subst hi
  cases hr with
  | node get _ _ => exact (Array.getElem?_eq_some_iff.mp get).1

/-- Downward along the rightmost path the numbers fall. -/
theorem Reads.spine_le (ho : arena.Older) (hr : arena.Reads root h) {bound : Nat}
    (hroot : ∀ i, root = some i → i < bound) : h.spine ≤ bound := by
  induction hr generalizing bound with
  | nil => exact Nat.zero_le _
  | @node i n left right get _ _ _ ihr =>
    have hspine : right.spine ≤ i := ihr fun c hc => ho i n get c (.inr hc)
    have hi := hroot i rfl
    simp only [LeftistHeap.spine]
    omega

theorem Reads.spine_le_size (hr : arena.Reads root h) (ho : arena.Older) : h.spine ≤ arena.size :=
  hr.spine_le ho fun _ hi => hr.lt_size hi

/-- Two tables and answers: the second table grows out of the first, and the answer reads as a heap of the tree
operations, which number their nodes alike. -/
structure Extends (arena : HeapArena κ ι) (answer : Option Nat × HeapArena κ ι)
    (heap : LeftistHeap κ ι × Nat) : Prop where
  begins : arena.Begins answer.2
  older : answer.2.Older
  size_eq : answer.2.size = heap.2
  reads : answer.2.Reads answer.1 heap.1

variable {a b : Option Nat} {ha hb : LeftistHeap κ ι}

theorem older_push {n : HeapNode κ ι} (ho : arena.Older)
    (hn : ∀ c, n.left = some c ∨ n.right = some c → c < arena.size) : Older (arena.push n) := by
  intro i m hm c hc
  rw [Array.getElem?_push] at hm
  split at hm
  · obtain rfl := Option.some.inj hm
    subst i
    exact hn c hc
  · exact ho i m hm c hc

theorem add_extends {n : HeapNode κ ι} (ho : arena.Older) (hra : arena.Reads n.left ha)
    (hrb : arena.Reads n.right hb) :
    arena.Extends (arena.add n) (.node arena.size n.rank n.key n.item ha hb, arena.size + 1) where
  begins := begins_push arena n
  older := older_push ho fun _ hc => hc.elim hra.lt_size hrb.lt_size
  size_eq := Array.size_push ..
  reads := .node Array.getElem?_push_size (hra.mono (begins_push arena n)) (hrb.mono (begins_push arena n))

theorem join_extends (ho : arena.Older) (key : κ) (item : ι) (hra : arena.Reads a ha) (hrb : arena.Reads b hb) :
    arena.Extends (arena.join key item a b) (LeftistHeap.join arena.size key item ha hb) := by
  unfold join LeftistHeap.join
  rw [hra.rank_eq, hrb.rank_eq]
  split
  · exact add_extends (n := ⟨key, item, hb.rank + 1, a, b⟩) ho hra hrb
  · exact add_extends (n := ⟨key, item, ha.rank + 1, b, a⟩) ho hrb hra

theorem Extends.self (ho : arena.Older) (hr : arena.Reads root h) : arena.Extends (root, arena) (h, arena.size) :=
  ⟨.refl _, ho, rfl, hr⟩

theorem Extends.trans {answer answer' : Option Nat × HeapArena κ ι} {heap heap' : LeftistHeap κ ι × Nat}
    (h : arena.Extends answer heap) (h' : answer.2.Extends answer' heap') : arena.Extends answer' heap' :=
  ⟨h.begins.trans h'.begins, h'.older, h'.size_eq, h'.reads⟩

/-- Merging in the table follows merging of trees. -/
theorem mergeWithin_extends (le : κ → κ → Bool) (fuel : Nat) (ho : arena.Older) (hra : arena.Reads a ha)
    (hrb : arena.Reads b hb) (hf : ha.spine + hb.spine ≤ fuel) :
    arena.Extends (mergeWithin le fuel arena a b) (LeftistHeap.mergeWithin le fuel arena.size ha hb) := by
  -- The induction follows both merges at once. What the inner one adds to the table leaves the left subtree readable.
  induction fuel generalizing a b ha hb with
  | zero =>
    cases hra with
    | nil => simpa only [mergeWithin, LeftistHeap.mergeWithin] using .self ho hrb
    | node => simp [LeftistHeap.spine] at hf
  | succ fuel ih =>
    cases hra with
    | nil => simpa only [mergeWithin, LeftistHeap.mergeWithin] using .self ho hrb
    | @node i x la ra getx leftx rightx =>
      have hra : arena.Reads (some i) (.node i x.rank x.key x.item la ra) := .node getx leftx rightx
      cases hrb with
      | nil => simpa only [mergeWithin, LeftistHeap.mergeWithin] using .self ho hra
      | @node j y lb rb gety lefty righty =>
        have hrb : arena.Reads (some j) (.node j y.rank y.key y.item lb rb) := .node gety lefty righty
        simp only [mergeWithin, LeftistHeap.mergeWithin, getx, gety]
        split
        · have hmerge := ih rightx hrb (by simp only [LeftistHeap.spine] at hf ⊢; omega)
          rw [← hmerge.size_eq]
          exact hmerge.trans (join_extends hmerge.older _ _ (leftx.mono hmerge.begins) hmerge.reads)
        · have hmerge := ih righty hra (by simp only [LeftistHeap.spine] at hf ⊢; omega)
          rw [← hmerge.size_eq]
          exact hmerge.trans (join_extends hmerge.older _ _ (lefty.mono hmerge.begins) hmerge.reads)

theorem merge_extends (le : κ → κ → Bool) (ho : arena.Older) (hra : arena.Reads a ha) (hrb : arena.Reads b hb) :
    arena.Extends (arena.merge le a b) (LeftistHeap.merge le arena.size ha hb) := by
  have hf : ha.spine + hb.spine ≤ arena.size + arena.size :=
    Nat.add_le_add (hra.spine_le_size ho) (hrb.spine_le_size ho)
  rw [merge, ← LeftistHeap.mergeWithin_eq_merge le arena.size hf]
  exact mergeWithin_extends le _ ho hra hrb hf

theorem singleton_extends (ho : arena.Older) (key : κ) (item : ι) :
    arena.Extends (arena.singleton key item) (LeftistHeap.singleton arena.size key item) :=
  add_extends (n := ⟨key, item, 1, none, none⟩) ho .nil .nil

theorem insert_extends (le : κ → κ → Bool) (ho : arena.Older) (hr : arena.Reads root h) (key : κ) (item : ι) :
    arena.Extends (arena.insert le root key item) (h.insert le arena.size key item) := by
  have hsingle := singleton_extends ho key item
  have hmerge := merge_extends le hsingle.older (hr.mono hsingle.begins) hsingle.reads
  rw [hsingle.size_eq] at hmerge
  exact hsingle.trans hmerge

end HeapArena

end RankedPlans
