import RankedPlans.Proofs.Heap.Arena

/-! Sequences of calls on one table of heaps, where every call may take any earlier answers: all heaps given so far
are kept as they were given, in order and balanced, and each holds the elements that went into it. -/

namespace RankedPlans

/-- A call on a table of heaps. A heap that it takes is the answer of an earlier call, by position, or empty. -/
inductive HeapCall (κ ι : Type) where
  | singleton (key : κ) (item : ι)
  | insert (heap : Option Nat) (key : κ) (item : ι)
  | merge (a b : Option Nat)

/-- The heaps that some calls gave, and how many nodes they made. -/
structure HeapHistory (κ ι : Type) where
  heaps : Array (LeftistHeap κ ι)
  nodes : Nat

namespace HeapHistory

variable {κ ι : Type}

/-- Before the first call. -/
def empty : HeapHistory κ ι := ⟨#[], 0⟩

/-- The heap that a call takes. -/
def heap (h : HeapHistory κ ι) (slot : Option Nat) : LeftistHeap κ ι :=
  slot.elim .nil (h.heaps.getD · .nil)

/-- What a call gives. -/
def answer (le : κ → κ → Bool) (h : HeapHistory κ ι) : HeapCall κ ι → LeftistHeap κ ι × Nat
  | .singleton key item => LeftistHeap.singleton h.nodes key item
  | .insert slot key item => (h.heap slot).insert le h.nodes key item
  | .merge a b => LeftistHeap.merge le h.nodes (h.heap a) (h.heap b)

/-- The elements that go into a call. -/
def inputs (h : HeapHistory κ ι) : HeapCall κ ι → List (κ × ι)
  | .singleton key item => [(key, item)]
  | .insert slot key item => (key, item) :: (h.heap slot).toList
  | .merge a b => (h.heap a).toList ++ (h.heap b).toList

def perform (le : κ → κ → Bool) (h : HeapHistory κ ι) (call : HeapCall κ ι) : HeapHistory κ ι :=
  ⟨h.heaps.push (h.answer le call).1, (h.answer le call).2⟩

/-- Some calls in turn. -/
def run (le : κ → κ → Bool) (calls : List (HeapCall κ ι)) : HeapHistory κ ι :=
  calls.foldl (perform le) empty

/-- All heaps are in order and balanced. -/
def Sound (le : κ → κ → Bool) (h : HeapHistory κ ι) : Prop :=
  ∀ heap ∈ h.heaps, heap.Ordered le ∧ heap.Leftist

variable {le : κ → κ → Bool} {h : HeapHistory κ ι}

theorem Sound.heap (hs : h.Sound le) (slot : Option Nat) : (h.heap slot).Ordered le ∧ (h.heap slot).Leftist := by
  cases slot with
  | none => exact ⟨trivial, trivial⟩
  | some i =>
    rw [HeapHistory.heap, Option.elim_some, Array.getD_eq_getD_getElem?]
    cases hget : h.heaps[i]? with
    | none => exact ⟨trivial, trivial⟩
    | some heap => exact hs heap (Array.mem_of_getElem? hget)

theorem Sound.answer (hle : TotalPreorder le) (hs : h.Sound le) (call : HeapCall κ ι) :
    (h.answer le call).1.Ordered le ∧ (h.answer le call).1.Leftist := by
  cases call with
  | singleton key item => exact ⟨⟨nofun, nofun, trivial, trivial⟩, ⟨Nat.le_refl 0, rfl, trivial, trivial⟩⟩
  | insert slot key item =>
    obtain ⟨hordered, hleftist⟩ := hs.heap slot
    exact ⟨LeftistHeap.insert_ordered hle _ hordered key item, LeftistHeap.insert_leftist le _ hleftist key item⟩
  | merge a b =>
    exact ⟨LeftistHeap.merge_ordered hle _ (hs.heap a).1 (hs.heap b).1,
      LeftistHeap.merge_leftist le _ (hs.heap a).2 (hs.heap b).2⟩

/-- A call gives the elements that went into it. -/
theorem answer_toList (le : κ → κ → Bool) (h : HeapHistory κ ι) (call : HeapCall κ ι) :
    (h.answer le call).1.toList.Perm (h.inputs call) := by
  cases call with
  | singleton key item => exact List.Perm.refl _
  | insert slot key item => exact LeftistHeap.insert_toList le _ _ key item
  | merge a b => exact LeftistHeap.merge_toList le _ _ _

theorem Sound.perform (hle : TotalPreorder le) (hs : h.Sound le) (call : HeapCall κ ι) :
    (h.perform le call).Sound le := by
  intro heap hmem
  rcases Array.mem_push.mp hmem with hmem | rfl
  · exact hs heap hmem
  · exact hs.answer hle call

theorem run_sound (hle : TotalPreorder le) (calls : List (HeapCall κ ι)) : (run le calls).Sound le :=
  List.foldlRecOn calls _ (fun _ hmem => by simp [empty] at hmem) fun _ hs call _ => hs.perform hle call

theorem run_concat (le : κ → κ → Bool) (calls : List (HeapCall κ ι)) (call : HeapCall κ ι) :
    run le (calls ++ [call]) = (run le calls).perform le call := by
  rw [run, List.foldl_append]
  rfl

theorem heap_perform (le : κ → κ → Bool) (h : HeapHistory κ ι) (call : HeapCall κ ι) :
    (h.perform le call).heap (some h.heaps.size) = (h.answer le call).1 := by
  simp [heap, perform]

theorem size_foldl_perform (le : κ → κ → Bool) (calls : List (HeapCall κ ι)) (h : HeapHistory κ ι) :
    (calls.foldl (perform le) h).heaps.size = h.heaps.size + calls.length := by
  induction calls generalizing h with
  | nil => rfl
  | cons call calls ih =>
    rw [List.foldl_cons, ih, perform, Array.size_push, List.length_cons]
    omega

theorem size_run (le : κ → κ → Bool) (calls : List (HeapCall κ ι)) : (run le calls).heaps.size = calls.length :=
  (size_foldl_perform le calls empty).trans (Nat.zero_add _)

end HeapHistory

/-- The roots that some calls gave, over one table of nodes. -/
structure HeapSession (κ ι : Type) where
  roots : Array (Option Nat)
  arena : HeapArena κ ι

namespace HeapSession

variable {κ ι : Type}

def empty : HeapSession κ ι := ⟨#[], #[]⟩

def root (s : HeapSession κ ι) (slot : Option Nat) : Option Nat :=
  slot.elim none (s.roots.getD · none)

/-- What a call gives, and the table after it. -/
def answer (le : κ → κ → Bool) (s : HeapSession κ ι) : HeapCall κ ι → Option Nat × HeapArena κ ι
  | .singleton key item => s.arena.singleton key item
  | .insert slot key item => s.arena.insert le (s.root slot) key item
  | .merge a b => s.arena.merge le (s.root a) (s.root b)

def perform (le : κ → κ → Bool) (s : HeapSession κ ι) (call : HeapCall κ ι) : HeapSession κ ι :=
  ⟨s.roots.push (s.answer le call).1, (s.answer le call).2⟩

def run (le : κ → κ → Bool) (calls : List (HeapCall κ ι)) : HeapSession κ ι :=
  calls.foldl (perform le) empty

/-- The table holds all heaps of a history at once. -/
structure Holds (s : HeapSession κ ι) (h : HeapHistory κ ι) : Prop where
  older : s.arena.Older
  size_eq : s.arena.size = h.nodes
  count_eq : s.roots.size = h.heaps.size
  reads : ∀ i, s.arena.Reads (s.roots.getD i none) (h.heaps.getD i .nil)

variable {le : κ → κ → Bool} {s : HeapSession κ ι} {h : HeapHistory κ ι}

theorem Holds.heap_reads (hs : s.Holds h) (slot : Option Nat) : s.arena.Reads (s.root slot) (h.heap slot) := by
  cases slot with
  | none => exact .nil
  | some i => exact hs.reads i

theorem Holds.answer (hs : s.Holds h) (call : HeapCall κ ι) :
    s.arena.Extends (s.answer le call) (h.answer le call) := by
  unfold HeapSession.answer HeapHistory.answer
  rw [← hs.size_eq]
  cases call with
  | singleton key item => exact HeapArena.singleton_extends hs.older key item
  | insert slot key item => exact HeapArena.insert_extends le hs.older (hs.heap_reads slot) key item
  | merge a b => exact HeapArena.merge_extends le hs.older (hs.heap_reads a) (hs.heap_reads b)

theorem empty_holds : (empty : HeapSession κ ι).Holds .empty where
  older := by intro i n hn; simp [empty] at hn
  size_eq := rfl
  count_eq := rfl
  reads _ := .nil

/-- A later session has the same roots first, over a table that begins alike. -/
structure Grows (s s' : HeapSession κ ι) : Prop where
  begins : s.arena.Begins s'.arena
  roots : ∀ i < s.roots.size, s'.roots.getD i none = s.roots.getD i none
  size_le : s.roots.size ≤ s'.roots.size

theorem Grows.refl (s : HeapSession κ ι) : s.Grows s :=
  ⟨.refl _, fun _ _ => rfl, Nat.le_refl _⟩

theorem Grows.trans {s' s'' : HeapSession κ ι} (h : s.Grows s') (h' : s'.Grows s'') : s.Grows s'' :=
  ⟨h.begins.trans h'.begins, fun i hi => (h'.roots i (Nat.lt_of_lt_of_le hi h.size_le)).trans (h.roots i hi),
    Nat.le_trans h.size_le h'.size_le⟩

/-- A call adds a heap and leaves all earlier ones as they are. -/
theorem Holds.perform (hs : s.Holds h) (call : HeapCall κ ι) :
    (s.perform le call).Holds (h.perform le call) ∧ s.Grows (s.perform le call) := by
  have hcall : s.arena.Extends (s.answer le call) (h.answer le call) := hs.answer call
  have hsize : (s.perform le call).roots.size = s.roots.size + 1 := Array.size_push ..
  refine ⟨⟨hcall.older, hcall.size_eq, ?_, fun i => ?_⟩, ⟨hcall.begins, fun i hi => ?_, hsize ▸ Nat.le_succ _⟩⟩
  · rw [hsize, hs.count_eq]
    exact (Array.size_push ..).symm
  · have hold := (hs.reads i).mono hcall.begins
    simp only [HeapSession.perform, HeapHistory.perform, Array.getD_eq_getD_getElem?, Array.getElem?_push,
      hs.count_eq] at hold ⊢
    split
    · exact hcall.reads
    · exact hold
  · simp only [HeapSession.perform, Array.getD_eq_getD_getElem?, Array.getElem?_push, Nat.ne_of_lt hi, if_false]

theorem Holds.run (hs : s.Holds h) (calls : List (HeapCall κ ι)) :
    (calls.foldl (HeapSession.perform le) s).Holds (calls.foldl (HeapHistory.perform le) h) ∧
      s.Grows (calls.foldl (HeapSession.perform le) s) := by
  induction calls generalizing s h with
  | nil => exact ⟨hs, .refl s⟩
  | cons call calls ih =>
    obtain ⟨hcall, hgrows⟩ : _ ∧ s.Grows (s.perform le call) := hs.perform call
    obtain ⟨hrest, hgrows'⟩ := ih hcall
    exact ⟨hrest, hgrows.trans hgrows'⟩

/-- After any calls the table holds the heaps that they gave, and still does after any later ones. -/
theorem run_reads (le : κ → κ → Bool) (calls later : List (HeapCall κ ι)) :
    (run le calls).Holds (.run le calls) ∧ (run le calls).Grows (run le (calls ++ later)) := by
  have hcalls : (run le calls).Holds (.run le calls) := (empty_holds.run calls).1
  refine ⟨hcalls, ?_⟩
  rw [run, run, List.foldl_append]
  exact (hcalls.run later).2

/-- After any calls every root given so far reads as the heap that its call gave, also after any later calls. All
these heaps are in order and balanced, and drain to their elements by ascending key. One more call gives the
elements that go into it, and a merge makes a number of nodes that is logarithmic in the sizes of its heaps. -/
theorem persistent (hle : TotalPreorder le) (calls later : List (HeapCall κ ι)) :
    (∀ i < calls.length,
      (run le (calls ++ later)).root (some i) = (run le calls).root (some i) ∧
      ∀ heap, ((run le calls).arena.Reads ((run le calls).root (some i)) heap ↔
          heap = (HeapHistory.run le calls).heap (some i)) ∧
        ((run le (calls ++ later)).arena.Reads ((run le calls).root (some i)) heap ↔
          heap = (HeapHistory.run le calls).heap (some i))) ∧
    (∀ slot, ((HeapHistory.run le calls).heap slot).Ordered le ∧ ((HeapHistory.run le calls).heap slot).Leftist ∧
      (((HeapHistory.run le calls).heap slot).drain le).Perm ((HeapHistory.run le calls).heap slot).toList ∧
      (((HeapHistory.run le calls).heap slot).drain le).Pairwise fun p q => le p.1 q.1 = true) ∧
    (∀ call, ((HeapHistory.run le (calls ++ [call])).heap (some calls.length)).toList.Perm
      ((HeapHistory.run le calls).inputs call)) ∧
    ∀ a b, (run le (calls ++ [.merge a b])).arena.size ≤ (run le calls).arena.size +
      Nat.log2 (((HeapHistory.run le calls).heap a).size + 1) +
      Nat.log2 (((HeapHistory.run le calls).heap b).size + 1) := by
  have hsound := HeapHistory.run_sound hle calls
  have hcount := HeapHistory.size_run le calls
  obtain ⟨hholds, hgrows⟩ := run_reads le calls later
  refine ⟨fun i hi => ⟨?_, fun heap => ⟨(hholds.heap_reads (some i)).reads_iff,
      ((hholds.heap_reads (some i)).mono hgrows.begins).reads_iff⟩⟩, fun slot => ?_, fun call => ?_, fun a b => ?_⟩
  · exact hgrows.roots i (by rwa [hholds.count_eq, hcount])
  · obtain ⟨hordered, hleftist⟩ := hsound.heap slot
    exact ⟨hordered, hleftist, LeftistHeap.drain_spec hle hordered⟩
  · rw [HeapHistory.run_concat, ← hcount, HeapHistory.heap_perform]
    exact HeapHistory.answer_toList le _ call
  · have hsize := (run_reads le (calls ++ [HeapCall.merge a b]) []).1.size_eq
    rw [hsize, hholds.size_eq, HeapHistory.run_concat]
    exact LeftistHeap.merge_snd_le le _ (hsound.heap a).2 (hsound.heap b).2

theorem int_totalPreorder : TotalPreorder fun a b : Int => decide (a ≤ b) where
  trans a b c hab hbc := by
    rw [decide_eq_true_eq] at *
    omega
  total a b := by
    rw [decide_eq_true_eq, decide_eq_true_eq]
    omega

/-- A heap with two equal keys, and its merge with itself. -/
def doubledHeap : List (HeapCall Int Nat) :=
  [.singleton 3 0, .insert (some 0) 3 1, .merge (some 1) (some 1)]

/-- The heap that was merged with itself is still there after its result has been merged with it once more. -/
theorem persistent_doubledHeap :
    (run (fun a b => decide (a ≤ b)) (doubledHeap ++ [.merge (some 2) (some 1)])).arena.Reads (some 2)
      (.node 2 1 3 0 (.node 1 1 3 1 .nil .nil) .nil) ∧
    ((HeapHistory.run (fun a b => decide (a ≤ b)) doubledHeap).heap (some 2)).toList.Perm
      [(3, 0), (3, 1), (3, 0), (3, 1)] := by
  constructor
  · exact ((persistent int_totalPreorder doubledHeap [.merge (some 2) (some 1)]).1 1 (by decide)).2 _ |>.2.mpr rfl
  · exact (persistent int_totalPreorder (doubledHeap.take 2) []).2.2.1 (.merge (some 1) (some 1))

end HeapSession

end RankedPlans
