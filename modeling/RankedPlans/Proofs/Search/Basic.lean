import RankedPlans.Proofs.Numbering
import RankedPlans.Search.Basic

/-! What the single operations of a search do to its nodes: which node an edge that is tried changes, and
how. -/

namespace RankedPlans.Search

variable {c : SearchSetting} {s s' : Search} {v w : Nat} {x : State} {cost : Int}

theorem ne_sink_of_stateOf? (h : s.stateOf? v = some x) : v ≠ sink := by
  rintro rfl
  cases h

theorem stateOf?_nodeOf (s : Search) (i : Nat) : s.stateOf? (nodeOf i) = s.table.item? i := by
  unfold stateOf? nodeOf
  by_cases hi : i = 0
  · simp [hi, root, sink]
  · simp [hi, root, sink]

theorem stateOf?_eq_some_iff :
    s.stateOf? v = some x ↔ ∃ i, v = nodeOf i ∧ s.table.item? i = some x := by
  constructor
  · intro h
    have hne := ne_sink_of_stateOf? h
    obtain ⟨i, rfl⟩ : ∃ i, v = nodeOf i := by
      unfold nodeOf
      by_cases hv : v = root
      · exact ⟨0, by simp [hv]⟩
      · simp only [root, sink] at hv hne
        exact ⟨v - 1, by rw [if_neg (by omega)]; omega⟩
    exact ⟨i, rfl, stateOf?_nodeOf s i ▸ h⟩
  · rintro ⟨i, rfl, hi⟩
    rw [stateOf?_nodeOf, hi]

theorem stateOf?_injective (hv : s.stateOf? v = some x) (hw : s.stateOf? w = some x) : v = w := by
  obtain ⟨i, rfl, hi⟩ := stateOf?_eq_some_iff.mp hv
  obtain ⟨j, rfl, hj⟩ := stateOf?_eq_some_iff.mp hw
  rw [Numbering.item?_injective hi hj]

theorem getD_setIfInBounds (nodes : Array SearchNode) (v w : Nat) (n : SearchNode) :
    (nodes.setIfInBounds v n).getD w default =
      if v = w ∧ w < nodes.size then n else nodes.getD w default := by
  rw [Array.getD_eq_getD_getElem?, Array.getD_eq_getD_getElem?, Array.getElem?_setIfInBounds]
  by_cases h : v = w
  · subst h
    by_cases hlt : v < nodes.size <;> simp [hlt]
  · simp [h]

theorem node_set_self (hv : v < s.nodes.size) (n : SearchNode) (o : OpenList) (k : Statistics) :
    node ⟨s.table, s.nodes.setIfInBounds v n, s.edges, o, k⟩ v = n := by
  rw [node, getD_setIfInBounds, if_pos ⟨rfl, hv⟩]

theorem node_set_ne (hw : w ≠ v) (n : SearchNode) (o : OpenList) (k : Statistics) :
    node ⟨s.table, s.nodes.setIfInBounds v n, s.edges, o, k⟩ w = s.node w := by
  rw [node, getD_setIfInBounds, if_neg fun heq => hw heq.1.symm]
  rfl

theorem enqueue_eq (s : Search) (k : Statistics) (v : Nat) (n : SearchNode) :
    ({ s with statistics := k } : Search).enqueue v n =
      ⟨s.table, s.nodes.setIfInBounds v { n with status := .waiting }, s.edges,
        s.frontier.push v (Cost.add n.cost n.estimate) n.cost, k⟩ :=
  rfl

/-- What comes of meeting a node for the first time. -/
theorem open?_cases (c : SearchSetting) (s : Search) (v : Nat) (cost : Int) (via : Option Nat) :
    (∃ k h, s.open? c v cost via = (({ s with statistics := k } : Search).enqueue v
        { s.node v with cost := cost, estimate := h, parent := via }, none) ∧
      ((s.stateOf? v = none ∧ h = 0) ∨
        ∃ x, s.stateOf? v = some x ∧ c.heuristic.estimate c.task x = .value h ∧ 0 ≤ h)) ∨
    (∃ k x, s.open? c v cost via = ({ s with
        nodes := s.nodes.setIfInBounds v { s.node v with status := .deadEnd }, statistics := k }, none) ∧
      s.stateOf? v = some x ∧ c.heuristic.estimate c.task x = .deadEnd) ∨
    ∃ k fault x h, s.open? c v cost via = ({ s with statistics := k }, some fault) ∧
      s.stateOf? v = some x ∧ c.heuristic.estimate c.task x = .value h ∧ h < 0 := by
  unfold open?
  cases hx : s.stateOf? v with
  | none => exact .inl ⟨s.statistics, 0, rfl, .inl ⟨rfl, rfl⟩⟩
  | some x =>
    cases hh : c.heuristic.estimate c.task x with
    | deadEnd =>
      simp only [hh]
      exact .inr (.inl ⟨_, x, rfl, rfl, hh⟩)
    | value h =>
      simp only [hh]
      by_cases hneg : h < 0
      · rw [if_pos hneg]
        exact .inr (.inr ⟨_, _, x, h, rfl, rfl, hh, hneg⟩)
      · rw [if_neg hneg]
        exact .inl ⟨_, h, rfl, .inr ⟨x, rfl, hh, by omega⟩⟩

theorem open?_node_ne {via : Option Nat} (hw : w ≠ v) :
    (s.open? c v cost via).1.node w = s.node w := by
  rcases open?_cases c s v cost via with ⟨k, e, heq, -⟩ | ⟨k, y, heq, -⟩ | ⟨k, fault, -, -, heq, -⟩
  · rw [heq, enqueue_eq]
    exact node_set_ne hw _ _ k
  · rw [heq]
    exact node_set_ne hw _ _ k
  · rw [heq]
    rfl

/-- What comes of an edge that is tried. -/
theorem relax_cases (c : SearchSetting) (s : Search) (v : Nat) (cost : Int) (via : Nat) :
    (s.relax c v cost via = (s, none) ∧ (s.node v).status ≠ .unseen ∧
      ((s.node v).status = .deadEnd ∨ (s.node v).cost ≤ cost ∨
        (s.node v).status = .closed ∧ (c.reopen = false ∨ v = sink))) ∨
    (∃ k, s.relax c v cost via = (({ s with statistics := k } : Search).enqueue v
        { s.node v with cost := cost, parent := some via }, none) ∧ cost < (s.node v).cost ∧
      ((s.node v).status = .waiting ∨
        (s.node v).status = .closed ∧ c.reopen = true ∧ v ≠ sink)) ∨
    ((s.node v).status = .unseen ∧ s.relax c v cost via = s.open? c v cost (some via)) := by
  unfold relax
  cases hstatus : (s.node v).status with
  | unseen =>
    simp only [hstatus]
    exact .inr (.inr ⟨trivial, trivial⟩)
  | waiting =>
    simp only [hstatus]
    by_cases hlt : cost < (s.node v).cost
    · rw [if_pos hlt]
      exact .inr (.inl ⟨s.statistics, rfl, hlt, .inl trivial⟩)
    · rw [if_neg hlt]
      exact .inl ⟨rfl, by simp, .inr (.inl (by omega))⟩
  | closed =>
    simp only [hstatus]
    by_cases hlt : cost < (s.node v).cost ∧ c.reopen = true ∧ v ≠ sink
    · rw [if_pos (by simpa [and_assoc] using hlt)]
      exact .inr (.inl ⟨_, rfl, hlt.1, .inr ⟨trivial, hlt.2⟩⟩)
    · rw [if_neg (by simpa [and_assoc] using hlt)]
      refine .inl ⟨rfl, by simp, .inr ?_⟩
      by_cases hle : (s.node v).cost ≤ cost
      · exact .inl hle
      · cases hreopen : c.reopen with
        | false => exact .inr ⟨trivial, .inl rfl⟩
        | true => exact .inr ⟨trivial, .inr (by simpa [hreopen, Int.not_le.mp hle] using hlt)⟩
  | deadEnd =>
    simp only [hstatus]
    exact .inl ⟨trivial, by simp, .inl trivial⟩

theorem relax_node_ne {via : Nat} (hw : w ≠ v) : (s.relax c v cost via).1.node w = s.node w := by
  rcases relax_cases c s v cost via with ⟨heq, -⟩ | ⟨k, heq, -⟩ | ⟨-, heq⟩
  · rw [heq]
  · rw [heq, enqueue_eq]
    exact node_set_ne hw _ _ k
  · rw [heq]
    exact open?_node_ne hw

end RankedPlans.Search
