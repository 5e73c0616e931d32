import RankedPlans.Graph.Basic

/-! Walks of a graph: how they are put together and taken apart, and what they cost. -/

namespace RankedPlans.Graph

variable {g : Graph} {u v w : Nat} {es fs : List Nat}

@[simp] theorem walk_nil_iff : g.Walk u [] v ↔ u = v := by
  constructor
  · intro h
    cases h
    rfl
  · rintro rfl
    exact .nil u

theorem walk_cons_iff {e : Nat} : g.Walk u (e :: es) v ↔
    ∃ edge, g.edges[e]? = some edge ∧ edge.source = u ∧ g.Walk edge.target es v := by
  constructor
  · intro h
    cases h with
    | cons he hes => exact ⟨_, he, rfl, hes⟩
  · rintro ⟨edge, he, rfl, hes⟩
    exact .cons he hes

theorem walk_append_iff : g.Walk u (es ++ fs) w ↔ ∃ v, g.Walk u es v ∧ g.Walk v fs w := by
  induction es generalizing u with
  | nil => simp
  | cons e es ih =>
    rw [List.cons_append, walk_cons_iff]
    constructor
    · rintro ⟨edge, he, hs, h⟩
      obtain ⟨v, hes, hfs⟩ := ih.mp h
      exact ⟨v, walk_cons_iff.mpr ⟨edge, he, hs, hes⟩, hfs⟩
    · rintro ⟨v, h, hfs⟩
      obtain ⟨edge, he, hs, hes⟩ := walk_cons_iff.mp h
      exact ⟨edge, he, hs, ih.mpr ⟨v, hes, hfs⟩⟩

theorem Walk.append (h : g.Walk u es v) (h' : g.Walk v fs w) : g.Walk u (es ++ fs) w :=
  walk_append_iff.mpr ⟨v, h, h'⟩

theorem walk_concat_iff {e : Nat} : g.Walk u (es ++ [e]) v ↔
    ∃ edge, g.edges[e]? = some edge ∧ edge.target = v ∧ g.Walk u es edge.source := by
  rw [walk_append_iff]
  constructor
  · rintro ⟨x, hes, h⟩
    obtain ⟨edge, he, rfl, hv⟩ := walk_cons_iff.mp h
    exact ⟨edge, he, walk_nil_iff.mp hv, hes⟩
  · rintro ⟨edge, he, rfl, hes⟩
    exact ⟨_, hes, walk_cons_iff.mpr ⟨edge, he, rfl, .nil _⟩⟩

@[simp] theorem cost_nil : g.cost [] = 0 := rfl

theorem cost_cons {e : Nat} {edge : Edge} (he : g.edges[e]? = some edge) :
    g.cost (e :: es) = edge.cost + g.cost es := by
  simp [cost, he]

theorem cost_append (g : Graph) (es fs : List Nat) :
    g.cost (es ++ fs) = g.cost es + g.cost fs := by
  induction es with
  | nil => simp
  | cons e es ih => simp only [List.cons_append, cost, ih]; omega

theorem cost_concat {e : Nat} {edge : Edge} (he : g.edges[e]? = some edge) :
    g.cost (es ++ [e]) = g.cost es + edge.cost := by
  rw [cost_append, cost_cons he, cost_nil]
  omega

theorem Walk.cost_nonneg (hw : g.Walk u es v)
    (h : ∀ {e : Nat} {edge : Edge}, g.edges[e]? = some edge → 0 ≤ edge.cost) : 0 ≤ g.cost es := by
  induction hw with
  | nil => exact Int.le_refl 0
  | cons he _ ih =>
    rw [cost_cons he]
    have := h he
    omega

theorem Walk.lt_edges (hw : g.Walk u es v) : ∀ e ∈ es, e < g.edges.size := by
  induction hw with
  | nil => nofun
  | cons he _ ih => exact List.forall_mem_cons.mpr ⟨(Array.getElem?_eq_some_iff.mp he).1, ih⟩

/-- The nodes that edges start from. -/
def sources (g : Graph) (es : List Nat) : List Nat :=
  es.filterMap fun e => g.edges[e]?.map Edge.source

@[simp] theorem sources_nil (g : Graph) : g.sources [] = [] := rfl

theorem sources_cons {e : Nat} {edge : Edge} (he : g.edges[e]? = some edge) :
    g.sources (e :: es) = edge.source :: g.sources es := by
  simp [sources, he]

/-- From any of its nodes on, a walk is a walk. -/
theorem Walk.exists_suffix (h : g.Walk u es v) (hw : w ∈ g.sources es ++ [v]) :
    ∃ fs, g.Walk w fs v ∧ g.sources fs ++ [v] <:+ g.sources es ++ [v] := by
  induction h with
  | nil v =>
    obtain rfl : w = v := by simpa using hw
    exact ⟨[], .nil w, List.suffix_rfl⟩
  | @cons e v edge es he hes ih =>
    rw [sources_cons he, List.cons_append] at hw ⊢
    rcases List.mem_cons.mp hw with rfl | hw
    · exact ⟨e :: es, .cons he hes, by simp [sources_cons he]⟩
    · obtain ⟨fs, hfs, hsuffix⟩ := ih hw
      exact ⟨fs, hfs, hsuffix.trans (List.suffix_cons ..)⟩

/-- Where there is a walk there is one that comes to no node twice. -/
theorem Walk.exists_nodup (h : g.Walk u es v) : ∃ fs, g.Walk u fs v ∧ (g.sources fs ++ [v]).Nodup := by
  induction h with
  | nil v => exact ⟨[], .nil v, by simp⟩
  | @cons e v edge es he _ ih =>
    obtain ⟨fs, hfs, hnodup⟩ := ih
    by_cases hmem : edge.source ∈ g.sources fs ++ [v]
    · obtain ⟨fs', hfs', hsuffix⟩ := hfs.exists_suffix hmem
      exact ⟨fs', hfs', hnodup.sublist hsuffix.sublist⟩
    · refine ⟨e :: fs, .cons he hfs, ?_⟩
      rw [sources_cons he, List.cons_append]
      exact List.nodup_cons.mpr ⟨hmem, hnodup⟩

/-- A walk stays one of the same cost when edges are added. -/
theorem Walk.mono {g' : Graph} (hw : g.Walk u es v)
    (h : ∀ {e : Nat} {edge : Edge}, g.edges[e]? = some edge → g'.edges[e]? = some edge) :
    g'.Walk u es v ∧ g'.cost es = g.cost es := by
  induction hw with
  | nil v => exact ⟨.nil v, rfl⟩
  | cons he _ ih => exact ⟨.cons (h he) ih.1, by rw [cost_cons he, cost_cons (h he), ih.2]⟩

end RankedPlans.Graph
