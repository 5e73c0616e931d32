import Mathlib
import RankedPlans.Proofs.World.Scenes
import RankedPlans.World.Grid

/-! Walks on a grid. The states of the task are the cells, and each pair of neighbouring cells has one operator that
leads from the one to the other. Where there are no walls, what is left to pay is the distance of the target, the
cheapest plans are those that go right and up only, and Pascal's rule counts them. -/

namespace RankedPlans.Grid

open Strips (Deed)

variable {g : Grid} {t : Task} {s : State} {a b : Nat × Nat} {d : Deed (Nat × Nat)}

section Cells

theorem isOpen_iff : g.isOpen a = true ↔ a.1 < g.width ∧ a.2 < g.height ∧ a ∉ g.walls := by
  simp [isOpen, and_assoc]

theorem mem_cells_iff : a ∈ g.cells ↔ g.isOpen a = true := by
  simp only [cells, List.mem_filter, List.mem_flatMap, List.mem_map, List.mem_range]
  refine ⟨And.right, fun h => ⟨?_, h⟩⟩
  obtain ⟨hwidth, hheight, -⟩ := isOpen_iff.mp h
  exact ⟨a.2, hheight, a.1, hwidth, rfl⟩

theorem nodup_cells (g : Grid) : g.cells.Nodup := by
  refine List.Nodup.filter _ (List.nodup_flatMap.mpr ⟨fun y _ => ?_, ?_⟩)
  · exact List.nodup_range.map fun x x' heq => congrArg Prod.fst heq
  · refine List.nodup_range.imp fun hne => ?_
    rw [Function.onFun, List.disjoint_left]
    simp only [List.mem_map]
    rintro _ ⟨x, -, rfl⟩ ⟨x', -, heq⟩
    exact hne (congrArg Prod.snd heq).symm

/-- Neighbours differ by one in one of the coordinates. -/
theorem mem_neighbours_iff : b ∈ g.neighbours a ↔ g.isOpen b = true ∧
    (b = (a.1 + 1, a.2) ∨ b.1 + 1 = a.1 ∧ b.2 = a.2 ∨ b = (a.1, a.2 + 1) ∨ b.1 = a.1 ∧ b.2 + 1 = a.2) := by
  obtain ⟨x, y⟩ := a
  obtain ⟨x', y'⟩ := b
  simp only [neighbours, List.mem_filter, List.mem_append, List.mem_singleton, List.mem_ite_nil_right]
  grind

theorem nodup_neighbours (g : Grid) (a : Nat × Nat) : (g.neighbours a).Nodup := by
  obtain ⟨x, y⟩ := a
  refine List.Nodup.filter _ ?_
  by_cases hx : 0 < x <;> by_cases hy : 0 < y <;> simp [hx, hy] <;> omega

end Cells

section Names

/-- Different cells have different names, since numbers are written without a low line. -/
theorem position_injective : Function.Injective position := by
  rintro ⟨x, y⟩ ⟨x', y'⟩ heq
  have hdigits (n : Nat) : '_' ∉ n.repr.toList := by
    rw [Nat.toList_repr]
    intro hmem
    cases Nat.isDigit_of_mem_toDigits (by decide) (by decide) hmem
  have hnames : "at " ++ x.repr ++ "_" ++ y.repr = "at " ++ x'.repr ++ "_" ++ y'.repr := heq
  have hchars : x.repr.toList ++ '_' :: y.repr.toList = x'.repr.toList ++ '_' :: y'.repr.toList := by
    simpa using congrArg String.toList hnames
  obtain ⟨hx, -, hy⟩ := (List.append_cons_inj_of_notMem (hdigits x) (hdigits y)).mp hchars
  rw [Nat.repr_inj.mp (String.toList_injective hx), Nat.repr_inj.mp (String.toList_injective hy)]

end Names

section Deeds

/-- The walk from a cell to another one. -/
def step (a b : Nat × Nat) : Deed (Nat × Nat) :=
  ⟨s!"move {a.1}_{a.2} {b.1}_{b.2}", 1, [a], [b], [a]⟩

def deeds (g : Grid) : List (Deed (Nat × Nat)) :=
  g.cells.flatMap fun a => (g.neighbours a).map (step a)

theorem deeds_entries (g : Grid) : g.entries.filterMap Strips.Entry.deed? = g.deeds.map (Deed.map position) := by
  rw [entries, deeds, List.filterMap_flatMap, List.map_flatMap]
  refine List.flatMap_congr fun a _ => ?_
  rw [List.filterMap_cons_none rfl, List.filterMap_map, List.map_map, ← List.filterMap_eq_map]
  rfl

theorem step_inj {a' b' : Nat × Nat} (h : step a b = step a' b') : a = a' ∧ b = b' :=
  ⟨List.singleton_inj.mp (congrArg Deed.pre h), List.singleton_inj.mp (congrArg Deed.add h)⟩

theorem mem_deeds_iff : d ∈ g.deeds ↔ ∃ a b, g.isOpen a = true ∧ b ∈ g.neighbours a ∧ d = step a b := by
  simp only [deeds, List.mem_flatMap, mem_cells_iff, List.mem_map, eq_comm (a := d)]
  grind

/-- No walk is listed twice. -/
theorem nodup_deeds (g : Grid) : g.deeds.Nodup := by
  refine List.nodup_flatMap.mpr ⟨fun a _ => ?_, ?_⟩
  · exact (g.nodup_neighbours a).map fun b b' heq => (step_inj heq).2
  · refine g.nodup_cells.imp fun hne => ?_
    rw [Function.onFun, List.disjoint_left]
    simp only [List.mem_map]
    rintro _ ⟨b, -, rfl⟩ ⟨b', -, heq⟩
    exact hne (step_inj heq).1.symm

end Deeds

section Scenes

/-- A scene is the cell of the robot. -/
@[simps] def depiction (g : Grid) : Depiction (Nat × Nat) (Nat × Nat) where
  name := position
  known := {a | g.isOpen a = true}
  Says c a := c = a
  Possible c := g.isOpen c = true

theorem turns_step_iff {c' : Nat × Nat} (hb : g.isOpen b = true) : g.depiction.Turns (step a b) a c' ↔ c' = b := by
  constructor
  · intro h
    exact (h.says_iff b hb).mp (.inl (List.mem_singleton.mpr rfl))
  · rintro rfl
    refine ⟨hb, fun x _ => ?_⟩
    simp [step]
    grind

theorem isOpen_of_mem_deeds (hd : d ∈ g.deeds) : ∀ a ∈ d.atoms, g.isOpen a = true := by
  obtain ⟨a, b, ha, hb, rfl⟩ := mem_deeds_iff.mp hd
  simp [step, Deed.atoms, ha, (mem_neighbours_iff.mp hb).1]

end Scenes

section Distances

/-- What is left to pay in a cell: the rows and the columns up to the target. -/
def left (g : Grid) (a : Nat × Nat) : Nat :=
  (g.width - 1 - a.1) + (g.height - 1 - a.2)

def target (g : Grid) : Nat × Nat :=
  (g.width - 1, g.height - 1)

theorem left_right (h : a.1 + 1 < g.width) : g.left a = 1 + g.left (a.1 + 1, a.2) := by
  simp only [left]
  omega

theorem left_up (h : a.2 + 1 < g.height) : g.left a = 1 + g.left (a.1, a.2 + 1) := by
  simp only [left]
  omega

variable (hg : g.walls = [])
include hg

theorem isOpen_iff_lt : g.isOpen a = true ↔ a.1 < g.width ∧ a.2 < g.height := by
  simp [isOpen_iff, hg]

theorem right_mem_neighbours_iff (ha : g.isOpen a = true) : (a.1 + 1, a.2) ∈ g.neighbours a ↔ a.1 + 1 < g.width := by
  rw [mem_neighbours_iff, isOpen_iff_lt hg]
  exact ⟨fun h => h.1.1, fun h => ⟨⟨h, ((isOpen_iff_lt hg).mp ha).2⟩, .inl rfl⟩⟩

theorem up_mem_neighbours_iff (ha : g.isOpen a = true) : (a.1, a.2 + 1) ∈ g.neighbours a ↔ a.2 + 1 < g.height := by
  rw [mem_neighbours_iff, isOpen_iff_lt hg]
  exact ⟨fun h => h.1.2, fun h => ⟨⟨((isOpen_iff_lt hg).mp ha).1, h⟩, .inr (.inr (.inl rfl))⟩⟩

theorem priced (hwidth : 0 < g.width) (hheight : 0 < g.height) : g.depiction.Priced g.deeds [g.target] g.left where
  cost_pos := by
    intro d hd
    obtain ⟨a, b, -, -, rfl⟩ := mem_deeds_iff.mp hd
    exact Int.one_pos
  step := by
    intro c d hc hd hpre
    obtain ⟨a, b, -, hb, rfl⟩ := mem_deeds_iff.mp hd
    obtain rfl : c = a := hpre a (List.mem_singleton.mpr rfl)
    refine ⟨b, (turns_step_iff (mem_neighbours_iff.mp hb).1).mpr rfl, ?_⟩
    obtain ⟨-, rfl | hb | rfl | hb⟩ := mem_neighbours_iff.mp hb <;> simp only [left, step] <;> omega
  progress := by
    intro c hc hpos
    obtain ⟨b, hb, hleft⟩ : ∃ b ∈ g.neighbours c, g.left c = 1 + g.left b := by
      by_cases hright : c.1 + 1 < g.width
      · exact ⟨_, (right_mem_neighbours_iff hg hc).mpr hright, left_right hright⟩
      · have hup : c.2 + 1 < g.height := by
          simp only [left] at hpos
          omega
        exact ⟨_, (up_mem_neighbours_iff hg hc).mpr hup, left_up hup⟩
    refine ⟨step c b, mem_deeds_iff.mpr ⟨c, b, hc, hb, rfl⟩, ?_, b,
      (turns_step_iff (mem_neighbours_iff.mp hb).1).mpr rfl, ?_⟩
    · simp [step]
    · simp [hleft, step]
  goal_known := by
    simp only [List.mem_singleton, forall_eq]
    exact (isOpen_iff_lt hg).mpr ⟨by simp only [target]; omega, by simp only [target]; omega⟩
  goal_iff := by
    intro c hc
    have := (isOpen_iff_lt hg).mp hc
    simp [left, target, Prod.ext_iff]
    omega

end Distances

section Counting

/-- The cheapest ways to the target that begin with a walk to a cell. -/
def through (g : Grid) (t : Task) (s : State) (a b : Nat × Nat) : Set Plan :=
  {plan | ∃ op rest, plan = op :: rest ∧ g.deeds[op]? = some (step a b) ∧ rest ∈ t.ways (t.apply s op) (g.left b : Int)}

theorem disjoint_through {b' : Nat × Nat} (hne : b ≠ b') :
    Disjoint (g.through t s a b) (g.through t s a b') := by
  rw [Set.disjoint_left]
  rintro _ ⟨op, rest, rfl, hop, -⟩ ⟨op', rest', heq, hop', -⟩
  obtain ⟨rfl, -⟩ := List.cons.inj heq
  exact hne (step_inj (Option.some.inj (hop.symm.trans hop'))).2

/-- No way begins with a walk off the grid. -/
theorem through_eq_empty (hb : b ∉ g.neighbours a) : g.through t s a b = ∅ := by
  rw [Set.eq_empty_iff_forall_notMem]
  rintro _ ⟨op, rest, -, hop, -⟩
  obtain ⟨a', b', -, hb', heq⟩ := mem_deeds_iff.mp (List.mem_of_getElem? hop)
  obtain ⟨rfl, rfl⟩ := step_inj heq
  exact hb hb'

/-- The ways that begin with a walk are the ways from where it leads to, as only one operator does it. -/
theorem encard_through {op : Nat} (hop : g.deeds[op]? = some (step a b)) :
    (g.through t s a b).encard = (t.ways (t.apply s op) (g.left b : Int)).encard := by
  have himage : g.through t s a b = (op :: ·) '' t.ways (t.apply s op) (g.left b : Int) := by
    ext plan
    constructor
    · rintro ⟨op', rest, rfl, hop', hrest⟩
      obtain rfl : op' = op := 
        (List.getElem?_inj (List.getElem?_eq_some_iff.mp hop').1 g.nodup_deeds).mp (hop'.trans hop.symm)
      exact ⟨rest, hrest, rfl⟩
    · rintro ⟨rest, hrest, rfl⟩
      exact ⟨op, rest, rfl, hop, hrest⟩
  rw [himage, Function.Injective.encard_image fun _ _ heq => (List.cons.inj heq).2]

variable {init : List (Nat × Nat)} (hg : g.walls = []) (h : g.depiction.Enacted t g.deeds init [g.target])
include hg h

/-- A way that begins with a walk towards the target and goes on cheapest is a cheapest one. -/
theorem through_subset_ways (hs : g.depiction.Shows t a s) (hleft : g.isOpen b = true → g.left a = 1 + g.left b) :
    g.through t s a b ⊆ t.ways s (g.left a : Int) := by
  have ha := (isOpen_iff_lt hg).mp hs.possible
  have hp := priced hg (Nat.zero_lt_of_lt ha.1) (Nat.zero_lt_of_lt ha.2)
  rintro _ ⟨op, rest, rfl, hop, hrest⟩
  obtain ⟨a', b', -, hb, heq⟩ := mem_deeds_iff.mp (List.mem_of_getElem? hop)
  obtain ⟨rfl, rfl⟩ := step_inj heq
  have hopen := (mem_neighbours_iff.mp hb).1
  refine (hp.cons_mem_ways_iff h hs).mpr ⟨_, hop, by simp [step], b, (turns_step_iff hopen).mpr rfl, ?_, hrest⟩
  rw [hleft hopen, Int.natCast_add]
  rfl

/-- A cheapest way begins with a walk to the right or up. -/
theorem ways_eq_union (hs : g.depiction.Shows t a s) (hpos : 0 < g.left a) : t.ways s (g.left a : Int) =
    g.through t s a (a.1 + 1, a.2) ∪ g.through t s a (a.1, a.2 + 1) := by
  have ha := (isOpen_iff_lt hg).mp hs.possible
  have hp := priced hg (Nat.zero_lt_of_lt ha.1) (Nat.zero_lt_of_lt ha.2)
  refine Set.Subset.antisymm (fun plan hplan => ?_) (Set.union_subset ?right ?up)
  case right => exact through_subset_ways hg h hs fun hopen => left_right ((isOpen_iff_lt hg).mp hopen).1
  case up => exact through_subset_ways hg h hs fun hopen => left_up ((isOpen_iff_lt hg).mp hopen).2
  cases plan with
  | nil => exact absurd ((hp.nil_mem_ways_iff h hs).mp hplan) hpos.ne'
  | cons op rest =>
    obtain ⟨d, hop, hpre, b, hturns, hleft, hrest⟩ := (hp.cons_mem_ways_iff h hs).mp hplan
    obtain ⟨a', b', -, hb, rfl⟩ := mem_deeds_iff.mp (List.mem_of_getElem? hop)
    obtain rfl : a = a' := hpre a' (List.mem_singleton.mpr rfl)
    obtain rfl := (turns_step_iff (mem_neighbours_iff.mp hb).1).mp hturns
    simp only [left, step] at hleft
    -- a walk to the left or down leads away from the target
    obtain ⟨-, rfl | hb | rfl | hb⟩ := mem_neighbours_iff.mp hb
    · exact .inl ⟨op, rest, rfl, hop, hrest⟩
    · omega
    · exact .inr ⟨op, rest, rfl, hop, hrest⟩
    · omega

/-- Pascal's rule counts the cheapest ways. -/
theorem encard_ways (hs : g.depiction.Shows t a s) :
    (t.ways s (g.left a : Int)).encard = (g.left a).choose (g.width - 1 - a.1) := by
  induction hn : g.left a generalizing a s with
  | zero =>
    have ha := (isOpen_iff_lt hg).mp hs.possible
    have hp := priced hg (Nat.zero_lt_of_lt ha.1) (Nat.zero_lt_of_lt ha.2)
    have hcolumn : g.width - 1 - a.1 = 0 := by
      simp only [left] at hn
      omega
    rw [← hn, hp.ways_eq_singleton h hs hn, hn, hcolumn, Set.encard_singleton, Nat.choose_zero_right, Nat.cast_one]
  | succ n ih =>
    have hafter {b : Nat × Nat} (hb : b ∈ g.neighbours a) (hleft : g.left a = 1 + g.left b) :
        (g.through t s a b).encard = n.choose (g.width - 1 - b.1) := by
      obtain ⟨op, hop⟩ := List.getElem?_of_mem (mem_deeds_iff.mpr ⟨a, b, hs.possible, hb, rfl⟩)
      have hturns : g.depiction.Turns (step a b) a b := (turns_step_iff (mem_neighbours_iff.mp hb).1).mpr rfl
      have hn' : g.left b = n := by omega
      rw [encard_through hop, hn']
      exact ih (hs.turn h hop hturns) hn'
    have hright (k : Nat) (hk : g.width - 1 - a.1 = k + 1) :
        (g.through t s a (a.1 + 1, a.2)).encard = n.choose k := by
      have hlt : a.1 + 1 < g.width := by omega
      rw [hafter ((right_mem_neighbours_iff hg hs.possible).mpr hlt) (left_right hlt)]
      congr 2
      omega
    have hup : (g.through t s a (a.1, a.2 + 1)).encard = n.choose (g.width - 1 - a.1) := by
      by_cases hlt : a.2 + 1 < g.height
      · exact hafter ((up_mem_neighbours_iff hg hs.possible).mpr hlt) (left_up hlt)
      · -- in the highest row all that is left is to go right
        have hall : g.width - 1 - a.1 = n + 1 := by
          simp only [left] at hn
          omega
        rw [through_eq_empty (mt (up_mem_neighbours_iff hg hs.possible).mp hlt), hall, Nat.choose_succ_self,
          Set.encard_empty, Nat.cast_zero]
    rw [← hn, ways_eq_union hg h hs (by omega), Set.encard_union_eq (disjoint_through (by simp)), hn, hup]
    cases hk : g.width - 1 - a.1 with
    | zero =>
      have hnot : ¬a.1 + 1 < g.width := by omega
      rw [through_eq_empty (mt (right_mem_neighbours_iff hg hs.possible).mp hnot), Set.encard_empty, zero_add,
        Nat.choose_zero_right, Nat.choose_zero_right]
    | succ k => rw [hright k hk, Nat.choose_succ_succ, Nat.cast_add]

end Counting

section Sizes

theorem toFinset_cells (hg : g.walls = []) : g.cells.toFinset = Finset.range g.width ×ˢ Finset.range g.height := by
  ext a
  rw [List.mem_toFinset, mem_cells_iff, isOpen_iff_lt hg, Finset.mem_product, Finset.mem_range, Finset.mem_range]

theorem length_cells (hg : g.walls = []) : g.cells.length = g.width * g.height := by
  rw [← List.toFinset_card_of_nodup g.nodup_cells, toFinset_cells hg, Finset.card_product, Finset.card_range,
    Finset.card_range]

/-- How many numbers below a bound are next to a number, above and below. -/
def adjacent (bound i : Nat) : Nat :=
  (if i + 1 < bound then 1 else 0) + if 0 < i then 1 else 0

theorem sum_adjacent (bound : Nat) : ∑ i ∈ Finset.range bound, adjacent bound i = 2 * (bound - 1) := by
  cases bound with
  | zero => rfl
  | succ n =>
    have hupper : ∑ i ∈ Finset.range (n + 1), (if i + 1 < n + 1 then 1 else 0) = n := by
      rw [Finset.sum_range_succ, if_neg (Nat.lt_irrefl _), Finset.sum_congr rfl fun i hi =>
        if_pos (Nat.succ_lt_succ (Finset.mem_range.mp hi))]
      simp
    have hlower : ∑ i ∈ Finset.range (n + 1), (if 0 < i then 1 else 0) = n := by
      rw [Finset.sum_range_succ', if_neg (Nat.lt_irrefl _), Finset.sum_congr rfl fun i _ => if_pos i.succ_pos]
      simp
    simp only [adjacent]
    rw [Finset.sum_add_distrib, hupper, hlower]
    omega

theorem length_neighbours (hg : g.walls = []) (ha : g.isOpen a = true) :
    (g.neighbours a).length = adjacent g.width a.1 + adjacent g.height a.2 := by
  obtain ⟨x, y⟩ := a
  obtain ⟨hx, hy⟩ : x < g.width ∧ y < g.height := (isOpen_iff_lt hg).mp ha
  have hsingle (b : Nat × Nat) : ([b].filter g.isOpen).length = if g.isOpen b = true then 1 else 0 := by
    rw [List.filter_singleton]
    cases g.isOpen b <;> rfl
  have hright : ([(x + 1, y)].filter g.isOpen).length = if x + 1 < g.width then 1 else 0 := by
    simp only [hsingle, isOpen_iff_lt hg, hy, and_true]
  have hup : ([(x, y + 1)].filter g.isOpen).length = if y + 1 < g.height then 1 else 0 := by
    simp only [hsingle, isOpen_iff_lt hg, hx, true_and]
  have hleft : ((if 0 < x then [(x - 1, y)] else []).filter g.isOpen).length = if 0 < x then 1 else 0 := by
    split
    · rw [hsingle, if_pos ((isOpen_iff_lt hg).mpr ⟨by omega, hy⟩)]
    · rfl
  have hdown : ((if 0 < y then [(x, y - 1)] else []).filter g.isOpen).length = if 0 < y then 1 else 0 := by
    split
    · rw [hsingle, if_pos ((isOpen_iff_lt hg).mpr ⟨hx, by omega⟩)]
    · rfl
  simp only [neighbours, List.filter_append, List.length_append, hright, hleft, hup, hdown, adjacent]
  exact Nat.add_assoc ..

theorem length_deeds (hg : g.walls = []) :
    g.deeds.length = 2 * ((g.width - 1) * g.height + g.width * (g.height - 1)) := by
  have hsum : ∀ a ∈ Finset.range g.width ×ˢ Finset.range g.height, ((g.neighbours a).map (step a)).length =
      adjacent g.width a.1 + adjacent g.height a.2 := by
    intro a ha
    rw [← toFinset_cells hg, List.mem_toFinset, mem_cells_iff] at ha
    rw [List.length_map, length_neighbours hg ha]
  rw [deeds, List.length_flatMap, ← List.sum_toFinset _ g.nodup_cells, toFinset_cells hg, Finset.sum_congr rfl hsum,
    Finset.sum_product]
  simp only [Finset.sum_add_distrib, Finset.sum_const, Finset.card_range, sum_adjacent, smul_eq_mul,
    ← Finset.mul_sum]
  ring

end Sizes

section Plans

/-- More than one cell has no more cells than walks. -/
theorem mul_le_countLimit {width height : Nat} (hwidth : 0 < width) (hheight : 0 < height)
    (hids : 2 * ((width - 1) * height + width * (height - 1)) ≤ Draft.countLimit) :
    width * height ≤ Draft.countLimit := by
  obtain ⟨m, rfl⟩ := Nat.exists_eq_add_of_lt hwidth
  obtain ⟨n, rfl⟩ := Nat.exists_eq_add_of_lt hheight
  have hone : 1 ≤ Draft.countLimit := by decide
  simp only [Nat.zero_add, Nat.add_sub_cancel] at hids ⊢
  nlinarith

variable (hg : g.walls = []) (hwidth : 0 < g.width) (hheight : 0 < g.height)
include hg hwidth hheight

theorem isOpen_origin : g.isOpen (0, 0) = true :=
  (isOpen_iff_lt hg).mpr ⟨hwidth, hheight⟩

theorem isOpen_target : g.isOpen g.target = true :=
  (isOpen_iff_lt hg).mpr ⟨Nat.sub_lt hwidth Nat.one_pos, Nat.sub_lt hheight Nat.one_pos⟩

theorem task_eq : g.task =
    (Strips.ofEntries g.entries ([(0, 0)].map position) ([g.target].map position)).world := by
  have hcells : ¬(g.width = 0 ∨ g.height = 0) := by omega
  have hopen : (!g.isOpen (0, 0) || !g.isOpen (g.width - 1, g.height - 1)) = false := by
    rw [isOpen_origin hg hwidth hheight, show g.isOpen (g.width - 1, g.height - 1) = true from
      isOpen_target hg hwidth hheight]
    rfl
  simp only [task]
  rw [if_neg hcells, hopen]
  rfl

theorem exists_build (hids : 2 * ((g.width - 1) * g.height + g.width * (g.height - 1)) ≤ Draft.countLimit) :
    ∃ t, (Strips.ofEntries g.entries ([(0, 0)].map position) ([g.target].map position)).build = .ok t := by
  have hnames : ∀ name, Strips.Entry.atom name ∈ g.entries → name ∈ g.cells.map position := by
    intro name hname
    obtain ⟨a, ha, hname⟩ := List.mem_flatMap.mp hname
    rcases List.mem_cons.mp hname with heq | hname
    · obtain rfl := Strips.Entry.atom.inj heq
      exact List.mem_map_of_mem ha
    · obtain ⟨b, -, heq⟩ := List.mem_map.mp hname
      cases heq
  have hcells : g.cells.length ≤ Draft.countLimit := by
    rw [length_cells hg]
    exact mul_le_countLimit hwidth hheight hids
  have hopen {a : Nat × Nat} : a ∈ g.cells ↔ g.isOpen a = true := mem_cells_iff
  refine Strips.exists_build g.deeds_entries hnames (fun d hd a ha => hopen.mpr (isOpen_of_mem_deeds hd a ha)) ?_ ?_
    (List.cons_ne_nil _ _) (fun d hd => ((priced hg hwidth hheight).cost_pos d hd).le) hcells
    ((length_deeds hg).trans_le hids)
  · simpa [hopen] using isOpen_origin hg hwidth hheight
  · simpa [hopen] using isOpen_target hg hwidth hheight

/-- On a grid without walls a cheapest plan crosses it, and there are as many such plans as there are ways to choose the
walks to the right among all its walks. -/
theorem encard_cheapest_plans (hids : 2 * ((g.width - 1) * g.height + g.width * (g.height - 1)) ≤ Draft.countLimit) :
    ∃ t, g.task = .ok t ∧
      IsLeast {cost | ∃ plan, t.planCost? plan = some cost} ((g.width + g.height - 2 : Nat) : Int) ∧
      {plan | t.planCost? plan = some ((g.width + g.height - 2 : Nat) : Int)}.encard =
        (g.width + g.height - 2).choose (g.width - 1) := by
  obtain ⟨t, ht⟩ := exists_build hg hwidth hheight hids
  have henacted : g.depiction.Enacted t g.deeds [(0, 0)] [g.target] :=
    Depiction.enacted_of_build g.deeds_entries position_injective.injOn (fun d hd => isOpen_of_mem_deeds hd)
      (by simpa using isOpen_origin hg hwidth hheight) ht
  have hstart : g.depiction.Shows t (0, 0) t.initial :=
    henacted.shows_initial (isOpen_origin hg hwidth hheight) fun a _ => List.mem_singleton.trans eq_comm
  have hleft : g.left (0, 0) = g.width + g.height - 2 := by
    simp only [left]
    omega
  have hleast := (priced hg hwidth hheight).isLeast henacted hstart
  have hcount := encard_ways hg henacted hstart
  rw [hleft] at hleast hcount
  have hways : t.ways t.initial ((g.width + g.height - 2 : Nat) : Int) =
      {plan | t.planCost? plan = some ((g.width + g.height - 2 : Nat) : Int)} :=
    Set.ext fun plan => Task.mem_ways_initial_iff
  exact ⟨t, (task_eq hg hwidth hheight).trans (Strips.world_eq_ok_iff.mpr ht), hleast, hways ▸ hcount⟩

end Plans

/-- There are six ways through nine cells. -/
theorem encard_cheapest_plans_three : ∃ t, (Grid.mk 3 3 []).task = .ok t ∧
    IsLeast {cost | ∃ plan, t.planCost? plan = some cost} 4 ∧ {plan | t.planCost? plan = some 4}.encard = 6 := by
  obtain ⟨t, ht, hleast, hcount⟩ := encard_cheapest_plans (g := ⟨3, 3, []⟩) rfl (by decide) (by decide) (by decide)
  exact ⟨t, ht, hleast, hcount.trans (congrArg Nat.cast (show Nat.choose 4 2 = 6 from rfl))⟩

end RankedPlans.Grid
