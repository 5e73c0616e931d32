import RankedPlans.Proofs.Symmetry.ColoredGraph
import RankedPlans.Proofs.Symmetry.Refinement
import RankedPlans.Symmetry.Automorphism

/-! The vertex maps that the search for generators finds are automorphisms, however soon its budget is
used up. -/

namespace RankedPlans.ColoredGraph

variable {g : ColoredGraph} {image : Array Nat}

/-- Sends each vertex to the vertex that has its colour under another colouring. -/
def leafImage (reference leaf : Array Nat) : Array Nat :=
  reference.map fun c => (leaf.toList.zipIdx.foldl (fun vs (c, v) => vs.setIfInBounds c v)
    (Array.replicate leaf.size 0)).getD c 0

theorem leafPermutation?_eq_some_iff {reference leaf : Array Nat} :
    g.leafPermutation? reference leaf = some image ↔ leafImage reference leaf = image ∧
      image ≠ Array.range image.size ∧ g.isAutomorphism image = true := by
  change (if leafImage reference leaf = Array.range (leafImage reference leaf).size then none
    else if g.isAutomorphism (leafImage reference leaf) then some (leafImage reference leaf)
    else none) = some image ↔ _
  constructor
  · intro h
    split at h
    · cases h
    · split at h
      · obtain rfl := Option.some.inj h
        exact ⟨rfl, ‹_›, ‹_›⟩
      · cases h
  · rintro ⟨rfl, hne, haut⟩
    rw [if_neg hne, if_pos haut]

section LeafImage

variable {reference leaf : Array Nat} (hrange : Coloring.InRange leaf)
  (hperm : reference.toList.Perm leaf.toList) (hnd : leaf.toList.Nodup)
include hrange hperm hnd

/-- The image of a vertex has at the other leaf the colour that the vertex has here. -/
theorem getElem?_leafImage {v : Nat} (hv : v < reference.size) :
    leaf[(leafImage reference leaf).getD v 0]? = reference[v]? := by
  have hc := Array.getElem?_eq_getElem hv
  have hmem := hperm.mem_iff.mp (Array.mem_toList_iff.mpr (Array.mem_of_getElem? hc))
  obtain ⟨w, hw⟩ := List.mem_iff_getElem?.mp hmem
  rw [Array.getElem?_toList] at hw
  rw [leafImage, Array.getD_eq_getD_getElem?, Array.getElem?_map, hc, Option.map_some, Option.getD_some,
    Array.getD_eq_getD_getElem?, getElem?_positions hnd hw (hrange _ hmem), Option.getD_some, hw]

/-- Two colourings that use the same colours once each give a permutation of the vertices. -/
theorem leafPermutation?_eq_some (h : g.leafPermutation? reference leaf = some image) :
    Automorphism g image := by
  obtain ⟨rfl, -, haut⟩ := leafPermutation?_eq_some_iff.mp h
  obtain ⟨hsize, hall⟩ := isAutomorphism_iff.mp haut
  have hlen : reference.size = leaf.size := by simpa using hperm.length_eq
  have hsize' : reference.size = g.size := by rwa [leafImage, Array.size_map] at hsize
  have hcolor : ∀ {v}, v < g.size → leaf[(leafImage reference leaf).getD v 0]? = reference[v]? :=
    fun hv => getElem?_leafImage hrange hperm hnd (by omega)
  refine ⟨hsize, fun {v} hv => ?_, fun {v w} hv hw heq => ?_, fun hv => (hall _ hv).1,
    fun hv => (hall _ hv).2 _ _⟩
  · have hlt : v < reference.size := by omega
    have hsame := hcolor hv
    rw [Array.getElem?_eq_getElem hlt] at hsame
    rw [← hsize', hlen]
    exact (Array.getElem?_eq_some_iff.mp hsame).1
  · have hvw : reference[v]? = reference[w]? := by rw [← hcolor hv, ← hcolor hw, heq]
    rw [← Array.getElem?_toList, ← Array.getElem?_toList] at hvw
    have hlt : v < reference.toList.length := by rw [Array.length_toList]; omega
    exact (List.getElem?_inj hlt (hperm.nodup_iff.mpr hnd)).mp hvw

end LeafImage

theorem firstImage_eq_some {α : Type} {attempt : Nat → SearchEffort → Option α × SearchEffort}
    {vs : List Nat} {effort : SearchEffort} {found : α}
    (h : (firstImage attempt vs effort).1 = some found) :
    ∃ u effort, (attempt u effort).1 = some found := by
  induction vs generalizing effort with
  | nil => cases h
  | cons u vs ih =>
    rw [firstImage] at h
    rcases heq : attempt u effort with ⟨result, effort'⟩
    rw [heq] at h
    simp only at h
    split at h
    · exact ⟨u, effort, by rw [heq]; exact h⟩
    · exact ih h

/-- The colourings that come from others by refining them and setting vertices apart in turn. -/
inductive Leads (g : ColoredGraph) : Array Nat → Array Nat → Prop
  | refine (colors : Array Nat) : g.Leads colors (g.refine colors)
  | setApart {colors leaf : Array Nat} (u : Nat) :
    g.Leads (Coloring.individualize (g.refine colors) u) leaf → g.Leads colors leaf

theorem Leads.inRange {colors leaf : Array Nat} (h : g.Leads colors leaf) : Coloring.InRange leaf := by
  induction h with
  | refine colors => exact g.inRange_refine colors
  | setApart _ _ ih => exact ih

/-- What is found is read off the end of a path that ends like the first one. -/
theorem exists_leaf_of_descend {path : FirstPath} {budget fuel depth : Nat} {colors : Array Nat}
    {effort : SearchEffort} (hpath : ∀ level ∈ path.levels, Coloring.targetCell? level.colors ≠ none)
    (h : (g.descend path budget fuel colors depth effort).1 = some image) :
    ∃ leaf, g.Leads colors leaf ∧ g.leafPermutation? path.leaf leaf = some image ∧
      path.leaf.toList.Perm leaf.toList ∧ leaf.toList.Nodup := by
  induction fuel generalizing colors depth effort with
  | zero => cases h
  | succ fuel ih =>
    unfold descend at h
    split at h
    · cases h
    · simp only at h
      split at h
      · cases h
      · rename_i hsizes
        have hsizes := Decidable.not_not.mp hsizes
        split at h
        · rename_i hnone
          have htarget : Coloring.targetCell?
              ((path.levels[depth]?.map PathLevel.colors).getD path.leaf) = none := by
            rw [Coloring.targetCell?, ← hsizes]
            exact hnone
          have hleaf : (path.levels[depth]?.map PathLevel.colors).getD path.leaf = path.leaf := by
            cases hlevel : path.levels[depth]? with
            | none => rfl
            | some level =>
              rw [hlevel] at htarget
              exact absurd htarget (hpath level (List.mem_of_getElem? hlevel))
          rw [hleaf] at hsizes
          exact ⟨_, .refine colors, h, Coloring.perm_of_cellSizes_eq hsizes.symm,
            Coloring.targetCell?_eq_none_iff.mp hnone⟩
        · obtain ⟨u, effort', hu⟩ := firstImage_eq_some h
          obtain ⟨leaf, hleads, hfound⟩ := ih hu
          exact ⟨leaf, .setApart u hleads, hfound⟩

/-- A path that ends like the first one gives an automorphism. -/
theorem descend_eq_some {path : FirstPath} {budget fuel depth : Nat} {colors : Array Nat}
    {effort : SearchEffort} (hpath : ∀ level ∈ path.levels, Coloring.targetCell? level.colors ≠ none)
    (h : (g.descend path budget fuel colors depth effort).1 = some image) :
    Automorphism g image := by
  obtain ⟨leaf, hleads, hfound, hperm, hnd⟩ := exists_leaf_of_descend hpath h
  exact leafPermutation?_eq_some hleads.inRange hperm hnd hfound

theorem firstPathWithin_targetCell? (fuel : Nat) (colors : Array Nat) :
    ∀ level ∈ (g.firstPathWithin fuel colors).levels, Coloring.targetCell? level.colors ≠ none := by
  induction fuel generalizing colors with
  | zero => exact nofun
  | succ fuel ih =>
    unfold firstPathWithin
    split
    · exact nofun
    · rename_i cell hcell
      refine List.forall_mem_cons.mpr ⟨?_, ih _⟩
      simp [hcell]

/-- Everything found so far is an automorphism. -/
def GeneratorSearch.Sound (g : ColoredGraph) (s : GeneratorSearch) : Prop :=
  ∀ image ∈ s.generators, Automorphism g image

theorem GeneratorSearch.Sound.tryImage {path : FirstPath} {budget depth w : Nat} {level : PathLevel}
    {s : GeneratorSearch} (hpath : ∀ level ∈ path.levels, Coloring.targetCell? level.colors ≠ none)
    (h : s.Sound g) : (g.tryImage path budget depth level s w).Sound g := by
  unfold ColoredGraph.tryImage
  split
  · exact h
  · simp only
    split
    · exact h
    · split
      · rename_i found _ hfound
        exact List.forall_mem_append.mpr
          ⟨h, List.forall_mem_singleton.mpr (descend_eq_some hpath (congrArg Prod.fst hfound))⟩
      · exact h

/-- Every generator that is found is an automorphism. -/
theorem findGenerators_automorphism {budget : Nat}
    (h : image ∈ (g.findGenerators budget).generators) : Automorphism g image := by
  have hpath := firstPathWithin_targetCell? (g := g) g.size (g.refine g.colors)
  have hlevel : ∀ level s, s.Sound g → (g.searchLevel g.firstPath budget s level).Sound g :=
    fun level s hs => List.foldlRecOn _ _ hs fun s hs w _ => hs.tryImage hpath
  exact List.foldlRecOn (motive := GeneratorSearch.Sound g) _ _ (fun _ h => absurd h List.not_mem_nil)
    (fun s hs level _ => hlevel level s hs) image h

end RankedPlans.ColoredGraph
