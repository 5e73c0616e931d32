import Mathlib.Data.List.Perm.Lattice
import Mathlib.Logic.Function.Basic
import RankedPlans.Proofs.Entries
import RankedPlans.Proofs.World.Scenes
import RankedPlans.World.Blocks

/-! Blocks stand as they do on a real table: in every state that can be come to, each of them is at one place, and
what is said of the hand and of free tops agrees with the places. This rests on different atoms having different names.
A name that contains a blank can make one block on another sound like another pair, and then it fails. -/

namespace RankedPlans.BlocksWorld

open Strips (Deed)

/-- What can be said of blocks. -/
inductive Atom where
  | clear (x : String)
  | onTable (x : String)
  | holding (x : String)
  | on (x y : String)
  | handEmpty
deriving DecidableEq

def Atom.name : Atom → String
  | clear x => BlocksWorld.clear x
  | onTable x => BlocksWorld.onTable x
  | holding x => BlocksWorld.holding x
  | on x y => BlocksWorld.on x y
  | handEmpty => BlocksWorld.handEmpty

/-- Where a block can be. -/
inductive Place where
  | hand
  | table
  | block (y : String)
deriving DecidableEq

/-- The atom that a block is at a place. -/
def Place.atom (x : String) : Place → Atom
  | hand => .holding x
  | table => .onTable x
  | block y => .on x y

/-- The atoms about the blocks of a world. No block is on itself. -/
def IsAtom (w : BlocksWorld) : Atom → Prop
  | .clear x | .onTable x | .holding x => x ∈ w.blocks
  | .on x y => x ∈ w.blocks ∧ y ∈ w.blocks ∧ y ≠ x
  | .handEmpty => True

/-- No two pairs of different blocks have one name for the first being on the second. -/
def Unambiguous (w : BlocksWorld) : Prop :=
  ∀ x ∈ w.blocks, ∀ y ∈ w.blocks, ∀ x' ∈ w.blocks, ∀ y' ∈ w.blocks, y ≠ x → y' ≠ x' →
    on x y = on x' y' → x = x' ∧ y = y'

/-- How the blocks stand in a state: each is in the hand, on the table or on one other block, at most one is in the
hand, which is empty otherwise, no two are on the same block, and those are clear that are not held and have nothing on
them. -/
structure Standing (w : BlocksWorld) (t : Task) (s : State) : Prop where
  placed : ∀ x ∈ w.blocks, ∃! p : Place, w.IsAtom (p.atom x) ∧ t.Holds s (p.atom x).name
  held : ∀ x ∈ w.blocks, ∀ y ∈ w.blocks, t.Holds s (holding x) → t.Holds s (holding y) → x = y
  handEmpty : t.Holds s handEmpty ↔ ∀ x ∈ w.blocks, ¬t.Holds s (holding x)
  single : ∀ x ∈ w.blocks, ∀ y ∈ w.blocks, ∀ z ∈ w.blocks, y ≠ x → z ≠ x →
    t.Holds s (on y x) → t.Holds s (on z x) → y = z
  clear : ∀ x ∈ w.blocks, t.Holds s (clear x) ↔
    ¬t.Holds s (holding x) ∧ ∀ y ∈ w.blocks, y ≠ x → ¬t.Holds s (on y x)

variable {w : BlocksWorld} {t : Task} {s : State} {x y : String} {d : Deed Atom}

section Names

/-- All atoms of a world have different names, unless two pairs of blocks share one. -/
theorem Unambiguous.injOn_name (h : w.Unambiguous) : Set.InjOn Atom.name {a | w.IsAtom a} := by
  intro a ha b hb heq
  cases a <;> cases b
  case clear.clear | onTable.onTable | holding.holding => exact congrArg _ ((String.append_right_inj _).mp heq)
  case handEmpty.handEmpty => rfl
  case on.on =>
    obtain ⟨rfl, rfl⟩ := h _ ha.1 _ ha.2.1 _ hb.1 _ hb.2.1 ha.2.2 hb.2.2 heq
    rfl
  all_goals
    -- names of different kinds differ in their first letters
    have hchars := congrArg String.toList heq
    simp [Atom.name, clear, onTable, holding, on, handEmpty] at hchars

/-- Names without a blank can be read back from what is said of the blocks. -/
theorem unambiguous_of_forall_no_blank (h : ∀ x ∈ w.blocks, ' ' ∉ x.toList) : w.Unambiguous := by
  intro x hx y hy x' hx' y' _ _ _ heq
  have hchars : x.toList ++ ' ' :: y.toList = x'.toList ++ ' ' :: y'.toList := by
    simpa [on] using congrArg String.toList heq
  obtain ⟨hxs, -, hys⟩ := (List.append_cons_inj_of_notMem (h x hx) (h y hy)).mp hchars
  exact ⟨String.toList_injective hxs, String.toList_injective hys⟩

end Names

section Deeds

/-- The hand takes a block from the table. -/
def pickUp (x : String) : Deed Atom :=
  ⟨"pick-up " ++ x, 1, [.clear x, .onTable x, .handEmpty], [.holding x], [.onTable x, .clear x, .handEmpty]⟩

/-- The hand puts a block on the table. -/
def putDown (x : String) : Deed Atom :=
  ⟨"put-down " ++ x, 1, [.holding x], [.clear x, .handEmpty, .onTable x], [.holding x]⟩

/-- The hand puts a block on another. -/
def stack (x y : String) : Deed Atom :=
  ⟨"stack " ++ x ++ " " ++ y, 1, [.holding x, .clear y], [.clear x, .handEmpty, .on x y], [.holding x, .clear y]⟩

/-- The hand takes a block from another. -/
def unstack (x y : String) : Deed Atom :=
  ⟨"unstack " ++ x ++ " " ++ y, 1, [.on x y, .clear x, .handEmpty], [.holding x, .clear y],
    [.on x y, .clear x, .handEmpty]⟩

def deeds (w : BlocksWorld) : List (Deed Atom) :=
  w.blocks.flatMap fun x =>
    [pickUp x, putDown x] ++ (w.blocks.filter (· ≠ x)).flatMap fun y => [stack x y, unstack x y]

theorem deeds_entries (w : BlocksWorld) :
    w.entries.filterMap Strips.Entry.deed? = w.deeds.map (Deed.map Atom.name) := by
  rw [entries, List.filterMap_cons_none rfl, List.filterMap_flatMap, deeds, List.map_flatMap]
  refine List.flatMap_congr fun x _ => ?_
  rw [List.filterMap_append, List.map_append, List.filterMap_flatMap, List.map_flatMap]
  rfl

theorem mem_deeds_iff : d ∈ w.deeds ↔ ∃ x ∈ w.blocks, d = pickUp x ∨ d = putDown x ∨
    ∃ y ∈ w.blocks, y ≠ x ∧ (d = stack x y ∨ d = unstack x y) := by
  simp only [deeds, List.mem_flatMap, List.mem_append, List.mem_cons, List.not_mem_nil, or_false, List.mem_filter,
    decide_eq_true_eq, and_assoc, or_assoc]

theorem isAtom_of_mem_deeds (hd : d ∈ w.deeds) : ∀ a ∈ d.atoms, w.IsAtom a := by
  obtain ⟨x, hx, rfl | rfl | ⟨y, hy, hne, rfl | rfl⟩⟩ := mem_deeds_iff.mp hd
  · simp [pickUp, Deed.atoms, IsAtom, hx]
  · simp [putDown, Deed.atoms, IsAtom, hx]
  · simp [stack, Deed.atoms, IsAtom, hx, hy, hne]
  · simp [unstack, Deed.atoms, IsAtom, hx, hy, hne]

end Deeds

section Scenes

/-- What an atom says of a scene, which has a place for each block. -/
@[simp] def Atom.Says (w : BlocksWorld) (place : String → Place) : Atom → Prop
  | .clear x => place x ≠ .hand ∧ ∀ z ∈ w.blocks, place z ≠ .block x
  | .onTable x => place x = .table
  | .holding x => place x = .hand
  | .on x y => place x = .block y
  | .handEmpty => ∀ x ∈ w.blocks, place x ≠ .hand

/-- At most one block is in the hand, and nothing on it; no two blocks are on the same block, which is another one. -/
@[grind cases]
structure Possible (w : BlocksWorld) (place : String → Place) : Prop where
  held : ∀ x ∈ w.blocks, ∀ y ∈ w.blocks, place x = .hand → place y = .hand → x = y
  free : ∀ x ∈ w.blocks, ∀ y ∈ w.blocks, place x = .hand → place y ≠ .block x
  other : ∀ x ∈ w.blocks, ∀ y, place x = .block y → y ∈ w.blocks ∧ y ≠ x
  single : ∀ x ∈ w.blocks, ∀ y ∈ w.blocks, ∀ z, place x = .block z → place y = .block z → x = y

variable {place : String → Place} {p : Place}

@[simps] def depiction (w : BlocksWorld) : Depiction Atom (String → Place) where
  name := Atom.name
  known := {a | w.IsAtom a}
  Says place a := a.Says w place
  Possible := w.Possible

/-- An empty hand can take a block that is clear. -/
theorem Possible.lift (h : w.Possible place) (hclear : (Atom.clear x).Says w place)
    (hempty : Atom.handEmpty.Says w place) : w.Possible (Function.update place x .hand) := by
  simp only [Atom.Says] at hclear hempty
  constructor <;> simp only [Function.update_apply] <;> grind

/-- A block in the hand can be put on the table or on a block that is clear. -/
theorem Possible.put (h : w.Possible place) (hx : x ∈ w.blocks) (hhand : place x = .hand) (hp : p ≠ .hand)
    (hclear : ∀ y, p = .block y → y ∈ w.blocks ∧ (Atom.clear y).Says w place) :
    w.Possible (Function.update place x p) := by
  simp only [Atom.Says] at hclear
  constructor <;> simp only [Function.update_apply] <;> grind

theorem Possible.turns_pickUp (h : w.Possible place) (hx : x ∈ w.blocks) (hclear : (Atom.clear x).Says w place)
    (htable : place x = .table) (hempty : Atom.handEmpty.Says w place) :
    w.depiction.Turns (pickUp x) place (Function.update place x .hand) := by
  refine ⟨h.lift hclear hempty, fun a ha => ?_⟩
  simp only [Atom.Says] at hclear hempty
  cases a <;> simp [pickUp, IsAtom, Function.update_apply] at ha ⊢ <;> grind

theorem Possible.turns_putDown (h : w.Possible place) (hx : x ∈ w.blocks) (hhand : place x = .hand) :
    w.depiction.Turns (putDown x) place (Function.update place x .table) := by
  refine ⟨h.put hx hhand Place.noConfusion fun _ => Place.noConfusion, fun a ha => ?_⟩
  cases a <;> simp [putDown, IsAtom, Function.update_apply] at ha ⊢ <;> grind

theorem Possible.turns_stack (h : w.Possible place) (hx : x ∈ w.blocks) (hy : y ∈ w.blocks) (hhand : place x = .hand)
    (hclear : (Atom.clear y).Says w place) :
    w.depiction.Turns (stack x y) place (Function.update place x (.block y)) := by
  refine ⟨h.put hx hhand Place.noConfusion fun z hz => Place.block.inj hz ▸ ⟨hy, hclear⟩, fun a ha => ?_⟩
  simp only [Atom.Says] at hclear
  cases a <;> simp [stack, IsAtom, Function.update_apply] at ha ⊢ <;> grind

theorem Possible.turns_unstack (h : w.Possible place) (hx : x ∈ w.blocks) (hon : place x = .block y)
    (hclear : (Atom.clear x).Says w place) (hempty : Atom.handEmpty.Says w place) :
    w.depiction.Turns (unstack x y) place (Function.update place x .hand) := by
  refine ⟨h.lift hclear hempty, fun a ha => ?_⟩
  simp only [Atom.Says] at hclear hempty
  cases a <;> simp [unstack, IsAtom, Function.update_apply] at ha ⊢ <;> grind

/-- Each action moves one block. -/
theorem Possible.exists_turns (h : w.Possible place) (hd : d ∈ w.deeds) (hpre : ∀ a ∈ d.pre, a.Says w place) :
    ∃ place', w.depiction.Turns d place place' := by
  obtain ⟨x, hx, rfl | rfl | ⟨y, hy, hne, rfl | rfl⟩⟩ := mem_deeds_iff.mp hd
  · obtain ⟨hclear, htable, hempty⟩ : _ ∧ _ ∧ _ := by simpa [pickUp] using hpre
    exact ⟨_, h.turns_pickUp hx hclear htable hempty⟩
  · exact ⟨_, h.turns_putDown hx (by simpa [putDown] using hpre)⟩
  · obtain ⟨hhand, hclear⟩ : _ ∧ _ := by simpa [stack] using hpre
    exact ⟨_, h.turns_stack hx hy hhand hclear⟩
  · obtain ⟨hon, hclear, hempty⟩ : _ ∧ _ ∧ _ := by simpa [unstack] using hpre
    exact ⟨_, h.turns_unstack hx hon hclear hempty⟩

theorem says_atom_iff : (p.atom x).Says w place ↔ place x = p := by
  cases p <;> rfl

theorem Possible.isAtom (h : w.Possible place) (hx : x ∈ w.blocks) : w.IsAtom ((place x).atom x) := by
  cases hp : place x with
  | hand => exact hx
  | table => exact hx
  | block y => exact ⟨hx, h.other x hx y hp⟩

theorem standing_of_shows (h : w.depiction.Shows t place s) : w.Standing t s := by
  have hholding {x : String} (hx : x ∈ w.blocks) : t.Holds s (holding x) ↔ place x = .hand :=
    h.holds_iff (.holding x) hx
  have hon {x y : String} (hx : x ∈ w.blocks) (hy : y ∈ w.blocks) (hne : y ≠ x) :
      t.Holds s (on x y) ↔ place x = .block y :=
    h.holds_iff (.on x y) ⟨hx, hy, hne⟩
  refine ⟨?placed, ?held, ?handEmpty, ?single, ?clear⟩
  case placed =>
    intro x hx
    have hatom := h.possible.isAtom hx
    refine ⟨place x, ⟨hatom, (h.holds_iff _ hatom).mpr (says_atom_iff.mpr rfl)⟩, fun p ⟨hp, hholds⟩ => ?_⟩
    exact (says_atom_iff.mp ((h.holds_iff _ hp).mp hholds)).symm
  case held =>
    intro x hx y hy hheld hheld'
    exact h.possible.held x hx y hy ((hholding hx).mp hheld) ((hholding hy).mp hheld')
  case handEmpty =>
    exact (h.holds_iff .handEmpty trivial).trans (forall₂_congr fun x hx => not_congr (hholding hx).symm)
  case single =>
    intro x hx y hy z hz hne hne' hyx hzx
    exact h.possible.single y hy z hz x ((hon hy hx hne.symm).mp hyx) ((hon hz hx hne'.symm).mp hzx)
  case clear =>
    intro x hx
    refine (h.holds_iff (.clear x) hx).trans (and_congr (not_congr (hholding hx).symm) ?_)
    refine forall₂_congr fun y hy => ⟨fun hnot hne => mt (hon hy hx hne.symm).mp hnot, fun hnot hyx => ?_⟩
    -- a block that is on another is not that other one
    have hne := (h.possible.other y hy x hyx).2.symm
    exact hnot hne ((hon hy hx hne.symm).mpr hyx)

end Scenes

section Start

/-- The neighbours in a tower, the upper one first. -/
def neighbours (tower : List String) : List (String × String) :=
  tower.tail.zip tower

def towerSays (tower : List String) : List Atom :=
  tower.head?.toList.map .onTable ++ (neighbours tower).map (fun p => .on p.1 p.2) ++ tower.getLast?.toList.map .clear

def startSays (w : BlocksWorld) : List Atom :=
  w.init.flatMap towerSays ++ [.handEmpty]

/-- The block under each block that is not on the table. -/
def below (w : BlocksWorld) : Entries String :=
  w.init.flatMap neighbours

def startPlace (w : BlocksWorld) (x : String) : Place :=
  match w.below.get? x with
  | some y => .block y
  | none => .table

theorem map_name_towerSays (tower : List String) : (towerSays tower).map Atom.name = towerAtoms tower := by
  cases tower with
  | nil => rfl
  | cons bottom rest =>
    have hstacked : ((neighbours (bottom :: rest)).map (fun p => Atom.on p.1 p.2) ++
        (bottom :: rest).getLast?.toList.map Atom.clear).map Atom.name = stacked (bottom :: rest) := by
      induction rest generalizing bottom with
      | nil => rfl
      | cons y rest ih => exact congrArg (on y bottom :: ·) (ih y)
    rw [towerSays, List.append_assoc, List.map_append, hstacked]
    rfl

theorem map_fst_neighbours (tower : List String) : (neighbours tower).map Prod.fst = tower.tail :=
  List.map_fst_zip (by simp)

theorem map_snd_neighbours (tower : List String) : (neighbours tower).map Prod.snd = tower.dropLast := by
  cases tower with
  | nil => rfl
  | cons bottom rest =>
    induction rest generalizing bottom with
    | nil => rfl
    | cons y rest ih => exact congrArg (bottom :: ·) (ih y)

/-- Every block is the lowest of its tower or on another. -/
theorem heads_append_tails_perm (w : BlocksWorld) :
    (w.init.flatMap (·.head?.toList) ++ w.init.flatMap List.tail).Perm w.blocks := by
  refine (List.flatMap_append_perm ..).trans (.of_eq ?_)
  rw [blocks, ← List.flatMap_id]
  refine List.flatMap_congr fun tower _ => ?_
  cases tower <;> rfl

/-- Every block is below another or the highest of its tower. -/
theorem inits_append_tops_perm (w : BlocksWorld) :
    (w.init.flatMap List.dropLast ++ w.init.flatMap (·.getLast?.toList)).Perm w.blocks := by
  refine (List.flatMap_append_perm ..).trans (.of_eq ?_)
  rw [blocks, ← List.flatMap_id]
  refine List.flatMap_congr fun tower _ => ?_
  rcases List.eq_nil_or_concat tower with rfl | ⟨tower, top, rfl⟩ <;> simp

theorem map_fst_below (w : BlocksWorld) : w.below.map Prod.fst = w.init.flatMap List.tail := by
  rw [below, List.map_flatMap]
  exact List.flatMap_congr fun tower _ => map_fst_neighbours tower

theorem map_snd_below (w : BlocksWorld) : w.below.map Prod.snd = w.init.flatMap List.dropLast := by
  rw [below, List.map_flatMap]
  exact List.flatMap_congr fun tower _ => map_snd_neighbours tower

theorem startPlace_ne_hand (w : BlocksWorld) (x : String) : w.startPlace x ≠ .hand := by
  rw [startPlace]
  split <;> exact Place.noConfusion

/-- A list without repetition that falls into two parts. -/
theorem mem_iff_notMem_of_perm {A B l : List String} (h : (A ++ B).Perm l) (hnd : l.Nodup) (hx : x ∈ l) :
    x ∈ A ↔ x ∉ B := by
  have hdisjoint := (List.nodup_append.mp (h.nodup_iff.mpr hnd)).2.2
  refine ⟨fun hA hB => hdisjoint x hA x hB rfl, fun hB => ?_⟩
  exact (List.mem_append.mp (h.mem_iff.mpr hx)).resolve_right hB

section Blocks

variable (hnd : w.blocks.Nodup)
include hnd

theorem startPlace_eq_block_iff : w.startPlace x = .block y ↔ (x, y) ∈ w.below := by
  have hkeys : (w.below.map Prod.fst).Nodup := by
    rw [map_fst_below]
    exact (List.nodup_append.mp (w.heads_append_tails_perm.nodup_iff.mpr hnd)).2.1
  rw [← Entries.get?_eq_some_iff hkeys, startPlace]
  cases w.below.get? x <;> simp

/-- A block that is on another stands in a tower with it. -/
theorem of_mem_below (h : (x, y) ∈ w.below) : x ∈ w.blocks ∧ y ∈ w.blocks ∧ y ≠ x := by
  obtain ⟨tower, htower, hmem⟩ := List.mem_flatMap.mp h
  obtain ⟨hx, hy⟩ := List.of_mem_zip hmem
  refine ⟨List.mem_flatten.mpr ⟨tower, htower, List.mem_of_mem_tail hx⟩, List.mem_flatten.mpr ⟨tower, htower, hy⟩, ?_⟩
  obtain ⟨i, hi, heq⟩ := List.getElem_of_mem hmem
  simp only [neighbours, List.length_zip, List.length_tail] at hi
  simp only [neighbours, List.getElem_zip, List.getElem_tail, Prod.mk.injEq] at heq
  rintro rfl
  -- neighbours have different positions
  have := (List.nodup_flatten.mp hnd).1 tower htower |>.getElem_inj_iff.mp (heq.1.trans heq.2.symm)
  omega

theorem possible_startPlace : w.Possible w.startPlace := by
  have hne := startPlace_ne_hand w
  refine ⟨fun x _ _ _ h => absurd h (hne x), fun x _ _ _ h => absurd h (hne x), fun x _ y h => ?_,
    fun x _ y _ z hx hy => ?_⟩
  · exact (of_mem_below hnd ((startPlace_eq_block_iff hnd).mp h)).2
  · have hlower : (w.below.map Prod.snd).Nodup := by
      rw [map_snd_below]
      exact (List.nodup_append.mp (w.inits_append_tops_perm.nodup_iff.mpr hnd)).1
    rw [startPlace_eq_block_iff hnd] at hx hy
    exact congrArg Prod.fst (List.inj_on_of_nodup_map hlower hx hy rfl)

theorem mem_start_iff (a : Atom) (ha : w.IsAtom a) :
    a ∈ w.startSays ↔ a.Says w w.startPlace := by
  have hne := startPlace_ne_hand w
  cases a with
  | clear x =>
    have htop : Atom.clear x ∈ w.startSays ↔
        x ∈ w.init.flatMap (·.getLast?.toList) := by
      simp [startSays, towerSays]
    rw [htop, mem_iff_notMem_of_perm (List.perm_append_comm.trans w.inits_append_tops_perm) hnd ha, ← map_snd_below]
    constructor
    · exact fun hnot => ⟨hne x, fun z _ hz =>
        hnot (List.mem_map.mpr ⟨_, (startPlace_eq_block_iff hnd).mp hz, rfl⟩)⟩
    · rintro ⟨-, hall⟩ hmem
      obtain ⟨⟨z, y⟩, hz, rfl⟩ := List.mem_map.mp hmem
      exact hall z (of_mem_below hnd hz).1 ((startPlace_eq_block_iff hnd).mpr hz)
  | onTable x =>
    have hhead : Atom.onTable x ∈ w.startSays ↔ x ∈ w.init.flatMap (·.head?.toList) := by
      simp [startSays, towerSays]
    rw [hhead, mem_iff_notMem_of_perm w.heads_append_tails_perm hnd ha, ← map_fst_below]
    constructor
    · intro hnot
      cases hplace : w.startPlace x with
      | hand => exact absurd hplace (hne x)
      | table => exact hplace
      | block y => exact absurd (List.mem_map.mpr ⟨_, (startPlace_eq_block_iff hnd).mp hplace, rfl⟩) hnot
    · intro htable hmem
      obtain ⟨⟨z, y⟩, hz, rfl⟩ := List.mem_map.mp hmem
      cases htable.symm.trans ((startPlace_eq_block_iff hnd).mpr hz)
  | holding x => simp [startSays, towerSays, hne]
  | on x y =>
    have hbelow : Atom.on x y ∈ w.startSays ↔ (x, y) ∈ w.below := by
      simp [startSays, towerSays, below]
    exact hbelow.trans (startPlace_eq_block_iff hnd).symm
  | handEmpty => simp [startSays, towerSays, hne]

end Blocks

end Start

section Towers

theorem nodup_of_firstRepeated?_eq_none {seen l : List String} (h : firstRepeated? seen l = none) :
    l.Nodup ∧ ∀ b ∈ l, b ∉ seen := by
  induction l generalizing seen with
  | nil => exact ⟨List.nodup_nil, List.forall_mem_nil _⟩
  | cons b l ih =>
    rw [firstRepeated?] at h
    split at h
    · cases h
    · rename_i hnew
      obtain ⟨hnd, hseen⟩ := ih h
      have hb : b ∉ l := fun hmem => hseen b hmem (List.mem_cons_self ..)
      exact ⟨List.nodup_cons.mpr ⟨hb, hnd⟩,
        List.forall_mem_cons.mpr ⟨hnew, fun c hc => fun hmem => hseen c hc (List.mem_cons_of_mem _ hmem)⟩⟩

/-- A world with a task has no block twice, and the task is that of its description. -/
theorem of_task_eq_ok (hw : w.task = .ok t) : w.blocks.Nodup ∧
    (Strips.ofEntries w.entries (w.startSays.map Atom.name)
      ((w.goal.flatMap towerSays).map Atom.name)).build = .ok t := by
  rw [task] at hw
  split at hw
  · cases hw
  · rename_i hfault
    rw [fault?, Option.or_eq_none_iff, Option.map_eq_none_iff] at hfault
    refine ⟨(nodup_of_firstRepeated?_eq_none hfault.1).1, ?_⟩
    have hinit : w.startSays.map Atom.name = w.init.flatMap towerAtoms ++ [BlocksWorld.handEmpty] := by
      rw [startSays, List.map_append, List.map_flatMap]
      simp only [map_name_towerSays]
      rfl
    have hgoal : (w.goal.flatMap towerSays).map Atom.name = w.goal.flatMap towerAtoms := by
      rw [List.map_flatMap]
      simp only [map_name_towerSays]
    rw [hinit, hgoal]
    exact Strips.world_eq_ok_iff.mp hw

theorem isAtom_of_mem_start (hnd : w.blocks.Nodup) :
    ∀ a ∈ w.startSays, w.IsAtom a := by
  intro a ha
  rcases List.mem_append.mp ha with ha | ha
  · obtain ⟨tower, htower, ha⟩ := List.mem_flatMap.mp ha
    have hblock {x : String} (hx : x ∈ tower) : x ∈ w.blocks := List.mem_flatten.mpr ⟨tower, htower, hx⟩
    simp only [towerSays, List.mem_append, List.mem_map, Option.mem_toList] at ha
    rcases ha with (⟨x, hx, rfl⟩ | ⟨p, hp, rfl⟩) | ⟨x, hx, rfl⟩
    · exact hblock (List.mem_of_mem_head? hx)
    · exact of_mem_below hnd (List.mem_flatMap.mpr ⟨tower, htower, hp⟩)
    · exact hblock (List.mem_of_mem_getLast? hx)
  · obtain rfl := List.mem_singleton.mp ha
    trivial

/-- In every state that the task of a world can come to, its blocks stand as blocks do, provided that no two pairs of
them share a name. -/
theorem standing_of_run {plan : Plan} {cost : Int} (hw : w.task = .ok t) (hnames : w.Unambiguous)
    (hrun : t.run? t.initial plan = some (s, cost)) : w.Standing t s := by
  obtain ⟨hnd, hbuild⟩ := of_task_eq_ok hw
  have ht : w.depiction.Enacted t w.deeds w.startSays (w.goal.flatMap towerSays) :=
    Depiction.enacted_of_build w.deeds_entries hnames.injOn_name (fun d hd => isAtom_of_mem_deeds hd)
      (isAtom_of_mem_start hnd) hbuild
  have hstart : w.depiction.Shows t w.startPlace t.initial :=
    ht.shows_initial (possible_startPlace hnd) (mem_start_iff hnd)
  obtain ⟨place, hshows⟩ := hstart.exists_of_run ht (fun h hd hpre => Possible.exists_turns h hd hpre) hrun
  exact standing_of_shows hshows

/-- Of two blocks to be turned around the upper one has been put down, and the hand has taken the lower one. -/
theorem standing_of_run_swap : ∃ t s, swap.task = .ok t ∧ swap.Unambiguous ∧
    t.run? t.initial [7, 5, 0] = some (s, 3) ∧ t.actions [7, 5, 0] = ["unstack B A", "put-down B", "pick-up A"] ∧
    swap.Standing t s := by
  have hruns : (swap.task.toOption.map fun t => ((t.run? t.initial [7, 5, 0]).map Prod.snd, t.actions [7, 5, 0])) =
      some (some 3, ["unstack B A", "put-down B", "pick-up A"]) := by
    decide +kernel
  have hnames : swap.Unambiguous := unambiguous_of_forall_no_blank (by decide +kernel)
  cases ht : swap.task with
  | error fault =>
    rw [ht] at hruns
    cases hruns
  | ok t =>
    rw [ht] at hruns
    obtain ⟨hrun, hactions⟩ := Prod.mk.inj (Option.some.inj hruns)
    obtain ⟨⟨s, cost⟩, hrun, rfl⟩ := Option.map_eq_some_iff.mp hrun
    exact ⟨t, s, rfl, hnames, hrun, hactions, standing_of_run ht hnames hrun⟩

/-- Four blocks of which two pairs share a name: the second tower has one of them, the other two blocks are apart. -/
def alike : BlocksWorld :=
  ⟨"alike", [["A"], ["C", "A B"], ["B C"]], [["A"]]⟩

/-- Where the second tower has one block on another, the block of the first tower sounds as if it were on the third. -/
theorem not_standing_alike : ∃ t s, alike.task = .ok t ∧ t.run? t.initial [] = some (s, 0) ∧
    t.Holds s (onTable "A") ∧ t.Holds s (on "A" "B C") ∧ ¬alike.Standing t s := by
  have hstart : (alike.task.toOption.map fun t => ((t.vars[2]?.map Variable.name, t.initial[2]?),
      (t.vars[9]?.map Variable.name, t.initial[9]?))) =
      some ((some (onTable "A"), some 1), (some (on "A" "B C"), some 1)) := by
    decide +kernel
  cases ht : alike.task with
  | error fault =>
    rw [ht] at hstart
    cases hstart
  | ok t =>
    rw [ht] at hstart
    obtain ⟨hfirst, hsecond⟩ := Prod.mk.inj (Option.some.inj hstart)
    obtain ⟨v, hv, hname⟩ := Option.map_eq_some_iff.mp (Prod.mk.inj hfirst).1
    obtain ⟨v', hv', hname'⟩ := Option.map_eq_some_iff.mp (Prod.mk.inj hsecond).1
    have htable : t.Holds t.initial (onTable "A") := ⟨2, v, hv, hname, (Prod.mk.inj hfirst).2⟩
    have hon : t.Holds t.initial (on "A" "B C") := ⟨9, v', hv', hname', (Prod.mk.inj hsecond).2⟩
    refine ⟨t, t.initial, rfl, rfl, htable, hon, fun hstanding => ?_⟩
    have hA : "A" ∈ alike.blocks := by decide
    have hBC : "B C" ∈ alike.blocks ∧ "B C" ≠ "A" := by decide
    have htable : alike.IsAtom (Place.table.atom "A") ∧ t.Holds t.initial (Place.table.atom "A").name := ⟨hA, htable⟩
    cases (hstanding.placed "A" hA).unique htable (show alike.IsAtom ((Place.block "B C").atom "A") ∧ _ from
      ⟨⟨hA, hBC⟩, hon⟩)

end Towers

end RankedPlans.BlocksWorld
