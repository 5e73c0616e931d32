import Mathlib
import RankedPlans.Proofs.World.Scenes
import RankedPlans.World.Gripper

/-! The cost of a cheapest plan of a robot with two hands. What is left to pay is a pick and a drop for each ball that
waits in the first room, a drop for each hand in use, and the moves: there and back for every two balls. No action takes
off more than its cost, since only two balls fit into the hands, and until all balls are in the second room some action
takes off just that. -/

namespace RankedPlans.Gripper

open Strips (Deed)

/-- What can be said of the robot and the balls. -/
inductive Atom where
  | robotAt (room : String)
  | ballAt (ball room : String)
  | free (hand : String)
  | carry (ball hand : String)
deriving DecidableEq

def Atom.name : Atom → String
  | robotAt room => Gripper.robotAt room
  | ballAt ball room => Gripper.ballAt ball room
  | free hand => Gripper.free hand
  | carry ball hand => Gripper.carry ball hand

def atoms (g : Gripper) : List Atom :=
  rooms.map .robotAt ++ hands.map .free ++ g.ballNames.flatMap fun ball =>
    rooms.map (.ballAt ball) ++ hands.map (.carry ball)

variable {g : Gripper} {t : Task} {d : Deed Atom} {ball room hand start target : String}

theorem mem_rooms_iff : room ∈ rooms ↔ room = "rooma" ∨ room = "roomb" := by
  simp [rooms]

theorem mem_hands_iff : hand ∈ hands ↔ hand = "left" ∨ hand = "right" := by
  simp [hands]

theorem nodup_ballNames (g : Gripper) : g.ballNames.Nodup := by
  refine List.nodup_range.map fun i j heq => ?_
  have hrepr : (i + 1).repr = (j + 1).repr := (String.append_right_inj "ball").mp heq
  exact Nat.succ_injective (Nat.repr_inj.mp hrepr)

@[simp] theorem robotAt_mem_atoms : Atom.robotAt room ∈ g.atoms ↔ room ∈ rooms := by
  simp [atoms]

@[simp] theorem ballAt_mem_atoms : Atom.ballAt ball room ∈ g.atoms ↔ ball ∈ g.ballNames ∧ room ∈ rooms := by
  simp [atoms]

@[simp] theorem free_mem_atoms : Atom.free hand ∈ g.atoms ↔ hand ∈ hands := by
  simp [atoms]

@[simp] theorem carry_mem_atoms : Atom.carry ball hand ∈ g.atoms ↔ ball ∈ g.ballNames ∧ hand ∈ hands := by
  simp [atoms]

theorem length_atoms (g : Gripper) : g.atoms.length = 4 * g.balls + 4 := by
  simp [atoms, rooms, hands, ballNames, Function.comp_def, Nat.mul_comm]

/-- A room or a hand at the end of a name can be read off. -/
theorem append_inj_of_mem {l : List String} (hl : l = rooms ∨ l = hands) {a b x y : String} (hx : x ∈ l) (hy : y ∈ l)
    (h : a ++ x = b ++ y) : a = b ∧ x = y := by
  obtain rfl : x = y := by
    have hchars := congrArg (fun name => name.toList.reverse) h
    rcases hl with rfl | rfl
    · rcases mem_rooms_iff.mp hx with rfl | rfl <;> rcases mem_rooms_iff.mp hy with rfl | rfl <;> simp at hchars ⊢
    · rcases mem_hands_iff.mp hx with rfl | rfl <;> rcases mem_hands_iff.mp hy with rfl | rfl <;> simp at hchars ⊢
  exact ⟨(String.append_left_inj _).mp h, rfl⟩

theorem injOn_name : Set.InjOn Atom.name {a | a ∈ g.atoms} := by
  intro a ha b hb heq
  cases a <;> cases b
  case robotAt.robotAt | free.free => exact congrArg _ ((String.append_right_inj _).mp heq)
  case ballAt.ballAt ball room ball' room' =>
    obtain ⟨hball, rfl⟩ := append_inj_of_mem (.inl rfl) (ballAt_mem_atoms.mp ha).2 (ballAt_mem_atoms.mp hb).2 heq
    rw [String.append_left_inj, String.append_right_inj] at hball
    rw [hball]
  case carry.carry ball hand ball' hand' =>
    obtain ⟨hball, rfl⟩ := append_inj_of_mem (.inr rfl) (carry_mem_atoms.mp ha).2 (carry_mem_atoms.mp hb).2 heq
    rw [String.append_left_inj, String.append_right_inj] at hball
    rw [hball]
  all_goals
    -- names of different kinds differ in their first letters
    have hchars := congrArg String.toList heq
    simp [Atom.name, robotAt, ballAt, free, carry] at hchars

section Deeds

/-- The robot goes from one room to the other. -/
def move (start target : String) : Deed Atom :=
  ⟨"move " ++ start ++ " " ++ target, 1, [.robotAt start], [.robotAt target], [.robotAt start]⟩

/-- A free hand takes a ball that is where the robot is. -/
def pick (ball room hand : String) : Deed Atom :=
  ⟨"pick " ++ (ball ++ " " ++ room ++ " " ++ hand), 1, [.ballAt ball room, .robotAt room, .free hand],
    [.carry ball hand], [.ballAt ball room, .free hand]⟩

/-- A hand drops a ball where the robot is. -/
def drop (ball room hand : String) : Deed Atom :=
  ⟨"drop " ++ (ball ++ " " ++ room ++ " " ++ hand), 1, [.carry ball hand, .robotAt room],
    [.ballAt ball room, .free hand], [.carry ball hand]⟩

def deeds (g : Gripper) : List (Deed Atom) :=
  (rooms.flatMap fun start => (rooms.filter (· ≠ start)).map (move start)) ++
    g.ballNames.flatMap fun ball => rooms.flatMap fun room => hands.flatMap fun hand =>
      [pick ball room hand, drop ball room hand]

theorem deeds_entries (g : Gripper) :
    g.entries.filterMap Strips.Entry.deed? = g.deeds.map (Deed.map Atom.name) := by
  have hmoves : moves.filterMap Strips.Entry.deed? =
      (rooms.flatMap fun start => (rooms.filter (· ≠ start)).map (move start)).map (Deed.map Atom.name) := by
    rfl
  rw [entries, deeds, List.filterMap_append, List.map_append, hmoves, List.filterMap_flatMap,
    List.map_flatMap (l := g.ballNames)]
  rfl

theorem mem_deeds_iff : d ∈ g.deeds ↔
    (∃ start ∈ rooms, ∃ target ∈ rooms, target ≠ start ∧ d = move start target) ∨
    ∃ ball ∈ g.ballNames, ∃ room ∈ rooms, ∃ hand ∈ hands, d = pick ball room hand ∨ d = drop ball room hand := by
  simp only [deeds, List.mem_append, List.mem_flatMap, List.mem_map, List.mem_filter, List.mem_cons, List.not_mem_nil,
    or_false, decide_eq_true_eq, and_assoc, eq_comm (a := d)]

theorem length_deeds (g : Gripper) : g.deeds.length = 8 * g.balls + 2 := by
  simp [deeds, rooms, hands, ballNames, Function.comp_def, Nat.mul_comm]

theorem mem_atoms_of_mem_deeds (hd : d ∈ g.deeds) : ∀ a ∈ d.atoms, a ∈ g.atoms := by
  rcases mem_deeds_iff.mp hd with ⟨start, hs, target, ht, -, rfl⟩ | ⟨ball, hb, room, hr, hand, hh, rfl | rfl⟩
  · simp [move, Deed.atoms, hs, ht]
  · simp [pick, Deed.atoms, hb, hr, hh]
  · simp [drop, Deed.atoms, hb, hr, hh]

end Deeds

section Scenes

/-- Where a ball can be. -/
inductive Place where
  | room (room : String)
  | hand (hand : String)
deriving DecidableEq

/-- A scene: where the robot is, and a place for each ball. -/
structure Scene where
  robot : String
  place : String → Place

/-- What an atom says of a scene. -/
@[simp] def Atom.Says (g : Gripper) (c : Scene) : Atom → Prop
  | .robotAt room => c.robot = room
  | .ballAt ball room => c.place ball = .room room
  | .free hand => ∀ ball ∈ g.ballNames, c.place ball ≠ .hand hand
  | .carry ball hand => c.place ball = .hand hand

/-- The robot is in a room, balls are in rooms and hands, and no hand has two of them. -/
@[grind cases]
structure Possible (g : Gripper) (c : Scene) : Prop where
  robot : c.robot ∈ rooms
  room : ∀ ball ∈ g.ballNames, ∀ room, c.place ball = .room room → room ∈ rooms
  hand : ∀ ball ∈ g.ballNames, ∀ hand, c.place ball = .hand hand → hand ∈ hands
  single : ∀ ball ∈ g.ballNames, ∀ other ∈ g.ballNames, ∀ hand,
    c.place ball = .hand hand → c.place other = .hand hand → ball = other

@[simps] def depiction (g : Gripper) : Depiction Atom Scene where
  name := Atom.name
  known := {a | a ∈ g.atoms}
  Says c a := a.Says g c
  Possible := g.Possible

/-- The scene after the robot has gone to a room. -/
@[simps] def Scene.go (c : Scene) (room : String) : Scene where
  robot := room
  place := c.place

/-- The scene after a ball has been put somewhere. -/
@[simps] def Scene.put (c : Scene) (ball : String) (place : Place) : Scene where
  robot := c.robot
  place := Function.update c.place ball place

variable {c : Scene}

theorem Possible.turns_move (h : g.Possible c) (htarget : target ∈ rooms) :
    g.depiction.Turns (move c.robot target) c (c.go target) := by
  refine ⟨⟨htarget, h.room, h.hand, h.single⟩, fun a ha => ?_⟩
  cases a <;> simp [move] at ha ⊢
  grind

theorem Possible.turns_pick (h : g.Possible c) (hball : ball ∈ g.ballNames) (hhand : hand ∈ hands)
    (hplace : c.place ball = .room room) (hfree : (Atom.free hand).Says g c) :
    g.depiction.Turns (pick ball room hand) c (c.put ball (.hand hand)) := by
  simp only [Atom.Says] at hfree
  -- only one ball changes its place, so of each atom it is asked whether it is about that ball or that hand
  refine ⟨?_, fun a ha => ?_⟩
  · constructor <;> simp only [Scene.put_robot, Scene.put_place, Function.update_apply] <;> grind
  · cases a <;> simp [pick, Function.update_apply] at ha ⊢ <;> grind

theorem Possible.turns_drop (h : g.Possible c) (hball : ball ∈ g.ballNames) (hroom : room ∈ rooms)
    (hplace : c.place ball = .hand hand) :
    g.depiction.Turns (drop ball room hand) c (c.put ball (.room room)) := by
  refine ⟨?_, fun a ha => ?_⟩
  · constructor <;> simp only [Scene.put_robot, Scene.put_place, Function.update_apply] <;> grind
  · cases a <;> simp [drop, Function.update_apply] at ha ⊢ <;> grind

/-- The balls in the first room. -/
def waiting (g : Gripper) (c : Scene) : Finset String :=
  {ball ∈ g.ballNames.toFinset | c.place ball = .room "rooma"}

/-- The hands that have a ball. -/
def used (g : Gripper) (c : Scene) : Finset String :=
  {hand ∈ hands.toFinset | ∃ ball ∈ g.ballNames, c.place ball = .hand hand}

/-- What is left to pay in a scene. -/
def left (g : Gripper) (c : Scene) : Nat :=
  let waiting := (g.waiting c).card
  let used := (g.used c).card
  2 * waiting + used + if c.robot = "rooma" then 2 * ((waiting + used + 1) / 2) - 1 else 2 * ((waiting + 1) / 2)

theorem left_first (h : c.robot = "rooma") : g.left c = 2 * (g.waiting c).card + (g.used c).card +
    (2 * (((g.waiting c).card + (g.used c).card + 1) / 2) - 1) := by
  rw [left, if_pos h]

theorem left_second (h : c.robot = "roomb") : g.left c = 2 * (g.waiting c).card + (g.used c).card +
    2 * (((g.waiting c).card + 1) / 2) := by
  rw [left, if_neg (by simp [h])]

@[simp] theorem waiting_move (g : Gripper) (c : Scene) (target : String) :
    g.waiting (c.go target) = g.waiting c :=
  rfl

@[simp] theorem used_move (g : Gripper) (c : Scene) (target : String) :
    g.used (c.go target) = g.used c :=
  rfl

theorem card_used_le (g : Gripper) (c : Scene) : (g.used c).card ≤ 2 :=
  (Finset.card_filter_le ..).trans (List.toFinset_card_le hands)

theorem mem_waiting_iff : ball ∈ g.waiting c ↔ ball ∈ g.ballNames ∧ c.place ball = .room "rooma" := by
  rw [waiting, Finset.mem_filter, List.mem_toFinset]

theorem mem_used_iff : hand ∈ g.used c ↔ hand ∈ hands ∧ ∃ ball ∈ g.ballNames, c.place ball = .hand hand := by
  rw [used, Finset.mem_filter, List.mem_toFinset]

section Pick

variable (hball : ball ∈ g.ballNames) (hplace : c.place ball = .room room) (hfree : (Atom.free hand).Says g c)
  (hhand : hand ∈ hands)
include hball hplace

theorem waiting_pick (hand : String) : (g.waiting c).card =
    (g.waiting (c.put ball (.hand hand))).card + if room = "rooma" then 1 else 0 := by
  have herase : g.waiting (c.put ball (.hand hand)) = (g.waiting c).erase ball := by
    ext other
    simp only [mem_waiting_iff, Finset.mem_erase, Scene.put_place, Function.update_apply]
    grind
  rw [herase]
  split
  · rename_i hroom
    exact (Finset.card_erase_add_one (mem_waiting_iff.mpr ⟨hball, hroom ▸ hplace⟩)).symm
  · rename_i hroom
    have hnot : ball ∉ g.waiting c := fun hmem =>
      hroom (Place.room.inj (hplace.symm.trans (mem_waiting_iff.mp hmem).2))
    rw [Finset.erase_eq_of_notMem hnot, Nat.add_zero]

include hfree hhand

theorem used_pick : (g.used (c.put ball (.hand hand))).card = (g.used c).card + 1 := by
  have hinsert : g.used (c.put ball (.hand hand)) = insert hand (g.used c) := by
    ext other
    simp only [mem_used_iff, Finset.mem_insert, Scene.put_place, Function.update_apply]
    grind
  have hnot : hand ∉ g.used c := by
    intro hmem
    obtain ⟨-, other, hother, hheld⟩ := mem_used_iff.mp hmem
    exact hfree other hother hheld
  rw [hinsert, Finset.card_insert_of_notMem hnot]

/-- Taking a ball from the first room takes one off what is left, taking it back from the second one adds one. -/
theorem left_pick (hrobot : c.robot = room) :
    (g.left (c.put ball (.hand hand)) : Int) = g.left c + if room = "rooma" then -1 else 1 := by
  have hwaiting := waiting_pick hball hplace hand
  have hused := used_pick hball hplace hfree hhand
  simp only [left, Scene.put_robot, hrobot]
  split_ifs at hwaiting ⊢ <;> omega

end Pick

section Drop

variable (h : g.Possible c) (hball : ball ∈ g.ballNames) (hplace : c.place ball = .hand hand)
include hball hplace

theorem waiting_drop (room : String) : (g.waiting (c.put ball (.room room))).card =
    (g.waiting c).card + if room = "rooma" then 1 else 0 := by
  have hnot : ball ∉ g.waiting c := by
    intro hmem
    cases hplace.symm.trans (mem_waiting_iff.mp hmem).2
  have hother (other : String) : other ∈ g.waiting (c.put ball (.room room)) ↔
      other = ball ∧ room = "rooma" ∨ other ∈ g.waiting c := by
    simp only [mem_waiting_iff, Scene.put_place, Function.update_apply]
    grind
  split
  · rename_i hroom
    rw [← Finset.card_insert_of_notMem hnot]
    refine congrArg Finset.card (Finset.ext fun other => ?_)
    rw [hother, Finset.mem_insert, and_iff_left hroom]
  · rename_i hroom
    rw [Nat.add_zero]
    refine congrArg Finset.card (Finset.ext fun other => ?_)
    rw [hother, or_iff_right fun hnew => hroom hnew.2]

include h

theorem used_drop (room : String) : (g.used c).card = (g.used (c.put ball (.room room))).card + 1 := by
  have herase : g.used (c.put ball (.room room)) = (g.used c).erase hand := by
    ext other
    simp only [mem_used_iff, Finset.mem_erase, Scene.put_place, Function.update_apply]
    grind
  rw [herase, Finset.card_erase_add_one (mem_used_iff.mpr ⟨h.hand ball hball hand hplace, ball, hball, hplace⟩)]

/-- Bringing a ball to the second room takes one off what is left, bringing it back to the first one adds one. -/
theorem left_drop (hrobot : c.robot = room) :
    (g.left (c.put ball (.room room)) : Int) = g.left c + if room = "rooma" then 1 else -1 := by
  have hwaiting := waiting_drop hball hplace room
  have hused := used_drop h hball hplace room
  simp only [left, Scene.put_robot, hrobot]
  split_ifs at hwaiting ⊢ <;> omega

end Drop

/-- A move takes off no more than one, since the hands have room for two balls only. -/
theorem left_move (g : Gripper) (c : Scene) (target : String) :
    g.left c ≤ g.left (c.go target) + 1 := by
  have hused := g.card_used_le c
  simp only [left, waiting_move, used_move]
  split_ifs <;> omega

/-- Nothing is left when all balls are in the second room. -/
theorem Possible.left_eq_zero_iff (h : g.Possible c) :
    g.left c = 0 ↔ ∀ ball ∈ g.ballNames, c.place ball = .room "roomb" := by
  have hzero : g.left c = 0 ↔ g.waiting c = ∅ ∧ g.used c = ∅ := by
    rw [← Finset.card_eq_zero, ← Finset.card_eq_zero, left]
    split_ifs <;> omega
  rw [hzero, Finset.eq_empty_iff_forall_notMem, Finset.eq_empty_iff_forall_notMem]
  constructor
  · rintro ⟨hwaiting, hused⟩ ball hball
    cases hplace : c.place ball with
    | room room =>
      rcases mem_rooms_iff.mp (h.room ball hball room hplace) with rfl | rfl
      · exact absurd (mem_waiting_iff.mpr ⟨hball, hplace⟩) (hwaiting ball)
      · rfl
    | hand hand => exact absurd (mem_used_iff.mpr ⟨h.hand ball hball hand hplace, ball, hball, hplace⟩) (hused hand)
  · refine fun hall => ⟨fun ball hmem => ?_, fun hand hmem => ?_⟩
    · obtain ⟨hball, hplace⟩ := mem_waiting_iff.mp hmem
      simp [hall ball hball] at hplace
    · obtain ⟨-, ball, hball, hplace⟩ := mem_used_iff.mp hmem
      simp [hall ball hball] at hplace

/-- A move that takes one off what is left. -/
theorem Possible.progress_move (h : g.Possible c) (target : String) (htarget : target ∈ rooms) (hne : target ≠ c.robot)
    (hleft : g.left c = g.left (c.go target) + 1) : g.depiction.Advances g.deeds g.left c := by
  refine ⟨move c.robot target, mem_deeds_iff.mpr (.inl ⟨_, h.robot, _, htarget, hne, rfl⟩), ?_, _,
    h.turns_move htarget, ?_⟩
  · simp [move]
  · rw [hleft, Int.natCast_add, Int.add_comm]
    rfl

/-- In the first room a free hand takes a ball that waits. If both hands are full or nothing waits, the robot goes. -/
theorem Possible.progress_first (h : g.Possible c) (hrobot : c.robot = "rooma") (hpos : 0 < g.left c) :
    g.depiction.Advances g.deeds g.left c := by
  by_cases hpick : (g.waiting c).Nonempty ∧ (g.used c).card < 2
  · obtain ⟨⟨ball, hball⟩, hused⟩ := hpick
    obtain ⟨hball, hplace⟩ := mem_waiting_iff.mp hball
    obtain ⟨hand, hhand, hnot⟩ : ∃ hand ∈ hands.toFinset, hand ∉ g.used c :=
      Finset.exists_mem_notMem_of_card_lt_card hused
    rw [List.mem_toFinset] at hhand
    have hfree : (Atom.free hand).Says g c := fun ball hball hheld =>
      hnot (mem_used_iff.mpr ⟨hhand, ball, hball, hheld⟩)
    have hleft := left_pick hball hplace hfree hhand hrobot
    refine ⟨pick ball "rooma" hand, mem_deeds_iff.mpr (.inr ⟨ball, hball, _, by simp [rooms], hand, hhand, .inl rfl⟩),
      ?_, _, h.turns_pick hball hhand hplace hfree, ?_⟩
    · simpa [pick] using ⟨hplace, hrobot, hfree⟩
    · rw [hleft]
      simp [pick]
  · refine h.progress_move "roomb" (by simp [rooms]) (by simp [hrobot]) ?_
    have hused := g.card_used_le c
    rw [← Finset.card_pos] at hpick
    rw [left_first hrobot] at hpos ⊢
    rw [left_second rfl, waiting_move, used_move]
    omega

/-- In the second room the hands drop what they have. If they are empty, the robot goes back. -/
theorem Possible.progress_second (h : g.Possible c) (hrobot : c.robot = "roomb") (hpos : 0 < g.left c) :
    g.depiction.Advances g.deeds g.left c := by
  rcases (g.used c).eq_empty_or_nonempty with hused | ⟨hand, hhand⟩
  · refine h.progress_move "rooma" (by simp [rooms]) (by simp [hrobot]) ?_
    rw [← Finset.card_eq_zero] at hused
    rw [left_second hrobot] at hpos ⊢
    rw [left_first rfl, waiting_move, used_move]
    omega
  · obtain ⟨hhand, ball, hball, hplace⟩ := mem_used_iff.mp hhand
    have hleft := left_drop h hball hplace hrobot
    refine ⟨drop ball "roomb" hand, mem_deeds_iff.mpr (.inr ⟨ball, hball, _, by simp [rooms], hand, hhand, .inr rfl⟩),
      ?_, _, h.turns_drop hball (by simp [rooms]) hplace, ?_⟩
    · simpa [drop] using ⟨hplace, hrobot⟩
    · rw [hleft]
      simp [drop]

end Scenes

section Start

def startSays (g : Gripper) : List Atom :=
  .robotAt "rooma" :: hands.map .free ++ g.ballNames.map (.ballAt · "rooma")

def goalSays (g : Gripper) : List Atom :=
  g.ballNames.map (.ballAt · "roomb")

def Scene.initial : Scene :=
  ⟨"rooma", fun _ => .room "rooma"⟩

theorem possible_initial (g : Gripper) : g.Possible .initial := by
  constructor <;> simp [Scene.initial, rooms]

theorem mem_atoms_of_mem_startSays : ∀ a ∈ g.startSays, a ∈ g.atoms := by
  simp [startSays, rooms, or_imp, forall_and]

theorem mem_atoms_of_mem_goalSays : ∀ a ∈ g.goalSays, a ∈ g.atoms := by
  simp [goalSays, rooms]

theorem mem_startSays_iff (a : Atom) (ha : a ∈ g.atoms) : a ∈ g.startSays ↔ a.Says g .initial := by
  cases a <;> simp [startSays, Scene.initial] at ha ⊢ <;> grind

/-- Every deed costs one and takes off no more, and there is one that takes off just that. -/
theorem priced (g : Gripper) : g.depiction.Priced g.deeds g.goalSays g.left where
  cost_pos := fun d hd => by
    rcases mem_deeds_iff.mp hd with ⟨_, -, _, -, -, rfl⟩ | ⟨_, -, _, -, _, -, rfl | rfl⟩ <;> exact Int.one_pos
  step := by
    intro c d h hd hpre
    rcases mem_deeds_iff.mp hd with ⟨start, -, target, htarget, -, rfl⟩ |
      ⟨ball, hball, room, hroom, hand, hhand, rfl | rfl⟩
    · obtain rfl : c.robot = start := by simpa [move] using hpre
      refine ⟨_, h.turns_move htarget, ?_⟩
      have := g.left_move c target
      simp only [move]
      omega
    · obtain ⟨hplace, hrobot, hfree⟩ : _ ∧ _ ∧ _ := by simpa [pick] using hpre
      refine ⟨_, h.turns_pick hball hhand hplace hfree, ?_⟩
      have := left_pick hball hplace hfree hhand hrobot
      simp only [pick]
      split_ifs at this <;> omega
    · obtain ⟨hplace, hrobot⟩ : _ ∧ _ := by simpa [drop] using hpre
      refine ⟨_, h.turns_drop hball hroom hplace, ?_⟩
      have := left_drop h hball hplace hrobot
      simp only [drop]
      split_ifs at this <;> omega
  progress := by
    intro c h hpos
    rcases mem_rooms_iff.mp h.robot with hrobot | hrobot
    · exact h.progress_first hrobot hpos
    · exact h.progress_second hrobot hpos
  goal_known := mem_atoms_of_mem_goalSays
  goal_iff := by
    intro c h
    rw [h.left_eq_zero_iff]
    simp [goalSays]

theorem left_initial (hballs : g.balls ≤ int64Max) : (g.left .initial : Int) = optimalCost g.balls := by
  have hwaiting : g.waiting .initial = g.ballNames.toFinset := Finset.filter_true_of_mem fun _ _ => rfl
  have hused : g.used .initial = ∅ := Finset.filter_false_of_mem fun _ _ => by simp [Scene.initial]
  have hcard : g.ballNames.toFinset.card = g.balls := by
    rw [List.toFinset_card_of_nodup g.nodup_ballNames, ballNames, List.length_map, List.length_range]
  rw [left_first rfl, hwaiting, hused, hcard, Finset.card_empty]
  simp only [optimalCost, if_pos hballs]
  split_ifs <;> omega

theorem task_eq (hballs : 0 < g.balls) : g.task =
    (Strips.ofEntries g.entries (g.startSays.map Atom.name) (g.goalSays.map Atom.name)).world := by
  have hstart : g.startSays.map Atom.name =
      robotAt "rooma" :: hands.map free ++ g.ballNames.map (ballAt · "rooma") := by
    rw [startSays, List.map_append, List.map_cons, List.map_map, List.map_map]
    rfl
  have hgoal : g.goalSays.map Atom.name = g.ballNames.map (ballAt · "roomb") := by
    rw [goalSays, List.map_map]
    rfl
  rw [task, if_neg hballs.ne', hstart, hgoal]

theorem exists_build (hids : 8 * g.balls + 2 ≤ Draft.countLimit) (hballs : 0 < g.balls) :
    ∃ t, (Strips.ofEntries g.entries (g.startSays.map Atom.name) (g.goalSays.map Atom.name)).build = .ok t := by
  have hnames : ∀ name, Strips.Entry.atom name ∈ g.entries → name ∈ g.atoms.map Atom.name := by
    simp [entries, moves, handle]
  have hatoms : g.atoms.length ≤ Draft.countLimit := by
    rw [length_atoms]
    omega
  exact Strips.exists_build g.deeds_entries hnames (fun d hd => mem_atoms_of_mem_deeds hd) mem_atoms_of_mem_startSays
    mem_atoms_of_mem_goalSays (List.cons_ne_nil _ _) (fun d hd => (g.priced.cost_pos d hd).le) hatoms
    (g.length_deeds.trans_le hids)

/-- For any number of balls whose atoms and actions can be numbered, a cheapest plan costs what is said of it. -/
theorem isLeast_optimalCost (hballs : 0 < g.balls) (hids : 8 * g.balls + 2 ≤ Draft.countLimit) :
    ∃ t, g.task = .ok t ∧ IsLeast {cost | ∃ plan, t.planCost? plan = some cost} (optimalCost g.balls) := by
  obtain ⟨t, ht⟩ := exists_build hids hballs
  have henacted : g.depiction.Enacted t g.deeds g.startSays g.goalSays :=
    Depiction.enacted_of_build g.deeds_entries injOn_name (fun d hd => mem_atoms_of_mem_deeds hd)
      mem_atoms_of_mem_startSays ht
  have hleast := g.priced.isLeast henacted (henacted.shows_initial g.possible_initial mem_startSays_iff)
  have hrange : g.balls ≤ int64Max := by
    simp only [Draft.countLimit, nat32Max] at hids
    simp only [int64Max]
    omega
  rw [left_initial hrange] at hleast
  exact ⟨t, (task_eq hballs).trans (Strips.world_eq_ok_iff.mpr ht), hleast⟩

/-- Three balls need a second trip. -/
theorem isLeast_optimalCost_three : optimalCost 3 = 9 ∧
    ∃ t, (Gripper.mk 3).task = .ok t ∧ IsLeast {cost | ∃ plan, t.planCost? plan = some cost} 9 :=
  ⟨by decide, isLeast_optimalCost (by decide) (by decide)⟩

end Start

end RankedPlans.Gripper
