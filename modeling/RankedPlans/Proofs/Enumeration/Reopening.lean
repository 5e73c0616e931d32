import RankedPlans.Proofs.Enumeration.Run
import RankedPlans.Proofs.Search.Expansions

/-! Enumerations under consistent estimates. An enumeration takes the same steps to the same result whether
closed nodes may be opened again or not. -/

namespace RankedPlans

/-- The same enumeration, in which closed nodes may or may not be opened again. -/
def EnumerationSetting.reopening (c : EnumerationSetting) (b : Bool) : EnumerationSetting :=
  { c with search := c.search.reopening b, policy := { c.policy with reopen := b } }

/-- An enumeration whose search has not failed, or an end. -/
def Progress.Faultless (c : EnumerationSetting) : Progress → Prop
  | .going e => Search.Faultless c.search e.search
  | .finished _ => True
  | .failed _ => True

namespace Enumeration

variable {c : EnumerationSetting} {e : Enumeration}

section Faultless

variable (hs : Search.Faultless c.search e.search)
include hs

end Faultless

section Reopening

variable (hc : c.search.Consistent) (hs : Search.Faultless c.search e.search) (b : Bool)
include hc

theorem collect_reopening (rule : StopRule) (paths : PathEnumeration) (selection : Selection)
    (frontier : Option Int) :
    e.collect (c.reopening b) rule paths selection frontier = e.collect c rule paths selection frontier := by
  have hgroup : (c.search.reopening b).group = none := hc.group
  simp only [Enumeration.collect, Search.decode, show (c.reopening b).search = c.search.reopening b from rfl,
    hgroup, hc.group]
  rfl

include hs

theorem solve_reopening : e.solve (c.reopening b) = e.solve c := by
  simp only [Enumeration.solve, show (c.reopening b).search = c.search.reopening b from rfl,
    hs.step_reopening hc b]
  rfl

theorem searchOn_reopening (rule : StopRule) (threshold : Option Int) (bounds : BatchBounds) (steps : Nat) :
    e.searchOn (c.reopening b) rule threshold bounds steps = e.searchOn c rule threshold bounds steps := by
  simp only [Enumeration.searchOn, show (c.reopening b).search = c.search.reopening b from rfl,
    hs.step_reopening hc b]
  rfl

theorem step_reopening : e.step (c.reopening b) = e.step c := by
  unfold Enumeration.step
  cases e.phase with
  | solving => exact solve_reopening hc hs b
  | collecting rule paths selection frontier => exact collect_reopening hc b ..
  | searching rule threshold bounds steps => exact searchOn_reopening hc hs b ..

end Reopening

end Enumeration

variable {t : Task} {h : Heuristic} {r : Request} {p : Policy} {c : EnumerationSetting}

/-- A way past the direct one, a way back, and a pit. -/
def shortcut : Task where
  vars := #[⟨"place", ["start", "side", "end", "goal", "pit"]⟩]
  operators := #[⟨"direct", 5, [⟨0, 0⟩], [⟨0, 2⟩]⟩, ⟨"aside", 1, [⟨0, 0⟩], [⟨0, 1⟩]⟩,
    ⟨"join", 1, [⟨0, 1⟩], [⟨0, 2⟩]⟩, ⟨"return", 1, [⟨0, 2⟩], [⟨0, 0⟩]⟩,
    ⟨"arrive", 3, [⟨0, 2⟩], [⟨0, 3⟩]⟩, ⟨"fall", 0, [⟨0, 0⟩], [⟨0, 4⟩]⟩]
  initial := #[0]
  goal := [⟨0, 3⟩]
  normalized := by decide +kernel
  faultless := by decide +kernel

namespace Shortcut

def table : Heuristic :=
  .ofTable "table" .deadEnd
    [(#[0], .value 4), (#[1], .value 3), (#[2], .value 2), (#[3], .value 0)]

theorem consistent : table.Consistent shortcut :=
  Heuristic.consistent_of_states (by decide +kernel)

theorem eq_of_isState {x : State} (h : shortcut.IsState x) :
    x = #[0] ∨ x = #[1] ∨ x = #[2] ∨ x = #[3] ∨ x = #[4] := by
  have hmem := h.mem_stateLists
  rw [show shortcut.stateLists = [[0], [1], [2], [3], [4]] by decide +kernel] at hmem
  simpa [← Array.toList_inj] using hmem

theorem estimate_cases {x : State} {e : Int} (h : shortcut.IsState x)
    (he : table.estimate shortcut x = .value e) : 0 ≤ e ∧ e ≤ 4 := by
  rcases eq_of_isState h with rfl | rfl | rfl | rfl | rfl
  · obtain rfl := Estimate.value.inj he
    decide
  · obtain rfl := Estimate.value.inj he
    decide
  · obtain rfl := Estimate.value.inj he
    decide
  · obtain rfl := Estimate.value.inj he
    decide
  · cases he

theorem fits : table.Fits shortcut where
  initial e he := by
    obtain ⟨-, hle⟩ := estimate_cases shortcut.isState_initial he
    exact Int.le_trans hle (by decide)
  operator before x past op after hbefore hop hafter := by
    have hx := shortcut.isState_initial.run? hbefore
    have := estimate_cases (hx.apply op) hafter
    have htop : 14 ≤ Cost.top := by decide
    have hcost : ∀ op ∈ [0, 1, 2, 3, 4, 5], (shortcut.operator op).cost ≤ 5 := by decide +kernel
    have hlt : op < 6 := (Task.mem_applicable_iff.mp hop).1
    have := hcost op (by simp; omega)
    have hrun : ∃ plan past', shortcut.run? shortcut.initial plan = some (x, past') ∧ past' ≤ 5 := by
      rcases eq_of_isState hx with rfl | rfl | rfl | rfl | rfl
      · exact ⟨[], 0, by decide +kernel, by decide⟩
      · exact ⟨[1], 1, by decide +kernel, by decide⟩
      · exact ⟨[1, 2], 2, by decide +kernel, by decide⟩
      · exact ⟨[1, 2, 4], 5, by decide +kernel, by decide⟩
      · exact ⟨[5], 0, by decide +kernel, by decide⟩
    obtain ⟨plan, past', hrun, hle⟩ := hrun
    exact ⟨plan, past', hrun, by omega⟩

def setting (reopen : Bool) : SearchSetting :=
  ⟨shortcut, table, none, reopen, none⟩

/-- A search of the shortcut after so many steps, with the sums of the nodes it has expanded. -/
def search (reopen : Bool) : Nat → Search × List Int
  | 0 => (((Search.seed (setting reopen)).open? (setting reopen) Search.root 0 none).1, [])
  | n + 1 => (((search reopen n).1.step (setting reopen)).1,
    (search reopen n).2 ++ ((search reopen n).1.nextEstimate? (setting reopen)).toList)

end Shortcut

end RankedPlans
