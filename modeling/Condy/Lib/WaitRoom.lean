import Mathlib.Data.List.Basic
import Mathlib.Tactic.Common

/-!
# Condy.Lib.WaitRoom — entries that wait and are completed once

An entry waits until somebody takes it out, for a reason: one of its partners, or the entry itself when it withdraws.
Whoever took it out completes it, at once or in a later step; between the two steps the entry is neither waiting nor
completed.  A `Room` is what is observed of such a system, and `Room.Ok` says that every entry has exactly one of four
fates.  The lemmas below say that each of the things that can happen to one entry keeps it.

Being queued is the only arbiter: an entry is completed by the one who took it out.
-/

namespace Condy.Lib

/-- `κ` are the reasons for which an entry is taken out, `ρ` is what can be observed of the entry itself. -/
structure Room (κ ρ : Type*) where
  queued : ℕ → Prop
  /-- The entry was taken out for this reason and is not completed yet. -/
  leaving : ℕ → κ → Prop
  /-- Whether the entry was ever queued. -/
  waited : ℕ → Bool
  /-- The reasons for which it has been taken out. -/
  causes : ℕ → List κ
  outcome : ℕ → ρ

namespace Room

variable {κ ρ : Type*}

/-- `pending` is observed before the completion and `report why` after it. -/
inductive Fate (pending : ρ) (report : κ → ρ) (R : Room κ ρ) (i : ℕ) : Prop where
  | idle (hw : R.waited i = false) (hq : ¬ R.queued i) (hl : ∀ why, ¬ R.leaving i why) (hc : R.causes i = [])
  | waiting (hw : R.waited i = true) (hq : R.queued i) (hl : ∀ why, ¬ R.leaving i why)
      (hc : R.causes i = []) (ho : R.outcome i = pending)
  | leaving (why : κ) (hw : R.waited i = true) (hq : ¬ R.queued i) (hl : ∀ w, R.leaving i w ↔ w = why)
      (hc : R.causes i = [why]) (ho : R.outcome i = pending)
  | settled (why : κ) (hw : R.waited i = true) (hq : ¬ R.queued i) (hl : ∀ w, ¬ R.leaving i w)
      (hc : R.causes i = [why]) (ho : R.outcome i = report why)

/-- Every entry has one of the four fates. -/
def Ok (pending : ρ) (report : κ → ρ) (R : Room κ ρ) : Prop := ∀ i, Fate pending report R i

/-- The two rooms agree on entry `i`. -/
structure Same (R R' : Room κ ρ) (i : ℕ) : Prop where
  queued : R'.queued i ↔ R.queued i
  leaving : ∀ why, R'.leaving i why ↔ R.leaving i why
  waited : R'.waited i = R.waited i
  causes : R'.causes i = R.causes i
  outcome : R'.outcome i = R.outcome i

variable {pending : ρ} {report : κ → ρ} {R R' : Room κ ρ} {i : ℕ}

theorem Same.fate (h : Same R R' i) (hf : Fate pending report R i) : Fate pending report R' i := by
  obtain ⟨h1, h2, h3, h4, h5⟩ := h
  cases hf with
  | idle hw hq hl hc =>
    exact .idle (h3 ▸ hw) (fun h => hq (h1.mp h)) (fun w h => hl w ((h2 w).mp h)) (h4 ▸ hc)
  | waiting hw hq hl hc ho =>
    exact .waiting (h3 ▸ hw) (h1.mpr hq) (fun w h => hl w ((h2 w).mp h)) (h4 ▸ hc) (h5 ▸ ho)
  | leaving why hw hq hl hc ho =>
    exact .leaving why (h3 ▸ hw) (fun h => hq (h1.mp h)) (fun w => (h2 w).trans (hl w)) (h4 ▸ hc) (h5 ▸ ho)
  | settled why hw hq hl hc ho =>
    exact .settled why (h3 ▸ hw) (fun h => hq (h1.mp h)) (fun w h => hl w ((h2 w).mp h)) (h4 ▸ hc) (h5 ▸ ho)

section Fates

variable (h : R.Ok pending report)
include h

/-- An entry in the queue waits: it has not left, and nothing has been done to it. -/
theorem Ok.of_queued (hi : R.queued i) :
    R.waited i = true ∧ (∀ why, ¬ R.leaving i why) ∧ R.causes i = [] ∧ R.outcome i = pending := by
  cases h i with
  | waiting hw hq hl hc ho => exact ⟨hw, hl, hc, ho⟩
  | idle hw hq | leaving _ hw hq | settled _ hw hq => exact absurd hi hq

/-- An entry that is leaving does not wait, and nobody has completed it. -/
theorem Ok.of_leaving {why : κ} (hi : R.leaving i why) :
    R.waited i = true ∧ ¬ R.queued i ∧ R.causes i = [why] ∧ R.outcome i = pending := by
  cases h i with
  | leaving why' hw hq hl hc ho => exact ⟨hw, hq, (hl why).mp hi ▸ hc, ho⟩
  | idle hw hq hl | waiting hw hq hl | settled _ hw hq hl => exact absurd hi (hl why)

/-- An entry that never waited is not waiting and has not left. -/
theorem Ok.of_not_waited (hw : R.waited i = false) :
    ¬ R.queued i ∧ (∀ why, ¬ R.leaving i why) ∧ R.causes i = [] := by
  cases h i with
  | idle _ hq hl hc => exact ⟨hq, hl, hc⟩
  | waiting hw' | leaving _ hw' | settled _ hw' => exact absurd hw (by simp [hw'])

/-- An entry that was taken out was taken out once; it is completed, or about to be. -/
theorem Ok.of_cause {why : κ} (hc : why ∈ R.causes i) : R.waited i = true ∧ ¬ R.queued i ∧ R.causes i = [why] ∧
    (R.leaving i why ∧ R.outcome i = pending ∨ (∀ w, ¬ R.leaving i w) ∧ R.outcome i = report why) := by
  cases h i with
  | idle _ _ _ hc' | waiting _ _ _ hc' => simp [hc'] at hc
  | leaving why' hw hq hl hc' ho =>
    rw [hc', List.mem_singleton] at hc
    exact ⟨hw, hq, hc ▸ hc', .inl ⟨(hl why).mpr hc, ho⟩⟩
  | settled why' hw hq hl hc' ho =>
    rw [hc', List.mem_singleton] at hc
    exact ⟨hw, hq, hc ▸ hc', .inr ⟨hl, hc ▸ ho⟩⟩

/-- Only entry `i` changes. -/
theorem Ok.change (hsame : ∀ j, j ≠ i → Same R R' j) (hi : Fate pending report R' i) :
    R'.Ok pending report := by
  intro j
  by_cases hj : j = i
  · exact hj ▸ hi
  · exact (hsame j hj).fate (h j)

/-- An entry that never waited may be observed differently. -/
theorem Ok.outsider (hsame : ∀ j, j ≠ i → Same R R' j) (hw : R.waited i = false)
    (hq : R'.queued i ↔ R.queued i) (hl : ∀ why, R'.leaving i why ↔ R.leaving i why)
    (hw' : R'.waited i = false) (hc : R'.causes i = R.causes i) : R'.Ok pending report := by
  obtain ⟨hnq, hnl, hc0⟩ := h.of_not_waited hw
  exact h.change hsame
    (.idle hw' (fun h => hnq (hq.mp h)) (fun w h => hnl w ((hl w).mp h)) (hc.trans hc0))

/-- A new entry starts to wait. -/
theorem Ok.join (hsame : ∀ j, j ≠ i → Same R R' j) (hw : R.waited i = false) (hq : R'.queued i)
    (hl : ∀ why, R'.leaving i why ↔ R.leaving i why) (hw' : R'.waited i = true)
    (hc : R'.causes i = R.causes i) (ho : R'.outcome i = pending) : R'.Ok pending report := by
  obtain ⟨-, hnl, hc0⟩ := h.of_not_waited hw
  exact h.change hsame (.waiting hw' hq (fun w h => hnl w ((hl w).mp h)) (hc.trans hc0) ho)

/-- A waiting entry is taken out and completed. -/
theorem Ok.serve (why : κ) (hsame : ∀ j, j ≠ i → Same R R' j) (hi : R.queued i) (hq : ¬ R'.queued i)
    (hl : ∀ w, R'.leaving i w ↔ R.leaving i w) (hw' : R'.waited i = R.waited i)
    (hc : R'.causes i = R.causes i ++ [why]) (ho : R'.outcome i = report why) : R'.Ok pending report := by
  obtain ⟨hw, hnl, hc0, -⟩ := h.of_queued hi
  refine h.change hsame (.settled why (hw' ▸ hw) hq (fun w h => hnl w ((hl w).mp h)) ?_ ho)
  rw [hc, hc0, List.nil_append]

/-- A waiting entry is taken out, to be completed later. -/
theorem Ok.take (why : κ) (hsame : ∀ j, j ≠ i → Same R R' j) (hi : R.queued i) (hq : ¬ R'.queued i)
    (hl : ∀ w, R'.leaving i w ↔ R.leaving i w ∨ w = why) (hw' : R'.waited i = R.waited i)
    (hc : R'.causes i = R.causes i ++ [why]) (ho : R'.outcome i = R.outcome i) : R'.Ok pending report := by
  obtain ⟨hw, hnl, hc0, ho0⟩ := h.of_queued hi
  refine h.change hsame (.leaving why (hw' ▸ hw) hq (fun w => ?_) ?_ (ho.trans ho0))
  · rw [hl w]
    exact or_iff_right (hnl w)
  · rw [hc, hc0, List.nil_append]

/-- An entry that was taken out is completed. -/
theorem Ok.finish {why : κ} (hsame : ∀ j, j ≠ i → Same R R' j) (hi : R.leaving i why)
    (hq : R'.queued i ↔ R.queued i) (hl : ∀ w, ¬ R'.leaving i w) (hw' : R'.waited i = R.waited i)
    (hc : R'.causes i = R.causes i) (ho : R'.outcome i = report why) : R'.Ok pending report := by
  obtain ⟨hw, hnq, hc0, -⟩ := h.of_leaving hi
  exact h.change hsame (.settled why (hw' ▸ hw) (fun h => hnq (hq.mp h)) hl (hc.trans hc0) ho)

/-- Nothing that is observed changes. -/
theorem Ok.congr (hsame : ∀ j, Same R R' j) : R'.Ok pending report :=
  fun j => (hsame j).fate (h j)

end Fates

end Room

end Condy.Lib
