import Mathlib.Data.List.Basic
import Mathlib.Tactic.Common

/-!
# Condy.Ring — the submission side of `detail/ring.hpp`

A `Ring` queues submission entries and hands them to the kernel in batches: one batch for each `submit`.  `all` is the
sequence of all entries ever queued; submitting changes only how far of it the kernel may go (`handed`).

With `IORING_SETUP_SQPOLL` a kernel thread reads the submitted entries at its own pace, and an entry keeps its slot
until it was read.  `lag` holds the thread's choices: how many entries are still unread after each coming `submit`.
When the list is used up the thread has caught up.
-/

namespace Condy

structure Ring (σ : Type) where
  /-- The number of slots of the submission queue. -/
  entries : ℕ
  sqpoll : Bool
  submitBatch : ℕ
  maybeSubmitCount : ℕ
  queued : List σ
  unread : ℕ
  lag : List ℕ
  /-- What each `submit` so far handed over. -/
  batches : List (List σ)
deriving DecidableEq, Repr

namespace Ring

variable {σ : Type}

/-- A new ring, before the first submission. -/
def new (entries : ℕ) (sqpoll : Bool) (submitBatch : ℕ) (lag : List ℕ) : Ring σ :=
  { entries, sqpoll, submitBatch, maybeSubmitCount := 0, queued := [], unread := 0, lag, batches := [] }

/-- `io_uring_sq_space_left`. -/
def spaceLeft (r : Ring σ) : ℕ := r.entries - (r.queued.length + r.unread)

def submit (r : Ring σ) : Ring σ :=
  { r with
    maybeSubmitCount := 0
    queued := []
    batches := r.batches ++ [r.queued]
    unread := if r.sqpoll then min (r.lag.headD 0) (r.unread + r.queued.length) else 0
    lag := r.lag.tail }

def maybeSubmit (r : Ring σ) : Ring σ :=
  if r.submitBatch ≤ r.maybeSubmitCount + 1 then submit { r with maybeSubmitCount := r.maybeSubmitCount + 1 }
  else { r with maybeSubmitCount := r.maybeSubmitCount + 1 }

/-- Submit until `n` slots are free: the loop of `reserve_space`, and with `n = 1` that of `get_sqe_`.  `none`: the loop
does not end within `fuel` turns. -/
def waitSpace (n : ℕ) : ℕ → Ring σ → Option (Ring σ)
  | 0, _ => none
  | fuel + 1, r => if n ≤ r.spaceLeft then some r else waitSpace n fuel r.submit

/-- One turn for each lagging submission, one for the submission after which nothing is unread, and one to look. -/
def reserveSpace (r : Ring σ) (n : ℕ) : Option (Ring σ) := waitSpace n (r.lag.length + 2) r

/-- `get_sqe`, and the entry it returns filled with `x`. -/
def getSqe (r : Ring σ) (x : σ) : Option (Ring σ) :=
  (waitSpace 1 (r.lag.length + 2) r).map fun r => { r with queued := r.queued ++ [x] }

/-- Everything ever queued, oldest first. -/
def all (r : Ring σ) : List σ := r.batches.flatten ++ r.queued

/-- The number of entries handed to the kernel. -/
def handed (r : Ring σ) : ℕ := r.batches.flatten.length

variable {r r' : Ring σ} {x : σ} {n : ℕ}

@[simp] theorem all_submit (r : Ring σ) : r.submit.all = r.all := by
  simp [submit, all]

@[simp] theorem all_maybeSubmit (r : Ring σ) : r.maybeSubmit.all = r.all := by
  unfold maybeSubmit
  split
  · exact all_submit _
  · rfl

@[simp] theorem entries_maybeSubmit (r : Ring σ) : r.maybeSubmit.entries = r.entries := by
  unfold maybeSubmit
  split <;> rfl

theorem handed_le_all (r : Ring σ) : r.handed ≤ r.all.length := by
  simp [handed, all]

theorem handed_submit (r : Ring σ) : r.submit.handed = r.all.length := by
  simp [submit, handed, all]

theorem handed_le_submit (r : Ring σ) : r.handed ≤ r.submit.handed := by
  rw [handed_submit]
  exact r.handed_le_all

theorem handed_le_maybeSubmit (r : Ring σ) : r.handed ≤ r.maybeSubmit.handed := by
  unfold maybeSubmit
  split
  · exact handed_le_submit { r with maybeSubmitCount := r.maybeSubmitCount + 1 }
  · exact Nat.le_refl _

/-- What the loop leaves: the same entries, and room. -/
structure Waited (n : ℕ) (r r' : Ring σ) : Prop where
  all : r'.all = r.all
  handed : r.handed ≤ r'.handed
  entries : r'.entries = r.entries
  batch : r'.submitBatch = r.submitBatch
  room : n ≤ r'.spaceLeft
  /-- Either there was room at once, or everything was submitted. -/
  how : (n ≤ r.spaceLeft ∧ r' = r) ∨ (r.spaceLeft < n ∧ r'.queued = [] ∧ r'.maybeSubmitCount = 0)

theorem waited : ∀ {fuel : ℕ} {r : Ring σ}, waitSpace n fuel r = some r' → Waited n r r'
  | 0, _, h => nomatch h
  | fuel + 1, r, h => by
    unfold waitSpace at h
    by_cases hn : n ≤ r.spaceLeft
    · rw [if_pos hn] at h
      obtain rfl := Option.some.inj h
      exact ⟨rfl, Nat.le_refl _, rfl, rfl, hn, .inl ⟨hn, rfl⟩⟩
    · rw [if_neg hn] at h
      have ih := waited h
      refine ⟨ih.all.trans r.all_submit, Nat.le_trans r.handed_le_submit ih.handed, ih.entries, ih.batch, ih.room,
        .inr ⟨by omega, ?_⟩⟩
      rcases ih.how with ⟨-, rfl⟩ | ⟨-, h1, h2⟩
      · exact ⟨rfl, rfl⟩
      · exact ⟨h1, h2⟩

/-- The loop ends if the ring has `n` slots at all. -/
theorem waitSpace_isSome (hn : n ≤ r.entries) : (waitSpace n (r.lag.length + 2) r).isSome := by
  -- With nothing lagging one submission empties the queue; otherwise one submission shortens `lag`.
  have hbase : ∀ (k : ℕ) (r : Ring σ), r.lag = [] → n ≤ r.entries → (waitSpace n (k + 2) r).isSome := by
    intro k r hl hn
    unfold waitSpace
    split
    · rfl
    · have hs : n ≤ r.submit.spaceLeft := by
        simpa [submit, spaceLeft, hl] using hn
      unfold waitSpace
      rw [if_pos hs]
      rfl
  generalize hl : r.lag = l
  induction l generalizing r with
  | nil => exact hbase 0 r hl hn
  | cons x l ih =>
    rw [List.length_cons]
    unfold waitSpace
    split
    · rfl
    · exact ih hn (by simp [submit, hl])

theorem reserveSpace_isSome (hn : n ≤ r.entries) : ∃ r', r.reserveSpace n = some r' ∧ Waited n r r' := by
  obtain ⟨r', h⟩ := Option.isSome_iff_exists.mp (waitSpace_isSome hn)
  exact ⟨r', h, waited h⟩

theorem getSqe_isSome (x : σ) (hn : 0 < r.entries) : (r.getSqe x).isSome := by
  rw [getSqe, Option.isSome_map]
  exact waitSpace_isSome hn

theorem spaceLeft_le (r : Ring σ) : r.spaceLeft ≤ r.entries := Nat.sub_le _ _

/-- With more slots asked for than the ring has, the loop submits for ever. -/
theorem waitSpace_none (fuel : ℕ) {r : Ring σ} (hn : r.entries < n) : waitSpace n fuel r = none := by
  induction fuel generalizing r with
  | zero => rfl
  | succ fuel ih =>
    have hspace := r.spaceLeft_le
    unfold waitSpace
    rw [if_neg (by omega)]
    exact ih hn

/-- **The loop of `reserve_space` ends exactly if the ring has `n` slots.** -/
theorem waitSpace_iff : (∃ fuel r', waitSpace n fuel r = some r') ↔ n ≤ r.entries := by
  constructor
  · rintro ⟨fuel, r', h⟩
    by_contra hn
    rw [waitSpace_none fuel (Nat.lt_of_not_le hn)] at h
    nomatch h
  · intro hn
    obtain ⟨r', h⟩ := Option.isSome_iff_exists.mp (waitSpace_isSome hn)
    exact ⟨_, r', h⟩

/-- The turns that `reserveSpace` is given are enough if any number is. -/
theorem reserveSpace_iff : (∃ r', r.reserveSpace n = some r') ↔ n ≤ r.entries := by
  constructor
  · rintro ⟨r', h⟩
    exact waitSpace_iff.mp ⟨_, r', h⟩
  · intro hn
    obtain ⟨r', h, -⟩ := reserveSpace_isSome hn
    exact ⟨r', h⟩

/-- `get_sqe` adds one entry at the end of the sequence. -/
theorem getSqe_spec (h : r.getSqe x = some r') :
    r'.all = r.all ++ [x] ∧ r.handed ≤ r'.handed ∧ r'.entries = r.entries := by
  obtain ⟨u, hu, rfl⟩ := Option.map_eq_some_iff.mp h
  have hw := waited hu
  refine ⟨?_, hw.handed, hw.entries⟩
  rw [← hw.all]
  simp [all]

/-- With room `get_sqe` does not submit. -/
theorem getSqe_room (h : 0 < r.spaceLeft) : r.getSqe x = some { r with queued := r.queued ++ [x] } := by
  unfold getSqe waitSpace
  rw [if_pos (Nat.succ_le_of_lt h)]
  rfl

end Ring

end Condy
