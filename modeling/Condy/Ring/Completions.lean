import Condy.Errno
import Condy.Lib.Run
import Condy.Lib.Window
import Mathlib.Algebra.Ring.Int.Defs

/-!
# Condy.Ring.Completions — the completion side of `detail/ring.hpp`

`reap_completions_wait` and `reap_completions` walk over the completion queue, hand every entry to `process_func`, and
free the slots of the whole walk with one `io_uring_cq_advance` at its end.  Meanwhile the kernel posts further entries.
The queue is a ring of `entries` slots under two wrapping `unsigned` counters: the kernel moves `ktail`, the reader
`khead`.  A completion takes one slot, or two when it has the flag `IORING_CQE_F_32`.

`io_uring_for_each_cqe` reads `ktail` before every turn in one version of liburing and once per walk in another; `look`
is a step of its own, so that both are runs of the model.  `posted` and `processed` are histories that no step reads.
`Rep` relates the counters and slots to the list of completions that are posted and not yet freed, and the walk to a
split of that list; `walk_in_order` is what holds of every run.
-/

namespace Condy

open Lib

/-- Where the reading thread is. -/
inductive Reaper where
  | outside
  /-- In the loop around `io_uring_submit_and_wait`. -/
  | waiting
  /-- In `io_uring_for_each_cqe`: the position, the tail as last read, and `reaped`. -/
  | walking (head seen reaped : ℕ)
deriving DecidableEq, Repr

structure CompletionQueue (α : Type) where
  entries : ℕ
  mask : ℕ
  khead : ℕ
  ktail : ℕ
  /-- The first slot of a completion holds it; its second slot, if it has one, holds `none`. -/
  slots : ℕ → Option α
  reaper : Reaper
  /-- What the calls so far returned. -/
  returned : List ℤ
  posted : List α
  processed : List α
  /-- Set when the walk reads a slot at which no completion begins. -/
  corrupt : Bool

namespace CompletionQueue

variable {α : Type} (big : α → Bool)

/-- An empty queue of `2 ^ k` slots.  The counters of a new ring are zero; the results hold from any value on. -/
def init (k start : ℕ) : CompletionQueue α :=
  { entries := 2 ^ k, mask := 2 ^ k - 1, khead := start % 2 ^ 32, ktail := start % 2 ^ 32, slots := fun _ => none, reaper := .outside
    returned := [], posted := [], processed := [], corrupt := false }

/-- What the slots of a completion hold. -/
def cells (c : α) : List (Option α) := some c :: if big c then [none] else []

/-- `io_uring_cqe_nr`. -/
def cqeNr (c : α) : ℕ := if big c then 2 else 1

/-- Fill the slots from the counter `i` on. -/
def put (mask : ℕ) (slots : ℕ → Option α) (i : ℕ) : List (Option α) → ℕ → Option α
  | [] => slots
  | x :: xs => put mask (Function.update slots (i &&& mask) x) ((i + 1) % 2 ^ 32) xs

inductive Op (α : Type) where
  /-- The kernel posts a completion. -/
  | post (c : α)
  /-- `reap_completions`, and what `io_uring_peek_cqe` returns in it. -/
  | reap (r : ℤ)
  /-- `reap_completions_wait`, and what a call of `io_uring_submit_and_wait` in it returns. -/
  | reapWait
  | waitReturn (r : ℤ)
  /-- A walk: read the tail, process the completion at the position, and leave. -/
  | look | next | done
deriving DecidableEq, Repr

/-- The start of a walk. -/
def walk (q : CompletionQueue α) : CompletionQueue α := { q with reaper := .walking q.khead q.ktail 0 }

def ret (q : CompletionQueue α) (r : ℤ) : CompletionQueue α :=
  { q with reaper := .outside, returned := q.returned ++ [r] }

/-- The body of the walk: `process_func(cqe)` and `reaped += io_uring_cqe_nr(cqe)`. -/
def processAt (q : CompletionQueue α) (head seen reaped : ℕ) : CompletionQueue α :=
  match q.slots (head &&& q.mask) with
  | none => { q with corrupt := true }
  | some c =>
    { q with
      processed := q.processed ++ [c]
      reaper := .walking ((head + cqeNr big c) % 2 ^ 32) seen (reaped + cqeNr big c) }

/-- `io_uring_cq_advance(reaped)`, and the return. -/
def advance (q : CompletionQueue α) (reaped : ℕ) : CompletionQueue α :=
  { q.ret reaped with khead := (q.khead + reaped) % 2 ^ 32 }

def step (q : CompletionQueue α) : Op α → Option (CompletionQueue α)
  | .post c =>
    -- The kernel posts only into free slots.  What finds none waits in the kernel and is posted later.
    if (q.ktail + 2 ^ 32 - q.khead) % 2 ^ 32 + cqeNr big c ≤ q.entries then
      some { q with
        slots := put q.mask q.slots q.ktail (cells big c)
        ktail := (q.ktail + cqeNr big c) % 2 ^ 32
        posted := q.posted ++ [c] }
    else none
  | .reap r =>
    if q.reaper ≠ .outside then none
    else if r = -EAGAIN then some (q.ret 0)
    else if r < 0 then some (q.ret r)
    else some q.walk
  | .reapWait => if q.reaper ≠ .outside then none else some { q with reaper := .waiting }
  | .waitReturn r =>
    if q.reaper ≠ .waiting then none
    else if 0 ≤ r then some q.walk
    else if r = -EINTR then some q
    else some (q.ret r)
  | .look =>
    match q.reaper with
    | .walking head _ reaped => some { q with reaper := .walking head q.ktail reaped }
    | _ => none
  | .next =>
    match q.reaper with
    | .walking head seen reaped => if head = seen then none else some (q.processAt big head seen reaped)
    | _ => none
  | .done =>
    match q.reaper with
    | .walking head seen reaped => if head = seen then some (q.advance reaped) else none
    | _ => none

/-- What a step does, with what has to hold for it. -/
inductive Made (q : CompletionQueue α) : Op α → CompletionQueue α → Prop
  | post {c : α} (room : (q.ktail + 2 ^ 32 - q.khead) % 2 ^ 32 + cqeNr big c ≤ q.entries) :
      Made q (.post c) { q with
        slots := put q.mask q.slots q.ktail (cells big c)
        ktail := (q.ktail + cqeNr big c) % 2 ^ 32
        posted := q.posted ++ [c] }
  | reapRet {r r' : ℤ} (hr : q.reaper = .outside) (hle : r' ≤ 0) : Made q (.reap r) (q.ret r')
  | reapWalk {r : ℤ} (hr : q.reaper = .outside) : Made q (.reap r) q.walk
  | wait (hr : q.reaper = .outside) : Made q .reapWait { q with reaper := .waiting }
  | waitAgain {r : ℤ} : Made q (.waitReturn r) q
  | waitRet {r : ℤ} (hr : q.reaper = .waiting) (hle : r ≤ 0) : Made q (.waitReturn r) (q.ret r)
  | waitWalk {r : ℤ} (hr : q.reaper = .waiting) : Made q (.waitReturn r) q.walk
  | look {head seen reaped : ℕ} (hr : q.reaper = .walking head seen reaped) :
      Made q .look { q with reaper := .walking head q.ktail reaped }
  | next {head seen reaped : ℕ} (hr : q.reaper = .walking head seen reaped) (hne : head ≠ seen) :
      Made q .next (q.processAt big head seen reaped)
  | done {head seen reaped : ℕ} (hr : q.reaper = .walking head seen reaped) (he : head = seen) :
      Made q .done (q.advance reaped)

theorem step_made {q q' : CompletionQueue α} {op : Op α} (hs : step big q op = some q') : Made big q op q' := by
  cases op with
  | post c =>
    simp only [step] at hs
    split at hs
    · obtain rfl := Option.some.inj hs
      exact .post ‹_›
    · cases hs
  | reap r =>
    simp only [step] at hs
    split at hs
    · cases hs
    · rename_i hr
      split at hs
      · obtain rfl := Option.some.inj hs
        exact .reapRet (not_not.mp hr) (Int.le_refl 0)
      · split at hs <;> obtain rfl := Option.some.inj hs
        · exact .reapRet (not_not.mp hr) (by omega)
        · exact .reapWalk (not_not.mp hr)
  | reapWait =>
    simp only [step] at hs
    split at hs
    · cases hs
    · obtain rfl := Option.some.inj hs
      exact .wait (not_not.mp ‹_›)
  | waitReturn r =>
    simp only [step] at hs
    split at hs
    · cases hs
    · rename_i hr
      split at hs
      · obtain rfl := Option.some.inj hs
        exact .waitWalk (not_not.mp hr)
      · split at hs <;> obtain rfl := Option.some.inj hs
        · exact .waitAgain
        · exact .waitRet (not_not.mp hr) (by omega)
  | look =>
    simp only [step] at hs
    split at hs
    · obtain rfl := Option.some.inj hs
      exact .look ‹_›
    · cases hs
  | next =>
    simp only [step] at hs
    split at hs
    · split at hs
      · cases hs
      · obtain rfl := Option.some.inj hs
        exact .next ‹_› ‹_›
    · cases hs
  | done =>
    simp only [step] at hs
    split at hs
    · split at hs
      · obtain rfl := Option.some.inj hs
        exact .done ‹_› ‹_›
      · cases hs
    · cases hs

/-! ## Slots -/

variable {big}

/-- The slots that a list of completions takes. -/
def size (big : α → Bool) (xs : List α) : ℕ := (xs.flatMap (cells big)).length

@[simp] theorem length_cells (c : α) : (cells big c).length = cqeNr big c := by
  unfold cells cqeNr
  cases big c <;> rfl

theorem cqeNr_pos (big : α → Bool) (c : α) : 0 < cqeNr big c := by
  unfold cqeNr
  split <;> omega

@[simp] theorem size_nil : size big ([] : List α) = 0 := rfl

@[simp] theorem size_append (xs ys : List α) : size big (xs ++ ys) = size big xs + size big ys := by
  simp [size]

@[simp] theorem size_singleton (c : α) : size big [c] = cqeNr big c := by simp [size]

theorem size_cons (c : α) (xs : List α) : size big (c :: xs) = cqeNr big c + size big xs := by
  simp [size]

theorem length_le_size (big : α → Bool) (xs : List α) : xs.length ≤ size big xs := by
  induction xs with
  | nil => exact Nat.zero_le _
  | cons c xs ih =>
    have := cqeNr_pos big c
    rw [List.length_cons, size_cons]
    omega

theorem eq_nil_of_size {xs : List α} (h : size big xs = 0) : xs = [] := by
  have := length_le_size big xs
  exact List.length_eq_zero_iff.mp (by omega)

/-- Filling the slots behind a window extends it. -/
theorem window_put {mask n hd : ℕ} (hn : ∃ k ≤ 32, n = 2 ^ k) (hm : mask = n - 1) :
    ∀ (ys : List (Option α)) {slots : ℕ → Option α} {xs : List (Option α)}, Window slots n hd xs →
      xs.length + ys.length ≤ n → Window (put mask slots ((hd + xs.length) % 2 ^ 32) ys) n hd (xs ++ ys)
  | [], _, xs, h, _ => by
    rw [List.append_nil]
    exact h
  | y :: ys, slots, xs, h, hl => by
    rw [List.length_cons] at hl
    have hpush := h.push (x := y) (by omega)
    have := window_put hn hm ys hpush (by rw [List.length_append, List.length_singleton]; omega)
    rw [List.length_append, List.length_singleton, List.append_assoc, ← Nat.add_assoc] at this
    unfold put
    rw [masked_slot hn hm, wrap_add_one]
    exact this

/-! ## What the ring represents -/

/-- The walk over `live`, the completions that are posted and not yet freed: it has processed `batch`, it will still
process `more`, and it has not seen `later`. -/
structure Split (big : α → Bool) (q : CompletionQueue α) (hd : ℕ) (old live : List α) (head seen reaped : ℕ)
    (batch more later : List α) : Prop where
  live : live = batch ++ more ++ later
  processed : q.processed = old ++ batch
  reaped : reaped = size big batch
  head : head = (hd + size big batch) % 2 ^ 32
  seen : seen = (hd + size big (batch ++ more)) % 2 ^ 32

def Walk (big : α → Bool) (q : CompletionQueue α) (hd : ℕ) (old live : List α) : Reaper → Prop
  | .walking head seen reaped => ∃ batch more later, Split big q hd old live head seen reaped batch more later
  | _ => q.processed = old

/-- The queue holds `live` from position `hd` on, after `old`, whose slots are free again. -/
structure Rep (big : α → Bool) (k : ℕ) (q : CompletionQueue α) (hd : ℕ) (old live : List α) : Prop where
  small : k ≤ 31
  entries : q.entries = 2 ^ k
  mask : q.mask = q.entries - 1
  posted : q.posted = old ++ live
  khead : q.khead = hd % 2 ^ 32
  ktail : q.ktail = (hd + size big live) % 2 ^ 32
  room : size big live ≤ q.entries
  window : Window q.slots q.entries hd (live.flatMap (cells big))
  walk : Walk big q hd old live q.reaper
  returned : (q.returned.filter (0 ≤ ·)).sum = size big old
  sound : q.corrupt = false

variable {k : ℕ} {q q' : CompletionQueue α} {hd seen : ℕ} {old live later : List α}

namespace Rep

theorem pow32 (h : Rep big k q hd old live) : ∃ k ≤ 32, q.entries = 2 ^ k :=
  ⟨k, Nat.le_succ_of_le h.small, h.entries⟩

theorem entries_lt (h : Rep big k q hd old live) : q.entries < 2 ^ 32 := by
  rw [h.entries]
  exact Nat.pow_lt_pow_right (by decide) (Nat.lt_succ_of_le h.small)

/-- Positions of the ring that agree as wrapped counters agree. -/
theorem pos_eq (h : Rep big k q hd old live) {a b : ℕ} (hab : a ≤ b) (hb : b ≤ q.entries)
    (he : (hd + a) % 2 ^ 32 = (hd + b) % 2 ^ 32) : a = b := by
  have hlt := h.entries_lt
  exact index_inj (by omega) (by omega) he

theorem post (h : Rep big k q hd old live) {c : α}
    (hroom : (q.ktail + 2 ^ 32 - q.khead) % 2 ^ 32 + cqeNr big c ≤ q.entries) :
    Rep big k { q with
      slots := put q.mask q.slots q.ktail (cells big c)
      ktail := (q.ktail + cqeNr big c) % 2 ^ 32
      posted := q.posted ++ [c] } hd old (live ++ [c]) := by
  have hlt := h.entries_lt
  have hfit := h.room
  -- the kernel reads from the counters how many slots are taken
  rw [h.khead, h.ktail, wrap_sub (by omega)] at hroom
  have hwin := window_put h.pow32 h.mask (cells big c) h.window
    (by rw [length_cells]; exact hroom)
  refine ⟨h.small, h.entries, h.mask, ?_, h.khead, ?_, ?_, ?_, ?_, h.returned, h.sound⟩
  · rw [h.posted, List.append_assoc]
  · show (q.ktail + cqeNr big c) % 2 ^ 32 = _
    rw [h.ktail, Nat.mod_add_mod, size_append, size_singleton, Nat.add_assoc]
  · rw [size_append, size_singleton]
    exact hroom
  · rw [List.flatMap_append, List.flatMap_singleton]
    show Window (put q.mask q.slots q.ktail (cells big c)) q.entries hd _
    rw [h.ktail]
    exact hwin
  · -- the walk keeps its place: the new completion is among those it has not seen
    have hw := h.walk
    cases hr : q.reaper with
    | outside | waiting =>
      rw [hr] at hw
      exact hw
    | walking head seen reaped =>
      rw [hr] at hw
      obtain ⟨batch, more, later, hw⟩ := hw
      exact ⟨batch, more, later ++ [c], by rw [hw.live, List.append_assoc], hw.processed, hw.reaped, hw.head, hw.seen⟩

theorem outside (h : Rep big k q hd old live) (hr : q.reaper = .outside ∨ q.reaper = .waiting) : q.processed = old := by
  have hw := h.walk
  rcases hr with hr | hr <;> rw [hr] at hw <;> exact hw

theorem begin_walk (h : Rep big k q hd old live) (hp : q.processed = old) : Rep big k q.walk hd old live where
  small := h.small
  entries := h.entries
  mask := h.mask
  posted := h.posted
  khead := h.khead
  ktail := h.ktail
  room := h.room
  window := h.window
  walk := ⟨[], live, [], by simp, by rw [List.append_nil]; exact hp, rfl, h.khead, by simpa using h.ktail⟩
  returned := h.returned
  sound := h.sound

/-- A return without a walk. -/
theorem ret (h : Rep big k q hd old live) (hp : q.processed = old) {r : ℤ} (hr : r ≤ 0) :
    Rep big k (q.ret r) hd old live where
  small := h.small
  entries := h.entries
  mask := h.mask
  posted := h.posted
  khead := h.khead
  ktail := h.ktail
  room := h.room
  window := h.window
  walk := hp
  returned := by
    have hz : (([r] : List ℤ).filter (0 ≤ ·)).sum = 0 := by
      by_cases h0 : 0 ≤ r
      · simp [show r = 0 by omega]
      · simp [h0]
    unfold CompletionQueue.ret
    rw [List.filter_append, List.sum_append, hz, Int.add_zero]
    exact h.returned
  sound := h.sound

variable {head reaped : ℕ} {batch more : List α}

/-- The split of the completions at which a walk is. -/
theorem split (h : Rep big k q hd old live) (hr : q.reaper = .walking head seen reaped) :
    ∃ batch more later, Split big q hd old live head seen reaped batch more later := by
  have hw := h.walk
  rw [hr] at hw
  exact hw

theorem processed_le (h : Rep big k q hd old live) : q.processed <+: q.posted := by
  have hw := h.walk
  cases hr : q.reaper with
  | outside | waiting =>
    rw [hr] at hw
    rw [h.posted, show q.processed = old from hw]
    exact List.prefix_append _ _
  | walking head seen reaped =>
    obtain ⟨batch, more, later, hw⟩ := h.split hr
    rw [h.posted, hw.processed, hw.live, List.append_assoc batch, ← List.append_assoc old]
    exact List.prefix_append _ _

theorem look (h : Rep big k q hd old live) (hr : q.reaper = .walking head seen reaped) :
    Rep big k { q with reaper := .walking head q.ktail reaped } hd old live := by
  obtain ⟨batch, more, later, hw⟩ := h.split hr
  refine ⟨h.small, h.entries, h.mask, h.posted, h.khead, h.ktail, h.room, h.window, ?_, h.returned, h.sound⟩
  refine ⟨batch, more ++ later, [], by rw [hw.live]; simp, hw.processed, hw.reaped, hw.head, ?_⟩
  show q.ktail = _
  rw [h.ktail, hw.live, List.append_assoc]

/-- The slot at the position of the walk holds the completion that is next in the order of the posts. -/
theorem slot_next {c : α} (h : Rep big k q hd old live)
    (hw : Split big q hd old live head seen reaped batch (c :: more) later) : q.slots (head &&& q.mask) = some c := by
  have hsplit : live.flatMap (cells big) = batch.flatMap (cells big) ++ (cells big c ++
      (more ++ later).flatMap (cells big)) := by
    rw [hw.live]
    simp
  have hwin := h.window.drop (size big batch)
  rw [hsplit, show size big batch = (batch.flatMap (cells big)).length from rfl, List.drop_left] at hwin
  rw [hw.head, masked_slot h.pow32 h.mask]
  exact hwin.head

theorem processAt_eq {c : α} (h : Rep big k q hd old live)
    (hw : Split big q hd old live head seen reaped batch (c :: more) later) :
    q.processAt big head seen reaped = { q with
      processed := q.processed ++ [c]
      reaper := .walking ((head + cqeNr big c) % 2 ^ 32) seen (reaped + cqeNr big c) } := by
  unfold processAt
  rw [h.slot_next hw]

/-- **A turn of the walk** moves one completion to those processed. -/
theorem next {c : α} (h : Rep big k q hd old live)
    (hw : Split big q hd old live head seen reaped batch (c :: more) later) :
    Rep big k (q.processAt big head seen reaped) hd old live ∧
      Split big (q.processAt big head seen reaped) hd old live ((head + cqeNr big c) % 2 ^ 32) seen
        (reaped + cqeNr big c) (batch ++ [c]) more later := by
  rw [h.processAt_eq hw]
  have hw' : Split big { q with
      processed := q.processed ++ [c]
      reaper := .walking ((head + cqeNr big c) % 2 ^ 32) seen (reaped + cqeNr big c) } hd old live
      ((head + cqeNr big c) % 2 ^ 32) seen (reaped + cqeNr big c) (batch ++ [c]) more later := by
    refine ⟨by rw [hw.live]; simp, by rw [hw.processed, List.append_assoc], ?_, ?_, ?_⟩
    · rw [hw.reaped, size_append, size_singleton]
    · rw [hw.head, Nat.mod_add_mod, size_append, size_singleton, Nat.add_assoc]
    · rw [hw.seen, List.append_assoc, List.singleton_append]
  exact ⟨⟨h.small, h.entries, h.mask, h.posted, h.khead, h.ktail, h.room, h.window, ⟨_, _, _, hw'⟩, h.returned,
    h.sound⟩, hw'⟩

/-- The position has reached the tail as it was read exactly when nothing seen is left. -/
theorem head_eq_iff (h : Rep big k q hd old live) (hw : Split big q hd old live head seen reaped batch more later) :
    head = seen ↔ more = [] := by
  have hroom := h.room
  rw [hw.live, size_append, size_append] at hroom
  constructor
  · intro he
    have := h.pos_eq (a := size big batch) (b := size big (batch ++ more)) (by simp) (by rw [size_append]; omega)
      (by rw [← hw.head, ← hw.seen, he])
    rw [size_append] at this
    exact (eq_nil_of_size (show size big more = 0 by omega))
  · rintro rfl
    rw [hw.head, hw.seen, List.append_nil]

theorem split_cons (h : Rep big k q hd old live) (hr : q.reaper = .walking head seen reaped) (hne : head ≠ seen) :
    ∃ batch c more later, Split big q hd old live head seen reaped batch (c :: more) later := by
  obtain ⟨batch, more, later, hw⟩ := h.split hr
  cases more with
  | nil => exact absurd ((h.head_eq_iff hw).mpr rfl) hne
  | cons c more => exact ⟨batch, c, more, later, hw⟩

/-- **The end of a walk** frees what it processed and nothing else. -/
theorem done (h : Rep big k q hd old live) (hw : Split big q hd old live head seen reaped batch [] later) :
    Rep big k (q.advance reaped) (hd + reaped) (old ++ batch) later := by
  have hl := hw.live
  rw [List.append_nil] at hl
  have hroom := h.room
  rw [hl, size_append] at hroom
  have hcut : (live.flatMap (cells big)).drop reaped = later.flatMap (cells big) := by
    rw [hl, List.flatMap_append, hw.reaped]
    exact List.drop_left
  refine ⟨h.small, h.entries, h.mask, ?_, ?_, ?_, ?_, ?_, hw.processed, ?_, h.sound⟩
  · show q.posted = _
    rw [h.posted, hl, List.append_assoc]
  · show (q.khead + reaped) % 2 ^ 32 = _
    rw [h.khead, Nat.mod_add_mod]
  · show q.ktail = _
    rw [h.ktail, hl, size_append, hw.reaped, Nat.add_assoc]
  · show size big later ≤ q.entries
    omega
  · have hwin := h.window.drop reaped
    rw [hcut] at hwin
    exact hwin
  · show ((q.returned ++ [(reaped : ℤ)]).filter (0 ≤ ·)).sum = _
    rw [List.filter_append, List.sum_append, h.returned, hw.reaped, size_append, Nat.cast_add]
    simp

end Rep

/-! ## Runs -/

def Inv (big : α → Bool) (k : ℕ) (q : CompletionQueue α) : Prop := ∃ hd old live, Rep big k q hd old live

theorem init_inv (hk : k ≤ 31) (start : ℕ) : Inv big k (init k start : CompletionQueue α) :=
  ⟨start, [], [], hk, rfl, rfl, rfl, rfl, rfl, Nat.zero_le _, window_nil, rfl, rfl, rfl⟩

theorem step_inv {op : Op α} (h : Inv big k q) (hs : step big q op = some q') : Inv big k q' := by
  obtain ⟨hd, old, live, h⟩ := h
  cases step_made big hs with
  | post room => exact ⟨hd, old, live ++ [_], h.post room⟩
  | reapRet hr hle => exact ⟨hd, old, live, h.ret (h.outside (.inl hr)) hle⟩
  | reapWalk hr => exact ⟨hd, old, live, h.begin_walk (h.outside (.inl hr))⟩
  | wait hr =>
    exact ⟨hd, old, live, h.small, h.entries, h.mask, h.posted, h.khead, h.ktail, h.room, h.window,
      h.outside (.inl hr), h.returned, h.sound⟩
  | waitAgain => exact ⟨hd, old, live, h⟩
  | waitRet hr hle => exact ⟨hd, old, live, h.ret (h.outside (.inr hr)) hle⟩
  | waitWalk hr => exact ⟨hd, old, live, h.begin_walk (h.outside (.inr hr))⟩
  | look hr => exact ⟨hd, old, live, h.look hr⟩
  | next hr hne =>
    obtain ⟨batch, c, more, later, hw⟩ := h.split_cons hr hne
    exact ⟨hd, old, live, (h.next hw).1⟩
  | done hr he =>
    obtain ⟨batch, more, later, hw⟩ := h.split hr
    obtain rfl := (h.head_eq_iff hw).mp he
    exact ⟨_, _, _, h.done hw⟩

theorem run_inv_init {ops : List (Op α)} (hk : k ≤ 31) {start : ℕ} (hrun : run (step big) (init k start) ops = some q) : Inv big k q :=
  run_inv (fun _ _ _ => step_inv) ops (init_inv hk start) hrun

/-- The queue as the list that `Condy.Runtime.Model` keeps: what is posted and not yet processed. -/
def queue (q : CompletionQueue α) : List α := q.posted.drop q.processed.length

theorem Rep.queue_eq (h : Rep big k q hd old live) {head reaped : ℕ} {batch more : List α}
    (hw : Split big q hd old live head seen reaped batch more later) : q.queue = more ++ later := by
  unfold queue
  rw [h.posted, hw.processed, hw.live, List.append_assoc batch, ← List.append_assoc old, List.drop_left]

/-- **The ring refines the list**: a post appends to it, a turn of a walk takes its first entry, and no other step
changes it. -/
theorem step_queue {op : Op α} (h : Inv big k q) (hs : step big q op = some q') :
    match op with
    | .post c => q'.queue = q.queue ++ [c] ∧ q'.processed = q.processed
    | .next => ∃ c, q.queue = c :: q'.queue ∧ q'.processed = q.processed ++ [c]
    | _ => q'.queue = q.queue ∧ q'.processed = q.processed := by
  obtain ⟨hd, old, live, h⟩ := h
  cases step_made big hs with
  | post room => exact ⟨List.drop_append_of_le_length h.processed_le.length_le, rfl⟩
  | next hr hne =>
    obtain ⟨batch, c, more, later, hw⟩ := h.split_cons hr hne
    obtain ⟨h', hw'⟩ := h.next hw
    refine ⟨c, ?_, by rw [h.processAt_eq hw]⟩
    rw [h.queue_eq hw, h'.queue_eq hw', List.cons_append]
  | reapRet | reapWalk | wait | waitAgain | waitRet | waitWalk | look | done => exact ⟨rfl, rfl⟩

/-- A walk ends by itself: each turn processes one of the completions it has seen. -/
theorem walk_ends : ∀ (more : List α) {q : CompletionQueue α} {head reaped : ℕ} {batch : List α},
    Rep big k q hd old live → q.reaper = .walking head seen reaped →
    Split big q hd old live head seen reaped batch more later →
    ∃ q', run (step big) q (List.replicate more.length .next ++ [.done]) = some q' ∧ q'.reaper = .outside ∧
      q'.processed = q.processed ++ more
  | [], q, head, reaped, batch, h, hr, hw => by
    have he := (h.head_eq_iff hw).mpr rfl
    refine ⟨q.advance reaped, ?_, rfl, (List.append_nil _).symm⟩
    rw [List.length_nil, List.replicate_zero, List.nil_append, run_cons]
    simp only [step, hr, if_pos he]
    rfl
  | c :: more, q, head, reaped, batch, h, hr, hw => by
    have hne : head ≠ seen := fun he => by
      have := (h.head_eq_iff hw).mp he
      cases this
    obtain ⟨h', hw'⟩ := h.next hw
    obtain ⟨q', hrun, hout, hp⟩ := walk_ends more h' (by rw [h.processAt_eq hw]) hw'
    refine ⟨q', ?_, hout, ?_⟩
    · rw [List.length_cons, List.replicate_succ, List.cons_append, run_cons]
      simp only [step, hr, if_neg hne]
      exact hrun
    · rw [hp, h.processAt_eq hw, List.append_assoc]
      rfl

/-- **Completions are processed in order.**  After every run of the kernel and the reader, across every wrap of the
counters: no walk ever read a slot that the kernel was free to overwrite; what was processed is what was posted first,
each completion once; a walk takes at most as many slots as the ring has, however fast the kernel posts, and ends by
itself after at most that many turns; and the non-negative values returned count the slots of what was processed. -/
theorem walk_in_order {ops : List (Op α)} (hk : k ≤ 31) {start : ℕ} (hrun : run (step big) (init k start) ops = some q) :
    q.corrupt = false ∧ q.processed <+: q.posted ∧
    (q.reaper = .outside → (q.ktail = q.khead → q.processed = q.posted) ∧
      (q.returned.filter (0 ≤ ·)).sum = size big q.processed) ∧
    ∀ head seen reaped, q.reaper = .walking head seen reaped → reaped ≤ 2 ^ k ∧
      ∃ n ≤ 2 ^ k, ∃ q', run (step big) q (List.replicate n .next ++ [.done]) = some q' ∧ q'.reaper = .outside := by
  obtain ⟨hd, old, live, h⟩ := run_inv_init hk hrun
  refine ⟨h.sound, h.processed_le, ?_, ?_⟩
  · intro hr
    have hp := h.outside (.inl hr)
    refine ⟨fun he => ?_, by rw [h.returned, hp]⟩
    have := h.pos_eq (a := 0) (b := size big live) (Nat.zero_le _) h.room (by rw [Nat.add_zero, ← h.khead, ← h.ktail, he])
    rw [hp, h.posted, eq_nil_of_size this.symm, List.append_nil]
  · intro head seen reaped hr
    obtain ⟨batch, more, later, hw⟩ := h.split hr
    have hroom := h.room
    rw [hw.live, size_append, size_append, h.entries] at hroom
    obtain ⟨q', hrun', hout, -⟩ := walk_ends more h hr hw
    refine ⟨by rw [hw.reaped]; omega, more.length, ?_, q', hrun', hout⟩
    have := length_le_size big more
    omega

/-- A ring of two slots just before the counters wrap: a walk during which the kernel posts, then one that an
interrupted wait comes before, over a completion of two slots. -/
theorem walk_in_order_wrap : ∃ q : CompletionQueue ℕ, run (step (· == 7)) (init 1 (2 ^ 32 - 1))
    [.post 1, .reap 0, .next, .post 2, .look, .next, .done, .reap (-EAGAIN), .reapWait, .waitReturn (-EINTR), .post 7,
      .waitReturn 0, .next, .done] = some q ∧
    q.khead = 3 ∧ q.returned = [2, 0, 2] ∧ q.processed = [1, 2, 7] ∧ q.processed <+: q.posted := by
  have hrun : (run (step (· == 7)) (init 1 (2 ^ 32 - 1)) [.post 1, .reap 0, .next, .post 2, .look, .next, .done,
      .reap (-EAGAIN), .reapWait, .waitReturn (-EINTR), .post 7, .waitReturn 0, .next, .done]).map
      (fun q => (q.khead, q.returned, q.processed)) = some (3, [2, 0, 2], [1, 2, 7]) := by
    decide +kernel
  obtain ⟨q, hq, hend⟩ := Option.map_eq_some_iff.mp hrun
  obtain ⟨hh, hend⟩ := Prod.mk.inj hend
  obtain ⟨hret, hp⟩ := Prod.mk.inj hend
  exact ⟨q, hq, hh, hret, hp, (walk_in_order (by decide) hq).2.1⟩

end CompletionQueue

end Condy
