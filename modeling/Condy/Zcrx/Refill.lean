import Condy.Zcrx

/-!
# Condy.Zcrx.Refill — `add_buffer_back` against a kernel that empties the refill ring at any time

`add_buffer_back` reads `khead` for its assertion, fills a slot, publishes it with the store to `ktail`, and reads `khead`
again to decide whether it has to flush.  Each of these is a step here, and between any two of them the kernel may take
entries from its head on.  The counters have 32 bits and may have wrapped any number of times.

`RefillRun.steps_addBufferBack` says that without the kernel the steps are `Pool.addBufferBack`.
-/

namespace Condy.Zcrx

open Lib

/-- The place of the program in `add_buffer_back(ptr, size)`. -/
inductive Phase where
  | idle
  /-- At the start of `rq_enqueue_`. -/
  | enqueue (ptr size : ℕ)
  /-- The assertion was evaluated. -/
  | fill (ptr size : ℕ)
  /-- The slot is filled. -/
  | publish (ptr size : ℕ)
  /-- At the start of `maybe_flush_rq_`. -/
  | maybeFlush
  | flush
deriving DecidableEq, Repr

structure RefillRun where
  pool : Pool
  phase : Phase
  /-- The entries that were published, in order. -/
  enqueued : List Rqe
  /-- An entry that the kernel had not taken was overwritten. -/
  overwritten : Bool

inductive RefillOp where
  /-- `add_buffer_back` is called. -/
  | call (ptr size : ℕ)
  /-- It goes on. -/
  | go
  /-- The kernel takes `n` entries. -/
  | kernel (n : ℕ)
deriving DecidableEq, Repr

/-- The entry for a buffer. -/
def Pool.rqe (p : Pool) (ptr size : ℕ) : Rqe := ⟨(ptr - p.areaPtr) ||| p.areaToken, size % 2 ^ 32⟩

namespace RefillRing

def slot (r : RefillRing) (i : ℕ) : ℕ := i &&& (r.ringEntries - 1)

/-- One of the entries between `khead` and `ktail` stands in the slot. -/
def inUse (r : RefillRing) (j : ℕ) : Bool :=
  (List.range ((r.ktail + 2 ^ 32 - r.khead) % 2 ^ 32)).any fun i => r.slot ((r.khead + i) % 2 ^ 32) == j

end RefillRing

namespace RefillRun

def init (p : Pool) : RefillRun := { pool := p, phase := .idle, enqueued := [], overwritten := false }

def go (s : RefillRun) : Option RefillRun :=
  let rq := s.pool.rq
  match s.phase with
  | .idle => none
  | .enqueue ptr size =>
    some { s with
      phase := .fill ptr size
      pool := { s.pool with asserts := s.pool.asserts && decide (rq.nrQueued < rq.ringEntries) } }
  | .fill ptr size =>
    some { s with
      phase := .publish ptr size
      overwritten := s.overwritten || rq.inUse (rq.slot rq.rqTail)
      pool := { s.pool with
        rq := { rq with rqes := Function.update rq.rqes (rq.slot rq.rqTail) (s.pool.rqe ptr size) } } }
  | .publish ptr size =>
    some { s with
      phase := .maybeFlush
      enqueued := s.enqueued ++ [s.pool.rqe ptr size]
      pool := { s.pool with
        rq := { rq with rqTail := (rq.rqTail + 1) % 2 ^ 32, ktail := (rq.rqTail + 1) % 2 ^ 32 } } }
  | .maybeFlush =>
    some { s with phase := if rq.ringEntries ≤ rq.nrQueued ∨ s.pool.nodev = true then .flush else .idle }
  | .flush => some { s with phase := .idle, pool := s.pool.flushRq }

def step (s : RefillRun) : RefillOp → Option RefillRun
  | .call ptr size => if s.phase = .idle then some { s with phase := .enqueue ptr size } else none
  | .go => s.go
  | .kernel n =>
    if (s.pool.rq.ktail + 2 ^ 32 - s.pool.rq.khead) % 2 ^ 32 < n then none
    else some { s with pool := { s.pool with rq := s.pool.rq.kernelTake n } }

/-- Without the kernel in between, the steps are `add_buffer_back`. -/
theorem steps_addBufferBack (s : RefillRun) (hs : s.phase = .idle) (ptr size : ℕ) : ∃ n ≤ 5,
    run step s (.call ptr size :: List.replicate n .go) = some { s with
      pool := s.pool.addBufferBack ptr size
      enqueued := s.enqueued ++ [s.pool.rqe ptr size]
      overwritten := s.overwritten || s.pool.rq.inUse (s.pool.rq.slot s.pool.rq.rqTail) } := by
  -- the state behind `rq_enqueue_`
  obtain ⟨t, ht⟩ : ∃ t : RefillRun, t = { s with
      phase := .maybeFlush
      pool := s.pool.rqEnqueue ptr size
      enqueued := s.enqueued ++ [s.pool.rqe ptr size]
      overwritten := s.overwritten || s.pool.rq.inUse (s.pool.rq.slot s.pool.rq.rqTail) } := ⟨_, rfl⟩
  have hcall : step s (.call ptr size) = some { s with phase := .enqueue ptr size } := if_pos hs
  have henqueue : ∀ ops, run step s (.call ptr size :: .go :: .go :: .go :: ops) = run step t ops := by
    intro ops
    rw [run_cons, hcall, ht]
    rfl
  have hphase : t.phase = .maybeFlush := by rw [ht]
  by_cases hflush : t.pool.rq.ringEntries ≤ t.pool.rq.nrQueued ∨ t.pool.nodev = true
  · have hlast : s.pool.addBufferBack ptr size = t.pool.flushRq := by
      rw [ht] at hflush ⊢
      exact if_pos hflush
    refine ⟨5, le_rfl, (henqueue [.go, .go]).trans ?_⟩
    simp only [run, step, go, hphase, if_pos hflush, Option.bind_some, hlast]
    rw [ht, hs]
  · have hlast : s.pool.addBufferBack ptr size = t.pool := by
      rw [ht] at hflush ⊢
      exact if_neg hflush
    refine ⟨4, by decide, (henqueue [.go]).trans ?_⟩
    simp only [run, step, go, hphase, if_neg hflush, Option.bind_some, hlast]
    rw [ht, hs]

/-! ## The invariant -/

/-- What holds at each place, with `pend` queued from position `hd` on: there is room until the entry is published. -/
def AtPhase (p : Pool) (hd : ℕ) (pend : List Rqe) : Phase → Prop
  | .idle | .enqueue _ _ | .fill _ _ => pend.length < p.rq.ringEntries
  | .publish ptr size => pend.length < p.rq.ringEntries ∧
      p.rq.rqes ((hd + pend.length) % p.rq.ringEntries) = p.rqe ptr size
  | .maybeFlush | .flush => True

structure Inv (s : RefillRun) (hd : ℕ) (pend : List Rqe) : Prop where
  ring : s.pool.rq.Queued hd pend
  place : AtPhase s.pool hd pend s.phase
  taken : s.pool.rq.taken ++ pend = s.enqueued
  asserts : s.pool.asserts = true
  kept : s.overwritten = false

namespace Inv

variable {s s' : RefillRun} {hd : ℕ} {pend : List Rqe}

theorem slot_tail (h : s.Inv hd pend) :
    s.pool.rq.slot s.pool.rq.rqTail = (hd + pend.length) % s.pool.rq.ringEntries := by
  unfold RefillRing.slot
  rw [h.ring.rqTail]
  exact h.ring.slot_eq _

/-- The slot behind the queued entries is free while there is room. -/
theorem not_inUse (h : s.Inv hd pend) (hroom : pend.length < s.pool.rq.ringEntries) :
    s.pool.rq.inUse (s.pool.rq.slot s.pool.rq.rqTail) = false := by
  have hdist : (s.pool.rq.ktail + 2 ^ 32 - s.pool.rq.khead) % 2 ^ 32 = pend.length := by
    rw [h.ring.ktail]
    exact h.ring.nrQueued_eq
  unfold RefillRing.inUse
  rw [hdist, h.slot_tail, List.any_eq_false]
  intro i hi
  have hi' := List.mem_range.mp hi
  rw [beq_iff_eq, h.ring.khead, Nat.mod_add_mod]
  unfold RefillRing.slot
  rw [h.ring.slot_eq]
  exact next_not_in_window hroom i hi'

theorem enqueue (h : s.Inv hd pend) {ptr size : ℕ} (hp : s.phase = .enqueue ptr size) (hs : s.go = some s') :
    s'.Inv hd pend := by
  unfold go at hs
  simp only [hp] at hs
  obtain rfl := Option.some.inj hs
  have hplace := h.place
  rw [hp] at hplace
  have hroom : pend.length < s.pool.rq.ringEntries := hplace
  refine ⟨h.ring, hroom, h.taken, ?_, h.kept⟩
  change (s.pool.asserts && decide (s.pool.rq.nrQueued < s.pool.rq.ringEntries)) = true
  rw [h.asserts, h.ring.nrQueued_eq, decide_eq_true hroom]
  rfl

theorem fill (h : s.Inv hd pend) {ptr size : ℕ} (hp : s.phase = .fill ptr size) (hs : s.go = some s') :
    s'.Inv hd pend := by
  unfold go at hs
  simp only [hp] at hs
  obtain rfl := Option.some.inj hs
  have hroom := h.place
  rw [hp] at hroom
  have hslot := h.slot_tail
  refine ⟨⟨h.ring.pow, h.ring.khead, h.ring.rqTail, h.ring.ktail, ?_, h.ring.len⟩, ⟨hroom, ?_⟩, h.taken, h.asserts, ?_⟩
  · rw [hslot]
    exact h.ring.win.update_out (next_not_in_window hroom)
  · change Function.update s.pool.rq.rqes _ _ _ = _
    rw [hslot, Function.update_self]
    rfl
  · change (s.overwritten || s.pool.rq.inUse (s.pool.rq.slot s.pool.rq.rqTail)) = false
    rw [h.kept, h.not_inUse hroom]
    rfl

theorem publish (h : s.Inv hd pend) {ptr size : ℕ} (hp : s.phase = .publish ptr size) (hs : s.go = some s') :
    s'.Inv hd (pend ++ [s.pool.rqe ptr size]) := by
  unfold go at hs
  simp only [hp] at hs
  obtain rfl := Option.some.inj hs
  have hplace := h.place
  rw [hp] at hplace
  obtain ⟨hroom, hslot⟩ := hplace
  refine ⟨⟨h.ring.pow, h.ring.khead, ?_, rfl, h.ring.win.snoc hslot, ?_⟩, trivial, ?_, h.asserts, h.kept⟩
  · change (s.pool.rq.rqTail + 1) % 2 ^ 32 = _
    rw [h.ring.rqTail, wrap_add_one, List.length_append, List.length_singleton, Nat.add_assoc]
  · rw [List.length_append]
    exact hroom
  · rw [← List.append_assoc, h.taken]

theorem maybeFlush (h : s.Inv hd pend) (hp : s.phase = .maybeFlush) (hs : s.go = some s') : s'.Inv hd pend := by
  unfold go at hs
  simp only [hp] at hs
  obtain rfl := Option.some.inj hs
  refine ⟨h.ring, ?_, h.taken, h.asserts, h.kept⟩
  change AtPhase s.pool hd pend (if _ then _ else _)
  split_ifs with hfull
  · trivial
  · change pend.length < s.pool.rq.ringEntries
    rw [← h.ring.nrQueued_eq]
    exact Nat.lt_of_not_le fun hle => hfull (.inl hle)

/-- The kernel takes entries: at every place the room only grows, and the slot that was filled stays behind the queued
entries. -/
theorem kernelTake (h : s.Inv hd pend) {n : ℕ} (hn : n ≤ pend.length) :
    Inv { s with pool := { s.pool with rq := s.pool.rq.kernelTake n } } (hd + n) (pend.drop n) := by
  refine ⟨h.ring.kernelTake hn, ?_, (h.ring.kernelTake_taken n).trans h.taken, h.asserts, h.kept⟩
  have hplace := h.place
  have hlen : (pend.drop n).length ≤ pend.length := by
    rw [List.length_drop]
    exact Nat.sub_le _ _
  change AtPhase { s.pool with rq := s.pool.rq.kernelTake n } (hd + n) (pend.drop n) s.phase
  revert hplace
  cases s.phase with
  | idle | enqueue | fill => exact fun hroom => hlen.trans_lt hroom
  | publish ptr size =>
    rintro ⟨hroom, hslot⟩
    refine ⟨hlen.trans_lt hroom, ?_⟩
    rw [List.length_drop, show hd + n + (pend.length - n) = hd + pend.length by omega]
    exact hslot
  | maybeFlush | flush => exact id

theorem flush (h : s.Inv hd pend) (hp : s.phase = .flush) (hs : s.go = some s') :
    s'.Inv (hd + pend.length) [] := by
  unfold go at hs
  simp only [hp] at hs
  obtain rfl := Option.some.inj hs
  have htake := h.kernelTake le_rfl
  rw [List.drop_length] at htake
  have hn := h.ring.nrQueued_eq
  unfold Pool.flushRq
  rw [hn]
  exact ⟨htake.ring, htake.ring.entries_pos, htake.taken, htake.asserts, htake.kept⟩

/-- **Step lemma.** -/
theorem step (h : s.Inv hd pend) {op : RefillOp} (hs : RefillRun.step s op = some s') :
    ∃ hd' pend', s'.Inv hd' pend' := by
  cases op with
  | call ptr size =>
    obtain ⟨hidle, hs⟩ := Option.ite_none_right_eq_some.mp hs
    obtain rfl := Option.some.inj hs
    have hroom := h.place
    rw [hidle] at hroom
    exact ⟨hd, pend, h.ring, hroom, h.taken, h.asserts, h.kept⟩
  | go =>
    change s.go = some s' at hs
    cases hp : s.phase with
    | idle =>
      unfold go at hs
      simp only [hp] at hs
      nomatch hs
    | enqueue ptr size => exact ⟨hd, pend, h.enqueue hp hs⟩
    | fill ptr size => exact ⟨hd, pend, h.fill hp hs⟩
    | publish ptr size => exact ⟨hd, _, h.publish hp hs⟩
    | maybeFlush => exact ⟨hd, pend, h.maybeFlush hp hs⟩
    | flush => exact ⟨_, [], h.flush hp hs⟩
  | kernel n =>
    obtain ⟨hle, hs⟩ := Option.ite_none_left_eq_some.mp hs
    obtain rfl := Option.some.inj hs
    have hdist : (s.pool.rq.ktail + 2 ^ 32 - s.pool.rq.khead) % 2 ^ 32 = pend.length := by
      rw [h.ring.ktail]
      exact h.ring.nrQueued_eq
    rw [hdist] at hle
    exact ⟨_, _, h.kernelTake (Nat.le_of_not_lt hle)⟩

end Inv

/-- A pool whose refill ring is empty, with both counters at `t`. -/
structure Empty (p : Pool) (t : ℕ) : Prop where
  pow : ∃ k < 32, p.rq.ringEntries = 2 ^ k
  khead : p.rq.khead = t % 2 ^ 32
  rqTail : p.rq.rqTail = t % 2 ^ 32
  ktail : p.rq.ktail = t % 2 ^ 32
  taken : p.rq.taken = []
  asserts : p.asserts = true

theorem init_inv {p : Pool} {t : ℕ} (h : Empty p t) : (init p).Inv t [] := by
  have hring : p.rq.Queued t [] :=
    ⟨h.pow, h.khead, h.rqTail, h.ktail.trans h.rqTail.symm, window_nil, Nat.zero_le _⟩
  exact ⟨hring, hring.entries_pos, by rw [List.append_nil]; exact h.taken, h.asserts, rfl⟩

/-- **The refill ring**, from any value `t` of the counters and for any interleaving with the kernel: `rq_enqueue_` finds
fewer than `ring_entries` entries queued, so that its assertion holds; it overwrites no entry that the kernel has not
taken; and what the kernel took and what is queued are the entries that were enqueued, in order. -/
theorem refill_in_order {p : Pool} {t : ℕ} (hp : Empty p t) {ops : List RefillOp} {s : RefillRun}
    (hrun : run step (init p) ops = some s) :
    (∀ ptr size, s.phase = .enqueue ptr size → s.pool.rq.nrQueued < s.pool.rq.ringEntries) ∧
    s.pool.asserts = true ∧ s.overwritten = false ∧ s.pool.rq.taken ++ s.pool.rq.pending = s.enqueued := by
  obtain ⟨hd, pend, h⟩ := run_inv (I := fun s : RefillRun => ∃ hd pend, s.Inv hd pend)
    (fun _ _ _ ⟨_, _, h⟩ hs => h.step hs) ops ⟨t, [], init_inv hp⟩ hrun
  refine ⟨fun ptr size hphase => ?_, h.asserts, h.kept, ?_⟩
  · have hroom := h.place
    rw [hphase] at hroom
    rw [h.ring.nrQueued_eq]
    exact hroom
  · rw [h.ring.pending_eq]
    exact h.taken

/-- Two slots and a tail that wraps: the kernel takes the first entry between the store of the second and the check. -/
theorem refill_in_order_wrap : ∃ s, run step
    (init ⟨4096, 0, false, ⟨fun _ => default, 2 ^ 32 - 1, 2 ^ 32 - 1, 2 ^ 32 - 1, 2, []⟩, true⟩)
    [.call 4096 10, .go, .go, .go, .go, .call 4160 20, .go, .go, .go, .kernel 1, .go, .call 4224 30, .go, .go, .go, .go,
      .go] = some s ∧
    s.pool.rq.rqTail = 2 ∧ s.pool.rq.taken = [⟨0, 10⟩, ⟨64, 20⟩, ⟨128, 30⟩] ∧ s.overwritten = false := by
  have hempty : Empty ⟨4096, 0, false, ⟨fun _ => default, 2 ^ 32 - 1, 2 ^ 32 - 1, 2 ^ 32 - 1, 2, []⟩, true⟩ (2 ^ 32 - 1) :=
    ⟨⟨1, by decide, rfl⟩, rfl, rfl, rfl, rfl, rfl⟩
  have hrun : (run step (init ⟨4096, 0, false, ⟨fun _ => default, 2 ^ 32 - 1, 2 ^ 32 - 1, 2 ^ 32 - 1, 2, []⟩, true⟩)
      [.call 4096 10, .go, .go, .go, .go, .call 4160 20, .go, .go, .go, .kernel 1, .go, .call 4224 30, .go, .go, .go, .go,
        .go]).map (fun s => (s.pool.rq.rqTail, s.pool.rq.taken)) = some (2, [⟨0, 10⟩, ⟨64, 20⟩, ⟨128, 30⟩]) := by
    decide +kernel
  obtain ⟨s, hs, hend⟩ := Option.map_eq_some_iff.mp hrun
  obtain ⟨htail, htaken⟩ := Prod.mk.inj hend
  exact ⟨s, hs, htail, htaken, (refill_in_order hempty hs).2.2.1⟩

end RefillRun

end Condy.Zcrx
