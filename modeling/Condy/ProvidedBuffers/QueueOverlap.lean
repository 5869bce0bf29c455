import Condy.Lib.Tickets
import Condy.ProvidedBuffers.QueueOrder

/-!
# Condy.ProvidedBuffers.QueueOverlap — a queue with several operations in flight

On a `ProvidedBufferQueue` without `IOU_PBUF_RING_INC` the kernel gives each operation the next buffer of the ring.  The
operations complete in any order, and each completion names the id of its buffer.  The pushes are numbered; a push is
unreported until the completion with its buffer is reaped.

`push` takes the id from the tail and looks only at the number of unreported buffers.  That the slot behind the tail is
free is a matter of the program: `Recycled` says that the buffer pushed `capacity()` pushes before was reported.  As long
as every push waits for it, the unreported buffers have different ids and keep their slots (`Distinct`).
-/

namespace Condy.ProvidedBuffers

open Lib

structure OverlapSystem where
  queue : Queue
  /-- For each push the id that it returned and the entry that it left in the ring. -/
  pushed : List (ℕ × IoUringBuf)
  /-- The number of buffers that the kernel took; its 16-bit head of the ring is this number wrapped. -/
  taken : ℕ
  /-- The completions that were not reaped, each with the number of the push whose buffer it used. -/
  inflight : List (ℕ × Cqe)

inductive OverlapOp where
  | push (data len : ℕ)
  /-- The kernel gives the next buffer of the ring to an operation, which completes with `res` bytes. -/
  | take (res : ℕ)
  /-- An operation ends without a buffer. -/
  | fail (res : ℤ)
  /-- The completion at index `i` of those not reaped yet is reaped. -/
  | reap (i : ℕ)
deriving DecidableEq, Repr

namespace OverlapSystem

def init (q : Queue) : OverlapSystem := { queue := q, pushed := [], taken := 0, inflight := [] }

/-- The numbers of the pushes whose buffers are not reported consumed: those in flight and those in the ring. -/
def unreported (s : OverlapSystem) : List ℕ :=
  s.inflight.map Prod.fst ++ List.range' s.taken (s.pushed.length - s.taken)

def push (s : OverlapSystem) (data len : ℕ) : Option OverlapSystem :=
  if len = 0 ∨ 2 ^ 32 ≤ len then none else
  match s.queue.push data len with
  | (.error _, q) => some { s with queue := q }
  | (.ok bid, q) => some { s with queue := q, pushed := s.pushed ++ [(bid, q.br.bufs (s.queue.br.tail &&& q.mask))] }

def take (s : OverlapSystem) (res : ℕ) : Option OverlapSystem :=
  let e := s.queue.br.bufs (s.taken % 2 ^ 16 &&& s.queue.mask)
  if s.queue.br.tail = s.taken % 2 ^ 16 ∨ res = 0 ∨ 2 ^ 31 ≤ res ∨ e.len < res then none else
  some { s with taken := s.taken + 1, inflight := s.inflight ++ [(s.taken, ⟨res, true, e.bid⟩)] }

def step (s : OverlapSystem) : OverlapOp → Option OverlapSystem
  | .push data len => s.push data len
  | .take res => s.take res
  | .fail res => (s.queue.handleFinishOne ⟨res, false, 0⟩).map fun (_, q) => { s with queue := q }
  | .reap i => (s.inflight[i]?).bind fun c => (s.queue.handleFinishOne c.2).map fun (_, q) =>
    { s with queue := q, inflight := s.inflight.eraseIdx i }

/-- At a push that does not throw the buffer pushed `capacity()` pushes before is not unreported. -/
def Recycled (s : OverlapSystem) : OverlapOp → Prop
  | .push _ _ => s.queue.size < s.queue.capacity → ∀ n ∈ s.unreported, n + s.queue.capacity ≠ s.pushed.length
  | _ => True

instance (s : OverlapSystem) : (op : OverlapOp) → Decidable (Recycled s op)
  | .push _ _ => inferInstanceAs (Decidable (_ → ∀ n ∈ s.unreported, n + s.queue.capacity ≠ s.pushed.length))
  | .take _ => .isTrue trivial
  | .fail _ => .isTrue trivial
  | .reap _ => .isTrue trivial

/-! ## Unreported buffers in different slots -/

/-- Push `n` returned `n % cap` and its entry is still in the ring, as is its length in `buf_lens_`. -/
structure Kept (cap : ℕ) (s : OverlapSystem) (n : ℕ) (e : IoUringBuf) : Prop where
  at_push : s.pushed[n]? = some (n % cap, e)
  slot : s.queue.br.bufs (n % cap) = e
  lens : s.queue.bufLens (n % cap) = e.len
  bid : e.bid = n % cap

structure Distinct (cap : ℕ) (s : OverlapSystem) : Prop where
  sized : s.queue.Sized
  capacity : s.queue.capacity = cap
  plain : s.queue.isIncr = false
  asserts : s.queue.asserts = true
  tail : s.queue.br.tail = s.pushed.length % 2 ^ 16
  size : s.queue.size = s.unreported.length
  le : s.taken ≤ s.pushed.length
  nodup : s.unreported.Nodup
  /-- The unreported buffers are among the last `cap` pushed ones. -/
  recent : ∀ n ∈ s.unreported, n < s.pushed.length ∧ s.pushed.length ≤ n + cap
  kept : ∀ n ∈ s.unreported, ∃ e, s.Kept cap n e
  inflight : ∀ x ∈ s.inflight, ∃ e, s.Kept cap x.1 e ∧ x.2.fBuffer = true ∧ 0 < x.2.res ∧ x.2.res < 2 ^ 31 ∧
    x.2.res ≤ e.len ∧ x.2.bid = x.1 % cap

/-- Two numbers less than one turn apart have different slots. -/
theorem mod_ne {cap P n m : ℕ} (hn : n < P) (hn' : P ≤ n + cap) (hm : m < P) (hm' : P ≤ m + cap) (hne : n ≠ m) :
    n % cap ≠ m % cap := by
  intro he
  rcases Nat.le_total n m with hle | hle
  · obtain ⟨d, rfl⟩ := Nat.exists_eq_add_of_le hle
    have := index_inj (by omega) (by omega) (show (n + 0) % cap = (n + d) % cap from he)
    omega
  · obtain ⟨d, rfl⟩ := Nat.exists_eq_add_of_le hle
    have := index_inj (by omega) (by omega) (show (m + d) % cap = (m + 0) % cap from he)
    omega

section Steps

variable {cap : ℕ} {s s' : OverlapSystem}

theorem init_distinct {capacity : ℕ} {q : Queue} (hq : Queue.create capacity false = some q) :
    (init q).Distinct q.capacity := by
  obtain ⟨hs, hsize, htail, ha, hi⟩ := Queue.create_sized hq
  exact ⟨hs, rfl, hi, ha, htail, hsize, le_rfl, List.nodup_nil, fun _ h => (nomatch h), fun _ h => (nomatch h),
    fun _ h => (nomatch h)⟩

/-- A change of the slot of push `m` keeps the buffers in other slots. -/
theorem Kept.of_ne {n m : ℕ} {e : IoUringBuf} (hk : s.Kept cap n e) (hne : n % cap ≠ m % cap)
    (hb : ∀ j, j ≠ m % cap → s'.queue.br.bufs j = s.queue.br.bufs j)
    (hl : ∀ j, j ≠ m % cap → s'.queue.bufLens j = s.queue.bufLens j) (hp : s'.pushed[n]? = s.pushed[n]?) :
    s'.Kept cap n e :=
  ⟨hp.trans hk.at_push, (hb _ hne).trans hk.slot, (hl _ hne).trans hk.lens, hk.bid⟩

theorem mem_unreported {x : ℕ × Cqe} (hx : x ∈ s.inflight) : x.1 ∈ s.unreported :=
  List.mem_append_left _ (List.mem_map_of_mem hx)

theorem push_distinct {data len : ℕ} (h : s.Distinct cap) (hg : Recycled s (.push data len))
    (hs : s.push data len = some s') : s'.Distinct cap := by
  obtain ⟨hlen, hs⟩ := Option.ite_none_left_eq_some.mp hs
  push Not at hlen
  by_cases hfull : s.queue.capacity ≤ s.queue.size
  · rw [Queue.push_full hfull] at hs
    obtain rfl := Option.some.inj hs
    exact h
  · obtain rfl := h.capacity
    rw [Queue.push_eq h.sized h.tail (by omega) hlen.2] at hs
    obtain rfl := Option.some.inj hs
    have hpos := h.sized.capacity_pos
    have hle := h.le
    change Distinct _ { s with
      queue := s.queue.pushed s.pushed.length data len
      pushed := s.pushed ++ [(s.pushed.length % s.queue.capacity,
        (s.queue.pushed s.pushed.length data len).br.bufs (s.queue.br.tail &&& s.queue.mask))] }
    rw [Queue.pushed_entry h.sized h.tail]
    set t : OverlapSystem := { s with
      queue := s.queue.pushed s.pushed.length data len
      pushed := s.pushed ++ [(s.pushed.length % s.queue.capacity, ⟨data, len, s.pushed.length % s.queue.capacity⟩)] }
    have hlast : t.pushed.length = s.pushed.length + 1 := List.length_append
    have hun : t.unreported = s.unreported ++ [s.pushed.length] := by
      change _ ++ List.range' s.taken (t.pushed.length - s.taken) = _
      rw [hlast, Nat.succ_sub hle, List.range'_1_concat, Nat.add_sub_cancel' hle, ← List.append_assoc]
      rfl
    -- an unreported buffer was not pushed one turn before, so that its slot is another one
    have hrecent : ∀ n ∈ s.unreported, n < s.pushed.length ∧ s.pushed.length + 1 ≤ n + s.queue.capacity := by
      intro n hn
      have := h.recent n hn
      have := hg (Nat.lt_of_not_le hfull) n hn
      omega
    have hold : ∀ {n e}, n ∈ s.unreported → s.Kept s.queue.capacity n e → t.Kept s.queue.capacity n e := by
      intro n e hn hk
      obtain ⟨hlt, hwin⟩ := hrecent n hn
      have hne : n % s.queue.capacity ≠ s.pushed.length % s.queue.capacity :=
        mod_ne (P := s.pushed.length + 1) (by omega) hwin (by omega) (by omega) (by omega)
      refine hk.of_ne hne (fun j hj => ?_) (fun j hj => ?_) (List.getElem?_append_left hlt)
      · exact Function.update_of_ne hj ..
      · exact Function.update_of_ne hj ..
    refine ⟨⟨h.sized.pow, h.sized.mask⟩, rfl, h.plain, h.asserts, ?_, ?_, ?_, ?_, ?_, ?_, ?_⟩
    · rw [hlast]
      rfl
    · rw [hun, List.length_append]
      exact congrArg (· + 1) h.size
    · exact (Nat.le_succ_of_le hle).trans_eq hlast.symm
    · rw [hun]
      refine nodup_snoc h.nodup fun hmem => ?_
      have := (h.recent _ hmem).1
      omega
    · rw [hun, hlast]
      refine forall_mem_snoc (fun n hn => ?_) (by omega)
      have := hrecent n hn
      omega
    · rw [hun]
      refine forall_mem_snoc (fun n hn => ?_) ⟨⟨data, len, s.pushed.length % s.queue.capacity⟩,
        List.getElem?_concat_length, Function.update_self .., Function.update_self .., rfl⟩
      obtain ⟨e, hk⟩ := h.kept n hn
      exact ⟨e, hold hn hk⟩
    · intro x hx
      obtain ⟨e, hk, hrest⟩ := h.inflight x hx
      exact ⟨e, hold (mem_unreported hx) hk, hrest⟩

theorem take_distinct {res : ℕ} (h : s.Distinct cap) (hs : s.take res = some s') : s'.Distinct cap := by
  obtain ⟨hg, hs⟩ := Option.ite_none_left_eq_some.mp hs
  obtain rfl := Option.some.inj hs
  push Not at hg
  obtain ⟨htail, hpos, hmax, hfits⟩ := hg
  have hle := h.le
  have hlt : s.taken < s.pushed.length := by
    refine Nat.lt_of_le_of_ne hle fun he => htail ?_
    rw [he]
    exact h.tail
  have hsplit : List.range' s.taken (s.pushed.length - s.taken) =
      s.taken :: List.range' (s.taken + 1) (s.pushed.length - (s.taken + 1)) := by
    rw [show s.pushed.length - s.taken = s.pushed.length - (s.taken + 1) + 1 by omega]
    exact List.range'_succ
  have hmem : s.taken ∈ s.unreported := by
    unfold unreported
    rw [hsplit]
    simp
  obtain ⟨e, hk⟩ := h.kept _ hmem
  have hslot : s.queue.br.bufs (s.taken % 2 ^ 16 &&& s.queue.mask) = e := by
    rw [h.sized.slot_eq, h.capacity]
    exact hk.slot
  rw [hslot] at hfits ⊢
  set t : OverlapSystem := { s with
    taken := s.taken + 1, inflight := s.inflight ++ [(s.taken, ⟨res, true, e.bid⟩)] }
  have hun : t.unreported = s.unreported := by
    change (s.inflight ++ [_]).map _ ++ List.range' (s.taken + 1) (s.pushed.length - (s.taken + 1)) = _
    unfold unreported
    rw [hsplit]
    simp
  have hkept : ∀ {n e}, s.Kept cap n e → t.Kept cap n e := fun hk => ⟨hk.at_push, hk.slot, hk.lens, hk.bid⟩
  refine ⟨h.sized, h.capacity, h.plain, h.asserts, h.tail, hun ▸ h.size, hlt, hun ▸ h.nodup, hun ▸ h.recent, ?_, ?_⟩
  · intro n hn
    obtain ⟨e, hk⟩ := h.kept n (hun ▸ hn)
    exact ⟨e, hkept hk⟩
  · refine forall_mem_snoc (fun x hx => ?_) ⟨e, hkept hk, rfl, by simpa using Nat.pos_of_ne_zero hpos,
      by simpa using hmax, by simpa using hfits, hk.bid⟩
    obtain ⟨e, hk, hrest⟩ := h.inflight x hx
    exact ⟨e, hkept hk, hrest⟩

/-- `handle_finish` on a completion reports its buffer and no other. -/
theorem Distinct.handleFinishOne_eq {x : ℕ × Cqe} (h : s.Distinct cap) (hx : x ∈ s.inflight) :
    s.queue.handleFinishOne x.2 = some (⟨x.2.bid, 1⟩, { s.queue with
      bufLens := Function.update s.queue.bufLens (x.1 % cap) 0, size := s.queue.size - 1 }) := by
  obtain ⟨e, hk, hf, hpos, hmax, hle, hbid⟩ := h.inflight x hx
  obtain rfl := h.capacity
  have hlen := h.size
  have hmem := mem_unreported hx
  -- no more buffers than slots are unreported
  have hbound : s.unreported.length ≤ s.queue.capacity := by
    have hsub : s.unreported ⊆ List.range' (s.pushed.length - s.queue.capacity) s.queue.capacity := by
      intro n hn
      have := h.recent n hn
      rw [List.mem_range'_1]
      omega
    simpa using (List.subperm_of_subset h.nodup hsub).length_le
  have hcap := h.sized.capacity_lt
  have hone := Queue.handleFinish_one h.sized h.plain hf hpos hmax hbid (hk.lens ▸ hle)
    (hlen ▸ List.length_pos_of_mem hmem) (by omega)
  rw [Queue.handleFinishOne, hone, Option.map_some]
  dsimp only
  rw [Queue.check_true (decide_eq_true le_rfl)]

theorem reap_distinct {i : ℕ} (h : s.Distinct cap) (hs : step s (.reap i) = some s') : s'.Distinct cap := by
  obtain ⟨x, hx, hs⟩ := Option.bind_eq_some_iff.mp hs
  obtain ⟨as, bs, hsplit, herase, -⟩ := split_getElem? hx
  rw [h.handleFinishOne_eq (List.mem_of_getElem? hx), herase] at hs
  obtain rfl := Option.some.inj hs
  change Distinct cap { s with
    queue := { s.queue with
      bufLens := Function.update s.queue.bufLens (x.1 % cap) 0, size := s.queue.size - 1 }
    inflight := as ++ bs }
  set t : OverlapSystem := { s with
    queue := { s.queue with
      bufLens := Function.update s.queue.bufLens (x.1 % cap) 0, size := s.queue.size - 1 }
    inflight := as ++ bs }
  have hperm : s.unreported.Perm (x.1 :: t.unreported) := by
    unfold unreported
    rw [hsplit, List.map_append, List.map_cons, List.append_assoc, List.cons_append]
    refine List.perm_middle.trans ?_
    rw [← List.append_assoc, ← List.map_append]
  obtain ⟨hnot, hnodup⟩ := List.nodup_cons.mp (hperm.nodup_iff.mp h.nodup)
  have hsub : ∀ n ∈ t.unreported, n ∈ s.unreported := fun n hn => hperm.mem_iff.mpr (List.mem_cons_of_mem _ hn)
  have hmem : x.1 ∈ s.unreported := hperm.mem_iff.mpr List.mem_cons_self
  have hkept : ∀ {n e}, n ∈ t.unreported → s.Kept cap n e → t.Kept cap n e := by
    intro n e hn hk
    have hne : n ≠ x.1 := fun he => hnot (he ▸ hn)
    obtain ⟨h1, h2⟩ := h.recent n (hsub n hn)
    obtain ⟨h3, h4⟩ := h.recent x.1 hmem
    exact hk.of_ne (mod_ne h1 h2 h3 h4 hne) (fun _ _ => rfl) (fun j hj => Function.update_of_ne hj ..) rfl
  refine ⟨⟨h.sized.pow, h.sized.mask⟩, h.capacity, h.plain, h.asserts, h.tail, ?_, h.le, hnodup,
    fun n hn => h.recent n (hsub n hn), ?_, ?_⟩
  · have := hperm.length_eq
    rw [List.length_cons] at this
    change s.queue.size - 1 = _
    have := h.size
    omega
  · intro n hn
    obtain ⟨e, hk⟩ := h.kept n (hsub n hn)
    exact ⟨e, hkept hn hk⟩
  · intro y hy
    have hy' : y ∈ s.inflight.eraseIdx i := by
      rw [herase]
      exact hy
    obtain ⟨e, hk, hrest⟩ := h.inflight y (List.mem_of_mem_eraseIdx hy')
    exact ⟨e, hkept (mem_unreported hy) hk, hrest⟩

/-- **Step lemma**: a push that waits for the buffer of its slot, like every other step, keeps the slots apart. -/
theorem step_distinct (op : OverlapOp) (h : s.Distinct cap) (hg : Recycled s op) (hs : step s op = some s') :
    s'.Distinct cap := by
  cases op with
  | push data len => exact push_distinct h hg hs
  | take res => exact take_distinct h hs
  | fail res =>
    rw [step, Queue.handleFinishOne_fail, Option.map_some] at hs
    obtain rfl := Option.some.inj hs
    exact h
  | reap i => exact reap_distinct h hs

end Steps

/-- **Slots are not reused early** in every run in which each push waits for the buffer pushed `capacity()` pushes before:
the unreported buffers have different ids, each still has its entry in the ring and its length in `buf_lens_`, and `size()`
counts them.  After such a run the next push returns an id of no unreported buffer exactly if it waits in this way too. -/
theorem ids_not_reused {capacity : ℕ} {q : Queue} (hq : Queue.create capacity false = some q) {ops : List OverlapOp}
    {s : OverlapSystem} (hg : Along step Recycled (init q) ops) (hrun : run step (init q) ops = some s) :
    s.queue.size = s.unreported.length ∧ s.queue.asserts = true ∧
    (s.unreported.map fun n => s.pushed[n]?.map Prod.fst).Nodup ∧
    (∀ n ∈ s.unreported, ∃ id e, s.pushed[n]? = some (id, e) ∧ s.queue.br.bufs id = e ∧ s.queue.bufLens id = e.len) ∧
    ∀ data len id q', s.queue.push data len = (.ok id, q') →
      ((∀ n ∈ s.unreported, s.pushed[n]?.map Prod.fst ≠ some id) ↔ Recycled s (.push data len)) := by
  have h : s.Distinct q.capacity :=
    run_inv_along (I := fun s => s.Distinct q.capacity) (fun s op t hI hg hs => step_distinct op hI hg hs) ops
      (init_distinct hq) hg hrun
  have hid : ∀ n ∈ s.unreported, s.pushed[n]?.map Prod.fst = some (n % q.capacity) := by
    intro n hn
    obtain ⟨e, hk⟩ := h.kept n hn
    rw [hk.at_push]
    rfl
  refine ⟨h.size, h.asserts, ?_, ?_, ?_⟩
  · refine (List.nodup_map_iff_inj_on h.nodup).mpr fun n hn m hm he => ?_
    rw [hid n hn, hid m hm] at he
    by_contra hne
    obtain ⟨h1, h2⟩ := h.recent n hn
    obtain ⟨h3, h4⟩ := h.recent m hm
    exact mod_ne h1 h2 h3 h4 hne (Option.some.inj he)
  · intro n hn
    obtain ⟨e, hk⟩ := h.kept n hn
    exact ⟨n % q.capacity, e, hk.at_push, hk.slot, hk.lens⟩
  · intro data len id q' hpush
    have hcap := h.capacity
    have hroom : s.queue.size < s.queue.capacity := by
      by_contra hfull
      rw [Queue.push_full (Nat.le_of_not_lt hfull)] at hpush
      exact absurd (Prod.mk.inj hpush).1 (by simp)
    obtain ⟨q'', hok⟩ := Queue.push_ok h.sized h.tail hroom data len
    obtain rfl : s.pushed.length % q.capacity = id := by
      rw [hok, hcap] at hpush
      exact Except.ok.inj (Prod.mk.inj hpush).1
    constructor
    · intro hfree _ n hn he
      refine hfree n hn ?_
      rw [hid n hn, ← he, hcap, Nat.add_mod_right]
    · intro hrec n hn he
      rw [hid n hn] at he
      obtain ⟨h1, h2⟩ := h.recent n hn
      have := hrec hroom n hn
      have hpos := h.sized.capacity_pos
      exact mod_ne (P := s.pushed.length + 1) (m := s.pushed.length) (by omega) (by omega) (by omega) (by omega)
        (by omega) (Option.some.inj he)

/-- Two buffers taken and reported the other way round; the third push waits for the first buffer. -/
theorem ids_not_reused_run : ∃ q s, Queue.create 2 false = some q ∧
    run step (init q) [.push 64 4, .push 96 4, .take 4, .take 3, .reap 1, .reap 0, .push 128 4, .push 160 4, .take 2] =
      some s ∧ s.pushed.map Prod.fst = [0, 1, 0, 1] ∧ s.unreported = [2, 3] ∧
      s.queue.size = s.unreported.length := by
  have hrun : ((Queue.create 2 false).bind fun q => (run step (init q) [.push 64 4, .push 96 4, .take 4, .take 3,
      .reap 1, .reap 0, .push 128 4, .push 160 4, .take 2]).map (fun s => (s.pushed.map Prod.fst, s.unreported))) =
      some ([0, 1, 0, 1], [2, 3]) := by decide +kernel
  have hguard : (Queue.create 2 false).all (fun q => decide (Along step Recycled (init q) [.push 64 4, .push 96 4,
      .take 4, .take 3, .reap 1, .reap 0, .push 128 4, .push 160 4, .take 2])) = true := by decide +kernel
  obtain ⟨q, hq, hrun⟩ := Option.bind_eq_some_iff.mp hrun
  obtain ⟨s, hs, hend⟩ := Option.map_eq_some_iff.mp hrun
  obtain ⟨hids, hun⟩ := Prod.mk.inj hend
  rw [hq] at hguard
  exact ⟨q, s, hq, hs, hids, hun, (ids_not_reused hq (of_decide_eq_true hguard) hs).1⟩

/-- Four buffers, of which the second is reported first: the fifth push returns the id of the first buffer, which is in
flight, and overwrites its entry and its length.  The completion of the first buffer then takes the third one with it, and
`size()` is `1` with three buffers unreported. -/
theorem full_queue_reuses_id : ∃ q s t, Queue.create 4 false = some q ∧
    run step (init q) [.push 64 4, .push 96 4, .push 128 4, .push 160 4, .take 4, .take 4, .reap 1, .push 192 1] =
      some s ∧
    0 ∈ s.unreported ∧ s.pushed.map Prod.fst = [0, 1, 2, 3, 0] ∧ s.queue.br.bufs 0 = ⟨192, 1, 0⟩ ∧
    s.queue.bufLens 0 = 1 ∧ step s (.reap 0) = some t ∧ t.unreported = [2, 3, 4] ∧ t.queue.size = 1 := by
  have hrun : ((Queue.create 4 false).bind fun q => (run step (init q) [.push 64 4, .push 96 4, .push 128 4,
      .push 160 4, .take 4, .take 4, .reap 1, .push 192 1]).bind fun s => (step s (.reap 0)).map fun t =>
        ((s.unreported, s.pushed.map Prod.fst, s.queue.br.bufs 0, s.queue.bufLens 0), t.unreported, t.queue.size)) =
      some (([0, 2, 3, 4], [0, 1, 2, 3, 0], ⟨192, 1, 0⟩, 1), [2, 3, 4], 1) := by decide +kernel
  obtain ⟨q, hq, hrun⟩ := Option.bind_eq_some_iff.mp hrun
  obtain ⟨s, hs, hrun⟩ := Option.bind_eq_some_iff.mp hrun
  obtain ⟨t, ht, hend⟩ := Option.map_eq_some_iff.mp hrun
  simp only [Prod.mk.injEq] at hend
  obtain ⟨⟨hun, hids, hbuf, hlen⟩, hun', hsize⟩ := hend
  exact ⟨q, s, t, hq, hs, by rw [hun]; decide, hids, hbuf, hlen, ht, hun', hsize⟩

end OverlapSystem

end Condy.ProvidedBuffers
