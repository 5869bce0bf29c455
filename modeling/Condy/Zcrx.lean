import Condy.Errno
import Condy.Lib.Run
import Condy.Lib.Window
import Condy.ManagedBuffer

/-!
# Condy.Zcrx — the buffer pool for zero-copy receive of `zcrx.hpp`

A completion of a zero-copy receive names a piece of the area by its offset; `handle_finish` wraps it in a
`ZeroCopyRxBuffer`, and dropping that puts an entry into the refill ring, which the kernel empties.  A completion that ends
the receive names no piece.

`Zcrx.System` records for each buffer object the number of the completion that it was made for.  The refill ring holds
what was dropped, in this order and each once; `refill_exact` says when these are the pieces that were received.
-/

namespace Condy.Zcrx

open Lib

/-! ## The refill ring -/

structure Rqe where
  off : ℕ
  len : ℕ
deriving DecidableEq, Repr, Inhabited

/-- `io_uring_zcrx_rq`: the entries, the own tail, and the head and tail shared with the kernel, all 32-bit. -/
structure RefillRing where
  rqes : ℕ → Rqe
  rqTail : ℕ
  khead : ℕ
  ktail : ℕ
  ringEntries : ℕ
  /-- What the kernel took from the ring, in order. -/
  taken : List Rqe

namespace RefillRing

def nrQueued (r : RefillRing) : ℕ := (r.rqTail + 2 ^ 32 - r.khead) % 2 ^ 32

/-- The entries that the kernel has not taken. -/
def pending (r : RefillRing) : List Rqe :=
  (List.range ((r.ktail + 2 ^ 32 - r.khead) % 2 ^ 32)).map fun i =>
    r.rqes ((r.khead + i) % 2 ^ 32 &&& (r.ringEntries - 1))

/-- The kernel takes the next `n` entries. -/
def kernelTake (r : RefillRing) (n : ℕ) : RefillRing :=
  { r with khead := (r.khead + n) % 2 ^ 32, taken := r.taken ++ r.pending.take n }

end RefillRing

/-! ## The pool -/

/-- The part of the completion that `handle_finish` reads: `res` and the offset of the `io_uring_zcrx_cqe`. -/
structure Cqe where
  res : ℤ
  off : ℕ
deriving DecidableEq, Repr

/-- `ManagedBuffer<ZeroCopyRxBufferPool>`; `owns` says that its `pool_` is not null. -/
structure ZeroCopyRxBuffer where
  data : ℕ
  size : ℕ
  owns : Bool
deriving DecidableEq, Repr

/-- `ZeroCopyRxBuffer()`. -/
def ZeroCopyRxBuffer.empty : ZeroCopyRxBuffer := ⟨0, 0, false⟩

/-- `~IORING_ZCRX_AREA_MASK`: the low 48 bits. -/
def areaOffMask : ℕ := 2 ^ 48 - 1

/-- `ZeroCopyRxBufferPool`; `nodev` is `flags_ & ZCRX_REG_NODEV`, and `asserts` stays `true` as long as every assertion
held. -/
structure Pool where
  areaPtr : ℕ
  areaToken : ℕ
  nodev : Bool
  rq : RefillRing
  asserts : Bool

namespace Pool

/-- The constructors.  `none`: `std::bit_ceil` is undefined, or the kernel refuses a ring of more than `2 ^ 15` entries and
the constructor throws. -/
def create (areaPtr areaToken rqEntries : ℕ) (nodev : Bool) : Option Pool :=
  (bitCeil 32 rqEntries).bind fun n =>
    if 2 ^ 15 < n then none else
    some { areaPtr := areaPtr, areaToken := areaToken, nodev := nodev, asserts := true,
           rq := { rqes := fun _ => default, rqTail := 0, khead := 0, ktail := 0, ringEntries := n, taken := [] } }

def handleFinish (p : Pool) (cqe : Cqe) : ZeroCopyRxBuffer :=
  if cqe.res < 0 then .empty else ⟨p.areaPtr + (cqe.off &&& areaOffMask), cqe.res.toNat, true⟩

def rqEnqueue (p : Pool) (ptr size : ℕ) : Pool :=
  let rqe := ⟨(ptr - p.areaPtr) ||| p.areaToken, size % 2 ^ 32⟩
  { p with
    asserts := p.asserts && decide (p.rq.nrQueued < p.rq.ringEntries)
    rq := { p.rq with
      rqes := Function.update p.rq.rqes (p.rq.rqTail &&& (p.rq.ringEntries - 1)) rqe
      rqTail := (p.rq.rqTail + 1) % 2 ^ 32
      ktail := (p.rq.rqTail + 1) % 2 ^ 32 } }

/-- `flush_rq_`: the kernel takes all that is queued. -/
def flushRq (p : Pool) : Pool := { p with rq := p.rq.kernelTake p.rq.nrQueued }

def maybeFlushRq (p : Pool) : Pool :=
  if p.rq.ringEntries ≤ p.rq.nrQueued ∨ p.nodev = true then p.flushRq else p

def addBufferBack (p : Pool) (ptr size : ℕ) : Pool := (p.rqEnqueue ptr size).maybeFlushRq

/-- `ManagedBuffer::reset`, also run by the destructor. -/
def reset (p : Pool) (b : ZeroCopyRxBuffer) : Pool := if b.owns then p.addBufferBack b.data b.size else p

end Pool

/-! ## The completions and the holders of buffers -/

/-- A buffer object, and the number of the completion that its buffer was made for. -/
structure Held where
  buf : ZeroCopyRxBuffer
  cqe : Option ℕ
deriving DecidableEq, Repr

def Held.empty : Held := ⟨.empty, none⟩

structure System where
  pool : Pool
  /-- The handled completions. -/
  cqes : List Cqe
  /-- The buffer objects that are alive. -/
  objs : List Held
  /-- The numbers of the completions whose buffers were dropped, in this order. -/
  dropped : List ℕ

inductive Op where
  /-- A completion is passed to `handle_finish`; if it ends the receive, its offset is zero. -/
  | cqe (res : ℤ) (off : ℕ)
  /-- The kernel takes entries from the refill ring. -/
  | refill (n : ℕ)
  /-- The program moves, resets or destroys buffers. -/
  | buffer (op : ManagedBuffer.Op)
deriving DecidableEq, Repr

namespace System

def init (p : Pool) : System := { pool := p, cqes := [], objs := [], dropped := [] }

/-- The value whose `reset()` ran goes back to the pool. -/
def giveBack (s : System) : Option Held → System
  | none => s
  | some h => { s with pool := s.pool.reset h.buf, dropped := s.dropped ++ h.cqe.toList }

def step (s : System) : Op → Option System
  | .cqe res off =>
    if 2 ^ 31 ≤ res ∨ 2 ^ 64 ≤ off ∨ (res ≤ 0 ∧ off ≠ 0) then none else
    some { s with
      cqes := s.cqes ++ [⟨res, off⟩]
      objs := s.objs ++ [⟨s.pool.handleFinish ⟨res, off⟩, some s.cqes.length⟩] }
  | .refill n => if s.pool.rq.nrQueued < n then none else some { s with pool := { s.pool with rq := s.pool.rq.kernelTake n } }
  | .buffer op => (ManagedBuffer.step Held.empty s.objs op).map fun (objs, given) => ({ s with objs := objs }).giveBack given

/-- What the refill ring received: what the kernel took and what is still in the ring. -/
def refilled (s : System) : List Rqe := s.pool.rq.taken ++ s.pool.rq.pending

/-- The entry that is due for a completion: the offset in the area with the token, and the length; none for a completion
that ends the receive. -/
def dataEntry (s : System) (n : ℕ) : Option Rqe :=
  (s.cqes[n]?).bind fun c => if 0 < c.res then some ⟨(c.off % 2 ^ 48) ||| s.pool.areaToken, c.res.toNat⟩ else none

end System

/-! ## The entries in the ring -/

/-- The entries of `pend` stand in the ring from position `hd` of an unbounded count on; the number of slots is any power
of two of the counters' type. -/
structure RefillRing.Queued (r : RefillRing) (hd : ℕ) (pend : List Rqe) : Prop where
  pow : ∃ k < 32, r.ringEntries = 2 ^ k
  khead : r.khead = hd % 2 ^ 32
  rqTail : r.rqTail = (hd + pend.length) % 2 ^ 32
  ktail : r.ktail = r.rqTail
  win : Window r.rqes r.ringEntries hd pend
  len : pend.length ≤ r.ringEntries

namespace RefillRing.Queued

variable {r : RefillRing} {hd : ℕ} {pend : List Rqe}

theorem slot_eq (h : r.Queued hd pend) (i : ℕ) : (i % 2 ^ 32) &&& (r.ringEntries - 1) = i % r.ringEntries := by
  obtain ⟨k, hk, hn⟩ := h.pow
  exact masked_slot ⟨k, hk.le, hn⟩ rfl i

theorem entries_pos (h : r.Queued hd pend) : 0 < r.ringEntries := by
  obtain ⟨k, -, hn⟩ := h.pow
  exact hn ▸ Nat.two_pow_pos k

theorem len_lt (h : r.Queued hd pend) : pend.length < 2 ^ 32 := by
  obtain ⟨k, hk, hn⟩ := h.pow
  have hpow : 2 ^ k < 2 ^ 32 := Nat.pow_lt_pow_right (by decide) hk
  exact h.len.trans_lt (hn ▸ hpow)

theorem nrQueued_eq (h : r.Queued hd pend) : r.nrQueued = pend.length := by
  unfold nrQueued
  rw [h.rqTail, h.khead]
  exact wrap_sub h.len_lt

theorem pending_eq (h : r.Queued hd pend) : r.pending = pend := by
  have hn := h.nrQueued_eq
  unfold nrQueued at hn
  unfold pending
  rw [h.ktail, hn]
  refine List.ext_getElem (by simp) fun i hi hi' => ?_
  rw [List.getElem_map, List.getElem_range, h.khead, Nat.mod_add_mod, h.slot_eq]
  exact h.win i hi'

theorem kernelTake (h : r.Queued hd pend) {n : ℕ} (hn : n ≤ pend.length) :
    (r.kernelTake n).Queued (hd + n) (pend.drop n) := by
  refine ⟨h.pow, ?_, ?_, h.ktail, h.win.drop n, ?_⟩
  · change (r.khead + n) % 2 ^ 32 = _
    rw [h.khead, Nat.mod_add_mod]
  · rw [List.length_drop, show hd + n + (pend.length - n) = hd + pend.length by omega]
    exact h.rqTail
  · rw [List.length_drop]
    exact (Nat.sub_le _ _).trans h.len

/-- What the kernel took, with what it has not taken yet, stays the same. -/
theorem kernelTake_taken (h : r.Queued hd pend) (n : ℕ) : (r.kernelTake n).taken ++ pend.drop n = r.taken ++ pend := by
  change r.taken ++ r.pending.take n ++ _ = _
  rw [h.pending_eq, List.append_assoc, List.take_append_drop]

/-- The kernel takes entries: together with those in the ring they stay the same. -/
theorem kernelTake_all (h : r.Queued hd pend) {n : ℕ} (hn : n ≤ pend.length) :
    (r.kernelTake n).taken ++ (r.kernelTake n).pending = r.taken ++ pend := by
  rw [(h.kernelTake hn).pending_eq]
  exact h.kernelTake_taken n

end RefillRing.Queued

/-- The ring has room for an entry, and every assertion held. -/
structure Pool.Ready (p : Pool) : Prop where
  ring : ∃ hd pend, p.rq.Queued hd pend ∧ pend.length < p.rq.ringEntries
  asserts : p.asserts = true

namespace Pool.Ready

variable {p : Pool}

theorem kernelTake (h : p.Ready) {n : ℕ} (hn : n ≤ p.rq.nrQueued) :
    ({ p with rq := p.rq.kernelTake n } : Pool).Ready ∧
      (p.rq.kernelTake n).taken ++ (p.rq.kernelTake n).pending = p.rq.taken ++ p.rq.pending := by
  obtain ⟨hd, pend, hr, hlt⟩ := h.ring
  rw [hr.nrQueued_eq] at hn
  refine ⟨⟨⟨hd + n, pend.drop n, hr.kernelTake hn, ?_⟩, h.asserts⟩, ?_⟩
  · rw [List.length_drop]
    exact (Nat.sub_le _ _).trans_lt hlt
  · rw [hr.pending_eq]
    exact hr.kernelTake_all hn

/-- `rq_enqueue_` on a ring with room. -/
theorem rqEnqueue (h : p.Ready) (ptr size : ℕ) : ∃ hd pend, (p.rqEnqueue ptr size).rq.Queued hd pend ∧
    (p.rqEnqueue ptr size).asserts = true ∧
    p.rq.taken ++ pend = p.rq.taken ++ p.rq.pending ++ [⟨(ptr - p.areaPtr) ||| p.areaToken, size % 2 ^ 32⟩] := by
  obtain ⟨hd, pend, hr, hlt⟩ := h.ring
  have htail : (p.rq.rqTail + 1) % 2 ^ 32 = (hd + (pend.length + 1)) % 2 ^ 32 := by
    rw [hr.rqTail]
    exact wrap_add_one
  refine ⟨hd, pend ++ [⟨(ptr - p.areaPtr) ||| p.areaToken, size % 2 ^ 32⟩],
    ⟨hr.pow, hr.khead, ?_, rfl, ?_, ?_⟩, ?_, ?_⟩
  · rw [List.length_append]
    exact htail
  · change Window (Function.update p.rq.rqes (p.rq.rqTail &&& (p.rq.ringEntries - 1)) _) p.rq.ringEntries hd _
    rw [hr.rqTail, hr.slot_eq]
    exact hr.win.push hlt
  · rw [List.length_append]
    exact hlt
  · change (p.asserts && decide (p.rq.nrQueued < p.rq.ringEntries)) = true
    rw [h.asserts, hr.nrQueued_eq, decide_eq_true hlt]
    rfl
  · rw [hr.pending_eq, List.append_assoc]

/-- **`add_buffer_back`** puts one entry into the ring; when the ring is full, the kernel takes them all. -/
theorem addBufferBack (h : p.Ready) (ptr size : ℕ) :
    (p.addBufferBack ptr size).Ready ∧
      (p.addBufferBack ptr size).rq.taken ++ (p.addBufferBack ptr size).rq.pending =
        p.rq.taken ++ p.rq.pending ++ [⟨(ptr - p.areaPtr) ||| p.areaToken, size % 2 ^ 32⟩] ∧
      (p.addBufferBack ptr size).areaPtr = p.areaPtr ∧ (p.addBufferBack ptr size).areaToken = p.areaToken := by
  obtain ⟨hd, pend, hr, ha, hall⟩ := h.rqEnqueue ptr size
  rw [← hall]
  unfold Pool.addBufferBack maybeFlushRq
  by_cases hfull : (p.rqEnqueue ptr size).rq.ringEntries ≤ (p.rqEnqueue ptr size).rq.nrQueued ∨
      (p.rqEnqueue ptr size).nodev = true
  · rw [if_pos hfull]
    have hn := hr.nrQueued_eq
    have hempty : pend.drop (p.rqEnqueue ptr size).rq.nrQueued = [] := List.drop_eq_nil_of_le hn.ge
    have htake := hr.kernelTake hn.le
    rw [hempty] at htake
    exact ⟨⟨⟨_, [], htake, htake.entries_pos⟩, ha⟩, hr.kernelTake_all hn.le, rfl, rfl⟩
  · rw [if_neg hfull]
    refine ⟨⟨⟨hd, pend, hr, ?_⟩, ha⟩, ?_, rfl, rfl⟩
    · rw [← hr.nrQueued_eq]
      exact Nat.lt_of_not_le fun hle => hfull (.inl hle)
    · rw [hr.pending_eq]
      rfl

end Pool.Ready

/-! ## What was dropped -/

namespace System

/-- The entry of a completion for which `handle_finish` returned an owner. -/
def ownEntry (s : System) (n : ℕ) : Option Rqe :=
  (s.cqes[n]?).bind fun c => if 0 ≤ c.res then some ⟨(c.off % 2 ^ 48) ||| s.pool.areaToken, c.res.toNat⟩ else none

structure Inv (s : System) : Prop where
  ready : s.pool.Ready
  /-- The buffer of each completion was dropped or is held by one object. -/
  places : (s.dropped ++ s.objs.filterMap Held.cqe).Perm (List.range s.cqes.length)
  held : ∀ h ∈ s.objs, ∀ n, h.cqe = some n → ∃ c, s.cqes[n]? = some c ∧ h.buf = s.pool.handleFinish c
  moved : ∀ h ∈ s.objs, h.cqe = none → h.buf = .empty
  bound : ∀ c ∈ s.cqes, c.res < 2 ^ 31
  log : s.refilled = s.dropped.filterMap s.ownEntry

section Steps

variable {s s' : System}

theorem init_inv {areaPtr areaToken rqEntries : ℕ} {nodev : Bool} {p : Pool}
    (hp : Pool.create areaPtr areaToken rqEntries nodev = some p) : (init p).Inv := by
  obtain ⟨n, hn, hp⟩ := Option.bind_eq_some_iff.mp hp
  obtain ⟨k, -, rfl, -⟩ := bitCeil_pow hn
  obtain ⟨hlt, hp⟩ := Option.ite_none_left_eq_some.mp hp
  obtain rfl := Option.some.inj hp
  have hk : k ≤ 15 := (Nat.pow_le_pow_iff_right (by decide)).mp (Nat.le_of_not_lt hlt)
  have hqueued : RefillRing.Queued ⟨fun _ => default, 0, 0, 0, 2 ^ k, []⟩ 0 [] :=
    ⟨⟨k, by omega, rfl⟩, rfl, rfl, rfl, window_nil, Nat.zero_le _⟩
  refine ⟨⟨⟨0, [], hqueued, Nat.two_pow_pos k⟩, rfl⟩, List.Perm.refl _, fun _ hh => (nomatch hh), fun _ hh => (nomatch hh),
    fun _ hc => (nomatch hc), ?_⟩
  change [] ++ RefillRing.pending ⟨fun _ => default, 0, 0, 0, 2 ^ k, []⟩ = []
  rw [hqueued.pending_eq]
  rfl

theorem Inv.mem_lt (h : s.Inv) {n : ℕ} (hn : n ∈ s.dropped) : n < s.cqes.length :=
  List.mem_range.mp (h.places.subset (List.mem_append_left _ hn))

theorem cqe_inv {res : ℤ} {off : ℕ} (h : s.Inv) (hs : step s (.cqe res off) = some s') : s'.Inv := by
  obtain ⟨hg, hs⟩ := Option.ite_none_left_eq_some.mp hs
  obtain rfl := Option.some.inj hs
  push Not at hg
  have hold : ∀ (n : ℕ) (c : Cqe), s.cqes[n]? = some c → (s.cqes ++ [⟨res, off⟩])[n]? = some c := by
    intro n c hc
    rw [List.getElem?_append_left (List.getElem?_eq_some_iff.mp hc).1]
    exact hc
  refine ⟨h.ready, ?_, ?_, ?_, ?_, ?_⟩
  · change (s.dropped ++ (s.objs ++ [_]).filterMap _).Perm _
    rw [List.filterMap_append, ← List.append_assoc, List.length_append, List.length_singleton, List.range_succ]
    exact h.places.append_right _
  · refine forall_mem_snoc (fun x hx n hn => ?_) fun n hn => ?_
    · obtain ⟨c, hc, hbuf⟩ := h.held x hx n hn
      exact ⟨c, hold n c hc, hbuf⟩
    · obtain rfl := Option.some.inj hn
      exact ⟨⟨res, off⟩, List.getElem?_concat_length, rfl⟩
  · exact forall_mem_snoc h.moved fun hn => (nomatch hn)
  · exact forall_mem_snoc h.bound hg.1
  · refine h.log.trans (List.filterMap_congr fun n hn => ?_)
    unfold ownEntry
    rw [List.getElem?_append_left (h.mem_lt hn)]

theorem refill_inv {n : ℕ} (h : s.Inv) (hs : step s (.refill n) = some s') : s'.Inv := by
  obtain ⟨hn, hs⟩ := Option.ite_none_left_eq_some.mp hs
  obtain rfl := Option.some.inj hs
  obtain ⟨hready, hall⟩ := h.ready.kernelTake (Nat.le_of_not_lt hn)
  exact ⟨hready, h.places, h.held, h.moved, h.bound, hall.trans h.log⟩

/-- The entry of a buffer that is given back. -/
theorem Inv.reset (h : s.Inv) {x : Held} (hx : x ∈ s.objs) : (s.pool.reset x.buf).Ready ∧
    (s.pool.reset x.buf).rq.taken ++ (s.pool.reset x.buf).rq.pending =
      s.refilled ++ x.cqe.toList.filterMap s.ownEntry ∧
    (s.pool.reset x.buf).areaPtr = s.pool.areaPtr ∧ (s.pool.reset x.buf).areaToken = s.pool.areaToken := by
  unfold Pool.reset
  cases hc : x.cqe with
  | none =>
    rw [h.moved x hx hc, if_neg (by simp [ZeroCopyRxBuffer.empty]), Option.toList_none, List.filterMap_nil,
      List.append_nil]
    exact ⟨h.ready, rfl, rfl, rfl⟩
  | some n =>
    obtain ⟨c, hcqe, hbuf⟩ := h.held x hx n hc
    have hbound := h.bound c (List.mem_of_getElem? hcqe)
    have hown : [n].filterMap s.ownEntry = (s.ownEntry n).toList := by
      rw [List.filterMap_cons]
      cases s.ownEntry n <;> rfl
    rw [hbuf, Option.toList_some, hown]
    unfold Pool.handleFinish ownEntry
    rw [hcqe, Option.bind_some]
    by_cases hneg : c.res < 0
    · rw [if_pos hneg, if_neg (by simp [ZeroCopyRxBuffer.empty]), if_neg (by omega), Option.toList_none, List.append_nil]
      exact ⟨h.ready, rfl, rfl, rfl⟩
    · rw [if_neg hneg, if_pos rfl, if_pos (by omega), Option.toList_some]
      have hback := h.ready.addBufferBack (s.pool.areaPtr + (c.off &&& areaOffMask)) c.res.toNat
      rw [Nat.add_sub_cancel_left, areaOffMask, Nat.and_two_pow_sub_one_eq_mod,
        Nat.mod_eq_of_lt (by omega : c.res.toNat < 2 ^ 32)] at hback
      rw [areaOffMask, Nat.and_two_pow_sub_one_eq_mod]
      exact hback

/-- The objects that hold the buffer of a completion. -/
theorem filterMap_cqe (l : List Held) : (l.filter fun x => x.cqe.isSome).filterMap Held.cqe = l.filterMap Held.cqe := by
  rw [List.filterMap_filter]
  refine List.filterMap_congr fun x _ => ?_
  cases x.cqe <;> rfl

theorem buffer_inv {op : ManagedBuffer.Op} (h : s.Inv) (hs : step s (.buffer op) = some s') : s'.Inv := by
  obtain ⟨⟨objs, given⟩, hstep, rfl⟩ := Option.map_eq_some_iff.mp hs
  have hown := (ManagedBuffer.step_owned (fun x : Held => x.cqe.isSome) rfl op hstep).filterMap Held.cqe
  rw [List.filterMap_append, filterMap_cqe, filterMap_cqe, filterMap_cqe] at hown
  obtain ⟨hmem, hgiven⟩ := ManagedBuffer.step_mem op hstep
  have hheld : ∀ x ∈ objs, ∀ n, x.cqe = some n → ∃ c, s.cqes[n]? = some c ∧ x.buf = s.pool.handleFinish c := by
    intro x hx n hn
    rcases hmem x hx with hx | rfl
    · exact h.held x hx n hn
    · nomatch hn
  have hmoved : ∀ x ∈ objs, x.cqe = none → x.buf = .empty := by
    intro x hx hn
    rcases hmem x hx with hx | rfl
    · exact h.moved x hx hn
    · rfl
  have hplaces := (hown.append_left s.dropped).symm.trans h.places
  cases given with
  | none =>
    rw [Option.toList_none, List.filterMap_nil, List.append_nil] at hplaces
    exact ⟨h.ready, hplaces, hheld, hmoved, h.bound, h.log⟩
  | some x =>
    obtain ⟨hready, hall, hptr, htoken⟩ := h.reset (hgiven x rfl)
    have hlist : (some x).toList.filterMap Held.cqe = x.cqe.toList := by
      rw [Option.toList_some, List.filterMap_cons]
      cases x.cqe <;> rfl
    have hentry : ({ s with
        objs := objs
        pool := s.pool.reset x.buf
        dropped := s.dropped ++ x.cqe.toList } : System).ownEntry = s.ownEntry := by
      funext n
      unfold ownEntry
      rw [htoken]
    have hfinish : ∀ c, (s.pool.reset x.buf).handleFinish c = s.pool.handleFinish c := by
      intro c
      unfold Pool.handleFinish
      rw [hptr]
    refine ⟨hready, ?_, ?_, hmoved, h.bound, ?_⟩
    · rw [hlist] at hplaces
      refine List.Perm.trans ?_ hplaces
      change (s.dropped ++ x.cqe.toList ++ objs.filterMap _).Perm _
      rw [List.append_assoc]
      exact List.Perm.append_left _ List.perm_append_comm
    · intro y hy n hn
      obtain ⟨c, hc, hbuf⟩ := hheld y hy n hn
      exact ⟨c, hc, hbuf.trans (hfinish c).symm⟩
    · refine Eq.trans ?_ (congrArg (fun f => (s.dropped ++ x.cqe.toList).filterMap f) hentry.symm)
      rw [List.filterMap_append, ← h.log]
      exact hall

/-- **Step lemma**: the refill ring received what was dropped. -/
theorem step_inv (op : Op) (h : s.Inv) (hs : step s op = some s') : s'.Inv := by
  cases op with
  | cqe res off => exact cqe_inv h hs
  | refill n => exact refill_inv h hs
  | buffer op => exact buffer_inv h hs

/-- The entries due for data are those with bytes. -/
theorem filter_ownEntry (s : System) (l : List ℕ) :
    (l.filterMap s.ownEntry).filter (fun e => decide (0 < e.len)) = l.filterMap s.dataEntry := by
  rw [List.filter_filterMap]
  refine List.filterMap_congr fun n _ => ?_
  unfold ownEntry dataEntry
  cases s.cqes[n]? with
  | none => rfl
  | some c =>
    rw [Option.bind_some, Option.bind_some]
    by_cases hneg : c.res < 0
    · rw [if_neg (by omega), if_neg (by omega)]
      rfl
    · rw [if_pos (by omega)]
      by_cases hpos : 0 < c.res
      · rw [if_pos hpos]
        simp [Option.filter, hpos]
      · rw [if_neg hpos]
        simp [Option.filter, hpos]

end Steps

/-- **What comes back**, for every run and every order of moving, resetting and destroying buffers: the buffer of each
completion was dropped once or is held by one object, and every assertion held.  The refill ring received one entry for each
dropped buffer of a data completion, in the order of the drops, and no other, exactly if no buffer returned for a
completion with `res == 0` was dropped. -/
theorem refill_exact {areaPtr areaToken rqEntries : ℕ} {nodev : Bool} {p : Pool}
    (hp : Pool.create areaPtr areaToken rqEntries nodev = some p) {ops : List Op} {s : System}
    (hrun : run step (init p) ops = some s) :
    (s.dropped ++ s.objs.filterMap Held.cqe).Perm (List.range s.cqes.length) ∧ s.pool.asserts = true ∧
    (s.refilled = s.dropped.filterMap s.dataEntry ↔ ∀ n ∈ s.dropped, ∀ c, s.cqes[n]? = some c → c.res ≠ 0) := by
  have h : s.Inv := run_inv (fun _ op _ hI hs => step_inv op hI hs) ops (init_inv hp) hrun
  refine ⟨h.places, h.ready.asserts, ?_⟩
  rw [h.log, ← filter_ownEntry, eq_comm, List.filter_eq_self]
  constructor
  · intro hall n hn c hc hzero
    have hmem : (⟨(c.off % 2 ^ 48) ||| s.pool.areaToken, 0⟩ : Rqe) ∈ s.dropped.filterMap s.ownEntry := by
      refine List.mem_filterMap.mpr ⟨n, hn, ?_⟩
      simp [ownEntry, hc, hzero]
    exact absurd (hall _ hmem) (by simp)
  · intro hall e he
    obtain ⟨n, hn, hown⟩ := List.mem_filterMap.mp he
    obtain ⟨c, hc, hif⟩ := Option.bind_eq_some_iff.mp hown
    obtain ⟨hge, hif⟩ := Option.ite_none_right_eq_some.mp hif
    obtain rfl := Option.some.inj hif
    have := hall n hn c hc
    simp only [decide_eq_true_eq]
    omega

/-- Two buffers, one of them moved, and a receive that ends with an error. -/
theorem refill_exact_run : ∃ p s, Pool.create 4096 (2 ^ 48) 2 false = some p ∧
    run step (init p) [.cqe 100 64, .cqe 50 192, .buffer (.moveConstruct 0), .cqe (-32) 0, .buffer (.destroy 2), .refill 1,
      .buffer (.reset 1), .buffer (.destroy 2)] = some s ∧
    s.dropped = [0, 1, 2] ∧ s.refilled = [⟨2 ^ 48 + 64, 100⟩, ⟨2 ^ 48 + 192, 50⟩] ∧
    s.refilled = s.dropped.filterMap s.dataEntry := by
  have hrun : ((Pool.create 4096 (2 ^ 48) 2 false).bind fun p => (run step (init p) [.cqe 100 64, .cqe 50 192,
      .buffer (.moveConstruct 0), .cqe (-32) 0, .buffer (.destroy 2), .refill 1, .buffer (.reset 1),
      .buffer (.destroy 2)]).map fun s => (s.dropped, s.refilled, s.cqes)) =
      some ([0, 1, 2], [⟨2 ^ 48 + 64, 100⟩, ⟨2 ^ 48 + 192, 50⟩], [⟨100, 64⟩, ⟨50, 192⟩, ⟨-32, 0⟩]) := by decide +kernel
  obtain ⟨p, hp, hrun⟩ := Option.bind_eq_some_iff.mp hrun
  obtain ⟨s, hs, hend⟩ := Option.map_eq_some_iff.mp hrun
  simp only [Prod.mk.injEq] at hend
  obtain ⟨hdropped, hrefilled, hcqes⟩ := hend
  refine ⟨p, s, hp, hs, hdropped, hrefilled, (refill_exact hp hs).2.2.mpr ?_⟩
  intro n _ c hc
  have hmem := List.mem_of_getElem? hc
  rw [hcqes] at hmem
  exact (by decide : ∀ c ∈ [(⟨100, 64⟩ : Cqe), ⟨50, 192⟩, ⟨-32, 0⟩], c.res ≠ 0) c hmem

/-- The receive ends with `res == 0`, and the buffer returned for it is dropped: the refill ring gets an entry with offset
zero, the piece that the first buffer still holds. -/
theorem zero_res_refills : ∃ p s, Pool.create 4096 (2 ^ 48) 2 false = some p ∧
    run step (init p) [.cqe 100 0, .cqe 0 0, .buffer (.destroy 1)] = some s ∧
    s.objs = [⟨⟨4096, 100, true⟩, some 0⟩] ∧ s.dropped = [1] ∧ s.dropped.filterMap s.dataEntry = [] ∧
    s.refilled = [⟨2 ^ 48, 0⟩] := by
  have hrun : ((Pool.create 4096 (2 ^ 48) 2 false).bind fun p => (run step (init p) [.cqe 100 0, .cqe 0 0,
      .buffer (.destroy 1)]).map fun s => ((s.objs, s.dropped), s.dropped.filterMap s.dataEntry, s.refilled)) =
      some (([⟨⟨4096, 100, true⟩, some 0⟩], [1]), [], [⟨2 ^ 48, 0⟩]) := by decide +kernel
  obtain ⟨p, hp, hrun⟩ := Option.bind_eq_some_iff.mp hrun
  obtain ⟨s, hs, hend⟩ := Option.map_eq_some_iff.mp hrun
  simp only [Prod.mk.injEq] at hend
  obtain ⟨⟨hobjs, hdropped⟩, hdata, hrefilled⟩ := hend
  exact ⟨p, s, hp, hs, hobjs, hdropped, hdata, hrefilled⟩

end System

end Condy.Zcrx
