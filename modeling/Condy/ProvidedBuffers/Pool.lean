import Condy.Errno
import Condy.Lib.Run
import Mathlib.Logic.Function.Basic

/-!
# Condy.ProvidedBuffers.Pool — the provided buffer pool of `provided_buffers.hpp`

A pool owns `num_buffers_` buffers of `buffer_size_` bytes in one block and offers them to the kernel through an
`io_uring_buf_ring`.  The kernel takes entries at its own head; `handle_finish` finds out which buffers a completion
used with the private counter `br_head_`; a dropped `ProvidedBuffer` goes back through `add_buffer_back`.

`Holding` is a pool with the buffers that the program holds; `System` puts it together with the kernel side of the ring.
-/

namespace Condy

open Lib

namespace ProvidedBuffers

/-! ## The shared ring -/

structure IoUringBuf where
  addr : ℕ
  len : ℕ
  bid : ℕ
deriving DecidableEq, Repr, Inhabited

/-- `io_uring_buf_ring`: the entries and the 16-bit tail. -/
structure BufRing where
  bufs : ℕ → IoUringBuf
  tail : ℕ

/-- `io_uring_buf_ring_add`: fill the entry `off` positions after the tail. -/
def BufRing.add (br : BufRing) (addr len bid mask off : ℕ) : BufRing :=
  { br with bufs := Function.update br.bufs ((br.tail + off) &&& mask) ⟨addr, len % 2 ^ 32, bid % 2 ^ 16⟩ }

def BufRing.advance (br : BufRing) (count : ℕ) : BufRing := { br with tail := (br.tail + count) % 2 ^ 16 }

/-- The part of an `io_uring_cqe` that `handle_finish` is given: `res`, the flag `IORING_CQE_F_BUFFER` and the buffer
id of `flags >> IORING_CQE_BUFFER_SHIFT`. -/
structure Cqe where
  res : ℤ
  fBuffer : Bool
  bid : ℕ
deriving DecidableEq, Repr

/-- A `ProvidedBuffer`; `owns` says that its `pool_` is not null. -/
structure ProvidedBuffer where
  data : ℕ
  size : ℕ
  owns : Bool
deriving DecidableEq, Repr

/-- `ProvidedBuffer()`. -/
def ProvidedBuffer.empty : ProvidedBuffer := ⟨0, 0, false⟩

/-! ## The pool -/

/-- `BundledProvidedBufferPool`; `isIncr` is `br_flags_ & IOU_PBUF_RING_INC`, and `asserts` stays `true` as long as
every assertion held. -/
structure Pool where
  buffersBase : ℕ
  numBuffers : ℕ
  mask : ℕ
  bufferSize : ℕ
  currBufLen : ℕ
  brHead : ℕ
  isIncr : Bool
  br : BufRing
  asserts : Bool

namespace Pool

def check (p : Pool) (c : Bool) : Pool := { p with asserts := p.asserts && c }

def getBuffer (p : Pool) (bid : ℕ) : ℕ := p.buffersBase + bid * p.bufferSize

def currIoUringBuf (p : Pool) : IoUringBuf := p.br.bufs (p.brHead &&& p.mask)

def advanceIoUringBuf (p : Pool) : Pool := { p with brHead := (p.brHead + 1) % 2 ^ 16 }

/-- The constructor's loop: buffer `bid` goes to offset `bid`. -/
def offer (base size mask : ℕ) (br : BufRing) (bids : List ℕ) : BufRing :=
  bids.foldl (fun br bid => br.add (base + bid * size) size bid mask bid) br

/-- The constructor.  `none`: `std::bit_ceil` is undefined, or the kernel refuses a ring of `2 ^ 16` or more entries
and the constructor throws. -/
def create (base numBuffers bufferSize : ℕ) (isIncr : Bool) : Option Pool :=
  (bitCeil 32 numBuffers).bind fun num =>
    if 2 ^ 16 ≤ num then none else
    let size := bufferSize % 2 ^ 32
    some { buffersBase := base, numBuffers := num, mask := num - 1, bufferSize := size, currBufLen := size,
           brHead := 0, isIncr := isIncr, asserts := true,
           br := (offer base size (num - 1) ⟨fun _ => default, 0⟩ (List.range num)).advance num }

/-- One turn of the loop of `handle_finish` with `bytes` left: the buffer it emplaces and the bytes it accounts for. -/
def slice (p : Pool) (bytes : ℤ) : ProvidedBuffer × Pool :=
  let bid := p.currIoUringBuf.bid
  let data := p.getBuffer bid + (p.bufferSize - p.currBufLen)
  let bufLen := if p.isIncr then min (bytes.toNat % 2 ^ 32) p.currBufLen else p.currBufLen
  let curr := if p.isIncr then p.currBufLen - bufLen else 0
  if curr = 0 then
    (⟨data, bufLen, true⟩, { p.advanceIoUringBuf with currBufLen := p.bufferSize })
  else
    (⟨data, bufLen, false⟩, { p with currBufLen := curr })

/-- The loop `while (bytes > 0)`.  `none`: still running after `fuel` turns. -/
def slices : ℕ → Pool → ℤ → Option (List ProvidedBuffer × Pool)
  | fuel, p, bytes =>
    if bytes ≤ 0 then some ([], p) else
    match fuel with
    | 0 => none
    | fuel + 1 =>
      let (b, p') := p.slice bytes
      (slices fuel p' (bytes - b.size)).map fun (bs, p'') => (b :: bs, p'')

/-- `BundledProvidedBufferPool::handle_finish`.  Each turn accounts for a byte or more unless the buffers are empty,
so that `res` turns are enough if any number is. -/
def handleFinish (p : Pool) (cqe : Cqe) : Option (List ProvidedBuffer × Pool) :=
  if !cqe.fBuffer then some ([], p) else
  slices cqe.res.toNat (p.check (decide (0 < cqe.res))) cqe.res

def addBufferBack (p : Pool) (ptr size : ℕ) : Pool :=
  let p := (p.check (decide (size ≤ p.bufferSize))).check (decide (p.buffersBase ≤ ptr))
  let bid := (ptr - p.buffersBase) / p.bufferSize
  let p := p.check (decide (bid < p.numBuffers))
  { p with br := (p.br.add (p.buffersBase + bid * p.bufferSize) p.bufferSize bid p.mask 0).advance 1 }

/-- `ManagedBuffer::reset`, also run by the destructor. -/
def reset (p : Pool) (b : ProvidedBuffer) : Pool := if b.owns then p.addBufferBack b.data b.size else p

/-- `ProvidedBufferPool::handle_finish`: the first buffer; the vector destroys the others. -/
def handleFinishOne (p : Pool) (cqe : Cqe) : Option (ProvidedBuffer × Pool) :=
  (p.handleFinish cqe).map fun
    | ([], p) => (ProvidedBuffer.empty, p)
    | (b :: bs, p) => (b, bs.foldl reset (p.check (decide (bs.length + 1 = 1))))

variable {p p' : Pool} {b : ProvidedBuffer} {bytes : ℤ}

theorem slices_done (fuel : ℕ) (hb : bytes ≤ 0) : p.slices fuel bytes = some ([], p) := by
  unfold slices
  rw [if_pos hb]

theorem slices_turn (fuel : ℕ) (hb : 0 < bytes) (hs : p.slice bytes = (b, p')) :
    p.slices (fuel + 1) bytes = (p'.slices fuel (bytes - b.size)).map fun (bs, p'') => (b :: bs, p'') := by
  rw [slices, if_neg (Int.not_le.mpr hb)]
  simp only [hs]

/-- A completion with a buffer and bytes. -/
theorem handleFinish_eq {cqe : Cqe} (hf : cqe.fBuffer = true) (hpos : 0 < cqe.res) :
    p.handleFinish cqe = p.slices cqe.res.toNat cqe.res := by
  have hcheck : p.check (decide (0 < cqe.res)) = p := by
    simp [check, hpos]
  unfold handleFinish
  rw [hf, hcheck]
  rfl

end Pool

/-! ## The completions and the holders of buffers -/

/-- A completion that was not reaped yet, of an operation on the pool itself or on `bundled(pool)`. -/
structure Completion where
  cqe : Cqe
  bundled : Bool
deriving DecidableEq, Repr

/-- The operation's `handle_finish` on its completion. -/
def Pool.finish (p : Pool) (c : Completion) : Option (List ProvidedBuffer × Pool) :=
  if c.bundled then p.handleFinish c.cqe else (p.handleFinishOne c.cqe).map fun (b, p) => ([b], p)

/-- A pool and the provided buffers that are alive. -/
structure Holding where
  pool : Pool
  live : List ProvidedBuffer

namespace Holding

/-- A completion is handled: what `handle_finish` returned is alive from now on. -/
def finish (s : Holding) (c : Completion) : Option (List ProvidedBuffer × Holding) :=
  (s.pool.finish c).map fun (bs, p) => (bs, ⟨p, s.live ++ bs⟩)

/-- The provided buffer at index `j` of the live ones is destroyed or reset. -/
def drop (s : Holding) (j : ℕ) : Option Holding :=
  (s.live[j]?).map fun b => ⟨s.pool.reset b, s.live.eraseIdx j⟩

end Holding

section Finish

variable {p p' : Pool} {c : Completion} {bs : List ProvidedBuffer}

/-- The pool itself returns the one buffer of its completion. -/
theorem Pool.finish_of_handleFinish (h : p.handleFinish c.cqe = some (bs, p'))
    (hone : c.bundled = false → bs.length = 1) : p.finish c = some (bs, p') := by
  unfold finish
  cases hb : c.bundled with
  | true =>
    rw [if_pos rfl]
    exact h
  | false =>
    obtain ⟨b, rfl⟩ := List.length_eq_one_iff.mp (hone hb)
    simp [handleFinishOne, h, check]

/-- A completion without a buffer leaves the pool as it is; nothing that is returned owns a buffer. -/
theorem Pool.finish_fail (res : ℤ) (bundled : Bool) : ∃ bs : List ProvidedBuffer,
    p.finish ⟨⟨res, false, 0⟩, bundled⟩ = some (bs, p) ∧ ∀ b ∈ bs, b.size = 0 ∧ b.owns = false := by
  cases bundled with
  | true => exact ⟨[], rfl, fun b hb => absurd hb List.not_mem_nil⟩
  | false =>
    refine ⟨[.empty], rfl, fun b hb => ?_⟩
    obtain rfl := List.mem_singleton.mp hb
    exact ⟨rfl, rfl⟩

theorem Holding.finish_eq {s : Holding} (h : s.pool.finish c = some (bs, p')) :
    s.finish c = some (bs, ⟨p', s.live ++ bs⟩) := by
  rw [finish, h]
  rfl

end Finish

/-! ## The kernel -/

structure System extends Holding where
  /-- The kernel's 16-bit head of the ring. -/
  khead : ℕ
  /-- What the kernel took, in the order in which it took it. -/
  inflight : List Completion
  /-- Each handled completion with what `handle_finish` returned. -/
  handled : List (Cqe × List ProvidedBuffer)

inductive Op where
  /-- The kernel completes an operation with `res` bytes in the next buffers of the ring. -/
  | take (res : ℕ) (bundled : Bool)
  /-- An operation ends without a buffer. -/
  | fail (res : ℤ) (bundled : Bool)
  /-- The completion at index `i` of those not reaped yet is reaped. -/
  | reap (i : ℕ)
  /-- The provided buffer at index `j` of the live ones is destroyed or reset. -/
  | drop (j : ℕ)
deriving DecidableEq, Repr

namespace System

def init (p : Pool) : System := { pool := p, khead := 0, inflight := [], live := [], handled := [] }

/-- The number of buffers that `res` bytes fill. -/
def bufferCount (size res : ℕ) : ℕ := (res + size - 1) / size

/-- The kernel takes buffers of a ring without `IOU_PBUF_RING_INC` whole and from its head on. -/
def take (s : System) (res : ℕ) (bundled : Bool) : Option System :=
  let n := bufferCount s.pool.bufferSize res
  if s.pool.isIncr ∨ res = 0 ∨ 2 ^ 31 ≤ res ∨ n = 0 ∨ (s.pool.br.tail + 2 ^ 16 - s.khead) % 2 ^ 16 < n ∨
      (bundled = false ∧ n ≠ 1) then none else
  some { s with
    khead := (s.khead + n) % 2 ^ 16
    inflight := s.inflight ++ [⟨⟨res, true, (s.pool.br.bufs (s.khead &&& s.pool.mask)).bid⟩, bundled⟩] }

def finish (s : System) (c : Completion) : Option System :=
  (s.toHolding.finish c).map fun (bs, h) => { s with toHolding := h, handled := s.handled ++ [(c.cqe, bs)] }

def step (s : System) : Op → Option System
  | .take res bundled => s.take res bundled
  | .fail res bundled => s.finish ⟨⟨res, false, 0⟩, bundled⟩
  | .reap i => (s.inflight[i]?).bind fun c => ({ s with inflight := s.inflight.eraseIdx i }).finish c
  | .drop j => (s.toHolding.drop j).map fun h => { s with toHolding := h }

end System

end ProvidedBuffers

end Condy
