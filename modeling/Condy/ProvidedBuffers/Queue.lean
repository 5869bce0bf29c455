import Condy.ProvidedBuffers.Pool

/-!
# Condy.ProvidedBuffers.Queue — the provided buffer queue of `provided_buffers.hpp`

The buffers of a queue belong to the user, who pushes them into the ring one by one.  `push` takes the id from the tail
of the ring and keeps the length in `buf_lens_`; `handle_finish` walks over `buf_lens_` from the id of the completion on,
until the bytes of the completion are accounted for.

`QueueSystem` puts the queue together with the kernel, which takes bytes (`IOU_PBUF_RING_INC`) or whole buffers from the
front of the ring and posts completions that are reaped in this order.
-/

namespace Condy.ProvidedBuffers

open Lib

structure BufferInfo where
  bid : ℕ
  numBuffers : ℕ
deriving DecidableEq, Repr

/-- `BundledProvidedBufferQueue`; `isIncr` is `br_flags_ & IOU_PBUF_RING_INC`, and `asserts` stays `true` as long as
every assertion held. -/
structure Queue where
  size : ℕ
  capacity : ℕ
  mask : ℕ
  bufLens : ℕ → ℕ
  isIncr : Bool
  br : BufRing
  asserts : Bool

namespace Queue

def check (q : Queue) (c : Bool) : Queue := { q with asserts := q.asserts && c }

/-- The constructor.  `none`: `std::bit_ceil` is undefined, or the kernel refuses a ring of `2 ^ 16` or more entries
and the constructor throws. -/
def create (capacity : ℕ) (isIncr : Bool) : Option Queue :=
  (bitCeil 32 capacity).bind fun cap =>
    if 2 ^ 16 ≤ cap then none else
    some { size := 0, capacity := cap, mask := cap - 1, bufLens := fun _ => 0, isIncr := isIncr,
           br := ⟨fun _ => default, 0⟩, asserts := true }

/-- `push`, with the text of the `std::logic_error` that it throws. -/
def push (q : Queue) (data len : ℕ) : Except String ℕ × Queue :=
  if q.capacity ≤ q.size then (.error "Capacity exceeded", q) else
  let bid := (q.br.tail &&& q.mask) % 2 ^ 16
  (.ok bid, { q with
    br := (q.br.add data len bid q.mask 0).advance 1
    bufLens := Function.update q.bufLens bid (len % 2 ^ 32)
    size := (q.size + 1) % 2 ^ 32 })

/-- What the loop of `handle_finish` works on. -/
structure Scan where
  bufLens : ℕ → ℕ
  idx : ℕ
  bytes : ℤ
  numBuffers : ℕ

/-- One turn of the loop. -/
def scanTurn (q : Queue) (c : Scan) : Scan :=
  let currBid := c.idx &&& q.mask
  let len := c.bufLens currBid
  let bufLen := if q.isIncr then min (c.bytes.toNat % 2 ^ 32) len else len
  let left := if q.isIncr then len - bufLen else 0
  { bufLens := Function.update c.bufLens currBid left
    idx := (c.idx + 1) % 2 ^ 16
    bytes := c.bytes - bufLen
    numBuffers := if left = 0 then (c.numBuffers + 1) % 2 ^ 16 else c.numBuffers }

/-- The loop `while (bytes > 0)`.  `none`: still running after `fuel` turns. -/
def scan (q : Queue) : ℕ → Scan → Option Scan
  | fuel, c =>
    if c.bytes ≤ 0 then some c else
    match fuel with
    | 0 => none
    | fuel + 1 => q.scan fuel (q.scanTurn c)

/-- `BundledProvidedBufferQueue::handle_finish`.  Among `capacity_` turns in a row one accounts for a byte, unless all
lengths are `0` and the loop never ends; so that `capacity_ * res` turns are enough if any number is. -/
def handleFinish (q : Queue) (cqe : Cqe) : Option (BufferInfo × Queue) :=
  if !cqe.fBuffer then some (⟨0, 0⟩, q) else
  let q := q.check (decide (0 < cqe.res))
  (q.scan (q.capacity * cqe.res.toNat) ⟨q.bufLens, cqe.bid, cqe.res, 0⟩).map fun c =>
    (⟨cqe.bid, c.numBuffers⟩, { q.check (decide (c.numBuffers ≤ q.size)) with
      bufLens := c.bufLens
      size := (q.size + 2 ^ 32 - c.numBuffers) % 2 ^ 32 })

/-- `ProvidedBufferQueue::handle_finish`. -/
def handleFinishOne (q : Queue) (cqe : Cqe) : Option (BufferInfo × Queue) :=
  (q.handleFinish cqe).map fun (info, q) => (info, q.check (decide (info.numBuffers ≤ 1)))

/-- The operation's `handle_finish` on its completion. -/
def finish (q : Queue) (c : Completion) : Option (BufferInfo × Queue) :=
  if c.bundled then q.handleFinish c.cqe else q.handleFinishOne c.cqe

end Queue

/-! ## The kernel and the completions -/

def bytesIn (es : List IoUringBuf) : ℕ := (es.map IoUringBuf.len).sum

/-- What the kernel leaves of a ring when it takes `res` bytes: from the front on it takes a buffer with its last byte
(`IOU_PBUF_RING_INC`), or with its first one. -/
def consume (incr : Bool) : ℕ → List IoUringBuf → List IoUringBuf
  | _, [] => []
  | res, e :: es =>
    if res = 0 then e :: es
    else if incr = true ∧ res < e.len then ⟨e.addr + res, e.len - res, e.bid⟩ :: es
    else consume incr (res - e.len) es

/-- A completion that was not reaped yet, and the number of buffers that left the ring with it. -/
structure Posted where
  completion : Completion
  left : ℕ
deriving DecidableEq, Repr

def Posted.res (c : Posted) : ℕ := c.completion.cqe.res.toNat

structure QueueSystem where
  queue : Queue
  /-- What the kernel has left of the ring. -/
  ring : List IoUringBuf
  /-- The completions that were not reaped, oldest first. -/
  posted : List Posted
  /-- The buffers that were pushed and not reported consumed, with what the reaped completions left of each. -/
  outstanding : List IoUringBuf
  /-- The ids that `push` returned. -/
  ids : List ℕ
  /-- Each reaped completion with what `handle_finish` returned. -/
  reported : List (Posted × BufferInfo)

inductive QueueOp where
  | push (data len : ℕ)
  /-- The kernel completes an operation with `res` bytes from the front of the ring, of one buffer if the operation is
  not on `bundled(queue)`. -/
  | post (res : ℕ) (bundled : Bool)
  /-- An operation ends without a buffer. -/
  | fail (res : ℤ) (bundled : Bool)
  /-- The oldest completion is reaped. -/
  | reap
deriving DecidableEq, Repr

namespace QueueSystem

def init (q : Queue) : QueueSystem :=
  { queue := q, ring := [], posted := [], outstanding := [], ids := [], reported := [] }

/-- The pushed buffers have between 1 and `2 ^ 32 - 1` bytes; the kernel sees the entry that `push` left before the
tail. -/
def push (s : QueueSystem) (data len : ℕ) : Option QueueSystem :=
  if len = 0 ∨ 2 ^ 32 ≤ len then none else
  match s.queue.push data len with
  | (.error _, q) => some { s with queue := q }
  | (.ok bid, q) =>
    let e := q.br.bufs (s.queue.br.tail &&& q.mask)
    some { s with queue := q, ring := s.ring ++ [e], outstanding := s.outstanding ++ [e], ids := s.ids ++ [bid] }

def post (s : QueueSystem) (res : ℕ) (bundled : Bool) : Option QueueSystem :=
  match s.ring with
  | [] => none
  | e :: es =>
    if res = 0 ∨ 2 ^ 31 ≤ res ∨ bytesIn (e :: es) < res ∨ (bundled = false ∧ e.len < res) then none else
    let rest := consume s.queue.isIncr res (e :: es)
    some { s with
      ring := rest
      posted := s.posted ++ [⟨⟨⟨res, true, e.bid⟩, bundled⟩, (e :: es).length - rest.length⟩] }

def reap (s : QueueSystem) : Option QueueSystem :=
  match s.posted with
  | [] => none
  | c :: cs => (s.queue.finish c.completion).map fun (info, q) =>
    { s with
      queue := q
      posted := cs
      outstanding := consume s.queue.isIncr c.res s.outstanding
      reported := s.reported ++ [(c, info)] }

def step (s : QueueSystem) : QueueOp → Option QueueSystem
  | .push data len => s.push data len
  | .post res bundled => s.post res bundled
  | .fail res bundled => (s.queue.finish ⟨⟨res, false, 0⟩, bundled⟩).map fun (_, q) => { s with queue := q }
  | .reap => s.reap

end QueueSystem

end Condy.ProvidedBuffers
