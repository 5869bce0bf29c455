import Condy.Errno
import Condy.Lib.Run
import Condy.Ring
import Condy.Runtime.Work
import Mathlib.Logic.Function.Basic

/-!
# Condy.Runtime.Model — one runtime, its operations and the kernel

The event loop of `runtime.hpp` with the finish handles of `detail/finish_handles.hpp` and the start of an operation in
`detail/op_states.hpp`.  The thread of the runtime moves between the points of `run()` (`Control`); while a coroutine or
a receiver runs it may start operations, wait, send messages and request stops.  Other threads wake waits, schedule
work and run stop callbacks.  The kernel executes the submitted entries in order and posts completions.

An operation is known to the kernel only by the word of its entry, the address of its finish handle.  The `tag`s number
the operations in the order of their starts; no definition of the code reads them.
-/

namespace Condy

open Lib

/-! ## Operations -/

inductive OpKind where
  | single | multishot | zeroCopy
deriving DecidableEq, Repr

/-- `handle_impl_` of the three finish handles on a completion with these flags `F_MORE` and `F_NOTIF`: whether it calls
`finish_`, and what it returns. -/
def OpKind.handle : OpKind → Bool → Bool → Bool × Bool
  | .single, _, _ => (true, true)
  | .multishot, more, _ => if more then (false, false) else (true, true)
  | .zeroCopy, more, notif =>
    if more then (true, false)
    else if notif then (false, true)
    else (true, true)

/-- How far the kernel is with a request. -/
inductive Phase where
  | ready
  /-- A zero-copy request whose notification is still to come. -/
  | sent
  | ended
deriving DecidableEq, Repr

/-- The contract of `io_uring`: the completions that may be posted for a request in a phase, and the phase after it. -/
def OpKind.emit : OpKind → Phase → Bool → Bool → Option Phase
  | .single, .ready, false, false => some .ended
  | .multishot, .ready, true, false => some .ready
  | .multishot, .ready, false, false => some .ended
  | .zeroCopy, .ready, true, false => some .sent
  | .zeroCopy, .ready, false, false => some .ended
  | .zeroCopy, .sent, false, true => some .ended
  | _, _, _, _ => none

/-- The state of `stop_callback_`. -/
inductive StopCallback where
  | unset | set
  /-- Another thread is inside the callback, before and after it sent the message. -/
  | running | sent
  | ran
deriving DecidableEq, Repr

/-- `reset()` waits for a callback that runs on another thread. -/
def StopCallback.busy : StopCallback → Bool
  | .running | .sent => true
  | _ => false

/-- An operation: the address of its finish handle, the class of the handle, and its number. -/
structure OpInfo where
  addr : ℕ
  kind : OpKind
  tag : ℕ
deriving DecidableEq, Repr

structure FinishHandle extends OpInfo where
  callback : StopCallback
deriving DecidableEq, Repr

/-! ## What goes through the rings -/

inductive Request where
  | op (kind : OpKind)
  | msgRing
  /-- `io_uring_prep_cancel64`: cancel the request with this user data. -/
  | cancel (target : ℕ)
deriving DecidableEq, Repr

/-- A submission entry.  `tag` is the operation that it starts or, of a cancel, the one whose callback asked for it. -/
structure Sqe where
  userData : ℕ
  request : Request
  tag : ℕ
deriving DecidableEq, Repr

/-- The operation that a completion is of, or whose callback sent the cancel message. -/
inductive Origin where
  | op (tag : ℕ)
  | cancel (tag : ℕ)
  | other
deriving DecidableEq, Repr

structure Cqe where
  userData : ℕ
  res : ℤ
  more : Bool
  notif : Bool
  origin : Origin
deriving DecidableEq, Repr

/-- A message of another runtime or thread, as it arrives. -/
def Cqe.message (ptr : ℕ) (type : WorkType) (origin : Origin) : Cqe := ⟨encodeWork ptr type, 0, false, false, origin⟩

/-- A request that the kernel executes. -/
structure Req where
  userData : ℕ
  kind : OpKind
  phase : Phase
deriving DecidableEq, Repr

/-- A suspended join, channel or futex wait.  `ptr` is the invoker that resumes it; `woken` says that it was scheduled. -/
structure Wait where
  ptr : ℕ
  woken : Bool
deriving DecidableEq, Repr

/-! ## The runtime -/

/-- What follows a loop over the completion queue. -/
inductive After where
  | pick | top
deriving DecidableEq, Repr

/-- The place of the runtime's thread. -/
inductive Control where
  /-- Outside `run()`. -/
  | idle
  /-- At the head of the loop, and at `local_queue_.pop_front()`. -/
  | top | pick
  /-- In `io_uring_submit_and_wait`. -/
  | wait
  /-- At the head of a loop over the completion queue. -/
  | reap (next : After)
  /-- In an item of the local queue. -/
  | work
  /-- In user code called by `process_cqe_`; `finish` is what `handle` will return. -/
  | handler (next : After) (finish : Bool)
  | panicked
deriving DecidableEq, Repr

def After.control : After → Control
  | .pick => .pick
  | .top => .top

structure Runtime where
  control : Control
  ringEnabled : Bool
  exitAllowed : Bool
  localQueue : List ℕ
  globalQueue : List ℕ
  ring : Ring Sqe
  pendingWorks : ℕ
  tickCount : ℕ
  eventInterval : ℕ
  /-- The finish handles of started operations, until their address may be used again. -/
  handles : List FinishHandle
  waits : List Wait
  /-- The kernel: the entries executed so far, the requests in execution, the `msg_ring` requests in execution. -/
  executed : ℕ
  reqs : ℕ → Option Req
  msgs : ℕ
  /-- The completion queue, and the messages on their way to it. -/
  cq : List Cqe
  inbox : List Cqe
  nextTag : ℕ
  /-- The results that receivers were called with. -/
  received : List (ℕ × ℤ)
  /-- Each cancel entry that found a request: the operation that asked for it and the one that was found. -/
  cancelled : List (ℕ × ℕ)
  /-- Set when `pending_works_` is decremented from zero, and when a completion names no finish handle. -/
  underflow : Bool
  dangling : Bool
  asserts : Bool

namespace Runtime

def init (eventInterval : ℕ) (ring : Ring Sqe) : Runtime :=
  { control := .idle, ringEnabled := false, exitAllowed := false, localQueue := [], globalQueue := [], ring
    pendingWorks := 0, tickCount := 0, eventInterval, handles := [], waits := [], executed := 0
    reqs := fun _ => none, msgs := 0, cq := [], inbox := [], nextTag := 0, received := [], cancelled := []
    underflow := false, dangling := false, asserts := true }

/-- The entries that the kernel has still to execute, submitted or not. -/
def sq (s : Runtime) : List Sqe := s.ring.all.drop s.executed

def pendWork (s : Runtime) : Runtime := { s with pendingWorks := s.pendingWorks + 1 }

def resumeWork (s : Runtime) : Runtime :=
  match s.pendingWorks with
  | 0 => { s with pendingWorks := 2 ^ 64 - 1, underflow := true }
  | n + 1 => { s with pendingWorks := n }

/-- `get_sqe` and the preparation of the entry. -/
def queueSqe (s : Runtime) (e : Sqe) : Option Runtime := (s.ring.getSqe e).map fun r => { s with ring := r }

/-- `prep_cancel_`. -/
def prepCancel (s : Runtime) (data tag : ℕ) : Option Runtime := s.queueSqe ⟨encodeWork 0 .ignore, .cancel data, tag⟩

/-- `schedule_msg_ring_` on the sending side. -/
def scheduleMsgRing (s : Runtime) : Option Runtime :=
  (s.queueSqe ⟨encodeWork 0 .schedule, .msgRing, 0⟩).map pendWork

def setCallback (s : Runtime) (addr : ℕ) (cb : StopCallback) : Runtime :=
  { s with handles := s.handles.map fun h => if h.addr = addr then { h with callback := cb } else h }

def callbackAt (s : Runtime) (addr : ℕ) : Option StopCallback :=
  (s.handles.find? (·.addr = addr)).map (·.callback)

/-! ### Starting and finishing an operation -/

/-- `OpSenderOperationState::fail_`: the finish handle gets a completion with this result and no flags. -/
def fail (s : Runtime) (kind : OpKind) (tag : ℕ) (res : ℤ) : Runtime :=
  if (kind.handle false false).1 then { s with received := s.received ++ [(tag, res)] } else s

/-- `OpSenderOperationState::start` at a free address. -/
def start (s : Runtime) (addr : ℕ) (kind : OpKind) (stopRequested prepFails stopPossible : Bool) : Option Runtime :=
  if addr % 8 ≠ 0 ∨ addr ∈ s.handles.map (·.addr) then none else
  let tag := s.nextTag
  let s := { s with nextTag := tag + 1 }
  if stopRequested then some (s.fail kind tag (-ECANCELED))
  else if prepFails then some (s.fail kind tag (-EINVAL))
  else (s.queueSqe ⟨encodeWork addr .common, .op kind, tag⟩).map fun s =>
    { s.pendWork with
      ring := s.ring.maybeSubmit
      handles := s.handles ++ [⟨⟨addr, kind, tag⟩, if stopPossible then .set else .unset⟩] }

/-- `OpFinishHandleBase::handle`.  Once it returns `true` the address may be used again.  `none`: `finish_` waits for
a stop callback. -/
def handle (s : Runtime) (h : FinishHandle) (c : Cqe) (next : After) : Option Runtime :=
  let (fin, done) := h.kind.handle c.more c.notif
  if fin && h.callback.busy then none else
  let handles := if fin then (s.setCallback h.addr .unset).handles else s.handles
  some { s with
    handles := if done then handles.filter (fun g => g.addr ≠ h.addr) else handles
    received := if fin then s.received ++ [(h.tag, c.res)] else s.received
    control := .handler next done }

/-- `(*work)()`: a wait gives its count back before the waiting coroutine goes on; any other item just runs. -/
def invoke (s : Runtime) (w : ℕ) : Runtime :=
  if w ∈ s.waits.map (·.ptr) then
    { s.resumeWork with waits := s.waits.filter (fun x => x.ptr ≠ w) }
  else s

def processCqe (s : Runtime) (next : After) (c : Cqe) : Option Runtime :=
  match decodeWork c.userData with
  | (_, some .ignore) =>
    some { s with control := .reap next, asserts := s.asserts && decide (c.res ≠ -EINVAL) }
  | (data, some .schedule) =>
    if data = 0 then
      if c.res < 0 then some { s with control := .panicked } else some { s.resumeWork with control := .reap next }
    else some { s.invoke data with control := .handler next false }
  | (data, some .cancel) =>
    let tag := match c.origin with
      | .cancel tag => tag
      | _ => 0
    (s.prepCancel data tag).map fun s => { s with control := .reap next }
  | (data, some .common) =>
    match s.handles.find? (·.addr = data) with
    | none => some { s with control := .panicked, dangling := true }
    | some h => s.handle h c next
  | (_, none) => some { s with control := .panicked }

/-! ### Steps -/

inductive Op where
  /-- The points of `run()`. -/
  | run | tick | pick | waitReturn | reap
  /-- User code on the runtime's thread. -/
  | start (addr : ℕ) (kind : OpKind) (stopRequested prepFails stopPossible : Bool)
  /-- A message to another runtime, with `submit()` when it is a wake-up or a cancel. -/
  | sendMsg (submit : Bool)
  | requestStop (addr : ℕ)
  | schedule (w : ℕ)
  | beginWait (w : ℕ)
  /-- `co_await` on a task that has already finished. -/
  | joinFinished
  | wake (w : ℕ)
  | ret
  /-- Other threads. -/
  | allowExit
  | remoteSchedule (w : ℕ)
  | remoteWake (w : ℕ)
  | remoteWakeup
  | remoteStopBegin (addr : ℕ) | remoteStopSend (addr : ℕ) | remoteStopEnd (addr : ℕ)
  /-- The kernel. -/
  | deliver (i : ℕ)
  | exec (hit : Option ℕ) (res : ℤ)
  | post (tag : ℕ) (res : ℤ) (more notif : Bool)
  | postMsg (res : ℤ)
deriving DecidableEq, Repr

def inUser (s : Runtime) : Bool :=
  match s.control with
  | .work | .handler _ _ => true
  | _ => false

/-- No invoker at this address is alive. -/
def freshWork (s : Runtime) (w : ℕ) : Prop :=
  w % 8 = 0 ∧ w ≠ 0 ∧ w ∉ s.waits.map (·.ptr) ∧ w ∉ s.localQueue ∧ w ∉ s.globalQueue ∧
    ∀ c ∈ s.cq ++ s.inbox, c.userData ≠ encodeWork w .schedule

instance (s : Runtime) (w : ℕ) : Decidable (s.freshWork w) := by
  unfold freshWork
  infer_instance

def setWoken (s : Runtime) (w : ℕ) : Runtime :=
  { s with waits := s.waits.map fun x => if x.ptr = w then { x with woken := true } else x }

/-- `schedule_internal` from another thread. -/
def remotePush (s : Runtime) (w : ℕ) : Runtime :=
  if s.ringEnabled then { s with inbox := s.inbox ++ [.message w .schedule .other] }
  else { s with globalQueue := s.globalQueue ++ [w] }

/-- The head of the loop: count, and look at the completion queue every `event_interval_` turns. -/
def tick (s : Runtime) : Runtime :=
  if s.eventInterval ≤ s.tickCount + 1 then { s with tickCount := 0, control := .reap .pick }
  else { s with tickCount := s.tickCount + 1, control := .pick }

/-- The rest of a turn: run an item, leave the loop, or submit and wait. -/
def pick (s : Runtime) : Runtime :=
  match s.localQueue with
  | w :: ws => { ({ s with localQueue := ws } : Runtime).invoke w with control := .work }
  | [] =>
    if s.pendingWorks = 0 ∧ s.exitAllowed = true then
      { s with control := .idle, tickCount := 0, exitAllowed := false }
    else { s with control := .wait, ring := s.ring.submit }

/-- The kernel executes an entry.  `hit` is the request that a cancel found.  A cancel posts a completion only if it
failed. -/
def execute (s : Runtime) (e : Sqe) (hit : Option ℕ) (res : ℤ) : Option Runtime :=
  match e.request with
  | .op kind => some { s with reqs := Function.update s.reqs e.tag (some ⟨e.userData, kind, .ready⟩) }
  | .msgRing => some { s with msgs := s.msgs + 1 }
  | .cancel target =>
    let cq := if res < 0 then s.cq ++ [⟨e.userData, res, false, false, .other⟩] else s.cq
    match hit with
    | none =>
      if res < 0 ∧ ∀ t < s.nextTag, (s.reqs t).map (·.userData) ≠ some target then some { s with cq } else none
    | some t =>
      if (s.reqs t).map (·.userData) = some target then some { s with cq, cancelled := s.cancelled ++ [(e.tag, t)] }
      else none

def post (s : Runtime) (tag : ℕ) (res : ℤ) (more notif : Bool) : Option Runtime :=
  (s.reqs tag).bind fun r => (r.kind.emit r.phase more notif).map fun p =>
    { s with
      reqs := Function.update s.reqs tag (if p = .ended then none else some { r with phase := p })
      cq := s.cq ++ [⟨r.userData, res, more, notif, .op tag⟩] }

def step (s : Runtime) : Op → Option Runtime
  | .run =>
    if s.control ≠ .idle then none
    else if s.ringEnabled then some { s with control := .reap .top }
    else some { s with
      control := .top, ringEnabled := true, localQueue := s.localQueue ++ s.globalQueue, globalQueue := [] }
  | .tick => if s.control = .top then some s.tick else none
  | .pick => if s.control = .pick then some s.pick else none
  | .waitReturn => if s.control = .wait ∧ s.cq ≠ [] then some { s with control := .reap .top } else none
  | .reap =>
    match s.control, s.cq with
    | .reap next, [] => some { s with control := next.control }
    | .reap next, c :: cs => ({ s with cq := cs } : Runtime).processCqe next c
    | _, _ => none
  | .start addr kind stopRequested prepFails stopPossible =>
    if s.inUser then s.start addr kind stopRequested prepFails stopPossible else none
  | .sendMsg submit =>
    if s.inUser then s.scheduleMsgRing.map fun s => if submit then { s with ring := s.ring.submit } else s else none
  | .requestStop addr =>
    if s.inUser ∧ s.callbackAt addr = some .set then
      ((s.handles.find? (·.addr = addr)).bind fun h => s.prepCancel addr h.tag).map (·.setCallback addr .ran)
    else none
  | .schedule w =>
    if s.inUser ∧ s.freshWork w then some { s with localQueue := s.localQueue ++ [w] } else none
  | .beginWait w =>
    if s.inUser ∧ s.freshWork w then some { s.pendWork with waits := s.waits ++ [⟨w, false⟩] } else none
  | .joinFinished => if s.inUser then some s.pendWork.resumeWork else none
  | .wake w =>
    if s.inUser ∧ ⟨w, false⟩ ∈ s.waits then some { s.setWoken w with localQueue := s.localQueue ++ [w] } else none
  | .ret =>
    match s.control with
    | .work => some { s with control := .top }
    | .handler next finish =>
      some { (if finish then s.resumeWork else s) with control := .reap next }
    | _ => none
  | .allowExit => some { s with exitAllowed := true }
  | .remoteSchedule w => if s.freshWork w then some (s.remotePush w) else none
  | .remoteWake w => if ⟨w, false⟩ ∈ s.waits then some ((s.setWoken w).remotePush w) else none
  | .remoteWakeup => if s.ringEnabled then some { s with inbox := s.inbox ++ [.message 0 .ignore .other] } else none
  | .remoteStopBegin addr => if s.callbackAt addr = some .set then some (s.setCallback addr .running) else none
  | .remoteStopSend addr =>
    if s.ringEnabled ∧ s.callbackAt addr = some .running then
      (s.handles.find? (·.addr = addr)).map fun h =>
        { s.setCallback addr .sent with inbox := s.inbox ++ [.message addr .cancel (.cancel h.tag)] }
    else none
  | .remoteStopEnd addr =>
    if s.callbackAt addr = some .sent ∨ (s.callbackAt addr = some .running ∧ s.ringEnabled = false) then
      some (s.setCallback addr .ran)
    else none
  | .deliver i => (s.inbox[i]?).map fun c => { s with inbox := s.inbox.eraseIdx i, cq := s.cq ++ [c] }
  | .exec hit res =>
    if s.executed < s.ring.handed then
      (s.ring.all[s.executed]?).bind fun e => ({ s with executed := s.executed + 1 } : Runtime).execute e hit res
    else none
  | .post tag res more notif => s.post tag res more notif
  | .postMsg res =>
    if 0 < s.msgs then
      some { s with msgs := s.msgs - 1, cq := s.cq ++ [⟨encodeWork 0 .schedule, res, false, false, .other⟩] }
    else none

end Runtime

end Condy
