import Condy.Runtime.Model
import Condy.SingleList

/-!
# Condy.Cluster.Model — any number of runtimes and threads

`schedule_internal`, `allow_exit` and `cancel_internal` called from any thread, against the calls of `run()`.  A call
that is not on the runtime's own thread goes through `Stage`s: the unlocked read of `ring_enabled_`, the locked section,
the message.  The locked section of the first `run()` is a step of its own, between the enabling of the ring and the
loop.

Of the ring only the `msg_ring` requests are kept, queued or handed to the kernel; other entries make it submit earlier,
which `submit` allows at any time.  Of the other activities that pend work only the number is kept, and a completion of
an operation lets its receiver run, also when the thread waits for one (`complete`).  `run()` is not called from inside
`run()`.
-/

namespace Condy

open Lib

namespace Cluster

inductive Queue where
  | globalQueue | localQueue
deriving DecidableEq, Repr

/-- A `msg_ring` request: `data` is to arrive as user data of a completion on the ring of `target`. -/
structure Message (ι : Type) where
  target : ι
  data : ℕ
deriving DecidableEq, Repr

/-- `refused` is the message of a request that failed. -/
structure Completion (ι : Type) where
  userData : ℕ
  res : ℤ
  refused : Option (Message ι)
deriving DecidableEq, Repr

/-- The place of a thread, outside or inside `run()` of a runtime. -/
inductive Place (ι : Type) where
  | outside
  /-- The ring is enabled, the locked section is still to come. -/
  | flush (r : ι)
  | top (r : ι) | pick (r : ι) | wait (r : ι)
  | reap (r : ι) (next : After)
  /-- In an item of the local queue, and in user code called by `process_cqe_`. -/
  | work (r : ι)
  | handler (r : ι) (next : After)
deriving DecidableEq, Repr

variable {ι θ : Type}

/-- `Context::current().runtime()`. -/
def Place.runtime : Place ι → Option ι
  | .outside => none
  | .flush r | .top r | .pick r | .wait r | .reap r _ | .work r | .handler r _ => some r

/-- The thread runs code of the user. -/
def Place.user : Place ι → Bool
  | .outside | .work _ | .handler _ _ => true
  | _ => false

def Place.after (r : ι) : After → Place ι
  | .pick => .pick r
  | .top => .top r

/-- The next thing a call does. -/
inductive Stage where
  | read | lock | send
deriving DecidableEq, Repr

/-- A call from another thread: `schedule_internal` of a work item, `wakeup_` or `cancel_internal`, by `type`. -/
structure Call (ι : Type) where
  target : ι
  work : ℕ
  type : WorkType
  stage : Stage
deriving DecidableEq, Repr

structure Rt (ι θ : Type) where
  /-- Enabled in the kernel. -/
  ringOpen : Bool
  ringEnabled : Bool
  exitAllowed : Bool
  runThread : Option θ
  pendingWorks : ℕ
  tickCount : ℕ
  eventInterval : ℕ
  /-- The number of activities pended other than messages. -/
  works : ℕ
  queued : List (Message ι)
  handed : List (Message ι)
  /-- Messages sent whose own completion is still to come. -/
  acks : ℕ
  /-- Messages accepted for this ring that are not in the completion queue yet. -/
  inbox : List ℕ
  cq : List (Completion ι)

namespace Rt

def new (eventInterval : ℕ) : Rt ι θ :=
  { ringOpen := false, ringEnabled := false, exitAllowed := false, runThread := none, pendingWorks := 0
    tickCount := 0, eventInterval, works := 0, queued := [], handed := [], acks := 0, inbox := [], cq := [] }

def submit (x : Rt ι θ) : Rt ι θ := { x with queued := [], handed := x.handed ++ x.queued }

/-- `schedule_msg_ring_` on the sending side. -/
def scheduleMsgRing (x : Rt ι θ) (m : Message ι) : Rt ι θ :=
  { x with queued := x.queued ++ [m], pendingWorks := x.pendingWorks + 1 }

/-- `resume_work_internal`, on a counter of 64 bits. -/
def resumeWork (x : Rt ι θ) : Rt ι θ :=
  { x with pendingWorks := if x.pendingWorks = 0 then 2 ^ 64 - 1 else x.pendingWorks - 1 }

end Rt

end Cluster

structure Cluster (ι θ : Type) where
  rt : ι → Cluster.Rt ι θ
  queue : ι × Cluster.Queue → SingleLinkListImpl ℕ
  mem : SingleMem ℕ
  place : θ → Cluster.Place ι
  call : θ → Option (Cluster.Call ι)
  /-- The items that `schedule_internal` was called with, and those invoked. -/
  scheduled : List ℕ
  invoked : List ℕ
  /-- The runtime that `schedule_internal` was last called on with an item. -/
  target : ℕ → Option ι
  panicked : Bool

namespace Cluster

variable [DecidableEq ι] [DecidableEq θ]

def init (eventInterval : ι → ℕ) : Cluster ι θ :=
  { rt := fun r => .new (eventInterval r), queue := fun _ => .new, mem := ⟨fun _ => none, true⟩
    place := fun _ => .outside, call := fun _ => none, scheduled := [], invoked := []
    target := fun _ => none, panicked := false }

def setRt (s : Cluster ι θ) (r : ι) (x : Rt ι θ) : Cluster ι θ := { s with rt := Function.update s.rt r x }

def setPlace (s : Cluster ι θ) (t : θ) (p : Place ι) : Cluster ι θ := { s with place := Function.update s.place t p }

def setCall (s : Cluster ι θ) (t : θ) (c : Option (Call ι)) : Cluster ι θ :=
  { s with call := Function.update s.call t c }

/-- The thread may call into the library. -/
def free (s : Cluster ι θ) (t : θ) : Bool := (s.place t).user && (s.call t).isNone

def pushBack (s : Cluster ι θ) (k : ι × Queue) (w : ℕ) : Cluster ι θ :=
  let q := SingleLinkListImpl.pushBack s.mem (s.queue k) w
  { s with mem := q.1, queue := Function.update s.queue k q.2 }

/-! ### Calls -/

/-- `schedule_internal`, up to the first access to shared data.  An item has one link entry: it is not scheduled again
before it was invoked. -/
def scheduleInternal (s : Cluster ι θ) (t : θ) (target : ι) (w : ℕ) : Option (Cluster ι θ) :=
  if s.free t = false ∨ w % 8 ≠ 0 ∨ w = 0 ∨ s.scheduled.count w ≠ s.invoked.count w then none
  else if (s.place t).runtime = some target then
    some { s.pushBack (target, .localQueue) w with
      scheduled := s.scheduled ++ [w], target := Function.update s.target w (some target) }
  else some { s.setCall t (some ⟨target, w, .schedule, .read⟩) with
      scheduled := s.scheduled ++ [w], target := Function.update s.target w (some target) }

/-- `allow_exit`: the store, and then `wakeup_`. -/
def allowExit (s : Cluster ι θ) (t : θ) (target : ι) : Option (Cluster ι θ) :=
  if s.free t = false then none
  else if (s.place t).runtime = some target then
    some (s.setRt target { s.rt target with exitAllowed := true })
  else some ((s.setRt target { s.rt target with exitAllowed := true }).setCall t (some ⟨target, 0, .ignore, .read⟩))

/-- `cancel_internal` from another thread. -/
def cancelInternal (s : Cluster ι θ) (t : θ) (target : ι) (data : ℕ) : Option (Cluster ι θ) :=
  if s.free t = false ∨ data % 8 ≠ 0 ∨ (s.place t).runtime = some target then none
  else some (s.setCall t (some ⟨target, data, .cancel, .read⟩))

/-- The read of `ring_enabled_`; only `schedule_internal` has a slow path. -/
def callRead (s : Cluster ι θ) (t : θ) (c : Call ι) : Cluster ι θ :=
  if (s.rt c.target).ringEnabled then s.setCall t (some { c with stage := .send })
  else if c.type = .schedule then s.setCall t (some { c with stage := .lock })
  else s.setCall t none

/-- The locked section. -/
def callLock (s : Cluster ι θ) (t : θ) (c : Call ι) : Cluster ι θ :=
  if (s.rt c.target).ringEnabled then s.setCall t (some { c with stage := .send })
  else (s.pushBack (c.target, .globalQueue) c.work).setCall t none

/-- `schedule_msg_ring_`.  A wake-up or a cancel is submitted at once.  A thread outside `run()` sends synchronously, and
`ok` is what the kernel says; it does not accept a message for a ring that is not enabled. -/
def callSend (s : Cluster ι θ) (t : θ) (c : Call ι) (ok : Bool) : Option (Cluster ι θ) :=
  match (s.place t).runtime with
  | some r =>
    let x := (s.rt r).scheduleMsgRing ⟨c.target, encodeWork c.work c.type⟩
    some ((s.setRt r (if c.type = .schedule then x else x.submit)).setCall t none)
  | none =>
    if ok = false then some { s with panicked := true }
    else if (s.rt c.target).ringOpen = false then none
    else
      let x := s.rt c.target
      some ((s.setRt c.target { x with inbox := x.inbox ++ [encodeWork c.work c.type] }).setCall t none)

def callStep (s : Cluster ι θ) (t : θ) (ok : Bool) : Option (Cluster ι θ) :=
  (s.call t).bind fun c =>
    match c.stage with
    | .read => some (s.callRead t c)
    | .lock => some (s.callLock t c)
    | .send => s.callSend t c ok

/-! ### `run()` -/

/-- The beginning of `run()`.  `ok` is the result of `io_uring_enable_rings`; where `run()` throws nothing changes. -/
def run (s : Cluster ι θ) (t : θ) (r : ι) (ok : Bool) : Option (Cluster ι θ) :=
  if s.place t ≠ .outside ∨ s.call t ≠ none then none
  else match (s.rt r).runThread with
  | none =>
    if ok then some ((s.setRt r { s.rt r with ringOpen := true, runThread := some t }).setPlace t (.flush r))
    else some s
  | some t' => if t' = t then some (s.setPlace t (.reap r .top)) else some s

/-- The locked section: `flush_global_queue_` and the store to `ring_enabled_`. -/
def flush (s : Cluster ι θ) (t : θ) (r : ι) : Cluster ι θ :=
  let q := SingleLinkListImpl.pushBackList s.mem (s.queue (r, .localQueue)) (s.queue (r, .globalQueue))
  { s with
    mem := q.1
    queue := Function.update (Function.update s.queue (r, .localQueue) q.2.1) (r, .globalQueue) .new
    rt := Function.update s.rt r { s.rt r with ringEnabled := true }
    place := Function.update s.place t (.top r) }

def tick (s : Cluster ι θ) (t : θ) (r : ι) : Cluster ι θ :=
  let x := s.rt r
  if x.eventInterval ≤ x.tickCount + 1 then (s.setRt r { x with tickCount := 0 }).setPlace t (.reap r .pick)
  else (s.setRt r { x with tickCount := x.tickCount + 1 }).setPlace t (.pick r)

/-- Run an item, leave `run()`, or submit and wait. -/
def pick (s : Cluster ι θ) (t : θ) (r : ι) : Cluster ι θ :=
  let x := s.rt r
  let q := SingleLinkListImpl.popFront s.mem (s.queue (r, .localQueue))
  match q.1 with
  | some w =>
    { s with
      mem := q.2.1
      queue := Function.update s.queue (r, .localQueue) q.2.2
      invoked := s.invoked ++ [w]
      place := Function.update s.place t (.work r) }
  | none =>
    if x.pendingWorks = 0 ∧ x.exitAllowed = true then
      (s.setRt r { x with tickCount := 0, exitAllowed := false }).setPlace t .outside
    else (s.setRt r x.submit).setPlace t (.wait r)

/-- `process_cqe_` on the completion `c`, with the completions `cs` behind it. -/
def processCqe (s : Cluster ι θ) (t : θ) (r : ι) (next : After) (c : Completion ι) (cs : List (Completion ι)) :
    Cluster ι θ :=
  let x := { s.rt r with cq := cs }
  match decodeWork c.userData with
  | (_, some .ignore) | (_, some .cancel) => s.setRt r x
  | (data, some .schedule) =>
    if data = 0 then
      if c.res < 0 then { s with panicked := true } else s.setRt r x.resumeWork
    else { (s.setRt r x).setPlace t (.handler r next) with invoked := s.invoked ++ [data] }
  | (_, some .common) => (s.setRt r x).setPlace t (.handler r next)
  | (_, none) => { s with panicked := true }

def reap (s : Cluster ι θ) (t : θ) (r : ι) (next : After) : Cluster ι θ :=
  match (s.rt r).cq with
  | [] => s.setPlace t (.after r next)
  | c :: cs => s.processCqe t r next c cs

/-- A step of the loop of `run()`. -/
def loopStep (s : Cluster ι θ) (t : θ) : Option (Cluster ι θ) :=
  match s.place t with
  | .flush r => some (s.flush t r)
  | .top r => some (s.tick t r)
  | .pick r => some (s.pick t r)
  | .wait r => if (s.rt r).cq = [] then none else some (s.setPlace t (.reap r .top))
  | .reap r next => some (s.reap t r next)
  | .work r => if s.call t = none then some (s.setPlace t (.top r)) else none
  | .handler r next => if s.call t = none then some (s.setPlace t (.reap r next)) else none
  | .outside => none

/-! ### The kernel -/

/-- The next request that was handed over is executed, with this result. -/
def exec (s : Cluster ι θ) (r : ι) (res : ℤ) : Option (Cluster ι θ) :=
  let x := s.rt r
  match x.handed with
  | [] => none
  | m :: ms =>
    if res < 0 then
      some (s.setRt r { x with handed := ms, cq := x.cq ++ [⟨encodeWork 0 .schedule, res, some m⟩] })
    else if (s.rt m.target).ringOpen = false then none
    else
      let s := s.setRt r { x with handed := ms, acks := x.acks + 1 }
      let y := s.rt m.target
      some (s.setRt m.target { y with inbox := y.inbox ++ [m.data] })

/-- The own completion of a message that was sent. -/
def ack (s : Cluster ι θ) (r : ι) : Option (Cluster ι θ) :=
  let x := s.rt r
  if x.acks = 0 then none
  else some (s.setRt r { x with acks := x.acks - 1, cq := x.cq ++ [⟨encodeWork 0 .schedule, 0, none⟩] })

/-- A message arrives. -/
def arrive (s : Cluster ι θ) (r : ι) (i : ℕ) : Option (Cluster ι θ) :=
  let x := s.rt r
  (x.inbox[i]?).map fun d => s.setRt r { x with inbox := x.inbox.eraseIdx i, cq := x.cq ++ [⟨d, 0, none⟩] }

/-! ### Steps -/

inductive Op (ι θ : Type) where
  | schedule (t : θ) (target : ι) (w : ℕ)
  | allowExit (t : θ) (target : ι)
  | cancel (t : θ) (target : ι) (data : ℕ)
  | call (t : θ) (ok : Bool)
  | run (t : θ) (r : ι) (ok : Bool)
  | loop (t : θ)
  /-- Other things that happen on the thread of a runtime. -/
  | submit (t : θ) | pend (t : θ) | resume (t : θ) | complete (t : θ)
  | exec (r : ι) (res : ℤ) | ack (r : ι) | arrive (r : ι) (i : ℕ)
deriving DecidableEq, Repr

/-- The runtime in whose user code the thread is. -/
def userOf (s : Cluster ι θ) (t : θ) : Option ι := if (s.place t).user then (s.place t).runtime else none

def act (s : Cluster ι θ) : Op ι θ → Option (Cluster ι θ)
  | .schedule t target w => s.scheduleInternal t target w
  | .allowExit t target => s.allowExit t target
  | .cancel t target data => s.cancelInternal t target data
  | .call t ok => s.callStep t ok
  | .run t r ok => s.run t r ok
  | .loop t => s.loopStep t
  | .submit t => (s.userOf t).map fun r => s.setRt r (s.rt r).submit
  | .pend t => (s.userOf t).map fun r =>
      s.setRt r { s.rt r with pendingWorks := (s.rt r).pendingWorks + 1, works := (s.rt r).works + 1 }
  | .resume t => (s.userOf t).bind fun r =>
      if (s.rt r).works = 0 then none else some (s.setRt r { (s.rt r).resumeWork with works := (s.rt r).works - 1 })
  | .complete t =>
    match s.place t with
    | .reap r next => some (s.setPlace t (.handler r next))
    | .wait r => some (s.setPlace t (.handler r .top))
    | _ => none
  | .exec r res => s.exec r res
  | .ack r => s.ack r
  | .arrive r i => s.arrive r i

/-- After a panic nothing happens any more. -/
def step (s : Cluster ι θ) (op : Op ι θ) : Option (Cluster ι θ) := if s.panicked then none else s.act op

end Cluster

end Condy
