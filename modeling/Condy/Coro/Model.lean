import Condy.Coro.Ledger
import Condy.Promise.Model

/-!
# Condy.Coro.Model — coroutines on any number of runtimes

The frames of `Coro` and `Task` coroutines (`detail/coro.hpp`, `detail/task.hpp`) and the threads of the runtimes that
resume them.  A coroutine is suspended at a `Point`, which holds the awaiter that lives in its frame.  The parts of
`await_suspend` and `await_resume` that touch a frame are functions of the source's names; one step runs a body up to
its next suspension point.

Below this model are two others.  `Promise.Model` takes `final_suspend` and the requests of a task apart into single
atomic accesses; here each of them is one step.  `Cluster.Model` carries a scheduled item to its runtime; here an item
is in the local queue, in the global queue of a runtime that did not run yet, or in a message, which may arrive in any
order.  Senders are those of operations, which complete in the loop, and of channels and futexes, which any thread may
complete; either may also complete inside `start`.

A task is named by its coroutine, as moves of `Task` objects do not matter here (`Promise.Tasks`); a coroutine does not
await its own task.  Moves of results do not throw: where the move constructor of a result throws in `wait()` or
`await_resume`, the frame is not destroyed.
-/

namespace Condy.Coro

/-! ## Awaiters and frames -/

/-- A `std::coroutine_handle<>`. -/
inductive Handle where
  | noop | null
  | frame (f : ℕ)
deriving DecidableEq, Repr

/-- The handles of `std::noop_coroutine()` are taken to compare equal, which the C++ standard leaves open:
`await_suspend` compares the one of the awaiter with a new one. -/
structure SenderAwaiter where
  handle : Handle
  result : Option ℤ
deriving DecidableEq, Repr

namespace SenderAwaiter

def new : SenderAwaiter := ⟨.noop, none⟩

/-- `handle_result_`: the awaiter behind it, and the handle it resumes. -/
def handleResult (a : SenderAwaiter) (res : ℤ) : SenderAwaiter × Handle := (⟨.null, some res⟩, a.handle)

/-- The exchange of `await_suspend`, behind `start(0)`, and whether the coroutine stays suspended. -/
def awaitSuspend (a : SenderAwaiter) (f : ℕ) : SenderAwaiter × Bool :=
  (⟨.frame f, a.result⟩, decide (a.handle = .noop))

end SenderAwaiter

/-- What a join leaves to be invoked: the awaiter in the frame `f`, to be resumed on `r`, or a thread in `wait()`. -/
inductive Callback (ι : Type) where
  | taskAwaiter (f : ℕ) (r : ι)
  | taskWaiter
deriving DecidableEq, Repr

/-- The union of `caller_handle_` and `callback_`. -/
inductive Union (ι : Type) where
  | callerHandle (h : Handle)
  | callback (c : Callback ι)
deriving DecidableEq, Repr

/-- Where a coroutine stands. -/
inductive Point (ι V E : Type) where
  | initial (b : Body ι V E)
  | running (b : Body ι V E)
  /-- In `co_await` of the coroutine `callee`, which was called with the body `b`. -/
  | call (callee : ℕ) (b : Body ι V E) (k : Outcome V E → Body ι V E)
  /-- In `co_await` of a sender that was started on `r`. -/
  | sender (op : ℕ) (r : ι) (awaiter : SenderAwaiter) (k : ℤ → Body ι V E)
  /-- In `co_await` of the task `t`, on `r`. -/
  | task (t : ℕ) (r : ι) (k : Outcome V E → Body ι V E)
  | switched (b : Body ι V E)
  | final

/-- The sender that a coroutine awaits, or awaits next. -/
def Point.asks {ι V E : Type} : Point ι V E → Option ℕ
  | .sender op _ _ _ | .running (.sender op _) => some op
  | _ => none

structure Frame (ι V E : Type) where
  state : PromiseState
  union : Union ι
  exception : Option (Error E)
  value : Option V
  point : Point ι V E
  /-- What no definition of the code reads: the body, the task it belongs to, what that task did before this coroutine
  began, and what was done in it and in the coroutines it called that have returned. -/
  body : Body ι V E
  root : ℕ
  before : List (Event ι V E)
  trace : List (Event ι V E)

/-- What `exception()` and `value()` give; `none` is `std::bad_optional_access`. -/
def Frame.outcome {ι V E : Type} (fr : Frame ι V E) : Option (Outcome V E) :=
  match fr.exception with
  | some e => some (.error e)
  | none => fr.value.map .ok

/-- A frame at its initial suspension point. -/
def Frame.new {ι V E : Type} (body : Body ι V E) (root : ℕ) (before : List (Event ι V E)) : Frame ι V E :=
  { state := .idle, union := .callerHandle .noop, exception := none, value := none, point := .initial body
    body, root, before, trace := [] }

/-! ## Runtimes -/

/-- What `run()` does when a coroutine it resumed is suspended: go on with the loop, or first give back the count of the
operation that completed. -/
inductive Ret where
  | work | op
deriving DecidableEq, Repr

inductive Control where
  | outside
  | loop
  | running (f : ℕ) (ret : Ret)
deriving DecidableEq, Repr

structure Rt where
  control : Control
  ringEnabled : Bool
  exitAllowed : Bool
  pendingWorks : ℕ
  /-- Own messages whose completion is still to come. -/
  acks : ℕ
deriving DecidableEq, Repr

/-- An item to invoke: a promise, or the finish handle of a channel or futex wait with its result. -/
inductive Work where
  | promise (f : ℕ)
  | waiter (f : ℕ) (res : ℤ)
deriving DecidableEq, Repr

inductive QueueId (ι : Type) where
  | localQueue (r : ι) | globalQueue (r : ι) | mail (r : ι)
deriving DecidableEq, Repr

/-- `panic_on`, by its message. -/
inductive Panic where
  | unhandledException (f : ℕ)
  | taskDestroyed (t : ℕ)
  | invalidState
deriving DecidableEq, Repr

structure Machine (ι V E : Type) where
  rt : ι → Rt
  queue : QueueId ι → List Work
  frames : ℕ → Option (Frame ι V E)
  nextFrame : ℕ
  /-- The tasks that hold their handle, the frames that threads in `wait()` hold, and those whose handle is lost. -/
  tasks : List ℕ
  waiters : List ℕ
  orphans : List ℕ
  /-- The started senders that have not completed: operations, and channel and futex waits. -/
  kernel : List (ι × ℕ)
  waits : List (ι × ℕ)
  panicked : Option Panic
  /-- A handle was used that is null, or whose coroutine is not suspended or is gone. -/
  fault : Bool
  /-- What happened so far: the tasks that were spawned, that ended, and whose handle was moved out or given up; what
  coroutines, threads outside and senders did to each other; the frames destroyed; the awaits that pend work; the results
  of `wait()`. -/
  spawned : List (ℕ × Body ι V E)
  ended : List (ℕ × Outcome V E)
  taken : List ℕ
  log : List (Entry ι V E)
  destroyed : List ℕ
  pended : List (ι × ℕ)
  waited : List (ℕ × Outcome V E)

namespace Machine

variable {ι V E : Type}

def init : Machine ι V E :=
  { rt := fun _ => ⟨.outside, false, false, 0, 0⟩, queue := fun _ => [], frames := fun _ => none, nextFrame := 0
    tasks := [], waiters := [], orphans := [], kernel := [], waits := [], panicked := none, fault := false
    spawned := [], ended := [], taken := [], log := [], destroyed := [], pended := [], waited := [] }

/-- What the coroutines of a task did, in order. -/
def eventsOf (s : Machine ι V E) (t : ℕ) : List (Event ι V E) := s.log.filterMap (Entry.eventOf t)

def note (s : Machine ι V E) (l : List (Entry ι V E)) : Machine ι V E := { s with log := s.log ++ l }

def faulty (s : Machine ι V E) : Machine ι V E := { s with fault := true }

def setFrame (s : Machine ι V E) (f : ℕ) (fr : Frame ι V E) : Machine ι V E :=
  { s with frames := Function.update s.frames f (some fr) }

variable [DecidableEq ι]

def setRt (s : Machine ι V E) (r : ι) (x : Rt) : Machine ι V E := { s with rt := Function.update s.rt r x }

def setControl (s : Machine ι V E) (r : ι) (c : Control) : Machine ι V E := s.setRt r { s.rt r with control := c }

def pendWork (s : Machine ι V E) (r : ι) : Machine ι V E :=
  s.setRt r { s.rt r with pendingWorks := (s.rt r).pendingWorks + 1 }

/-- `resume_work_internal`, on a counter of 64 bits. -/
def resumeWork (s : Machine ι V E) (r : ι) : Machine ι V E :=
  s.setRt r { s.rt r with
    pendingWorks := if (s.rt r).pendingWorks = 0 then 2 ^ 64 - 1 else (s.rt r).pendingWorks - 1 }

def push (s : Machine ι V E) (q : QueueId ι) (w : Work) : Machine ι V E :=
  { s with queue := Function.update s.queue q (s.queue q ++ [w]) }

/-- `schedule_internal` of the runtime `r`, on a thread in `run()` of `here` or outside of any. -/
def schedule (s : Machine ι V E) (here : Option ι) (r : ι) (w : Work) : Machine ι V E :=
  if here = some r then s.push (.localQueue r) w
  else if (s.rt r).ringEnabled then
    match here with
    | none => s.push (.mail r) w
    | some h =>
      (s.setRt h { s.rt h with pendingWorks := (s.rt h).pendingWorks + 1, acks := (s.rt h).acks + 1 }).push (.mail r) w
  else s.push (.globalQueue r) w

/-! ## Suspending and resuming -/

/-- `handle.destroy()` with `~PromiseBase`. -/
def destroy (s : Machine ι V E) (f : ℕ) : Machine ι V E :=
  match s.frames f with
  | none => s.faulty
  | some fr =>
    { s with
      frames := Function.update s.frames f none
      destroyed := s.destroyed ++ [f]
      panicked := if fr.exception.isSome then some (.unhandledException f) else s.panicked }

/-- `exception()` or `value()`, and `destroy()`.  The exception was moved out, so `~PromiseBase` finds none. -/
def collect (s : Machine ι V E) (g : ℕ) : Option (Outcome V E × Machine ι V E) :=
  (s.frames g).bind fun gf => gf.outcome.map fun o => (o, (s.setFrame g { gf with exception := none }).destroy g)

/-- The thread of `r` is back in `run()`. -/
def suspend (s : Machine ι V E) (r : ι) (ret : Ret) : Machine ι V E :=
  match ret with
  | .work => s.setControl r .loop
  | .op => (s.resumeWork r).setControl r .loop

/-- The coroutine `f` goes on with `b` on the thread of `r`. -/
def proceed (s : Machine ι V E) (r : ι) (f : ℕ) (fr : Frame ι V E) (b : Body ι V E) (ret : Ret) : Machine ι V E :=
  (s.setFrame f { fr with point := .running b }).setControl r (.running f ret)

/-- `h.resume()`, with the `await_resume` of the awaiter that the coroutine is suspended in. -/
def resume (s : Machine ι V E) (r : ι) (f : ℕ) (ret : Ret) : Machine ι V E :=
  match s.frames f with
  | none => s.faulty
  | some fr =>
    match fr.point with
    | .initial b | .switched b => s.proceed r f fr b ret
    | .sender op r' a k =>
      match a.result with
      | none => s.faulty
      | some res =>
        ({ s.note [.body fr.root (.sender op res)] with pended := s.pended.erase (r', f) } : Machine ι V E).proceed
          r f { fr with trace := fr.trace ++ [.sender op res] } (k res) ret
    | .call g _ k =>
      match s.collect g with
      | none => s.faulty
      | some (o, s') =>
        s'.proceed r f { fr with trace := fr.trace ++ ((s.frames g).map Frame.trace).getD [] } (k o) ret
    | .task t r' k =>
      match (s.resumeWork r).collect t with
      | none => s.faulty
      | some (o, s') => ({ s' with pended := s'.pended.erase (r', f) } : Machine ι V E).proceed r f fr (k o) ret
    | .running _ | .final => s.faulty

/-- The receiver of a `SenderAwaiter` that lives in `f` is called. -/
def receive (s : Machine ι V E) (r : ι) (f : ℕ) (res : ℤ) (ret : Ret) : Machine ι V E :=
  match s.frames f with
  | none => s.faulty
  | some fr =>
    match fr.point with
    | .sender op r' a k =>
      let x := a.handleResult res
      let s := s.setFrame f { fr with point := .sender op r' x.1 k }
      match x.2 with
      | .frame g => s.resume r g ret
      | .noop => s.suspend r ret
      | .null => s.faulty
    | _ => s.faulty

def invoke (s : Machine ι V E) (r : ι) : Work → Machine ι V E
  | .promise f => s.resume r f .work
  | .waiter f res => (s.resumeWork r).receive r f res .work

/-! ## The parts of a body -/

/-- How `start` of a sender ends: with the result, or with the operation or the wait under way. -/
inductive Start where
  | inline (res : ℤ)
  | kernel | waits
deriving DecidableEq, Repr

/-- `FinalAwaiter::await_suspend` of the frame `fr` of `f`, in which the result is stored. -/
def finalSuspend (s : Machine ι V E) (r : ι) (f : ℕ) (fr : Frame ι V E) (ret : Ret) : Machine ι V E :=
  let endsAs : PromiseState → Machine ι V E := fun st =>
    { s.setFrame f { fr with state := st } with ended := s.ended ++ (fr.outcome.map (f, ·)).toList }
  match fr.state with
  | .idle =>
    match fr.union with
    | .callerHandle (.frame c) => (s.setFrame f fr).resume r c ret
    | .callerHandle .noop => (s.setFrame f fr).suspend r ret
    | _ => s.faulty
  | .runningJoinable => (endsAs .zombie).suspend r ret
  | .runningDetached => ((endsAs .finished).destroy f).suspend r ret
  | .runningJoining =>
    match fr.union with
    | .callback (.taskAwaiter c r') => ((endsAs .finished).schedule (some r) r' (.promise c)).suspend r ret
    | .callback .taskWaiter => (endsAs .finished).suspend r ret
    | .callerHandle _ => s.faulty
  | .zombie | .finished => { s with panicked := some .invalidState }

/-- `co_await` of a coroutine: its frame is made, and `await_suspend` stores the caller and transfers to it. -/
def callCoro (s : Machine ι V E) (r : ι) (f : ℕ) (fr : Frame ι V E) (ret : Ret) (callee : Body ι V E)
    (k : Outcome V E → Body ι V E) : Machine ι V E :=
  let g := s.nextFrame
  let gf := { Frame.new callee fr.root (fr.before ++ fr.trace) with union := .callerHandle (.frame f) }
  ({ s.setFrame f { fr with point := .call g callee k } with nextFrame := g + 1 } : Machine ι V E).proceed r g gf callee ret

/-- `SenderAwaiter::await_suspend`. -/
def awaitSender (s : Machine ι V E) (r : ι) (f : ℕ) (fr : Frame ι V E) (ret : Ret) (op : ℕ) (k : ℤ → Body ι V E)
    (how : Start) : Machine ι V E :=
  let started : Machine ι V E × SenderAwaiter :=
    match how with
    | .inline res => (s.note [.answer fr.root op res], (SenderAwaiter.new.handleResult res).1)
    | .kernel => ({ s.pendWork r with kernel := s.kernel ++ [(r, f)], pended := s.pended ++ [(r, f)] }, .new)
    | .waits => ({ s.pendWork r with waits := s.waits ++ [(r, f)], pended := s.pended ++ [(r, f)] }, .new)
  let x := started.2.awaitSuspend f
  let s := started.1.setFrame f { fr with point := .sender op r x.1 k }
  if x.2 then s.suspend r ret else s.resume r f ret

/-- `co_spawn`: `mark_running()`, `schedule_internal`, and the task. -/
def coSpawn (s : Machine ι V E) (here : Option ι) (r : ι) (callee : Body ι V E) : Machine ι V E :=
  let g := s.nextFrame
  let s := s.setFrame g { Frame.new callee g [] with state := .runningJoinable }
  ({ s with nextFrame := g + 1, tasks := s.tasks ++ [g], spawned := s.spawned ++ [(g, callee)] } : Machine ι V E).schedule
    here r (.promise g)

/-- `std::exchange(handle_, nullptr)`. -/
def take (s : Machine ι V E) (t : ℕ) : Machine ι V E := { s with tasks := s.tasks.erase t, taken := s.taken ++ [t] }

/-- The frame of the coroutine that the thread runs goes on with `b`; `l` is what it did in between. -/
def goOn (s : Machine ι V E) (f : ℕ) (l : List (Event ι V E)) (b : Body ι V E) : Machine ι V E :=
  match s.frames f with
  | none => s.faulty
  | some fr => (s.setFrame f { fr with point := .running b, trace := fr.trace ++ l }).note (l.map (.body fr.root))

/-- `co_await` of a task.  `request_join` returns `false` for a zombie, whose result is read at once. -/
def awaitTask (s : Machine ι V E) (r : ι) (f : ℕ) (fr : Frame ι V E) (ret : Ret) (t : ℕ)
    (k : Outcome V E → Body ι V E) : Option (Machine ι V E) :=
  if t = f then none
  else if t ∈ s.tasks then
    let s := (((s.take t).pendWork r).setFrame f { fr with point := .task t r k, trace := fr.trace ++ [.join t] }).note
      [.body fr.root (.join t)]
    match s.frames t with
    | none => some s.faulty
    | some tf =>
      match tf.state with
      | .runningJoinable => some
        (({ s.setFrame t { tf with state := .runningJoining, union := .callback (.taskAwaiter f r) } with
          pended := s.pended ++ [(r, f)] } : Machine ι V E).suspend r ret)
      | .zombie => some ((s.setFrame t { tf with state := .finished }).resume r f ret)
      | _ => some { s with panicked := some .invalidState }
  else if t ∈ s.taken then some (s.goOn f [.refused t] (k (.error .notJoinable)))
  else none

/-- `request_detach`; `detach()` is not defined without a handle. -/
def detach (s : Machine ι V E) (t : ℕ) : Option (Machine ι V E) :=
  if t ∈ s.tasks then
    let s := s.take t
    match s.frames t with
    | none => some s.faulty
    | some tf =>
      match tf.state with
      | .runningJoinable => some (s.setFrame t { tf with state := .runningDetached })
      | .zombie => some ((s.setFrame t { tf with state := .finished }).destroy t)
      | _ => some { s with panicked := some .invalidState }
  else none

/-- `wait()` on the thread of a runtime.  The handle is moved out before `wait_inner_` throws. -/
def waitInside (s : Machine ι V E) (t : ℕ) : Option (Machine ι V E) :=
  if t ∈ s.tasks then some { s.take t with orphans := s.orphans ++ [t] }
  else if t ∈ s.taken then some s
  else none

/-- `~Task`. -/
def drop (s : Machine ι V E) (t : ℕ) : Machine ι V E :=
  if t ∈ s.tasks then { s with panicked := some (.taskDestroyed t) } else s

/-- The coroutine `f` on the thread of `r` runs up to its next suspension point, call or end. -/
def execBody (s : Machine ι V E) (r : ι) (f : ℕ) (fr : Frame ι V E) (ret : Ret) (how : Start) :
    Body ι V E → Option (Machine ι V E)
  | .coReturn v => some (s.finalSuspend r f { fr with value := some v, point := .final } ret)
  | .throw e => some (s.finalSuspend r f { fr with exception := some e, point := .final } ret)
  | .call callee k => some (s.callCoro r f fr ret callee k)
  | .sender op k => some (s.awaitSender r f fr ret op k how)
  | .spawn r' callee k => some ((s.coSpawn (some r) r' callee).goOn f [.spawn s.nextFrame callee] (k s.nextFrame))
  | .join t k => s.awaitTask r f fr ret t k
  | .detach t k => (s.detach t).map (·.goOn f [.detach t] k)
  | .wait t k => (s.waitInside t).map (·.goOn f [.wait t] (k (.error .insideRuntime)))
  | .drop t k => some ((s.drop t).goOn f [] k)
  | .switch r' k =>
    some (((s.setFrame f { fr with point := .switched k }).schedule (some r) r' (.promise f)).suspend r ret)

/-! ## Steps -/

inductive Op (ι V E : Type) where
  /-- The thread of a runtime: the beginning of `run()`, an item of the local queue, a message, the completion of an
  operation or of an own message, the end of `run()`; and the coroutine on it. -/
  | run (r : ι)
  | pop (r : ι)
  | message (r : ι) (i : ℕ)
  | complete (r : ι) (i : ℕ) (res : ℤ)
  | ack (r : ι)
  | quit (r : ι)
  | exec (r : ι) (how : Start)
  /-- A channel or futex wait completes, by a thread in `run()` of `here` or outside of any. -/
  | wake (here : Option ι) (i : ℕ) (res : ℤ)
  /-- Threads outside of any runtime.  `wait()` ends at once for a zombie, and else with `waitReturn`. -/
  | coSpawn (r : ι) (b : Body ι V E)
  | allowExit (r : ι)
  | detach (t : ℕ)
  | wait (t : ℕ)
  | waitReturn (t : ℕ)

/-- `wait()` returns: the result is read and the frame destroyed. -/
def waitCollect (s : Machine ι V E) (t : ℕ) : Machine ι V E :=
  match s.collect t with
  | none => s.faulty
  | some (o, s') => { s' with waited := s'.waited ++ [(t, o)] }

/-- `wait()` on a thread that runs no runtime; it throws for a task that has no handle. -/
def wait (s : Machine ι V E) (t : ℕ) : Option (Machine ι V E) :=
  if t ∈ s.tasks then
    let s := s.take t
    match s.frames t with
    | none => some s.faulty
    | some tf =>
      match tf.state with
      | .runningJoinable => some
        { s.setFrame t { tf with state := .runningJoining, union := .callback .taskWaiter } with
          waiters := s.waiters ++ [t] }
      | .zombie => some ((s.setFrame t { tf with state := .finished }).waitCollect t)
      | _ => some { s with panicked := some .invalidState }
  else if t ∈ s.taken then some { s with waited := s.waited ++ [(t, .error .notJoinable)] }
  else none

/-- The task of `f` and the sender that it awaits. -/
def asked (s : Machine ι V E) (f : ℕ) : Option (ℕ × ℕ) :=
  (s.frames f).bind fun fr => fr.point.asks.map (fr.root, ·)

/-- The sender that `f` awaits completes with `res`. -/
def answer (s : Machine ι V E) (f : ℕ) (res : ℤ) : List (Entry ι V E) :=
  ((s.asked f).map fun x => .answer x.1 x.2 res).toList

def act (s : Machine ι V E) : Op ι V E → Option (Machine ι V E)
  | .run r =>
    if (s.rt r).control ≠ .outside then none
    else some { s with
      rt := Function.update s.rt r { s.rt r with control := .loop, ringEnabled := true }
      queue := Function.update (Function.update s.queue (.localQueue r)
        (s.queue (.localQueue r) ++ s.queue (.globalQueue r))) (.globalQueue r) [] }
  | .pop r =>
    match (s.rt r).control, s.queue (.localQueue r) with
    | .loop, w :: ws => some (({ s with queue := Function.update s.queue (.localQueue r) ws } : Machine ι V E).invoke r w)
    | _, _ => none
  | .message r i =>
    match (s.rt r).control, (s.queue (.mail r))[i]? with
    | .loop, some w => some (({ s with
        queue := Function.update s.queue (.mail r) ((s.queue (.mail r)).eraseIdx i) } : Machine ι V E).invoke r w)
    | _, _ => none
  | .complete r i res =>
    match (s.rt r).control, s.kernel[i]? with
    | .loop, some (r', f) =>
      if r' = r then
        some (({ s.note (s.answer f res) with kernel := s.kernel.eraseIdx i } : Machine ι V E).receive r f res .op)
      else none
    | _, _ => none
  | .ack r =>
    if (s.rt r).control = .loop ∧ 0 < (s.rt r).acks then
      some ((s.setRt r { s.rt r with acks := (s.rt r).acks - 1 }).resumeWork r)
    else none
  | .quit r =>
    if (s.rt r).control = .loop ∧ s.queue (.localQueue r) = [] ∧ (s.rt r).pendingWorks = 0 ∧
        (s.rt r).exitAllowed = true then
      some (s.setRt r { s.rt r with control := .outside, exitAllowed := false })
    else none
  | .exec r how =>
    match (s.rt r).control with
    | .running f ret =>
      match s.frames f with
      | none => some s.faulty
      | some fr =>
        match fr.point with
        | .running b => s.execBody r f fr ret how b
        | _ => some s.faulty
    | _ => none
  | .wake here i res =>
    if ∃ r ∈ here, (s.rt r).control = .outside then none
    else (s.waits[i]?).map fun x =>
      ({ s.note (s.answer x.2 res) with waits := s.waits.eraseIdx i } : Machine ι V E).schedule here x.1 (.waiter x.2 res)
  | .coSpawn r b => some ((s.coSpawn none r b).note [.outside (.spawn s.nextFrame b)])
  | .allowExit r => some (s.setRt r { s.rt r with exitAllowed := true })
  | .detach t => (s.detach t).map (·.note [.outside (.detach t)])
  | .wait t => (s.wait t).map (·.note [.outside (.wait t)])
  | .waitReturn t =>
    if t ∈ s.waiters ∧ (s.frames t).map Frame.state = some .finished then
      some (({ s with waiters := s.waiters.erase t } : Machine ι V E).waitCollect t)
    else none

/-- After a panic nothing happens any more. -/
def step (s : Machine ι V E) (op : Op ι V E) : Option (Machine ι V E) :=
  if s.panicked.isSome then none else s.act op

end Machine

end Condy.Coro
