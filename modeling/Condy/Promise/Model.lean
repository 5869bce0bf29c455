import Condy.Lib.Run
import Mathlib.Data.Nat.Notation

/-!
# Condy.Promise.Model — the end of a spawned coroutine and its consumer

`final_suspend` of a spawned coroutine runs against one action of its `Task`: `request_detach`, or `request_join` by
`co_await` or `wait()`.  Both retry a weak compare-exchange on `state_`, which lies in the coroutine frame with the
union of `caller_handle_` and `callback_`.  Each load, exchange and access to the frame is a step of its own; `spurious`
in the label makes an exchange fail though the values agree.
-/

namespace Condy

/-- `PromiseBase::State`. -/
inductive PromiseState where
  | idle | runningJoinable | runningDetached | runningJoining | zombie | finished
deriving DecidableEq, Repr

/-- The member of the union that was written last. -/
inductive Slot where
  | callerHandle | callback
deriving DecidableEq, Repr

inductive Action where
  | detach | join
deriving DecidableEq, Repr

/-- The place of the coroutine's thread: in the body, or in `FinalAwaiter::await_suspend`. -/
inductive Final where
  | body
  | load
  | branch (expected : PromiseState)
  | cas (expected desired : PromiseState)
  | won (prev : PromiseState)
  | destroy
  | readCallback
  | invoke (target : Slot)
  | readCaller
  | done
  | panicked
deriving DecidableEq, Repr

/-- The place of the consumer: in `request_detach` or `request_join`, and for a join in what follows. -/
inductive Consumer where
  | ready
  | load
  | branch (expected : PromiseState)
  | writeCallback
  | cas (expected desired : PromiseState)
  | won (prev : PromiseState)
  /-- `request_join` returned `true`: suspended, or in `fut.get()`. -/
  | waiting
  /-- `exception()` and `value()` of the promise. -/
  | readResult
  | destroy
  | done
  | panicked
deriving DecidableEq, Repr

structure Promise where
  action : Action
  state : PromiseState
  slot : Slot
  bodyDone : Bool
  final : Final
  request : Consumer
  /-- What `request_join` returned. -/
  returned : Option Bool
  /-- How often the join callback was invoked, and the frame destroyed. -/
  callbacks : ℕ
  destroyed : ℕ
  /-- An access to the frame after it was destroyed; a call through the wrong member of the union. -/
  useAfterDestroy : Bool
  wildCall : Bool
deriving DecidableEq, Repr

namespace Promise

/-- A coroutine after `mark_running()`, to be consumed by this action. -/
def spawned (action : Action) : Promise :=
  { action, state := .runningJoinable, slot := .callerHandle, bodyDone := false, final := .body, request := .ready
    returned := none, callbacks := 0, destroyed := 0, useAfterDestroy := false, wildCall := false }

/-- An access to the frame. -/
def touch (s : Promise) : Promise := { s with useAfterDestroy := s.useAfterDestroy || decide (s.destroyed ≠ 0) }

def destroyFrame (s : Promise) : Promise := { s.touch with destroyed := s.destroyed + 1 }

/-- A step of the coroutine. -/
def finalStep (s : Promise) (spurious : Bool) : Option Promise :=
  match s.final with
  | .body => some { s.touch with bodyDone := true, final := .load }
  | .load => some { s.touch with final := .branch s.state }
  | .branch .idle => some { s with final := .readCaller }
  | .branch .runningJoinable => some { s with final := .cas .runningJoinable .zombie }
  | .branch .runningDetached => some { s with final := .cas .runningDetached .finished }
  | .branch .runningJoining => some { s with final := .cas .runningJoining .finished }
  | .branch _ => some { s with final := .panicked }
  | .cas expected desired =>
    if s.state = expected ∧ spurious = false then some { s.touch with state := desired, final := .won expected }
    else some { s.touch with final := .branch s.state }
  | .won .runningDetached => some { s with final := .destroy }
  | .won .runningJoining => some { s with final := .readCallback }
  | .won _ => some { s with final := .done }
  | .destroy => some { s.destroyFrame with final := .done }
  | .readCallback => some { s.touch with final := .invoke s.slot }
  | .invoke .callback => some { s with callbacks := s.callbacks + 1, final := .done }
  | .invoke .callerHandle => some { s with wildCall := true, final := .done }
  | .readCaller => some { s.touch with final := .done }
  | .done | .panicked => none

/-- A step of the consumer.  A join that has to wait goes on when its callback was invoked. -/
def requestStep (s : Promise) (spurious : Bool) : Option Promise :=
  match s.request with
  | .ready => some { s with request := .load }
  | .load => some { s.touch with request := .branch s.state }
  | .branch .runningJoinable =>
    match s.action with
    | .detach => some { s with request := .cas .runningJoinable .runningDetached }
    | .join => some { s with request := .writeCallback }
  | .branch .zombie => some { s with request := .cas .zombie .finished }
  | .branch _ => some { s with request := .panicked }
  | .writeCallback => some { s.touch with slot := .callback, request := .cas .runningJoinable .runningJoining }
  | .cas expected desired =>
    if s.state = expected ∧ spurious = false then some { s.touch with state := desired, request := .won expected }
    else some { s.touch with request := .branch s.state }
  | .won prev =>
    match s.action with
    | .detach => some { s with request := if prev = .zombie then .destroy else .done }
    | .join => some { s with
        returned := some (decide (prev ≠ .zombie)), request := if prev = .zombie then .readResult else .waiting }
  | .waiting => if s.callbacks = 0 then none else some { s with request := .readResult }
  | .readResult => some { s.touch with request := .destroy }
  | .destroy => some { s.destroyFrame with request := .done }
  | .done | .panicked => none

inductive Op where
  | final (spurious : Bool)
  | request (spurious : Bool)
deriving DecidableEq, Repr

def step (s : Promise) : Op → Option Promise
  | .final spurious => s.finalStep spurious
  | .request spurious => s.requestStep spurious

end Promise

end Condy
