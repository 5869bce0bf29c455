import Condy.Errno
import Condy.Intrusive
import Condy.Lib.Run

/-!
# Condy.Futex.Model — `condy::Futex<T>` and its finish handles

One step is one critical section under `mutex_`, or one of the pieces of code outside it: a store to the atomic, the
completion at the end of `notify_one`, one turn of the loop of `notify_all_`, and the second half of
`WaitFinishHandle::cancel_`.  The waiting lists are intrusive: the links of the waiters are in `mem`, and the private
list that a call of `notify_all_` fills by moving `wait_awaiters_` holds the same nodes.

`log` records what happened, for the statements below; `mem.asserts` is the conjunction of all assertions.
-/

namespace Condy

open Lib

/-- Why a waiter was taken out of the list it was in. -/
inductive WaitCause where
  /-- By a notifier, which reports `res`. -/
  | notified (res : ℤ)
  | cancelled
  deriving DecidableEq, Repr

/-- `WaitFinishHandleBase`, on some runtime; `sets` and `scheduled` count the assignments to `result_` and the calls of
`schedule_internal`. -/
structure WaitHandle where
  result : ℤ
  sets : ℕ
  scheduled : ℕ
  deriving DecidableEq

namespace WaitHandle

def new : WaitHandle := { result := -ENOTRECOVERABLE, sets := 0, scheduled := 0 }

def setResult (h : WaitHandle) (res : ℤ) : WaitHandle := { h with result := res, sets := h.sets + 1 }

def schedule (h : WaitHandle) : WaitHandle := { h with scheduled := h.scheduled + 1 }

end WaitHandle

inductive FutexEvent (V : Type) where
  | store (v : V)
  /-- `request_wait_` put the waiter into the list, or returned zero. -/
  | enqueued (w : ℕ) (old : V)
  | unequal (w : ℕ) (old : V)
  /-- The locked step of `notify_one`, and the waiter it found. -/
  | one (w : Option ℕ)
  /-- The locked step of `notify_all_` call `n`. -/
  | all (n : ℕ)
  /-- The waiter was taken out of the list it was in. -/
  | left (w : ℕ) (why : WaitCause)

structure Futex (V : Type) where
  /-- The atomic behind `futex_`. -/
  value : V
  mem : Mem ℕ
  /-- `none`: `wait_awaiters_`; `some n`: the local `handles` of `notify_all_` call `n`. -/
  lists : Option ℕ → DoubleLinkListImpl ℕ
  /-- The result that a running call of `notify_all_` reports. -/
  results : ℕ → Option ℤ
  waiters : ℕ → WaitHandle
  /-- Popped by a `notify_one` that has yet to complete the waiter. -/
  notifying : List ℕ
  /-- Removed by `cancel_`, which has yet to set the result. -/
  cancelling : List ℕ
  destroyed : Bool
  log : List (FutexEvent V)

namespace Futex

variable {V : Type}

/-! ## Reading the log -/

/-- The waiters whose request took the lock. -/
def requested (log : List (FutexEvent V)) : List ℕ :=
  log.filterMap (fun | .enqueued w _ => some w | .unequal w _ => some w | _ => none)

def waits (log : List (FutexEvent V)) (w : ℕ) : Bool :=
  log.any (fun | .enqueued w' _ => w' == w | _ => false)

def causes (log : List (FutexEvent V)) (w : ℕ) : List WaitCause :=
  log.filterMap (fun | .left w' why => if w' = w then some why else none | _ => none)

/-- The value of the atomic, which starts with `v`. -/
def valueAt (v : V) (log : List (FutexEvent V)) : V :=
  log.foldl (fun v e => match e with | .store v' => v' | _ => v) v

/-- Who waits in `wait_awaiters_`, starting with `q`. -/
def waitingFrom (q : List ℕ) (log : List (FutexEvent V)) : List ℕ :=
  log.foldl (fun q e => match e with
    | .enqueued w _ => q ++ [w]
    | .one (some w) => q.erase w
    | .all _ => []
    | .left w .cancelled => q.erase w
    | _ => q) q

section Readers

variable (e : FutexEvent V) (l l' : List (FutexEvent V)) (w : ℕ) (v : V) (q : List ℕ)

@[simp] theorem requested_append : requested (l ++ l') = requested l ++ requested l' :=
  List.filterMap_append
@[simp] theorem waits_append : waits (l ++ l') w = (waits l w || waits l' w) := List.any_append
@[simp] theorem causes_append : causes (l ++ l') w = causes l w ++ causes l' w := List.filterMap_append
@[simp] theorem valueAt_append : valueAt v (l ++ l') = valueAt (valueAt v l) l' := List.foldl_append
@[simp] theorem waitingFrom_append : waitingFrom q (l ++ l') = waitingFrom (waitingFrom q l) l' :=
  List.foldl_append

@[simp] theorem requested_nil : requested ([] : List (FutexEvent V)) = [] := rfl
@[simp] theorem waits_nil : waits ([] : List (FutexEvent V)) w = false := rfl
@[simp] theorem causes_nil : causes ([] : List (FutexEvent V)) w = [] := rfl
@[simp] theorem valueAt_nil : valueAt v [] = v := rfl
@[simp] theorem waitingFrom_nil : waitingFrom q ([] : List (FutexEvent V)) = q := rfl

@[simp] theorem requested_cons : requested (e :: l) =
    (match e with | .enqueued w _ => [w] | .unequal w _ => [w] | _ => []) ++ requested l := by
  cases e <;> rfl

@[simp] theorem waits_cons : waits (e :: l) w =
    ((match e with | .enqueued w' _ => w' == w | _ => false) || waits l w) := rfl

@[simp] theorem causes_cons : causes (e :: l) w =
    (match e with | .left w' why => if w' = w then [why] else [] | _ => []) ++ causes l w := by
  cases e with
  | left w' why => by_cases h : w' = w <;> simp [causes, h]
  | _ => rfl

@[simp] theorem valueAt_cons : valueAt v (e :: l) =
    valueAt (match e with | .store v' => v' | _ => v) l := by
  cases e <;> rfl

@[simp] theorem waitingFrom_cons : waitingFrom q (e :: l) =
    waitingFrom (match e with
      | .enqueued w _ => q ++ [w]
      | .one (some w) => q.erase w
      | .all _ => []
      | .left w .cancelled => q.erase w
      | _ => q) l := rfl

end Readers

/-! ## The operations -/

def emit (s : Futex V) (es : List (FutexEvent V)) : Futex V := { s with log := s.log ++ es }

def setWaiter (s : Futex V) (w : ℕ) (f : WaitHandle → WaitHandle) : Futex V :=
  { s with waiters := Function.update s.waiters w (f (s.waiters w)) }

/-- Puts back a list and the memory after an operation on them. -/
def setList (s : Futex V) (k : Option ℕ) (m : Mem ℕ) (l : DoubleLinkListImpl ℕ) : Futex V :=
  { s with mem := m, lists := Function.update s.lists k l }

/-- `request_wait_`; `-EAGAIN` when the waiter is in the list. -/
def requestWait [DecidableEq V] (s : Futex V) (w : ℕ) (old : V) : ℤ × Futex V :=
  if s.value ≠ old then (0, s)
  else
    let q := (s.lists none).pushBack s.mem w
    (-EAGAIN, s.setList none q.1 q.2)

/-- The locked part of `notify_one`. -/
def notifyOneLock (s : Futex V) : Option ℕ × Futex V :=
  let q := (s.lists none).popFront s.mem
  (q.1, s.setList none q.2.1 q.2.2)

/-- `set_result(res)` and `schedule()`. -/
def complete (s : Futex V) (w : ℕ) (res : ℤ) : Futex V :=
  s.setWaiter w (fun h => (h.setResult res).schedule)

/-- The locked part of `notify_all_`: `wait_awaiters_` is moved into the new local list. -/
def notifyAllLock (s : Futex V) (n : ℕ) (res : ℤ) : Futex V :=
  let q := (DoubleLinkListImpl.new).moveFrom s.mem (s.lists none)
  { (s.setList (some n) q.1 q.2.1).setList none q.1 q.2.2 with
    results := Function.update s.results n (some res) }

/-- One turn of the loop of `notify_all_`; the last one ends the call. -/
def notifyAllNext (s : Futex V) (n : ℕ) (res : ℤ) : Futex V :=
  let q := (s.lists (some n)).popFront s.mem
  let s := s.setList (some n) q.2.1 q.2.2
  match q.1 with
  | none => { s with results := Function.update s.results n none }
  | some w => (s.complete w res).emit [.left w (.notified res)]

/-- `cancel_wait_`. -/
def cancelWait (s : Futex V) (w : ℕ) : Bool × Futex V :=
  let q := (s.lists none).remove s.mem w
  (q.1, s.setList none q.2.1 q.2.2)

/-! ## Runs -/

inductive Op (V : Type) where
  | store (v : V)
  | requestWait (w : ℕ) (old : V)
  | notifyOne
  | notifyOneDone (w : ℕ)
  | notifyAll (n : ℕ)
  | notifyAllNext (n : ℕ)
  | cancelWait (w : ℕ)
  | cancelWaitDone (w : ℕ)
  | destroy (n : ℕ)

/-- One step.  A waiter is used once; its stop callback may run at any time once `request_wait_` has put it into the
list. -/
def step [DecidableEq V] (s : Futex V) : Op V → Option (Futex V)
  | .store v => some ({ s with value := v }.emit [.store v])
  | .requestWait w old =>
    if s.destroyed ∨ w ∈ requested s.log then none
    else
      let q := (s.setWaiter w (fun _ => WaitHandle.new)).requestWait w old
      some (q.2.emit [if q.1 = -EAGAIN then .enqueued w old else .unequal w old])
  | .notifyOne =>
    if s.destroyed then none
    else match s.notifyOneLock with
      | (none, s) => some (s.emit [.one none])
      | (some w, s) => some ({ s with notifying := s.notifying ++ [w] }.emit
          [.one (some w), .left w (.notified 0)])
  | .notifyOneDone w =>
    if w ∈ s.notifying then some { s.complete w 0 with notifying := s.notifying.erase w } else none
  | .notifyAll n =>
    if s.destroyed ∨ (s.results n).isSome then none
    else some ((s.notifyAllLock n 0).emit [.all n])
  | .notifyAllNext n => (s.results n).map (s.notifyAllNext n)
  | .cancelWait w =>
    if waits s.log w = false then none
    else if (s.cancelWait w).1 then
      some ({ (s.cancelWait w).2 with cancelling := s.cancelling ++ [w] }.emit [.left w .cancelled])
    else some (s.cancelWait w).2
  | .cancelWaitDone w =>
    if w ∈ s.cancelling then some { s.complete w (-ECANCELED) with cancelling := s.cancelling.erase w }
    else none
  | .destroy n =>
    if s.destroyed ∨ (s.results n).isSome then none
    else some { (s.notifyAllLock n (-EIDRM)).emit [.all n] with destroyed := true }

def init (v : V) : Futex V where
  value := v
  mem := { link := fun _ => ⟨none, none⟩, asserts := true }
  lists := fun _ => DoubleLinkListImpl.new
  results := fun _ => none
  waiters := fun _ => WaitHandle.new
  notifying := []
  cancelling := []
  destroyed := false
  log := []

end Futex

end Condy
