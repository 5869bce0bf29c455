import Condy.Errno
import Mathlib.Data.List.Basic
import Mathlib.Logic.Function.Basic
import Mathlib.Tactic.Common

/-!
# Condy.Channel.Model — `condy::Channel<T, N>` and its finish handles

The state holds the members of `Channel` and, by address, the finish handles of its push and pop operations.  Every
function below is one of the source's, with its branches in the source's order; the functions that take `mutex_` are
one step each.  `PushFinishHandle::cancel_` and `PopFinishHandle::cancel_` take the lock only for the removal, so they
are two steps (`cancelPush`, then `cancelPushDone`).

Three fields are bookkeeping: `asserts` is the conjunction of all `assert`s evaluated so far, `lifetimes` says that
every access to a slot so far was in range and met a slot in the right state (`construct` an empty one, `get` and
`destroy` a live one), and `log` records what happened under the lock.

`T()` is `default`.  The waiting lists are Lean lists; `Condy.Intrusive` has the pointer structure under them.
-/

namespace Condy

/-- Why an entry left its waiting list. -/
inductive Cause where
  | transferred
  | closed
  | cancelled
  deriving DecidableEq, Repr

/-- `PushFinishHandleBase`, with the object that `item_` refers to.  For `try_push` only that object matters. -/
structure PushHandle (T : Type) where
  /-- `runtime_`; `none` (null) marks the heap-allocated entry of `force_push`. -/
  runtime : Option ℕ
  item : T
  /-- The item was passed by `const` reference: what `item_` refers to is a copy. -/
  copied : Bool
  /-- The object behind `item_` has been moved from. -/
  moved : Bool
  result : ℤ
  /-- Number of assignments to `result_`. -/
  sets : ℕ
  /-- Number of calls of `schedule_internal` with this handle. -/
  scheduled : ℕ
  /-- Number of times the handle was deleted (entries of `force_push`). -/
  deleted : ℕ

namespace PushHandle

variable {T : Type}

/-- The handle of a new push, before its request. -/
def new (x : T) (copied : Bool) (rt : Option ℕ) : PushHandle T :=
  { runtime := rt, item := x, copied := copied, moved := false, result := -ENOTRECOVERABLE,
    sets := 0, scheduled := 0, deleted := 0 }

/-- `std::move` of `get_item()` into another object. -/
def take (h : PushHandle T) : PushHandle T := { h with moved := true }

/-- `set_result`. -/
def setResult (h : PushHandle T) (res : ℤ) : PushHandle T := { h with result := res, sets := h.sets + 1 }

/-- `PushFinishHandleBase::schedule`. -/
def schedule (h : PushHandle T) : PushHandle T :=
  match h.runtime with
  | none => { h with deleted := h.deleted + 1 }
  | some _ => { h with scheduled := h.scheduled + 1 }

/-- The object that the caller passed has been moved from. -/
def callerMoved (h : PushHandle T) : Bool := h.moved && !h.copied

end PushHandle

/-- `PopFinishHandleBase`. -/
structure PopHandle (T : Type) where
  runtime : Option ℕ
  result : ℤ × T
  sets : ℕ
  scheduled : ℕ

namespace PopHandle

variable {T : Type}

/-- The handle of a new pop, before its request. -/
def new [Inhabited T] (rt : Option ℕ) : PopHandle T :=
  { runtime := rt, result := (-ENOTRECOVERABLE, default), sets := 0, scheduled := 0 }

/-- `set_result`. -/
def setResult (h : PopHandle T) (res : ℤ × T) : PopHandle T := { h with result := res, sets := h.sets + 1 }

/-- `PopFinishHandleBase::schedule`, after its assertion. -/
def schedule (h : PopHandle T) : PopHandle T := { h with scheduled := h.scheduled + 1 }

end PopHandle

/-- What happens under the lock. -/
inductive Event (T : Type) where
  /-- The request of this push (of item `x`) or pop took the lock. -/
  | pushReq (r : ℕ) (x : T)
  | popReq (p : ℕ)
  /-- The push (pop) returned without suspending. -/
  | pushRet (r : ℕ) (res : ℤ)
  | popRet (p : ℕ) (res : ℤ) (x : T)
  /-- The request was appended to its waiting list. -/
  | pushWait (r : ℕ)
  | popWait (p : ℕ)
  /-- The entry left its waiting list; a pop that is `transferred` to gets `x`. -/
  | pushLeft (r : ℕ) (why : Cause)
  | popLeft (p : ℕ) (why : Cause) (x : T)

/-- `head_`, `tail_` and `buffer_`. -/
structure Buf (T : Type) where
  head : ℕ
  tail : ℕ
  capacity : ℕ
  slots : ℕ → Option T

namespace Buf

variable {T : Type}

/-- `size_inner_`: the difference of two `size_t` counters. -/
def size (b : Buf T) : ℕ := (b.tail + 2 ^ 64 - b.head) % 2 ^ 64

def empty (b : Buf T) : Bool := b.size == 0

def full (b : Buf T) : Bool := b.size == b.capacity

def mask (b : Buf T) : ℕ := (b.capacity + 2 ^ 64 - 1) % 2 ^ 64

/-- The slot `push_inner_` constructs in. -/
def tailIdx (b : Buf T) : ℕ := b.tail &&& b.mask

/-- The slot `pop_inner_` reads and destroys. -/
def headIdx (b : Buf T) : ℕ := b.head &&& b.mask

def push (b : Buf T) (x : T) : Buf T :=
  { b with slots := Function.update b.slots b.tailIdx (some x), tail := (b.tail + 1) % 2 ^ 64 }

def pop (b : Buf T) : Buf T :=
  { b with slots := Function.update b.slots b.headIdx none, head := (b.head + 1) % 2 ^ 64 }

/-- The items in the buffer, oldest first. -/
def items (b : Buf T) : List T :=
  (List.range b.size).filterMap (fun i => b.slots (((b.head + i) % 2 ^ 64) &&& b.mask))

end Buf

/-- The channel and the finish handles of its operations. -/
structure Channel (T : Type) where
  pushAwaiters : List ℕ
  popAwaiters : List ℕ
  buf : Buf T
  closed : Bool
  pushes : ℕ → PushHandle T
  pops : ℕ → PopHandle T
  /-- Handles whose `cancel_` has removed them and has yet to set the result. -/
  cancellingPush : List ℕ
  cancellingPop : List ℕ
  destroyed : Bool
  asserts : Bool
  lifetimes : Bool
  log : List (Event T)

namespace Channel

variable {T : Type}

/-! ## Reading the log -/

/-- Push requests in the order in which they took the lock. -/
def pushOrder (log : List (Event T)) : List ℕ :=
  log.filterMap (fun | .pushReq r _ => some r | _ => none)

/-- Pop requests in the order in which they took the lock. -/
def popOrder (log : List (Event T)) : List ℕ :=
  log.filterMap (fun | .popReq p => some p | _ => none)

/-- Pushes that returned `-EAGAIN` or `-EPIPE`, or whose waiting entry was withdrawn by a cancellation or a close. -/
def pushSkipped (log : List (Event T)) : List ℕ :=
  log.filterMap (fun
    | .pushRet r res => if res = -EAGAIN ∨ res = -EPIPE then some r else none
    | .pushLeft r .closed => some r
    | .pushLeft r .cancelled => some r
    | _ => none)

/-- Pops that returned `-EAGAIN` or `-EPIPE`, or whose waiting entry was withdrawn by a cancellation or a close. -/
def popSkipped (log : List (Event T)) : List ℕ :=
  log.filterMap (fun
    | .popRet p res _ => if res = -EAGAIN ∨ res = -EPIPE then some p else none
    | .popLeft p .closed _ => some p
    | .popLeft p .cancelled _ => some p
    | _ => none)

/-- The items handed to pops, in order, each with the pop that got it. -/
def delivered (log : List (Event T)) : List (ℕ × T) :=
  log.filterMap (fun
    | .popRet p res x => if res = 0 then some (p, x) else none
    | .popLeft p .transferred x => some (p, x)
    | _ => none)

/-- Whether the push was ever in the waiting list. -/
def pushWaits (log : List (Event T)) (r : ℕ) : Bool :=
  log.any (fun | .pushWait r' => r' == r | _ => false)

def popWaits (log : List (Event T)) (p : ℕ) : Bool :=
  log.any (fun | .popWait p' => p' == p | _ => false)

/-- Why the push left the waiting list, once for each time it did. -/
def pushCauses (log : List (Event T)) (r : ℕ) : List Cause :=
  log.filterMap (fun | .pushLeft r' why => if r' = r then some why else none | _ => none)

/-- Why the pop left the waiting list and with which item, once for each time it did. -/
def popCauses (log : List (Event T)) (p : ℕ) : List (Cause × T) :=
  log.filterMap (fun | .popLeft p' why x => if p' = p then some (why, x) else none | _ => none)

section Readers

variable (e : Event T) (l l' : List (Event T)) (r : ℕ)

@[simp] theorem pushOrder_nil : pushOrder ([] : List (Event T)) = [] := rfl
@[simp] theorem popOrder_nil : popOrder ([] : List (Event T)) = [] := rfl
@[simp] theorem pushSkipped_nil : pushSkipped ([] : List (Event T)) = [] := rfl
@[simp] theorem popSkipped_nil : popSkipped ([] : List (Event T)) = [] := rfl
@[simp] theorem delivered_nil : delivered ([] : List (Event T)) = [] := rfl
@[simp] theorem pushWaits_nil : pushWaits ([] : List (Event T)) r = false := rfl
@[simp] theorem popWaits_nil : popWaits ([] : List (Event T)) r = false := rfl
@[simp] theorem pushCauses_nil : pushCauses ([] : List (Event T)) r = [] := rfl
@[simp] theorem popCauses_nil : popCauses ([] : List (Event T)) r = [] := rfl

@[simp] theorem pushOrder_append : pushOrder (l ++ l') = pushOrder l ++ pushOrder l' :=
  List.filterMap_append
@[simp] theorem popOrder_append : popOrder (l ++ l') = popOrder l ++ popOrder l' :=
  List.filterMap_append
@[simp] theorem pushSkipped_append : pushSkipped (l ++ l') = pushSkipped l ++ pushSkipped l' :=
  List.filterMap_append
@[simp] theorem popSkipped_append : popSkipped (l ++ l') = popSkipped l ++ popSkipped l' :=
  List.filterMap_append
@[simp] theorem delivered_append : delivered (l ++ l') = delivered l ++ delivered l' :=
  List.filterMap_append
@[simp] theorem pushWaits_append : pushWaits (l ++ l') r = (pushWaits l r || pushWaits l' r) :=
  List.any_append
@[simp] theorem popWaits_append : popWaits (l ++ l') r = (popWaits l r || popWaits l' r) :=
  List.any_append
@[simp] theorem pushCauses_append : pushCauses (l ++ l') r = pushCauses l r ++ pushCauses l' r :=
  List.filterMap_append
@[simp] theorem popCauses_append : popCauses (l ++ l') r = popCauses l r ++ popCauses l' r :=
  List.filterMap_append

@[simp] theorem pushOrder_cons : pushOrder (e :: l) =
    (match e with | .pushReq r _ => [r] | _ => []) ++ pushOrder l := by
  cases e <;> rfl
@[simp] theorem popOrder_cons : popOrder (e :: l) =
    (match e with | .popReq p => [p] | _ => []) ++ popOrder l := by
  cases e <;> rfl
@[simp] theorem pushWaits_cons : pushWaits (e :: l) r =
    ((match e with | .pushWait r' => r' == r | _ => false) || pushWaits l r) := rfl
@[simp] theorem popWaits_cons : popWaits (e :: l) r =
    ((match e with | .popWait p => p == r | _ => false) || popWaits l r) := rfl

@[simp] theorem pushSkipped_cons : pushSkipped (e :: l) =
    (match e with
      | .pushRet r res => if res = -EAGAIN ∨ res = -EPIPE then [r] else []
      | .pushLeft r .closed => [r]
      | .pushLeft r .cancelled => [r]
      | _ => []) ++ pushSkipped l := by
  cases e with
  | pushRet r res => by_cases h : res = -EAGAIN ∨ res = -EPIPE <;> simp [pushSkipped, h]
  | pushLeft r why => cases why <;> rfl
  | _ => rfl

@[simp] theorem popSkipped_cons : popSkipped (e :: l) =
    (match e with
      | .popRet p res _ => if res = -EAGAIN ∨ res = -EPIPE then [p] else []
      | .popLeft p .closed _ => [p]
      | .popLeft p .cancelled _ => [p]
      | _ => []) ++ popSkipped l := by
  cases e with
  | popRet p res x => by_cases h : res = -EAGAIN ∨ res = -EPIPE <;> simp [popSkipped, h]
  | popLeft p why x => cases why <;> rfl
  | _ => rfl

@[simp] theorem delivered_cons : delivered (e :: l) =
    (match e with
      | .popRet p res x => if res = 0 then [(p, x)] else []
      | .popLeft p .transferred x => [(p, x)]
      | _ => []) ++ delivered l := by
  cases e with
  | popRet p res x => by_cases h : res = 0 <;> simp [delivered, h]
  | popLeft p why x => cases why <;> rfl
  | _ => rfl

@[simp] theorem pushCauses_cons : pushCauses (e :: l) r =
    (match e with | .pushLeft r' why => if r' = r then [why] else [] | _ => []) ++ pushCauses l r := by
  cases e with
  | pushLeft r' why => by_cases h : r' = r <;> simp [pushCauses, h]
  | _ => rfl

@[simp] theorem popCauses_cons : popCauses (e :: l) r =
    (match e with | .popLeft p why x => if p = r then [(why, x)] else [] | _ => []) ++ popCauses l r := by
  cases e with
  | popLeft p why x => by_cases h : p = r <;> simp [popCauses, h]
  | _ => rfl

theorem mem_pushCauses {why : Cause} : why ∈ pushCauses l r ↔ Event.pushLeft r why ∈ l := by
  induction l with
  | nil => simp
  | cons e l ih => cases e <;> simp [ih, eq_comm]

theorem mem_popCauses {q : Cause × T} : q ∈ popCauses l r ↔ Event.popLeft r q.1 q.2 ∈ l := by
  induction l with
  | nil => simp
  | cons e l ih => cases e <;> simp [ih, Prod.ext_iff, eq_comm]

end Readers

/-! ## The operations -/

def check (c : Channel T) (b : Bool) : Channel T := { c with asserts := c.asserts && b }

def emit (c : Channel T) (e : Event T) : Channel T := { c with log := c.log ++ [e] }

def setPush (c : Channel T) (r : ℕ) (f : PushHandle T → PushHandle T) : Channel T :=
  { c with pushes := Function.update c.pushes r (f (c.pushes r)) }

def setPop (c : Channel T) (p : ℕ) (f : PopHandle T → PopHandle T) : Channel T :=
  { c with pops := Function.update c.pops p (f (c.pops p)) }

/-- `schedule` on the handle of pop `p`. -/
def schedulePop (c : Channel T) (p : ℕ) : Channel T :=
  (c.check (c.pops p).runtime.isSome).setPop p PopHandle.schedule

/-- `push_inner_`. -/
def pushInner (c : Channel T) (x : T) : Channel T :=
  { c.check (!c.buf.full) with
    buf := c.buf.push x
    lifetimes := c.lifetimes && decide (c.buf.tailIdx < c.buf.capacity) &&
      (c.buf.slots c.buf.tailIdx).isNone }

variable [Inhabited T]

/-- `pop_inner_`. -/
def popInner (c : Channel T) : T × Channel T :=
  ((c.buf.slots c.buf.headIdx).getD default,
    { c.check (!c.buf.empty) with
      buf := c.buf.pop
      lifetimes := c.lifetimes && decide (c.buf.headIdx < c.buf.capacity) &&
        (c.buf.slots c.buf.headIdx).isSome })

/-- `pop_and_push_`. -/
def popAndPush (c : Channel T) (x : T) : T × Channel T :=
  if c.buf.capacity = 0 then (x, c)
  else ((c.popInner).1, (c.popInner).2.pushInner x)

/-- The first branch of `try_push_inner_`: the item of push `r` goes to the first waiting pop. -/
def handOff (c : Channel T) (p : ℕ) (rest : List ℕ) (r : ℕ) : Channel T :=
  let x := (c.pushes r).item
  let c := { c with popAwaiters := rest }
  let c := c.setPush r PushHandle.take
  let c := c.setPop p (fun h => h.setResult (0, x))
  (c.emit (.popLeft p .transferred x)).schedulePop p

/-- `try_push_inner_` on the item that push `r` refers to. -/
def tryPushInner (c : Channel T) (r : ℕ) : Bool × Channel T :=
  match c.popAwaiters with
  | p :: rest => (true, (c.check c.buf.empty).handOff p rest r)
  | [] =>
    if c.buf.full then (false, c)
    else (true, (c.setPush r PushHandle.take).pushInner (c.pushes r).item)

/-- The first branch of `try_pop_inner_`: the item of the first waiting push is taken. -/
def takeOver (c : Channel T) (r : ℕ) (rest : List ℕ) : Channel T :=
  let c := { c with pushAwaiters := rest }
  let c := c.setPush r PushHandle.take
  let c := c.setPush r (fun h => h.setResult 0)
  (c.emit (.pushLeft r .transferred)).setPush r PushHandle.schedule

/-- `try_pop_inner_`. -/
def tryPopInner (c : Channel T) : Option T × Channel T :=
  match c.pushAwaiters with
  | r :: rest =>
    let q := ((c.check c.buf.full).takeOver r rest).popAndPush (c.pushes r).item
    (some q.1, q.2)
  | [] =>
    if c.buf.empty then (none, c)
    else (some c.popInner.1, c.popInner.2)

/-- `try_push`. -/
def tryPush (c : Channel T) (r : ℕ) : ℤ × Channel T :=
  if c.closed then (-EPIPE, c)
  else if (c.tryPushInner r).1 then (0, (c.tryPushInner r).2)
  else (-EAGAIN, (c.tryPushInner r).2)

/-- `try_pop`. -/
def tryPop (c : Channel T) : (ℤ × T) × Channel T :=
  match c.tryPopInner with
  | (some x, c) => ((0, x), c)
  | (none, c) => if c.closed then ((-EPIPE, default), c) else ((-EAGAIN, default), c)

/-- `request_push_`. -/
def requestPush (c : Channel T) (r : ℕ) : ℤ × Channel T :=
  if c.closed then (-EPIPE, c)
  else if (c.tryPushInner r).1 then (0, (c.tryPushInner r).2)
  else
    let c := (c.tryPushInner r).2
    let c := c.check c.popAwaiters.isEmpty
    (-EAGAIN, { c with pushAwaiters := c.pushAwaiters ++ [r] })

/-- `force_push`; the flag says whether the allocation of the entry succeeds.  `none` is a panic; the first component
is `false` when the item ends in a waiting entry. -/
def forcePush (c : Channel T) (r : ℕ) (alloc : Bool) : Option (Bool × Channel T) :=
  if c.closed then none
  else if (c.tryPushInner r).1 then some (true, (c.tryPushInner r).2)
  else if alloc then
    let c := (c.tryPushInner r).2
    let c := c.check c.popAwaiters.isEmpty
    some (false, { c with pushAwaiters := c.pushAwaiters ++ [r] })
  else none

/-- `request_pop_`. -/
def requestPop (c : Channel T) (p : ℕ) : (ℤ × T) × Channel T :=
  match c.tryPopInner with
  | (some x, c) => ((0, x), c)
  | (none, c) =>
    let c := c.check c.pushAwaiters.isEmpty
    if c.closed then ((-EPIPE, default), c)
    else ((-EAGAIN, default), { c with popAwaiters := c.popAwaiters ++ [p] })

/-- `cancel_push_`. -/
def cancelPush (c : Channel T) (r : ℕ) : Bool × Channel T :=
  (decide (r ∈ c.pushAwaiters), { c with pushAwaiters := c.pushAwaiters.erase r })

/-- `cancel_pop_`. -/
def cancelPop (c : Channel T) (p : ℕ) : Bool × Channel T :=
  (decide (p ∈ c.popAwaiters), { c with popAwaiters := c.popAwaiters.erase p })

/-- One turn of the first loop of `push_close_inner_`. -/
def closePop (c : Channel T) (p : ℕ) (rest : List ℕ) : Channel T :=
  let c := { c with popAwaiters := rest }
  let c := c.check c.buf.empty
  let c := c.setPop p (fun h => h.setResult (-EPIPE, default))
  (c.emit (.popLeft p .closed default)).schedulePop p

/-- First loop of `push_close_inner_`, over the entries of `pop_awaiters_`. -/
def closePops (c : Channel T) : List ℕ → Channel T
  | [] => { c with popAwaiters := [] }
  | p :: rest => closePops (c.closePop p rest) rest

/-- One turn of the second loop of `push_close_inner_`. -/
def closePush (c : Channel T) (r : ℕ) (rest : List ℕ) : Channel T :=
  let c := { c with pushAwaiters := rest }
  let c := c.check c.buf.full
  let c := c.setPush r (fun h => h.setResult (-EPIPE))
  (c.emit (.pushLeft r .closed)).setPush r PushHandle.schedule

/-- Second loop of `push_close_inner_`, over the entries of `push_awaiters_`. -/
def closePushes (c : Channel T) : List ℕ → Channel T
  | [] => { c with pushAwaiters := [] }
  | r :: rest => closePushes (c.closePush r rest) rest

/-- `push_close_inner_`. -/
def pushCloseInner (c : Channel T) : Channel T :=
  if c.closed then c
  else
    let c := { c with closed := true }
    let c := c.closePops c.popAwaiters
    c.closePushes c.pushAwaiters

/-- The loop of `destruct_all_`; `n` bounds its iterations. -/
def drain (c : Channel T) : ℕ → Channel T
  | 0 => c
  | n + 1 => if c.buf.empty then c else drain c.popInner.2 n

/-- `destruct_all_`: as many turns as there are items. -/
def destructAll (c : Channel T) : Channel T :=
  let c := c.drain c.buf.size
  c.check (c.buf.head == c.buf.tail)

/-- The second half of `PushFinishHandle::cancel_`, outside the lock. -/
def cancelPushDone (c : Channel T) (r : ℕ) : Channel T :=
  let c := c.check ((c.pushes r).result == -ENOTRECOVERABLE)
  let c := c.setPush r (fun h => h.setResult (-ECANCELED))
  let c := c.check (c.pushes r).runtime.isSome
  let c := c.setPush r (fun h => { h with scheduled := h.scheduled + 1 })
  { c with cancellingPush := c.cancellingPush.erase r }

/-- The second half of `PopFinishHandle::cancel_`, outside the lock. -/
def cancelPopDone (c : Channel T) (p : ℕ) : Channel T :=
  let c := c.check ((c.pops p).result.1 == -ENOTRECOVERABLE)
  let c := c.setPop p (fun h => h.setResult (-ECANCELED, h.result.2))
  let c := c.check (c.pops p).runtime.isSome
  let c := c.setPop p (fun h => { h with scheduled := h.scheduled + 1 })
  { c with cancellingPop := c.cancellingPop.erase p }

/-! ## Runs -/

/-- The steps of the callers.  `r` and `p` name one push and one pop each and are used once; `rt` is the runtime on
which the operation was started. -/
inductive Op (T : Type) where
  | tryPush (r : ℕ) (x : T) (copied : Bool)
  | push (r : ℕ) (x : T) (copied : Bool) (rt : ℕ)
  | forcePush (r : ℕ) (x : T) (alloc : Bool)
  | tryPop (p : ℕ)
  | pop (p : ℕ) (rt : ℕ)
  | cancelPush (r : ℕ)
  | cancelPushDone (r : ℕ)
  | cancelPop (p : ℕ)
  | cancelPopDone (p : ℕ)
  | pushClose
  | destroy

/-- A fresh push operation, before its request. -/
def newPush (c : Channel T) (r : ℕ) (x : T) (copied : Bool) (rt : Option ℕ) : Channel T :=
  (c.setPush r (fun _ => PushHandle.new x copied rt)).emit (.pushReq r x)

/-- A fresh pop operation, before its request. -/
def newPop (c : Channel T) (p : ℕ) (rt : Option ℕ) : Channel T :=
  (c.setPop p (fun _ => PopHandle.new rt)).emit (.popReq p)

/-- Whether the push has a handle that waits or waited, so that its stop callback is registered. -/
def pushSuspended (c : Channel T) (r : ℕ) : Bool := (c.pushes r).runtime.isSome && pushWaits c.log r

def popSuspended (c : Channel T) (p : ℕ) : Bool := popWaits c.log p

/-- One step; `none` when it is not enabled or ends the process in a panic. -/
def step (c : Channel T) : Op T → Option (Channel T)
  | .tryPush r x copied =>
    if c.destroyed ∨ r ∈ pushOrder c.log then none
    else
      let q := (c.newPush r x copied none).tryPush r
      some (q.2.emit (.pushRet r q.1))
  | .push r x copied rt =>
    if c.destroyed ∨ r ∈ pushOrder c.log then none
    else
      let q := (c.newPush r x copied (some rt)).requestPush r
      some (q.2.emit (if q.1 = -EAGAIN then .pushWait r else .pushRet r q.1))
  | .forcePush r x alloc =>
    if c.destroyed ∨ r ∈ pushOrder c.log then none
    else ((c.newPush r x false none).forcePush r alloc).map (fun q =>
      q.2.emit (if q.1 then .pushRet r 0 else .pushWait r))
  | .tryPop p =>
    if c.destroyed ∨ p ∈ popOrder c.log then none
    else
      let q := (c.newPop p none).tryPop
      some (q.2.emit (.popRet p q.1.1 q.1.2))
  | .pop p rt =>
    if c.destroyed ∨ p ∈ popOrder c.log then none
    else
      let q := (c.newPop p (some rt)).requestPop p
      some (q.2.emit (if q.1.1 = -EAGAIN then .popWait p else .popRet p q.1.1 q.1.2))
  | .cancelPush r =>
    if c.destroyed ∨ c.pushSuspended r = false then none
    else if (c.cancelPush r).1 then
      some ({ (c.cancelPush r).2 with cancellingPush := c.cancellingPush ++ [r] }.emit
        (.pushLeft r .cancelled))
    else some (c.cancelPush r).2
  | .cancelPushDone r => if r ∈ c.cancellingPush then some (c.cancelPushDone r) else none
  | .cancelPop p =>
    if c.destroyed ∨ c.popSuspended p = false then none
    else if (c.cancelPop p).1 then
      some ({ (c.cancelPop p).2 with cancellingPop := c.cancellingPop ++ [p] }.emit
        (.popLeft p .cancelled default))
    else some (c.cancelPop p).2
  | .cancelPopDone p => if p ∈ c.cancellingPop then some (c.cancelPopDone p) else none
  | .pushClose => if c.destroyed then none else some c.pushCloseInner
  | .destroy =>
    if c.destroyed then none
    else some { c.pushCloseInner.destructAll with destroyed := true }

/-- The constructor; `none` where `std::bit_ceil` has no value. -/
def init (capacity : ℕ) : Option (Channel T) :=
  (if capacity = 0 then some 0 else bitCeil 64 capacity).map (fun cap =>
    { pushAwaiters := []
      popAwaiters := []
      buf := { head := 0, tail := 0, capacity := cap, slots := fun _ => none }
      closed := false
      pushes := fun _ => PushHandle.new default false none
      pops := fun _ => PopHandle.new none
      cancellingPush := []
      cancellingPop := []
      destroyed := false
      asserts := true
      lifetimes := true
      log := [] })

end Channel

end Condy
