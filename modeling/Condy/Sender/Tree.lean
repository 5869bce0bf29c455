import Condy.Errno
import Condy.Sender.Parallel

/-!
# Condy.Sender.Tree — nested `when_any`, `when_all` and `parallel` on one runtime thread

A tree of senders has the library's own operations as leaves: io_uring operations, pushes and pops of a `Channel` and
waits on a `Futex`.  An operation of the tree is named by its path, the index in the innermost node first; the root is
`[]`.  The nodes are the `OpState` of `Condy.Sender.Parallel`.

`start` of a node only calls `start` of its children in order, so what is left to start is a list of leaves (and of
nodes without children, which call their receiver at once), the `agenda`.  `stack` holds the calls of `receive_` and
`request_stop` that have not returned, the innermost first.  The run loop of the runtime is not re-entrant: a scheduled
operation is invoked, and a CQE reaped, only when the stack is empty and `start` has returned.

A stop source runs the callbacks that are registered on it in any order.  What the callback of a leaf does is
`cancelLeaf`.
-/

namespace Condy.Sender

open Lib

inductive LeafKind where
  /-- `OpSender`, `MultiShotOpSender` and `ZeroCopyOpSender`. -/
  | op
  | push
  | pop
  | wait
  deriving DecidableEq, Repr

/-- The operations on a node's children. -/
inductive Shape where
  | whenAny
  | whenAll
  | parallelAny
  | parallelAll
  deriving DecidableEq, Repr

def Shape.canceller : Shape → Canceller
  | .whenAny | .parallelAny => .whenAny
  | .whenAll | .parallelAll => .whenAll

inductive Tree where
  | leaf (kind : LeafKind)
  | node (form : Form) (shape : Shape) (children : List Tree)

abbrev Path := List ℕ

/-- The stop source outside the tree (`none`), or that of the canceller of a node. -/
abbrev Source := Option Path

namespace Tree

def child : Tree → ℕ → Option Tree
  | .leaf _, _ => none
  | .node _ _ children, i => children[i]?

/-- The sender at a path. -/
def sub (t : Tree) : Path → Option Tree
  | [] => some t
  | i :: p => (t.sub p).bind (fun u => u.child i)

/-- The number of children of the node at a path. -/
def arity (t : Tree) (p : Path) : ℕ :=
  match t.sub p with
  | some (.node _ _ children) => children.length
  | _ => 0

/-- `get_stop_token` of the receiver at a path: `chain_token` of the innermost `WhenAnyCanceller` above it. -/
def token (t : Tree) : Path → Source
  | [] => none
  | _ :: p =>
    match t.sub p with
    | some (.node _ shape _) => if shape.canceller = .whenAny then some p else t.token p
    | _ => t.token p

mutual
/-- The leaves and the nodes without children below a path, in the order in which `start` reaches them. -/
def starts : Tree → Path → List Path
  | .leaf _, p => [p]
  | .node _ _ [], p => [p]
  | .node _ _ (c :: children), p => startsFrom (c :: children) p 0
def startsFrom : List Tree → Path → ℕ → List Path
  | [], _, _ => []
  | c :: children, p, i => starts c (i :: p) ++ startsFrom children p (i + 1)
end

mutual
/-- The nodes with a `WhenAnyCanceller`. -/
def chained : Tree → Path → List Path
  | .leaf _, _ => []
  | .node _ shape children, p =>
    (if shape.canceller = .whenAny then [p] else []) ++ chainedFrom children p 0
def chainedFrom : List Tree → Path → ℕ → List Path
  | [], _, _ => []
  | c :: children, p, i => chained c (i :: p) ++ chainedFrom children p (i + 1)
end

end Tree

variable {T : Type}

/-- What a receiver is called with. -/
inductive Val (T : Type) where
  /-- The result of a leaf: a code, and the item of a pop or the buffer of an operation. -/
  | leaf (res : ℤ) (item : Option T)
  /-- `results_`, for `when_all`. -/
  | tuple (results : List (Val T))
  /-- `order_[0]` and its result, for `when_any`. -/
  | chosen (index : ℕ) (v : Val T)
  /-- `order_` and `results_`, for `parallel`. -/
  | group (order : List ℕ) (results : List (Val T))
  /-- Nothing was written. -/
  | unset

/-- `ReceiverAllWrapper`, `ReceiverAnyWrapper` and `ReceiverRangedAnyWrapper`: what the receiver of the node gets. -/
def Shape.result {n : ℕ} (o : OpState n (fun _ => Val T)) : Shape → Val T
  | .whenAny =>
    match o.order 0 with
    | none => .unset
    | some i => (o.results i).elim .unset (Val.chosen i)
  | .whenAll => .tuple ((List.finRange n).filterMap o.results)
  | .parallelAny | .parallelAll =>
    .group ((List.range n).filterMap (fun k => (o.order k).map Fin.val)) ((List.finRange n).filterMap o.results)

inductive LeafState (T : Type) where
  | idle
  /-- In the waiting list of its channel or futex. -/
  | waiting
  /-- The SQE of an io_uring operation is queued or executed. -/
  | inflight
  /-- In the local queue of the runtime, with its result. -/
  | scheduled (res : ℤ) (item : Option T)
  /-- The receiver was called. -/
  | done

/-- A call that has not returned. -/
inductive Call (T : Type) where
  /-- `receive_` of node `p` for child `i`, in front of the canceller and behind it. -/
  | receive (p : Path) (i : ℕ) (v : Val T)
  | record (p : Path) (i : ℕ) (v : Val T)
  /-- `request_stop` on a source. -/
  | stopping (source : Source)

def Call.isStop : Call T → Bool
  | .stopping _ => true
  | _ => false

inductive Event (T : Type) where
  /-- The receiver of the operation at `p` is called; `inStop`: a `request_stop` has not returned. -/
  | called (p : Path) (v : Val T) (inStop : Bool)
  /-- The canceller of node `p` requests a stop for the completion of a child. -/
  | fired (p : Path)

structure World (t : Tree) (T : Type) where
  nodes : (p : Path) → OpState (t.arity p) (fun _ => Val T)
  leaves : Path → LeafState T
  /-- The source outside the tree has a stop request. -/
  external : Bool
  callbacks : Source → List Path
  agenda : List Path
  localQueue : List Path
  /-- The operations for which a cancel request was queued. -/
  cancels : List Path
  stack : List (Call T)
  log : List (Event T)

inductive Step (T : Type) where
  /-- `start` goes on with the next of the agenda.  `r`: the operation ends at once with this result, if a leaf of a
  channel or futex, or the submission queue entry is null, if an io_uring operation. -/
  | start (r : Option (ℤ × Option T))
  /-- The innermost call, a `receive_`, runs its canceller. -/
  | canceller
  /-- The innermost call, a `receive_`, takes its number and stores its result. -/
  | record
  /-- The innermost call, a `request_stop`, runs the callback of the operation at `p`. -/
  | fire (p : Path)
  /-- The innermost call, a `request_stop`, returns. -/
  | stopReturn
  /-- A stop is requested on the source outside the tree. -/
  | stopExternal
  /-- The other side of a channel or futex completes a waiting leaf. -/
  | serve (p : Path) (res : ℤ) (item : Option T)
  /-- The run loop invokes the first operation of the local queue. -/
  | invoke
  /-- The run loop reaps the last CQE of an io_uring operation. -/
  | cqe (p : Path) (res : ℤ) (item : Option T)

namespace World

variable {t : Tree}

/-- The operation state after `connect`; `stopped`: the token outside the tree had a stop request by then, so that every
`chain_token` runs its callback at once. -/
def init (t : Tree) (T : Type) (stopped : Bool) : World t T where
  nodes := fun p => { (System.init : System (t.arity p) (fun _ => Val T)).op with stopRequested := stopped }
  leaves := fun _ => .idle
  external := stopped
  callbacks := fun src => if stopped then [] else (t.chained []).filter (fun p => t.token p = src)
  agenda := t.starts []
  localQueue := []
  cancels := []
  stack := []
  log := []

def requested (s : World t T) : Source → Bool
  | none => s.external
  | some p => (s.nodes p).stopRequested

/-- The receiver of the operation at `p` is called: `receive_` of the node above, or the receiver outside the tree. -/
def call (s : World t T) (p : Path) (v : Val T) : World t T :=
  let s := { s with log := s.log ++ [.called p v (s.stack.any Call.isStop)] }
  match p with
  | [] => s
  | i :: q => { s with stack := .receive q i v :: s.stack }

def setLeaf (s : World t T) (p : Path) (l : LeafState T) : World t T :=
  { s with leaves := Function.update s.leaves p l }

/-- `stop_callback_.reset()`. -/
def unregister (s : World t T) (p : Path) : World t T :=
  { s with callbacks := Function.update s.callbacks (t.token p) ((s.callbacks (t.token p)).erase p) }

/-- The stop callback of a leaf: `cancel_internal` of an io_uring operation queues a cancel request; `cancel_` of the
others takes the handle out of its waiting list and, if it was there, schedules it with `-ECANCELED`. -/
def cancelLeaf (s : World t T) (p : Path) : LeafKind → World t T
  | .op => { s with cancels := s.cancels ++ [p] }
  | .push | .pop | .wait =>
    match s.leaves p with
    | .waiting => { s.setLeaf p (.scheduled (-ECANCELED) none) with localQueue := s.localQueue ++ [p] }
    | _ => s

/-- `stop_callback_.emplace`, which runs the callback at once if the stop was requested already. -/
def register (s : World t T) (p : Path) (kind : LeafKind) : World t T :=
  if s.requested (t.token p) then s.cancelLeaf p kind
  else { s with callbacks := Function.update s.callbacks (t.token p) (s.callbacks (t.token p) ++ [p]) }

/-- `start` of a leaf. -/
def startLeaf (s : World t T) (p : Path) (r : Option (ℤ × Option T)) : LeafKind → World t T
  | .op =>
    if s.requested (t.token p) then (s.setLeaf p .done).call p (.leaf (-ECANCELED) none)
    else if r.isSome then (s.setLeaf p .done).call p (.leaf (-EINVAL) none)
    else (s.setLeaf p .inflight).register p .op
  | kind =>
    match r with
    | some (res, item) => (s.setLeaf p .done).call p (.leaf res item)
    | none => (s.setLeaf p .waiting).register p kind

def start (s : World t T) (r : Option (ℤ × Option T)) : Option (World t T) :=
  match s.agenda with
  | [] => none
  | p :: rest =>
    let s := { s with agenda := rest }
    match t.sub p with
    | some (.leaf kind) => some (s.startLeaf p r kind)
    | some (.node _ shape _) =>
      let o := (s.nodes p).callReceiver
      some (({ s with nodes := Function.update s.nodes p o } : World t T).call p (shape.result o))
    | none => none

/-- `canceller_(result)` of node `p`; `request_stop` returns at once if there is a stop request already. -/
def runCanceller (s : World t T) (p : Path) (i : ℕ) (v : Val T) (rest : List (Call T)) (c : Canceller) : World t T :=
  let q := (s.nodes p).canceller c
  { s with
    nodes := Function.update s.nodes p q.2
    log := if c = .whenAny then s.log ++ [.fired p] else s.log
    stack := if q.1 then .stopping (some p) :: .record p i v :: rest else .record p i v :: rest }

/-- `receive_` of node `p` behind the canceller. -/
def recordResult (s : World t T) (p : Path) (i : Fin (t.arity p)) (v : Val T) (form : Form) (shape : Shape) :
    World t T :=
  let o := (s.nodes p).receive form i v
  let s' : World t T := { s with nodes := Function.update s.nodes p o }
  if (s.nodes p).completedCount + 1 = t.arity p then
    (if form = .variadic ∧ shape.canceller = .whenAny then s'.unregister p else s').call p (shape.result o)
  else s'

/-- The callback of the operation at `p`: that of a leaf, or `cancel_` of a `WhenAnyCanceller`. -/
def fire (s : World t T) (p : Path) : Tree → World t T
  | .leaf kind => s.cancelLeaf p kind
  | .node _ shape _ =>
    let s' : World t T := { s with nodes := Function.update s.nodes p ((s.nodes p).cancel shape.canceller) }
    if !(s.nodes p).stopRequested ∧ (s'.nodes p).stopRequested then
      { s' with stack := .stopping (some p) :: s.stack }
    else s'

def step (s : World t T) : Step T → Option (World t T)
  | .start r => if s.stack.isEmpty then s.start r else none
  | .canceller =>
    match s.stack with
    | .receive p i v :: rest =>
      match t.sub p with
      | some (.node _ shape _) => some (s.runCanceller p i v rest shape.canceller)
      | _ => none
    | _ => none
  | .record =>
    match s.stack with
    | .record p i v :: rest =>
      match t.sub p with
      | some (.node form shape _) =>
        if h : i < t.arity p then some (({ s with stack := rest } : World t T).recordResult p ⟨i, h⟩ v form shape)
        else none
      | _ => none
    | _ => none
  | .fire p =>
    match s.stack with
    | .stopping src :: _ =>
      if p ∈ s.callbacks src then
        (t.sub p).map (fun u =>
          ({ s with callbacks := Function.update s.callbacks src ((s.callbacks src).erase p) } : World t T).fire p u)
      else none
    | _ => none
  | .stopReturn =>
    match s.stack with
    | .stopping src :: rest => if (s.callbacks src).isEmpty then some { s with stack := rest } else none
    | _ => none
  | .stopExternal =>
    if s.external then none else some { s with external := true, stack := .stopping none :: s.stack }
  | .serve p res item =>
    match s.leaves p with
    | .waiting => some { s.setLeaf p (.scheduled res item) with localQueue := s.localQueue ++ [p] }
    | _ => none
  | .invoke =>
    match s.localQueue with
    | [] => none
    | p :: rest =>
      match s.leaves p with
      | .scheduled res item =>
        if s.stack.isEmpty ∧ s.agenda.isEmpty then
          some ((({ s with localQueue := rest } : World t T).setLeaf p .done |>.unregister p).call p (.leaf res item))
        else none
      | _ => none
  | .cqe p res item =>
    match s.leaves p with
    | .inflight =>
      if s.stack.isEmpty ∧ s.agenda.isEmpty then some ((s.setLeaf p .done |>.unregister p).call p (.leaf res item))
      else none
    | _ => none

end World

end Condy.Sender
