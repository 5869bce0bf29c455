import Condy.Coro.Model
import Condy.Lib.Places

/-!
# Condy.Coro.Inv — one place and one owner for every coroutine

Two things are followed through a run.  A coroutine that is not finished and has no callee is at one `Spot`: on a thread,
in a queue, with a sender that is under way, or in the callback of the task it awaits (`contents`).  A frame that is not
destroyed is held by one `Holder`: the handle that `co_spawn` made, a thread in `wait()`, the coroutine that called it or
the one that awaits it (`holdings`); only a detached coroutine is held by nobody.  Both are instances of `Located`.
`Shape` says what the fields of a frame are at each point, and `PendRt` what `pending_works_` counts.
-/

namespace Condy.Coro

open Lib PromiseState

variable {ι V E : Type}

/-! ## Spots -/

inductive Spot (ι : Type) where
  | thread (r : ι)
  | queue (q : QueueId ι)
  | kernel | waits
  /-- In the callback that the frame `t` will invoke. -/
  | joins (t : ℕ)
deriving DecidableEq, Repr

def Control.frame : Control → Option ℕ
  | .running f _ => some f
  | _ => none

def Ret.owes : Ret → ℕ
  | .work => 0
  | .op => 1

/-- What the thread gives back when it is in the loop again. -/
def Control.owes : Control → ℕ
  | .running _ ret => ret.owes
  | _ => 0

def Work.frame : Work → ℕ
  | .promise f | .waiter f _ => f

def QueueId.runtime : QueueId ι → ι
  | .localQueue r | .globalQueue r | .mail r => r

/-- The coroutine to be resumed when this one ends. -/
def Frame.joiner (fr : Frame ι V E) : Option ℕ :=
  match fr.state, fr.union with
  | .runningJoining, .callback (.taskAwaiter c _) => some c
  | _, _ => none

/-- The coroutines at each spot. -/
def Machine.contents (s : Machine ι V E) : Spot ι → List ℕ
  | .thread r => (s.rt r).control.frame.toList
  | .queue q => (s.queue q).map Work.frame
  | .kernel => s.kernel.map Prod.snd
  | .waits => s.waits.map Prod.snd
  | .joins t => ((s.frames t).bind Frame.joiner).toList

/-! ## Holders -/

inductive Holder where
  | handle | thread
  | caller (c : ℕ)
  | joiner (c : ℕ)
deriving DecidableEq, Repr

def Point.callee : Point ι V E → Option ℕ
  | .call g _ _ => some g
  | _ => none

def Point.target : Point ι V E → Option ℕ
  | .task t _ _ => some t
  | _ => none

/-- The runtime on which the coroutine pends work. -/
def Point.pends : Point ι V E → Option ι
  | .sender _ r _ _ | .task _ r _ => some r
  | _ => none

def Point.isFinal : Point ι V E → Bool
  | .final => true
  | _ => false

/-- Who holds the frame, by what its promise says. -/
def Frame.owner (fr : Frame ι V E) : Option Holder :=
  match fr.state, fr.union with
  | .idle, .callerHandle (.frame c) => some (.caller c)
  | .runningJoinable, _ | .zombie, _ => some .handle
  | .runningJoining, .callback (.taskAwaiter c _) | .finished, .callback (.taskAwaiter c _) => some (.joiner c)
  | .runningJoining, .callback .taskWaiter | .finished, .callback .taskWaiter => some .thread
  | _, _ => none

/-- What each holder has.  A handle is in its `Task`, or lost. -/
def Machine.holdings (s : Machine ι V E) : Holder → List ℕ
  | .handle => s.tasks ++ s.orphans
  | .thread => s.waiters
  | .caller c => ((s.frames c).bind fun fr => fr.point.callee).toList
  | .joiner c => ((s.frames c).bind fun fr => fr.point.target).toList

def Machine.ownerOf (s : Machine ι V E) (f : ℕ) : Option Holder := (s.frames f).bind Frame.owner

/-! ## The invariant -/

/-- Where the coroutine `f` is when it stands at a point. -/
def Point.Fits (f : ℕ) (l : Option (Spot ι)) : Point ι V E → Prop
  | .initial _ | .switched _ => ∃ q, l = some (.queue q)
  | .running _ => ∃ r, l = some (.thread r)
  | .call _ _ _ | .final => l = none
  | .sender _ _ a _ => a = ⟨.frame f, none⟩ ∧ (l = some .kernel ∨ l = some .waits ∨ ∃ q, l = some (.queue q))
  | .task t _ _ => l = some (.joins t) ∨ ∃ q, l = some (.queue q)

/-- The item is made for a coroutine that stands at this point, on the runtime `r`. -/
def Work.Fits (r : ι) : Work → Point ι V E → Prop
  | .promise _, .initial _ | .promise _, .switched _ => True
  | .promise _, .task _ r' _ => r' = r
  | .waiter _ _, .sender _ r' _ _ => r' = r
  | _, _ => False

structure Shape (f : ℕ) (l : Option (Spot ι)) (fr : Frame ι V E) : Prop where
  place : fr.point.Fits f l
  final : fr.point.isFinal = decide (fr.state = .zombie ∨ fr.state = .finished)
  result : if fr.point.isFinal then fr.outcome.isSome = true else fr.exception = none ∧ fr.value = none
  owner : fr.state ≠ .runningDetached → fr.owner.isSome = true

/-- `pending_works_` counts the awaits on this runtime, the own messages under way, and an operation whose completion is
being handled. -/
def PendRt [DecidableEq ι] (pended : List (ι × ℕ)) (r : ι) (x : Rt) : Prop :=
  x.pendingWorks = pended.countP (fun p => p.1 = r) + x.acks + x.control.owes

variable [DecidableEq ι]

namespace Machine

structure Inv (s : Machine ι V E) (loc : ℕ → Option (Spot ι)) : Prop where
  located : Located s.contents loc
  owned : Located s.holdings s.ownerOf
  shape : ∀ f fr, s.frames f = some fr → Shape f (loc f) fr
  gone : ∀ f, s.frames f = none → loc f = none
  fresh : ∀ f, s.nextFrame ≤ f → s.frames f = none
  works : ∀ q, ∀ w ∈ s.queue q, ∃ fr, s.frames w.frame = some fr ∧ w.Fits q.runtime fr.point
  senders : ∀ x ∈ s.kernel ++ s.waits, ∃ fr op a k, s.frames x.2 = some fr ∧ fr.point = .sender op x.1 a k
  joined : ∀ t tf c r, s.frames t = some tf → tf.union = .callback (.taskAwaiter c r) →
    ∃ cf k, s.frames c = some cf ∧ cf.point = .task t r k
  pended : s.pended.Nodup ∧ ∀ r f, (r, f) ∈ s.pended ↔ ∃ fr, s.frames f = some fr ∧ fr.point.pends = some r
  pending : ∀ r, PendRt s.pended r (s.rt r)
  started : ∀ r, (s.rt r).control ≠ .outside → (s.rt r).ringEnabled = true
  flushed : ∀ r, (s.rt r).ringEnabled = true → s.queue (.globalQueue r) = []
  sound : s.fault = false

theorem init_inv : (init : Machine ι V E).Inv fun _ => none := by
  refine ⟨fun p w => ?_, fun p w => ?_, fun f fr h => absurd h (by simp [init]), fun _ _ => rfl, fun _ _ => rfl,
    fun q w h => absurd h List.not_mem_nil, fun x h => absurd h List.not_mem_nil,
    fun t tf c r h => absurd h (by simp [init]), ⟨List.nodup_nil, fun r f => ?_⟩, fun _ => rfl,
    fun r h => absurd rfl h, fun _ h => absurd h (by simp [init]), rfl⟩
  · cases p <;> rfl
  · cases p <;> rfl
  · simp [init]

end Machine

end Condy.Coro
