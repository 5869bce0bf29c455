import Condy.Lib.Run
import Mathlib.Data.Multiset.AddSub

/-!
# Condy.Loop — the loop of `run()`, seen from its queues

What `run()` and `schedule_internal` are for, over any kind of items: an item that is scheduled on the thread of the
runtime goes to the local queue, one of another thread to the global queue until `run()` was called first, and into the
mail from then on; the thread takes items from the head of the local queue and out of the mail; and `run()` returns when
the local queue is empty, no work pends and the exit is allowed.

`Condy.Runtime.Model`, `Condy.Cluster.Model` and `Condy.Coro.Model` each have `run()` and `schedule_internal` in the
detail that they need: the rings and the finish handles, the races of the threads, the coroutines.  Each of them refines
this one (`Runtime.run_loop`, `Cluster.run_loop`, `Coro.Machine.run_loop`).
-/

namespace Condy

open Lib

namespace Loop

/-- The thread of the runtime: not in `run()`, in its loop, or in code that it has called. -/
inductive Place where
  | outside | loop | user
deriving DecidableEq, Repr

end Loop

structure Loop (ω : Type) where
  place : Loop.Place
  ringEnabled : Bool
  exitAllowed : Bool
  pendingWorks : ℕ
  localQueue : List ω
  globalQueue : List ω
  /-- The messages that were not received yet.  They may overtake one another. -/
  mail : Multiset ω

namespace Loop

variable {ω : Type}

def init : Loop ω :=
  { place := .outside, ringEnabled := false, exitAllowed := false, pendingWorks := 0, localQueue := []
    globalQueue := [], mail := 0 }

inductive Op (ω : Type) where
  | run | quit
  /-- User code begins: with an item of the local queue, a message, or a completion; and ends. -/
  | pop | receive (w : ω) | complete | ret
  /-- The thread of the runtime begins or ends activities. -/
  | works (n : ℕ)
  /-- `schedule_internal`, on the thread of the runtime and on another one. -/
  | schedule (w : ω)
  | remoteSchedule (w : ω)
  | allowExit

variable [DecidableEq ω]

def step (x : Loop ω) : Op ω → Option (Loop ω)
  | .run =>
    if x.place ≠ .outside then none
    else if x.ringEnabled then some { x with place := .loop }
    else some { x with
      place := .loop, ringEnabled := true, localQueue := x.localQueue ++ x.globalQueue, globalQueue := [] }
  | .quit =>
    if x.place = .loop ∧ x.localQueue = [] ∧ x.pendingWorks = 0 ∧ x.exitAllowed = true then
      some { x with place := .outside, exitAllowed := false }
    else none
  | .pop =>
    match x.place, x.localQueue with
    | .loop, _ :: ws => some { x with place := .user, localQueue := ws }
    | _, _ => none
  | .receive w =>
    if x.place = .loop ∧ w ∈ x.mail then some { x with place := .user, mail := x.mail.erase w } else none
  | .complete => if x.place = .loop then some { x with place := .user } else none
  | .ret => if x.place = .user then some { x with place := .loop } else none
  | .works n => if x.place = .outside then none else some { x with pendingWorks := n }
  | .schedule w => if x.place = .user then some { x with localQueue := x.localQueue ++ [w] } else none
  | .remoteSchedule w =>
    if x.ringEnabled then some { x with mail := w ::ₘ x.mail }
    else some { x with globalQueue := x.globalQueue ++ [w] }
  | .allowExit => some { x with exitAllowed := true }

/-! ## What a loop can do -/

/-- `y` is reached from `x`. -/
def Acts (x y : Loop ω) : Prop := ∃ ops, Lib.run step x ops = some y

variable {x y z : Loop ω}

theorem Acts.refl (x : Loop ω) : Acts x x := ⟨[], rfl⟩

theorem Acts.trans (h : Acts x y) (h' : Acts y z) : Acts x z := by
  obtain ⟨ops, hrun⟩ := h
  obtain ⟨ops', hrun'⟩ := h'
  exact ⟨ops ++ ops', by rw [run_append, hrun]; exact hrun'⟩

theorem Acts.one (op : Op ω) (hs : step x op = some y) : Acts x y := ⟨[op], by rw [run_cons, hs]; rfl⟩

/-- Inside `run()` the thread goes in and out of user code, and activities begin and end. -/
theorem Acts.inside {p : Place} (hx : x.place ≠ .outside) (hp : p ≠ .outside) (n : ℕ) :
    Acts x { x with place := p, pendingWorks := n } := by
  have hplace : Acts x { x with place := p } := by
    cases hxp : x.place with
    | outside => exact absurd hxp hx
    | loop =>
      cases p with
      | outside => exact absurd rfl hp
      | loop => exact hxp ▸ .refl x
      | user => exact .one .complete (if_pos hxp)
    | user =>
      cases p with
      | outside => exact absurd rfl hp
      | loop => exact .one .ret (if_pos hxp)
      | user => exact hxp ▸ .refl x
  exact hplace.trans (.one (.works n) (if_neg hp))

/-- An item is scheduled on the thread of the runtime, in code that the loop has called. -/
theorem Acts.schedule (w : ω) (hx : x.place ≠ .outside) : Acts x { x with localQueue := x.localQueue ++ [w] } := by
  have hin : Acts x { x with place := .user } := .inside hx (by simp) x.pendingWorks
  have hput : Acts { x with place := .user } { x with place := .user, localQueue := x.localQueue ++ [w] } :=
    .one (.schedule w) rfl
  have hback : Acts { x with place := .user, localQueue := x.localQueue ++ [w] }
      { x with localQueue := x.localQueue ++ [w] } := .inside (by simp) hx x.pendingWorks
  exact (hin.trans hput).trans hback

/-- The thread takes the first item of the local queue, or one out of the mail, and goes back to where it was. -/
theorem Acts.pop {w : ω} {ws : List ω} (hx : x.place ≠ .outside) (hq : x.localQueue = w :: ws) :
    Acts x { x with localQueue := ws } := by
  have hin : Acts x { x with place := .loop } := .inside hx (by simp) x.pendingWorks
  have hpop : Acts { x with place := .loop } { x with place := .user, localQueue := ws } :=
    .one .pop (by simp [step, hq])
  exact (hin.trans hpop).trans (.inside (by simp) hx x.pendingWorks)

theorem Acts.receive {w : ω} (hx : x.place ≠ .outside) (hw : w ∈ x.mail) : Acts x { x with mail := x.mail.erase w } := by
  have hin : Acts x { x with place := .loop } := .inside hx (by simp) x.pendingWorks
  have htake : Acts { x with place := .loop } { x with place := .user, mail := x.mail.erase w } :=
    .one (.receive w) (if_pos ⟨rfl, hw⟩)
  exact (hin.trans htake).trans (.inside (by simp) hx x.pendingWorks)

/-! ## What every run keeps -/

/-- The ring is enabled when `run()` goes on, and then the global queue is empty. -/
structure Inv (x : Loop ω) : Prop where
  started : x.place ≠ .outside → x.ringEnabled = true
  flushed : x.ringEnabled = true → x.globalQueue = []

omit [DecidableEq ω] in
theorem init_inv : (init : Loop ω).Inv := ⟨fun h => absurd rfl h, fun h => absurd h (by simp [init])⟩

theorem step_inv {op : Op ω} (h : x.Inv) (hs : step x op = some y) : y.Inv := by
  cases op with
  | run =>
    obtain ⟨-, hs⟩ := Option.ite_none_left_eq_some.mp hs
    split at hs
    next hen =>
      obtain rfl := Option.some.inj hs
      exact ⟨fun _ => hen, h.flushed⟩
    · obtain rfl := Option.some.inj hs
      exact ⟨fun _ => rfl, fun _ => rfl⟩
  | quit =>
    obtain ⟨-, hs⟩ := Option.ite_none_right_eq_some.mp hs
    obtain rfl := Option.some.inj hs
    exact ⟨fun hp => absurd rfl hp, h.flushed⟩
  | pop =>
    simp only [step] at hs
    split at hs
    next hp hq =>
      obtain rfl := Option.some.inj hs
      exact ⟨fun _ => h.started (by rw [hp]; simp), h.flushed⟩
    · cases hs
  | receive w =>
    obtain ⟨⟨hp, -⟩, hs⟩ := Option.ite_none_right_eq_some.mp hs
    obtain rfl := Option.some.inj hs
    exact ⟨fun _ => h.started (by rw [hp]; simp), h.flushed⟩
  | complete | ret =>
    obtain ⟨hp, hs⟩ := Option.ite_none_right_eq_some.mp hs
    obtain rfl := Option.some.inj hs
    exact ⟨fun _ => h.started (by rw [hp]; simp), h.flushed⟩
  | works n =>
    obtain ⟨-, hs⟩ := Option.ite_none_left_eq_some.mp hs
    obtain rfl := Option.some.inj hs
    exact ⟨h.started, h.flushed⟩
  | schedule w =>
    obtain ⟨-, hs⟩ := Option.ite_none_right_eq_some.mp hs
    obtain rfl := Option.some.inj hs
    exact ⟨h.started, h.flushed⟩
  | remoteSchedule w =>
    simp only [step] at hs
    split at hs
    · obtain rfl := Option.some.inj hs
      exact ⟨h.started, h.flushed⟩
    next hen =>
      obtain rfl := Option.some.inj hs
      exact ⟨h.started, fun he => absurd he hen⟩
  | allowExit =>
    obtain rfl := Option.some.inj hs
    exact ⟨h.started, h.flushed⟩

theorem Acts.inv (h : Acts x y) (hx : x.Inv) : y.Inv := by
  obtain ⟨ops, hrun⟩ := h
  exact run_inv (fun _ _ _ h hs => step_inv h hs) ops hx hrun

end Loop

end Condy
