import Condy.Channel.Model
import Condy.Lib.Tickets
import Condy.Lib.WaitRoom
import Mathlib.Logic.Relation

/-!
# Condy.Channel.Spec — the channel without its ring buffer

`Spec` is the channel with a list of items in place of the ring buffer, and `Trans` lists what can happen to it; a
critical section of the code is one transition, a close is one for each waiting entry and one for the flag.  `Inv`
holds the joint invariant of the two waiting lists and the buffer (`popIdle`, `pushFull`) and the fates of the waiting
entries; `Trans.inv` is the step lemma.
-/

namespace Condy

open Lib Channel

/-- The result that an entry gets when it leaves the waiting list for this reason. -/
def Cause.code : Cause → ℤ
  | .transferred => 0
  | .closed => -EPIPE
  | .cancelled => -ECANCELED

/-- What a push that suspended shows: `completions` counts the calls of `schedule_internal`, for an entry of
`force_push` its deletions. -/
structure PushOutcome where
  result : ℤ
  moved : Bool
  sets : ℕ
  completions : ℕ
  deriving DecidableEq

structure PopOutcome (T : Type) where
  result : ℤ × T
  sets : ℕ
  completions : ℕ

variable {T : Type}

def PushHandle.outcome (h : PushHandle T) : PushOutcome :=
  ⟨h.result, h.moved, h.sets, if h.runtime.isSome then h.scheduled else h.deleted⟩

def PopHandle.outcome (h : PopHandle T) : PopOutcome T := ⟨h.result, h.sets, h.scheduled⟩

def PushOutcome.pending : PushOutcome := ⟨-ENOTRECOVERABLE, false, 0, 0⟩

def PushOutcome.report (why : Cause) : PushOutcome := ⟨why.code, why == .transferred, 1, 1⟩

def PopOutcome.pending [Inhabited T] : PopOutcome T := ⟨(-ENOTRECOVERABLE, default), 0, 0⟩

def PopOutcome.report (why : Cause × T) : PopOutcome T := ⟨(why.1.code, why.2), 1, 1⟩

/-- Setting the result and scheduling, whichever kind of entry it is. -/
theorem PushHandle.outcome_done (h : PushHandle T) (res : ℤ) : ((h.setResult res).schedule).outcome =
    ⟨res, h.outcome.moved, h.outcome.sets + 1, h.outcome.completions + 1⟩ := by
  cases hrt : h.runtime <;> simp [outcome, setResult, schedule, hrt]

theorem PushHandle.outcome_take (h : PushHandle T) : h.take.outcome = { h.outcome with moved := true } := rfl

theorem PopHandle.outcome_done (h : PopHandle T) (res : ℤ × T) : ((h.setResult res).schedule).outcome =
    ⟨res, h.outcome.sets + 1, h.outcome.completions + 1⟩ := rfl

@[simp] theorem PushHandle.schedule_runtime (h : PushHandle T) : h.schedule.runtime = h.runtime := by
  unfold schedule
  split <;> rfl

@[simp] theorem PushHandle.schedule_item (h : PushHandle T) : h.schedule.item = h.item := by
  unfold schedule
  split <;> rfl

/-- The channel, its items as a list. -/
structure Spec (T : Type) where
  cap : ℕ
  items : List T
  pushQ : List ℕ
  popQ : List ℕ
  closed : Bool
  pushes : ℕ → PushHandle T
  pops : ℕ → PopHandle T
  cancellingPush : List ℕ
  cancellingPop : List ℕ
  destroyed : Bool
  log : List (Event T)

namespace Spec

variable [Inhabited T]

/-- A new channel. -/
def empty (cap : ℕ) : Spec T where
  cap := cap
  items := []
  pushQ := []
  popQ := []
  closed := false
  pushes := fun _ => PushHandle.new default false none
  pops := fun _ => PopHandle.new none
  cancellingPush := []
  cancellingPop := []
  destroyed := false
  log := []

/-- What can happen to a channel. -/
inductive Trans : Spec T → Spec T → Prop where
  /-- A push is refused: the channel is closed, or full and the push does not wait. -/
  | pushRefused (s : Spec T) (r : ℕ) (x : T) (copied : Bool) (rt : Option ℕ) (res : ℤ)
      (hr : r ∉ pushOrder s.log)
      (hres : s.closed = true ∧ res = -EPIPE ∨ s.popQ = [] ∧ s.items.length = s.cap ∧ res = -EAGAIN) :
      Trans s { s with
        pushes := Function.update s.pushes r (PushHandle.new x copied rt)
        log := s.log ++ [.pushReq r x, .pushRet r res] }
  /-- The item of a push goes to the first waiting pop. -/
  | pushHanded (s : Spec T) (r : ℕ) (x : T) (copied : Bool) (rt : Option ℕ) (p : ℕ) (rest : List ℕ)
      (hr : r ∉ pushOrder s.log) (hclosed : s.closed = false) (hp : s.popQ = p :: rest) :
      Trans s { s with
        popQ := rest
        pushes := Function.update s.pushes r (PushHandle.new x copied rt).take
        pops := Function.update s.pops p ((s.pops p).setResult (0, x)).schedule
        log := s.log ++ [.pushReq r x, .popLeft p .transferred x, .pushRet r 0] }
  /-- The item of a push goes into the buffer. -/
  | pushBuffered (s : Spec T) (r : ℕ) (x : T) (copied : Bool) (rt : Option ℕ)
      (hr : r ∉ pushOrder s.log) (hclosed : s.closed = false) (hp : s.popQ = [])
      (hl : s.items.length < s.cap) :
      Trans s { s with
        items := s.items ++ [x]
        pushes := Function.update s.pushes r (PushHandle.new x copied rt).take
        log := s.log ++ [.pushReq r x, .pushRet r 0] }
  /-- A push starts to wait. -/
  | pushQueued (s : Spec T) (r : ℕ) (x : T) (copied : Bool) (rt : Option ℕ)
      (hr : r ∉ pushOrder s.log) (hclosed : s.closed = false) (hp : s.popQ = [])
      (hl : s.items.length = s.cap) :
      Trans s { s with
        pushQ := s.pushQ ++ [r]
        pushes := Function.update s.pushes r (PushHandle.new x copied rt)
        log := s.log ++ [.pushReq r x, .pushWait r] }
  /-- A pop finds nothing: the channel is closed, or the pop does not wait. -/
  | popRefused (s : Spec T) (p : ℕ) (rt : Option ℕ) (res : ℤ)
      (hp : p ∉ popOrder s.log) (hq : s.pushQ = []) (hi : s.items = [])
      (hres : res = if s.closed then -EPIPE else -EAGAIN) :
      Trans s { s with
        pops := Function.update s.pops p (PopHandle.new rt)
        log := s.log ++ [.popReq p, .popRet p res default] }
  /-- A pop gets the oldest item, and the first waiting push puts its own behind the others. -/
  | popShifted (s : Spec T) (p : ℕ) (rt : Option ℕ) (r : ℕ) (rest : List ℕ) (y : T) (ys : List T)
      (hp : p ∉ popOrder s.log) (hq : s.pushQ = r :: rest) (hi : s.items ++ [(s.pushes r).item] = y :: ys) :
      Trans s { s with
        items := ys
        pushQ := rest
        pushes := Function.update s.pushes r ((s.pushes r).take.setResult 0).schedule
        pops := Function.update s.pops p (PopHandle.new rt)
        log := s.log ++ [.popReq p, .pushLeft r .transferred, .popRet p 0 y] }
  /-- A pop gets the oldest item and no push waits. -/
  | popBuffered (s : Spec T) (p : ℕ) (rt : Option ℕ) (y : T) (ys : List T)
      (hp : p ∉ popOrder s.log) (hq : s.pushQ = []) (hi : s.items = y :: ys) :
      Trans s { s with
        items := ys
        pops := Function.update s.pops p (PopHandle.new rt)
        log := s.log ++ [.popReq p, .popRet p 0 y] }
  /-- A pop starts to wait. -/
  | popQueued (s : Spec T) (p : ℕ) (rt : ℕ)
      (hp : p ∉ popOrder s.log) (hq : s.pushQ = []) (hi : s.items = []) (hclosed : s.closed = false) :
      Trans s { s with
        popQ := s.popQ ++ [p]
        pops := Function.update s.pops p (PopHandle.new (some rt))
        log := s.log ++ [.popReq p, .popWait p] }
  /-- A waiting push takes itself out of the list. -/
  | pushCancelled (s : Spec T) (r : ℕ) (hr : r ∈ s.pushQ) (hrt : (s.pushes r).runtime.isSome) :
      Trans s { s with
        pushQ := s.pushQ.erase r
        cancellingPush := s.cancellingPush ++ [r]
        log := s.log ++ [.pushLeft r .cancelled] }
  /-- It sets its result and is scheduled. -/
  | pushCancelDone (s : Spec T) (r : ℕ) (hr : r ∈ s.cancellingPush) :
      Trans s { s with
        cancellingPush := s.cancellingPush.erase r
        pushes := Function.update s.pushes r ((s.pushes r).setResult (-ECANCELED)).schedule }
  /-- A waiting pop takes itself out of the list. -/
  | popCancelled (s : Spec T) (p : ℕ) (hp : p ∈ s.popQ) :
      Trans s { s with
        popQ := s.popQ.erase p
        cancellingPop := s.cancellingPop ++ [p]
        log := s.log ++ [.popLeft p .cancelled default] }
  /-- It sets its result and is scheduled. -/
  | popCancelDone (s : Spec T) (p : ℕ) (hp : p ∈ s.cancellingPop) :
      Trans s { s with
        cancellingPop := s.cancellingPop.erase p
        pops := Function.update s.pops p ((s.pops p).setResult (-ECANCELED, (s.pops p).result.2)).schedule }
  /-- A close completes the first waiting pop. -/
  | popClosed (s : Spec T) (p : ℕ) (rest : List ℕ) (hp : s.popQ = p :: rest) :
      Trans s { s with
        popQ := rest
        pops := Function.update s.pops p ((s.pops p).setResult (-EPIPE, default)).schedule
        log := s.log ++ [.popLeft p .closed default] }
  /-- A close completes the first waiting push. -/
  | pushClosed (s : Spec T) (r : ℕ) (rest : List ℕ) (hr : s.pushQ = r :: rest) :
      Trans s { s with
        pushQ := rest
        pushes := Function.update s.pushes r ((s.pushes r).setResult (-EPIPE)).schedule
        log := s.log ++ [.pushLeft r .closed] }
  /-- The channel is closed, with nobody left waiting. -/
  | close (s : Spec T) (hp : s.popQ = []) (hr : s.pushQ = []) : Trans s { s with closed := true }
  /-- The destructor drops the items of a closed channel. -/
  | destroy (s : Spec T) (hclosed : s.closed = true) : Trans s { s with items := [], destroyed := true }

/-- The pushes as entries that wait. -/
def pushRoom (s : Spec T) : Room Cause PushOutcome where
  queued := fun r => r ∈ s.pushQ
  leaving := fun r why => r ∈ s.cancellingPush ∧ why = .cancelled
  waited := pushWaits s.log
  causes := pushCauses s.log
  outcome := fun r => (s.pushes r).outcome

/-- The pops as entries that wait. -/
def popRoom (s : Spec T) : Room (Cause × T) (PopOutcome T) where
  queued := fun p => p ∈ s.popQ
  leaving := fun p why => p ∈ s.cancellingPop ∧ why = (.cancelled, default)
  waited := popWaits s.log
  causes := popCauses s.log
  outcome := fun p => (s.pops p).outcome

/-- The invariant of the waiting lists, the buffer and the entries. -/
structure Inv (s : Spec T) : Prop where
  /-- A pop waits only while there is nothing to take. -/
  popIdle : s.popQ ≠ [] → s.items = [] ∧ s.pushQ = [] ∧ s.closed = false
  /-- A push waits only while there is no room. -/
  pushFull : s.pushQ ≠ [] → s.items.length = s.cap ∧ s.closed = false
  len : s.items.length ≤ s.cap
  nodup : s.pushQ.Nodup ∧ s.popQ.Nodup ∧ s.cancellingPush.Nodup ∧ s.cancellingPop.Nodup
  pushFates : s.pushRoom.Ok PushOutcome.pending PushOutcome.report
  popFates : s.popRoom.Ok PopOutcome.pending PopOutcome.report
  pushKnown : ∀ r, pushWaits s.log r = true → r ∈ pushOrder s.log
  popKnown : ∀ p, popWaits s.log p = true → p ∈ popOrder s.log
  /-- Only real handles cancel themselves. -/
  pushRuntime : ∀ r ∈ s.cancellingPush, (s.pushes r).runtime.isSome
  popRuntime : ∀ p, popWaits s.log p = true → (s.pops p).runtime.isSome
  /-- A push that returned at once never waits, and keeps its item if it was refused. -/
  returned : ∀ r res, Event.pushRet r res ∈ s.log → r ∈ pushOrder s.log ∧ pushWaits s.log r = false ∧
    (res = 0 ∨ (res = -EAGAIN ∨ res = -EPIPE) ∧ (s.pushes r).moved = false)

section Fates

variable {s : Spec T} (h : s.Inv) {r p : ℕ}
include h

/-- A push in the list waits, and nothing has been done to it. -/
theorem Inv.push_queued (hr : r ∈ s.pushQ) : pushWaits s.log r = true ∧ r ∉ s.cancellingPush ∧
    pushCauses s.log r = [] ∧ (s.pushes r).outcome = PushOutcome.pending := by
  obtain ⟨h1, h2, h3, h4⟩ := h.pushFates.of_queued (R := s.pushRoom) hr
  exact ⟨h1, fun hc => h2 .cancelled ⟨hc, rfl⟩, h3, h4⟩

theorem Inv.pop_queued (hp : p ∈ s.popQ) : popWaits s.log p = true ∧ p ∉ s.cancellingPop ∧
    popCauses s.log p = [] ∧ (s.pops p).outcome = PopOutcome.pending := by
  obtain ⟨h1, h2, h3, h4⟩ := h.popFates.of_queued (R := s.popRoom) hp
  exact ⟨h1, fun hc => h2 (.cancelled, default) ⟨hc, rfl⟩, h3, h4⟩

/-- A push that has taken itself out does not wait and is not completed. -/
theorem Inv.push_leaving (hr : r ∈ s.cancellingPush) : pushWaits s.log r = true ∧ r ∉ s.pushQ ∧
    pushCauses s.log r = [.cancelled] ∧ (s.pushes r).outcome = PushOutcome.pending :=
  h.pushFates.of_leaving (R := s.pushRoom) ⟨hr, rfl⟩

theorem Inv.pop_leaving (hp : p ∈ s.cancellingPop) : popWaits s.log p = true ∧ p ∉ s.popQ ∧
    popCauses s.log p = [(.cancelled, default)] ∧ (s.pops p).outcome = PopOutcome.pending :=
  h.popFates.of_leaving (R := s.popRoom) ⟨hp, rfl⟩

/-- A push whose request is not in the log has never waited. -/
theorem Inv.push_new (hr : r ∉ pushOrder s.log) : pushWaits s.log r = false := by
  rw [← Bool.not_eq_true]
  exact fun hw => hr (h.pushKnown r hw)

theorem Inv.pop_new (hp : p ∉ popOrder s.log) : popWaits s.log p = false := by
  rw [← Bool.not_eq_true]
  exact fun hw => hp (h.popKnown p hw)

end Fates

/-! ## The step lemma, field by field -/

section Step

variable {s s' : Spec T}

theorem popIdle_step (h : s.Inv) (t : Trans s s') :
    s'.popQ ≠ [] → s'.items = [] ∧ s'.pushQ = [] ∧ s'.closed = false := by
  cases t with
  | pushHanded r x copied rt p rest hr hclosed hp => exact fun _ => h.popIdle (by simp [hp])
  | pushBuffered r x copied rt hr hclosed hp => exact fun hne => absurd hp hne
  | pushQueued r x copied rt hr hclosed hp => exact fun hne => absurd hp hne
  | popShifted p rt r rest y ys hp hq hi =>
    intro hne
    simp [(h.popIdle hne).2.1] at hq
  | popBuffered p rt y ys hp hq hi =>
    intro hne
    simp [(h.popIdle hne).1] at hi
  | popQueued p rt hp hq hi hclosed => exact fun _ => ⟨hi, hq, hclosed⟩
  | pushCancelled r hr =>
    intro hne
    simp [(h.popIdle hne).2.1] at hr
  | popCancelled p hp => exact fun _ => h.popIdle (List.ne_nil_of_mem hp)
  | popClosed p rest hp => exact fun _ => h.popIdle (by simp [hp])
  | pushClosed r rest hr =>
    intro hne
    simp [(h.popIdle hne).2.1] at hr
  | close hp => exact fun hne => absurd hp hne
  | destroy hclosed =>
    intro hne
    simp [(h.popIdle hne).2.2] at hclosed
  | pushRefused | popRefused | pushCancelDone | popCancelDone => exact h.popIdle

theorem pushFull_step (h : s.Inv) (t : Trans s s') :
    s'.pushQ ≠ [] → s'.items.length = s'.cap ∧ s'.closed = false := by
  cases t with
  | pushBuffered r x copied rt hr hclosed hp hl =>
    intro hne
    have := (h.pushFull hne).1
    omega
  | pushQueued r x copied rt hr hclosed hp hl => exact fun _ => ⟨hl, hclosed⟩
  | popShifted p rt r rest y ys hp hq hi =>
    have hlen := congrArg List.length hi
    simp only [List.length_append, List.length_cons, List.length_nil] at hlen
    have hfull := h.pushFull (by simp [hq])
    exact fun _ => ⟨by simp only; omega, hfull.2⟩
  | popBuffered p rt y ys hp hq hi => exact fun hne => absurd hq hne
  | pushCancelled r hr => exact fun _ => h.pushFull (List.ne_nil_of_mem hr)
  | pushClosed r rest hr => exact fun _ => h.pushFull (by simp [hr])
  | close hp hr => exact fun hne => absurd hr hne
  | destroy hclosed =>
    intro hne
    simp [(h.pushFull hne).2] at hclosed
  | pushRefused | pushHanded | popRefused | popQueued | pushCancelDone | popCancelled | popCancelDone | popClosed =>
    exact h.pushFull

theorem len_step (h : s.Inv) (t : Trans s s') : s'.items.length ≤ s'.cap := by
  have hlen := h.len
  cases t with
  | pushBuffered r x copied rt hr hclosed hp hl =>
    simp only [List.length_append, List.length_singleton]
    omega
  | popShifted p rt r rest y ys hp hq hi =>
    have hlen := congrArg List.length hi
    simp only [List.length_append, List.length_cons, List.length_nil] at hlen
    simp only
    omega
  | popBuffered p rt y ys hp hq hi =>
    rw [hi, List.length_cons] at hlen
    simp only
    omega
  | destroy => exact Nat.zero_le _
  | _ => exact hlen

theorem nodup_step (h : s.Inv) (t : Trans s s') :
    s'.pushQ.Nodup ∧ s'.popQ.Nodup ∧ s'.cancellingPush.Nodup ∧ s'.cancellingPop.Nodup := by
  obtain ⟨h1, h2, h3, h4⟩ := h.nodup
  cases t with
  | pushHanded r x copied rt p rest hr hclosed hp => exact ⟨h1, (List.nodup_cons.mp (hp ▸ h2)).2, h3, h4⟩
  | pushQueued r x copied rt hr =>
    have hnew : r ∉ s.pushQ := (h.pushFates.of_not_waited (R := s.pushRoom) (h.push_new hr)).1
    exact ⟨nodup_snoc h1 hnew, h2, h3, h4⟩
  | popShifted p rt r rest y ys hp hq => exact ⟨(List.nodup_cons.mp (hq ▸ h1)).2, h2, h3, h4⟩
  | popQueued p rt hp =>
    have hnew : p ∉ s.popQ := (h.popFates.of_not_waited (R := s.popRoom) (h.pop_new hp)).1
    exact ⟨h1, nodup_snoc h2 hnew, h3, h4⟩
  | pushCancelled r hr =>
    exact ⟨h1.erase r, h2, nodup_snoc h3 (h.push_queued hr).2.1, h4⟩
  | pushCancelDone r => exact ⟨h1, h2, h3.erase r, h4⟩
  | popCancelled p hp => exact ⟨h1, h2.erase p, h3, nodup_snoc h4 (h.pop_queued hp).2.1⟩
  | popCancelDone p => exact ⟨h1, h2, h3, h4.erase p⟩
  | popClosed p rest hp => exact ⟨h1, (List.nodup_cons.mp (hp ▸ h2)).2, h3, h4⟩
  | pushClosed r rest hr => exact ⟨(List.nodup_cons.mp (hr ▸ h1)).2, h2, h3, h4⟩
  | _ => exact ⟨h1, h2, h3, h4⟩

theorem pushFates_step (h : s.Inv) (t : Trans s s') :
    s'.pushRoom.Ok PushOutcome.pending PushOutcome.report := by
  have hf := h.pushFates
  obtain ⟨hnd, -, hndc, -⟩ := h.nodup
  cases t with
  | pushRefused r x copied rt res hr | pushHanded r x copied rt p rest hr | pushBuffered r x copied rt hr =>
    have hw := h.push_new hr
    refine hf.outsider (i := r) (fun j hj => ⟨Iff.rfl, fun _ => Iff.rfl, ?_, ?_, ?_⟩) hw Iff.rfl
      (fun _ => Iff.rfl) ?_ ?_
    all_goals simp [pushRoom, hw]
    simp [hj]
  | pushQueued r x copied rt hr =>
    have hw := h.push_new hr
    refine hf.join (i := r) (fun j hj => ⟨?_, fun _ => Iff.rfl, ?_, ?_, ?_⟩) hw ?_ (fun _ => Iff.rfl) ?_ ?_ ?_
    · simp [pushRoom, hj]
    · simp [pushRoom, hj.symm]
    · simp [pushRoom]
    · simp [pushRoom, hj]
    · simp [pushRoom]
    · simp [pushRoom]
    · simp [pushRoom]
    · simp [pushRoom, PushHandle.new, PushHandle.outcome, PushOutcome.pending]
  | popShifted p rt r rest y ys hp hq hi =>
    obtain ⟨-, -, -, ho⟩ := h.push_queued (r := r) (by simp [hq])
    rw [hq, List.nodup_cons] at hnd
    refine hf.serve (i := r) .transferred (fun j hj => ⟨?_, fun _ => Iff.rfl, ?_, ?_, ?_⟩) ?_ hnd.1
      (fun _ => Iff.rfl) ?_ ?_ ?_
    · simp [pushRoom, hq, hj]
    · simp [pushRoom]
    · simp [pushRoom, hj.symm]
    · simp [pushRoom, hj]
    · simp [pushRoom, hq]
    · simp [pushRoom]
    · simp [pushRoom]
    · simp only [pushRoom, Function.update_self, PushHandle.outcome_done, PushHandle.outcome_take, ho]
      rfl
  | pushCancelled r hr =>
    refine hf.take (i := r) .cancelled (fun j hj => ⟨?_, ?_, ?_, ?_, rfl⟩) hr hnd.not_mem_erase ?_ ?_ ?_ rfl
    · exact List.mem_erase_of_ne hj
    · simp [pushRoom, hj]
    · simp [pushRoom]
    · simp [pushRoom, hj.symm]
    · simp [pushRoom, (h.push_queued hr).2.1]
    · simp [pushRoom]
    · simp [pushRoom]
  | pushCancelDone r hr =>
    obtain ⟨-, -, -, ho⟩ := h.push_leaving hr
    refine hf.finish (i := r) (fun j hj => ⟨Iff.rfl, ?_, rfl, rfl, ?_⟩) ⟨hr, rfl⟩ Iff.rfl ?_ rfl rfl ?_
    · simp [pushRoom, List.mem_erase_of_ne hj]
    · simp [pushRoom, hj]
    · simp [pushRoom, hndc.not_mem_erase]
    · simp only [pushRoom, Function.update_self, PushHandle.outcome_done, ho]
      rfl
  | pushClosed r rest hr =>
    obtain ⟨-, -, -, ho⟩ := h.push_queued (r := r) (by simp [hr])
    rw [hr, List.nodup_cons] at hnd
    refine hf.serve (i := r) .closed (fun j hj => ⟨?_, fun _ => Iff.rfl, ?_, ?_, ?_⟩) ?_ hnd.1
      (fun _ => Iff.rfl) ?_ ?_ ?_
    · simp [pushRoom, hr, hj]
    · simp [pushRoom]
    · simp [pushRoom, hj.symm]
    · simp [pushRoom, hj]
    · simp [pushRoom, hr]
    · simp [pushRoom]
    · simp [pushRoom]
    · simp only [pushRoom, Function.update_self, PushHandle.outcome_done, ho]
      rfl
  | popRefused | popBuffered | popQueued | popCancelled | popCancelDone | popClosed | close | destroy =>
    exact hf.congr (fun j => ⟨Iff.rfl, fun _ => Iff.rfl, by simp [pushRoom], by simp [pushRoom], rfl⟩)

theorem popFates_step (h : s.Inv) (t : Trans s s') :
    s'.popRoom.Ok PopOutcome.pending PopOutcome.report := by
  have hf := h.popFates
  obtain ⟨-, hnd, -, hndc⟩ := h.nodup
  cases t with
  | popRefused p rt res hp | popShifted p rt r rest y ys hp | popBuffered p rt y ys hp =>
    have hw := h.pop_new hp
    refine hf.outsider (i := p) (fun j hj => ⟨Iff.rfl, fun _ => Iff.rfl, ?_, ?_, ?_⟩) hw Iff.rfl
      (fun _ => Iff.rfl) ?_ ?_
    all_goals simp [popRoom, hw]
    simp [hj]
  | popQueued p rt hp =>
    have hw := h.pop_new hp
    refine hf.join (i := p) (fun j hj => ⟨?_, fun _ => Iff.rfl, ?_, ?_, ?_⟩) hw ?_ (fun _ => Iff.rfl) ?_ ?_ ?_
    · simp [popRoom, hj]
    · simp [popRoom, hj.symm]
    · simp [popRoom]
    · simp [popRoom, hj]
    · simp [popRoom]
    · simp [popRoom]
    · simp [popRoom]
    · simp [popRoom, PopHandle.new, PopHandle.outcome, PopOutcome.pending]
  | pushHanded r x copied rt p rest hr hclosed hp =>
    obtain ⟨-, -, -, ho⟩ := h.pop_queued (p := p) (by simp [hp])
    rw [hp, List.nodup_cons] at hnd
    refine hf.serve (i := p) (.transferred, x) (fun j hj => ⟨?_, fun _ => Iff.rfl, ?_, ?_, ?_⟩) ?_ hnd.1
      (fun _ => Iff.rfl) ?_ ?_ ?_
    · simp [popRoom, hp, hj]
    · simp [popRoom]
    · simp [popRoom, hj.symm]
    · simp [popRoom, hj]
    · simp [popRoom, hp]
    · simp [popRoom]
    · simp [popRoom]
    · simp only [popRoom, Function.update_self, PopHandle.outcome_done, ho]
      rfl
  | popCancelled p hp =>
    refine hf.take (i := p) (.cancelled, default) (fun j hj => ⟨?_, ?_, ?_, ?_, rfl⟩) hp hnd.not_mem_erase ?_ ?_ ?_
      rfl
    · exact List.mem_erase_of_ne hj
    · simp [popRoom, hj]
    · simp [popRoom]
    · simp [popRoom, hj.symm]
    · simp [popRoom, (h.pop_queued hp).2.1]
    · simp [popRoom]
    · simp [popRoom]
  | popCancelDone p hp =>
    obtain ⟨-, -, -, ho⟩ := h.pop_leaving hp
    have hx : (s.pops p).result.2 = default := congrArg (fun o => o.result.2) ho
    refine hf.finish (i := p) (fun j hj => ⟨Iff.rfl, ?_, rfl, rfl, ?_⟩) ⟨hp, rfl⟩ Iff.rfl ?_ rfl rfl ?_
    · simp [popRoom, List.mem_erase_of_ne hj]
    · simp [popRoom, hj]
    · simp [popRoom, hndc.not_mem_erase]
    · simp only [popRoom, Function.update_self, PopHandle.outcome_done, ho, hx]
      rfl
  | popClosed p rest hp =>
    obtain ⟨-, -, -, ho⟩ := h.pop_queued (p := p) (by simp [hp])
    rw [hp, List.nodup_cons] at hnd
    refine hf.serve (i := p) (.closed, default) (fun j hj => ⟨?_, fun _ => Iff.rfl, ?_, ?_, ?_⟩) ?_ hnd.1
      (fun _ => Iff.rfl) ?_ ?_ ?_
    · simp [popRoom, hp, hj]
    · simp [popRoom]
    · simp [popRoom, hj.symm]
    · simp [popRoom, hj]
    · simp [popRoom, hp]
    · simp [popRoom]
    · simp [popRoom]
    · simp only [popRoom, Function.update_self, PopHandle.outcome_done, ho]
      rfl
  | pushRefused | pushBuffered | pushQueued | pushCancelled | pushCancelDone | pushClosed | close | destroy =>
    exact hf.congr (fun j => ⟨Iff.rfl, fun _ => Iff.rfl, by simp [popRoom], by simp [popRoom], rfl⟩)

theorem pushKnown_step (h : s.Inv) (t : Trans s s') :
    ∀ r, pushWaits s'.log r = true → r ∈ pushOrder s'.log := by
  have hk := h.pushKnown
  cases t with
  | pushQueued r =>
    intro j hj
    simp only [pushWaits_append, pushWaits_cons, pushWaits_nil, Bool.or_eq_true, beq_iff_eq] at hj
    simp only [pushOrder_append, pushOrder_cons, pushOrder_nil, List.mem_append]
    rcases hj with hj | hj
    · exact .inl (hk j hj)
    · simp at hj
      simp [hj]
  | pushCancelDone | popCancelDone | close | destroy => exact hk
  | _ =>
    intro j hj
    have := hk j (by simpa using hj)
    simp [this]

theorem popKnown_step (h : s.Inv) (t : Trans s s') :
    ∀ p, popWaits s'.log p = true → p ∈ popOrder s'.log := by
  have hk := h.popKnown
  cases t with
  | popQueued p =>
    intro j hj
    simp only [popWaits_append, popWaits_cons, popWaits_nil, Bool.or_eq_true, beq_iff_eq] at hj
    simp only [popOrder_append, popOrder_cons, popOrder_nil, List.mem_append]
    rcases hj with hj | hj
    · exact .inl (hk j hj)
    · simp at hj
      simp [hj]
  | pushCancelDone | popCancelDone | close | destroy => exact hk
  | _ =>
    intro j hj
    have := hk j (by simpa using hj)
    simp [this]

/-- The item and the runtime of a push stay as they were when it was requested. -/
theorem push_frame (t : Trans s s') {j : ℕ} (hj : j ∈ pushOrder s.log) :
    (s'.pushes j).item = (s.pushes j).item ∧ (s'.pushes j).runtime = (s.pushes j).runtime := by
  have hnew : ∀ {r : ℕ} (f : PushHandle T), r ∉ pushOrder s.log →
      (Function.update s.pushes r f) j = s.pushes j := by
    intro r f hr
    have hne : j ≠ r := fun he => hr (he ▸ hj)
    exact Function.update_of_ne hne f s.pushes
  have hold : ∀ (r : ℕ) (f : PushHandle T), f.item = (s.pushes r).item →
      f.runtime = (s.pushes r).runtime → ((Function.update s.pushes r f) j).item = (s.pushes j).item ∧
      ((Function.update s.pushes r f) j).runtime = (s.pushes j).runtime := by
    intro r f h1 h2
    by_cases he : j = r
    · subst he
      simp [h1, h2]
    · simp [he]
  cases t with
  | pushRefused r x copied rt res hr | pushHanded r x copied rt p rest hr
  | pushBuffered r x copied rt hr | pushQueued r x copied rt hr =>
    simp only [hnew _ hr, and_self]
  | popShifted p rt r =>
    exact hold r _ (by simp [PushHandle.setResult, PushHandle.take])
      (by simp [PushHandle.setResult, PushHandle.take])
  | pushCancelDone r | pushClosed r =>
    exact hold r _ (by simp [PushHandle.setResult]) (by simp [PushHandle.setResult])
  | _ => exact ⟨rfl, rfl⟩

/-- The runtime of a pop stays as it was when it was requested. -/
theorem pop_frame (t : Trans s s') {j : ℕ} (hj : j ∈ popOrder s.log) :
    (s'.pops j).runtime = (s.pops j).runtime := by
  have hnew : ∀ {p : ℕ} (f : PopHandle T), p ∉ popOrder s.log →
      (Function.update s.pops p f) j = s.pops j := by
    intro p f hp
    have hne : j ≠ p := fun he => hp (he ▸ hj)
    exact Function.update_of_ne hne f s.pops
  have hold : ∀ (p : ℕ) (f : PopHandle T), f.runtime = (s.pops p).runtime →
      ((Function.update s.pops p f) j).runtime = (s.pops j).runtime := by
    intro p f h1
    by_cases he : j = p
    · subst he
      simp [h1]
    · simp [he]
  cases t with
  | popRefused p rt res hp | popShifted p rt r rest y ys hp | popBuffered p rt y ys hp | popQueued p rt hp =>
    simp only [hnew _ hp]
  | pushHanded r x copied rt p | popCancelDone p | popClosed p => exact hold p _ rfl
  | _ => rfl

theorem pushRuntime_step (h : s.Inv) (t : Trans s s') :
    ∀ r ∈ s'.cancellingPush, (s'.pushes r).runtime.isSome := by
  have hk : ∀ r ∈ s.cancellingPush, (s'.pushes r).runtime.isSome := by
    intro r hr
    have hw := (h.push_leaving hr).1
    rw [(push_frame t (h.pushKnown r hw)).2]
    exact h.pushRuntime r hr
  cases t with
  | pushCancelled r hr hrt =>
    intro j hj
    rcases List.mem_append.mp hj with hj | hj
    · exact hk j hj
    · rw [List.mem_singleton] at hj
      exact hj ▸ hrt
  | pushCancelDone r hr => exact fun j hj => hk j (List.mem_of_mem_erase hj)
  | _ => exact hk

theorem popRuntime_step (h : s.Inv) (t : Trans s s') :
    ∀ p, popWaits s'.log p = true → (s'.pops p).runtime.isSome := by
  have hk : ∀ p, popWaits s.log p = true → (s'.pops p).runtime.isSome := by
    intro p hp
    rw [pop_frame t (h.popKnown p hp)]
    exact h.popRuntime p hp
  cases t with
  | popQueued p rt hp =>
    intro j hj
    by_cases he : j = p
    · subst he
      simp [PopHandle.new]
    · exact hk j (by simpa [Ne.symm he] using hj)
  | pushCancelDone | popCancelDone | close | destroy => exact hk
  | _ => exact fun j hj => hk j (by simpa using hj)

/-- A push that has returned is not touched any more. -/
theorem returned_frame (h : s.Inv) (t : Trans s s') {j : ℕ} {res : ℤ} (hj : Event.pushRet j res ∈ s.log) :
    j ∈ pushOrder s'.log ∧ pushWaits s'.log j = false ∧ s'.pushes j = s.pushes j := by
  obtain ⟨hord, hw, -⟩ := h.returned j res hj
  have hnew : ∀ {r : ℕ} (f : PushHandle T), r ∉ pushOrder s.log →
      (Function.update s.pushes r f) j = s.pushes j := by
    intro r f hr
    have hne : j ≠ r := fun he => hr (he ▸ hord)
    exact Function.update_of_ne hne f s.pushes
  have hwaits : ∀ {r : ℕ} (f : PushHandle T), pushWaits s.log r = true →
      (Function.update s.pushes r f) j = s.pushes j := by
    intro r f hr
    have hne : j ≠ r := by
      rintro rfl
      simp [hw] at hr
    exact Function.update_of_ne hne f s.pushes
  cases t with
  | pushRefused r x copied rt res' hr | pushHanded r x copied rt p rest hr | pushBuffered r x copied rt hr =>
    exact ⟨by simp [hord], by simp [hw], hnew _ hr⟩
  | pushQueued r x copied rt hr =>
    have hne : r ≠ j := fun he => hr (he ▸ hord)
    exact ⟨by simp [hord], by simp [hw, hne], hnew _ hr⟩
  | popShifted p rt r rest y ys hp hq =>
    exact ⟨by simp [hord], by simp [hw], hwaits _ (h.push_queued (by simp [hq])).1⟩
  | pushCancelDone r hr =>
    exact ⟨hord, hw, hwaits _ (h.push_leaving hr).1⟩
  | pushClosed r rest hr => exact ⟨by simp [hord], by simp [hw], hwaits _ (h.push_queued (by simp [hr])).1⟩
  | _ => exact ⟨by simp [hord], by simp [hw], rfl⟩

theorem returned_step (h : s.Inv) (t : Trans s s') :
    ∀ r res, Event.pushRet r res ∈ s'.log → r ∈ pushOrder s'.log ∧ pushWaits s'.log r = false ∧
      (res = 0 ∨ (res = -EAGAIN ∨ res = -EPIPE) ∧ (s'.pushes r).moved = false) := by
  have hk : ∀ r res, Event.pushRet r res ∈ s.log → r ∈ pushOrder s'.log ∧ pushWaits s'.log r = false ∧
      (res = 0 ∨ (res = -EAGAIN ∨ res = -EPIPE) ∧ (s'.pushes r).moved = false) := by
    intro r res hr
    obtain ⟨h1, h2, h3⟩ := returned_frame h t hr
    rw [h3]
    exact ⟨h1, h2, (h.returned r res hr).2.2⟩
  cases t with
  | pushRefused r x copied rt res hr hres =>
    intro j res' hj
    rcases List.mem_append.mp hj with hj | hj
    · exact hk j res' hj
    · obtain ⟨rfl, rfl⟩ : j = r ∧ res' = res := by simpa using hj
      refine ⟨by simp, by simp [h.push_new hr], .inr ⟨?_, by simp [PushHandle.new]⟩⟩
      rcases hres with ⟨-, hres⟩ | ⟨-, -, hres⟩
      · exact .inr hres
      · exact .inl hres
  | pushHanded r x copied rt p rest hr | pushBuffered r x copied rt hr =>
    intro j res' hj
    rcases List.mem_append.mp hj with hj | hj
    · exact hk j res' hj
    · obtain ⟨rfl, rfl⟩ : j = r ∧ res' = 0 := by simpa using hj
      exact ⟨by simp, by simp [h.push_new hr], .inl rfl⟩
  | pushCancelDone | popCancelDone | close | destroy => exact hk
  | _ => exact fun j res' hj => hk j res' (by simpa using hj)

/-- **Step lemma.** -/
theorem Trans.inv (h : s.Inv) (t : Trans s s') : s'.Inv where
  popIdle := popIdle_step h t
  pushFull := pushFull_step h t
  len := len_step h t
  nodup := nodup_step h t
  pushFates := pushFates_step h t
  popFates := popFates_step h t
  pushKnown := pushKnown_step h t
  popKnown := popKnown_step h t
  pushRuntime := pushRuntime_step h t
  popRuntime := popRuntime_step h t
  returned := returned_step h t

end Step

theorem inv_empty (cap : ℕ) : (Spec.empty cap : Spec T).Inv where
  popIdle := fun h => absurd rfl h
  pushFull := fun h => absurd rfl h
  len := Nat.zero_le _
  nodup := ⟨List.nodup_nil, List.nodup_nil, List.nodup_nil, List.nodup_nil⟩
  pushFates := fun _ => .idle rfl List.not_mem_nil (fun _ h => nomatch h.1) rfl
  popFates := fun _ => .idle rfl List.not_mem_nil (fun _ h => nomatch h.1) rfl
  pushKnown := fun _ h => nomatch h
  popKnown := fun _ h => nomatch h
  pushRuntime := fun _ h => nomatch h
  popRuntime := fun _ h => nomatch h
  returned := fun _ _ h => nomatch h

theorem inv_star {s s' : Spec T} (h : s.Inv) (t : Relation.ReflTransGen Trans s s') : s'.Inv := by
  induction t with
  | refl => exact h
  | tail _ ht ih => exact ht.inv ih

theorem cap_star {s s' : Spec T} (t : Relation.ReflTransGen Trans s s') : s'.cap = s.cap := by
  induction t with
  | refl => rfl
  | tail _ ht ih =>
    rw [← ih]
    cases ht <;> rfl

/-- A destroyed channel is closed and empty. -/
theorem destroyed_step {s s' : Spec T} (hI : s.Inv) (t : Trans s s')
    (h : s.destroyed = true → s.closed = true ∧ s.items = []) (hd : s'.destroyed = true) :
    s'.closed = true ∧ s'.items = [] := by
  cases t with
  | pushBuffered r x copied rt hr hclosed hp hl => exact absurd (h hd).1 (by simp [hclosed])
  | popShifted p rt r rest y ys hp hq hi =>
    have hopen := (hI.pushFull (by simp [hq])).2
    exact absurd (h hd).1 (by simp [hopen])
  | popBuffered p rt y ys hp hq hi => exact absurd (h hd).2 (by simp [hi])
  | close hp hr => exact ⟨rfl, (h hd).2⟩
  | destroy hclosed => exact ⟨hclosed, rfl⟩
  | _ => exact h hd

theorem destroyed_star {s s' : Spec T} (hI : s.Inv) (hs : s.destroyed = false)
    (t : Relation.ReflTransGen Trans s s') : s'.destroyed = true → s'.closed = true ∧ s'.items = [] := by
  induction t with
  | refl => exact fun hd => absurd hd (by simp [hs])
  | tail hu ht ih => exact destroyed_step (inv_star hI hu) ht ih

/-- A requested push stays requested, with its item and its runtime. -/
theorem push_frame_star {s s' : Spec T} (t : Relation.ReflTransGen Trans s s') {j : ℕ} (hj : j ∈ pushOrder s.log) :
    j ∈ pushOrder s'.log ∧ (s'.pushes j).item = (s.pushes j).item ∧
      (s'.pushes j).runtime = (s.pushes j).runtime := by
  induction t with
  | refl => exact ⟨hj, rfl, rfl⟩
  | tail _ ht ih =>
    obtain ⟨hord, hitem, hrt⟩ := ih
    obtain ⟨hitem', hrt'⟩ := push_frame ht hord
    refine ⟨?_, hitem'.trans hitem, hrt'.trans hrt⟩
    cases ht <;> simp [hord]

end Spec

end Condy
