import Condy.Errno
import Condy.Lib.Run
import Mathlib.Logic.Function.Basic
import Mathlib.Data.List.Basic
import Mathlib.Tactic.Common

/-!
# Condy.Execution — `co_await` on a `std::execution` sender

`wait_sender` of `execution.hpp` makes an awaiter of a sender, `WaitSenderAwaiter` of `detail/execution.hpp`.  The sender
may complete inside `ex::start`, or later.  The awaiter and its receiver meet in `handle_`, which both exchange:
`await_suspend` puts the coroutine in and looks whether the receiver was there first, and `resume_` takes out what it
finds.  `affine()` brings every completion to the thread of the runtime, so the two never overlap; between them come any
number of steps of other awaiters of the same runtime, which share `pending_works_`.

`StandardSender` is the way back: it turns the result of an operation into one of the three completion signals.
-/

namespace Condy.Execution

open Lib

/-! ## Signals -/

/-- What a sender may fail with. -/
inductive SenderError (X T : Type) where
  | exceptionPtr (x : X)
  | errorCode (code : ℤ)
  | other (e : T)
deriving DecidableEq, Repr

/-- What a coroutine may be left with. -/
inductive Exception (X T : Type) where
  | held (x : X)
  | systemError (code : ℤ)
  | made (e : T)
deriving DecidableEq, Repr

inductive Signal (V X T : Type) where
  | setValue (v : V)
  | setError (e : SenderError X T)
  | setStopped
deriving DecidableEq, Repr

variable {V X T ι : Type}

/-- `StandardSender::ReceiverWrapper` on the result of an operation, or on a result with a payload. -/
def receive (res : ℤ) (v : V) : Signal V X T :=
  if 0 ≤ res then .setValue v else if res = -ECANCELED then .setStopped else .setError (.errorCode (-res))

/-- `to_exception_`. -/
def toException : SenderError X T → Exception X T
  | .exceptionPtr x => .held x
  | .errorCode code => .systemError code
  | .other e => .made e

/-- The alternatives of `result_`. -/
inductive Result (V X T : Type) where
  | value (v : V)
  | exception (e : Exception X T)
  | monostate
deriving DecidableEq, Repr

/-- `complete_value_`, `complete_error_` and `complete_stopped_`, before `resume_`. -/
def Signal.result : Signal V X T → Result V X T
  | .setValue v => .value v
  | .setError e => .exception (toException e)
  | .setStopped => .monostate

/-- What `await_resume` returns or throws. -/
def Result.outcome : Result V X T → Except (Exception X T) (Option V)
  | .value v => .ok (some v)
  | .exception e => .error e
  | .monostate => .ok none

/-! ## Awaiters -/

/-- The contents of `handle_`: `std::noop_coroutine()`, null, or the coroutine that awaits.  `await_suspend` compares
`handle_` with another `std::noop_coroutine()`; that the two handles are equal is taken for granted here, as the code
does, though the C++ standard leaves it open. -/
inductive Handle where
  | noop | null | coro
deriving DecidableEq, Repr

inductive Place where
  | ready
  /-- Inside `ex::start(op_state_)`. -/
  | starting
  | suspended
  /-- The coroutine went on. -/
  | resumed
deriving DecidableEq, Repr

structure WaitSenderAwaiter (V X T : Type) where
  handle : Handle
  result : Option (Result V X T)
  place : Place
  /-- What `await_resume` gave, each time the coroutine went on. -/
  got : List (Except (Exception X T) (Option V))

/-- The awaiters of one runtime.  `fault` is set when a null handle is resumed, an empty result is read, or
`pending_works_` is decremented from zero. -/
structure Waits (ι V X T : Type) where
  awaiter : ι → WaitSenderAwaiter V X T
  pendingWorks : ℕ
  fault : Bool
  /-- The signals that the senders sent. -/
  sent : ι → Option (Signal V X T)

namespace Waits

def init (pendingWorks : ℕ) : Waits ι V X T :=
  { awaiter := fun _ => ⟨.noop, none, .ready, []⟩, pendingWorks, fault := false, sent := fun _ => none }

variable [DecidableEq ι]

def set (s : Waits ι V X T) (i : ι) (a : WaitSenderAwaiter V X T) : Waits ι V X T :=
  { s with awaiter := Function.update s.awaiter i a }

/-- The coroutine goes on: `await_resume`. -/
def awaitResume (s : Waits ι V X T) (i : ι) (a : WaitSenderAwaiter V X T) : Waits ι V X T :=
  match s.pendingWorks, a.result with
  | n + 1, some r => { s with pendingWorks := n }.set i { a with place := .resumed, got := a.got ++ [r.outcome] }
  | _, _ => { s with fault := true }

inductive Op (ι V X T : Type) where
  /-- `await_suspend` up to the call of `ex::start`. -/
  | awaitSuspend (i : ι)
  /-- The sender completes.  A sender does this once, after it was started. -/
  | complete (i : ι) (sig : Signal V X T)
  /-- The rest of `await_suspend`. -/
  | startReturns (i : ι)
deriving DecidableEq, Repr

def step (s : Waits ι V X T) : Op ι V X T → Option (Waits ι V X T)
  | .awaitSuspend i =>
    if (s.awaiter i).place = .ready then
      some ({ s with pendingWorks := s.pendingWorks + 1 }.set i { s.awaiter i with place := .starting })
    else none
  | .complete i sig =>
    let a := s.awaiter i
    if a.place ≠ .ready ∧ s.sent i = none then
      let s := { s with sent := Function.update s.sent i (some sig) }
      let a' := { a with result := some sig.result, handle := .null }
      match a.handle with
      | .noop => some (s.set i a')
      | .coro => some (s.awaitResume i a')
      | .null => some { s with fault := true }
    else none
  | .startReturns i =>
    let a := s.awaiter i
    if a.place = .starting then
      let a' := { a with handle := .coro }
      if a.handle = .noop then some (s.set i { a' with place := .suspended }) else some (s.awaitResume i a')
    else none

end Waits

/-! ## Invariant -/

/-- The states of an awaiter, with what its sender sent. -/
inductive WaitSenderAwaiter.Ok : WaitSenderAwaiter V X T → Option (Signal V X T) → Prop
  | ready : Ok ⟨.noop, none, .ready, []⟩ none
  | starting : Ok ⟨.noop, none, .starting, []⟩ none
  /-- The sender completed inside `ex::start`. -/
  | early (sig : Signal V X T) : Ok ⟨.null, some sig.result, .starting, []⟩ (some sig)
  | suspended : Ok ⟨.coro, none, .suspended, []⟩ none
  | resumed (h : Handle) (sig : Signal V X T) : Ok ⟨h, some sig.result, .resumed, [sig.result.outcome]⟩ (some sig)

/-- The coroutine waits for the sender, or is about to look. -/
def WaitSenderAwaiter.Waiting (a : WaitSenderAwaiter V X T) : Prop := a.place = .starting ∨ a.place = .suspended

namespace Waits

/-- `pending_works_` counts the awaiters of `live`, which are those that wait, on top of `base`. -/
structure Inv (base : ℕ) (live : List ι) (s : Waits ι V X T) : Prop where
  ok : ∀ i, (s.awaiter i).Ok (s.sent i)
  nodup : live.Nodup
  waiting : ∀ i, i ∈ live ↔ (s.awaiter i).Waiting
  count : s.pendingWorks = base + live.length
  sound : s.fault = false

theorem init_inv (base : ℕ) : Inv base [] (init base : Waits ι V X T) where
  ok _ := .ready
  nodup := List.nodup_nil
  waiting i := by simp [init, WaitSenderAwaiter.Waiting]
  count := rfl
  sound := rfl

variable [DecidableEq ι] {base n : ℕ} {live live' : List ι} {s s' : Waits ι V X T} {i : ι}
  {a : WaitSenderAwaiter V X T} {sent : ι → Option (Signal V X T)}

/-- One awaiter changes, and `live` with it. -/
theorem Inv.set (h : Inv base live s) (hok : a.Ok (sent i)) (hsent : ∀ j, j ≠ i → sent j = s.sent j)
    (hnd : live'.Nodup) (hi : i ∈ live' ↔ a.Waiting) (hother : ∀ j, j ≠ i → (j ∈ live' ↔ j ∈ live))
    (hn : n = base + live'.length) : Inv base live' ({ s with pendingWorks := n, sent := sent }.set i a) where
  ok j := by
    show (Function.update s.awaiter i a j).Ok (sent j)
    rcases eq_or_ne j i with rfl | hj
    · rw [Function.update_self]
      exact hok
    · rw [Function.update_of_ne hj, hsent j hj]
      exact h.ok j
  nodup := hnd
  waiting j := by
    show j ∈ live' ↔ (Function.update s.awaiter i a j).Waiting
    rcases eq_or_ne j i with rfl | hj
    · rw [Function.update_self]
      exact hi
    · rw [Function.update_of_ne hj, hother j hj]
      exact h.waiting j
  count := hn
  sound := h.sound

/-- An awaiter that waited waits on. -/
theorem Inv.set_waiting (h : Inv base live s) (hi : (s.awaiter i).Waiting) (hok : a.Ok (sent i))
    (hsent : ∀ j, j ≠ i → sent j = s.sent j) (ha : a.Waiting) : Inv base live ({ s with sent := sent }.set i a) :=
  h.set hok hsent h.nodup (iff_of_true ((h.waiting i).mpr hi) ha) (fun _ _ => Iff.rfl) h.count

theorem Inv.awaitSuspend (h : Inv base live s) (hi : (s.awaiter i).place = .ready) :
    Inv base (i :: live) ({ s with pendingWorks := s.pendingWorks + 1 }.set i { s.awaiter i with place := .starting }) := by
  have hnew : i ∉ live := fun hm => by
    rcases (h.waiting i).mp hm with hw | hw <;> rw [hi] at hw <;> cases hw
  have hok : WaitSenderAwaiter.Ok { s.awaiter i with place := .starting } (s.sent i) := by
    have hk := h.ok i
    generalize s.awaiter i = a at hk hi
    generalize s.sent i = o at hk
    cases hk <;> cases hi
    exact .starting
  refine h.set hok (fun _ _ => rfl) (List.nodup_cons.mpr ⟨hnew, h.nodup⟩) (iff_of_true List.mem_cons_self (.inl rfl)) ?_ ?_
  · intro j hj
    rw [List.mem_cons, or_iff_right hj]
  · rw [h.count, List.length_cons, Nat.add_assoc]

/-- A coroutine whose awaiter has its result goes on. -/
theorem Inv.awaitResume (h : Inv base live s) (hi : (s.awaiter i).Waiting) (hd : Handle) (sig : Signal V X T) (p : Place)
    (hsig : sent i = some sig) (hsent : ∀ j, j ≠ i → sent j = s.sent j) :
    Inv base (live.erase i) ({ s with sent := sent }.awaitResume i ⟨hd, some sig.result, p, []⟩) := by
  have hmem : i ∈ live := (h.waiting i).mpr hi
  have hlen : live.length = (live.erase i).length + 1 := by
    have := List.length_pos_of_mem hmem
    rw [List.length_erase_of_mem hmem]
    omega
  have hpend : s.pendingWorks = base + (live.erase i).length + 1 := by
    rw [h.count, hlen, Nat.add_assoc]
  have heq : ({ s with sent := sent } : Waits ι V X T).awaitResume i ⟨hd, some sig.result, p, []⟩ =
      { s with pendingWorks := base + (live.erase i).length, sent := sent }.set i
        ⟨hd, some sig.result, .resumed, [sig.result.outcome]⟩ := by
    unfold Waits.awaitResume
    dsimp only
    rw [hpend]
    rfl
  rw [heq]
  have hok : WaitSenderAwaiter.Ok ⟨hd, some sig.result, .resumed, [sig.result.outcome]⟩ (sent i) := by
    rw [hsig]
    exact .resumed hd sig
  refine h.set hok hsent (h.nodup.erase i) (iff_of_false h.nodup.not_mem_erase ?_) ?_ rfl
  · rintro (hw | hw) <;> cases hw
  · intro j hj
    exact List.mem_erase_of_ne hj

theorem step_inv {op : Op ι V X T} (h : Inv base live s) (hs : step s op = some s') : ∃ live', Inv base live' s' := by
  cases op with
  | awaitSuspend i =>
    obtain ⟨hi, hs⟩ := Option.ite_none_right_eq_some.mp hs
    rw [← Option.some.inj hs]
    exact ⟨_, h.awaitSuspend hi⟩
  | complete i sig =>
    obtain ⟨⟨hi, hnone⟩, hs⟩ := Option.ite_none_right_eq_some.mp hs
    have hk := h.ok i
    have hself : Function.update s.sent i (some sig) i = some sig := Function.update_self ..
    have hother : ∀ j, j ≠ i → Function.update s.sent i (some sig) j = s.sent j :=
      fun j hj => Function.update_of_ne hj ..
    -- before the sender completes the awaiter is in `ex::start` with nothing exchanged yet, or suspended
    rw [hnone] at hk
    cases ha : s.awaiter i with
    | mk hd r p g =>
      rw [ha] at hk hs hi
      cases hk with
      | ready => exact absurd rfl hi
      | starting =>
        rw [← Option.some.inj hs]
        exact ⟨live, h.set_waiting (.inl (ha ▸ rfl)) (hself.symm ▸ .early sig) hother (.inl rfl)⟩
      | suspended =>
        rw [← Option.some.inj hs]
        exact ⟨_, h.awaitResume (.inr (ha ▸ rfl)) .null sig .suspended hself hother⟩
  | startReturns i =>
    obtain ⟨hi, hs⟩ := Option.ite_none_right_eq_some.mp hs
    have hk := h.ok i
    cases ha : s.awaiter i with
    | mk hd r p g =>
      have hw : (s.awaiter i).Waiting := .inl hi
      rw [ha] at hk hs hi
      cases hsent : s.sent i with
      | none =>
        rw [hsent] at hk
        cases hk with
        | ready => cases hi
        | starting =>
          rw [← Option.some.inj hs]
          exact ⟨live, h.set_waiting hw (hsent.symm ▸ .suspended) (fun _ _ => rfl) (.inr rfl)⟩
        | suspended => cases hi
      | some sig =>
        rw [hsent] at hk
        cases hk with
        | early =>
          rw [← Option.some.inj hs]
          exact ⟨_, h.awaitResume hw .coro sig .starting hsent fun _ _ => rfl⟩
        | resumed => cases hi

/-! ## Runs -/

theorem run_inv_init {ops : List (Op ι V X T)} (hrun : run step (init base) ops = some s) : ∃ live, Inv base live s :=
  run_inv (I := fun s => ∃ live, Inv base live s) (fun _ _ _ h hs => h.elim fun _ h => step_inv h hs) ops
    ⟨[], init_inv base⟩ hrun

theorem awaitResume_sent (s : Waits ι V X T) (i : ι) (a : WaitSenderAwaiter V X T) : (s.awaitResume i a).sent = s.sent := by
  unfold Waits.awaitResume
  split <;> rfl

theorem complete_sent {sig : Signal V X T} (hs : step s (.complete i sig) = some s') :
    s.sent i = none ∧ s'.sent = Function.update s.sent i (some sig) := by
  obtain ⟨⟨-, hnone⟩, hs⟩ := Option.ite_none_right_eq_some.mp hs
  refine ⟨hnone, ?_⟩
  dsimp only at hs
  split at hs
  · rw [← Option.some.inj hs]
    rfl
  · rw [← Option.some.inj hs, awaitResume_sent]
  · rw [← Option.some.inj hs]

/-- Only a completion of the sender changes what it sent, and it completes once. -/
theorem step_sent {op : Op ι V X T} (hs : step s op = some s') : s'.sent = s.sent ∨
    ∃ i sig, op = .complete i sig ∧ s.sent i = none ∧ s'.sent = Function.update s.sent i (some sig) := by
  cases op with
  | awaitSuspend j =>
    obtain ⟨-, hs⟩ := Option.ite_none_right_eq_some.mp hs
    rw [← Option.some.inj hs]
    exact .inl rfl
  | complete j sig => exact .inr ⟨j, sig, rfl, complete_sent hs⟩
  | startReturns j =>
    obtain ⟨-, hs⟩ := Option.ite_none_right_eq_some.mp hs
    dsimp only at hs
    split at hs
    · rw [← Option.some.inj hs]
      exact .inl rfl
    · rw [← Option.some.inj hs, awaitResume_sent]
      exact .inl rfl

/-- What the senders sent are the completions of the run. -/
theorem sent_iff {ops : List (Op ι V X T)} {sig : Signal V X T} (hrun : run step (init base) ops = some s) :
    s.sent i = some sig ↔ .complete i sig ∈ ops := by
  constructor
  · intro hsent
    have hstep : ∀ (t : Waits ι V X T) op t', True → step t op = some t' → t'.sent i = some sig →
        t.sent i = some sig ∨ op = .complete i sig := by
      rintro t op t' - hs hsig
      rcases step_sent hs with hsame | ⟨j, sig', rfl, -, hnew⟩
      · exact .inl (hsame ▸ hsig)
      · rcases eq_or_ne i j with rfl | hj
        · rw [hnew, Function.update_self] at hsig
          exact .inr (by rw [Option.some.inj hsig])
        · rw [hnew, Function.update_of_ne hj] at hsig
          exact .inl hsig
    rcases run_origin (fun _ _ _ _ _ => trivial) hstep ops trivial hrun hsent with h0 | ⟨op, hop, rfl⟩
    · cases h0
    · exact hop
  · intro hop
    refine run_mark (I := fun _ => True) (J := fun t => t.sent i = some sig) (G := fun _ _ => True)
      (fun _ _ _ _ _ => trivial) ?_ ?_ ops hop trivial (along_of_forall _ _ fun _ _ _ => trivial) hrun
    · rintro t t' - hs
      rw [(complete_sent hs).2, Function.update_self]
    · rintro t op t' - hsig - hs
      rcases step_sent hs with hsame | ⟨j, sig', -, hnone, hnew⟩
      · rw [hsame, hsig]
      · have hj : i ≠ j := by
          rintro rfl
          rw [hsig] at hnone
          cases hnone
        rw [hnew, Function.update_of_ne hj, hsig]

/-- **Every awaited sender resumes its coroutine once.**  In every run of a runtime's awaiters, whether their senders
complete inside `ex::start` or later: no null handle is resumed and no missing result is read; `pending_works_` is what
it was at the start and one for each coroutine that waits; a coroutine whose sender completed went on once, with what its
sender sent, or is still inside `ex::start`; and one whose sender did not complete did not go on. -/
theorem resumes_once {ops : List (Op ι V X T)} (hrun : run step (init base) ops = some s) :
    s.fault = false ∧
    (∃ live : List ι, live.Nodup ∧ (∀ i, i ∈ live ↔ (s.awaiter i).Waiting) ∧ s.pendingWorks = base + live.length) ∧
    ∀ i, (∀ sig, .complete i sig ∈ ops → (s.awaiter i).place = .starting ∧ (s.awaiter i).got = [] ∨
        (s.awaiter i).place = .resumed ∧ (s.awaiter i).got = [sig.result.outcome]) ∧
      ((∀ sig, .complete i sig ∉ ops) → (s.awaiter i).place ≠ .resumed ∧ (s.awaiter i).got = []) := by
  obtain ⟨live, h⟩ := run_inv_init hrun
  refine ⟨h.sound, ⟨live, h.nodup, h.waiting, h.count⟩, fun i => ⟨fun sig hop => ?_, fun hnone => ?_⟩⟩
  · have hk := h.ok i
    rw [(sent_iff hrun).mpr hop] at hk
    generalize s.awaiter i = a at hk
    cases hk with
    | early => exact .inl ⟨rfl, rfl⟩
    | resumed => exact .inr ⟨rfl, rfl⟩
  · have hk := h.ok i
    have hsent : s.sent i = none := by
      rw [Option.eq_none_iff_forall_ne_some]
      exact fun sig hsig => hnone sig ((sent_iff hrun).mp hsig)
    rw [hsent] at hk
    generalize s.awaiter i = a at hk
    cases hk with
    | ready | starting | suspended => exact ⟨(by rintro ⟨⟩), rfl⟩

/-- One awaiter is suspended while the sender of another completes inside `ex::start`. -/
def inlineRun : List (Op Bool ℤ Unit Unit) :=
  [.awaitSuspend true, .startReturns true, .awaitSuspend false, .complete false (receive (-ECANCELED) 0),
    .startReturns false, .complete true (receive 5 5)]

theorem resumes_once_inline : ∃ s, run step (init 1) inlineRun = some s ∧ s.pendingWorks = 1 ∧
    (s.awaiter false).got = [.ok none] ∧ (s.awaiter true).got = [.ok (some 5)] ∧ s.fault = false :=
  ⟨_, rfl, rfl, rfl, rfl, (resumes_once (show run step (init 1) inlineRun = some _ from rfl)).1⟩

end Waits

/-- An operation awaited through `wait_sender`: a result, no value for a cancelled one, and an exception with the error
code for any other failure. -/
theorem receive_outcome (res : ℤ) (v : V) : (receive res v : Signal V X T).result.outcome =
    if 0 ≤ res then .ok (some v) else if res = -ECANCELED then .ok none else .error (.systemError (-res)) := by
  unfold receive
  split
  · rfl
  · split <;> rfl

end Condy.Execution
