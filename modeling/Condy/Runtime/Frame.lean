import Condy.Runtime.Pending

/-!
# Condy.Runtime.Frame — what most steps leave alone

Only the thread of a runtime moves its loop, starts operations and calls finish handles.  `Kept` collects what the other
steps leave as it is, and `step_kept` says so of all of them at once.
-/

namespace Condy

open Lib

namespace Runtime

/-- What decides when the loop looks at the completion queue. -/
structure Clock where
  control : Control
  tickCount : ℕ
  eventInterval : ℕ
  ringEnabled : Bool

def clock (s : Runtime) : Clock := ⟨s.control, s.tickCount, s.eventInterval, s.ringEnabled⟩

/-- The loop stands where it stood, and the operations and their results are the same. -/
structure Kept (s s' : Runtime) : Prop where
  clock : s'.clock = s.clock
  ops : s'.ops = s.ops
  received : s'.received = s.received
  nextTag : s'.nextTag = s.nextTag

variable {s s' s'' : Runtime}

theorem Kept.refl (s : Runtime) : Kept s s := ⟨rfl, rfl, rfl, rfl⟩

theorem Kept.trans (h : Kept s s') (h' : Kept s' s'') : Kept s s'' :=
  ⟨h'.clock.trans h.clock, h'.ops.trans h.ops, h'.received.trans h.received, h'.nextTag.trans h.nextTag⟩

theorem resumeWork_kept (s : Runtime) : Kept s s.resumeWork := by
  unfold resumeWork
  split <;> exact ⟨rfl, rfl, rfl, rfl⟩

theorem queueSqe_kept {e : Sqe} (hs : s.queueSqe e = some s') : Kept s s' := by
  obtain ⟨r, -, rfl⟩ := Option.map_eq_some_iff.mp hs
  exact ⟨rfl, rfl, rfl, rfl⟩

theorem invoke_kept (s : Runtime) (w : ℕ) : Kept s (s.invoke w) := by
  unfold invoke
  split
  · have h := resumeWork_kept s
    exact ⟨h.clock, h.ops, h.received, h.nextTag⟩
  · exact .refl s

theorem setCallback_kept (s : Runtime) (addr : ℕ) (cb : StopCallback) : Kept s (s.setCallback addr cb) :=
  ⟨rfl, ops_setCallback s addr cb, rfl, rfl⟩

theorem remotePush_kept (s : Runtime) (w : ℕ) : Kept s (s.remotePush w) := by
  unfold remotePush
  split <;> exact ⟨rfl, rfl, rfl, rfl⟩

theorem execute_kept {e : Sqe} {hit : Option ℕ} {res : ℤ} (hs : s.execute e hit res = some s') : Kept s s' := by
  unfold execute at hs
  split at hs
  · rw [← Option.some.inj hs]
    exact ⟨rfl, rfl, rfl, rfl⟩
  · rw [← Option.some.inj hs]
    exact ⟨rfl, rfl, rfl, rfl⟩
  · cases hit <;> rw [← Option.some.inj (Option.ite_none_right_eq_some.mp hs).2] <;> exact ⟨rfl, rfl, rfl, rfl⟩

/-- The steps of the runtime's thread in `run()` itself, and the start of an operation. -/
def Op.loops : Op → Bool
  | .run | .tick | .pick | .waitReturn | .reap | .ret => true
  | _ => false

def Op.starts : Op → Bool
  | .start .. => true
  | _ => false

theorem step_kept {op : Op} (hl : op.loops = false) (hst : op.starts = false) (hs : step s op = some s') : Kept s s' := by
  cases op with
  | run | tick | pick | waitReturn | reap | ret => cases hl
  | start => cases hst
  | sendMsg submit =>
    obtain ⟨u, hu, rfl⟩ := Option.map_eq_some_iff.mp (Option.ite_none_right_eq_some.mp hs).2
    obtain ⟨v, hv, rfl⟩ := Option.map_eq_some_iff.mp hu
    have h := queueSqe_kept hv
    split <;> exact ⟨h.clock, h.ops, h.received, h.nextTag⟩
  | requestStop addr =>
    obtain ⟨u, hu, rfl⟩ := Option.map_eq_some_iff.mp (Option.ite_none_right_eq_some.mp hs).2
    obtain ⟨g, -, hu⟩ := Option.bind_eq_some_iff.mp hu
    exact (queueSqe_kept hu).trans (setCallback_kept u addr .ran)
  | joinFinished =>
    rw [← Option.some.inj (Option.ite_none_right_eq_some.mp hs).2]
    exact ⟨rfl, rfl, rfl, rfl⟩
  | schedule w | beginWait w | wake w | remoteWakeup | postMsg res =>
    rw [← Option.some.inj (Option.ite_none_right_eq_some.mp hs).2]
    exact ⟨rfl, rfl, rfl, rfl⟩
  | remoteStopBegin addr | remoteStopEnd addr =>
    rw [← Option.some.inj (Option.ite_none_right_eq_some.mp hs).2]
    exact setCallback_kept s addr _
  | allowExit =>
    rw [← Option.some.inj hs]
    exact ⟨rfl, rfl, rfl, rfl⟩
  | remoteSchedule w =>
    rw [← Option.some.inj (Option.ite_none_right_eq_some.mp hs).2]
    exact remotePush_kept s w
  | remoteWake w =>
    rw [← Option.some.inj (Option.ite_none_right_eq_some.mp hs).2]
    have h := remotePush_kept (s.setWoken w) w
    exact ⟨h.clock, h.ops, h.received, h.nextTag⟩
  | remoteStopSend addr =>
    obtain ⟨g, -, rfl⟩ := Option.map_eq_some_iff.mp (Option.ite_none_right_eq_some.mp hs).2
    exact ⟨rfl, ops_setCallback s addr _, rfl, rfl⟩
  | deliver i =>
    obtain ⟨c, -, rfl⟩ := Option.map_eq_some_iff.mp hs
    exact ⟨rfl, rfl, rfl, rfl⟩
  | exec hit res =>
    obtain ⟨e, -, hs⟩ := Option.bind_eq_some_iff.mp (Option.ite_none_right_eq_some.mp hs).2
    have h := execute_kept hs
    exact ⟨h.clock, h.ops, h.received, h.nextTag⟩
  | post tag res more notif =>
    obtain ⟨r, -, hs⟩ := Option.bind_eq_some_iff.mp hs
    obtain ⟨p, -, rfl⟩ := Option.map_eq_some_iff.mp hs
    exact ⟨rfl, rfl, rfl, rfl⟩

/-- The operations and their results change only by starts and by completions. -/
theorem step_ops {op : Op} (hst : op.starts = false) (hr : op ≠ .reap) (hs : step s op = some s') :
    s'.ops = s.ops ∧ s'.received = s.received ∧ s'.nextTag = s.nextTag := by
  cases hl : op.loops with
  | false =>
    have h := step_kept hl hst hs
    exact ⟨h.ops, h.received, h.nextTag⟩
  | true =>
    cases op with
    | reap => exact absurd rfl hr
    | run =>
      obtain ⟨-, hs⟩ := Option.ite_none_left_eq_some.mp hs
      split at hs <;> rw [← Option.some.inj hs] <;> exact ⟨rfl, rfl, rfl⟩
    | tick =>
      rw [← Option.some.inj (Option.ite_none_right_eq_some.mp hs).2]
      unfold tick
      split <;> exact ⟨rfl, rfl, rfl⟩
    | pick =>
      rw [← Option.some.inj (Option.ite_none_right_eq_some.mp hs).2]
      unfold pick
      split
      · rename_i w ws _
        have h := invoke_kept ({ s with localQueue := ws } : Runtime) w
        exact ⟨h.ops, h.received, h.nextTag⟩
      · split <;> exact ⟨rfl, rfl, rfl⟩
    | waitReturn =>
      rw [← Option.some.inj (Option.ite_none_right_eq_some.mp hs).2]
      exact ⟨rfl, rfl, rfl⟩
    | ret =>
      simp only [step] at hs
      split at hs
      · rw [← Option.some.inj hs]
        exact ⟨rfl, rfl, rfl⟩
      · rename_i finish _
        rw [← Option.some.inj hs]
        have h := resumeWork_kept s
        cases finish with
        | false => exact ⟨rfl, rfl, rfl⟩
        | true => exact ⟨h.ops, h.received, h.nextTag⟩
      · cases hs
    | _ => cases hl

/-! ## Starting an operation, and processing a completion -/

theorem start_cases {addr : ℕ} {kind : OpKind} {stopRequested prepFails stopPossible : Bool}
    (hs : s.start addr kind stopRequested prepFails stopPossible = some s') :
    s'.clock = s.clock ∧ s'.nextTag = s.nextTag + 1 ∧
      if stopRequested || prepFails then
        s'.ops = s.ops ∧ s'.received = s.received ++ [(s.nextTag, if stopRequested then -ECANCELED else -EINVAL)]
      else s'.ops = s.ops ++ [⟨addr, kind, s.nextTag⟩] ∧ s'.received = s.received := by
  have hfin : (kind.handle false false).1 = true := by cases kind <;> rfl
  unfold start at hs
  obtain ⟨-, hs⟩ := Option.ite_none_left_eq_some.mp hs
  cases stopRequested with
  | true =>
    rw [← Option.some.inj hs, fail, if_pos hfin]
    exact ⟨rfl, rfl, rfl, rfl⟩
  | false =>
    cases prepFails with
    | true =>
      rw [← Option.some.inj hs, fail, if_pos hfin]
      exact ⟨rfl, rfl, rfl, rfl⟩
    | false =>
      obtain ⟨u, hu, rfl⟩ := Option.map_eq_some_iff.mp hs
      obtain ⟨r, -, rfl⟩ := Option.map_eq_some_iff.mp hu
      exact ⟨rfl, rfl, List.map_append, rfl⟩

/-- The finish handle that `process_cqe_` calls with a completion. -/
def handleOf (s : Runtime) (c : Cqe) : Option FinishHandle :=
  match decodeWork c.userData with
  | (data, some .common) => s.handles.find? (·.addr = data)
  | _ => none

/-- `process_cqe_` moves the thread within `run()`.  If it calls a finish handle, what happens to that and to its
receiver is what `handle` says; nothing happens to the other operations. -/
theorem processCqe_cases {next : After} {c : Cqe} (hs : s.processCqe next c = some s') :
    (∃ k, k ≠ .idle ∧ s'.clock = { s.clock with control := k }) ∧ s'.nextTag = s.nextTag ∧
      match s.handleOf c with
      | none => s'.ops = s.ops ∧ s'.received = s.received
      | some g =>
        s'.ops = (if (g.kind.handle c.more c.notif).2 then s.ops.filter (fun o => o.addr ≠ g.addr) else s.ops) ∧
        s'.received = if (g.kind.handle c.more c.notif).1 then s.received ++ [(g.tag, c.res)] else s.received := by
  unfold processCqe at hs
  unfold handleOf
  split at hs <;> rename_i hd <;> rw [hd]
  · rw [← Option.some.inj hs]
    exact ⟨⟨.reap next, by simp, rfl⟩, rfl, rfl, rfl⟩
  · rename_i data
    split at hs
    · split at hs
      · rw [← Option.some.inj hs]
        exact ⟨⟨.panicked, by simp, rfl⟩, rfl, rfl, rfl⟩
      · rw [← Option.some.inj hs]
        have h := resumeWork_kept s
        exact ⟨⟨.reap next, by simp, by rw [← h.clock]; rfl⟩, h.nextTag, h.ops, h.received⟩
    · rw [← Option.some.inj hs]
      have h := invoke_kept s data
      exact ⟨⟨.handler next false, by simp, by rw [← h.clock]; rfl⟩, h.nextTag, h.ops, h.received⟩
  · obtain ⟨u, hu, rfl⟩ := Option.map_eq_some_iff.mp hs
    have h := queueSqe_kept hu
    exact ⟨⟨.reap next, by simp, by rw [← h.clock]; rfl⟩, h.nextTag, h.ops, h.received⟩
  · rename_i data
    dsimp only at hs ⊢
    cases hf : s.handles.find? (·.addr = data) with
    | none =>
      rw [hf] at hs
      rw [← Option.some.inj hs]
      exact ⟨⟨.panicked, by simp, rfl⟩, rfl, rfl, rfl⟩
    | some g =>
      rw [hf] at hs
      obtain ⟨hs', rfl, hops⟩ := handle_spec rfl hs
      exact ⟨⟨_, by simp, rfl⟩, rfl, hops, rfl⟩
  · rw [← Option.some.inj hs]
    exact ⟨⟨.panicked, by simp, rfl⟩, rfl, rfl, rfl⟩

end Runtime

end Condy
