import Condy.Runtime.Inv
import Mathlib.Data.List.Perm.Lattice

/-!
# Condy.Runtime.Pending — `pending_works_` counts what is outstanding

An operation is outstanding when its entry is still to be executed, the kernel executes it, or a completion of it is in
the queue.  This does not mention finish handles; that it is the same as having one is `opOutstanding_iff`.
-/

namespace Condy

open Lib

namespace Runtime

def opOutstanding (s : Runtime) (t : ℕ) : Bool :=
  decide (t ∈ sqTags s.sq) || (s.reqs t).isSome || !(stream s.cq t).isEmpty

/-- The operations, messages to other runtimes, and suspended joins, channel and futex waits that are outstanding. -/
def outstanding (s : Runtime) : ℕ :=
  (List.range s.nextTag).countP s.opOutstanding + msgCount s.sq s.msgs s.cq + s.waits.length

/-- The thread is in the loop of `run()`, outside the code that it calls. -/
def InLoop (s : Runtime) : Prop :=
  match s.control with
  | .top | .pick | .wait | .reap _ => True
  | _ => False

variable {s s' : Runtime}

theorem opOutstanding_iff (h : s.Inv) (t : ℕ) : s.opOutstanding t = true ↔ t ∈ s.ops.map OpInfo.tag := by
  have hf := h.flight
  simp only [opOutstanding, Bool.or_eq_true, decide_eq_true_eq, Bool.not_eq_true', List.isEmpty_eq_false_iff]
  constructor
  · rintro ((ht | ht) | ht)
    · obtain ⟨e, he, het⟩ := mem_sqTags.mp ht
      obtain ⟨o, ho, -, rfl⟩ := (hf.sqOk e he).opTag_mem het
      exact List.mem_map_of_mem ho
    · obtain ⟨r, hr⟩ := Option.isSome_iff_exists.mp ht
      obtain ⟨-, o, ho, rfl, -⟩ := hf.reqsOk t r hr
      exact List.mem_map_of_mem ho
    · obtain ⟨f, hfl⟩ := List.exists_mem_of_ne_nil _ ht
      obtain ⟨c, hc, hct⟩ := List.mem_filterMap.mp hfl
      obtain ⟨horig, -⟩ := Option.ite_none_right_eq_some.mp hct
      have hok := hf.cqOk c hc
      unfold CqeOk at hok
      rw [horig] at hok
      obtain ⟨o, ho, rfl, -⟩ := hok
      exact List.mem_map_of_mem ho
  · intro ht
    obtain ⟨o, ho, rfl⟩ := List.mem_map.mp ht
    have htrack := hf.track o ho
    -- If the kernel has nothing, its phase is `ended`, and the handle gets there only by a completion.
    by_contra hno
    push Not at hno
    obtain ⟨⟨hsq, hreq⟩, hstr⟩ := hno
    rw [ne_eq, Bool.not_eq_true, Option.isSome_eq_false_iff, Option.isNone_iff_eq_none] at hreq
    rw [hstr, kernelPhase, hreq] at htrack
    simp only [OpKind.emits, hsq, if_false, Option.some.injEq, handlePhase] at htrack
    split at htrack <;> cases htrack

theorem opCount_eq (h : s.Inv) : (List.range s.nextTag).countP s.opOutstanding = s.handles.length := by
  have hperm : ((List.range s.nextTag).filter s.opOutstanding).Perm (s.ops.map OpInfo.tag) := by
    refine (List.perm_ext_iff_of_nodup (List.nodup_range.filter _) h.flight.tags).mpr (fun t => ?_)
    rw [List.mem_filter, opOutstanding_iff h, List.mem_range, and_iff_right_iff_imp]
    intro ht
    obtain ⟨o, ho, rfl⟩ := List.mem_map.mp ht
    exact h.flight.bound o ho
  rw [List.countP_eq_length_filter, hperm.length_eq, List.length_map]
  exact List.length_map _

/-- The count, with what a handler has still to give back. -/
theorem pendingWorks_eq (h : s.Inv) : s.pendingWorks = s.outstanding + s.control.extra := by
  rw [outstanding, opCount_eq h]
  exact h.count

theorem InLoop.extra_eq (h : s.InLoop) : s.control.extra = 0 := by
  unfold InLoop at h
  cases hctl : s.control with
  | handler next finish => rw [hctl] at h; exact h.elim
  | panicked => rw [hctl] at h; exact h.elim
  | _ => rfl

theorem received_once (h : s.Inv) {t : ℕ} (ht : t < s.nextTag) :
    s.got.count t ≤ 1 ∧ (s.opOutstanding t = false → s.got.count t = 1) := by
  refine ⟨List.nodup_iff_count_le_one.mp h.flight.gotNodup t, fun hno => ?_⟩
  by_cases hg : t ∈ s.got
  · exact List.count_eq_one_of_mem h.flight.gotNodup hg
  · obtain ⟨o, ho, rfl⟩ := h.flight.gotAll t ht hg
    have := (opOutstanding_iff h o.tag).mpr (List.mem_map_of_mem ho)
    rw [hno] at this
    nomatch this

/-! ## Leaving the loop -/

theorem queueSqe_control {e : Sqe} (hs : s.queueSqe e = some s') : s'.control = s.control := by
  obtain ⟨r, -, rfl⟩ := Option.map_eq_some_iff.mp hs
  rfl

theorem start_control {addr : ℕ} {kind : OpKind} {stopRequested prepFails stopPossible : Bool}
    (hs : s.start addr kind stopRequested prepFails stopPossible = some s') : s'.control = s.control := by
  have hfail : ∀ (u : Runtime) (tag : ℕ) (res : ℤ), (u.fail kind tag res).control = u.control := by
    intro u tag res
    unfold fail
    split <;> rfl
  unfold start at hs
  obtain ⟨-, hs⟩ := Option.ite_none_left_eq_some.mp hs
  cases stopRequested with
  | true => rw [← Option.some.inj hs, hfail]
  | false =>
    cases prepFails with
    | true => rw [← Option.some.inj hs, hfail]
    | false =>
      obtain ⟨u, hu, rfl⟩ := Option.map_eq_some_iff.mp hs
      have hctl := queueSqe_control hu
      exact hctl

theorem execute_control {e : Sqe} {hit : Option ℕ} {res : ℤ} (hs : s.execute e hit res = some s') :
    s'.control = s.control := by
  unfold execute at hs
  cases hr : e.request with
  | op kind | msgRing =>
    rw [hr] at hs
    rw [← Option.some.inj hs]
  | cancel target =>
    rw [hr] at hs
    cases hit <;> rw [← Option.some.inj (Option.ite_none_right_eq_some.mp hs).2]

/-- Processing a completion stays inside `run()`. -/
theorem processCqe_control {next : After} {c : Cqe} (hs : s.processCqe next c = some s') : s'.control ≠ .idle := by
  unfold processCqe at hs
  split at hs
  · rw [← Option.some.inj hs]
    simp
  · split at hs
    · split at hs <;> rw [← Option.some.inj hs] <;> simp
    · rw [← Option.some.inj hs]
      simp
  · obtain ⟨u, -, rfl⟩ := Option.map_eq_some_iff.mp hs
    simp
  · split at hs
    · rw [← Option.some.inj hs]
      simp
    · obtain ⟨hs', rfl, -⟩ := handle_spec rfl hs
      simp
  · rw [← Option.some.inj hs]
    simp

/-- The one way out of `run()`. -/
theorem leaves_loop (op : Op) (hs : step s op = some s') (hin : s.control ≠ .idle) (hout : s'.control = .idle) :
    s.control = .pick ∧ s.localQueue = [] ∧ s.pendingWorks = 0 ∧ s.exitAllowed = true := by
  -- All other steps keep the thread where it is or move it within `run()`.
  have hstay : s'.control ≠ s.control := fun he => hin (he ▸ hout)
  cases op with
  | pick =>
    obtain ⟨hctl, hs⟩ := Option.ite_none_right_eq_some.mp hs
    obtain rfl := Option.some.inj hs
    unfold pick at hout
    cases hl : s.localQueue with
    | cons w ws => rw [hl] at hout; cases hout
    | nil =>
      rw [hl] at hout
      dsimp only at hout
      split at hout
      case isTrue hexit => exact ⟨hctl, rfl, hexit⟩
      case isFalse => cases hout
  | run =>
    obtain ⟨hctl, -⟩ := Option.ite_none_left_eq_some.mp hs
    exact absurd (not_not.mp hctl) hin
  | tick =>
    obtain ⟨-, hs⟩ := Option.ite_none_right_eq_some.mp hs
    obtain rfl := Option.some.inj hs
    unfold tick at hout
    split at hout <;> cases hout
  | waitReturn =>
    obtain ⟨-, hs⟩ := Option.ite_none_right_eq_some.mp hs
    obtain rfl := Option.some.inj hs
    cases hout
  | reap =>
    obtain ⟨next, -, ⟨-, rfl⟩ | ⟨c, cs, -, hs⟩⟩ := reap_cases hs
    · cases next <;> cases hout
    · exact absurd hout (processCqe_control hs)
  | ret =>
    simp only [step] at hs
    split at hs
    · obtain rfl := Option.some.inj hs
      cases hout
    · obtain rfl := Option.some.inj hs
      cases hout
    · cases hs
  | start addr kind stopRequested prepFails stopPossible =>
    exact absurd (start_control (Option.ite_none_right_eq_some.mp hs).2) hstay
  | sendMsg submit =>
    obtain ⟨u, hu, rfl⟩ := Option.map_eq_some_iff.mp (Option.ite_none_right_eq_some.mp hs).2
    obtain ⟨v, hv, rfl⟩ := Option.map_eq_some_iff.mp hu
    have hctl := queueSqe_control hv
    refine absurd ?_ hstay
    split <;> exact hctl
  | requestStop addr =>
    obtain ⟨u, hu, rfl⟩ := Option.map_eq_some_iff.mp (Option.ite_none_right_eq_some.mp hs).2
    obtain ⟨g, -, hu⟩ := Option.bind_eq_some_iff.mp hu
    exact absurd (queueSqe_control hu) hstay
  | joinFinished =>
    rw [← Option.some.inj (Option.ite_none_right_eq_some.mp hs).2] at hstay
    exact absurd rfl hstay
  | schedule w | beginWait w | wake w | remoteWakeup | remoteStopBegin addr | remoteStopEnd addr | postMsg res =>
    rw [← Option.some.inj (Option.ite_none_right_eq_some.mp hs).2] at hstay
    exact absurd rfl hstay
  | allowExit =>
    rw [← Option.some.inj hs] at hstay
    exact absurd rfl hstay
  | remoteSchedule w | remoteWake w =>
    rw [← Option.some.inj (Option.ite_none_right_eq_some.mp hs).2] at hstay
    refine absurd ?_ hstay
    unfold remotePush
    split <;> rfl
  | remoteStopSend addr =>
    obtain ⟨g, -, rfl⟩ := Option.map_eq_some_iff.mp (Option.ite_none_right_eq_some.mp hs).2
    exact absurd rfl hstay
  | deliver i =>
    obtain ⟨c, -, rfl⟩ := Option.map_eq_some_iff.mp hs
    exact absurd rfl hstay
  | exec hit res =>
    obtain ⟨e, -, hs⟩ := Option.bind_eq_some_iff.mp (Option.ite_none_right_eq_some.mp hs).2
    exact absurd (execute_control hs) hstay
  | post tag res more notif =>
    obtain ⟨r, -, hs⟩ := Option.bind_eq_some_iff.mp hs
    obtain ⟨p, -, rfl⟩ := Option.map_eq_some_iff.mp hs
    exact absurd rfl hstay

/-! ## The result -/

/-- **`pending_works_` is right in every run**: in the loop it is the number of outstanding activities; it is never
decremented from zero; every receiver is called at most once, and exactly once when its operation is no longer
outstanding; and the loop is left only with nothing outstanding and an empty local queue. -/
theorem pending_is_outstanding {eventInterval entries submitBatch : ℕ} {sqpoll : Bool} {lag : List ℕ} {as : List Op}
    (hr : run step (init eventInterval (.new entries sqpoll submitBatch lag)) as = some s) :
    (s.InLoop → s.pendingWorks = s.outstanding) ∧ s.underflow = false ∧ s.dangling = false ∧
      (∀ t < s.nextTag, s.got.count t ≤ 1 ∧ (s.opOutstanding t = false → s.got.count t = 1)) ∧
      ∀ op s', step s op = some s' → s.control ≠ .idle → s'.control = .idle →
        s.outstanding = 0 ∧ s.localQueue = [] := by
  have h : s.Inv := run_inv (fun s a t hI hs => step_inv a hI hs) as (init_inv _ _ _ _ _) hr
  refine ⟨fun hl => ?_, h.sound.1, h.sound.2, fun t ht => received_once h ht, fun op s' hs hin hout => ?_⟩
  · rw [pendingWorks_eq h, hl.extra_eq, Nat.add_zero]
  · obtain ⟨-, hl, hp, -⟩ := leaves_loop op hs hin hout
    have := pendingWorks_eq h
    exact ⟨by omega, hl⟩

/-- A run with an operation of each kind, a start that fails, a message and a wait, until `run()` returns. -/
def mixedRun : List Op :=
  [.remoteSchedule 8, .run, .tick, .pick,
    .start 16 .single false false true, .start 24 .multishot false false false, .start 32 .zeroCopy false false false,
    .start 40 .single true false true, .sendMsg false, .beginWait 48, .ret,
    .tick, .pick, .exec none 0, .exec none 0, .exec none 0, .exec none 0,
    .post 0 5 false false, .post 1 1 true false, .post 2 7 true false, .post 2 0 false true, .post 1 0 false false,
    .postMsg 0, .remoteWake 48, .deliver 0, .waitReturn,
    .reap, .ret, .reap, .ret, .reap, .ret, .reap, .ret, .reap, .ret, .reap, .reap, .ret, .reap,
    .allowExit, .tick, .pick]

theorem pending_is_outstanding_run : ∃ s, run step (init 61 (.new 8 false 32 [])) mixedRun = some s ∧
    s.control = .idle ∧ s.received = [(3, -ECANCELED), (0, 5), (2, 7), (1, 0)] ∧ s.pendingWorks = 0 ∧
    ∀ t < s.nextTag, s.got.count t ≤ 1 ∧ (s.opOutstanding t = false → s.got.count t = 1) := by
  have hrun : (run step (init 61 (.new 8 false 32 [])) mixedRun).map
      (fun s => (s.control, s.received, s.pendingWorks)) =
        some (.idle, [(3, -ECANCELED), (0, 5), (2, 7), (1, 0)], 0) := by
    decide +kernel
  obtain ⟨s, hs, hend⟩ := Option.map_eq_some_iff.mp hrun
  obtain ⟨h1, h2, h3⟩ : s.control = .idle ∧ s.received = _ ∧ s.pendingWorks = 0 := by simpa using hend
  exact ⟨s, hs, h1, h2, h3, (pending_is_outstanding hs).2.2.2.1⟩

end Runtime

end Condy
