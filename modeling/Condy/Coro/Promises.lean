import Condy.Coro.Runs
import Condy.Promise.Atomic

/-!
# Condy.Coro.Promises — the tasks of a machine are promises

A step of the machine does at once what `Condy.Promise.Model` does in many: `final_suspend`, `request_detach` and
`request_join` are atomic in it.  `task_atomic` says that the states of the frame of a task follow one another as the
atomic steps of a promise do, and `task_promise` that a promise can do the same, load by load and exchange by exchange;
`Promise.rests_stand` is the converse.
-/

namespace Condy.Coro

open Lib PromiseState Promise

variable {ι V E : Type} [DecidableEq ι]

namespace Machine

variable {s s' s₁ : Machine ι V E} {loc : ℕ → Option (Spot ι)} {f t : ℕ} {fr : Frame ι V E}

/-- The state of the promise in the frame `t`, if that is there. -/
def view (s : Machine ι V E) (t : ℕ) : Option PromiseState := (s.frames t).map Frame.state

/-- From `s` to `s'`, the promise in the frame `t` takes atomic steps. -/
def Acts (s s' : Machine ι V E) (t : ℕ) : Prop := ∃ ops, Lib.run atomicStep (s.view t) ops = some (s'.view t)

omit [DecidableEq ι] in
theorem Acts.stay (h : s'.view t = s.view t) : s.Acts s' t := ⟨[], by rw [h]; rfl⟩

omit [DecidableEq ι] in
theorem Acts.trans (h : s.Acts s₁ t) (h' : s₁.Acts s' t) : s.Acts s' t := by
  obtain ⟨ops, hrun⟩ := h
  obtain ⟨ops', hrun'⟩ := h'
  exact ⟨ops ++ ops', by rw [run_append, hrun]; exact hrun'⟩

omit [DecidableEq ι] in
/-- A frame that the move does not touch. -/
theorem Acts.other {x : Option (Frame ι V E)} (hframes : s'.frames = Function.update s.frames f x) (ht : t ≠ f) :
    s.Acts s' t := by
  refine .stay ?_
  rw [view, view, hframes, Function.update_of_ne ht]

omit [DecidableEq ι] in
/-- One frame is changed, and its state stays. -/
theorem view_same {fr' : Frame ι V E} (hf : s.frames f = some fr)
    (hframes : s'.frames = Function.update s.frames f (some fr')) (hst : fr'.state = fr.state) :
    s'.view t = s.view t := by
  rw [view, view, hframes]
  rcases eq_or_ne t f with rfl | ht
  · rw [Function.update_self, hf, Option.map_some, Option.map_some, hst]
  · rw [Function.update_of_ne ht]

omit [DecidableEq ι] in
theorem Acts.same {fr' : Frame ι V E} (hf : s.frames f = some fr)
    (hframes : s'.frames = Function.update s.frames f (some fr')) (hst : fr'.state = fr.state) : s.Acts s' t :=
  .stay (view_same hf hframes hst)

omit [DecidableEq ι] in
/-- One frame is changed, by an atomic step of its promise. -/
theorem Acts.one {x : Option (Frame ι V E)} (op : AtomicOp) (hf : s.frames f = some fr)
    (hframes : s'.frames = Function.update s.frames f x) {st : PromiseState} (hst : fr.state = st)
    (hop : atomicStep (some st) op = some (x.map Frame.state)) : s.Acts s' t := by
  rcases eq_or_ne t f with rfl | ht
  · refine ⟨[op], ?_⟩
    rw [view, view, hframes, Function.update_self, hf, Option.map_some, hst, run_cons, hop]
    rfl
  · exact .other hframes ht

/-! ## Moves -/

section

variable (hi : s.Inv loc) (hold : t < s.nextFrame)
include hold

omit [DecidableEq ι] in
theorem view_fresh {x : Option (Frame ι V E)} (hframes : s'.frames = Function.update s.frames s.nextFrame x) :
    s'.view t = s.view t := by
  rw [view, view, hframes, Function.update_of_ne (Nat.ne_of_lt hold)]

theorem Request.acts {e : Event ι V E} (hr : s.Request e s') : s.Acts s' t := by
  cases hr with
  | spawn hq hrt => exact .stay (view_fresh hold rfl)
  | detach htask htf hst => exact .one .detach htf rfl hst rfl
  | wait htask htf hst => exact .one .join htf rfl hst rfl
  | @collect t' tf waited e htask htf hst hw =>
    rcases hw with ⟨rfl | rfl, -⟩ | ⟨o, rfl, -, -⟩
    · exact .one .detach htf rfl hst rfl
    · exact .one .join htf rfl hst rfl
    · exact .one .join htf rfl hst rfl
  | gone => exact .stay rfl

theorem Goes.acts {root : ℕ} {b b' : Body ι V E} {l : List (Event ι V E)} (hg : s.Goes root b l s' b') : s.Acts s' t := by
  cases hg with
  | spawn hr | join _ _ hr | detach hr => exact hr.acts hold
  | sender | lose | refused | waitGone | drop => exact .stay rfl

include hi

/-- A move takes every promise by atomic steps to where it stands then, but for the frame of a call that returns. -/
theorem Move.acts (hidle : s.view t ≠ some .idle) (hm : s.Move s') : s.Acts s' t := by
  cases hm with
  | halt | rts hrt | run hc | wake hf hp hw hq hrt => exact .stay rfl
  | advance hf hg =>
    obtain ⟨st, u, hf₁⟩ := hg.onThread hi hf
    rw [goOn_eq hf₁.frame]
    exact (hg.acts hold).trans (.same hf₁.frame rfl rfl)
  | outside hr =>
    have hacts := hr.acts hold
    exact hacts
  | awaitKernel hf hrt | awaitWaits hf hrt | switch hf hq hrt => exact .same hf.frame rfl rfl
  | @awaitTask r f t' fr tf k rt hf hne htask htf hst hrt =>
    have hfirst : Acts s { s with frames := Function.update s.frames f (some { fr with
        point := .task t' r k, trace := fr.trace ++ [.join t'] }) } t := .same hf.frame rfl rfl
    exact hfirst.trans (.one .join ((Function.update_of_ne hne _ _).trans htf) rfl hst rfl)
  | @call r f fr callee k rt hf hrt =>
    have hfirst : Acts s { s with frames := Function.update s.frames f (some { fr with
        point := .call s.nextFrame callee k }) } t := .same hf.frame rfl rfl
    exact hfirst.trans (.other rfl (Nat.ne_of_lt hold))
  | @callReturn r g c gf cf b callee o k rt hg ho hst hu hc hp hrt =>
    have hg' : t ≠ g := by
      rintro rfl
      exact hidle (by rw [view, hg.frame, Option.map_some, hst])
    have hne : c ≠ g := by
      rintro rfl
      obtain rfl := Option.some.inj (hg.frame.symm.trans hc)
      cases hg.point.symm.trans hp
    have hfirst : Acts s { s with frames := Function.update s.frames g none } t := .other rfl hg'
    exact hfirst.trans (.same ((Function.update_of_ne hne _ _).trans hc) rfl rfl)
  | endZombie hf ho hst hrt => exact .one .final hf.frame rfl hst rfl
  | endDetached hf ho hst hrt => exact .one .final hf.frame rfl hst rfl
  | endJoined hf ho hst hu hq hrt => exact .one .final hf.frame rfl hst rfl
  | endWaited hf ho hst hu hrt => exact .one .final hf.frame rfl hst rfl
  | start hr hf hp hq hrt => exact .same hf rfl rfl
  | completeKernel hr hf hp hq hrt => exact .same hf rfl rfl
  | completeWaiter hr hf hp hq hrt => exact .same hf rfl rfl
  | @resumeTask r f t' fr tf k o q l rt hr hf hp htf hst ho hq hrt =>
    have hne : f ≠ t' := by
      rintro rfl
      obtain rfl := Option.some.inj (hf.symm.trans htf)
      cases hp.symm.trans (hi.nowhere htf (.inr hst)).2
    have hfirst : Acts s { s with frames := Function.update s.frames t' none } t := .one .collect htf rfl hst rfl
    exact hfirst.trans (.same ((Function.update_of_ne hne _ _).trans hf) rfl rfl)
  | waitReturn htask htf hst ho => exact .one .collect htf rfl hst rfl

end

omit [DecidableEq ι] in
theorem Acts.ne_idle (h : s.Acts s' t) (hidle : s.view t ≠ some .idle) : s'.view t ≠ some .idle := by
  obtain ⟨ops, hrun⟩ := h
  exact run_inv (I := fun o => o ≠ some .idle) (fun _ _ _ _ hs => atomic_ne_idle hs) ops hidle hrun

/-- A task that is new is one whose coroutine may be joined. -/
theorem Move.spawned (hi : s.Inv loc) (hm : s.Move s') {b : Body ι V E} (hb : (t, b) ∈ s'.spawned) :
    (t, b) ∈ s.spawned ∨ s'.view t = some .runningJoinable := by
  have hreq : ∀ {e s₁}, s.Request e s₁ → (t, b) ∈ s₁.spawned → (t, b) ∈ s.spawned ∨
      s₁.view t = some .runningJoinable := by
    intro e s₁ hr hb
    cases hr with
    | spawn hq hrt =>
      refine (List.mem_append.mp hb).imp_right fun hb => ?_
      obtain ⟨rfl, -⟩ := Prod.mk.inj (List.mem_singleton.mp hb)
      simp [view]
    | _ => exact .inl hb
  cases hm with
  | @advance r f fr b₀ b' l s₁ hf hg =>
    obtain ⟨st, u, hf₁⟩ := hg.onThread hi hf
    rw [goOn_eq hf₁.frame] at hb ⊢
    cases hg with
    | spawn hr | join _ _ hr | detach hr =>
      exact (hreq hr hb).imp_right fun hv => (view_same hf₁.frame rfl (by rfl)).trans hv
    | _ => exact .inl hb
  | outside hr =>
    have hnew := hreq hr hb
    exact hnew
  | _ => exact .inl hb

/-! ## Runs -/

theorem step_acts {op : Op ι V E} {b : Body ι V E} (h : s.Sound) (hb : (t, b) ∈ s.spawned)
    (hidle : s.view t ≠ some .idle) (hs : s.step op = some s') : s.Acts s' t := by
  obtain ⟨loc, hi⟩ := h.inv
  have hacts := (step_reaches hi hs).move.acts (hi.halt s'.panicked) (h.traced.numbers.2 _ hb) hidle
  exact hacts

/-- The frame of a task that was spawned is not that of a coroutine that was called. -/
theorem run_ne_idle {ops : List (Op ι V E)} (hrun : run step init ops = some s) :
    ∀ t b, (t, b) ∈ s.spawned → s.view t ≠ some .idle := by
  refine (run_inv (I := fun s => s.Sound ∧ ∀ t b, (t, b) ∈ s.spawned → s.view t ≠ some .idle) ?_ ops
    ⟨init_sound, fun t b hb => absurd hb List.not_mem_nil⟩ hrun).2
  rintro s op s' ⟨h, hidle⟩ hs
  refine ⟨step_sound h hs, fun t b hb => ?_⟩
  obtain ⟨loc, hi⟩ := h.inv
  rcases (step_reaches hi hs).move.spawned (hi.halt s'.panicked) hb with hold | hnew
  · exact (step_acts h hold (hidle t b hold) hs).ne_idle (hidle t b hold)
  · rw [hnew]
    simp

/-- The states of the frame of a task, from any state of a run on, follow one another as atomic steps of a promise. -/
theorem task_atomic {ops ops' : List (Op ι V E)} {b : Body ι V E} (hrun : run step init ops = some s)
    (hrun' : run step s ops' = some s') (hb : (t, b) ∈ s.spawned) : s.Acts s' t := by
  -- Every step is matched, while the task keeps its number and its frame is not one that was called.
  have hmatch : ∀ (u : Machine ι V E) op u' x, u.Sound ∧ (t, b) ∈ u.spawned ∧ x = u.view t ∧ x ≠ some .idle →
      u.step op = some u' → ∃ l y, Lib.run atomicStep x l = some y ∧
        u'.Sound ∧ (t, b) ∈ u'.spawned ∧ y = u'.view t ∧ y ≠ some .idle := by
    rintro u op u' x ⟨h, hb, rfl, hidle⟩ hs
    have hacts := step_acts h hb hidle hs
    have hidle' := hacts.ne_idle hidle
    obtain ⟨l, hl⟩ := hacts
    exact ⟨l, _, hl, step_sound h hs, step_spawned_subset h hs hb, rfl, hidle'⟩
  obtain ⟨l, x, hl, -, -, rfl, -⟩ :=
    run_refines hmatch ops' ⟨run_sound hrun, hb, rfl, run_ne_idle hrun t b hb⟩ hrun'
  exact ⟨l, hl⟩

/-- What the machine does to the frame of a task, from any state of a run on, a promise can do. -/
theorem task_promise {ops ops' : List (Op ι V E)} {b : Body ι V E} (hrun : run step init ops = some s)
    (hrun' : run step s ops' = some s') (hb : (t, b) ∈ s.spawned) :
    ∃ p p' l, Stands (s.view t) p ∧ Stands (s'.view t) p' ∧ Lib.run Promise.step p l = some p' := by
  obtain ⟨l, hl⟩ := task_atomic hrun hrun' hb
  exact atomic_run (run_ne_idle hrun t b hb) l hl

end Machine

end Condy.Coro
