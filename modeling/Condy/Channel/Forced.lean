import Condy.Channel.Fifo
import Condy.Channel.Finish

/-!
# Condy.Channel.Forced — what becomes of the items of `force_push`

`force_push` reports no failure.  When the buffer is full the item waits in a heap-allocated entry without a runtime,
in the list of the waiting pushes.  `push_close_inner_` completes every entry of that list with `-EPIPE`; for such an
entry this means that it is deleted together with its item.

`step_skipped` says which pushes one step can skip.  An item of `force_push` is among them only when the channel is
closed while its entry waits, so in the runs without such a close (`CloseDrained`) every item of `force_push` keeps its
place until a pop gets it.
-/

namespace Condy.Channel

open Lib Relation

variable {T : Type}

/-- The channel is closed only when no entry of `force_push` waits. -/
def CloseDrained (c : Channel T) : Op T → Prop
  | .pushClose => ∀ r ∈ c.pushAwaiters, (c.pushes r).runtime.isSome
  | _ => True

instance (c : Channel T) : (op : Op T) → Decidable (CloseDrained c op)
  | .pushClose => inferInstanceAs (Decidable (∀ r ∈ c.pushAwaiters, _))
  | .tryPush .. | .push .. | .forcePush .. | .tryPop _ | .pop .. | .cancelPush _ | .cancelPushDone _ | .cancelPop _
  | .cancelPopDone _ | .destroy => .isTrue trivial

/-! ## What the operations do to the waiting pushes and to the skipped ones -/

section Frames

variable (c : Channel T)

@[simp] theorem tryPushInner_awaiters (r : ℕ) : (c.tryPushInner r).2.pushAwaiters = c.pushAwaiters := by
  unfold tryPushInner
  split
  · rfl
  · split <;> rfl

@[simp] theorem tryPushInner_skipped (r : ℕ) : pushSkipped (c.tryPushInner r).2.log = pushSkipped c.log := by
  unfold tryPushInner
  split
  · simp [handOff, schedulePop, emit, setPop, setPush, check]
  · split <;> rfl

theorem tryPushInner_log (r : ℕ) : c.log ⊆ (c.tryPushInner r).2.log := by
  unfold tryPushInner
  split
  · exact List.subset_append_left _ _
  · split <;> exact List.Subset.refl _

theorem setPush_take_runtime (r j : ℕ) :
    ((c.setPush r PushHandle.take).pushes j).runtime = (c.pushes j).runtime := by
  by_cases hj : j = r
  · subst hj
    simp [setPush, PushHandle.take]
  · simp [setPush, hj]

theorem check_pushes (b : Bool) : (c.check b).pushes = c.pushes := rfl

theorem pushInner_pushes (x : T) : (c.pushInner x).pushes = c.pushes := rfl

theorem handOff_pushes (p : ℕ) (rest : List ℕ) (r : ℕ) :
    (c.handOff p rest r).pushes = (c.setPush r PushHandle.take).pushes := rfl

theorem tryPushInner_runtime (r j : ℕ) : ((c.tryPushInner r).2.pushes j).runtime = (c.pushes j).runtime := by
  unfold tryPushInner
  cases c.popAwaiters with
  | cons p rest => simp only [handOff_pushes, setPush_take_runtime, check_pushes]
  | nil =>
    -- the flag is abstracted, so that nothing unfolds the subtraction modulo `2 ^ 64` in it
    cases c.buf.full with
    | true => rfl
    | false => simp only [Bool.false_eq_true, if_false, pushInner_pushes, setPush_take_runtime]

theorem closePushes_awaiters (l : List ℕ) : ∀ c : Channel T, (c.closePushes l).pushAwaiters = [] := by
  induction l with
  | nil => exact fun _ => rfl
  | cons r rest ih => exact fun c => ih (c.closePush r rest)

theorem closePushes_skipped (l : List ℕ) : ∀ c : Channel T,
    pushSkipped (c.closePushes l).log = pushSkipped c.log ++ l := by
  induction l with
  | nil => exact fun c => (List.append_nil _).symm
  | cons r rest ih =>
    intro c
    refine (ih (c.closePush r rest)).trans ?_
    simp [closePush, emit, setPush, check]

@[simp] theorem newPush_skipped (r : ℕ) (x : T) (copied : Bool) (rt : Option ℕ) :
    pushSkipped (c.newPush r x copied rt).log = pushSkipped c.log := by
  simp [newPush, emit, setPush]

@[simp] theorem tryPush_skipped (r : ℕ) : pushSkipped (c.tryPush r).2.log = pushSkipped c.log := by
  unfold tryPush
  split_ifs <;> simp only [tryPushInner_skipped]

@[simp] theorem requestPush_skipped (r : ℕ) : pushSkipped (c.requestPush r).2.log = pushSkipped c.log := by
  unfold requestPush
  split_ifs <;> simp only [tryPushInner_skipped, check]

theorem forcePush_log {r : ℕ} {alloc : Bool} {q : Bool × Channel T} (h : c.forcePush r alloc = some q) :
    c.log ⊆ q.2.log := by
  unfold forcePush at h
  split_ifs at h
  all_goals
    obtain rfl := Option.some.inj h
    exact c.tryPushInner_log r

theorem forcePush_skipped {r : ℕ} {alloc : Bool} {q : Bool × Channel T} (h : c.forcePush r alloc = some q) :
    pushSkipped q.2.log = pushSkipped c.log := by
  unfold forcePush at h
  split_ifs at h
  all_goals
    obtain rfl := Option.some.inj h
    simp only [tryPushInner_skipped, check]

@[simp] theorem tryPush_awaiters (r : ℕ) : (c.tryPush r).2.pushAwaiters = c.pushAwaiters := by
  unfold tryPush
  split_ifs <;> simp only [tryPushInner_awaiters]

/-- Only the push itself can start to wait. -/
theorem requestPush_awaiters (r : ℕ) : (c.requestPush r).2.pushAwaiters ⊆ c.pushAwaiters ++ [r] := by
  unfold requestPush
  split_ifs <;> simp [check]

theorem forcePush_awaiters {r : ℕ} {alloc : Bool} {q : Bool × Channel T} (h : c.forcePush r alloc = some q) :
    q.2.pushAwaiters ⊆ c.pushAwaiters ++ [r] := by
  unfold forcePush at h
  split_ifs at h
  all_goals
    obtain rfl := Option.some.inj h
    simp [check]

theorem requestPush_runtime (r j : ℕ) : ((c.requestPush r).2.pushes j).runtime = (c.pushes j).runtime := by
  unfold requestPush
  split_ifs
  · rfl
  · exact c.tryPushInner_runtime r j
  · exact c.tryPushInner_runtime r j

theorem forcePush_runtime {r : ℕ} {alloc : Bool} {q : Bool × Channel T} (h : c.forcePush r alloc = some q) (j : ℕ) :
    (q.2.pushes j).runtime = (c.pushes j).runtime := by
  unfold forcePush at h
  split_ifs at h
  all_goals
    obtain rfl := Option.some.inj h
    exact c.tryPushInner_runtime r j

variable [Inhabited T]

theorem popAndPush_frame (x : T) : (c.popAndPush x).2.pushAwaiters = c.pushAwaiters ∧
    (c.popAndPush x).2.log = c.log := by
  unfold popAndPush
  split <;> exact ⟨rfl, rfl⟩

@[simp] theorem tryPopInner_skipped : pushSkipped c.tryPopInner.2.log = pushSkipped c.log := by
  unfold tryPopInner
  split
  · simp [(popAndPush_frame _ _).2, takeOver, emit, setPush, check]
  · split <;> rfl

theorem tryPopInner_awaiters : c.tryPopInner.2.pushAwaiters ⊆ c.pushAwaiters := by
  unfold tryPopInner
  split
  · rename_i r rest hq
    simp only [(popAndPush_frame _ _).1, hq]
    exact List.subset_cons_self r rest
  · split <;> exact List.Subset.refl _

theorem closePops_frame (l : List ℕ) : ∀ c : Channel T, (c.closePops l).pushAwaiters = c.pushAwaiters ∧
    pushSkipped (c.closePops l).log = pushSkipped c.log := by
  induction l with
  | nil => exact fun c => ⟨rfl, rfl⟩
  | cons p rest ih =>
    intro c
    obtain ⟨h1, h2⟩ := ih (c.closePop p rest)
    refine ⟨h1, h2.trans ?_⟩
    simp [closePop, schedulePop, emit, setPop, check]

@[simp] theorem newPop_skipped (p : ℕ) (rt : Option ℕ) : pushSkipped (c.newPop p rt).log = pushSkipped c.log := by
  simp [newPop, emit, setPop]

@[simp] theorem tryPop_skipped : pushSkipped c.tryPop.2.log = pushSkipped c.log := by
  rw [← tryPopInner_skipped c]
  unfold tryPop
  split
  · next heq => rw [heq]
  · next heq =>
    rw [heq]
    split_ifs <;> rfl

@[simp] theorem requestPop_skipped (p : ℕ) : pushSkipped (c.requestPop p).2.log = pushSkipped c.log := by
  rw [← tryPopInner_skipped c]
  unfold requestPop
  split
  · next heq => rw [heq]
  · next heq =>
    rw [heq]
    dsimp only
    split_ifs <;> rfl

theorem tryPop_awaiters : c.tryPop.2.pushAwaiters ⊆ c.pushAwaiters := by
  refine List.Subset.trans ?_ c.tryPopInner_awaiters
  unfold tryPop
  split
  · next heq => simp [heq]
  · next heq =>
    rw [heq]
    split_ifs <;> exact List.Subset.refl _

theorem requestPop_awaiters (p : ℕ) : (c.requestPop p).2.pushAwaiters ⊆ c.pushAwaiters := by
  refine List.Subset.trans ?_ c.tryPopInner_awaiters
  unfold requestPop
  split
  · next heq => simp [heq]
  · next heq =>
    rw [heq]
    dsimp only
    split_ifs <;> exact List.Subset.refl _

theorem pushCloseInner_awaiters : c.pushCloseInner.pushAwaiters ⊆ c.pushAwaiters := by
  unfold pushCloseInner
  split
  · exact List.Subset.refl _
  · intro r hr
    rw [closePushes_awaiters] at hr
    exact absurd hr List.not_mem_nil

/-- A close skips every waiting push. -/
theorem pushCloseInner_skipped : pushSkipped c.pushCloseInner.log =
    pushSkipped c.log ++ if c.closed then [] else c.pushAwaiters := by
  unfold pushCloseInner
  split
  · exact (List.append_nil _).symm
  · obtain ⟨h1, h2⟩ := closePops_frame c.popAwaiters ({ c with closed := true } : Channel T)
    refine (closePushes_skipped _ _).trans ?_
    rw [h1, h2]

end Frames

theorem mem_skipped_ret {r j : ℕ} {res : ℤ} (h : j ∈ pushSkipped [Event.pushRet (T := T) r res]) : j = r := by
  simp only [pushSkipped_cons, pushSkipped_nil, List.append_nil] at h
  split_ifs at h
  · exact List.mem_singleton.mp h
  · exact absurd h List.not_mem_nil

section Steps

variable [Inhabited T] {c c' : Channel T} {j : ℕ} {op : Op T}

/-- A state that the destructor has not reached comes from such states, and not by the destructor. -/
theorem step_live (hs : step c op = some c') (hlive : c'.destroyed = false) :
    c.destroyed = false ∧ op ≠ .destroy := by
  cases step_made hs with
  | tryPush | push | forcePush | tryPop | pop | pushLeaves | pushGone | popLeaves | popGone | pushClose =>
    exact ⟨‹c.destroyed = false›, nofun⟩
  | cancelPushDone r =>
    obtain ⟨-, -, hdes, -⟩ := c.cancelPushDone_frame r
    exact ⟨hdes.symm.trans hlive, nofun⟩
  | cancelPopDone p =>
    obtain ⟨-, -, hdes, -⟩ := c.cancelPopDone_frame p
    exact ⟨hdes.symm.trans hlive, nofun⟩
  | destroy => exact absurd hlive (by simp)

/-- **What one step skips**: a push that is refused at once, one that cancels itself, and at a close every waiting
one. -/
theorem step_skipped (hs : step c op = some c') (hop : op ≠ .destroy) (hj : j ∈ pushSkipped c'.log) :
    j ∈ pushSkipped c.log ∨ j ∉ pushOrder c.log ∨ (c.pushes j).runtime.isSome ∨
      op = .pushClose ∧ j ∈ c.pushAwaiters := by
  cases step_made hs with
  | tryPush r x copied hd hr =>
    simp only [emit, pushSkipped_append, tryPush_skipped, newPush_skipped, List.mem_append] at hj
    rcases hj with hj | hj
    · exact .inl hj
    · exact .inr (.inl (mem_skipped_ret hj ▸ hr))
  | push r x copied rt hd hr =>
    simp only [emit, pushSkipped_append, requestPush_skipped, newPush_skipped, List.mem_append] at hj
    rcases hj with hj | hj
    · exact .inl hj
    · split_ifs at hj
      · simp at hj
      · exact .inr (.inl (mem_skipped_ret hj ▸ hr))
  | forcePush r x alloc q hd hr hq =>
    have hskip := forcePush_skipped _ hq
    rw [newPush_skipped] at hskip
    left
    simp only [emit, pushSkipped_append, hskip, List.mem_append] at hj
    split_ifs at hj <;> simpa [EAGAIN, EPIPE] using hj
  | tryPop p =>
    left
    simpa [emit] using hj
  | pop p rt =>
    left
    simp only [emit, pushSkipped_append, requestPop_skipped, newPop_skipped, List.mem_append] at hj
    split_ifs at hj <;> simpa using hj
  | pushLeaves r hd hsus hr =>
    have hrt : (c.pushes r).runtime.isSome := by
      rw [pushSuspended, Bool.and_eq_true] at hsus
      exact hsus.1
    simp only [emit, pushSkipped_append, List.mem_append] at hj
    rcases hj with hj | hj
    · exact .inl hj
    · obtain rfl : j = r := by simpa using hj
      exact .inr (.inr (.inl hrt))
  | pushGone | popGone => exact .inl hj
  | popLeaves p =>
    left
    simpa [emit, cancelPop] using hj
  | cancelPushDone r =>
    obtain ⟨-, -, -, hlog, -⟩ := c.cancelPushDone_frame r
    exact .inl (hlog ▸ hj)
  | cancelPopDone p =>
    obtain ⟨-, -, -, hlog, -⟩ := c.cancelPopDone_frame p
    exact .inl (hlog ▸ hj)
  | pushClose =>
    rw [pushCloseInner_skipped, List.mem_append] at hj
    rcases hj with hj | hj
    · exact .inl hj
    · refine .inr (.inr (.inr ⟨rfl, ?_⟩))
      split_ifs at hj
      · exact absurd hj List.not_mem_nil
      · exact hj
  | destroy => exact absurd rfl hop

/-- **Who starts to wait in one step**: a push with a runtime, or the entry of `force_push`. -/
theorem step_awaiters (hs : step c op = some c') (hop : op ≠ .destroy) (hj : j ∈ c'.pushAwaiters) :
    j ∈ c.pushAwaiters ∨ (c'.pushes j).runtime.isSome ∨ ∃ x alloc, op = .forcePush j x alloc := by
  cases step_made hs with
  | tryPush r x copied => exact .inl (by simpa [emit, newPush, setPush] using hj)
  | push r x copied rt =>
    rcases List.mem_append.mp (requestPush_awaiters _ r hj) with hj | hj
    · exact .inl hj
    · obtain rfl := List.mem_singleton.mp hj
      refine .inr (.inl ?_)
      simp [emit, requestPush_runtime, newPush, setPush, PushHandle.new]
  | forcePush r x alloc q hd hr hq =>
    rcases List.mem_append.mp (forcePush_awaiters _ hq hj) with hj | hj
    · exact .inl hj
    · obtain rfl := List.mem_singleton.mp hj
      exact .inr (.inr ⟨x, alloc, rfl⟩)
  | tryPop p => exact .inl (tryPop_awaiters (c.newPop p none) hj)
  | pop p rt => exact .inl (requestPop_awaiters (c.newPop p (some rt)) p hj)
  | pushLeaves => exact .inl (List.mem_of_mem_erase hj)
  | pushGone | popLeaves | popGone => exact .inl hj
  | cancelPushDone r =>
    obtain ⟨-, -, -, -, hq⟩ := c.cancelPushDone_frame r
    exact .inl (hq ▸ hj)
  | cancelPopDone p =>
    obtain ⟨-, -, -, -, hq⟩ := c.cancelPopDone_frame p
    exact .inl (hq ▸ hj)
  | pushClose => exact .inl (pushCloseInner_awaiters _ hj)
  | destroy => exact absurd rfl hop

/-- `force_push` accepts its item. -/
theorem forcePush_accepts {r : ℕ} {x : T} {alloc : Bool} (hsub : pushSkipped c.log ⊆ pushOrder c.log)
    (hs : step c (.forcePush r x alloc) = some c') :
    Event.pushReq r x ∈ c'.log ∧ (c'.pushes r).runtime = none ∧ r ∉ pushSkipped c'.log := by
  obtain ⟨hg, hs⟩ := Option.ite_none_left_eq_some.mp hs
  obtain ⟨q, hq, rfl⟩ := Option.map_eq_some_iff.mp hs
  refine ⟨?_, ?_, ?_⟩
  · refine List.mem_append_left _ (forcePush_log _ hq ?_)
    simp [newPush, emit]
  · exact (forcePush_runtime _ hq r).trans (by simp [newPush, emit, setPush, PushHandle.new])
  · have hskip := forcePush_skipped _ hq
    rw [newPush_skipped] at hskip
    have hr : r ∉ pushSkipped c.log := fun hr => (not_or.mp hg).2 (hsub hr)
    simp only [emit, pushSkipped_append, hskip]
    split_ifs <;> simp [hr, EAGAIN, EPIPE]

end Steps

/-! ## Runs -/

section Runs

variable [Inhabited T] {cap : ℕ} {c₀ c c' : Channel T} {ops : List (Op T)} {r : ℕ}

/-- A state that a new channel reaches. -/
def Reached (c : Channel T) : Prop := c.Sound ∧ ∃ cap, ReflTransGen Spec.Trans (Spec.empty cap) c.abs

theorem Reached.init (h0 : init cap = some c₀) : c₀.Reached := by
  obtain ⟨-, habs⟩ := init_spec h0
  exact ⟨Sound.init h0, c₀.buf.capacity, by rw [habs]⟩

theorem Reached.step {op : Op T} (h : c.Reached) (hs : step c op = some c') : c'.Reached := by
  obtain ⟨⟨hG, hI⟩, n, ht⟩ := h
  obtain ⟨hG', ht'⟩ := step_refines hG hI hs
  exact ⟨⟨hG', Spec.inv_star hI ht'⟩, n, ht.trans ht'⟩

theorem Reached.skipped_sub (h : c.Reached) (hlive : c.destroyed = false) : pushSkipped c.log ⊆ pushOrder c.log := by
  obtain ⟨-, n, ht⟩ := h
  obtain ⟨A, B, hplaces⟩ := (Spec.fifo_star ht).2.2 hlive
  exact hplaces.pushes.sub

/-- A waiting push has been requested. -/
theorem Sound.awaiter_known (h : c.Sound) (hr : r ∈ c.pushAwaiters) : r ∈ pushOrder c.log :=
  h.2.pushKnown r (h.2.push_queued hr).1

/-- The item of `force_push` is in the channel or was handed out. -/
theorem forced_kept {x : T} {alloc : Bool} (h0 : init cap = some c₀) (hg : Along step CloseDrained c₀ ops)
    (hrun : run step c₀ ops = some c) (hlive : c.destroyed = false) (hmem : Op.forcePush r x alloc ∈ ops) :
    r ∈ pushOrder c.log ∧ (c.pushes r).item = x ∧ (c.pushes r).runtime = none ∧ r ∉ pushSkipped c.log := by
  refine run_mark (I := Reached) (G := CloseDrained) (a := Op.forcePush r x alloc)
    (J := fun c => c.destroyed = false → r ∈ pushOrder c.log ∧ (c.pushes r).item = x ∧
      (c.pushes r).runtime = none ∧ r ∉ pushSkipped c.log)
    (fun _ _ _ h hs => h.step hs) ?_ ?_ ops hmem (Reached.init h0) hg hrun hlive
  · intro d d' hd hs hlive
    obtain ⟨hreq, hrt, hskip⟩ := forcePush_accepts (hd.skipped_sub (step_live hs hlive).1) hs
    obtain ⟨-, n, ht⟩ := hd.step hs
    obtain ⟨hord, hitem⟩ := (Spec.fifo_star ht).1 r x hreq
    exact ⟨hord, hitem, hrt, hskip⟩
  · intro d op d' hd hJ hg hs hlive
    obtain ⟨hlive₀, hop⟩ := step_live hs hlive
    obtain ⟨hord, hitem, hrt, hskip⟩ := hJ hlive₀
    obtain ⟨hord', hitem', hrt'⟩ := Spec.push_frame_star (step_refines hd.1.1 hd.1.2 hs).2 hord
    refine ⟨hord', hitem'.trans hitem, hrt'.trans hrt, fun hbad => ?_⟩
    rcases step_skipped hs hop hbad with hbad | hbad | hbad | ⟨rfl, hq⟩
    · exact hskip hbad
    · exact hbad hord
    · simp [hrt] at hbad
    · have := hg r hq
      simp [hrt] at this

/-- A waiting entry without a runtime comes from `force_push`. -/
theorem awaiter_forced (h0 : init cap = some c₀) (hrun : run step c₀ ops = some c) (hlive : c.destroyed = false)
    (hr : r ∈ c.pushAwaiters) (hrt : (c.pushes r).runtime = none) :
    ∃ x alloc, Op.forcePush r x alloc ∈ ops := by
  have hend := run_origin (I := Reached) (A := fun op => ∃ x alloc, op = Op.forcePush r x alloc)
    (K := fun c => c.destroyed = false ∧ r ∈ c.pushAwaiters ∧ (c.pushes r).runtime = none)
    (fun _ _ _ h hs => h.step hs) ?_ ops (Reached.init h0) hrun ⟨hlive, hr, hrt⟩
  · rcases hend with ⟨-, hr₀, -⟩ | ⟨_, hmem, x, alloc, rfl⟩
    · have hempty : c₀.pushAwaiters = [] := congrArg Spec.pushQ (init_spec h0).2
      simp [hempty] at hr₀
    · exact ⟨x, alloc, hmem⟩
  · rintro d op d' hd hs ⟨hlive, hr, hrt⟩
    obtain ⟨hlive₀, hop⟩ := step_live hs hlive
    rcases step_awaiters hs hop hr with hr₀ | hsome | hop
    · have hframe := Spec.push_frame_star (step_refines hd.1.1 hd.1.2 hs).2 (hd.1.awaiter_known hr₀)
      exact .inl ⟨hlive₀, hr₀, hframe.2.2.symm.trans hrt⟩
    · simp [hrt] at hsome
    · exact .inr hop

/-- **The items of `force_push` in the runs that close the channel only when no entry of `force_push` waits**: each of
them was handed to a pop (`handed`, in the order of the pops), is buffered or waits, and all three are in the order of
the requests.  On the closed channel nothing waits, and pops get the buffered items in order and then `-EPIPE`.  After
such a run a close keeps all items of `force_push` exactly if no entry of `force_push` waits. -/
theorem forced_delivered (h0 : init cap = some c₀) (hg : Along step CloseDrained c₀ ops)
    (hrun : run step c₀ ops = some c) (hlive : c.destroyed = false) :
    (∃ handed buffered : List ℕ,
      Ordered (pushOrder c.log) (pushSkipped c.log) (handed ++ buffered ++ c.pushAwaiters) ∧
      handed.map (fun r => (c.pushes r).item) = (delivered c.log).map Prod.snd ∧
      buffered.map (fun r => (c.pushes r).item) = c.buf.items ∧
      ∀ r x alloc, Op.forcePush r x alloc ∈ ops → (c.pushes r).item = x ∧
        (r ∈ handed ∨ r ∈ buffered ∨ r ∈ c.pushAwaiters)) ∧
    (c.closed = true → c.pushAwaiters = [] ∧
      ∀ (ops' : List (Op T)) (c' : Channel T), run step c ops' = some c' → c.abs.Drained c'.abs) ∧
    ∀ c', step c .pushClose = some c' →
      ((∀ r x alloc, Op.forcePush r x alloc ∈ ops → r ∉ pushSkipped c'.log) ↔ CloseDrained c .pushClose) := by
  obtain ⟨-, hempty⟩ := init_spec h0
  obtain ⟨⟨hG, hI⟩, ht⟩ := run_refines ops (Sound.init h0) hrun
  rw [hempty] at ht
  obtain ⟨A, B, hplaces, hhanded, hbuffered⟩ := (Spec.fifo_star ht).2.2 hlive
  have hopen : c.pushAwaiters ≠ [] → c.closed = false := fun hne => (hI.pushFull hne).2
  refine ⟨⟨A, B, hplaces, hhanded, hbuffered, fun r x alloc hmem => ?_⟩, fun hclosed => ⟨?_, ?_⟩, fun c' hs => ?_⟩
  · obtain ⟨hord, hitem, -, hskip⟩ := forced_kept h0 hg hrun hlive hmem
    refine ⟨hitem, ?_⟩
    have hin : r ∈ A ++ B ++ c.pushAwaiters := (hplaces.mem_live (r := r)).mpr ⟨hord, hskip⟩
    simpa [List.mem_append, or_assoc] using hin
  · by_contra hne
    exact absurd hclosed (by simp [hopen hne])
  · intro ops' c' hrun'
    exact (Spec.closed_star hI hclosed (run_refines ops' ⟨hG, hI⟩ hrun').2).2
  · obtain ⟨-, hs⟩ := Option.ite_none_left_eq_some.mp hs
    obtain rfl := Option.some.inj hs
    rw [pushCloseInner_skipped]
    constructor
    · intro hkept r hr
      by_contra hrt
      obtain ⟨x, alloc, hmem⟩ := awaiter_forced h0 hrun hlive hr (by simpa using hrt)
      refine hkept r x alloc hmem (List.mem_append_right _ ?_)
      rwa [if_neg (by simp [hopen (List.ne_nil_of_mem hr)])]
    · intro hdrained r x alloc hmem hskip
      obtain ⟨-, -, hrt, hnot⟩ := forced_kept h0 hg hrun hlive hmem
      rcases List.mem_append.mp hskip with hskip | hskip
      · exact hnot hskip
      · split_ifs at hskip
        · exact absurd hskip List.not_mem_nil
        · have := hdrained r hskip
          simp [hrt] at this

/-- Capacity one: the second item of `force_push` waits until a pop makes room for it, and the channel is closed when
the third one has been taken out of its entry too. -/
theorem forced_delivered_run : ∃ c₀ c : Channel ℕ, init 1 = some c₀ ∧
    run step c₀ [.forcePush 0 10 true, .forcePush 1 11 true, .forcePush 2 12 true, .tryPop 0, .tryPop 1, .pushClose,
      .tryPop 2, .tryPop 3] = some c ∧
    (delivered c.log).map Prod.snd = [10, 11, 12] ∧ c.pushAwaiters = [] ∧
    ∃ handed buffered : List ℕ, buffered.map (fun r => (c.pushes r).item) = c.buf.items ∧
      (2 ∈ handed ∨ 2 ∈ buffered ∨ 2 ∈ c.pushAwaiters) := by
  have hrun : ((init 1 : Option (Channel ℕ)).bind (fun c₀ =>
      (run step c₀ [.forcePush 0 10 true, .forcePush 1 11 true, .forcePush 2 12 true, .tryPop 0, .tryPop 1, .pushClose,
        .tryPop 2, .tryPop 3]).map (fun c => (c.destroyed, c.closed, (delivered c.log).map Prod.snd)))) =
      some (false, true, [10, 11, 12]) := by decide
  obtain ⟨c₀, h0, hrun⟩ := Option.bind_eq_some_iff.mp hrun
  obtain ⟨c, hc, hres⟩ := Option.map_eq_some_iff.mp hrun
  obtain ⟨hlive, hclosed, hdel⟩ : c.destroyed = false ∧ c.closed = true ∧
      (delivered c.log).map Prod.snd = [10, 11, 12] := by
    simpa using hres
  have hg : Along step CloseDrained c₀ [.forcePush 0 10 true, .forcePush 1 11 true, .forcePush 2 12 true, .tryPop 0,
      .tryPop 1, .pushClose, .tryPop 2, .tryPop 3] := by
    obtain rfl := Option.some.inj h0
    decide
  obtain ⟨⟨A, B, -, -, hB, hall⟩, hend, -⟩ := forced_delivered h0 hg hc hlive
  exact ⟨c₀, c, h0, hc, hdel, (hend hclosed).1, A, B, hB, (hall 2 12 true (by simp)).2⟩

/-- Capacity one: the second item of `force_push` waits when the channel is closed, its entry is deleted, and the pops
that follow get the first item and `-EPIPE`. -/
theorem close_drops_forced : ∃ c₀ c : Channel ℕ, init 1 = some c₀ ∧
    run step c₀ [.forcePush 0 10 true, .forcePush 1 11 true, .pushClose, .tryPop 0, .tryPop 1] = some c ∧
    popReports c.log = [(0, 10), (-EPIPE, 0)] ∧ c.buf.items = [] ∧ c.pushAwaiters = [] ∧
    pushSkipped c.log = [1] ∧ (c.pushes 1).item = 11 ∧ (c.pushes 1).moved = false ∧ (c.pushes 1).deleted = 1 := by
  have hrun : ((init 1 : Option (Channel ℕ)).bind (fun c₀ =>
      (run step c₀ [.forcePush 0 10 true, .forcePush 1 11 true, .pushClose, .tryPop 0, .tryPop 1]).map (fun c =>
        ((popReports c.log, c.buf.items), (c.pushAwaiters, pushSkipped c.log), (c.pushes 1).item, (c.pushes 1).moved,
          (c.pushes 1).deleted)))) = some (([(0, 10), (-EPIPE, 0)], []), ([], [1]), 11, false, 1) := by decide
  obtain ⟨c₀, h0, hrun⟩ := Option.bind_eq_some_iff.mp hrun
  obtain ⟨c, hc, hres⟩ := Option.map_eq_some_iff.mp hrun
  refine ⟨c₀, c, h0, hc, ?_⟩
  simpa [and_assoc] using hres

end Runs

end Condy.Channel
