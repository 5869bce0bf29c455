import Condy.Futex.Once
import Mathlib.Data.List.Induction

/-!
# Condy.Futex.Wakeup — no store followed by a notify is missed

The log is the history of the futex: `valueAt v pre` is the atomic and `waitingFrom [] pre` is `wait_awaiters_` after the
events `pre`.  `History` says of every event of the log that it fits what came before it: a waiter is put into the list
only while the atomic equals its old value, and `notify_one` finds the waiter that is first in the list.
`no_lost_wakeup` collects what follows for runs without cancellations.
-/

namespace Condy.Futex

open Lib

variable {V : Type}

/-- The event fits the history before it; `v` is the first value of the atomic. -/
def Fits (v : V) (pre : List (FutexEvent V)) : FutexEvent V → Prop
  | .enqueued _ old => valueAt v pre = old
  | .one q => q = (waitingFrom [] pre).head?
  | _ => True

def History (v : V) (log : List (FutexEvent V)) : Prop := ∀ pre e post, log = pre ++ e :: post → Fits v pre e

/-- The waiters that the calls of `notify_one` found, in order. -/
def ones (log : List (FutexEvent V)) : List ℕ :=
  log.filterMap (fun | .one q => q | _ => none)

/-- The waiters that were put into the list, in order. -/
def enqueues (log : List (FutexEvent V)) : List ℕ :=
  log.filterMap (fun | .enqueued w _ => some w | _ => none)

theorem history_snoc {v : V} {log : List (FutexEvent V)} {e : FutexEvent V} (h : History v log)
    (he : Fits v log e) : History v (log ++ [e]) := by
  intro pre e' post heq
  rcases Lib.snoc_split heq with ⟨-, rfl, rfl⟩ | ⟨post', -, hlog⟩
  · exact he
  · exact h pre e' post' hlog

/-- Between two calls of `notify_all_` the list is first in, first out. -/
theorem ones_fifo {v : V} {pre : List (FutexEvent V)} : ∀ {mid : List (FutexEvent V)}, History v (pre ++ mid) →
    (∀ n, .all n ∉ mid) → (∀ w, .left w .cancelled ∉ mid) →
    ones mid ++ waitingFrom [] (pre ++ mid) = waitingFrom [] pre ++ enqueues mid := by
  intro mid
  induction mid using List.reverseRecOn with
  | nil => intro _ _ _; simp [ones, enqueues]
  | append_singleton mid e ih =>
    intro hist hall hcanc
    have hist' : History v (pre ++ mid) := by
      intro p e' q heq
      refine hist p e' (q ++ [e]) ?_
      rw [← List.append_assoc, heq]
      simp
    have hfit := hist (pre ++ mid) e [] (by simp)
    have hq := ih hist' (fun n hn => hall n (by simp [hn])) (fun w hw => hcanc w (by simp [hw]))
    rw [← List.append_assoc, waitingFrom_append _ [e]]
    have hones : ones (mid ++ [e]) = ones mid ++ ones [e] := List.filterMap_append
    have henq : enqueues (mid ++ [e]) = enqueues mid ++ enqueues [e] := List.filterMap_append
    rw [hones, henq, ← List.append_assoc (waitingFrom [] pre), ← hq]
    cases e with
    | enqueued w old => simp [ones, enqueues]
    | one o =>
      cases o with
      | none => simp [ones, enqueues]
      | some w =>
        -- the waiter it found is the first, so it is the one that is taken out
        cases hl : waitingFrom [] (pre ++ mid) with
        | nil =>
          rw [Fits, hl] at hfit
          exact nomatch hfit
        | cons w' q =>
          rw [Fits, hl] at hfit
          obtain rfl : w = w' := by simpa using hfit
          simp [ones, enqueues]
    | all n => exact absurd (by simp) (hall n)
    | left w why =>
      cases why with
      | notified res => simp [ones, enqueues]
      | cancelled => exact absurd (by simp) (hcanc w)
    | store v' | unequal w old => simp [ones, enqueues]

/-- Who waits is among those put into the list, in this order. -/
theorem waitingFrom_sublist (l : List (FutexEvent V)) : ∀ q, (waitingFrom q l).Sublist (q ++ requested l) := by
  induction l with
  | nil => exact fun q => by simp
  | cons e l ih =>
    intro q
    rw [waitingFrom_cons, requested_cons]
    refine (ih _).trans ?_
    rw [← List.append_assoc]
    refine List.Sublist.append_right ?_ _
    cases e with
    | enqueued w old => exact List.Sublist.refl _
    | one o =>
      cases o with
      | none => simp
      | some w => exact List.erase_sublist.trans (List.sublist_append_left _ _)
    | all n => exact List.nil_sublist _
    | left w why =>
      cases why with
      | notified res => simp
      | cancelled => exact List.erase_sublist.trans (List.sublist_append_left _ _)
    | store v | unequal w old => simp

/-- A waiter that a `notify_all_` found in the list is never found by a `notify_one`. -/
theorem not_one_of_all {v : V} {pre post : List (FutexEvent V)} {n w : ℕ} (hist : History v (pre ++ .all n :: post))
    (hnd : (requested (pre ++ .all n :: post)).Nodup) (hw : w ∈ waitingFrom [] pre) :
    .one (some w) ∉ pre ++ .all n :: post := by
  rw [requested_append, requested_cons] at hnd
  obtain ⟨hpre, -, hdisj⟩ := List.nodup_append.mp hnd
  have hfirst := (waitingFrom_sublist pre []).subset hw
  intro hone
  rcases List.mem_append.mp hone with hone | hone
  · -- found before: it would have to be put into the list twice
    obtain ⟨p, q, rfl⟩ := List.append_of_mem hone
    have hfound := hist p (.one (some w)) (q ++ .all n :: post) (by simp)
    have hmem : w ∈ waitingFrom [] p := List.mem_of_mem_head? hfound.symm
    rw [requested_append, requested_cons] at hpre
    obtain ⟨hp, -, hpq⟩ := List.nodup_append.mp hpre
    have hreq := (waitingFrom_sublist p []).subset hmem
    rw [waitingFrom_append, waitingFrom_cons] at hw
    have hnodup := hp.sublist (waitingFrom_sublist p [])
    rcases List.mem_append.mp ((waitingFrom_sublist q _).subset hw) with hw | hw
    · exact hnodup.not_mem_erase hw
    · exact hpq w hreq w (by simpa using hw) rfl
  · -- found after: nobody is left in the list
    obtain ⟨p, q, rfl⟩ := List.append_of_mem ((List.mem_cons.mp hone).resolve_left (by simp))
    have hfound := hist (pre ++ .all n :: p) (.one (some w)) q (by simp)
    have hmem : w ∈ waitingFrom [] (pre ++ .all n :: p) := List.mem_of_mem_head? hfound.symm
    rw [waitingFrom_append, waitingFrom_cons] at hmem
    have hreq := (waitingFrom_sublist p []).subset hmem
    exact hdisj w hfirst w (by simp at hreq ⊢; exact .inl hreq) rfl

/-- The log of a run: it fits, it gives the value of the atomic, and a waiter found by `notify_one` has left. -/
structure Recorded (v : V) (log : List (FutexEvent V)) (value : V) : Prop where
  history : History v log
  value_eq : value = valueAt v log
  left : ∀ w, .one (some w) ∈ log → .notified 0 ∈ causes log w

namespace Recorded

variable {v value : V} {log : List (FutexEvent V)}

theorem snoc (h : Recorded v log value) {e : FutexEvent V} (hfit : Fits v log e) (hone : ∀ w, e ≠ .one (some w)) :
    Recorded v (log ++ [e]) (valueAt value [e]) := by
  refine ⟨history_snoc h.history hfit, ?_, fun w hw => ?_⟩
  · rw [valueAt_append, ← h.value_eq]
  · rcases List.mem_append.mp hw with hw | hw
    · simp [h.left w hw]
    · exact absurd (List.mem_singleton.mp hw).symm (hone w)

theorem snocOne (h : Recorded v log value) {w : ℕ} (hfit : Fits v log (.one (some w))) :
    Recorded v (log ++ [.one (some w), .left w (.notified 0)]) value := by
  have hlog : log ++ [.one (some w), .left w (.notified 0)] = log ++ [.one (some w)] ++ [.left w (.notified 0)] := by
    simp
  refine ⟨?_, by simp [← h.value_eq], fun w' hw' => ?_⟩
  · rw [hlog]
    exact history_snoc (history_snoc h.history hfit) trivial
  · rcases List.mem_append.mp hw' with hw' | hw'
    · simp [h.left w' hw']
    · obtain rfl : w' = w := by simpa using hw'
      simp

end Recorded

variable [DecidableEq V] {s s' : Futex V} {v : V} {xs : Option ℕ → List ℕ}

/-- The event fits the state in which it happens. -/
def Suits (s : Futex V) (xs : Option ℕ → List ℕ) : FutexEvent V → Prop
  | .enqueued _ old => s.value = old
  | .one q => q = (xs none).head?
  | _ => True

omit [DecidableEq V] in
/-- What fits the state fits the history that led to it. -/
theorem Suits.fits (h : s.Inv xs) (hr : Recorded v s.log s.value) {e : FutexEvent V} (he : s.Suits xs e) :
    Fits v s.log e := by
  cases e with
  | enqueued w old => exact hr.value_eq.symm.trans he
  | one q =>
    rw [Fits, ← h.queue]
    exact he
  | store | unequal | all | left => trivial

/-- What a step adds to the log: nothing, one event, or the two events of a `notify_one` that finds a waiter. -/
theorem step_logs {op : Op V} (h : s.Inv xs) (hs : step s op = some s') :
    (s'.log = s.log ∧ s'.value = s.value ∧ s'.notifying ⊆ s.notifying) ∨
    (∃ e, s.Suits xs e ∧ (∀ w, e ≠ .one (some w)) ∧ (∀ w, e = .left w .cancelled → op = .cancelWait w) ∧
      s'.log = s.log ++ [e] ∧ s'.value = valueAt s.value [e] ∧ s'.notifying ⊆ s.notifying) ∨
    ∃ w rest, xs none = w :: rest ∧ s'.log = s.log ++ [.one (some w), .left w (.notified 0)] ∧
      s'.value = s.value ∧ s'.notifying = s.notifying ++ [w] := by
  cases op with
  | store v' =>
    obtain rfl := Option.some.inj hs
    exact .inr (.inl ⟨.store v', trivial, by simp, by simp, rfl, rfl, List.Subset.refl _⟩)
  | requestWait w old =>
    obtain ⟨-, hs⟩ := Option.ite_none_left_eq_some.mp hs
    obtain rfl := Option.some.inj hs
    unfold requestWait
    right; left
    by_cases hv : s.value = old
    · rw [if_neg (show ¬ (s.setWaiter w (fun _ => WaitHandle.new)).value ≠ old from not_not.mpr hv)]
      exact ⟨.enqueued w old, hv, by simp, by simp, rfl, rfl, List.Subset.refl _⟩
    · rw [if_pos (show (s.setWaiter w (fun _ => WaitHandle.new)).value ≠ old from hv)]
      exact ⟨.unequal w old, trivial, by simp, by simp, rfl, rfl, List.Subset.refl _⟩
  | notifyOne =>
    simp only [step] at hs
    obtain ⟨-, hs⟩ := Option.ite_none_left_eq_some.mp hs
    right
    cases hq : xs none with
    | nil =>
      have hlock : s.notifyOneLock = (none, s) := by
        simp only [notifyOneLock, h.rep.popFront_nil hq, setList_self]
      rw [hlock] at hs
      obtain rfl := Option.some.inj hs
      refine .inl ⟨.one none, ?_, by simp, by simp, rfl, rfl, List.Subset.refl _⟩
      rw [Suits, hq]
      rfl
    | cons w rest =>
      obtain ⟨h1, -, -⟩ := h.rep.popFront_cons hq
      have hlock : s.notifyOneLock = (some w, s.setList none _ _) := Prod.ext h1 rfl
      rw [hlock] at hs
      obtain rfl := Option.some.inj hs
      exact .inr ⟨w, rest, rfl, rfl, rfl, rfl⟩
  | notifyOneDone w =>
    obtain ⟨-, hs⟩ := Option.ite_none_right_eq_some.mp hs
    obtain rfl := Option.some.inj hs
    exact .inl ⟨rfl, rfl, List.erase_subset⟩
  | cancelWaitDone w =>
    obtain ⟨-, hs⟩ := Option.ite_none_right_eq_some.mp hs
    obtain rfl := Option.some.inj hs
    exact .inl ⟨rfl, rfl, List.Subset.refl _⟩
  | notifyAll n | destroy n =>
    obtain ⟨-, hs⟩ := Option.ite_none_left_eq_some.mp hs
    obtain rfl := Option.some.inj hs
    exact .inr (.inl ⟨.all n, trivial, by simp, by simp, rfl, rfl, List.Subset.refl _⟩)
  | notifyAllNext n =>
    obtain ⟨res, -, rfl⟩ := Option.map_eq_some_iff.mp hs
    unfold notifyAllNext
    simp only
    split
    · exact .inl ⟨rfl, rfl, List.Subset.refl _⟩
    · exact .inr (.inl ⟨.left _ (.notified res), trivial, by simp, by simp, rfl, rfl, List.Subset.refl _⟩)
  | cancelWait w =>
    obtain ⟨-, hs⟩ := Option.ite_none_left_eq_some.mp hs
    split at hs
    · obtain rfl := Option.some.inj hs
      refine .inr (.inl ⟨.left w .cancelled, trivial, by simp, ?_, rfl, rfl, List.Subset.refl _⟩)
      intro w' he
      obtain ⟨rfl, -⟩ := FutexEvent.left.inj he
      rfl
    · obtain rfl := Option.some.inj hs
      exact .inl ⟨rfl, rfl, List.Subset.refl _⟩

theorem recorded_step {op : Op V} (h : s.Inv xs) (hr : Recorded v s.log s.value) (hs : step s op = some s') :
    Recorded v s'.log s'.value := by
  rcases step_logs h hs with ⟨hlog, hval, -⟩ | ⟨e, he, hone, -, hlog, hval, -⟩ | ⟨w, rest, hq, hlog, hval, -⟩
  · rwa [hlog, hval]
  · rw [hlog, hval]
    exact hr.snoc (he.fits h hr) hone
  · have hfound : s.Suits xs (.one (some w)) := by
      rw [Suits, hq]
      rfl
    rw [hlog, hval]
    exact hr.snocOne (hfound.fits h hr)

/-- Whoever a running `notify_one` is about to complete was found by it. -/
theorem notifying_step {op : Op V} (h : s.Inv xs) (hn : ∀ w ∈ s.notifying, .one (some w) ∈ s.log)
    (hs : step s op = some s') : ∀ w ∈ s'.notifying, .one (some w) ∈ s'.log := by
  intro w hw
  rcases step_logs h hs with ⟨hlog, -, hsub⟩ | ⟨e, -, -, -, hlog, -, hsub⟩ | ⟨w', rest, -, hlog, -, hnext⟩
  · rw [hlog]
    exact hn w (hsub hw)
  · rw [hlog]
    exact List.mem_append_left _ (hn w (hsub hw))
  · rw [hnext] at hw
    rw [hlog]
    rcases List.mem_append.mp hw with hw | hw
    · exact List.mem_append_left _ (hn w hw)
    · rw [List.mem_singleton.mp hw]
      simp

/-- Only a cancellation records a cancelled waiter. -/
theorem cancelled_step {op : Op V} (h : s.Inv xs) (hop : ∀ w, op ≠ .cancelWait w)
    (hno : ∀ w, .left w .cancelled ∉ s.log) (hs : step s op = some s') : ∀ w, .left w .cancelled ∉ s'.log := by
  intro w hw
  rcases step_logs h hs with ⟨hlog, -⟩ | ⟨e, -, -, hcanc, hlog, -⟩ | ⟨w', rest, -, hlog, -⟩
  · rw [hlog] at hw
    exact hno w hw
  · rw [hlog] at hw
    rcases List.mem_append.mp hw with hw | hw
    · exact hno w hw
    · exact hop w (hcanc w (List.mem_singleton.mp hw).symm)
  · rw [hlog] at hw
    rcases List.mem_append.mp hw with hw | hw
    · exact hno w hw
    · simp at hw

omit [DecidableEq V] in
/-- A waiter that `notify_all_` found is in the private list of a running call, or completed with what its call reports. -/
theorem Inv.all_completed (h : s.Inv xs) (hr : Recorded v s.log s.value) (hno : ∀ w, .left w .cancelled ∉ s.log)
    (hn : ∀ w ∈ s.notifying, .one (some w) ∈ s.log) {pre post : List (FutexEvent V)} {n w : ℕ}
    (hlog : s.log = pre ++ .all n :: post) (hw : w ∈ waitingFrom [] pre) :
    (∃ k, (s.results k).isSome = true ∧ w ∈ xs (some k) ∧ (s.waiters w).scheduled = 0) ∨
      (∀ k, w ∉ xs k) ∧ (s.waiters w).scheduled = 1 ∧
        ∃ res, .left w (.notified res) ∈ s.log ∧ (s.waiters w).result = res := by
  obtain ⟨old, henq⟩ := (mem_waitingFrom pre [] hw).resolve_left List.not_mem_nil
  have hcause : ∀ why, why ∈ causes s.log w → FutexEvent.left w why ∈ s.log := by
    intro why hwhy
    obtain ⟨e, he, hwhy⟩ := List.mem_filterMap.mp hwhy
    cases e with
    | left w' why' =>
      obtain ⟨rfl, hsame⟩ := Option.ite_none_right_eq_some.mp hwhy
      exact Option.some.inj hsame ▸ he
    | store | enqueued | unequal | one | all => nomatch hwhy
  cases h.fates w with
  | idle hw' =>
    have hwaits : waits s.log w = true := by
      rw [hlog, waits_append, Bool.or_eq_true]
      exact .inl (List.any_eq_true.mpr ⟨_, henq, by simp⟩)
    exact absurd (hwaits.symm.trans hw') (by decide)
  | waiting _ hq _ _ ho =>
    have ho' : s.waiters w = WaitHandle.new := ho
    obtain ⟨k, hk⟩ := hq
    cases k with
    | none => exact absurd henq ((h.after_all hlog hk).1 old)
    | some k =>
      refine .inl ⟨k, ?_, hk, by rw [ho']; rfl⟩
      rw [← Option.ne_none_iff_isSome]
      intro hidle
      rw [h.idle k hidle] at hk
      exact absurd hk List.not_mem_nil
  | leaving why _ _ hl hc _ =>
    rcases (hl why).mpr rfl with ⟨hnot, -⟩ | ⟨-, rfl⟩
    · have hone := hn w hnot
      have hhist := hr.history
      have hfresh := h.fresh
      rw [hlog] at hone hhist hfresh
      exact absurd hone (not_one_of_all hhist hfresh hw)
    · have hc' : causes s.log w = [.cancelled] := hc
      exact absurd (hcause .cancelled (by simp [hc'])) (hno w)
  | settled why _ hq _ hc ho =>
    have ho' : s.waiters w = WaitHandle.done why.code := ho
    have hc' : causes s.log w = [why] := hc
    have hleft := hcause why (by simp [hc'])
    cases why with
    | notified res =>
      refine .inr ⟨fun k hk => hq ⟨k, hk⟩, by rw [ho']; rfl, res, hleft, by rw [ho']; rfl⟩
    | cancelled => exact absurd hleft (hno w)

omit [DecidableEq V] in
/-- A waiter that `notify_one` found is completed with zero, once its call has got that far. -/
theorem Inv.one_completed (h : s.Inv xs) {w : ℕ} (hc : .notified 0 ∈ causes s.log w) :
    w ∈ s.notifying ∧ (s.waiters w).scheduled = 0 ∨
      w ∉ s.notifying ∧ (s.waiters w).scheduled = 1 ∧ (s.waiters w).result = 0 := by
  obtain ⟨-, -, -, ⟨hl, ho⟩ | ⟨hl, ho⟩⟩ := h.fates.of_cause (R := s.room xs) hc
  · left
    have ho' : s.waiters w = WaitHandle.new := ho
    rcases hl with ⟨hn, -⟩ | ⟨-, hcause⟩
    · exact ⟨hn, by simp [ho', WaitHandle.new]⟩
    · cases hcause
  · right
    have ho' : s.waiters w = WaitHandle.done 0 := ho
    exact ⟨fun hn => hl (.notified 0) (.inl ⟨hn, rfl⟩), by simp [ho', WaitHandle.done], by simp [ho', WaitHandle.done]⟩

/-- **No lost wakeup**, for any waiters, notifiers and writers, without cancellations.  `xs none` is who waits.

* A waiter was put into the list only at a moment when the atomic equalled its old value.
* After the locked step of a `notify_all_` nobody waits who was put into the list before; whoever waits saw its old
  value at a moment after that step.  So no store that is followed by a `notify_all` is missed.  Whoever waited at that
  step is in the private list of a running call or has been completed.
* A call of `notify_one` finds the first waiter if there is one, and completes it; between two calls of `notify_all_`
  the waiters found, then those still waiting, are in the order in which they were put into the list. -/
theorem no_lost_wakeup (v : V) {ops : List (Op V)} {s : Futex V} (hops : ∀ w, .cancelWait w ∉ ops)
    (hrun : run step (init v) ops = some s) :
    ∃ xs : Option ℕ → List ℕ, Rep s.mem s.lists xs ∧ xs none = waitingFrom [] s.log ∧
      (∀ pre w old post, s.log = pre ++ .enqueued w old :: post → valueAt v pre = old) ∧
      (∀ pre n post, s.log = pre ++ .all n :: post → ∀ w ∈ xs none, (∀ old, .enqueued w old ∉ pre) ∧
        ∃ p₁ old p₂, post = p₁ ++ .enqueued w old :: p₂ ∧ valueAt v (pre ++ .all n :: p₁) = old) ∧
      (∀ pre n post, s.log = pre ++ .all n :: post → ∀ w ∈ waitingFrom [] pre,
        (∃ k, (s.results k).isSome = true ∧ w ∈ xs (some k) ∧ (s.waiters w).scheduled = 0) ∨
          (∀ k, w ∉ xs k) ∧ (s.waiters w).scheduled = 1 ∧
            ∃ res, .left w (.notified res) ∈ s.log ∧ (s.waiters w).result = res) ∧
      (∀ pre q post, s.log = pre ++ .one q :: post → q = (waitingFrom [] pre).head?) ∧
      (∀ pre mid post, s.log = pre ++ mid ++ post → (∀ n, .all n ∉ mid) →
        ones mid ++ waitingFrom [] (pre ++ mid) = waitingFrom [] pre ++ enqueues mid) ∧
      ∀ w, .one (some w) ∈ s.log → w ∈ s.notifying ∧ (s.waiters w).scheduled = 0 ∨
        w ∉ s.notifying ∧ (s.waiters w).scheduled = 1 ∧ (s.waiters w).result = 0 := by
  have hstep : ∀ (t : Futex V) (op : Op V) (t' : Futex V),
      ((∃ xs, t.Inv xs) ∧ Recorded v t.log t.value ∧ (∀ w, .left w .cancelled ∉ t.log) ∧
        ∀ w ∈ t.notifying, .one (some w) ∈ t.log) →
      (∀ w, op ≠ .cancelWait w) → step t op = some t' →
      (∃ xs, t'.Inv xs) ∧ Recorded v t'.log t'.value ∧ (∀ w, .left w .cancelled ∉ t'.log) ∧
        ∀ w ∈ t'.notifying, .one (some w) ∈ t'.log := by
    rintro t op t' ⟨⟨ys, hy⟩, hr, hno, hn⟩ hG hs
    have hsafe : t.SafeCancel op := by
      cases op with
      | cancelWait w => exact absurd rfl (hG w)
      | _ => trivial
    exact ⟨step_inv ⟨ys, hy⟩ hsafe hs, recorded_step hy hr hs, cancelled_step hy hG hno hs, notifying_step hy hn hs⟩
  have hinit : Recorded v (init v).log (init v).value :=
    ⟨fun pre e post heq => absurd heq (by simp [init]), rfl, fun w hw => nomatch hw⟩
  obtain ⟨⟨xs, h⟩, hr, hno, hn⟩ := run_inv_along hstep ops
    ⟨⟨_, inv_init v⟩, hinit, fun _ => List.not_mem_nil, fun _ hw => absurd hw List.not_mem_nil⟩
    (along_of_forall ops _ (fun op hop _ w heq => hops w (heq ▸ hop))) hrun
  have hval : ∀ pre w old post, s.log = pre ++ .enqueued w old :: post → valueAt v pre = old :=
    fun pre w old post heq => hr.history pre _ post heq
  refine ⟨xs, h.rep, h.queue, hval, fun pre n post hlog w hw => ?_,
    fun pre n post hlog w hw => h.all_completed hr hno hn hlog hw, fun pre q post heq => hr.history pre _ post heq,
    fun pre mid post heq hall => ?_, fun w hw => h.one_completed (hr.left w hw)⟩
  · obtain ⟨hpre, old, hpost⟩ := h.after_all hlog hw
    obtain ⟨p₁, p₂, rfl⟩ := List.append_of_mem hpost
    refine ⟨hpre, p₁, old, p₂, rfl, hval _ w old p₂ ?_⟩
    rw [hlog]
    simp
  · refine ones_fifo (v := v) (fun p e q hpq => hr.history p e (q ++ post) ?_) hall (fun w hw => hno w ?_)
    · rw [heq, hpq]
      simp
    · rw [heq]
      simp [hw]

/-- A waiter, a store and a `notify_all`; then a waiter for the new value, which `notify_one` finds. -/
theorem no_lost_wakeup_run : ∃ s : Futex ℕ,
    run step (init 0) [.requestWait 1 0, .store 5, .notifyAll 0, .requestWait 2 0, .requestWait 3 5, .notifyAllNext 0,
      .notifyOne, .notifyOneDone 3] = some s ∧ (s.waiters 1).scheduled = 1 ∧
    ∃ xs : Option ℕ → List ℕ, Rep s.mem s.lists xs ∧ xs none = waitingFrom [] s.log := by
  have hrun : ((run step (init 0) [.requestWait 1 0, .store 5, .notifyAll 0, .requestWait 2 0, .requestWait 3 5,
      .notifyAllNext 0, .notifyOne, .notifyOneDone 3]).map (fun s => (s.waiters 1).scheduled)) = some 1 := by decide
  obtain ⟨s, hs, hres⟩ := Option.map_eq_some_iff.mp hrun
  obtain ⟨xs, hrep, hq, -⟩ := no_lost_wakeup 0 (fun w => by simp) hs
  exact ⟨s, hs, hres, xs, hrep, hq⟩

end Condy.Futex
