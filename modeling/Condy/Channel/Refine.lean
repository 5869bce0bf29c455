import Condy.Channel.Buffer
import Condy.Channel.Spec
import Condy.Lib.Run
import Mathlib.Logic.Relation

/-!
# Condy.Channel.Refine — the code's channel refines `Spec`

`abs` reads a `Spec` off a channel and `Good` says that the ring buffer is in order and that no assertion and no access
to a slot has failed.  `step_refines`: every step of the code is a sequence of transitions of `Spec` and keeps `Good`.
`run_refines` is the result for whole runs.
-/

namespace Condy

open Lib Relation

namespace Channel

variable {T : Type}

/-- The channel with the list of its items. -/
def abs (c : Channel T) : Spec T where
  cap := c.buf.capacity
  items := c.buf.items
  pushQ := c.pushAwaiters
  popQ := c.popAwaiters
  closed := c.closed
  pushes := c.pushes
  pops := c.pops
  cancellingPush := c.cancellingPush
  cancellingPop := c.cancellingPop
  destroyed := c.destroyed
  log := c.log

/-- The ring buffer is in order, all assertions held, and all slot accesses were right. -/
structure Good (c : Channel T) : Prop where
  buf : ∃ hd, c.buf.Holds hd c.buf.items
  asserts : c.asserts = true
  lifetimes : c.lifetimes = true

theorem check_eq (c : Channel T) {b : Bool} (hb : b = true) : c.check b = c := by
  subst hb
  simp [check]

/-- The second half of `PushFinishHandle::cancel_` writes its own handle only. -/
theorem cancelPushDone_frame (c : Channel T) (r : ℕ) :
    (c.cancelPushDone r).buf = c.buf ∧ (c.cancelPushDone r).lifetimes = c.lifetimes ∧
      (c.cancelPushDone r).destroyed = c.destroyed ∧ (c.cancelPushDone r).log = c.log ∧
      (c.cancelPushDone r).pushAwaiters = c.pushAwaiters := by
  simp only [cancelPushDone, check, setPush, and_self]

/-- The second half of `PopFinishHandle::cancel_` writes its own handle only. -/
theorem cancelPopDone_frame (c : Channel T) (p : ℕ) :
    (c.cancelPopDone p).buf = c.buf ∧ (c.cancelPopDone p).lifetimes = c.lifetimes ∧
      (c.cancelPopDone p).destroyed = c.destroyed ∧ (c.cancelPopDone p).log = c.log ∧
      (c.cancelPopDone p).pushAwaiters = c.pushAwaiters := by
  simp only [cancelPopDone, check, setPop, and_self]

namespace Good

variable {c : Channel T} (h : c.Good) {x y : T} {ys : List T}
include h

theorem emit {e : Event T} : (c.emit e).Good := ⟨h.buf, h.asserts, h.lifetimes⟩

theorem ofDestroyed : ({ c with destroyed := true } : Channel T).Good := ⟨h.buf, h.asserts, h.lifetimes⟩

theorem empty_iff : c.buf.empty = true ↔ c.buf.items = [] := by
  obtain ⟨hd, hb⟩ := h.buf
  exact hb.empty_iff

theorem full_iff : c.buf.full = true ↔ c.buf.items.length = c.buf.capacity := by
  obtain ⟨hd, hb⟩ := h.buf
  exact hb.full_iff

theorem pushInner (hl : c.buf.items.length < c.buf.capacity) :
    (c.pushInner x).Good ∧ (c.pushInner x).abs = { c.abs with items := c.buf.items ++ [x] } := by
  obtain ⟨hd, hb⟩ := h.buf
  obtain ⟨hidx, hfree⟩ := hb.tail_free hl
  have hfull : c.buf.full = false := by
    rw [← Bool.not_eq_true, hb.full_iff]
    omega
  have hpush := hb.push (x := x) hl
  have hitems : (c.buf.push x).items = c.buf.items ++ [x] := hpush.items_eq
  refine ⟨⟨⟨hd, ?_⟩, ?_, ?_⟩, ?_⟩
  · show (c.buf.push x).Holds hd (c.buf.push x).items
    rw [hitems]
    exact hpush
  · simp [Channel.pushInner, check, h.asserts, hfull]
  · simp [Channel.pushInner, h.lifetimes, hidx, hfree]
  · simp only [abs, Channel.pushInner, check, hitems]
    rfl

variable [Inhabited T]

theorem popInner (hi : c.buf.items = y :: ys) :
    c.popInner.1 = y ∧ c.popInner.2.Good ∧ c.popInner.2.abs = { c.abs with items := ys } := by
  obtain ⟨hd, hb⟩ := h.buf
  rw [hi] at hb
  obtain ⟨hidx, hlive⟩ := hb.head_live
  have hempty : c.buf.empty = false := by
    rw [← Bool.not_eq_true, hb.empty_iff]
    exact List.cons_ne_nil y ys
  have hpop := hb.pop
  have hitems : c.buf.pop.items = ys := hpop.items_eq
  refine ⟨?_, ⟨⟨hd + 1, ?_⟩, ?_, ?_⟩, ?_⟩
  · simp [Channel.popInner, hlive]
  · show c.buf.pop.Holds (hd + 1) c.buf.pop.items
    rw [hitems]
    exact hpop
  · simp [Channel.popInner, check, h.asserts, hempty]
  · simp [Channel.popInner, h.lifetimes, hidx, hlive]
  · simp only [abs, Channel.popInner, check, hitems]
    rfl

/-- With a full buffer the oldest item comes out and the new one goes in; without a buffer they are the same. -/
theorem popAndPush (hfull : c.buf.items.length = c.buf.capacity) (hi : c.buf.items ++ [x] = y :: ys) :
    (c.popAndPush x).1 = y ∧ (c.popAndPush x).2.Good ∧
      (c.popAndPush x).2.abs = { c.abs with items := ys } := by
  unfold Channel.popAndPush
  by_cases h0 : c.buf.capacity = 0
  · have hnil : c.buf.items = [] := by
      rw [← List.length_eq_zero_iff, hfull, h0]
    rw [hnil, List.nil_append, List.cons.injEq] at hi
    obtain ⟨rfl, rfl⟩ := hi
    rw [if_pos h0]
    refine ⟨rfl, h, ?_⟩
    simp [abs, hnil]
  · rw [if_neg h0]
    cases hitems : c.buf.items with
    | nil =>
      rw [hitems] at hfull
      exact absurd hfull.symm h0
    | cons z zs =>
      rw [hitems, List.cons_append, List.cons.injEq] at hi
      obtain ⟨rfl, rfl⟩ := hi
      obtain ⟨h1, h2, h3⟩ := h.popInner hitems
      have hzs : c.popInner.2.buf.items = zs := congrArg Spec.items h3
      have hcap : c.popInner.2.buf.capacity = c.buf.capacity := congrArg Spec.cap h3
      obtain ⟨h4, h5⟩ := h2.pushInner (x := x) (by
        rw [hitems, List.length_cons] at hfull
        rw [hzs, hcap]
        omega)
      refine ⟨h1, h4, ?_⟩
      rw [h5, h3, hzs]

end Good

section Step

variable [Inhabited T] {c c' : Channel T} {r p : ℕ} {x : T} {copied : Bool} {rt : Option ℕ}

/-- What a step does where it is enabled. -/
inductive Made (c : Channel T) : Op T → Channel T → Prop where
  | tryPush (r : ℕ) (x : T) (copied : Bool) (hd : c.destroyed = false) (hr : r ∉ pushOrder c.log) :
      Made c (.tryPush r x copied) (((c.newPush r x copied none).tryPush r).2.emit
        (.pushRet r ((c.newPush r x copied none).tryPush r).1))
  | push (r : ℕ) (x : T) (copied : Bool) (rt : ℕ) (hd : c.destroyed = false) (hr : r ∉ pushOrder c.log) :
      Made c (.push r x copied rt) (((c.newPush r x copied (some rt)).requestPush r).2.emit
        (if ((c.newPush r x copied (some rt)).requestPush r).1 = -EAGAIN then .pushWait r
          else .pushRet r ((c.newPush r x copied (some rt)).requestPush r).1))
  | forcePush (r : ℕ) (x : T) (alloc : Bool) (q : Bool × Channel T) (hd : c.destroyed = false)
      (hr : r ∉ pushOrder c.log) (hq : (c.newPush r x false none).forcePush r alloc = some q) :
      Made c (.forcePush r x alloc) (q.2.emit (if q.1 then .pushRet r 0 else .pushWait r))
  | tryPop (p : ℕ) (hd : c.destroyed = false) (hp : p ∉ popOrder c.log) :
      Made c (.tryPop p) ((c.newPop p none).tryPop.2.emit
        (.popRet p (c.newPop p none).tryPop.1.1 (c.newPop p none).tryPop.1.2))
  | pop (p rt : ℕ) (hd : c.destroyed = false) (hp : p ∉ popOrder c.log) :
      Made c (.pop p rt) (((c.newPop p (some rt)).requestPop p).2.emit
        (if ((c.newPop p (some rt)).requestPop p).1.1 = -EAGAIN then .popWait p
          else .popRet p ((c.newPop p (some rt)).requestPop p).1.1 ((c.newPop p (some rt)).requestPop p).1.2))
  | pushLeaves (r : ℕ) (hd : c.destroyed = false) (hsus : c.pushSuspended r = true) (hr : r ∈ c.pushAwaiters) :
      Made c (.cancelPush r) ({ (c.cancelPush r).2 with cancellingPush := c.cancellingPush ++ [r] }.emit
        (.pushLeft r .cancelled))
  | pushGone (r : ℕ) (hd : c.destroyed = false) (hr : r ∉ c.pushAwaiters) : Made c (.cancelPush r) c
  | cancelPushDone (r : ℕ) (hr : r ∈ c.cancellingPush) : Made c (.cancelPushDone r) (c.cancelPushDone r)
  | popLeaves (p : ℕ) (hd : c.destroyed = false) (hp : p ∈ c.popAwaiters) :
      Made c (.cancelPop p) ({ (c.cancelPop p).2 with cancellingPop := c.cancellingPop ++ [p] }.emit
        (.popLeft p .cancelled default))
  | popGone (p : ℕ) (hd : c.destroyed = false) (hp : p ∉ c.popAwaiters) : Made c (.cancelPop p) c
  | cancelPopDone (p : ℕ) (hp : p ∈ c.cancellingPop) : Made c (.cancelPopDone p) (c.cancelPopDone p)
  | pushClose (hd : c.destroyed = false) : Made c .pushClose c.pushCloseInner
  | destroy (hd : c.destroyed = false) : Made c .destroy { c.pushCloseInner.destructAll with destroyed := true }

/-- The only place that takes `step` apart. -/
theorem step_made {op : Op T} (hs : step c op = some c') : Made c op c' := by
  have hguard : ∀ {q : Prop}, ¬(c.destroyed = true ∨ q) → c.destroyed = false ∧ ¬q :=
    fun hg => ⟨Bool.not_eq_true _ ▸ (not_or.mp hg).1, (not_or.mp hg).2⟩
  cases op with
  | tryPush r x copied =>
    obtain ⟨hg, hs⟩ := Option.ite_none_left_eq_some.mp hs
    obtain rfl := Option.some.inj hs
    exact .tryPush r x copied (hguard hg).1 (hguard hg).2
  | push r x copied rt =>
    obtain ⟨hg, hs⟩ := Option.ite_none_left_eq_some.mp hs
    obtain rfl := Option.some.inj hs
    exact .push r x copied rt (hguard hg).1 (hguard hg).2
  | forcePush r x alloc =>
    obtain ⟨hg, hs⟩ := Option.ite_none_left_eq_some.mp hs
    obtain ⟨q, hq, rfl⟩ := Option.map_eq_some_iff.mp hs
    exact .forcePush r x alloc q (hguard hg).1 (hguard hg).2 hq
  | tryPop p =>
    obtain ⟨hg, hs⟩ := Option.ite_none_left_eq_some.mp hs
    obtain rfl := Option.some.inj hs
    exact .tryPop p (hguard hg).1 (hguard hg).2
  | pop p rt =>
    obtain ⟨hg, hs⟩ := Option.ite_none_left_eq_some.mp hs
    obtain rfl := Option.some.inj hs
    exact .pop p rt (hguard hg).1 (hguard hg).2
  | cancelPush r =>
    obtain ⟨hg, hs⟩ := Option.ite_none_left_eq_some.mp hs
    obtain ⟨hd, hsus⟩ := hguard hg
    simp only [cancelPush, decide_eq_true_eq] at hs
    by_cases hr : r ∈ c.pushAwaiters
    · rw [if_pos hr] at hs
      obtain rfl := Option.some.inj hs
      exact .pushLeaves r hd (Bool.not_eq_false _ ▸ hsus) hr
    · rw [if_neg hr, List.erase_of_not_mem hr] at hs
      obtain rfl := Option.some.inj hs
      exact .pushGone r hd hr
  | cancelPushDone r =>
    obtain ⟨hr, hs⟩ := Option.ite_none_right_eq_some.mp hs
    obtain rfl := Option.some.inj hs
    exact .cancelPushDone r hr
  | cancelPop p =>
    obtain ⟨hg, hs⟩ := Option.ite_none_left_eq_some.mp hs
    simp only [cancelPop, decide_eq_true_eq] at hs
    by_cases hp : p ∈ c.popAwaiters
    · rw [if_pos hp] at hs
      obtain rfl := Option.some.inj hs
      exact .popLeaves p (hguard hg).1 hp
    · rw [if_neg hp, List.erase_of_not_mem hp] at hs
      obtain rfl := Option.some.inj hs
      exact .popGone p (hguard hg).1 hp
  | cancelPopDone p =>
    obtain ⟨hp, hs⟩ := Option.ite_none_right_eq_some.mp hs
    obtain rfl := Option.some.inj hs
    exact .cancelPopDone p hp
  | pushClose =>
    obtain ⟨hd, hs⟩ := Option.ite_none_left_eq_some.mp hs
    obtain rfl := Option.some.inj hs
    exact .pushClose (Bool.not_eq_true _ ▸ hd)
  | destroy =>
    obtain ⟨hd, hs⟩ := Option.ite_none_left_eq_some.mp hs
    obtain rfl := Option.some.inj hs
    exact .destroy (Bool.not_eq_true _ ▸ hd)

/-- `try_push_inner_` for a new push: it takes the item, or the channel is full and nothing has changed. -/
theorem tryPushInner_spec (x : T) (copied : Bool) (rt : Option ℕ) (hG : c.Good) (hI : c.abs.Inv)
    (hr : r ∉ pushOrder c.log) (hclosed : c.closed = false) :
    (∃ c', (c.newPush r x copied rt).tryPushInner r = (true, c') ∧ c'.Good ∧
      Spec.Trans c.abs (c'.emit (.pushRet r 0)).abs) ∨
    ((c.newPush r x copied rt).tryPushInner r = (false, c.newPush r x copied rt) ∧
      c.popAwaiters = [] ∧ c.buf.items.length = c.buf.capacity) := by
  set c₁ := c.newPush r x copied rt with hc₁
  have hG₁ : c₁.Good := ⟨hG.buf, hG.asserts, hG.lifetimes⟩
  have hitem : (c₁.pushes r) = PushHandle.new x copied rt := by simp [hc₁, newPush, setPush, emit]
  cases hp : c.popAwaiters with
  | cons p rest =>
    -- a pop waits: the buffer is empty and the pop has a runtime
    have hempty : c.buf.items = [] := (hI.popIdle (by simp [abs, hp])).1
    have hrt : (c.pops p).runtime.isSome := by
      refine hI.popRuntime p (hI.pop_queued ?_).1
      simp [abs, hp]
    refine .inl ⟨c₁.handOff p rest r, ?_, ?_, ?_⟩
    · unfold tryPushInner
      rw [show c₁.popAwaiters = p :: rest from hp]
      simp only
      rw [check_eq _ (hG₁.empty_iff.mpr hempty)]
    · refine ⟨hG.buf, ?_, hG.lifetimes⟩
      simp [handOff, schedulePop, setPop, setPush, emit, check, PopHandle.setResult, hc₁, newPush, hG.asserts, hrt]
    · have hstep := Spec.Trans.pushHanded c.abs r x copied rt p rest hr hclosed hp
      convert hstep using 1
      simp [abs, handOff, schedulePop, setPop, setPush, emit, check, hc₁, newPush, PushHandle.new]
  | nil =>
    by_cases hl : c.buf.items.length = c.buf.capacity
    · refine .inr ⟨?_, rfl, hl⟩
      unfold tryPushInner
      rw [show c₁.popAwaiters = [] from hp]
      simp only
      rw [if_pos (hG₁.full_iff.mpr hl)]
    · have hlt : c.buf.items.length < c.buf.capacity := lt_of_le_of_ne hI.len hl
      have hG₂ : (c₁.setPush r PushHandle.take).Good := ⟨hG.buf, hG.asserts, hG.lifetimes⟩
      obtain ⟨hG₃, habs⟩ := hG₂.pushInner (x := x) hlt
      refine .inl ⟨(c₁.setPush r PushHandle.take).pushInner x, ?_, hG₃, ?_⟩
      · unfold tryPushInner
        rw [show c₁.popAwaiters = [] from hp]
        simp only
        rw [if_neg (fun hfull => hl (hG₁.full_iff.mp hfull)), hitem]
        rfl
      · have hstep := Spec.Trans.pushBuffered c.abs r x copied rt hr hclosed hp hlt
        convert hstep using 1
        have hemit : ∀ d : Channel T, (d.emit (.pushRet r 0)).abs =
            { d.abs with log := d.abs.log ++ [.pushRet r 0] } := fun _ => rfl
        rw [hemit, habs]
        simp [abs, hc₁, newPush, emit, setPush]

/-- `try_pop_inner_` for a new pop: it gives the oldest item, or there is none and nothing has changed. -/
theorem tryPopInner_spec (rt : Option ℕ) (hG : c.Good) (hI : c.abs.Inv) (hp : p ∉ popOrder c.log) :
    (∃ y c', (c.newPop p rt).tryPopInner = (some y, c') ∧ c'.Good ∧
      Spec.Trans c.abs (c'.emit (.popRet p 0 y)).abs) ∨
    ((c.newPop p rt).tryPopInner = (none, c.newPop p rt) ∧ c.pushAwaiters = [] ∧ c.buf.items = []) := by
  set c₁ := c.newPop p rt with hc₁
  have hG₁ : c₁.Good := ⟨hG.buf, hG.asserts, hG.lifetimes⟩
  have hemit : ∀ (d : Channel T) (y : T), (d.emit (.popRet p 0 y)).abs =
      { d.abs with log := d.abs.log ++ [.popRet p 0 y] } := fun _ _ => rfl
  cases hq : c.pushAwaiters with
  | cons r rest =>
    -- a push waits: the buffer is full
    have hfull : c.buf.items.length = c.buf.capacity := (hI.pushFull (by simp [abs, hq])).1
    have hG₂ : (c₁.takeOver r rest).Good := ⟨hG.buf, hG.asserts, hG.lifetimes⟩
    obtain ⟨y, ys, hi⟩ : ∃ y ys, c.buf.items ++ [(c.pushes r).item] = y :: ys :=
      List.exists_cons_of_ne_nil (by simp)
    obtain ⟨h1, h2, h3⟩ := hG₂.popAndPush (x := (c.pushes r).item) hfull hi
    refine .inl ⟨y, ((c₁.takeOver r rest).popAndPush (c.pushes r).item).2, ?_, h2, ?_⟩
    · unfold tryPopInner
      rw [show c₁.pushAwaiters = r :: rest from hq]
      simp only
      rw [check_eq _ (hG₁.full_iff.mpr hfull), show (c₁.pushes r).item = (c.pushes r).item from rfl, h1]
    · have hstep := Spec.Trans.popShifted c.abs p rt r rest y ys hp hq hi
      convert hstep using 1
      rw [hemit, h3]
      simp [abs, takeOver, hc₁, newPop, emit, setPush, setPop]
  | nil =>
    cases hi : c.buf.items with
    | nil =>
      refine .inr ⟨?_, rfl, rfl⟩
      unfold tryPopInner
      rw [show c₁.pushAwaiters = [] from hq]
      simp only
      rw [if_pos (hG₁.empty_iff.mpr hi)]
    | cons y ys =>
      obtain ⟨h1, h2, h3⟩ := hG₁.popInner hi
      refine .inl ⟨y, c₁.popInner.2, ?_, h2, ?_⟩
      · unfold tryPopInner
        rw [show c₁.pushAwaiters = [] from hq]
        simp only
        rw [if_neg (fun he => List.cons_ne_nil y ys (hi ▸ hG₁.empty_iff.mp he)), h1]
      · have hstep := Spec.Trans.popBuffered c.abs p rt y ys hp hq hi
        convert hstep using 1
        rw [hemit, h3]
        simp [abs, hc₁, newPop, emit, setPop]

/-- A push that is refused: the channel is closed, or full. -/
theorem push_refused (hr : r ∉ pushOrder c.log) {res : ℤ}
    (hres : c.closed = true ∧ res = -EPIPE ∨
      c.popAwaiters = [] ∧ c.buf.items.length = c.buf.capacity ∧ res = -EAGAIN) :
    Spec.Trans c.abs ((c.newPush r x copied rt).emit (.pushRet r res)).abs := by
  have hstep := Spec.Trans.pushRefused c.abs r x copied rt res hr hres
  convert hstep using 1
  simp [abs, newPush, emit, setPush]

/-- A push that starts to wait. -/
theorem push_queued (hr : r ∉ pushOrder c.log) (hclosed : c.closed = false) (hp : c.popAwaiters = [])
    (hl : c.buf.items.length = c.buf.capacity) :
    Spec.Trans c.abs (({ c.newPush r x copied rt with
      pushAwaiters := c.pushAwaiters ++ [r] } : Channel T).emit (.pushWait r)).abs := by
  have hstep := Spec.Trans.pushQueued c.abs r x copied rt hr hclosed hp hl
  convert hstep using 1
  simp [abs, newPush, emit, setPush]

/-- What a step of the code may do. -/
def Stepped (c c' : Channel T) : Prop := c'.Good ∧ ReflTransGen Spec.Trans c.abs c'.abs

theorem tryPush_refines (hG : c.Good) (hI : c.abs.Inv) (hr : r ∉ pushOrder c.log) :
    Stepped c (((c.newPush r x copied none).tryPush r).2.emit
      (.pushRet r ((c.newPush r x copied none).tryPush r).1)) := by
  by_cases hclosed : c.closed = true
  · have hret : (c.newPush r x copied none).tryPush r = (-EPIPE, c.newPush r x copied none) := by
      unfold tryPush
      rw [if_pos (show (c.newPush r x copied none).closed = true from hclosed)]
    rw [hret]
    exact ⟨⟨hG.buf, hG.asserts, hG.lifetimes⟩, .single (push_refused hr (.inl ⟨hclosed, rfl⟩))⟩
  · have hopen : ¬ (c.newPush r x copied none).closed = true := hclosed
    rw [Bool.not_eq_true] at hclosed
    rcases tryPushInner_spec x copied none hG hI hr hclosed with
      ⟨c', heq, hG', hstep⟩ | ⟨heq, hp, hl⟩
    · have hret : (c.newPush r x copied none).tryPush r = (0, c') := by
        unfold tryPush
        rw [if_neg hopen, heq]
        rfl
      rw [hret]
      exact ⟨hG'.emit, .single hstep⟩
    · have hret : (c.newPush r x copied none).tryPush r = (-EAGAIN, c.newPush r x copied none) := by
        unfold tryPush
        rw [if_neg hopen, heq]
        rfl
      rw [hret]
      exact ⟨⟨hG.buf, hG.asserts, hG.lifetimes⟩, .single (push_refused hr (.inr ⟨hp, hl, rfl⟩))⟩

theorem push_refines {rt : ℕ} (hG : c.Good) (hI : c.abs.Inv) (hr : r ∉ pushOrder c.log) :
    Stepped c (((c.newPush r x copied (some rt)).requestPush r).2.emit
      (if ((c.newPush r x copied (some rt)).requestPush r).1 = -EAGAIN then .pushWait r
        else .pushRet r ((c.newPush r x copied (some rt)).requestPush r).1)) := by
  by_cases hclosed : c.closed = true
  · have hret : (c.newPush r x copied (some rt)).requestPush r = (-EPIPE, c.newPush r x copied (some rt)) := by
      unfold requestPush
      rw [if_pos (show (c.newPush r x copied (some rt)).closed = true from hclosed)]
    rw [hret, if_neg (show ¬ (-EPIPE : ℤ) = -EAGAIN by decide)]
    exact ⟨⟨hG.buf, hG.asserts, hG.lifetimes⟩, .single (push_refused hr (.inl ⟨hclosed, rfl⟩))⟩
  · have hopen : ¬ (c.newPush r x copied (some rt)).closed = true := hclosed
    rw [Bool.not_eq_true] at hclosed
    rcases tryPushInner_spec x copied (some rt) hG hI hr hclosed with
      ⟨c', heq, hG', hstep⟩ | ⟨heq, hp, hl⟩
    · have hret : (c.newPush r x copied (some rt)).requestPush r = (0, c') := by
        unfold requestPush
        rw [if_neg hopen, heq]
        rfl
      rw [hret, if_neg (show ¬ (0 : ℤ) = -EAGAIN by decide)]
      exact ⟨hG'.emit, .single hstep⟩
    · have hret : (c.newPush r x copied (some rt)).requestPush r =
          (-EAGAIN, { c.newPush r x copied (some rt) with pushAwaiters := c.pushAwaiters ++ [r] }) := by
        unfold requestPush
        rw [if_neg hopen, heq]
        simp only [Bool.false_eq_true, if_false]
        rw [check_eq _ (show (c.newPush r x copied (some rt)).popAwaiters.isEmpty = true by
          rw [show (c.newPush r x copied (some rt)).popAwaiters = [] from hp]; rfl)]
        rfl
      rw [hret, if_pos rfl]
      exact ⟨⟨hG.buf, hG.asserts, hG.lifetimes⟩, .single (push_queued hr hclosed hp hl)⟩

theorem forcePush_refines {alloc : Bool} {q : Bool × Channel T} (hG : c.Good) (hI : c.abs.Inv)
    (hr : r ∉ pushOrder c.log) (hq : (c.newPush r x false none).forcePush r alloc = some q) :
    Stepped c (q.2.emit (if q.1 then .pushRet r 0 else .pushWait r)) := by
  unfold forcePush at hq
  split_ifs at hq with hclosed htook halloc
  all_goals
    rw [Bool.not_eq_true] at hclosed
    obtain rfl := Option.some.inj hq
  · rcases tryPushInner_spec x false none hG hI hr hclosed with
      ⟨c', heq, hG', hstep⟩ | ⟨heq, -, -⟩
    · rw [heq]
      exact ⟨hG'.emit, .single hstep⟩
    · rw [heq] at htook
      exact absurd htook (by simp)
  · rcases tryPushInner_spec x false none hG hI hr hclosed with
      ⟨c', heq, -, -⟩ | ⟨heq, hp, hl⟩
    · rw [heq] at htook
      exact absurd rfl htook
    · rw [heq]
      simp only
      rw [check_eq _ (show (c.newPush r x false none).popAwaiters.isEmpty = true by
        rw [show (c.newPush r x false none).popAwaiters = [] from hp]; rfl)]
      exact ⟨⟨hG.buf, hG.asserts, hG.lifetimes⟩, .single (push_queued hr hclosed hp hl)⟩

/-- A pop that finds nothing and does not wait. -/
theorem pop_refused (hp : p ∉ popOrder c.log) (hq : c.pushAwaiters = []) (hi : c.buf.items = []) {res : ℤ}
    (hres : res = if c.closed then -EPIPE else -EAGAIN) :
    Spec.Trans c.abs ((c.newPop p rt).emit (.popRet p res default)).abs := by
  have hstep := Spec.Trans.popRefused c.abs p rt res hp hq hi hres
  convert hstep using 1
  simp [abs, newPop, emit, setPop]

theorem tryPop_refines (hG : c.Good) (hI : c.abs.Inv) (hp : p ∉ popOrder c.log) :
    Stepped c ((c.newPop p none).tryPop.2.emit
      (.popRet p (c.newPop p none).tryPop.1.1 (c.newPop p none).tryPop.1.2)) := by
  unfold tryPop
  rcases tryPopInner_spec none hG hI hp with ⟨y, c', heq, hG', hstep⟩ | ⟨heq, hq, hi⟩
  · rw [heq]
    exact ⟨hG'.emit, .single hstep⟩
  · rw [heq]
    simp only
    by_cases hclosed : c.closed = true
    · rw [if_pos (show (c.newPop p none).closed = true from hclosed)]
      exact ⟨⟨hG.buf, hG.asserts, hG.lifetimes⟩, .single (pop_refused hp hq hi (by rw [if_pos hclosed]))⟩
    · rw [if_neg (show ¬ (c.newPop p none).closed = true from hclosed)]
      exact ⟨⟨hG.buf, hG.asserts, hG.lifetimes⟩, .single (pop_refused hp hq hi (by rw [if_neg hclosed]))⟩

theorem pop_refines {rt : ℕ} (hG : c.Good) (hI : c.abs.Inv) (hp : p ∉ popOrder c.log) :
    Stepped c (((c.newPop p (some rt)).requestPop p).2.emit
      (if ((c.newPop p (some rt)).requestPop p).1.1 = -EAGAIN then .popWait p
        else .popRet p ((c.newPop p (some rt)).requestPop p).1.1 ((c.newPop p (some rt)).requestPop p).1.2)) := by
  unfold requestPop
  rcases tryPopInner_spec (some rt) hG hI hp with ⟨y, c', heq, hG', hstep⟩ | ⟨heq, hq, hi⟩
  · rw [heq]
    simp only
    rw [if_neg (show ¬ (0 : ℤ) = -EAGAIN by decide)]
    exact ⟨hG'.emit, .single hstep⟩
  · rw [heq]
    simp only
    rw [check_eq _ (show (c.newPop p (some rt)).pushAwaiters.isEmpty = true by
      rw [show (c.newPop p (some rt)).pushAwaiters = [] from hq]; rfl)]
    by_cases hclosed : c.closed = true
    · rw [if_pos (show (c.newPop p (some rt)).closed = true from hclosed)]
      simp only
      rw [if_neg (show ¬ (-EPIPE : ℤ) = -EAGAIN by decide)]
      exact ⟨⟨hG.buf, hG.asserts, hG.lifetimes⟩, .single (pop_refused hp hq hi (by rw [if_pos hclosed]))⟩
    · rw [if_neg (show ¬ (c.newPop p (some rt)).closed = true from hclosed)]
      simp only
      rw [if_pos trivial]
      refine ⟨⟨hG.buf, hG.asserts, hG.lifetimes⟩, .single ?_⟩
      have hstep := Spec.Trans.popQueued c.abs p rt hp hq hi (Bool.not_eq_true _ ▸ hclosed)
      convert hstep using 1
      simp [abs, newPop, emit, setPop]

theorem cancelPushDone_refines (hG : c.Good) (hI : c.abs.Inv) (hr : r ∈ c.cancellingPush) :
    Stepped c (c.cancelPushDone r) := by
  have hrt : (c.pushes r).runtime.isSome := hI.pushRuntime r hr
  have hres : (c.pushes r).result = -ENOTRECOVERABLE :=
    congrArg PushOutcome.result (hI.push_leaving hr).2.2.2
  obtain ⟨rt, hrt'⟩ := Option.isSome_iff_exists.mp hrt
  obtain ⟨hbuf, hlife, -⟩ := c.cancelPushDone_frame r
  refine ⟨⟨hbuf.symm ▸ hG.buf, ?_, hlife.trans hG.lifetimes⟩, .single ?_⟩
  · simp [cancelPushDone, check, setPush, PushHandle.setResult, hG.asserts, hres, hrt]
  · have hstep := Spec.Trans.pushCancelDone c.abs r hr
    convert hstep using 1
    simp [abs, cancelPushDone, check, setPush, PushHandle.setResult, PushHandle.schedule, hrt']

theorem cancelPopDone_refines (hG : c.Good) (hI : c.abs.Inv) (hp : p ∈ c.cancellingPop) :
    Stepped c (c.cancelPopDone p) := by
  obtain ⟨hw, -, -, ho⟩ := hI.pop_leaving hp
  have hrt : (c.pops p).runtime.isSome := hI.popRuntime p hw
  have hres : (c.pops p).result.1 = -ENOTRECOVERABLE := congrArg (fun o => o.result.1) ho
  obtain ⟨hbuf, hlife, -⟩ := c.cancelPopDone_frame p
  refine ⟨⟨hbuf.symm ▸ hG.buf, ?_, hlife.trans hG.lifetimes⟩, .single ?_⟩
  · simp [cancelPopDone, check, setPop, PopHandle.setResult, hG.asserts, hres, hrt]
  · have hstep := Spec.Trans.popCancelDone c.abs p hp
    convert hstep using 1
    simp [abs, cancelPopDone, check, setPop, PopHandle.setResult, PopHandle.schedule]

/-! ## Closing -/

theorem closePops_closed (b : Bool) (l : List ℕ) (c : Channel T) :
    closePops { c with closed := b } l = { closePops c l with closed := b } := by
  induction l generalizing c with
  | nil => rfl
  | cons p rest ih => exact ih (c.closePop p rest)

omit [Inhabited T] in
theorem closePushes_closed (b : Bool) (l : List ℕ) (c : Channel T) :
    closePushes { c with closed := b } l = { closePushes c l with closed := b } := by
  induction l generalizing c with
  | nil => rfl
  | cons r rest ih => exact ih (c.closePush r rest)

theorem closePop_spec {rest : List ℕ} (hG : c.Good) (hI : c.abs.Inv) (hl : c.popAwaiters = p :: rest) :
    (c.closePop p rest).Good ∧ Spec.Trans c.abs (c.closePop p rest).abs := by
  have hempty : c.buf.items = [] := (hI.popIdle (by simp [abs, hl])).1
  have hrt : (c.pops p).runtime.isSome := by
    refine hI.popRuntime p (hI.pop_queued ?_).1
    simp [abs, hl]
  refine ⟨⟨hG.buf, ?_, hG.lifetimes⟩, ?_⟩
  · simp [closePop, schedulePop, setPop, emit, check, PopHandle.setResult, hG.asserts, hrt,
      hG.empty_iff.mpr hempty]
  · have hstep := Spec.Trans.popClosed c.abs p rest hl
    convert hstep using 1
    simp [abs, closePop, schedulePop, setPop, emit, check]

theorem closePush_spec {rest : List ℕ} (hG : c.Good) (hI : c.abs.Inv) (hl : c.pushAwaiters = r :: rest) :
    (c.closePush r rest).Good ∧ Spec.Trans c.abs (c.closePush r rest).abs := by
  have hfull : c.buf.items.length = c.buf.capacity := (hI.pushFull (by simp [abs, hl])).1
  refine ⟨⟨hG.buf, ?_, hG.lifetimes⟩, ?_⟩
  · simp [closePush, setPush, emit, check, hG.asserts, hG.full_iff.mpr hfull]
  · have hstep := Spec.Trans.pushClosed c.abs r rest hl
    convert hstep using 1
    simp [abs, closePush, setPush, emit, check]

/-- The loop over the waiting pops: every turn is a transition, and nobody is left. -/
theorem closePops_spec (l : List ℕ) : ∀ {c : Channel T}, c.Good → c.abs.Inv → c.popAwaiters = l →
    Stepped c (c.closePops l) ∧ (c.closePops l).popAwaiters = [] := by
  induction l with
  | nil =>
    intro c hG hI hl
    have hc : c.closePops [] = c := by
      unfold closePops
      rw [← hl]
    rw [hc]
    exact ⟨⟨hG, .refl⟩, hl⟩
  | cons p rest ih =>
    intro c hG hI hl
    obtain ⟨hG₁, ht⟩ := closePop_spec hG hI hl
    obtain ⟨⟨h1, h2⟩, h3⟩ := ih hG₁ (ht.inv hI) rfl
    exact ⟨⟨h1, .head ht h2⟩, h3⟩

/-- The loop over the waiting pushes. -/
theorem closePushes_spec (l : List ℕ) : ∀ {c : Channel T}, c.Good → c.abs.Inv → c.pushAwaiters = l →
    Stepped c (c.closePushes l) ∧ (c.closePushes l).pushAwaiters = [] ∧
      (c.closePushes l).popAwaiters = c.popAwaiters := by
  induction l with
  | nil =>
    intro c hG hI hl
    have hc : c.closePushes [] = c := by
      unfold closePushes
      rw [← hl]
    rw [hc]
    exact ⟨⟨hG, .refl⟩, hl, rfl⟩
  | cons r rest ih =>
    intro c hG hI hl
    obtain ⟨hG₁, ht⟩ := closePush_spec hG hI hl
    obtain ⟨⟨h1, h2⟩, h3, h4⟩ := ih hG₁ (ht.inv hI) rfl
    exact ⟨⟨h1, .head ht h2⟩, h3, h4⟩

/-- `push_close_inner_`: everybody who waits is completed, then the channel is closed.  The code sets `closed_` first,
which no turn of the loops reads. -/
theorem pushCloseInner_spec (hG : c.Good) (hI : c.abs.Inv) :
    Stepped c c.pushCloseInner ∧ c.pushCloseInner.closed = true := by
  unfold pushCloseInner
  by_cases hclosed : c.closed = true
  · rw [if_pos hclosed]
    exact ⟨⟨hG, .refl⟩, hclosed⟩
  · rw [if_neg hclosed]
    simp only
    rw [closePops_closed, closePushes_closed]
    obtain ⟨⟨hG₁, ht₁⟩, hp₁⟩ := closePops_spec c.popAwaiters hG hI rfl
    obtain ⟨⟨hG₂, ht₂⟩, hq₂, hp₂⟩ := closePushes_spec _ hG₁ (Spec.inv_star hI ht₁) rfl
    refine ⟨⟨⟨hG₂.buf, hG₂.asserts, hG₂.lifetimes⟩, ?_⟩, rfl⟩
    exact (ht₁.trans ht₂).tail (Spec.Trans.close _ (hp₂.trans hp₁) hq₂)

theorem drain_spec (n : ℕ) : ∀ {c : Channel T}, c.Good → c.buf.items.length = n →
    (c.drain n).Good ∧ (c.drain n).abs = { c.abs with items := [] } := by
  induction n with
  | zero =>
    intro c hG hl
    rw [List.length_eq_zero_iff] at hl
    refine ⟨hG, ?_⟩
    unfold drain
    simp [abs, hl]
  | succ n ih =>
    intro c hG hl
    obtain ⟨y, ys, hi⟩ : ∃ y ys, c.buf.items = y :: ys := by
      cases hi : c.buf.items with
      | nil => simp [hi] at hl
      | cons y ys => exact ⟨y, ys, rfl⟩
    obtain ⟨-, hG₁, habs⟩ := hG.popInner hi
    have hys : c.popInner.2.buf.items = ys := congrArg Spec.items habs
    obtain ⟨hG₂, habs₂⟩ := ih hG₁ (by simpa [hys, hi] using hl)
    unfold drain
    rw [if_neg (fun he => List.cons_ne_nil y ys (hi ▸ hG.empty_iff.mp he))]
    refine ⟨hG₂, ?_⟩
    rw [habs₂, habs]

/-- `destruct_all_` empties the buffer and its assertion holds. -/
theorem destructAll_spec (hG : c.Good) :
    c.destructAll.Good ∧ c.destructAll.abs = { c.abs with items := [] } := by
  obtain ⟨hd, hb⟩ := hG.buf
  obtain ⟨hG₁, habs⟩ := drain_spec c.buf.size hG hb.size_eq.symm
  have hnil : (c.drain c.buf.size).buf.items = [] := congrArg Spec.items habs
  have heq : ((c.drain c.buf.size).buf.head == (c.drain c.buf.size).buf.tail) = true := by
    obtain ⟨hd', hb'⟩ := hG₁.buf
    rw [beq_iff_eq, hb'.head, hb'.tail, hnil]
    rfl
  unfold destructAll
  simp only
  rw [check_eq _ heq]
  exact ⟨hG₁, habs⟩

/-! ## Steps and runs -/

theorem destroy_refines (hG : c.Good) (hI : c.abs.Inv) :
    Stepped c { c.pushCloseInner.destructAll with destroyed := true } := by
  obtain ⟨⟨hG₁, ht⟩, hclosed⟩ := pushCloseInner_spec hG hI
  obtain ⟨hG₂, habs⟩ := destructAll_spec hG₁
  have hd : ∀ d : Channel T, ({ d with destroyed := true } : Channel T).abs =
      { d.abs with destroyed := true } := fun _ => rfl
  refine ⟨hG₂.ofDestroyed, ht.tail ?_⟩
  rw [hd, habs]
  exact Spec.Trans.destroy c.pushCloseInner.abs hclosed

/-- **Every step of the code is a sequence of transitions**, and no assertion fails. -/
theorem step_refines (hG : c.Good) (hI : c.abs.Inv) {op : Op T} (hs : step c op = some c') : Stepped c c' := by
  cases step_made hs with
  | tryPush r x copied hd hr => exact tryPush_refines hG hI hr
  | push r x copied rt hd hr => exact push_refines hG hI hr
  | forcePush r x alloc q hd hr hq => exact forcePush_refines hG hI hr hq
  | tryPop p hd hp => exact tryPop_refines hG hI hp
  | pop p rt hd hp => exact pop_refines hG hI hp
  | pushLeaves r hd hsus hr =>
    have hrt : (c.pushes r).runtime.isSome := by
      rw [pushSuspended, Bool.and_eq_true] at hsus
      exact hsus.1
    exact ⟨⟨hG.buf, hG.asserts, hG.lifetimes⟩, .single (Spec.Trans.pushCancelled c.abs r hr hrt)⟩
  | popLeaves p hd hp => exact ⟨⟨hG.buf, hG.asserts, hG.lifetimes⟩, .single (Spec.Trans.popCancelled c.abs p hp)⟩
  | pushGone | popGone => exact ⟨hG, .refl⟩
  | cancelPushDone r hr => exact cancelPushDone_refines hG hI hr
  | cancelPopDone p hp => exact cancelPopDone_refines hG hI hp
  | pushClose => exact (pushCloseInner_spec hG hI).1
  | destroy => exact destroy_refines hG hI

theorem init_holds {cap : ℕ} {c₀ : Channel T} (h0 : init cap = some c₀) : c₀.buf.Holds 0 [] := by
  obtain ⟨cap', hcap, rfl⟩ := Option.map_eq_some_iff.mp h0
  have hok : CapOk cap' := by
    split_ifs at hcap with hz
    · exact .inl (Option.some.inj hcap).symm
    · obtain ⟨k, hk, hpow, -⟩ := bitCeil_pow hcap
      exact .inr ⟨k, hk, hpow⟩
  exact ⟨rfl, rfl, hok, Nat.zero_le _, window_nil, fun _ _ => rfl⟩

theorem init_spec {cap : ℕ} {c₀ : Channel T} (h0 : init cap = some c₀) :
    c₀.Good ∧ c₀.abs = Spec.empty c₀.buf.capacity := by
  have hb := init_holds h0
  have hitems := hb.items_eq
  obtain ⟨cap', -, rfl⟩ := Option.map_eq_some_iff.mp h0
  refine ⟨⟨⟨0, ?_⟩, rfl, rfl⟩, ?_⟩
  · rw [hitems]
    exact hb
  · simp only [abs, Spec.empty, hitems]

/-- The invariant of the code. -/
def Sound (c : Channel T) : Prop := c.Good ∧ c.abs.Inv

theorem Sound.init {cap : ℕ} {c₀ : Channel T} (h0 : Channel.init cap = some c₀) : c₀.Sound := by
  obtain ⟨hG, habs⟩ := init_spec h0
  exact ⟨hG, habs ▸ Spec.inv_empty _⟩

/-- **Run lemma**: from a sound state the code only makes transitions, to sound states. -/
theorem run_refines (ops : List (Op T)) (hc : c.Sound) (hrun : run step c ops = some c') :
    c'.Sound ∧ ReflTransGen Spec.Trans c.abs c'.abs := by
  have hstep : ∀ (d : Channel T) (op : Op T) (d' : Channel T), d.Sound → step d op = some d' →
      d'.Sound ∧ ReflTransGen Spec.Trans d.abs d'.abs := by
    intro d op d' hd hs
    obtain ⟨hG, ht⟩ := step_refines hd.1 hd.2 hs
    exact ⟨⟨hG, Spec.inv_star hd.2 ht⟩, ht⟩
  refine ⟨run_inv (fun d op d' hd hs => (hstep d op d' hd hs).1) ops hc hrun, ?_⟩
  exact run_rel (I := Sound) (R := fun d d' => ReflTransGen Spec.Trans d.abs d'.abs)
    (fun _ => .refl) (fun _ _ _ h1 h2 => h1.trans h2) hstep ops hc hrun

/-- The capacity is zero if zero was asked for, and otherwise a power of two that is large enough. -/
theorem init_capacity {cap : ℕ} {c₀ : Channel T} (h0 : init cap = some c₀) :
    cap = 0 ∧ c₀.buf.capacity = 0 ∨ ∃ k < 64, c₀.buf.capacity = 2 ^ k ∧ cap ≤ 2 ^ k := by
  obtain ⟨n, hn, rfl⟩ := Option.map_eq_some_iff.mp h0
  split_ifs at hn with hz
  · exact .inl ⟨hz, (Option.some.inj hn).symm⟩
  · exact .inr (bitCeil_pow hn)

/-- **Who can wait when**, in every state of every run: a pop waits only on an open channel with an empty buffer and
no waiting push, a push (an entry of `force_push` or not) only on an open channel with a full buffer and no waiting
pop.  The counters stay within the capacity, and every assertion evaluated so far held. -/
theorem waiting_exclusive {cap : ℕ} {c₀ c : Channel T} {ops : List (Op T)} (h0 : init cap = some c₀)
    (hrun : run step c₀ ops = some c) :
    (c.popAwaiters ≠ [] → c.buf.size = 0 ∧ c.pushAwaiters = [] ∧ c.closed = false) ∧
    (c.pushAwaiters ≠ [] → c.buf.size = c.buf.capacity ∧ c.popAwaiters = [] ∧ c.closed = false) ∧
    c.buf.size ≤ c.buf.capacity ∧
    (cap = 0 ∧ c.buf.capacity = 0 ∨ ∃ k < 64, c.buf.capacity = 2 ^ k ∧ cap ≤ 2 ^ k) ∧
    c.asserts = true := by
  obtain ⟨⟨hG, hI⟩, ht⟩ := run_refines ops (Sound.init h0) hrun
  obtain ⟨hd, hb⟩ := hG.buf
  have hcap : c.buf.capacity = c₀.buf.capacity := Spec.cap_star ht
  refine ⟨fun hne => ?_, fun hne => ?_, ?_, ?_, hG.asserts⟩
  · obtain ⟨hi, hq, hopen⟩ := hI.popIdle hne
    refine ⟨?_, hq, hopen⟩
    rw [hb.size_eq, List.length_eq_zero_iff]
    exact hi
  · obtain ⟨hi, hopen⟩ := hI.pushFull hne
    refine ⟨?_, ?_, hopen⟩
    · rw [hb.size_eq]
      exact hi
    · by_contra hp
      exact hne (hI.popIdle hp).2.1
  · rw [hb.size_eq]
    exact hI.len
  · rw [hcap]
    exact init_capacity h0

/-- Three slots are asked for and four are there: they fill up, a push and an entry of `force_push` wait, and one pop
makes room for the first of them. -/
theorem waiting_exclusive_full : ∃ c₀ c : Channel ℕ, init 3 = some c₀ ∧
    run step c₀ [.tryPush 0 10 false, .tryPush 1 11 false, .forcePush 2 12 true, .tryPush 3 13 false,
      .push 4 14 false 7, .forcePush 5 15 true, .tryPop 0] = some c ∧
    c.pushAwaiters = [5] ∧ c.buf.capacity = 4 ∧ c.buf.size = 4 ∧ c.popAwaiters = [] ∧ c.asserts = true := by
  have hrun : ((init 3 : Option (Channel ℕ)).bind (fun c₀ =>
      (run step c₀ [.tryPush 0 10 false, .tryPush 1 11 false, .forcePush 2 12 true, .tryPush 3 13 false,
        .push 4 14 false 7, .forcePush 5 15 true, .tryPop 0]).map (fun c => (c.pushAwaiters, c.buf.capacity)))) =
      some ([5], 4) := by decide +kernel
  obtain ⟨c₀, h0, hrun⟩ := Option.bind_eq_some_iff.mp hrun
  obtain ⟨c, hc, hres⟩ := Option.map_eq_some_iff.mp hrun
  obtain ⟨hq, hcap⟩ : c.pushAwaiters = [5] ∧ c.buf.capacity = 4 := by simpa using hres
  obtain ⟨-, hpush, -, -, hasserts⟩ := waiting_exclusive h0 hc
  obtain ⟨hsize, hpop, -⟩ := hpush (by simp [hq])
  exact ⟨c₀, c, h0, hc, hq, hcap, hsize.trans hcap, hpop, hasserts⟩

end Step

end Channel

end Condy
