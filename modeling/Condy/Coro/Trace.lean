import Condy.Coro.Step
import Mathlib.Data.List.Nodup
import Mathlib.Logic.Equiv.Basic

/-!
# Condy.Coro.Trace — what a coroutine has done and has left to do

`Told` ties a frame to the meaning of bodies in `Condy.Coro.Body`.  The body of the frame leads, with what was done in it
so far, to what it has left (`code`); the body of its task leads to its beginning (`context`); a coroutine that awaits
another one goes on where that one began (`link`); and what the task did is what its frames say, one behind the other
(`events`).  So a task does what its body does as plain code (`doing`), and one that ended has returned what that code
returns (`Traced.ended`).  The invariant is kept by every move; it does not speak of spots or holders, so a move that
touches two frames is taken one frame at a time.
-/

namespace Condy.Coro

open Lib PromiseState

variable {ι V E : Type}

/-- What is left to do at a point, read as plain code.  In `co_await` of a task that is what follows its result. -/
def Point.rest : Point ι V E → Rest ι V E
  | .initial b | .running b | .switched b => b.rest
  | .call _ b k => (Body.call b k).rest
  | .sender op _ _ k => (Body.sender op k).rest
  | .task t _ k => fun h tr o => tr = [] ∧ o = none ∨ ∃ o', (t, o') ∈ h ∧ Evals h (k o') tr o
  | .final => fun _ tr o => tr = [] ∧ o = none

/-- At every point a coroutine may stay where it is. -/
theorem Point.rest_begin (h : List (ℕ × Outcome V E)) (p : Point ι V E) : p.rest h [] none := by
  cases p with
  | task t r k => exact .inl ⟨rfl, rfl⟩
  | final => exact ⟨rfl, rfl⟩
  | _ => exact .begin _

theorem Evals.of_outcome {h : List (ℕ × Outcome V E)} {b : Body ι V E} {o : Outcome V E} (ho : b.outcome = some o) :
    Evals h b [] (some o) := by
  cases b with
  | coReturn v =>
    obtain rfl := Option.some.inj ho
    exact .coReturn v
  | throw e =>
    obtain rfl := Option.some.inj ho
    exact .throw e
  | _ => cases ho

namespace Machine

/-- The callee `g` of a coroutine, as its caller `fr` has left it. -/
structure Link (s : Machine ι V E) (fr : Frame ι V E) (g : ℕ) (b : Body ι V E) (gf : Frame ι V E) : Prop where
  frame : s.frames g = some gf
  state : gf.state = .idle
  body : gf.body = b
  root : gf.root = fr.root
  before : gf.before = fr.before ++ fr.trace

/-- What the frame `fr` says of the coroutine `f` is so. -/
structure Told (s : Machine ι V E) (f : ℕ) (fr : Frame ι V E) : Prop where
  code : Leads s.ended fr.body fr.trace fr.point.rest
  root : fr.state ≠ .idle → (f, fr.body) ∈ s.spawned ∧ fr.root = f ∧ fr.before = []
  context : ∃ b, (fr.root, b) ∈ s.spawned ∧ Leads s.ended b fr.before fr.body.start
  link : ∀ g b k, fr.point = .call g b k → f < g ∧ ∃ gf, s.Link fr g b gf
  events : fr.point.callee = none → s.eventsOf fr.root = fr.before ++ fr.trace
  result : ∀ o, fr.outcome = some o → (f, o) ∈ s.ended
  closed : ∀ o, (fr.root, o) ∈ s.ended → fr.point.isFinal = true

structure Traced (s : Machine ι V E) : Prop where
  frames : ∀ f fr, s.frames f = some fr → s.Told f fr
  unique : ∀ f fr g gf, s.frames f = some fr → s.frames g = some gf → fr.point.callee = none →
    gf.point.callee = none → fr.root = gf.root → f = g
  numbers : (s.spawned.map Prod.fst).Nodup ∧ ∀ x ∈ s.spawned, x.1 < s.nextFrame
  silent : ∀ t, t ∉ s.spawned.map Prod.fst → s.eventsOf t = []
  once : (s.ended.map Prod.fst).Nodup
  ended : ∀ pre t o post, s.ended = pre ++ (t, o) :: post →
    ∃ b, (t, b) ∈ s.spawned ∧ Evals pre b (s.eventsOf t) (some o)
  live : ∀ t b, (t, b) ∈ s.spawned → (∃ o, (t, o) ∈ s.ended) ∨
    ∃ fr, s.frames t = some fr ∧ fr.state ≠ .idle ∧ fr.point.isFinal = false

theorem init_traced : (init : Machine ι V E).Traced := by
  constructor <;> simp [init, eventsOf]

variable {s s' : Machine ι V E} {f : ℕ} {fr : Frame ι V E}

section

variable (h : s.Traced)
include h

theorem Traced.ended_spawned {t : ℕ} {o : Outcome V E} (ho : (t, o) ∈ s.ended) : ∃ b, (t, b) ∈ s.spawned := by
  obtain ⟨pre, post, he⟩ := List.append_of_mem ho
  obtain ⟨b, hb, -⟩ := h.ended pre t o post he
  exact ⟨b, hb⟩

/-- A task is spawned with one body. -/
theorem Traced.body_unique {t : ℕ} {b b' : Body ι V E} (hb : (t, b) ∈ s.spawned) (hb' : (t, b') ∈ s.spawned) :
    b = b' := (Prod.mk.inj (List.inj_on_of_nodup_map h.numbers.1 hb hb' rfl)).2

/-- A task ends once. -/
theorem Traced.ended_unique {t : ℕ} {o o' : Outcome V E} (ho : (t, o) ∈ s.ended) (ho' : (t, o') ∈ s.ended) : o = o' :=
  (Prod.mk.inj (List.inj_on_of_nodup_map h.once ho ho' rfl)).2

theorem Traced.mem_spawned (hf : s.frames f = some fr) : fr.root ∈ s.spawned.map Prod.fst := by
  obtain ⟨b, hb, -⟩ := (h.frames f fr hf).context
  exact List.mem_map_of_mem hb

/-- Below a coroutine that awaits another one of its task is one that does not. -/
theorem Traced.chain {n : ℕ} (hfresh : ∀ x, n ≤ x → s.frames x = none) (hf : s.frames f = some fr)
    (hc : fr.point.callee ≠ none) :
    ∃ g gf, s.frames g = some gf ∧ gf.root = fr.root ∧ gf.state = .idle ∧ gf.point.callee = none := by
  -- Callees have greater numbers, and there is no frame from `n` on.
  induction hd : n - f using Nat.strong_induction_on generalizing f fr with
  | _ d ih =>
    subst hd
    cases hp : fr.point with
    | call g b k =>
      obtain ⟨hlt, gf, hl⟩ := (h.frames f fr hf).link g b k hp
      by_cases hg : gf.point.callee = none
      · exact ⟨g, gf, hl.frame, hl.root, hl.state, hg⟩
      · have hgn : g < n := by
          by_contra hge
          cases (hfresh g (not_lt.mp hge)).symm.trans hl.frame
        obtain ⟨x, xf, hx, hr, hi, hn⟩ := ih (n - g) (by omega) hl.frame hg rfl
        exact ⟨x, xf, hx, hr.trans hl.root, hi, hn⟩
    | _ => simp [hp, Point.callee] at hc

/-- A task whose first coroutine awaits no other one has no other coroutine. -/
theorem Traced.alone {n : ℕ} (hfresh : ∀ x, n ≤ x → s.frames x = none) (hf : s.frames f = some fr)
    (hst : fr.state ≠ .idle) (hc : fr.point.callee = none) {x : ℕ} {xf : Frame ι V E} (hx : s.frames x = some xf)
    (hroot : xf.root = fr.root) : x = f := by
  by_cases hxc : xf.point.callee = none
  · exact h.unique x xf f fr hx hf hxc hc hroot
  · obtain ⟨g, gf, hg, hgr, hgi, hgc⟩ := h.chain hfresh hx hxc
    obtain rfl := h.unique g gf f fr hg hf hgc hc (hgr.trans hroot)
    obtain rfl := Option.some.inj (hf.symm.trans hg)
    exact absurd hgi hst

/-- A task does what its body does as plain code, whether it has ended or not. -/
theorem Traced.doing {n : ℕ} (hfresh : ∀ x, n ≤ x → s.frames x = none) {t : ℕ} {b : Body ι V E}
    (hb : (t, b) ∈ s.spawned) : Evals s.ended b (s.eventsOf t) none := by
  rcases h.live t b hb with ⟨o, ho⟩ | ⟨fr, hf, hst, -⟩
  · obtain ⟨pre, post, he⟩ := List.append_of_mem ho
    obtain ⟨b', hb', hev⟩ := h.ended pre t o post he
    obtain rfl := h.body_unique hb hb'
    exact (hev.mono (he ▸ List.subset_append_left _ _)).begun
  · -- The coroutine of the task that awaits no other one has done the last of it.
    have hroot : fr.root = t := ((h.frames t fr hf).root hst).2.1
    obtain ⟨g, gf, hg, hgr, hgc⟩ : ∃ g gf, s.frames g = some gf ∧ gf.root = fr.root ∧ gf.point.callee = none := by
      by_cases hc : fr.point.callee = none
      · exact ⟨t, fr, hf, rfl, hc⟩
      · obtain ⟨g, gf, hg, hgr, -, hgc⟩ := h.chain hfresh hf hc
        exact ⟨g, gf, hg, hgr, hgc⟩
    have htold := h.frames g gf hg
    obtain ⟨b', hb', hctx⟩ := htold.context
    obtain rfl := h.body_unique hb (by rw [← hroot, ← hgr]; exact hb')
    have hcode := htold.code s.ended (List.Subset.refl _) [] none (Point.rest_begin _ _)
    rw [List.append_nil] at hcode
    rw [← hroot, ← hgr, htold.events hgc]
    exact hctx s.ended (List.Subset.refl _) gf.trace none ⟨rfl, hcode⟩

end

/-! ## Rules -/

/-- An element of a list to which one is added is one of the list, or the one that was added. -/
theorem split_snoc {α : Type} {l pre post : List α} {a x : α} (h : l ++ [a] = pre ++ x :: post) :
    (∃ post', l = pre ++ x :: post') ∨ pre = l ∧ x = a := by
  rcases List.eq_nil_or_concat post with rfl | ⟨post', y, rfl⟩
  · obtain ⟨rfl, hx⟩ := List.append_inj' h rfl
    exact .inr ⟨rfl, (List.cons.inj hx).1.symm⟩
  · have heq : l ++ [a] = (pre ++ x :: post') ++ [y] := by simpa using h
    exact .inl ⟨post', (List.append_inj' heq rfl).1⟩

/-- A coroutine goes to another point; where it comes from stays as it is. -/
theorem Told.change {fr' : Frame ι V E} (h : s.Told f fr)
    (hsame : fr'.body = fr.body ∧ fr'.root = fr.root ∧ fr'.before = fr.before)
    (hidle : fr'.state ≠ .idle → fr.state ≠ .idle) (hspawned : s.spawned ⊆ s'.spawned) (hended : s.ended ⊆ s'.ended)
    (hcode : Leads s'.ended fr.body fr'.trace fr'.point.rest)
    (hlink : ∀ g b k, fr'.point = .call g b k → f < g ∧ ∃ gf, s'.Link fr' g b gf)
    (hevents : fr'.point.callee = none → s'.eventsOf fr.root = fr.before ++ fr'.trace)
    (hresult : ∀ o, fr'.outcome = some o → (f, o) ∈ s'.ended)
    (hclosed : ∀ o, (fr.root, o) ∈ s'.ended → fr'.point.isFinal = true) : s'.Told f fr' := by
  obtain ⟨hbody, hroot, hbefore⟩ := hsame
  refine { code := hbody ▸ hcode, root := ?root, context := ?context, link := hlink, events := ?events,
           result := hresult, closed := hroot ▸ hclosed }
  case root =>
    intro hst
    obtain ⟨hb, hr⟩ := h.root (hidle hst)
    rw [hbody, hroot, hbefore]
    exact ⟨hspawned hb, hr⟩
  case context =>
    obtain ⟨b, hb, hl⟩ := h.context
    rw [hbody, hroot, hbefore]
    exact ⟨b, hspawned hb, hl.mono hended⟩
  case events =>
    rw [hroot, hbefore]
    exact hevents

/-- What a frame says that a move does not touch. -/
theorem Told.keep (h : s.Told f fr) (hspawned : s.spawned ⊆ s'.spawned) (hended : s.ended ⊆ s'.ended)
    (hlink : ∀ g b k gf, fr.point = .call g b k → s.Link fr g b gf → ∃ gf', s'.Link fr g b gf')
    (hevents : fr.point.callee = none → s'.eventsOf fr.root = s.eventsOf fr.root)
    (hclosed : ∀ o, (fr.root, o) ∈ s'.ended → (fr.root, o) ∈ s.ended) : s'.Told f fr := by
  refine h.change ⟨rfl, rfl, rfl⟩ id hspawned hended (h.code.mono hended) (fun g b k hp => ?_)
    (fun hc => (hevents hc).trans (h.events hc)) (fun o ho => hended (h.result o ho)) fun o ho => h.closed o (hclosed o ho)
  obtain ⟨hlt, gf, hl⟩ := h.link g b k hp
  exact ⟨hlt, hlink g b k gf hp hl⟩

section

variable (h : s.Traced)
include h

/-- The coroutines that await no other one are the same, but for their numbers. -/
theorem Traced.unique_of (p : Equiv.Perm ℕ) (hact : ∀ z zf, s'.frames z = some zf → zf.point.callee = none →
    ∃ yf, s.frames (p z) = some yf ∧ yf.point.callee = none ∧ yf.root = zf.root) :
    ∀ f fr g gf, s'.frames f = some fr → s'.frames g = some gf → fr.point.callee = none → gf.point.callee = none →
      fr.root = gf.root → f = g := by
  intro f fr g gf hf hg hfc hgc hr
  obtain ⟨yf, hy, hyc, hyr⟩ := hact f fr hf hfc
  obtain ⟨zf, hz, hzc, hzr⟩ := hact g gf hg hgc
  exact p.injective (h.unique _ yf _ zf hy hz hyc hzc (by rw [hyr, hzr, hr]))

/-- The tasks that have ended do nothing any more. -/
theorem Traced.ended_keep (hspawned : s.spawned ⊆ s'.spawned) {l : List (ℕ × Outcome V E)}
    (hev : ∀ t o, (t, o) ∈ s.ended → s'.eventsOf t = s.eventsOf t) {pre : List (ℕ × Outcome V E)} {t : ℕ}
    {o : Outcome V E} (he : s.ended = pre ++ (t, o) :: l) :
    ∃ b, (t, b) ∈ s'.spawned ∧ Evals pre b (s'.eventsOf t) (some o) := by
  obtain ⟨b, hb, hevals⟩ := h.ended pre t o l he
  refine ⟨b, hspawned hb, ?_⟩
  rw [hev t o (he ▸ List.mem_append_right _ List.mem_cons_self)]
  exact hevals

/-- The rule for moves in which no task begins or ends. -/
theorem Traced.next (hframes : ∀ x xf, s'.frames x = some xf → s'.Told x xf) (p : Equiv.Perm ℕ)
    (hact : ∀ z zf, s'.frames z = some zf → zf.point.callee = none →
      ∃ yf, s.frames (p z) = some yf ∧ yf.point.callee = none ∧ yf.root = zf.root)
    (hroots : ∀ t tf, s.frames t = some tf → tf.state ≠ .idle → tf.point.isFinal = false →
      ∃ tf', s'.frames t = some tf' ∧ tf'.state ≠ .idle ∧ tf'.point.isFinal = false)
    (hnext : s.nextFrame ≤ s'.nextFrame) (hspawned : s'.spawned = s.spawned) (hended : s'.ended = s.ended)
    (hover : ∀ t o, (t, o) ∈ s.ended → s'.eventsOf t = s.eventsOf t)
    (hunknown : ∀ t, t ∉ s.spawned.map Prod.fst → s'.eventsOf t = s.eventsOf t) : s'.Traced := by
  refine { frames := hframes, unique := h.unique_of p hact, numbers := ?numbers, silent := ?silent, once := ?once,
           ended := ?ended, live := ?live }
  case numbers =>
    rw [hspawned]
    exact ⟨h.numbers.1, fun x hx => Nat.lt_of_lt_of_le (h.numbers.2 x hx) hnext⟩
  case silent =>
    intro t ht
    rw [hspawned] at ht
    rw [hunknown t ht, h.silent t ht]
  case once =>
    rw [hended]
    exact h.once
  case ended =>
    intro pre t o post he
    exact h.ended_keep (hspawned ▸ List.Subset.refl _) hover (hended ▸ he)
  case live =>
    intro t b hb
    rw [hspawned] at hb
    rw [hended]
    refine (h.live t b hb).imp_right ?_
    rintro ⟨tf, htf, hst, hnf⟩
    exact hroots t tf htf hst hnf

/-- The rule for moves that touch no frame. -/
theorem Traced.congr (hframes : s'.frames = s.frames) (hnext : s'.nextFrame = s.nextFrame)
    (hspawned : s'.spawned = s.spawned) (hended : s'.ended = s.ended) (hev : ∀ t, s'.eventsOf t = s.eventsOf t) :
    s'.Traced := by
  refine h.next (fun x xf hx => ?_) (Equiv.refl ℕ) (fun z zf hz hzc => ⟨zf, hframes ▸ hz, hzc, rfl⟩)
    (fun t tf htf hst hnf => ⟨tf, by rw [hframes, htf], hst, hnf⟩) (Nat.le_of_eq hnext.symm) hspawned hended (fun t _ _ => hev t)
    fun t _ => hev t
  exact (h.frames x xf (hframes ▸ hx)).keep (hspawned ▸ List.Subset.refl _) (hended ▸ List.Subset.refl _)
    (fun g b _ gf _ hl => ⟨gf, by rw [hframes, hl.frame], hl.state, hl.body, hl.root, hl.before⟩) (fun _ => hev _)
    fun o ho => hended ▸ ho

/-- Nobody but its coroutine, which is not at its end, does what is done in a task. -/
theorem Traced.events_other {tr : List (Event ι V E)} (hf : s.frames f = some fr)
    (hpt : fr.point.callee = none ∧ fr.point.isFinal = false ∨ tr = [])
    (hev : ∀ t, s'.eventsOf t = s.eventsOf t ++ if t = fr.root then tr else []) :
    (∀ x xf, x ≠ f → s.frames x = some xf → xf.point.callee = none → s'.eventsOf xf.root = s.eventsOf xf.root) ∧
    (∀ t o, (t, o) ∈ s.ended → s'.eventsOf t = s.eventsOf t) ∧
    ∀ t, t ∉ s.spawned.map Prod.fst → s'.eventsOf t = s.eventsOf t := by
  rcases hpt with ⟨hc, hnf⟩ | rfl
  · have hother : ∀ t, t ≠ fr.root → s'.eventsOf t = s.eventsOf t := fun t ht => by
      rw [hev, if_neg ht, List.append_nil]
    refine ⟨fun x xf hne hx hxc => hother _ fun hr => ?_, fun t o ho => hother _ ?_, fun t ht => hother _ ?_⟩
    · exact hne (h.unique x xf f fr hx hf hxc hc hr)
    · rintro rfl
      have := (h.frames f fr hf).closed o ho
      rw [hnf] at this
      cases this
    · rintro rfl
      exact ht (h.mem_spawned hf)
  · have hsame : ∀ t, s'.eventsOf t = s.eventsOf t := fun t => by
      rw [hev, ite_self, List.append_nil]
    exact ⟨fun x xf _ _ _ => hsame _, fun t _ _ => hsame t, fun t _ => hsame t⟩

/-- The rule for moves that touch one frame, which stays.  `tr` is what its coroutine did. -/
theorem Traced.touch (fr' : Frame ι V E) (tr : List (Event ι V E)) (hf : s.frames f = some fr)
    (hsame : fr'.body = fr.body ∧ fr'.root = fr.root ∧ fr'.before = fr.before ∧ fr'.outcome = fr.outcome)
    (hidle : fr'.state = .idle ↔ fr.state = .idle) (htr : fr'.trace = fr.trace ++ tr)
    (hpoint : fr'.point.callee = fr.point.callee ∧ fr'.point.isFinal = fr.point.isFinal)
    (hcode : Leads s.ended fr.body fr'.trace fr'.point.rest)
    (hpt : (fr.point.callee = none ∧ fr.point.isFinal = false) ∨ fr'.point = fr.point ∧ tr = [])
    (hframes : s'.frames = Function.update s.frames f (some fr'))
    (hrest : s'.nextFrame = s.nextFrame ∧ s'.spawned = s.spawned ∧ s'.ended = s.ended)
    (hev : ∀ t, s'.eventsOf t = s.eventsOf t ++ if t = fr.root then tr else []) : s'.Traced := by
  obtain ⟨hbody, hroot, hbefore, hout⟩ := hsame
  obtain ⟨hnext, hspawned, hended⟩ := hrest
  have htold := h.frames f fr hf
  obtain ⟨hothers, hover, hunknown⟩ := h.events_other hf (hpt.imp_right And.right) hev
  have hf' : s'.frames f = some fr' := by rw [hframes, Function.update_self]
  have hother : ∀ x xf, x ≠ f → s.frames x = some xf → s'.frames x = some xf := fun x xf hx hxf => by
    rw [hframes, Function.update_of_ne hx, hxf]
  have hcases : ∀ x xf, s'.frames x = some xf → x = f ∧ xf = fr' ∨ x ≠ f ∧ s.frames x = some xf := fun x xf hx => by
    rw [hframes, update_some_eq_some] at hx
    exact hx.imp_left fun hx => ⟨hx.1, hx.2.symm⟩
  refine h.next ?frames (Equiv.refl ℕ) ?active ?roots (Nat.le_of_eq hnext.symm) hspawned hended hover hunknown
  case frames =>
    intro x xf hx
    rcases hcases x xf hx with ⟨rfl, rfl⟩ | ⟨hne, hold⟩
    · refine htold.change ⟨hbody, hroot, hbefore⟩ (fun hst hi => hst (hidle.mpr hi)) (hspawned ▸ List.Subset.refl _)
        (hended ▸ List.Subset.refl _) (hended ▸ hcode) ?link ?events (by rw [hout, hended]; exact htold.result)
        (by rw [hended, hpoint.2]; exact htold.closed)
      case link =>
        intro g b k hp
        rcases hpt with ⟨hcn, -⟩ | ⟨hpp, rfl⟩
        · rw [← hpoint.1, hp] at hcn
          cases hcn
        · obtain ⟨hlt, gf, hl⟩ := htold.link g b k (hpp ▸ hp)
          refine ⟨hlt, gf, hother g gf (Nat.ne_of_gt hlt) hl.frame, hl.state, hl.body, hl.root.trans hroot.symm, ?_⟩
          rw [hl.before, hbefore, htr, List.append_nil]
      case events =>
        intro hc
        rw [hev, if_pos rfl, htold.events (hpoint.1 ▸ hc), htr, List.append_assoc]
    · refine (h.frames x xf hold).keep (hspawned ▸ List.Subset.refl _) (hended ▸ List.Subset.refl _)
        (fun g b _ gf _ hl => ?_) (hothers x xf hne hold) fun o ho => hended ▸ ho
      rcases eq_or_ne g f with rfl | hg
      · obtain rfl := Option.some.inj (hf.symm.trans hl.frame)
        exact ⟨fr', hf', hidle.mpr hl.state, hbody.trans hl.body, hroot.trans hl.root, hbefore.trans hl.before⟩
      · exact ⟨gf, hother g gf hg hl.frame, hl.state, hl.body, hl.root, hl.before⟩
  case active =>
    intro z zf hz hzc
    rcases hcases z zf hz with ⟨rfl, rfl⟩ | ⟨-, hold⟩
    · exact ⟨fr, hf, hpoint.1 ▸ hzc, hroot.symm⟩
    · exact ⟨zf, hold, hzc, rfl⟩
  case roots =>
    intro t tf htf hst hnf
    rcases eq_or_ne t f with rfl | hne
    · obtain rfl := Option.some.inj (hf.symm.trans htf)
      exact ⟨fr', hf', fun hi => hst (hidle.mp hi), hpoint.2.trans hnf⟩
    · exact ⟨tf, hother t tf hne htf, hst, hnf⟩

/-- The rule for moves that destroy the frame of a coroutine at its end. -/
theorem Traced.release (hf : s.frames f = some fr) (hst : fr.state ≠ .idle) (hfin : fr.point.isFinal = true)
    (hframes : s'.frames = Function.update s.frames f none)
    (hrest : s'.nextFrame = s.nextFrame ∧ s'.spawned = s.spawned ∧ s'.ended = s.ended)
    (hev : ∀ t, s'.eventsOf t = s.eventsOf t) : s'.Traced := by
  obtain ⟨hnext, hspawned, hended⟩ := hrest
  have hold : ∀ {x xf}, s'.frames x = some xf → x ≠ f ∧ s.frames x = some xf := fun hx => by
    rw [hframes, update_none_eq_some] at hx
    exact hx
  have hother : ∀ x xf, x ≠ f → s.frames x = some xf → s'.frames x = some xf := fun x xf hx hxf => by
    rw [hframes, Function.update_of_ne hx, hxf]
  refine h.next ?frames (Equiv.refl ℕ) ?active ?roots (Nat.le_of_eq hnext.symm) hspawned hended (fun t _ _ => hev t) fun t _ => hev t
  case frames =>
    intro x xf hx
    refine (h.frames x xf (hold hx).2).keep (hspawned ▸ List.Subset.refl _) (hended ▸ List.Subset.refl _)
      (fun g b _ gf _ hl => ?_) (fun _ => hev _) fun o ho => hended ▸ ho
    have hg : g ≠ f := by
      rintro rfl
      obtain rfl := Option.some.inj (hf.symm.trans hl.frame)
      exact hst hl.state
    exact ⟨gf, hother g gf hg hl.frame, hl.state, hl.body, hl.root, hl.before⟩
  case active => exact fun z zf hz hzc => ⟨zf, (hold hz).2, hzc, rfl⟩
  case roots =>
    intro t tf htf hti hnf
    refine ⟨tf, hother t tf ?_ htf, hti, hnf⟩
    rintro rfl
    obtain rfl := Option.some.inj (hf.symm.trans htf)
    rw [hfin] at hnf
    cases hnf

/-- The rule for the end of a task.  Its frame waits to be released, or is destroyed at once. -/
theorem Traced.finish {n : ℕ} (hfresh : ∀ x, n ≤ x → s.frames x = none) {b : Body ι V E} {o : Outcome V E}
    {fr' : Option (Frame ι V E)} (hf : s.frames f = some fr) (hst : fr.state ≠ .idle) (hp : fr.point = .running b)
    (ho : b.outcome = some o) (hfr' : ∀ xf, fr' = some xf → xf.point = .final ∧ xf.outcome = some o ∧
      xf.body = fr.body ∧ xf.root = fr.root ∧ xf.before = fr.before ∧ xf.trace = fr.trace)
    (hframes : s'.frames = Function.update s.frames f fr') (hended : s'.ended = s.ended ++ [(f, o)])
    (hrest : s'.nextFrame = s.nextFrame ∧ s'.spawned = s.spawned) (hev : ∀ t, s'.eventsOf t = s.eventsOf t) :
    s'.Traced := by
  obtain ⟨hnext, hspawned⟩ := hrest
  have htold := h.frames f fr hf
  obtain ⟨hspawn, hroot, hbefore⟩ := htold.root hst
  have hcn : fr.point.callee = none := by rw [hp]; rfl
  have hle : s.ended ⊆ s'.ended := hended ▸ List.subset_append_left _ _
  have hnew : ∀ t o', (t, o') ∈ s'.ended → (t, o') ∈ s.ended ∨ t = f ∧ o' = o := fun t o' ht => by
    rwa [hended, List.mem_append, List.mem_singleton, Prod.mk.injEq] at ht
  have hopen : ∀ o', (f, o') ∉ s.ended := fun o' ho' => by
    have := htold.closed o' (hroot.symm ▸ ho')
    rw [hp] at this
    cases this
  -- The body has run to its end.
  have hevals : Evals s.ended fr.body fr.trace (some o) := by
    have := htold.code s.ended (List.Subset.refl _) [] (some o) (by rw [hp]; exact .of_outcome ho)
    rwa [List.append_nil] at this
  have hother : ∀ x xf, x ≠ f → s.frames x = some xf → s'.frames x = some xf := fun x xf hx hxf => by
    rw [hframes, Function.update_of_ne hx, hxf]
  have hcases : ∀ x xf, s'.frames x = some xf → x = f ∧ fr' = some xf ∨ x ≠ f ∧ s.frames x = some xf := fun x xf hx => by
    rw [hframes] at hx
    rcases eq_or_ne x f with rfl | hne
    · rw [Function.update_self] at hx
      exact .inl ⟨rfl, hx⟩
    · rw [Function.update_of_ne hne] at hx
      exact .inr ⟨hne, hx⟩
  refine { frames := ?frames, unique := ?unique, numbers := ?numbers, silent := ?silent, once := ?once,
           ended := ?ended, live := ?live }
  case frames =>
    intro x xf hx
    rcases hcases x xf hx with ⟨rfl, hxf⟩ | ⟨hne, hold⟩
    · obtain ⟨hxp, hxo, hxb, hxr, hxbf, hxt⟩ := hfr' xf hxf
      refine htold.change ⟨hxb, hxr, hxbf⟩ (fun _ => hst) (hspawned ▸ List.Subset.refl _) hle ?code ?link ?events ?result
        ?closed
      case code =>
        rw [hxp, hxt]
        rintro h' hle' tr' o' ⟨rfl, rfl⟩
        rw [List.append_nil]
        exact (hevals.mono (List.Subset.trans hle hle')).begun
      case link =>
        intro g b' k hk
        cases hxp.symm.trans hk
      case events =>
        intro _
        rw [hxt, hev]
        exact htold.events hcn
      case result =>
        intro o' ho'
        obtain rfl := Option.some.inj (hxo.symm.trans ho')
        rw [hended]
        exact List.mem_append_right _ List.mem_cons_self
      case closed =>
        intro _ _
        rw [hxp]
        rfl
    · refine (h.frames x xf hold).keep (hspawned ▸ List.Subset.refl _) hle (fun g b' _ gf _ hl => ?_) (fun _ => hev _)
        fun o' ho' => (hnew _ o' ho').resolve_right ?_
      · have hg : g ≠ f := by
          rintro rfl
          obtain rfl := Option.some.inj (hf.symm.trans hl.frame)
          exact hst hl.state
        exact ⟨gf, hother g gf hg hl.frame, hl.state, hl.body, hl.root, hl.before⟩
      · rintro ⟨hr, -⟩
        exact hne (h.alone hfresh hf hst hcn hold (hr.trans hroot.symm))
  case unique =>
    refine h.unique_of (Equiv.refl ℕ) fun z zf hz hzc => ?_
    rcases hcases z zf hz with ⟨rfl, hzf⟩ | ⟨-, hold⟩
    · exact ⟨fr, hf, hcn, (hfr' zf hzf).2.2.2.1.symm⟩
    · exact ⟨zf, hold, hzc, rfl⟩
  case numbers =>
    rw [hspawned, hnext]
    exact h.numbers
  case silent =>
    intro t ht
    rw [hspawned] at ht
    rw [hev, h.silent t ht]
  case once =>
    rw [hended, List.map_append]
    refine nodup_snoc h.once fun hm => ?_
    obtain ⟨⟨t, o'⟩, ht, rfl⟩ := List.mem_map.mp hm
    exact hopen o' ht
  case ended =>
    intro pre t o' post he
    rw [hended] at he
    rcases split_snoc he with ⟨post', he'⟩ | ⟨rfl, heq⟩
    · exact h.ended_keep (hspawned ▸ List.Subset.refl _) (fun t _ _ => hev t) he'
    · obtain ⟨rfl, rfl⟩ := Prod.mk.inj heq
      refine ⟨fr.body, hspawned ▸ hspawn, ?_⟩
      have hevents := htold.events hcn
      rw [hroot, hbefore, List.nil_append] at hevents
      rw [hev, hevents]
      exact hevals
  case live =>
    intro t b' hb'
    rw [hspawned] at hb'
    rcases eq_or_ne t f with rfl | hne
    · exact .inl ⟨o, hended ▸ List.mem_append_right _ List.mem_cons_self⟩
    · rcases h.live t b' hb' with ⟨o', ho'⟩ | ⟨xf, hx, hxi, hnf⟩
      · exact .inl ⟨o', hle ho'⟩
      · exact .inr ⟨xf, hother t xf hne hx, hxi, hnf⟩

/-- The rule for a new coroutine: `co_spawn` gives it to a task of its own. -/
theorem Traced.spawn {b : Body ι V E} (hfresh : s.frames s.nextFrame = none) {st : PromiseState}
    (hst : st ≠ .idle) (hframes : s'.frames = Function.update s.frames s.nextFrame
      (some { Frame.new b s.nextFrame [] with state := st }))
    (hspawned : s'.spawned = s.spawned ++ [(s.nextFrame, b)])
    (hrest : s'.nextFrame = s.nextFrame + 1 ∧ s'.ended = s.ended) (hev : ∀ t, s'.eventsOf t = s.eventsOf t) :
    s'.Traced := by
  obtain ⟨hnext, hended⟩ := hrest
  have hle : s.spawned ⊆ s'.spawned := hspawned ▸ List.subset_append_left _ _
  have hmem : (s.nextFrame, b) ∈ s'.spawned := hspawned ▸ List.mem_append_right _ List.mem_cons_self
  have hunknown : s.nextFrame ∉ s.spawned.map Prod.fst := fun hm => by
    obtain ⟨x, hx, he⟩ := List.mem_map.mp hm
    exact absurd (h.numbers.2 x hx) (by rw [he]; exact Nat.lt_irrefl _)
  have hg' : s'.frames s.nextFrame = some { Frame.new b s.nextFrame [] with state := st } := by
    rw [hframes, Function.update_self]
  have hother : ∀ x xf, s.frames x = some xf → s'.frames x = some xf := fun x xf hx => by
    have hne : x ≠ s.nextFrame := by
      rintro rfl
      cases hfresh.symm.trans hx
    rw [hframes, Function.update_of_ne hne, hx]
  have hcases : ∀ x xf, s'.frames x = some xf → x = s.nextFrame ∧
      xf = { Frame.new b s.nextFrame [] with state := st } ∨ s.frames x = some xf := fun x xf hx => by
    rw [hframes, update_some_eq_some] at hx
    exact hx.imp (fun hx => ⟨hx.1, hx.2.symm⟩) And.right
  refine { frames := ?frames, unique := ?unique, numbers := ?numbers, silent := ?silent, once := ?once,
           ended := ?ended, live := ?live }
  case frames =>
    intro x xf hx
    rcases hcases x xf hx with ⟨rfl, rfl⟩ | hold
    · refine { code := Leads.refl _ _, root := fun _ => ⟨hmem, rfl, rfl⟩, context := ⟨b, hmem, ?context⟩, link := ?link,
               events := ?events, result := ?result, closed := ?closed }
      case context =>
        rintro h' _ tr' o ⟨rfl, he⟩
        exact he
      case link =>
        intro g b' k hp
        cases hp
      case events => exact fun _ => (hev _).trans (h.silent _ hunknown)
      case result =>
        intro o ho
        cases ho
      case closed =>
        intro o ho
        rw [hended] at ho
        obtain ⟨b', hb'⟩ := h.ended_spawned ho
        exact absurd (List.mem_map_of_mem hb') hunknown
    · exact (h.frames x xf hold).keep hle (hended ▸ List.Subset.refl _)
        (fun g b' _ gf _ hl => ⟨gf, hother g gf hl.frame, hl.state, hl.body, hl.root, hl.before⟩) (fun _ => hev _)
        fun o ho => hended ▸ ho
  case unique =>
    have hnew : ∀ y yf, s.frames y = some yf → yf.root ≠ s.nextFrame := fun y yf hy he =>
      hunknown (he ▸ h.mem_spawned hy)
    intro x xf y yf hx hy hxc hyc hr
    rcases hcases x xf hx with ⟨rfl, rfl⟩ | hxold <;> rcases hcases y yf hy with ⟨rfl, rfl⟩ | hyold
    · rfl
    · exact absurd hr.symm (hnew y yf hyold)
    · exact absurd hr (hnew x xf hxold)
    · exact h.unique x xf y yf hxold hyold hxc hyc hr
  case numbers =>
    rw [hspawned, hnext, List.map_append]
    refine ⟨nodup_snoc h.numbers.1 hunknown, fun x hx => ?_⟩
    rw [List.mem_append, List.mem_singleton] at hx
    rcases hx with hx | rfl
    · exact Nat.lt_succ_of_lt (h.numbers.2 x hx)
    · exact Nat.lt_succ_self _
  case silent =>
    intro t ht
    rw [hspawned, List.map_append, List.mem_append, not_or] at ht
    rw [hev, h.silent t ht.1]
  case once =>
    rw [hended]
    exact h.once
  case ended =>
    intro pre t o post he
    exact h.ended_keep hle (fun t _ _ => hev t) (hended ▸ he)
  case live =>
    intro t b' hb'
    rw [hspawned, List.mem_append, List.mem_singleton, Prod.mk.injEq] at hb'
    rw [hended]
    rcases hb' with hb' | ⟨rfl, rfl⟩
    · refine (h.live t b' hb').imp_right ?_
      rintro ⟨xf, hx, hxi, hnf⟩
      exact ⟨xf, hother t xf hx, hxi, hnf⟩
    · exact .inr ⟨_, hg', hst, rfl⟩

/-- The rule for `co_await` of a coroutine. -/
theorem Traced.call {n : ℕ} {callee : Body ι V E} {k : Outcome V E → Body ι V E} {u : Union ι}
    (hn : s.nextFrame = n) (hfresh : s.frames n = none) (hlt : f < n) (hf : s.frames f = some fr)
    (hp : fr.point = .running (.call callee k))
    (hframes : s'.frames = Function.update (Function.update s.frames f (some { fr with point := .call n callee k })) n
      (some { Frame.new callee fr.root (fr.before ++ fr.trace) with union := u, point := .running callee }))
    (hrest : s'.nextFrame = n + 1 ∧ s'.spawned = s.spawned ∧ s'.ended = s.ended) (hev : ∀ t, s'.eventsOf t = s.eventsOf t) :
    s'.Traced := by
  obtain ⟨hnext, hspawned, hended⟩ := hrest
  have htold := h.frames f fr hf
  have hcn : fr.point.callee = none := by rw [hp]; rfl
  have hcode : Leads s.ended fr.body fr.trace (Body.call callee k).rest := by
    have := htold.code
    rwa [hp] at this
  have hopen : ∀ o, (fr.root, o) ∉ s.ended := fun o ho => by
    have := htold.closed o ho
    rw [hp] at this
    cases this
  have hf' : s'.frames f = some { fr with point := .call n callee k } := by
    rw [hframes, Function.update_of_ne (Nat.ne_of_lt hlt), Function.update_self]
  have hg' : s'.frames n = some { Frame.new callee fr.root (fr.before ++ fr.trace) with
      union := u, point := .running callee } := by
    rw [hframes, Function.update_self]
  have hother : ∀ x xf, x ≠ f → s.frames x = some xf → s'.frames x = some xf := fun x xf hxf hx => by
    have hxn : x ≠ n := by
      rintro rfl
      cases hfresh.symm.trans hx
    rw [hframes, Function.update_of_ne hxn, Function.update_of_ne hxf, hx]
  have hcases : ∀ x xf, s'.frames x = some xf → x = f ∧ xf = { fr with point := .call n callee k } ∨
      x = n ∧ xf = { Frame.new callee fr.root (fr.before ++ fr.trace) with union := u, point := .running callee } ∨
      x ≠ f ∧ x ≠ n ∧ s.frames x = some xf := fun x xf hx => by
    rcases eq_or_ne x f with rfl | hxf
    · exact .inl ⟨rfl, Option.some.inj (hx.symm.trans hf')⟩
    · rcases eq_or_ne x n with rfl | hxn
      · exact .inr (.inl ⟨rfl, Option.some.inj (hx.symm.trans hg')⟩)
      · rw [hframes, Function.update_of_ne hxn, Function.update_of_ne hxf] at hx
        exact .inr (.inr ⟨hxf, hxn, hx⟩)
  refine h.next ?frames (Equiv.swap f n) ?active ?roots (by omega) hspawned hended (fun t _ _ => hev t) fun t _ => hev t
  case frames =>
    intro x xf hx
    rcases hcases x xf hx with ⟨rfl, rfl⟩ | ⟨rfl, rfl⟩ | ⟨-, -, hold⟩
    · refine htold.change ⟨rfl, rfl, rfl⟩ id (hspawned ▸ List.Subset.refl _) (hended ▸ List.Subset.refl _) (hended ▸ hcode)
        ?link ?events (hended ▸ htold.result) fun o ho => absurd (hended ▸ ho) (hopen o)
      case link =>
        intro g b' k' hk
        cases hk
        exact ⟨hlt, _, hg', rfl, rfl, rfl, rfl⟩
      case events =>
        intro hc
        cases hc
    · obtain ⟨b, hb, hctx⟩ := htold.context
      refine { code := Leads.refl _ _, root := fun hi => absurd rfl hi, context := ⟨b, ?context, ?start⟩, link := ?link,
               events := ?events, result := ?result, closed := ?closed }
      case context =>
        rw [hspawned]
        exact hb
      case start =>
        rw [hended]
        exact hctx.call hcode
      case link =>
        intro g b' k' hk
        cases hk
      case events =>
        intro _
        rw [hev]
        exact (htold.events hcn).trans (List.append_nil _).symm
      case result =>
        intro o ho
        cases ho
      case closed =>
        rw [hended]
        exact fun o ho => absurd ho (hopen o)
    · refine (h.frames x xf hold).keep (hspawned ▸ List.Subset.refl _) (hended ▸ List.Subset.refl _)
        (fun g b' _ gf _ hl => ?_) (fun _ => hev _) fun o ho => hended ▸ ho
      rcases eq_or_ne g f with rfl | hgf
      · obtain rfl := Option.some.inj (hf.symm.trans hl.frame)
        exact ⟨_, hf', hl.state, hl.body, hl.root, hl.before⟩
      · exact ⟨gf, hother g gf hgf hl.frame, hl.state, hl.body, hl.root, hl.before⟩
  case active =>
    -- The callee is now the one that awaits no other, in the place of its caller.
    intro z zf hz hzc
    rcases hcases z zf hz with ⟨rfl, rfl⟩ | ⟨rfl, rfl⟩ | ⟨hzf, hzn, hold⟩
    · cases hzc
    · exact ⟨fr, by rw [Equiv.swap_apply_right, hf], hcn, rfl⟩
    · exact ⟨zf, by rw [Equiv.swap_apply_of_ne_of_ne hzf hzn, hold], hzc, rfl⟩
  case roots =>
    intro t tf htf hst hnf
    rcases eq_or_ne t f with rfl | hne
    · obtain rfl := Option.some.inj (hf.symm.trans htf)
      exact ⟨_, hf', hst, rfl⟩
    · exact ⟨tf, hother t tf hne htf, hst, hnf⟩

/-- The rule for the end of a coroutine that was called. -/
theorem Traced.callReturn {g c : ℕ} {gf cf : Frame ι V E} {b callee : Body ι V E} {o : Outcome V E}
    {k : Outcome V E → Body ι V E} (hg : s.frames g = some gf) (hgp : gf.point = .running b) (ho : b.outcome = some o)
    (hgi : gf.state = .idle) (hc : s.frames c = some cf) (hp : cf.point = .call g callee k)
    (honly : ∀ x xf b' k', s.frames x = some xf → xf.point = .call g b' k' → x = c)
    (hframes : s'.frames = Function.update (Function.update s.frames g none) c
      (some { cf with point := .running (k o), trace := cf.trace ++ gf.trace }))
    (hrest : s'.nextFrame = s.nextFrame ∧ s'.spawned = s.spawned ∧ s'.ended = s.ended)
    (hev : ∀ t, s'.eventsOf t = s.eventsOf t) : s'.Traced := by
  obtain ⟨hnext, hspawned, hended⟩ := hrest
  have htold := h.frames c cf hc
  have hgn : gf.point.callee = none := by rw [hgp]; rfl
  obtain ⟨hlt, gf', hl⟩ := htold.link g callee k hp
  obtain rfl := Option.some.inj (hg.symm.trans hl.frame)
  have hc' : s'.frames c = some { cf with point := .running (k o), trace := cf.trace ++ gf.trace } := by
    rw [hframes, Function.update_self]
  have hother : ∀ x xf, x ≠ g → x ≠ c → s.frames x = some xf → s'.frames x = some xf := fun x xf hxg hxc hx => by
    rw [hframes, Function.update_of_ne hxc, Function.update_of_ne hxg, hx]
  have hcases : ∀ x xf, s'.frames x = some xf →
      x = c ∧ xf = { cf with point := .running (k o), trace := cf.trace ++ gf.trace } ∨
      x ≠ c ∧ x ≠ g ∧ s.frames x = some xf := fun x xf hx => by
    rw [hframes, update_some_eq_some, update_none_eq_some] at hx
    exact hx.imp_left fun hx => ⟨hx.1, hx.2.symm⟩
  -- The callee did and returned what its body says, and so does the call.
  have hcall : Leads s.ended (.call callee k) gf.trace (k o).rest := fun h' hle' tr' o' he => by
    have hcallee := (h.frames g gf hg).code h' hle' [] (some o) (by rw [hgp]; exact .of_outcome ho)
    rw [List.append_nil, hl.body] at hcallee
    exact .call hcallee he
  refine h.next ?frames (Equiv.swap g c) ?active ?roots (Nat.le_of_eq hnext.symm) hspawned hended (fun t _ _ => hev t) fun t _ => hev t
  case frames =>
    intro x xf hx
    rcases hcases x xf hx with ⟨rfl, rfl⟩ | ⟨hxc, -, hold⟩
    · refine htold.change ⟨rfl, rfl, rfl⟩ id (hspawned ▸ List.Subset.refl _) (hended ▸ List.Subset.refl _) ?code ?link
        ?events (hended ▸ htold.result) ?closed
      case code =>
        have hcode : Leads s.ended cf.body cf.trace (Body.call callee k).rest := by
          have := htold.code
          rwa [hp] at this
        rw [hended]
        exact hcode.trans hcall
      case link =>
        intro y b' k' hk
        cases hk
      case events =>
        intro _
        have hevents := (h.frames g gf hg).events hgn
        rw [hl.root, hl.before, List.append_assoc] at hevents
        rw [hev]
        exact hevents
      case closed =>
        intro o' ho'
        have := htold.closed o' (hended ▸ ho')
        rw [hp] at this
        cases this
    · refine (h.frames x xf hold).keep (hspawned ▸ List.Subset.refl _) (hended ▸ List.Subset.refl _)
        (fun y b' k' yf hk hy => ?_) (fun _ => hev _) fun o' ho' => hended ▸ ho'
      rcases eq_or_ne y c with rfl | hyc
      · obtain rfl := Option.some.inj (hc.symm.trans hy.frame)
        exact ⟨_, hc', hy.state, hy.body, hy.root, hy.before⟩
      · have hyg : y ≠ g := by
          rintro rfl
          exact hxc (honly x xf b' k' hold hk)
        exact ⟨yf, hother y yf hyg hyc hy.frame, hy.state, hy.body, hy.root, hy.before⟩
  case active =>
    intro z zf hz hzc
    rcases hcases z zf hz with ⟨rfl, rfl⟩ | ⟨hzc', hzg, hold⟩
    · exact ⟨gf, by rw [Equiv.swap_apply_right, hg], hgn, hl.root⟩
    · exact ⟨zf, by rw [Equiv.swap_apply_of_ne_of_ne hzg hzc', hold], hzc, rfl⟩
  case roots =>
    intro t tf htf hst hnf
    rcases eq_or_ne t c with rfl | htc
    · obtain rfl := Option.some.inj (hc.symm.trans htf)
      exact ⟨_, hc', hst, rfl⟩
    · have htg : t ≠ g := by
        rintro rfl
        obtain rfl := Option.some.inj (hg.symm.trans htf)
        exact hst hgi
      exact ⟨tf, hother t tf htg htc htf, hst, hnf⟩

/-- A coroutine that awaits nothing goes to another such point; `l` is what it did in between. -/
theorem Traced.stand {b : Body ι V E} {p : Point ι V E} {l tr : List (Event ι V E)} (hf : s.frames f = some fr)
    (hpt : fr.point.callee = none ∧ fr.point.isFinal = false ∧ fr.point.rest = b.rest)
    (hp : p.callee = none ∧ p.isFinal = false) (hl : Leads s.ended b l p.rest) (htr : tr = fr.trace ++ l)
    (hframes : s'.frames = Function.update s.frames f (some { fr with point := p, trace := tr }))
    (hrest : s'.nextFrame = s.nextFrame ∧ s'.spawned = s.spawned ∧ s'.ended = s.ended)
    (hev : ∀ t, s'.eventsOf t = s.eventsOf t ++ if t = fr.root then l else []) : s'.Traced := by
  refine h.touch { fr with point := p, trace := tr } l hf ⟨rfl, rfl, rfl, rfl⟩ Iff.rfl htr
    ⟨hp.1.trans hpt.1.symm, hp.2.trans hpt.2.1.symm⟩ ?_ (.inl ⟨hpt.1, hpt.2.1⟩) hframes hrest hev
  have hcode := (h.frames f fr hf).code
  rw [hpt.2.2] at hcode
  exact htr ▸ hcode.trans hl

end

/-! ## Moves -/

theorem eventsOf_append {l : List (Entry ι V E)} (hl : s'.log = s.log ++ l) (t : ℕ) :
    s'.eventsOf t = s.eventsOf t ++ l.filterMap (Entry.eventOf t) := by
  rw [eventsOf, hl, List.filterMap_append]
  rfl

theorem eventsOf_body {root : ℕ} {l : List (Event ι V E)} (hl : s'.log = s.log ++ l.map (.body root)) (t : ℕ) :
    s'.eventsOf t = s.eventsOf t ++ if t = root then l else [] := by
  rw [eventsOf_append hl, List.filterMap_map]
  congr 1
  split_ifs with ht
  · simp [Entry.eventOf, ht]
  · simp [Function.comp_def, Entry.eventOf, Ne.symm ht]

theorem eventsOf_same (hl : s'.log = s.log) (root t : ℕ) : s'.eventsOf t = s.eventsOf t ++ if t = root then [] else [] := by
  rw [ite_self, List.append_nil, eventsOf, eventsOf, hl]

variable [DecidableEq ι] {loc : ℕ → Option (Spot ι)}

section

variable {e : Event ι V E} {s₁ : Machine ι V E} {b b' : Body ι V E} {l : List (Event ι V E)} {root : ℕ}

/-- What a body does without another coroutine is what plain code does. -/
theorem Goes.leads (h : s.Traced) (hg : s.Goes root b l s₁ b') : Leads s.ended b l b'.rest := by
  intro h' hle tr' o he
  cases hg with
  | sender => exact .sender he
  | spawn => exact .spawn he
  | join htf ho _ => exact .join (hle ((h.frames _ _ htf).result _ ho)) he
  | refused => exact .refused he
  | detach => exact .detach he
  | lose | waitGone => exact .wait he
  | drop => exact .drop he

omit [DecidableEq ι] in
/-- A request changes the promise of a task, and nothing that its frame says. -/
theorem Traced.promise {t : ℕ} {tf : Frame ι V E} (h : s.Traced) (htf : s.frames t = some tf) {st : PromiseState}
    {u : Union ι} (hst : tf.state ≠ .idle ∧ st ≠ .idle)
    (hframes : s'.frames = Function.update s.frames t (some { tf with state := st, union := u }))
    (hrest : s'.nextFrame = s.nextFrame ∧ s'.spawned = s.spawned ∧ s'.ended = s.ended) (hl : s'.log = s.log) :
    s'.Traced :=
  h.touch { tf with state := st, union := u } [] htf ⟨rfl, rfl, rfl, rfl⟩ (by simp [hst.1, hst.2])
    (List.append_nil _).symm ⟨rfl, rfl⟩ (h.frames t tf htf).code (.inr ⟨rfl, rfl⟩) hframes hrest (eventsOf_same hl tf.root)

theorem Request.traced (hi : s.Inv loc) (h : s.Traced) (hr : s.Request e s₁) : s₁.Traced := by
  cases hr with
  | spawn hq hrt => exact h.spawn (hi.fresh _ le_rfl) (by simp) rfl rfl ⟨rfl, rfl⟩ fun _ => rfl
  | detach ht htf hst | wait ht htf hst => exact h.promise htf ⟨by simp [hst], by simp⟩ rfl ⟨rfl, rfl, rfl⟩ rfl
  | collect ht htf hst hw =>
    have hfin := (hi.nowhere htf (.inl hst)).2
    exact h.release htf (by simp [hst]) (by rw [hfin]; rfl) rfl ⟨rfl, rfl, rfl⟩ fun _ => rfl
  | gone => exact h.congr rfl rfl rfl rfl fun _ => rfl

theorem Goes.traced (hi : s.Inv loc) (h : s.Traced) (hg : s.Goes root b l s₁ b') : s₁.Traced ∧ s₁.ended = s.ended := by
  have hreq : ∀ {e}, s.Request e s₁ → s₁.Traced ∧ s₁.ended = s.ended := fun hr =>
    ⟨hr.traced hi h, by cases hr <;> rfl⟩
  cases hg with
  | sender => exact ⟨h.congr rfl rfl rfl rfl fun t => (eventsOf_append rfl t).trans (List.append_nil _), rfl⟩
  | spawn hr | join _ _ hr | detach hr => exact hreq hr
  | lose ht => exact ⟨h.congr rfl rfl rfl rfl fun _ => rfl, rfl⟩
  | refused | waitGone | drop => exact ⟨h, rfl⟩

end

/-- Only one coroutine awaits the one that was called. -/
theorem Inv.caller_unique (hi : s.Inv loc) {g c x : ℕ} {cf xf : Frame ι V E} {b b' : Body ι V E}
    {k k' : Outcome V E → Body ι V E} (hc : s.frames c = some cf) (hp : cf.point = .call g b k)
    (hx : s.frames x = some xf) (hxp : xf.point = .call g b' k') : x = c := by
  have h1 : s.ownerOf g = some (.caller c) := hi.owned.mem_iff.mp (by simp [holdings, hc, hp, Point.callee])
  have h2 : s.ownerOf g = some (.caller x) := hi.owned.mem_iff.mp (by simp [holdings, hx, hxp, Point.callee])
  rw [h1, Option.some.injEq, Holder.caller.injEq] at h2
  exact h2.symm

omit [DecidableEq ι] in
/-- The frame of a coroutine that ends, but for the state. -/
theorem ends_traced {n : ℕ} {r : ι} {b : Body ι V E} {o : Outcome V E} (h : s.Traced)
    (hfresh : ∀ x, n ≤ x → s.frames x = none) (hresult : fr.exception = none ∧ fr.value = none)
    (hf : s.OnThread r f fr b) (ho : b.outcome = some o) (hst : fr.state ≠ .idle) (st : PromiseState)
    (hframes : s'.frames = Function.update s.frames f (some { fr.ends o with state := st }))
    (hended : s'.ended = s.ended ++ [(f, o)]) (hrest : s'.nextFrame = s.nextFrame ∧ s'.spawned = s.spawned)
    (hl : s'.log = s.log) : s'.Traced := by
  refine h.finish hfresh hf.frame hst hf.point ho (fun xf hxf => ?_) hframes hended hrest
    fun t => by rw [eventsOf, eventsOf, hl]
  obtain rfl := Option.some.inj hxf
  have hout := outcome_ends hresult o st
  cases o <;> exact ⟨rfl, hout, rfl, rfl, rfl, rfl⟩

omit [DecidableEq ι] in
/-- A coroutine gets the result of a sender. -/
theorem complete_traced {op : ℕ} {r : ι} {a : SenderAwaiter} {k : ℤ → Body ι V E} {res : ℤ} (h : s.Traced)
    (hf : s.frames f = some fr) (hp : fr.point = .sender op r a k)
    (hframes : s'.frames = Function.update s.frames f (some { fr with
      point := .running (k res), trace := fr.trace ++ [.sender op res] }))
    (hrest : s'.nextFrame = s.nextFrame ∧ s'.spawned = s.spawned ∧ s'.ended = s.ended)
    (hev : ∀ t, s'.eventsOf t = s.eventsOf t ++ if t = fr.root then [.sender op res] else []) : s'.Traced :=
  h.stand (b := .sender op k) (p := .running (k res)) hf (by rw [hp]; exact ⟨rfl, rfl, rfl⟩) ⟨rfl, rfl⟩
    (fun _ _ _ _ he => .sender he) rfl hframes hrest hev

omit [DecidableEq ι] in
theorem OnThread.rest {r : ι} {b : Body ι V E} (hf : s.OnThread r f fr b) :
    fr.point.callee = none ∧ fr.point.isFinal = false ∧ fr.point.rest = b.rest := by
  rw [hf.point]
  exact ⟨rfl, rfl, rfl⟩

theorem Move.traced (hi : s.Inv loc) (h : s.Traced) (hm : s.Move s') : s'.Traced := by
  have hresult : ∀ {r : ι} {f : ℕ} {fr : Frame ι V E} {b : Body ι V E}, s.OnThread r f fr b →
      fr.exception = none ∧ fr.value = none := fun hf => by
    have := (hi.shape _ _ hf.frame).result
    rwa [hf.plain.2.2, if_neg (by simp)] at this
  cases hm with
  | halt | rts hrt | run hc => exact h.congr rfl rfl rfl rfl fun _ => rfl
  | wake hf hp hw hq hrt => exact h.congr rfl rfl rfl rfl fun t => (eventsOf_append rfl t).trans (List.append_nil _)
  | @advance r f fr b b' l s₁ hf hg =>
    obtain ⟨h₁, hended⟩ := hg.traced hi h
    obtain ⟨st, u, hf₁⟩ := hg.onThread hi hf
    rw [goOn_eq hf₁.frame]
    exact h₁.stand (p := .running b') hf₁.frame hf₁.rest ⟨rfl, rfl⟩ (hended ▸ hg.leads h) rfl rfl ⟨rfl, rfl, rfl⟩
      (eventsOf_body rfl)
  | outside hr =>
    exact (hr.traced hi h).congr rfl rfl rfl rfl fun t => (eventsOf_append rfl t).trans (List.append_nil _)
  | @awaitKernel r f fr op k rt hf hrt | @awaitWaits r f fr op k rt hf hrt =>
    exact h.stand (p := .sender op r ⟨.frame f, none⟩ k) hf.frame hf.rest ⟨rfl, rfl⟩ (Leads.refl _ _)
      (List.append_nil _).symm rfl ⟨rfl, rfl, rfl⟩ (eventsOf_same rfl _)
  | @awaitTask r f t fr tf k rt hf hne ht htf hst hrt =>
    have hjoin : Leads s.ended (.join t k) [.join t] (Point.task t r k).rest := by
      rintro h' _ tr' o (⟨rfl, rfl⟩ | ⟨o', ho', he⟩)
      · exact .inJoin
      · exact .join ho' he
    have h₁ : Traced { s with
        frames := Function.update s.frames f (some { fr with point := .task t r k, trace := fr.trace ++ [.join t] })
        log := s.log ++ [.body fr.root (.join t)] } :=
      h.stand (p := .task t r k) hf.frame hf.rest ⟨rfl, rfl⟩ hjoin rfl rfl ⟨rfl, rfl, rfl⟩
        (eventsOf_body (l := [.join t]) rfl)
    have htf' : Function.update s.frames f (some { fr with point := .task t r k, trace := fr.trace ++ [.join t] }) t =
        some tf := (Function.update_of_ne hne _ _).trans htf
    exact h₁.promise htf' ⟨by simp [hst], by simp⟩ rfl ⟨rfl, rfl, rfl⟩ rfl
  | @switch r r' f fr k q rt hf hq hrt =>
    exact h.stand (p := .switched k) (l := []) hf.frame hf.rest ⟨rfl, rfl⟩ (fun _ _ _ _ he => .switch he)
      (List.append_nil _).symm rfl ⟨rfl, rfl, rfl⟩ (eventsOf_same rfl _)
  | @call r f fr callee k rt hf hrt =>
    refine h.call rfl (hi.fresh _ le_rfl) ?_ hf.frame hf.point rfl ⟨rfl, rfl, rfl⟩ fun _ => rfl
    by_contra hlt
    cases (hi.fresh f (not_lt.mp hlt)).symm.trans hf.frame
  | callReturn hg ho hst hu hc hp hrt =>
    exact h.callReturn hg.frame hg.point ho hst hc hp (fun x xf b' k' hx hxp => hi.caller_unique hc hp hx hxp) rfl
      ⟨rfl, rfl, rfl⟩ fun _ => rfl
  | endZombie hf ho hst hrt =>
    exact ends_traced h hi.fresh (hresult hf) hf ho (by simp [hst]) .zombie rfl rfl ⟨rfl, rfl⟩ rfl
  | endDetached hf ho hst hrt =>
    exact h.finish hi.fresh hf.frame (by simp [hst]) hf.point ho (fun xf hxf => by cases hxf) rfl rfl ⟨rfl, rfl⟩
      fun _ => rfl
  | endJoined hf ho hst hu hq hrt =>
    exact ends_traced h hi.fresh (hresult hf) hf ho (by simp [hst]) .finished rfl rfl ⟨rfl, rfl⟩ rfl
  | endWaited hf ho hst hu hrt =>
    exact ends_traced h hi.fresh (hresult hf) hf ho (by simp [hst]) .finished rfl rfl ⟨rfl, rfl⟩ rfl
  | @start r f fr b q l rt hr hf hp hq hrt =>
    refine h.stand (b := b) (p := .running b) hf ?_ ⟨rfl, rfl⟩ (Leads.refl _ _) (List.append_nil _).symm rfl
      ⟨rfl, rfl, rfl⟩ (eventsOf_same rfl _)
    rcases hp with hp | hp <;> rw [hp] <;> exact ⟨rfl, rfl, rfl⟩
  | @completeKernel r f fr op a k res l rt hr hf hp hq hrt =>
    refine complete_traced h hf hp rfl ⟨rfl, rfl, rfl⟩ fun t => ?_
    refine (eventsOf_append (s := s) rfl t).trans ?_
    rcases eq_or_ne t fr.root with rfl | ht
    · simp [List.filterMap_cons, Entry.eventOf]
    · simp [List.filterMap_cons, Entry.eventOf, ht, ht.symm]
  | completeWaiter hr hf hp hq hrt =>
    exact complete_traced h hf hp rfl ⟨rfl, rfl, rfl⟩ (eventsOf_body (l := [.sender _ _]) rfl)
  | @resumeTask r f t fr tf k o q l rt hr hf hp htf hst ho hq hrt =>
    have hfin := (hi.nowhere htf (.inr hst)).2
    have hne : f ≠ t := by
      rintro rfl
      obtain rfl := Option.some.inj (hf.symm.trans htf)
      cases hp.symm.trans hfin
    have h₁ : Traced { s with frames := Function.update s.frames t none } :=
      h.release htf (by simp [hst]) (by rw [hfin]; rfl) rfl ⟨rfl, rfl, rfl⟩ fun _ => rfl
    have hf' : Function.update s.frames t none f = some fr := (Function.update_of_ne hne _ _).trans hf
    refine h₁.touch { fr with point := .running (k o) } [] hf' ⟨rfl, rfl, rfl, rfl⟩ Iff.rfl
      (List.append_nil _).symm (by rw [hp]; exact ⟨rfl, rfl⟩) (fun h' hle tr' o' he => ?_)
      (.inl (by rw [hp]; exact ⟨rfl, rfl⟩)) rfl ⟨rfl, rfl, rfl⟩ (eventsOf_same rfl _)
    have hcode := (h.frames f fr hf).code
    rw [hp] at hcode
    exact hcode h' hle tr' o' (.inr ⟨o, hle ((h.frames t tf htf).result o ho), he⟩)
  | waitReturn ht htf hst ho =>
    have hfin := (hi.nowhere htf (.inr hst)).2
    exact h.release htf (by simp [hst]) (by rw [hfin]; rfl) rfl ⟨rfl, rfl, rfl⟩ fun _ => rfl

end Machine

end Condy.Coro
