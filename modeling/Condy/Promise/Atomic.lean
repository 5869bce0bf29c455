import Condy.Promise.Handover

/-!
# Condy.Promise.Atomic — a promise whose parties act one after the other

What `final_suspend`, `request_detach` and `request_join` do when each runs without the other in between is a step of
`atomicStep`, on the state of the promise alone; `none` is a frame that was destroyed.  Both directions hold.  A run of
atomic steps is one of the promise, step by step (`atomic_run`); and whatever the interleaving, a promise that is at rest
stands where atomic steps have left it (`rests_stand`).
-/

namespace Condy.Promise

open Lib PromiseState

/-- The end of the coroutine, the two requests, and the joiner that goes on. -/
inductive AtomicOp where
  | final | detach | join | collect
deriving DecidableEq, Repr

/-- A zombie is destroyed by the request that finds it, after its result was read. -/
def atomicStep : Option PromiseState → AtomicOp → Option (Option PromiseState)
  | some .runningJoinable, .final => some (some .zombie)
  | some .runningDetached, .final => some none
  | some .runningJoining, .final => some (some .finished)
  | some .runningJoinable, .detach => some (some .runningDetached)
  | some .runningJoinable, .join => some (some .runningJoining)
  | some .zombie, .detach | some .zombie, .join | some .finished, .collect => some none
  | _, _ => none

/-- The state, if the frame is there. -/
def view (p : Promise) : Option PromiseState := if p.destroyed = 0 then some p.state else none

/-- The promises whose parties are both at rest: the coroutine in its body or through, the consumer not begun, waiting or
through. -/
inductive Stands : Option PromiseState → Promise → Prop
  | joinable (a : Action) : Stands (some .runningJoinable) (spawned a)
  | detached : Stands (some .runningDetached) { spawned .detach with state := .runningDetached, request := .done }
  | joining : Stands (some .runningJoining)
      { spawned .join with state := .runningJoining, slot := .callback, request := .waiting, returned := some true }
  | zombie (a : Action) : Stands (some .zombie) { spawned a with state := .zombie, bodyDone := true, final := .done }
  | finished : Stands (some .finished)
      { spawned .join with
        state := .finished, slot := .callback, bodyDone := true, final := .done, request := .waiting
        returned := some true, callbacks := 1 }
  | gone {p : Promise} (hd : p.destroyed = 1) (hf : p.final = .done) (hr : p.request = .done) : Stands none p

theorem Stands.view {o : Option PromiseState} {p : Promise} (h : Stands o p) : p.view = o := by
  cases h with
  | gone hd => simp [Promise.view, hd]
  | _ => rfl

/-! ## Atomic steps are runs -/

theorem exists_stands {o : Option PromiseState} (ho : o ≠ some .idle) : ∃ p, Stands o p := by
  rcases o with _ | st
  · exact ⟨{ spawned .detach with destroyed := 1, final := .done, request := .done }, .gone rfl rfl rfl⟩
  · cases st with
    | idle => exact absurd rfl ho
    | runningJoinable => exact ⟨_, .joinable .join⟩
    | runningDetached => exact ⟨_, .detached⟩
    | runningJoining => exact ⟨_, .joining⟩
    | zombie => exact ⟨_, .zombie .join⟩
    | finished => exact ⟨_, .finished⟩

theorem atomic_ne_idle {o o' : Option PromiseState} {op : AtomicOp} (hs : atomicStep o op = some o') :
    o' ≠ some .idle := by
  rcases o with _ | st
  · cases op <;> cases hs
  · cases st <;> cases op <;> cases hs <;> simp

/-- One party acts, without the other in between.  What it does does not depend on the action of a consumer that has not
begun, so any promise that stands where the step ends will do, unless the frame is destroyed. -/
theorem atomic_step_run {o o' : Option PromiseState} {op : AtomicOp} (hs : atomicStep o op = some o') :
    (o' = none ∧ ∃ p p' ops, Stands o p ∧ Stands none p' ∧ run step p ops = some p') ∨
      ∀ p', Stands o' p' → ∃ p ops, Stands o p ∧ run step p ops = some p' := by
  rcases o with _ | st
  · cases op <;> cases hs
  cases st <;> cases op <;> cases hs
  case some.runningJoinable.final.refl =>
    refine .inr fun p' hp' => ?_
    cases hp' with
    | zombie a => exact ⟨_, List.replicate 5 (.final false), .joinable a, rfl⟩
  case some.runningJoinable.detach.refl =>
    refine .inr fun p' hp' => ?_
    cases hp' with
    | detached => exact ⟨_, List.replicate 5 (.request false), .joinable .detach, rfl⟩
  case some.runningJoinable.join.refl =>
    refine .inr fun p' hp' => ?_
    cases hp' with
    | joining => exact ⟨_, List.replicate 6 (.request false), .joinable .join, rfl⟩
  case some.runningJoining.final.refl =>
    refine .inr fun p' hp' => ?_
    cases hp' with
    | finished => exact ⟨_, List.replicate 7 (.final false), .joining, rfl⟩
  case some.runningDetached.final.refl =>
    exact .inl ⟨rfl, _, _, List.replicate 6 (.final false), .detached, .gone rfl rfl rfl, rfl⟩
  case some.zombie.detach.refl =>
    exact .inl ⟨rfl, _, _, List.replicate 6 (.request false), .zombie .detach, .gone rfl rfl rfl, rfl⟩
  case some.zombie.join.refl =>
    exact .inl ⟨rfl, _, _, List.replicate 7 (.request false), .zombie .join, .gone rfl rfl rfl, rfl⟩
  case some.finished.collect.refl =>
    exact .inl ⟨rfl, _, _, List.replicate 3 (.request false), .finished, .gone rfl rfl rfl, rfl⟩

/-- What parties do that act one after the other, a promise does. -/
theorem atomic_run {o o' : Option PromiseState} (ho : o ≠ some .idle) (ops : List AtomicOp)
    (hrun : run atomicStep o ops = some o') :
    ∃ p p' ops', Stands o p ∧ Stands o' p' ∧ run step p ops' = some p' := by
  induction ops generalizing o with
  | nil =>
    obtain rfl := Option.some.inj hrun
    obtain ⟨p, hp⟩ := exists_stands ho
    exact ⟨p, p, [], hp, hp, rfl⟩
  | cons op ops ih =>
    rw [run_cons, Option.bind_eq_some_iff] at hrun
    obtain ⟨o₁, hs, hrun⟩ := hrun
    rcases atomic_step_run hs with ⟨rfl, p, p', ops', hp, hp', hops⟩ | hback
    · -- Nothing follows the destruction of the frame.
      cases ops with
      | nil =>
        obtain rfl := Option.some.inj hrun
        exact ⟨p, p', ops', hp, hp', hops⟩
      | cons op' ops => cases op' <;> cases hrun
    · obtain ⟨p₁, p', ops', hp₁, hp', hops'⟩ := ih (atomic_ne_idle hs) hrun
      obtain ⟨p, pre, hp, hpre⟩ := hback p₁ hp₁
      exact ⟨p, p', pre ++ ops', hp, hp', by rw [run_append, hpre]; exact hops'⟩

/-! ## Promises at rest -/

/-- Neither party is in the middle of `final_suspend` or of its request. -/
structure Rests (p : Promise) : Prop where
  final : p.final = .body ∨ p.final = .done
  request : p.request = .ready ∨ p.request = .waiting ∨ p.request = .done

theorem finalStep_leaves {p q : Promise} {b : Bool} (hs : p.finalStep b = some q) : q.final ≠ .body := by
  unfold finalStep at hs
  split at hs <;> (try split at hs) <;> cases hs <;> simp

theorem requestStep_keeps {p q : Promise} {b : Bool} (hs : p.requestStep b = some q) :
    q.final = p.final ∧ q.bodyDone = p.bodyDone := by
  unfold requestStep at hs
  split at hs <;> (try split at hs) <;> cases hs <;> exact ⟨rfl, rfl⟩

/-- A coroutine that is in its body has not come to its end before. -/
theorem body_undone (a : Action) {ops : List Op} {p : Promise} (hrun : run step (spawned a) ops = some p) :
    p.final = .body → p.bodyDone = false := by
  refine run_inv (I := fun p => p.final = .body → p.bodyDone = false) (fun p op q h hs => ?_) ops (fun _ => rfl) hrun
  cases op with
  | final b => exact fun hq => absurd hq (finalStep_leaves hs)
  | request b =>
    obtain ⟨hfinal, hbody⟩ := requestStep_keeps hs
    rw [hfinal, hbody]
    exact h

/-- Whatever the interleaving was, a promise at rest stands where its parties have left it one after the other; which
member of the union was written last is not seen any more. -/
theorem rests_stand (a : Action) {ops : List Op} {p : Promise} (hrun : run step (spawned a) ops = some p)
    (hrest : p.Rests) : ∃ slot, Stands p.view { p with slot } := by
  have hi := run_inv (fun _ op _ hi hs => step_inv op hi hs) ops (spawned_inv a) hrun
  have hb := body_undone a hrun
  obtain ⟨action, state, slot, bodyDone, final, request, returned, callbacks, destroyed, after, wild⟩ := p
  obtain ⟨hmeets, hbody, rfl, rfl⟩ := hi
  obtain ⟨hf, hr⟩ := hrest
  dsimp only at hmeets hbody hf hr hb ⊢
  cases hmeets with
  | joinable hfin hreq =>
    cases hfin <;> cases hreq <;> simp at hf hr
    obtain rfl := hb rfl
    exact ⟨.callerHandle, .joinable action⟩
  | zombie hfin hreq =>
    cases hfin <;> cases hreq <;> simp at hf hr hbody
    subst hbody
    exact ⟨.callerHandle, .zombie action⟩
  | claimed hfin hreq =>
    cases hfin <;> cases hreq <;> simp at hf hr
    · obtain rfl := hb rfl
      exact ⟨.callerHandle, .detached⟩
    · obtain rfl := hb rfl
      exact ⟨.callback, .joining⟩
  | collected hfin hreq =>
    cases hfin <;> cases hreq <;> simp at hf hr
    all_goals exact ⟨slot, .gone rfl rfl rfl⟩
  | freed hfin hreq =>
    cases hfin <;> cases hreq <;> simp at hf hr
    exact ⟨slot, .gone rfl rfl rfl⟩
  | called hfin hreq => cases hfin <;> simp at hf
  | woken hreq =>
    cases hreq <;> simp at hr hbody
    · subst hbody
      exact ⟨.callback, .finished⟩
    · exact ⟨slot, .gone rfl rfl rfl⟩

end Condy.Promise
