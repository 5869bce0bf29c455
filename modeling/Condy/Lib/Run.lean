import Mathlib.Algebra.Ring.Nat
import Mathlib.Data.List.Basic

/-!
# Condy.Lib.Run — runs of a labelled partial step function

A system is given by `step : σ → α → Option σ`: the label `α` holds every choice (which thread moves, what the
environment answers), and `none` means that the step is not enabled.  `run step s as` takes the labels of `as` in
order.  Safety theorems are proved by `run_inv`; when only some runs are considered, `Along step G s as` says that
each step of the run is taken where `G` allows it, and `run_inv_along` is the rule.  `run_mark` and `run_origin` relate
a state to the labels of the run that led to it, `run_inv_outputs` to what the steps have put out so far, and
`run_outputs` the two ends of a run to what its steps put out.
`run_budget` bounds how often a run takes some of its labels.
-/

namespace Condy.Lib

variable {σ α : Type*}

/-- The state after the labels of the list, `none` if one of the steps is not enabled. -/
def run (step : σ → α → Option σ) (s : σ) : List α → Option σ
  | [] => some s
  | a :: as => (step s a).bind (fun t => run step t as)

/-- Every step of the run is taken in a state where `G` allows its label. -/
def Along (step : σ → α → Option σ) (G : σ → α → Prop) (s : σ) : List α → Prop
  | [] => True
  | a :: as => G s a ∧ (match step s a with
    | none => True
    | some t => Along step G t as)

/-- What the steps of the run put out, in order. -/
def outputs {β : Type*} (step : σ → α → Option σ) (out : σ → α → List β) (s : σ) : List α → List β
  | [] => []
  | a :: as => out s a ++ (match step s a with
    | none => []
    | some t => outputs step out t as)

variable {step : σ → α → Option σ}

/-- `Along` can be checked by running the steps. -/
instance decidableAlong {G : σ → α → Prop} [∀ s a, Decidable (G s a)] :
    (as : List α) → (s : σ) → Decidable (Along step G s as)
  | [], _ => .isTrue trivial
  | a :: as, s => @instDecidableAnd (G s a) _ _ <|
    match step s a with
    | none => .isTrue trivial
    | some t => decidableAlong as t

theorem along_of_forall {G : σ → α → Prop} : ∀ (as : List α) (s : σ), (∀ a ∈ as, ∀ s, G s a) → Along step G s as
  | [], _, _ => trivial
  | a :: as, s, h => by
    refine ⟨h a List.mem_cons_self s, ?_⟩
    cases step s a with
    | none => trivial
    | some t => exact along_of_forall as t (fun b hb => h b (List.mem_cons_of_mem a hb))

@[simp] theorem run_nil (s : σ) : run step s [] = some s := rfl

theorem run_cons (s : σ) (a : α) (as : List α) :
    run step s (a :: as) = (step s a).bind (fun t => run step t as) := rfl

theorem run_append : ∀ (s : σ) (as bs : List α),
    run step s (as ++ bs) = (run step s as).bind fun t => run step t bs
  | _, [], _ => rfl
  | s, a :: as, bs => by
    rw [List.cons_append, run_cons, run_cons, Option.bind_assoc]
    exact congrArg _ (funext fun t => run_append t as bs)

/-- **Invariant rule**: what every enabled step preserves, every run preserves. -/
theorem run_inv {I : σ → Prop} (hstep : ∀ s a t, I s → step s a = some t → I t) :
    ∀ (as : List α) {s t : σ}, I s → run step s as = some t → I t
  | [], s, t, hs, h => by
    rw [run_nil, Option.some.injEq] at h
    exact h ▸ hs
  | a :: as, s, t, hs, h => by
    rw [run_cons, Option.bind_eq_some_iff] at h
    obtain ⟨u, hu, h⟩ := h
    exact run_inv hstep as (hstep s a u hs hu) h

/-- **Invariant rule for restricted runs**: a step only has to preserve `I` where `G` allows it. -/
theorem run_inv_along {I : σ → Prop} {G : σ → α → Prop}
    (hstep : ∀ s a t, I s → G s a → step s a = some t → I t) :
    ∀ (as : List α) {s t : σ}, I s → Along step G s as → run step s as = some t → I t
  | [], s, t, hs, _, h => by
    rw [run_nil, Option.some.injEq] at h
    exact h ▸ hs
  | a :: as, s, t, hs, hG, h => by
    rw [run_cons, Option.bind_eq_some_iff] at h
    obtain ⟨u, hu, h⟩ := h
    obtain ⟨hg, hrest⟩ := hG
    rw [hu] at hrest
    exact run_inv_along hstep as (hstep s a u hs hg hu) hrest h

/-- **Relation rule**: a reflexive and transitive relation that contains every step taken from an invariant state
relates the two ends of every run. -/
theorem run_rel {I : σ → Prop} {R : σ → σ → Prop} (hrefl : ∀ s, R s s)
    (htrans : ∀ s t u, R s t → R t u → R s u)
    (hstep : ∀ s a t, I s → step s a = some t → I t ∧ R s t) :
    ∀ (as : List α) {s t : σ}, I s → run step s as = some t → R s t
  | [], s, t, _, h => by
    rw [run_nil, Option.some.injEq] at h
    exact h ▸ hrefl s
  | a :: as, s, t, hs, h => by
    rw [run_cons, Option.bind_eq_some_iff] at h
    obtain ⟨u, hu, h⟩ := h
    obtain ⟨hI, hR⟩ := hstep s a u hs hu
    exact htrans s u t hR (run_rel hrefl htrans hstep as hI h)

/-- **Output rule**: what relates the ends of a step to its output, and composes along appended outputs, relates the
ends of a run to what the run puts out. -/
theorem run_outputs {β : Type*} {out : σ → α → List β} {R : σ → List β → σ → Prop} (hrefl : ∀ s, R s [] s)
    (htrans : ∀ s t u bs bs', R s bs t → R t bs' u → R s (bs ++ bs') u)
    (hstep : ∀ s a t, step s a = some t → R s (out s a) t) :
    ∀ (as : List α) {s t : σ}, run step s as = some t → R s (outputs step out s as) t
  | [], s, t, h => by
    rw [run_nil, Option.some.injEq] at h
    exact h ▸ hrefl s
  | a :: as, s, t, h => by
    rw [run_cons, Option.bind_eq_some_iff] at h
    obtain ⟨u, hu, h⟩ := h
    unfold outputs
    rw [hu]
    exact htrans s u t _ _ (hstep s a u hu) (run_outputs hrefl htrans hstep as h)

/-- **Invariant rule with a record**: what every step keeps, as its output is added to the record, every run keeps. -/
theorem run_inv_outputs {β : Type*} {out : σ → α → List β} {P : List β → σ → Prop}
    (hstep : ∀ bs s a t, P bs s → step s a = some t → P (bs ++ out s a) t) :
    ∀ (as : List α) {bs : List β} {s t : σ}, P bs s → run step s as = some t → P (bs ++ outputs step out s as) t
  | [], bs, s, t, hs, h => by
    rw [run_nil, Option.some.injEq] at h
    rw [outputs, List.append_nil]
    exact h ▸ hs
  | a :: as, bs, s, t, hs, h => by
    rw [run_cons, Option.bind_eq_some_iff] at h
    obtain ⟨u, hu, h⟩ := h
    have hrest := run_inv_outputs hstep as (hstep bs s a u hs hu) h
    unfold outputs
    rw [hu, ← List.append_assoc]
    exact hrest

/-- **Budget rule**: when every step with a label of `G` pays for being counted by `p` out of `left`, a run of such steps
is counted at most `left` times. -/
theorem run_budget {I : σ → Prop} {G : α → Prop} {p : α → Bool} {left : σ → ℕ}
    (hI : ∀ s a t, I s → step s a = some t → I t)
    (hstep : ∀ s a t, I s → G a → step s a = some t → left t + (if p a then 1 else 0) ≤ left s) :
    ∀ (as : List α) {s t : σ}, I s → (∀ a ∈ as, G a) → run step s as = some t → left t + as.countP p ≤ left s
  | [], s, t, _, _, h => by
    rw [run_nil, Option.some.injEq] at h
    rw [h, List.countP_nil, Nat.add_zero]
  | a :: as, s, t, hs, hG, h => by
    rw [run_cons, Option.bind_eq_some_iff] at h
    obtain ⟨u, hu, h⟩ := h
    have hone := hstep s a u hs (hG a List.mem_cons_self) hu
    have hrest := run_budget hI hstep as (hI s a u hs hu) (fun b hb => hG b (List.mem_cons_of_mem a hb)) h
    rw [List.countP_cons]
    omega

/-- **Mark rule**: what the label `a` establishes and every allowed step keeps holds after every run with `a` in it. -/
theorem run_mark {I J : σ → Prop} {G : σ → α → Prop} {a : α}
    (hI : ∀ s b t, I s → step s b = some t → I t)
    (hset : ∀ s t, I s → step s a = some t → J t)
    (hkeep : ∀ s b t, I s → J s → G s b → step s b = some t → J t) :
    ∀ (as : List α) {s t : σ}, a ∈ as → I s → Along step G s as → run step s as = some t → J t
  | b :: as, s, t, ha, hs, hG, h => by
    rw [run_cons, Option.bind_eq_some_iff] at h
    obtain ⟨u, hu, h⟩ := h
    obtain ⟨-, hrest⟩ := hG
    rw [hu] at hrest
    have hIu := hI s b u hs hu
    rcases List.mem_cons.mp ha with rfl | ha
    · refine (run_inv_along (I := fun s => I s ∧ J s) ?_ as ⟨hIu, hset s u hs hu⟩ hrest h).2
      exact fun s b t hs hg hstep => ⟨hI s b t hs.1 hstep, hkeep s b t hs.1 hs.2 hg hstep⟩
    · exact run_mark hI hset hkeep as ha hIu hrest h

/-- **Origin rule**: what only a label of `A` can bring about was there at the start or has such a label behind it. -/
theorem run_origin {I K : σ → Prop} {A : α → Prop}
    (hI : ∀ s a t, I s → step s a = some t → I t)
    (hstep : ∀ s a t, I s → step s a = some t → K t → K s ∨ A a) :
    ∀ (as : List α) {s t : σ}, I s → run step s as = some t → K t → K s ∨ ∃ a ∈ as, A a
  | [], s, t, _, h, hK => by
    rw [run_nil, Option.some.injEq] at h
    exact .inl (h ▸ hK)
  | a :: as, s, t, hs, h, hK => by
    rw [run_cons, Option.bind_eq_some_iff] at h
    obtain ⟨u, hu, h⟩ := h
    rcases run_origin hI hstep as (hI s a u hs hu) h hK with hKu | ⟨b, hb, hA⟩
    · rcases hstep s a u hs hu hKu with hKs | hA
      · exact .inl hKs
      · exact .inr ⟨a, List.mem_cons_self, hA⟩
    · exact .inr ⟨b, List.mem_cons_of_mem a hb, hA⟩

/-- **Lockstep rule**: two systems that are enabled together and stay related step by step do so run by run. -/
theorem run_lockstep {τ : Type*} {step' : τ → α → Option τ} {S : σ → τ → Prop}
    (h : ∀ s t a, S s t → Option.Rel S (step s a) (step' t a)) :
    ∀ (as : List α) {s : σ} {t : τ}, S s t → Option.Rel S (run step s as) (run step' t as)
  | [], _, _, hst => .some hst
  | a :: as, s, t, hst => by
    rw [run_cons, run_cons]
    have hrel := h s t a hst
    revert hrel
    generalize step s a = o
    generalize step' t a = o'
    intro hrel
    cases hrel with
    | some hst' => exact run_lockstep h as hst'
    | none => exact .none

/-- Two systems in lockstep agree on what their related states show alike. -/
theorem run_lockstep_map {τ γ : Type*} {step' : τ → α → Option τ} {S : σ → τ → Prop} {f : σ → γ} {g : τ → γ}
    (h : ∀ s t a, S s t → Option.Rel S (step s a) (step' t a)) (hfg : ∀ s t, S s t → f s = g t)
    (as : List α) {s : σ} {t : τ} (hst : S s t) : (run step s as).map f = (run step' t as).map g := by
  have hrel := run_lockstep h as hst
  revert hrel
  generalize run step s as = o
  generalize run step' t as = o'
  intro hrel
  cases hrel with
  | none => rfl
  | some hst' => exact congrArg some (hfg _ _ hst')

/-- **Refinement rule**: when every step is matched by a run of another system, so is every run. -/
theorem run_refines {τ β : Type*} {step' : τ → β → Option τ} {R : σ → τ → Prop}
    (h : ∀ s a t x, R s x → step s a = some t → ∃ bs y, run step' x bs = some y ∧ R t y) :
    ∀ (as : List α) {s t : σ} {x : τ}, R s x → run step s as = some t → ∃ bs y, run step' x bs = some y ∧ R t y
  | [], s, t, x, hx, hrun => by
    rw [run_nil, Option.some.injEq] at hrun
    exact ⟨[], x, rfl, hrun ▸ hx⟩
  | a :: as, s, t, x, hx, hrun => by
    rw [run_cons, Option.bind_eq_some_iff] at hrun
    obtain ⟨u, hu, hrun⟩ := hrun
    obtain ⟨bs, y, hbs, hy⟩ := h s a u x hx hu
    obtain ⟨bs', z, hbs', hz⟩ := run_refines h as hy hrun
    exact ⟨bs ++ bs', z, by rw [run_append, hbs]; exact hbs', hz⟩

/-- **Rank rule**: when every step lowers a rank, up to what its label may cost, the length of a run is bounded by the
rank it starts from and what its labels cost. -/
theorem run_length (rank : σ → ℕ) (cost : α → ℕ)
    (hstep : ∀ s a t, step s a = some t → rank t + 1 ≤ rank s + cost a) :
    ∀ (as : List α) {s t : σ}, run step s as = some t → as.length + rank t ≤ rank s + (as.map cost).sum
  | [], s, t, h => by
    rw [run_nil, Option.some.injEq] at h
    simp [h]
  | a :: as, s, t, h => by
    rw [run_cons, Option.bind_eq_some_iff] at h
    obtain ⟨u, hu, h⟩ := h
    have h1 := hstep s a u hu
    have h2 := run_length rank cost hstep as h
    rw [List.length_cons, List.map_cons, List.sum_cons]
    omega

end Condy.Lib
