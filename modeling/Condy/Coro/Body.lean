import Condy.Lib.Run

/-!
# Condy.Coro.Body — coroutine bodies and their meaning as plain code

A coroutine body is what its code does up to the next `co_await`, `co_spawn`, call of a `Task` or `co_return`, with the
rest as a function of what it gets there.  An `Event` is one of these, with what the body got.

The guide promises that awaiting a coroutine behaves like a function call and that awaiting a task gives the result of
its coroutine.  `Evals` is that promise, with no frames, handles or queues: `Evals h b tr (some o)` says that `b`, read as
plain code, does `tr`, one event after the other, and then returns or throws `o`; with `none`, that `tr` is what it does
to begin with.  `h` are the results of the tasks that have ended.  Which handles there are, and what senders complete
with, is not said here but in `Condy.Coro.Ledger`.
-/

namespace Condy.Coro

/-- What a body may throw: its own exceptions, `std::invalid_argument("Task not joinable")`, and
`std::logic_error("Sync wait inside runtime")`. -/
inductive Error (E : Type) where
  | user (e : E)
  | notJoinable
  | insideRuntime
deriving DecidableEq, Repr

/-- How a body ends. -/
abbrev Outcome (V E : Type) := Except (Error E) V

/-- The body of a coroutine.  A task is named by the number of its coroutine. -/
inductive Body (ι V E : Type) where
  | coReturn (v : V)
  | throw (e : Error E)
  /-- `co_await` of a coroutine.  Whether its exception is caught is up to `k`. -/
  | call (callee : Body ι V E) (k : Outcome V E → Body ι V E)
  /-- `co_await` of a sender. -/
  | sender (op : ℕ) (k : ℤ → Body ι V E)
  /-- `co_spawn` on a runtime; the body goes on with the task. -/
  | spawn (r : ι) (callee : Body ι V E) (k : ℕ → Body ι V E)
  /-- `co_await` of a task. -/
  | join (t : ℕ) (k : Outcome V E → Body ι V E)
  | detach (t : ℕ) (k : Body ι V E)
  /-- `wait()`, which throws in a coroutine. -/
  | wait (t : ℕ) (k : Outcome V E → Body ι V E)
  /-- The `Task` object goes out of scope. -/
  | drop (t : ℕ) (k : Body ι V E)
  /-- `co_switch` -/
  | switch (r : ι) (k : Body ι V E)

inductive Event (ι V E : Type) where
  | sender (op : ℕ) (res : ℤ)
  | spawn (t : ℕ) (body : Body ι V E)
  /-- `co_await` of a task that had its handle, and of one that had none. -/
  | join (t : ℕ)
  | refused (t : ℕ)
  | detach (t : ℕ)
  | wait (t : ℕ)

variable {ι V E : Type}

inductive Evals (h : List (ℕ × Outcome V E)) : Body ι V E → List (Event ι V E) → Option (Outcome V E) → Prop
  | begin (b : Body ι V E) : Evals h b [] none
  | coReturn (v : V) : Evals h (.coReturn v) [] (some (.ok v))
  | throw (e : Error E) : Evals h (.throw e) [] (some (.error e))
  | call {callee : Body ι V E} {k : Outcome V E → Body ι V E} {tr tr' : List (Event ι V E)} {o : Outcome V E}
      {o' : Option (Outcome V E)} :
      Evals h callee tr (some o) → Evals h (k o) tr' o' → Evals h (.call callee k) (tr ++ tr') o'
  | inCall {callee : Body ι V E} {k : Outcome V E → Body ι V E} {tr : List (Event ι V E)} :
      Evals h callee tr none → Evals h (.call callee k) tr none
  | sender {op : ℕ} {k : ℤ → Body ι V E} {res : ℤ} {tr : List (Event ι V E)} {o : Option (Outcome V E)} :
      Evals h (k res) tr o → Evals h (.sender op k) (.sender op res :: tr) o
  | spawn {r : ι} {callee : Body ι V E} {k : ℕ → Body ι V E} {t : ℕ} {tr : List (Event ι V E)}
      {o : Option (Outcome V E)} : Evals h (k t) tr o → Evals h (.spawn r callee k) (.spawn t callee :: tr) o
  | join {t : ℕ} {k : Outcome V E → Body ι V E} {tr : List (Event ι V E)} {o : Outcome V E}
      {o' : Option (Outcome V E)} : (t, o) ∈ h → Evals h (k o) tr o' → Evals h (.join t k) (.join t :: tr) o'
  | inJoin {t : ℕ} {k : Outcome V E → Body ι V E} : Evals h (.join t k) [.join t] none
  | refused {t : ℕ} {k : Outcome V E → Body ι V E} {tr : List (Event ι V E)} {o : Option (Outcome V E)} :
      Evals h (k (.error .notJoinable)) tr o → Evals h (.join t k) (.refused t :: tr) o
  | detach {t : ℕ} {k : Body ι V E} {tr : List (Event ι V E)} {o : Option (Outcome V E)} :
      Evals h k tr o → Evals h (.detach t k) (.detach t :: tr) o
  | wait {t : ℕ} {k : Outcome V E → Body ι V E} {tr : List (Event ι V E)} {o : Option (Outcome V E)} :
      Evals h (k (.error .insideRuntime)) tr o → Evals h (.wait t k) (.wait t :: tr) o
  | drop {t : ℕ} {k : Body ι V E} {tr : List (Event ι V E)} {o : Option (Outcome V E)} :
      Evals h k tr o → Evals h (.drop t k) tr o
  | switch {r : ι} {k : Body ι V E} {tr : List (Event ι V E)} {o : Option (Outcome V E)} :
      Evals h k tr o → Evals h (.switch r k) tr o

namespace Evals

variable {h h' : List (ℕ × Outcome V E)} {b : Body ι V E} {tr tr' : List (Event ι V E)} {o : Option (Outcome V E)}

/-- What holds of a body stays true as more tasks end. -/
theorem mono (hle : h ⊆ h') (he : Evals h b tr o) : Evals h' b tr o := by
  induction he with
  | begin b => exact .begin b
  | coReturn v => exact .coReturn v
  | throw e => exact .throw e
  | call _ _ ih ih' => exact .call ih ih'
  | inCall _ ih => exact .inCall ih
  | sender _ ih => exact .sender ih
  | spawn _ ih => exact .spawn ih
  | join ho _ ih => exact .join (hle ho) ih
  | inJoin => exact .inJoin
  | refused _ ih => exact .refused ih
  | detach _ ih => exact .detach ih
  | wait _ ih => exact .wait ih
  | drop _ ih => exact .drop ih
  | switch _ ih => exact .switch ih

/-- What a body does to its end it also does to begin with. -/
theorem begun (he : Evals h b tr o) : Evals h b tr none := by
  induction he with
  | begin b => exact .begin b
  | coReturn v => exact .begin _
  | throw e => exact .begin _
  | call hc _ _ ih' => exact .call hc ih'
  | inCall _ ih => exact .inCall ih
  | sender _ ih => exact .sender ih
  | spawn _ ih => exact .spawn ih
  | join ho _ ih => exact .join ho ih
  | inJoin => exact .inJoin
  | refused _ ih => exact .refused ih
  | detach _ ih => exact .detach ih
  | wait _ ih => exact .wait ih
  | drop _ ih => exact .drop ih
  | switch _ ih => exact .switch ih

/-- The events say how a body ends, and where.  The callee of a call stops at the same event in both. -/
theorem unique_end (hh : ∀ t o o', (t, o) ∈ h → (t, o') ∈ h → o = o') {w w' : List (Event ι V E)} {x y : Outcome V E}
    (he : Evals h b tr o) (ho : o = some x) (he' : Evals h b tr' (some y)) (hw : tr ++ w = tr' ++ w') :
    tr = tr' ∧ x = y := by
  induction he generalizing tr' w w' x y with
  | begin b => cases ho
  | coReturn v =>
    cases ho
    cases he'
    exact ⟨rfl, rfl⟩
  | throw e =>
    cases ho
    cases he'
    exact ⟨rfl, rfl⟩
  | inCall _ _ => cases ho
  | inJoin => cases ho
  | call _ _ ih ih' =>
    cases he' with
    | call h₁ h₂ =>
      rw [List.append_assoc, List.append_assoc] at hw
      obtain ⟨rfl, rfl⟩ := ih rfl h₁ hw
      obtain ⟨rfl, rfl⟩ := ih' ho h₂ (List.append_cancel_left hw)
      exact ⟨rfl, rfl⟩
  | sender _ ih =>
    cases he' with
    | sender h₁ =>
      obtain ⟨hev, hrest⟩ := List.cons.inj hw
      obtain ⟨-, rfl⟩ := Event.sender.inj hev
      obtain ⟨rfl, rfl⟩ := ih ho h₁ hrest
      exact ⟨rfl, rfl⟩
  | spawn _ ih =>
    cases he' with
    | spawn h₁ =>
      obtain ⟨hev, hrest⟩ := List.cons.inj hw
      obtain ⟨rfl, -⟩ := Event.spawn.inj hev
      obtain ⟨rfl, rfl⟩ := ih ho h₁ hrest
      exact ⟨rfl, rfl⟩
  | join hmem _ ih =>
    cases he' with
    | join hmem' h₁ =>
      obtain rfl := hh _ _ _ hmem hmem'
      obtain ⟨rfl, rfl⟩ := ih ho h₁ (List.cons.inj hw).2
      exact ⟨rfl, rfl⟩
    | refused h₁ => cases (List.cons.inj hw).1
  | refused _ ih =>
    cases he' with
    | join hmem' h₁ => cases (List.cons.inj hw).1
    | refused h₁ =>
      obtain ⟨rfl, rfl⟩ := ih ho h₁ (List.cons.inj hw).2
      exact ⟨rfl, rfl⟩
  | detach _ ih =>
    cases he' with
    | detach h₁ =>
      obtain ⟨rfl, rfl⟩ := ih ho h₁ (List.cons.inj hw).2
      exact ⟨rfl, rfl⟩
  | wait _ ih =>
    cases he' with
    | wait h₁ =>
      obtain ⟨rfl, rfl⟩ := ih ho h₁ (List.cons.inj hw).2
      exact ⟨rfl, rfl⟩
  | drop _ ih =>
    cases he' with
    | drop h₁ => exact ih ho h₁ hw
  | switch _ ih =>
    cases he' with
    | switch h₁ => exact ih ho h₁ hw

end Evals

/-! ## What is left of a body -/

/-- How the rest of a body may go on, given the results of tasks. -/
abbrev Rest (ι V E : Type) := List (ℕ × Outcome V E) → List (Event ι V E) → Option (Outcome V E) → Prop

/-- All of `b` is left. -/
def Body.rest (b : Body ι V E) : Rest ι V E := fun h => Evals h b

/-- The beginning of `b` is left: another body is at work until `b` has ended. -/
def Body.start (b : Body ι V E) : Rest ι V E := fun h tr o => o = none ∧ Evals h b tr none

/-- Having done `tr`, the body `b` has `rest` left to do; whatever else happens in the run. -/
def Leads (h : List (ℕ × Outcome V E)) (b : Body ι V E) (tr : List (Event ι V E)) (rest : Rest ι V E) : Prop :=
  ∀ h', h ⊆ h' → ∀ tr' o, rest h' tr' o → Evals h' b (tr ++ tr') o

namespace Leads

variable {h h' : List (ℕ × Outcome V E)} {b b' : Body ι V E} {tr tr' : List (Event ι V E)} {rest : Rest ι V E}

theorem refl (h : List (ℕ × Outcome V E)) (b : Body ι V E) : Leads h b [] b.rest := fun _ _ _ _ he => he

theorem mono (hle : h ⊆ h') (hl : Leads h b tr rest) : Leads h' b tr rest := fun _ hle' => hl _ (List.Subset.trans hle hle')

theorem trans (h₁ : Leads h b tr b'.rest) (h₂ : Leads h b' tr' rest) : Leads h b (tr ++ tr') rest := by
  intro h' hle tr'' o he
  rw [List.append_assoc]
  exact h₁ h' hle _ _ (h₂ h' hle _ _ he)

/-- A body that calls another one is at the beginning of that one. -/
theorem call {callee : Body ι V E} {k : Outcome V E → Body ι V E} {pre : List (Event ι V E)}
    (h₁ : Leads h b pre b'.start) (h₂ : Leads h b' tr (Body.call callee k).rest) : Leads h b (pre ++ tr) callee.start := by
  rintro h' hle tr'' o ⟨rfl, he⟩
  rw [List.append_assoc]
  exact h₁ h' hle _ _ ⟨rfl, h₂ h' hle _ _ (.inCall he)⟩

end Leads

end Condy.Coro
