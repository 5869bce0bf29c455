import Condy.Coro.Body
import Condy.Lib.Run
import Mathlib.Logic.Function.Basic

/-!
# Condy.Coro.Ledger — the handles of tasks and the answers of senders

What coroutines, threads outside and senders do to each other, in the order in which it happens, is a list of entries.  A
`Ledger` replays it with no frames, queues or threads: a task is spawned under a number of its own, its handle is given
away once, a `co_await` is refused only where the handle is gone, a handle is lost only in a `wait()` on the thread of a
runtime, and a coroutine gets from a sender what the sender has completed with.  A list of entries that is no run of the
ledger is one that the library must not produce.
-/

namespace Condy.Coro

inductive Entry (ι V E : Type) where
  /-- Of a coroutine of the task `t`, which may be one that it called. -/
  | body (t : ℕ) (e : Event ι V E)
  /-- Of a thread that runs no runtime. -/
  | outside (e : Event ι V E)
  /-- The sender `op`, which a coroutine of the task `t` awaits, completes. -/
  | answer (t op : ℕ) (res : ℤ)

variable {ι V E : Type}

/-- Done to the coroutines, not by them. -/
def Entry.isGiven : Entry ι V E → Bool
  | .body _ _ => false
  | .outside _ | .answer _ _ _ => true

def Entry.eventOf (t : ℕ) : Entry ι V E → Option (Event ι V E)
  | .body u e => if u = t then some e else none
  | .outside _ | .answer _ _ _ => none

structure Ledger (ι V E : Type) where
  spawned : List (ℕ × Body ι V E)
  /-- The tasks that hold their handle, and those whose handle nobody holds any more. -/
  held : List ℕ
  lost : List ℕ
  /-- What was completed for a task, and not yet taken by its coroutine. -/
  answers : ℕ → Option (ℕ × ℤ)

namespace Ledger

def empty : Ledger ι V E := ⟨[], [], [], fun _ => none⟩

def Knows (l : Ledger ι V E) (t : ℕ) : Prop := t ∈ l.spawned.map Prod.fst

instance (l : Ledger ι V E) (t : ℕ) : Decidable (l.Knows t) := inferInstanceAs (Decidable (t ∈ l.spawned.map Prod.fst))

def take (l : Ledger ι V E) (t : ℕ) : Ledger ι V E := { l with held := l.held.erase t }

/-- `co_spawn` and the members of `Task`, on any thread. -/
def call (l : Ledger ι V E) : Event ι V E → Option (Ledger ι V E)
  | .spawn t b => if l.Knows t then none else some { l with spawned := l.spawned ++ [(t, b)], held := l.held ++ [t] }
  | .join t | .detach t => if t ∈ l.held then some (l.take t) else none
  | .refused t => if l.Knows t ∧ t ∉ l.held then some l else none
  | .wait t => if t ∈ l.held then some (l.take t) else if l.Knows t then some l else none
  | .sender _ _ => none

/-- The handle that a call in a coroutine loses. -/
def loses (l : Ledger ι V E) : Event ι V E → List ℕ
  | .wait t => if t ∈ l.held then [t] else []
  | _ => []

def step (l : Ledger ι V E) : Entry ι V E → Option (Ledger ι V E)
  | .outside e => l.call e
  | .answer t op res =>
    if l.Knows t ∧ l.answers t = none then
      some { l with answers := Function.update l.answers t (some (op, res)) }
    else none
  | .body t (.sender op res) =>
    if l.answers t = some (op, res) then some { l with answers := Function.update l.answers t none } else none
  | .body t e =>
    if l.Knows t then (l.call e).map fun l' => { l' with lost := l.lost ++ l.loses e } else none

/-- A `wait()` outside of the coroutines found the handle of `t` gone. -/
def Refuses (log : List (Entry ι V E)) (t : ℕ) : Prop :=
  ∃ pre post l, log = pre ++ .outside (.wait t) :: post ∧ Lib.run step empty pre = some l ∧ t ∉ l.held

theorem Refuses.append {log : List (Entry ι V E)} {t : ℕ} (h : Refuses log t) (es : List (Entry ι V E)) :
    Refuses (log ++ es) t := by
  obtain ⟨pre, post, l, rfl, hrun, ht⟩ := h
  exact ⟨pre, post ++ es, l, by simp, hrun, ht⟩

variable {l l' : Ledger ι V E} {t : ℕ} {e : Event ι V E}

theorem call_lost (hc : l.call e = some l') : l'.lost = l.lost := by
  cases e <;> simp only [call] at hc
  case sender => cases hc
  all_goals
    split_ifs at hc <;>
    · obtain rfl := Option.some.inj hc
      rfl

/-- A call that loses no handle does in a coroutine what it does on another thread. -/
theorem step_body (hk : l.Knows t) (hc : l.call e = some l') (hl : l.loses e = []) : l.step (.body t e) = some l' := by
  have hstep : l.step (.body t e) = (l.call e).map fun l' => { l' with lost := l.lost ++ l.loses e } := by
    cases e with
    | sender op res => cases hc
    | _ => exact if_pos hk
  rw [hstep, hc, hl, List.append_nil, ← call_lost hc]
  rfl

/-- A sender that completes while its coroutine runs leaves no trace. -/
theorem run_answered (hk : l.Knows t) (hn : l.answers t = none) (op : ℕ) (res : ℤ) :
    Lib.run step l [.answer t op res, .body t (.sender op res)] = some l := by
  have hans : Function.update (Function.update l.answers t (some (op, res))) t none = l.answers := by
    rw [Function.update_idem, ← hn, Function.update_eq_self]
  simp [Lib.run, step, hk, hn, hans]

theorem step_lost {x : Entry ι V E} (hs : l.step x = some l') :
    l'.lost = l.lost ∨ ∃ u t, x = .body u (.wait t) ∧ l'.lost = l.lost ++ [t] := by
  cases x with
  | outside e => exact .inl (call_lost hs)
  | answer t op res =>
    simp only [step] at hs
    split_ifs at hs
    obtain rfl := Option.some.inj hs
    exact .inl rfl
  | body u e =>
    cases e with
    | sender op res =>
      simp only [step] at hs
      split_ifs at hs
      obtain rfl := Option.some.inj hs
      exact .inl rfl
    | wait t =>
      simp only [step] at hs
      split_ifs at hs
      obtain ⟨l₁, -, rfl⟩ := Option.map_eq_some_iff.mp hs
      by_cases ht : t ∈ l.held
      · exact .inr ⟨u, t, rfl, by simp [loses, ht]⟩
      · exact .inl (by simp [loses, ht])
    | _ =>
      simp only [step] at hs
      split_ifs at hs
      obtain ⟨l₁, -, rfl⟩ := Option.map_eq_some_iff.mp hs
      exact .inl (List.append_nil _)

/-- A handle is lost in a `wait()` of a coroutine only. -/
theorem lost_wait {log : List (Entry ι V E)} (hrun : Lib.run step empty log = some l) :
    ∀ t ∈ l.lost, ∃ u, .body u (.wait t) ∈ log := by
  refine Lib.run_inv_along (I := fun l => ∀ t ∈ l.lost, ∃ u, .body u (.wait t) ∈ log) (G := fun _ x => x ∈ log)
    (fun l₁ x l₂ hl hx hs t ht => ?_) log (by simp [empty]) (Lib.along_of_forall log _ fun x hx _ => hx) hrun
  rcases step_lost hs with hsame | ⟨u, t', rfl, hlost⟩
  · exact hl t (hsame ▸ ht)
  · rw [hlost, List.mem_append, List.mem_singleton] at ht
    rcases ht with ht | rfl
    · exact hl t ht
    · exact ⟨u, hx⟩

end Ledger

end Condy.Coro
