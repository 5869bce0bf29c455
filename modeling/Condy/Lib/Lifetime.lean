import Mathlib.Data.List.Chain

/-!
# Condy.Lib.Lifetime — objects made and ended by hand in raw storage

A cell of raw storage holds an object from a `construct` to the next `destroy`, and nothing checks that the program
keeps to that.  `Access` is one access, `legal inside live as` says that every access of the trace `as` is to a cell
of the storage and meets it in the right state, and `liveAfter live as` is the set of cells that hold an object at the
end.  `lifetime k as` reads off what happened to one cell: `true` for each `construct`, `false` for each `destroy`.
In a legal trace the two take turns (`lifetime_alternates`).
-/

namespace Condy.Lib

variable {κ : Type*}

/-- One access to a cell of the storage. -/
inductive Access (κ : Type*) where
  | construct (k : κ)
  | get (k : κ)
  | destroy (k : κ)
  deriving DecidableEq

namespace Access

def cell : Access κ → κ
  | .construct k => k
  | .get k => k
  | .destroy k => k

/-- The access is to a cell of the storage; `construct` meets one without an object, the others one with an object. -/
def ok (inside live : κ → Bool) : Access κ → Bool
  | .construct k => inside k && !live k
  | .get k => inside k && live k
  | .destroy k => inside k && live k

theorem ok_inside {inside live : κ → Bool} {a : Access κ} (h : a.ok inside live = true) : inside a.cell = true := by
  cases a <;> exact (Bool.and_eq_true_iff.mp h).1

variable [DecidableEq κ]

/-- What the access makes of the cell `k`: live, dead, or what it was. -/
def sets (k : κ) : Access κ → Option Bool
  | .construct k' => if k' = k then some true else none
  | .get _ => none
  | .destroy k' => if k' = k then some false else none

/-- The live cells after the access. -/
def after (live : κ → Bool) (a : Access κ) : κ → Bool := fun k => (a.sets k).getD (live k)

@[simp] theorem after_get (live : κ → Bool) (k : κ) : (Access.get k).after live = live := rfl

/-- A right access changes the state of the cell it sets. -/
theorem ok_sets {inside live : κ → Bool} {a : Access κ} {k : κ} {b : Bool} (h : a.ok inside live = true)
    (hb : a.sets k = some b) : live k ≠ b := by
  cases a with
  | construct k' =>
    obtain ⟨rfl, hs⟩ := Option.ite_none_right_eq_some.mp hb
    obtain rfl := Option.some.inj hs
    obtain ⟨-, hdead⟩ := Bool.and_eq_true_iff.mp h
    simpa using hdead
  | get => exact nomatch hb
  | destroy k' =>
    obtain ⟨rfl, hs⟩ := Option.ite_none_right_eq_some.mp hb
    obtain rfl := Option.some.inj hs
    obtain ⟨-, hlive⟩ := Bool.and_eq_true_iff.mp h
    simpa using hlive

end Access

/-- Every access of the trace is right, in the state that those before it leave. -/
def legal [DecidableEq κ] (inside live : κ → Bool) : List (Access κ) → Bool
  | [] => true
  | a :: as => a.ok inside live && legal inside (a.after live) as

section

variable [DecidableEq κ]

/-- The live cells after the trace. -/
def liveAfter (live : κ → Bool) (as : List (Access κ)) : κ → Bool := as.foldl Access.after live

/-- What happened to one cell: `true` is a `construct`, `false` a `destroy`. -/
def lifetime (k : κ) (as : List (Access κ)) : List Bool := as.filterMap (Access.sets k)

variable {inside live : κ → Bool} {a : Access κ} {as bs : List (Access κ)} {k : κ}

@[simp] theorem liveAfter_nil : liveAfter live [] = live := rfl

@[simp] theorem liveAfter_cons : liveAfter live (a :: as) = liveAfter (a.after live) as := rfl

theorem liveAfter_append : liveAfter live (as ++ bs) = liveAfter (liveAfter live as) bs := List.foldl_append

@[simp] theorem legal_nil : legal inside live [] = true := rfl

@[simp] theorem legal_cons : legal inside live (a :: as) = (a.ok inside live && legal inside (a.after live) as) := rfl

theorem legal_append : legal inside live (as ++ bs) =
    (legal inside live as && legal inside (liveAfter live as) bs) := by
  induction as generalizing live with
  | nil => rfl
  | cons a as ih => simp only [List.cons_append, legal_cons, liveAfter_cons, ih, Bool.and_assoc]

theorem legal_inside (h : legal inside live as = true) : ∀ a ∈ as, inside a.cell = true := by
  induction as generalizing live with
  | nil => simp
  | cons a as ih =>
    obtain ⟨ha, has⟩ := Bool.and_eq_true_iff.mp h
    intro b hb
    rcases List.mem_cons.mp hb with rfl | hb
    · exact Access.ok_inside ha
    · exact ih has b hb

/-- **The lifetimes of a cell are apart**: in a legal trace `construct` and `destroy` take turns, and the first of
them fits the state at the start. -/
theorem lifetime_alternates (h : legal inside live as = true) (k : κ) :
    (live k :: lifetime k as).IsChain (· ≠ ·) := by
  induction as generalizing live with
  | nil => exact List.isChain_singleton _
  | cons a as ih =>
    obtain ⟨ha, has⟩ := Bool.and_eq_true_iff.mp h
    have hrest := ih has
    unfold Access.after at hrest
    cases hb : a.sets k with
    | none =>
      rw [hb, Option.getD_none] at hrest
      rwa [lifetime, List.filterMap_cons_none hb]
    | some b =>
      rw [hb, Option.getD_some] at hrest
      rw [lifetime, List.filterMap_cons_some hb]
      exact hrest.cons_cons (Access.ok_sets ha hb)

/-- A cell is live when the last thing that happened to it is a `construct`. -/
theorem liveAfter_eq (as : List (Access κ)) (live : κ → Bool) (k : κ) :
    liveAfter live as k = (lifetime k as).getLastD (live k) := by
  induction as generalizing live with
  | nil => rfl
  | cons a as ih =>
    rw [liveAfter_cons, ih, Access.after]
    cases hb : a.sets k with
    | none => rw [lifetime, lifetime, List.filterMap_cons_none hb, Option.getD_none]
    | some b => rw [lifetime, lifetime, List.filterMap_cons_some hb, Option.getD_some, List.getLastD_cons]

end

end Condy.Lib
