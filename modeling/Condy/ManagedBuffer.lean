import Condy.Lib.Tickets
import Mathlib.Data.List.Perm.Basic

/-!
# Condy.ManagedBuffer — the move-only buffers of `detail/buffers.hpp`

A `ManagedBuffer` returns its buffer to the pool when it is reset, destroyed or assigned to, unless it was moved from
before.  `step` is what the program may do with the objects that are alive; it gives the objects after it and the object
whose `reset()` ran, for the pool to take back.  Whatever the order, a buffer that an object owns is owned by one object
after it or was given back (`step_owned`).
-/

namespace Condy.ManagedBuffer

open Lib

variable {β : Type*}

/-- The objects are named by their places in the list of those alive. -/
inductive Op where
  | construct
  | moveConstruct (j : ℕ)
  | moveAssign (i j : ℕ)
  | reset (j : ℕ)
  | destroy (j : ℕ)
deriving DecidableEq, Repr

/-- The objects after an operation and the value that `reset()` found; `none`: there is no such object. -/
def step (empty : β) (objs : List β) : Op → Option (List β × Option β)
  | .construct => some (objs ++ [empty], none)
  | .moveConstruct j => (objs[j]?).map fun b => (objs.set j empty ++ [b], none)
  | .moveAssign i j =>
    if i = j then (objs[i]?).map fun _ => (objs, none) else
    (objs[i]?).bind fun a => (objs[j]?).map fun b => ((objs.set i b).set j empty, some a)
  | .reset j => (objs[j]?).map fun b => (objs.set j empty, some b)
  | .destroy j => (objs[j]?).map fun b => (objs.eraseIdx j, some b)

section Owned

variable (own : β → Bool) {empty a b : β} {objs objs' : List β} {given : Option β} {i j : ℕ}

/-- A value is replaced by another one. -/
theorem set_owned (h : objs[i]? = some a) (b : β) :
    (objs.filter own ++ [b].filter own).Perm ((objs.set i b).filter own ++ [a].filter own) := by
  obtain ⟨as, bs, rfl, -, rfl⟩ := split_getElem? h
  rw [List.set_append_right _ _ (Nat.le_refl _), Nat.sub_self, List.set_cons_zero, ← List.filter_append, ← List.filter_append]
  refine List.Perm.filter own ?_
  rw [List.append_assoc, List.append_assoc]
  refine List.Perm.append_left as ?_
  rw [List.cons_append, List.cons_append]
  refine (List.perm_append_singleton b _).cons a |>.trans ?_
  exact (List.Perm.swap b a bs).trans (((List.perm_append_singleton a bs).symm).cons b)

theorem set_empty_owned (he : own empty = false) (h : objs[j]? = some b) :
    (objs.filter own).Perm ((objs.set j empty).filter own ++ [b].filter own) := by
  simpa [he] using set_owned own h empty

/-- **Owned values are conserved**: each is owned after the step or was given back. -/
theorem step_owned (he : own empty = false) (op : Op) (h : step empty objs op = some (objs', given)) :
    (objs.filter own).Perm (objs'.filter own ++ given.toList.filter own) := by
  cases op with
  | construct =>
    obtain ⟨rfl, rfl⟩ := Prod.mk.inj (Option.some.inj h)
    simp [he]
  | moveConstruct j =>
    obtain ⟨b, hb, he'⟩ := Option.map_eq_some_iff.mp h
    obtain ⟨rfl, rfl⟩ := Prod.mk.inj he'
    rw [List.filter_append, Option.toList_none, List.filter_nil, List.append_nil]
    exact set_empty_owned own he hb
  | moveAssign i j =>
    by_cases hij : i = j
    · rw [step, if_pos hij] at h
      obtain ⟨_, -, he'⟩ := Option.map_eq_some_iff.mp h
      obtain ⟨rfl, rfl⟩ := Prod.mk.inj he'
      simp
    · rw [step, if_neg hij] at h
      obtain ⟨a, ha, h⟩ := Option.bind_eq_some_iff.mp h
      obtain ⟨b, hb, he'⟩ := Option.map_eq_some_iff.mp h
      obtain ⟨rfl, rfl⟩ := Prod.mk.inj he'
      -- `b` comes to `i` for `a`, and then leaves `j`
      have hset := set_owned own ha b
      have hj : (objs.set i b)[j]? = some b := by
        rw [List.getElem?_set_ne hij]
        exact hb
      have hclear := set_empty_owned own he hj
      refine (List.perm_append_right_iff ([b].filter own)).mp ?_
      refine hset.trans ((hclear.append_right _).trans ?_)
      rw [List.append_assoc, List.append_assoc]
      exact List.Perm.append_left _ List.perm_append_comm
  | reset j =>
    obtain ⟨b, hb, he'⟩ := Option.map_eq_some_iff.mp h
    obtain ⟨rfl, rfl⟩ := Prod.mk.inj he'
    exact set_empty_owned own he hb
  | destroy j =>
    obtain ⟨b, hb, he'⟩ := Option.map_eq_some_iff.mp h
    obtain ⟨rfl, rfl⟩ := Prod.mk.inj he'
    obtain ⟨as, bs, rfl, herase, -⟩ := split_getElem? hb
    rw [herase, Option.toList_some, ← List.filter_append]
    refine List.Perm.filter own ?_
    rw [List.append_assoc]
    exact List.Perm.append_left as (List.perm_append_singleton b bs).symm

/-- No object holds a value that was not there before, and neither does the one that is given back. -/
theorem step_mem (op : Op) (h : step empty objs op = some (objs', given)) :
    (∀ x ∈ objs', x ∈ objs ∨ x = empty) ∧ ∀ x ∈ given, x ∈ objs := by
  have hset : ∀ {l : List β} {j : ℕ} {b x : β}, x ∈ l.set j b → x ∈ l ∨ x = b := fun hx => List.mem_or_eq_of_mem_set hx
  cases op with
  | construct =>
    obtain ⟨rfl, rfl⟩ := Prod.mk.inj (Option.some.inj h)
    exact ⟨fun x hx => by simpa using hx, fun _ hx => nomatch hx⟩
  | moveConstruct j =>
    obtain ⟨b, hb, he⟩ := Option.map_eq_some_iff.mp h
    obtain ⟨rfl, rfl⟩ := Prod.mk.inj he
    refine ⟨fun x hx => ?_, fun _ hx => nomatch hx⟩
    rcases List.mem_append.mp hx with hx | hx
    · exact hset hx
    · exact .inl (List.mem_singleton.mp hx ▸ List.mem_of_getElem? hb)
  | moveAssign i j =>
    by_cases hij : i = j
    · rw [step, if_pos hij] at h
      obtain ⟨_, -, he⟩ := Option.map_eq_some_iff.mp h
      obtain ⟨rfl, rfl⟩ := Prod.mk.inj he
      exact ⟨fun x hx => .inl hx, fun _ hx => nomatch hx⟩
    · rw [step, if_neg hij] at h
      obtain ⟨a, ha, h⟩ := Option.bind_eq_some_iff.mp h
      obtain ⟨b, hb, he⟩ := Option.map_eq_some_iff.mp h
      obtain ⟨rfl, rfl⟩ := Prod.mk.inj he
      refine ⟨fun x hx => ?_, fun x hx => Option.some.inj hx ▸ List.mem_of_getElem? ha⟩
      rcases hset hx with hx | hx
      · rcases hset hx with hx | rfl
        · exact .inl hx
        · exact .inl (List.mem_of_getElem? hb)
      · exact .inr hx
  | reset j =>
    obtain ⟨b, hb, he⟩ := Option.map_eq_some_iff.mp h
    obtain ⟨rfl, rfl⟩ := Prod.mk.inj he
    exact ⟨fun x hx => hset hx, fun x hx => Option.some.inj hx ▸ List.mem_of_getElem? hb⟩
  | destroy j =>
    obtain ⟨b, hb, he⟩ := Option.map_eq_some_iff.mp h
    obtain ⟨rfl, rfl⟩ := Prod.mk.inj he
    exact ⟨fun x hx => .inl (List.mem_of_mem_eraseIdx hx), fun x hx => Option.some.inj hx ▸ List.mem_of_getElem? hb⟩

end Owned

end Condy.ManagedBuffer
