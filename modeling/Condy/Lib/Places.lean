import Mathlib.Data.List.Basic
import Mathlib.Data.List.Count
import Mathlib.Data.List.Perm.Basic
import Mathlib.Tactic.Common
import Mathlib.Tactic.SplitIfs

/-!
# Condy.Lib.Places — things that are in one place at a time

A family of lists `c p`, one for each place, may hold things of type `W`.  `Located c loc` says that a thing is held
once by the place `loc` gives it, and by no other.  `Tracked c ins outs` adds the history: `ins` are the things that came
in and `outs` those that left, in order, and a thing that came back counts again.  The rules are for steps that carry
some things from one place to another, one thing in, or one out.

`Routed` is `Tracked` for things that carry where they go.
-/

namespace Condy.Lib

variable {P W : Type*} [DecidableEq P] [DecidableEq W]

def Located (c : P → List W) (loc : W → Option P) : Prop := ∀ p w, (c p).count w = if loc w = some p then 1 else 0

namespace Located

variable {c c' : P → List W} {loc : W → Option P} {p q : P} {l : List W} {w : W}

theorem mem_iff (h : Located c loc) : w ∈ c p ↔ loc w = some p := by
  rw [← List.count_pos_iff, h p w]
  split_ifs with hl <;> simp [hl]

/-- A place holds a thing once. -/
theorem notMem_rest (h : Located c loc) (hp : (c p).Perm (w :: l)) : w ∉ l := by
  intro hw
  have hcount := h p w
  rw [hp.count_eq, List.count_cons_self] at hcount
  have := List.count_pos_iff.mpr hw
  split_ifs at hcount
  omega

/-- What `l` is taken from held each of `l` once. -/
theorem count_part (h : Located c loc) (hp : (c p).Perm (l ++ c' p)) (w : W) :
    (if loc w = some p then 1 else 0) = l.count w + (c' p).count w := by
  rw [← h p w, hp.count_eq, List.count_append]

/-- Some things go from `p` to `q`. -/
theorem move (h : Located c loc) (hpq : p ≠ q) (hp : (c p).Perm (l ++ c' p)) (hq : (c' q).Perm (c q ++ l))
    (ho : ∀ o, o ≠ p → o ≠ q → c' o = c o) : Located c' fun w => if w ∈ l then some q else loc w := by
  intro o w
  beta_reduce
  have hw := h.count_part hp w
  by_cases hm : w ∈ l
  · have hpos := List.count_pos_iff.mpr hm
    have hl : loc w = some p := h.mem_iff.mp (hp.symm.subset (List.mem_append_left _ hm))
    rw [if_pos hl] at hw
    rw [if_pos hm]
    by_cases hoq : o = q
    · rw [hoq, hq.count_eq, List.count_append, h q w, hl, if_neg (fun he => hpq (Option.some.inj he)), if_pos rfl]
      omega
    · rw [if_neg (fun he => hoq (Option.some.inj he).symm)]
      by_cases hop : o = p
      · rw [hop]
        omega
      · rw [ho o hop hoq, h o w, hl, if_neg (fun he => hop (Option.some.inj he).symm)]
  · have hz := List.count_eq_zero.mpr hm
    rw [if_neg hm]
    by_cases hop : o = p
    · rw [hop]
      omega
    · by_cases hoq : o = q
      · rw [hoq, hq.count_eq, List.count_append, h q w]
        omega
      · rw [ho o hop hoq, h o w]

/-- One thing leaves. -/
theorem leave (h : Located c loc) (hp : (c p).Perm (w :: c' p)) (ho : ∀ o, o ≠ p → c' o = c o) :
    Located c' (Function.update loc w none) := by
  intro o v
  have hl : loc w = some p := h.mem_iff.mp (hp.symm.subset List.mem_cons_self)
  have hv := h.count_part (l := [w]) hp v
  rw [List.count_singleton] at hv
  rcases eq_or_ne v w with rfl | hne
  · rw [Function.update_self, if_neg (by simp)]
    by_cases hop : o = p
    · rw [if_pos hl] at hv
      simp only [beq_self_eq_true, if_true] at hv
      rw [hop]
      omega
    · rw [ho o hop, h o v, hl, if_neg (fun he => hop (Option.some.inj he).symm)]
  · rw [Function.update_of_ne hne]
    by_cases hop : o = p
    · rw [hop, hv, if_neg (by simpa using Ne.symm hne), Nat.zero_add]
    · rw [ho o hop, h o v]

/-- Something that was nowhere comes to `q`. -/
theorem enter (h : Located c loc) (hl : loc w = none) (hq : (c' q).Perm (c q ++ [w]))
    (ho : ∀ o, o ≠ q → c' o = c o) : Located c' (Function.update loc w (some q)) := by
  intro o v
  have hcount : (c' q).count v = (if loc v = some q then 1 else 0) + if w = v then 1 else 0 := by
    rw [hq.count_eq, List.count_append, h q v, List.count_singleton]
    simp
  rcases eq_or_ne v w with rfl | hv
  · rw [Function.update_self]
    by_cases hoq : o = q
    · rw [hoq, hcount, hl]
      simp
    · rw [ho o hoq, h o v, hl, if_neg (by simp), if_neg (fun he => hoq (Option.some.inj he).symm)]
  · rw [Function.update_of_ne hv]
    by_cases hoq : o = q
    · rw [hoq, hcount, if_neg (Ne.symm hv), Nat.add_zero]
    · rw [ho o hoq, h o v]

section

variable {loc' : W → Option P} {v : W}

theorem congr_perm (h : Located c loc) (hc : ∀ p, (c' p).Perm (c p)) (hl : ∀ w, loc' w = loc w) : Located c' loc' := by
  intro p w
  rw [(hc p).count_eq, hl]
  exact h p w

theorem congr (h : Located c loc) (hc : ∀ p, c' p = c p) (hl : ∀ w, loc' w = loc w) : Located c' loc' :=
  h.congr_perm (fun p => by rw [hc]) hl

/-- One thing goes from `p` to `q`; the others stay where they are. -/
theorem move_one (h : Located c loc) (hpq : p ≠ q) (hp : (c p).Perm (w :: c' p)) (hq : (c' q).Perm (c q ++ [w]))
    (ho : ∀ o, o ≠ p → o ≠ q → c' o = c o) (hw : loc' w = some q) (hv : ∀ v, v ≠ w → loc' v = loc v) :
    Located c' loc' := by
  have hloc : loc' = fun v => if v ∈ [w] then some q else loc v := by
    funext v
    by_cases hvw : v = w
    · simp [hvw, hw]
    · simp [hvw, hv v hvw]
  exact hloc ▸ h.move hpq hp hq ho

/-- One thing leaves; the others stay where they are. -/
theorem leave_one (h : Located c loc) (hp : (c p).Perm (w :: c' p)) (ho : ∀ o, o ≠ p → c' o = c o)
    (hw : loc' w = none) (hv : ∀ v, v ≠ w → loc' v = loc v) : Located c' loc' := by
  have hloc : loc' = Function.update loc w none := Function.eq_update_iff.mpr ⟨hw, hv⟩
  exact hloc ▸ h.leave hp ho

/-- Something that was nowhere comes; the others stay where they are. -/
theorem enter_one (h : Located c loc) (hl : loc w = none) (hq : (c' q).Perm (c q ++ [w]))
    (ho : ∀ o, o ≠ q → c' o = c o) (hw : loc' w = some q) (hv : ∀ v, v ≠ w → loc' v = loc v) : Located c' loc' := by
  have hloc : loc' = Function.update loc w (some q) := Function.eq_update_iff.mpr ⟨hw, hv⟩
  exact hloc ▸ h.enter hl hq ho

/-- At one place a thing makes room for another that was nowhere. -/
theorem replace (h : Located c loc) (hp : c p = [w]) (hp' : c' p = [v]) (ho : ∀ o, o ≠ p → c' o = c o)
    (hvw : v ≠ w) (hl : loc v = none) (hw : loc' w = none) (hv : loc' v = some p)
    (hu : ∀ u, u ≠ w → u ≠ v → loc' u = loc u) : Located c' loc' := by
  have hleft : Located (Function.update c p []) (Function.update loc w none) := by
    refine h.leave (p := p) ?_ fun o hop => Function.update_of_ne hop _ _
    rw [hp, Function.update_self]
  refine hleft.enter_one (q := p) ?_ ?_ (fun o hop => ?_) hv fun u huv => ?_
  · rw [Function.update_of_ne hvw, hl]
  · rw [hp', Function.update_self, List.nil_append]
  · rw [Function.update_of_ne hop, ho o hop]
  · rcases eq_or_ne u w with rfl | huw
    · rw [Function.update_self, hw]
    · rw [Function.update_of_ne huw, hu u huw huv]

end

end Located

/-- Every thing is in one place as often as it came in and has not left, which is at most once. -/
def Tracked (c : P → List W) (ins outs : List W) : Prop :=
  ∃ loc, Located c loc ∧ ∀ w, ins.count w = outs.count w + if loc w = none then 0 else 1

namespace Tracked

variable {c c' : P → List W} {ins outs : List W} {p q : P} {l : List W} {w : W}

theorem nil (hc : ∀ p, c p = []) : Tracked c [] [] :=
  ⟨fun _ => none, fun p w => by simp [hc p], fun w => by simp⟩

theorem one (h : Tracked c ins outs) (w : W) : (outs.count w = ins.count w ∧ ∀ p, w ∉ c p) ∨
    (outs.count w + 1 = ins.count w ∧ ∃ p, (c p).count w = 1 ∧ ∀ q, q ≠ p → w ∉ c q) := by
  obtain ⟨loc, hloc, hcount⟩ := h
  have hw := hcount w
  cases hl : loc w with
  | none =>
    rw [if_pos hl] at hw
    exact .inl ⟨hw.symm, fun p hp => by simp [hloc.mem_iff.mp hp] at hl⟩
  | some p =>
    rw [if_neg (by simp [hl])] at hw
    refine .inr ⟨hw.symm, p, by rw [hloc p w, if_pos hl], fun q hq hm => hq ?_⟩
    exact Option.some.inj ((hloc.mem_iff.mp hm).symm.trans hl)

/-- What has left as often as it came in is nowhere. -/
theorem not_mem (h : Tracked c ins outs) (hw : ins.count w = outs.count w) (p : P) : w ∉ c p := by
  rcases h.one w with ⟨-, h⟩ | ⟨h, -⟩
  · exact h p
  · omega

theorem unique (h : Tracked c ins outs) (hp : w ∈ c p) (hq : w ∈ c q) : p = q := by
  obtain ⟨loc, hloc, -⟩ := h
  exact Option.some.inj ((hloc.mem_iff.mp hp).symm.trans (hloc.mem_iff.mp hq))

theorem move (h : Tracked c ins outs) (hpq : p ≠ q) (hp : (c p).Perm (l ++ c' p)) (hq : (c' q).Perm (c q ++ l))
    (ho : ∀ o, o ≠ p → o ≠ q → c' o = c o) : Tracked c' ins outs := by
  obtain ⟨loc, hloc, hcount⟩ := h
  refine ⟨_, hloc.move hpq hp hq ho, fun w => ?_⟩
  have hw := hcount w
  by_cases hm : w ∈ l
  · have hl : loc w = some p := hloc.mem_iff.mp (hp.symm.subset (List.mem_append_left _ hm))
    rw [if_neg (by simp [hl])] at hw
    rw [if_neg (by simp [hm]), hw]
  · simpa [hm] using hw

theorem enter (h : Tracked c ins outs) (hw : ins.count w = outs.count w) (hq : (c' q).Perm (c q ++ [w]))
    (ho : ∀ o, o ≠ q → c' o = c o) : Tracked c' (ins ++ [w]) outs := by
  obtain ⟨loc, hloc, hcount⟩ := h
  have hl : loc w = none := by
    by_contra hl
    have h1 := hcount w
    rw [if_neg hl] at h1
    omega
  refine ⟨_, hloc.enter hl hq ho, fun v => ?_⟩
  rw [List.count_append, List.count_singleton]
  rcases eq_or_ne v w with rfl | hv
  · simp [hw]
  · rw [Function.update_of_ne hv, hcount v]
    simp [Ne.symm hv]

theorem leave (h : Tracked c ins outs) (hp : (c p).Perm (w :: c' p)) (ho : ∀ o, o ≠ p → c' o = c o) :
    Tracked c' ins (outs ++ [w]) := by
  obtain ⟨loc, hloc, hcount⟩ := h
  have hl : loc w = some p := hloc.mem_iff.mp (hp.symm.subset List.mem_cons_self)
  refine ⟨_, hloc.leave hp ho, fun v => ?_⟩
  rw [List.count_append, List.count_singleton, hcount v]
  rcases eq_or_ne v w with rfl | hv
  · simp [hl]
  · rw [Function.update_of_ne hv]
    simp [Ne.symm hv]

end Tracked

/-- A pair `(d, w)` at a place is the thing `w` on its way to `d`.  The things are tracked, and each goes to where it was
sent. -/
structure Routed {D : Type*} (c : P → List (D × W)) (dest : W → Option D) (ins outs : List W) : Prop where
  tracked : Tracked (fun p => (c p).map Prod.snd) ins outs
  route : ∀ p, ∀ e ∈ c p, dest e.2 = some e.1

namespace Routed

variable {D : Type*} {c c' : P → List (D × W)} {dest : W → Option D} {ins outs : List W} {p q : P} {d e : D} {w : W}

omit [DecidableEq P] [DecidableEq W] in
theorem mem_things (h : (d, w) ∈ c p) : w ∈ (c p).map Prod.snd := List.mem_map.mpr ⟨(d, w), h, rfl⟩

theorem nil (hc : ∀ p, c p = []) : Routed c dest [] [] where
  tracked := Tracked.nil fun p => by rw [hc p, List.map_nil]
  route := fun p e he => by simp [hc p] at he

/-- A thing that has not left is once at one place, on its way to where it was sent. -/
theorem one (h : Routed c dest ins outs) (w : W) : (outs.count w = ins.count w ∧ ∀ p d, (d, w) ∉ c p) ∨
    (outs.count w + 1 = ins.count w ∧ ∃ p d, dest w = some d ∧ (d, w) ∈ c p ∧ ((c p).map Prod.snd).count w = 1 ∧
      ∀ q, q ≠ p → ∀ d, (d, w) ∉ c q) := by
  rcases h.tracked.one w with ⟨hcount, hno⟩ | ⟨hcount, p, hone, hno⟩
  · exact .inl ⟨hcount, fun p d hm => hno p (mem_things hm)⟩
  · obtain ⟨⟨d, v⟩, hm, rfl⟩ := List.mem_map.mp (List.count_pos_iff.mp (by rw [hone]; exact Nat.one_pos))
    exact .inr ⟨hcount, p, d, h.route p _ hm, hm, hone, fun q hq d hm => hno q hq (mem_things hm)⟩

theorem not_mem (h : Routed c dest ins outs) (hw : ins.count w = outs.count w) (p : P) : w ∉ (c p).map Prod.snd :=
  h.tracked.not_mem hw p

theorem unique (h : Routed c dest ins outs) (hp : (d, w) ∈ c p) (hq : (e, w) ∈ c q) : p = q :=
  h.tracked.unique (mem_things hp) (mem_things hq)

theorem move {l : List (D × W)} (h : Routed c dest ins outs) (hpq : p ≠ q) (hp : (c p).Perm (l ++ c' p))
    (hq : (c' q).Perm (c q ++ l)) (ho : ∀ o, o ≠ p → o ≠ q → c' o = c o) : Routed c' dest ins outs where
  tracked := by
    refine h.tracked.move hpq (l := l.map Prod.snd) ?_ ?_ fun o hop hoq => congrArg _ (ho o hop hoq)
    · rw [← List.map_append]
      exact hp.map Prod.snd
    · rw [← List.map_append]
      exact hq.map Prod.snd
  route := by
    intro o x hx
    by_cases hop : o = p
    · rw [hop] at hx
      exact h.route p x (hp.symm.subset (List.mem_append_right _ hx))
    · by_cases hoq : o = q
      · rw [hoq] at hx
        rcases List.mem_append.mp (hq.subset hx) with hx | hx
        · exact h.route q x hx
        · exact h.route p x (hp.symm.subset (List.mem_append_left _ hx))
      · rw [ho o hop hoq] at hx
        exact h.route o x hx

/-- Something that was nowhere is sent to `d`. -/
theorem enter (h : Routed c dest ins outs) (hw : ins.count w = outs.count w) (hq : (c' q).Perm (c q ++ [(d, w)]))
    (ho : ∀ o, o ≠ q → c' o = c o) : Routed c' (Function.update dest w (some d)) (ins ++ [w]) outs where
  tracked := by
    refine h.tracked.enter hw (q := q) ?_ fun o hoq => congrArg _ (ho o hoq)
    have hmap := hq.map Prod.snd
    rwa [List.map_append] at hmap
  route := by
    -- The others are other things, so they go where they went.
    have hold : ∀ o, ∀ x ∈ c o, Function.update dest w (some d) x.2 = some x.1 := by
      intro o x hx
      have hne : x.2 ≠ w := fun he => h.not_mem hw o (he ▸ List.mem_map_of_mem hx)
      rw [Function.update_of_ne hne]
      exact h.route o x hx
    intro o x hx
    by_cases hoq : o = q
    · rw [hoq] at hx
      rcases List.mem_append.mp (hq.subset hx) with hx | hx
      · exact hold q x hx
      · rw [List.mem_singleton.mp hx, Function.update_self]
    · rw [ho o hoq] at hx
      exact hold o x hx

theorem leave (h : Routed c dest ins outs) (hp : (c p).Perm ((d, w) :: c' p)) (ho : ∀ o, o ≠ p → c' o = c o) :
    Routed c' dest ins (outs ++ [w]) where
  tracked := h.tracked.leave (p := p) (hp.map Prod.snd) fun o hop => congrArg _ (ho o hop)
  route := by
    intro o x hx
    by_cases hop : o = p
    · rw [hop] at hx
      exact h.route p x (hp.symm.subset (List.mem_cons_of_mem _ hx))
    · rw [ho o hop] at hx
      exact h.route o x hx

end Routed

end Condy.Lib
