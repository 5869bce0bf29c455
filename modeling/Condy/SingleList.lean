import Condy.Lib.Chain
import Mathlib.Logic.Function.Basic

/-!
# Condy.SingleList — `SingleLinkListImpl` and the sequences it represents

The queues of all runtimes share one memory of link entries, one entry for each work item.  `SingleRep m ls xs` says
that list `ls k` represents the sequence `xs k`, that no node is in two lists, and that the nodes in no list have a
null link, which is what `push_back` asserts.
-/

namespace Condy

open Lib

variable {N : Type} [DecidableEq N]

/-- The `next` of every `SingleLinkEntry`, and the conjunction of the assertions evaluated so far. -/
structure SingleMem (N : Type) where
  next : N → Option N
  asserts : Bool

structure SingleLinkListImpl (N : Type) where
  head : Option N
  tail : Option N
deriving DecidableEq, Repr

namespace SingleLinkListImpl

variable (m : SingleMem N) (l other : SingleLinkListImpl N) (e : N)

def new : SingleLinkListImpl N := ⟨none, none⟩

def empty : Bool := l.head.isNone

/-- `p->next = v`; through a null pointer it counts as a failed assertion. -/
def setNext (p v : Option N) : SingleMem N :=
  match p with
  | none => { m with asserts := false }
  | some p => { m with next := Function.update m.next p v }

/-- `push_back` of an entry. -/
def pushBack : SingleMem N × SingleLinkListImpl N :=
  let m := { m with asserts := m.asserts && (m.next e).isNone }
  if l.head.isNone then (m, ⟨some e, some e⟩) else (setNext m l.tail (some e), { l with tail := some e })

/-- `push_back` of a list; gives the two lists. -/
def pushBackList : SingleMem N × SingleLinkListImpl N × SingleLinkListImpl N :=
  if other.empty then (m, l, other)
  else if l.empty then (m, ⟨other.head, other.tail⟩, new)
  else (setNext m l.tail other.head, { l with tail := other.tail }, new)

/-- `pop_front`. -/
def popFront : Option N × SingleMem N × SingleLinkListImpl N :=
  match l.head with
  | none => (none, m, l)
  | some e =>
    let head := m.next e
    (some e, setNext m (some e) none, ⟨head, if head.isNone then none else l.tail⟩)

theorem setNext_spec {m : SingleMem N} {p : Option N} (hp : p ≠ none) (v : Option N) :
    (setNext m p v).asserts = m.asserts ∧ ∀ x, (setNext m p v).next x = if p = some x then v else m.next x := by
  cases p with
  | none => exact absurd rfl hp
  | some p =>
    refine ⟨rfl, fun x => ?_⟩
    by_cases hx : p = x
    · simp [setNext, hx]
    · simp [setNext, hx, Ne.symm hx]

end SingleLinkListImpl

open SingleLinkListImpl

variable {κ : Type}

/-- The list `ls k` represents the sequence `xs k`, for every `k`. -/
structure SingleRep (m : SingleMem N) (ls : κ → SingleLinkListImpl N) (xs : κ → List N) : Prop where
  nodup : ∀ k, (xs k).Nodup
  list : ∀ k, ls k = ⟨(xs k).head?, (xs k).getLast?⟩
  chained : ∀ k, Chained m.next (xs k)
  disjoint : ∀ k k' x, x ∈ xs k → x ∈ xs k' → k = k'
  free : ∀ x, (∀ k, x ∉ xs k) → m.next x = none
  asserts : m.asserts = true

namespace SingleRep

variable [DecidableEq κ] {m m' : SingleMem N} {ls : κ → SingleLinkListImpl N} {xs : κ → List N} {k k' : κ} {e : N}
  {rest : List N}

omit [DecidableEq N] [DecidableEq κ] in
theorem not_mem_other (h : SingleRep m ls xs) {x : N} (hx : x ∈ xs k) (hne : k' ≠ k) : x ∉ xs k' :=
  fun hx' => hne (h.disjoint k' k x hx' hx)

omit [DecidableEq N] in
/-- A change of one list: the new memory chains the new sequence, leaves the other lists alone, and clears what is in
no list. -/
theorem update (h : SingleRep m ls xs) {ys : List N} (hnd : ys.Nodup) (hchain : Chained m'.next ys)
    (hdisj : ∀ k' ≠ k, ∀ x ∈ xs k', x ∉ ys) (hother : ∀ k' ≠ k, ∀ x ∈ xs k', m'.next x = m.next x)
    (hfree : ∀ x, x ∉ ys → (∀ k' ≠ k, x ∉ xs k') → m'.next x = none) (hass : m'.asserts = true) :
    SingleRep m' (Function.update ls k ⟨ys.head?, ys.getLast?⟩) (Function.update xs k ys) := by
  refine ⟨fun k' => ?_, fun k' => ?_, fun k' => ?_, fun k₁ k₂ x h1 h2 => ?_, fun x hx => ?_, hass⟩
  · rcases eq_or_ne k' k with rfl | hk
    · rwa [Function.update_self]
    · rw [Function.update_of_ne hk]
      exact h.nodup k'
  · rcases eq_or_ne k' k with rfl | hk
    · rw [Function.update_self, Function.update_self]
    · rw [Function.update_of_ne hk, Function.update_of_ne hk]
      exact h.list k'
  · rcases eq_or_ne k' k with rfl | hk
    · rwa [Function.update_self]
    · rw [Function.update_of_ne hk]
      exact (h.chained k').frame (hother k' hk)
  · rcases eq_or_ne k₁ k with hk₁ | hk₁ <;> rcases eq_or_ne k₂ k with hk₂ | hk₂
    · rw [hk₁, hk₂]
    · rw [hk₁, Function.update_self] at h1
      rw [Function.update_of_ne hk₂] at h2
      exact absurd h1 (hdisj k₂ hk₂ x h2)
    · rw [Function.update_of_ne hk₁] at h1
      rw [hk₂, Function.update_self] at h2
      exact absurd h2 (hdisj k₁ hk₁ x h1)
    · rw [Function.update_of_ne hk₁] at h1
      rw [Function.update_of_ne hk₂] at h2
      exact h.disjoint k₁ k₂ x h1 h2
  · refine hfree x ?_ (fun k' hk' => ?_)
    · simpa using hx k
    · simpa [hk'] using hx k'

section Operations

variable (h : SingleRep m ls xs)
include h

omit [DecidableEq κ] in
/-- What `push_back` does, whichever branch it takes. -/
theorem pushBack_code (he : ∀ k, e ∉ xs k) (k : κ) : ∃ m', SingleLinkListImpl.pushBack m (ls k) e =
    (m', ⟨(xs k ++ [e]).head?, (xs k ++ [e]).getLast?⟩) ∧
    (∀ x, m'.next x = if (xs k).getLast? = some x then some e else m.next x) ∧ m'.asserts = true := by
  have hlast : (xs k ++ [e]).getLast? = some e := by simp
  have hass : (m.asserts && (m.next e).isNone) = true := by rw [h.asserts, h.free e he]; rfl
  unfold SingleLinkListImpl.pushBack
  rw [h.list k, hlast, hass]
  by_cases hx : xs k = []
  · rw [hx]
    exact ⟨_, rfl, by simp, rfl⟩
  · obtain ⟨ha, hn⟩ := setNext_spec (m := ⟨m.next, true⟩) (mt List.getLast?_eq_none_iff.mp hx) (some e)
    refine ⟨_, ?_, hn, ha⟩
    obtain ⟨b, bs, hb⟩ := List.exists_cons_of_ne_nil hx
    rw [hb]
    rfl

/-- An entry in no list goes to the end of list `k`. -/
theorem pushBack (he : ∀ k, e ∉ xs k) :
    SingleRep (SingleLinkListImpl.pushBack m (ls k) e).1
      (Function.update ls k (SingleLinkListImpl.pushBack m (ls k) e).2) (Function.update xs k (xs k ++ [e])) := by
  have hnd : (xs k ++ [e]).Nodup := by
    rw [List.nodup_append_comm]
    exact List.nodup_cons.mpr ⟨he k, h.nodup k⟩
  have hdisj : ∀ k' ≠ k, ∀ x ∈ xs k', x ∉ xs k ++ [e] := by
    intro k' hk' x hx hx'
    rcases List.mem_append.mp hx' with h1 | h1
    · exact h.not_mem_other h1 hk' hx
    · rw [List.mem_singleton] at h1
      exact he k' (h1 ▸ hx)
  obtain ⟨m', hm', hnext, hass'⟩ := h.pushBack_code he k
  rw [hm']
  refine h.update hnd ((h.chained k).append (chained_singleton ?_) (h.nodup k) fun x _ => hnext x) hdisj
    (fun k' hk' x hx => ?_) (fun x hx hx' => ?_) hass'
  · rw [hnext, if_neg (fun hl => he k (List.mem_of_getLast? hl))]
    exact h.free e he
  · rw [hnext, if_neg (fun hl => h.not_mem_other (List.mem_of_getLast? hl) hk' hx)]
  · rw [hnext, if_neg (fun hl => hx (List.mem_append_left _ (List.mem_of_getLast? hl)))]
    refine h.free x fun k' => ?_
    rcases eq_or_ne k' k with rfl | hk'
    · exact fun hm => hx (List.mem_append_left _ hm)
    · exact hx' k' hk'

omit [DecidableEq κ] in
theorem popFront_nil (hk : xs k = []) : SingleLinkListImpl.popFront m (ls k) = (none, m, ls k) := by
  unfold SingleLinkListImpl.popFront
  rw [h.list k, hk]
  rfl

theorem popFront_cons (hk : xs k = e :: rest) : (SingleLinkListImpl.popFront m (ls k)).1 = some e ∧
    SingleRep (SingleLinkListImpl.popFront m (ls k)).2.1
      (Function.update ls k (SingleLinkListImpl.popFront m (ls k)).2.2) (Function.update xs k rest) := by
  have hnd := h.nodup k
  have hch := h.chained k
  rw [hk] at hnd hch
  obtain ⟨hne, hnd'⟩ := List.nodup_cons.mp hnd
  have hpop : SingleLinkListImpl.popFront m (ls k) =
      (some e, ⟨Function.update m.next e none, m.asserts⟩, ⟨rest.head?, rest.getLast?⟩) := by
    unfold SingleLinkListImpl.popFront
    rw [h.list k, hk]
    cases rest with
    | nil => simp [setNext, hch.head]
    | cons r rest => simp [setNext, hch.head, List.getLast?_cons_cons]
  have hkeep : ∀ x, x ≠ e → (Function.update m.next e none) x = m.next x := fun x hx => Function.update_of_ne hx _ _
  rw [hpop]
  refine ⟨rfl, h.update hnd' (hch.tail.frame fun x hx => hkeep x fun hxe => hne (hxe ▸ hx))
    (fun k' hk' x hx hx' => ?_) (fun k' hk' x hx => hkeep x ?_) (fun x hx hx' => ?_) h.asserts⟩
  · exact h.not_mem_other (by rw [hk]; exact List.mem_cons_of_mem _ hx') hk' hx
  · rintro rfl
    exact h.not_mem_other (by rw [hk]; exact List.mem_cons_self) hk' hx
  · rcases eq_or_ne x e with rfl | hxe
    · exact Function.update_self ..
    · rw [show (⟨Function.update m.next e none, m.asserts⟩ : SingleMem N).next x = m.next x from hkeep x hxe]
      refine h.free x fun k' => ?_
      rcases eq_or_ne k' k with rfl | hk'
      · rw [hk]
        exact fun hm => (List.mem_cons.mp hm).elim hxe hx
      · exact hx' k' hk'

omit [DecidableEq κ] in
/-- What `push_back` of a list does, whichever branch it takes. -/
theorem pushBackList_code (k k' : κ) : ∃ m', SingleLinkListImpl.pushBackList m (ls k) (ls k') =
    (m', ⟨(xs k ++ xs k').head?, (xs k ++ xs k').getLast?⟩, ⟨none, none⟩) ∧
    (∀ x, m'.next x = if (xs k).getLast? = some x then (xs k').head? else m.next x) ∧ m'.asserts = true := by
  unfold SingleLinkListImpl.pushBackList
  rw [h.list k, h.list k']
  by_cases hx' : xs k' = []
  · -- the last node already points nowhere
    refine ⟨m, by rw [hx', List.append_nil]; rfl, fun x => ?_, h.asserts⟩
    split_ifs with hl
    · obtain ⟨as, has⟩ := List.getLast?_eq_some_iff.mp hl
      rw [hx', h.chained k as x [] has]
    · rfl
  · obtain ⟨c, cs, hc⟩ := List.exists_cons_of_ne_nil hx'
    by_cases hx : xs k = []
    · refine ⟨m, ?_, by simp [hx], h.asserts⟩
      rw [hx, hc]
      rfl
    · obtain ⟨ha, hn⟩ := setNext_spec (m := m) (mt List.getLast?_eq_none_iff.mp hx) (xs k').head?
      obtain ⟨b, bs, hb⟩ := List.exists_cons_of_ne_nil hx
      refine ⟨_, ?_, hn, ha.trans h.asserts⟩
      have hlast : (xs k ++ xs k').getLast? = (xs k').getLast? := by
        rw [List.getLast?_append, hc]
        simp [List.getLast?_cons]
      rw [hlast, hb, hc]
      rfl

/-- All of list `k'` goes to the end of list `k`. -/
theorem pushBackList (hne : k ≠ k') :
    SingleRep (SingleLinkListImpl.pushBackList m (ls k) (ls k')).1
      (Function.update (Function.update ls k (SingleLinkListImpl.pushBackList m (ls k) (ls k')).2.1) k' new)
      (Function.update (Function.update xs k (xs k ++ xs k')) k' []) := by
  obtain ⟨m', hm', hnext, hass⟩ := h.pushBackList_code k k'
  rw [hm']
  set ys := Function.update (Function.update xs k (xs k ++ xs k')) k' [] with hys
  have hk : ys k = xs k ++ xs k' := by rw [hys, Function.update_of_ne hne, Function.update_self]
  have hk' : ys k' = [] := Function.update_self ..
  have hj : ∀ j, j ≠ k → j ≠ k' → ys j = xs j := by
    intro j h1 h2
    rw [hys, Function.update_of_ne h2, Function.update_of_ne h1]
  -- every node stays in its list, except that those of `k'` go to `k`
  have hmem : ∀ j x, x ∈ ys j → j ≠ k' ∧ (x ∈ xs j ∨ (j = k ∧ x ∈ xs k')) := by
    intro j x hx
    rcases eq_or_ne j k' with rfl | h2
    · rw [hk'] at hx
      exact absurd hx List.not_mem_nil
    · refine ⟨h2, ?_⟩
      rcases eq_or_ne j k with rfl | h1
      · rw [hk] at hx
        exact (List.mem_append.mp hx).imp_right fun hm => ⟨rfl, hm⟩
      · exact .inl (hj j h1 h2 ▸ hx)
  have hkeep : ∀ x, x ∉ xs k → m'.next x = m.next x := by
    intro x hx
    rw [hnext, if_neg fun hl => hx (List.mem_of_getLast? hl)]
  have hcases : ∀ P : κ → Prop, P k → P k' → (∀ j, j ≠ k → j ≠ k' → P j) → ∀ j, P j := by
    intro P h1 h2 h3 j
    by_cases hjk : j = k
    · exact hjk ▸ h1
    · by_cases hjk' : j = k'
      · exact hjk' ▸ h2
      · exact h3 j hjk hjk'
  refine ⟨hcases _ ?_ ?_ fun j h1 h2 => ?_, hcases _ ?_ ?_ fun j h1 h2 => ?_, hcases _ ?_ ?_ fun j h1 h2 => ?_,
    fun j₁ j₂ x h1 h2 => ?_, fun x hx => ?_, hass⟩
  · rw [hk]
    exact (h.nodup k).append (h.nodup k') fun x h1 h2 => h.not_mem_other h1 hne.symm h2
  · rw [hk']
    exact List.nodup_nil
  · rw [hj j h1 h2]
    exact h.nodup j
  · rw [hk, Function.update_of_ne hne, Function.update_self]
  · rw [hk', Function.update_self]
    rfl
  · rw [hj j h1 h2, Function.update_of_ne h2, Function.update_of_ne h1]
    exact h.list j
  · rw [hk]
    refine (h.chained k).append ((h.chained k').frame fun x hx => ?_) (h.nodup k) fun x _ => hnext x
    exact hkeep x (h.not_mem_other hx hne)
  · rw [hk']
    exact chained_nil
  · rw [hj j h1 h2]
    exact (h.chained j).frame fun x hx => hkeep x (h.not_mem_other hx (Ne.symm h1))
  · obtain ⟨hne₁, g1⟩ := hmem j₁ x h1
    obtain ⟨hne₂, g2⟩ := hmem j₂ x h2
    rcases g1 with g1 | ⟨e1, g1⟩ <;> rcases g2 with g2 | ⟨e2, g2⟩
    · exact h.disjoint j₁ j₂ x g1 g2
    · exact absurd (h.disjoint j₁ k' x g1 g2) hne₁
    · exact absurd (h.disjoint j₂ k' x g2 g1) hne₂
    · exact e1.trans e2.symm
  · have hxk : x ∉ xs k := fun hm => hx k (by rw [hk]; exact List.mem_append_left _ hm)
    rw [hkeep x hxk]
    refine h.free x (hcases _ hxk (fun hm => hx k ?_) fun j h1 h2 => ?_)
    · rw [hk]
      exact List.mem_append_right _ hm
    · rw [← hj j h1 h2]
      exact hx j

end Operations

end SingleRep

end Condy
