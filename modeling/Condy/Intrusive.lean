import Condy.Lib.Links
import Mathlib.Logic.Function.Basic

/-!
# Condy.Intrusive — `DoubleLinkListImpl` and the sequences it represents

Several lists share one memory of link entries.  `Rep m ls xs` says that list `ls k` represents the sequence `xs k`,
that no node is in two lists, and that the nodes in no list have null links.  The lemmas give each operation on such a
family, among them what `remove` does with a node of *another* list: it decides membership from the node's own links
and the head of this list, so an inner node of another list is taken out of that list (`remove_inner`), a node that is
alone there is not found (`remove_single`), and an end of a longer list fails an assertion (`remove_end`).
-/

namespace Condy

open Lib

variable {N : Type} [DecidableEq N]

/-- The link entries of all nodes, and the conjunction of the assertions evaluated so far.  A write through a null
pointer counts as a failed assertion. -/
structure Mem (N : Type) where
  link : N → Link N
  asserts : Bool

namespace Mem

def check (m : Mem N) (b : Bool) : Mem N := { m with asserts := m.asserts && b }

def set (m : Mem N) (e : N) (l : Link N) : Mem N := { m with link := Function.update m.link e l }

/-- `p->next = v`. -/
def setNext (m : Mem N) (p v : Option N) : Mem N :=
  match p with
  | none => m.check false
  | some p => m.set p ⟨v, (m.link p).prev⟩

/-- `p->prev = v`. -/
def setPrev (m : Mem N) (p v : Option N) : Mem N :=
  match p with
  | none => m.check false
  | some p => m.set p ⟨(m.link p).next, v⟩

end Mem

structure DoubleLinkListImpl (N : Type) where
  head : Option N
  tail : Option N

namespace DoubleLinkListImpl

variable (m : Mem N) (l : DoubleLinkListImpl N) (e : N)

def new : DoubleLinkListImpl N := ⟨none, none⟩

def empty : Bool := l.head.isNone

/-- `push_back`. -/
def pushBack : Mem N × DoubleLinkListImpl N :=
  let m := m.check ((m.link e).next.isNone && (m.link e).prev.isNone)
  let m := m.set e ⟨none, l.tail⟩
  if l.head.isNone then (m, ⟨some e, some e⟩)
  else (m.setNext l.tail (some e), { l with tail := some e })

/-- `pop_front`. -/
def popFront : Option N × Mem N × DoubleLinkListImpl N :=
  match l.head with
  | none => (none, m, l)
  | some e =>
    let head := (m.link e).next
    if head.isSome then (some e, (m.setPrev head none).set e ⟨none, none⟩, { l with head := head })
    else (some e, m.set e ⟨none, none⟩, ⟨none, none⟩)

/-- The first branch of `remove`: the node before the entry, or the head, is given the node behind it. -/
def unlinkPrev : Mem N × DoubleLinkListImpl N :=
  if (m.link e).prev.isSome then (m.setNext (m.link e).prev (m.link e).next, l)
  else (m.check (l.head == some e), { l with head := (m.link e).next })

/-- The second branch of `remove`. -/
def unlinkNext : Mem N × DoubleLinkListImpl N :=
  if (m.link e).next.isSome then (m.setPrev (m.link e).next (m.link e).prev, l)
  else (m.check (l.tail == some e), { l with tail := (m.link e).prev })

/-- `remove`. -/
def remove : Bool × Mem N × DoubleLinkListImpl N :=
  if (m.link e).prev = none ∧ (m.link e).next = none ∧ l.head ≠ some e then (false, m, l)
  else
    let q := unlinkPrev m l e
    let q := unlinkNext q.1 q.2 e
    (true, q.1.set e ⟨none, none⟩, q.2)

/-- Move assignment `l = std::move(other)`; gives the two lists. -/
def moveFrom (other : DoubleLinkListImpl N) : Mem N × DoubleLinkListImpl N × DoubleLinkListImpl N :=
  (m.check l.empty, other, new)

section Unlink

variable {m : Mem N} {l : DoubleLinkListImpl N} {w : N} {n p : Option N}

/-- What the two branches of `remove` do to the links, for an entry between `p` and `n`. -/
theorem unlink_link (hw : m.link w = ⟨n, p⟩) (hp : p ≠ some w) (x : N) :
    ((unlinkNext (unlinkPrev m l w).1 (unlinkPrev m l w).2 w).1.set w ⟨none, none⟩).link x =
      if x = w then ⟨none, none⟩ else
        ⟨if p = some x then n else (m.link x).next, if n = some x then p else (m.link x).prev⟩ := by
  by_cases hx : x = w
  · simp [Mem.set, hx]
  · rw [if_neg hx]
    cases p with
    | none =>
      cases n with
      | none => simp [unlinkPrev, unlinkNext, Mem.set, Mem.check, hw, hx]
      | some n =>
        by_cases hn : n = x
        · subst hn
          simp [unlinkPrev, unlinkNext, Mem.set, Mem.setPrev, Mem.check, hw, hx]
        · simp [unlinkPrev, unlinkNext, Mem.set, Mem.setPrev, Mem.check, hw, hx, hn, Ne.symm hn]
    | some p =>
      have hpw : p ≠ w := fun he => hp (by rw [he])
      cases n with
      | none =>
        by_cases hpx : p = x
        · subst hpx
          simp [unlinkPrev, unlinkNext, Mem.set, Mem.setNext, Mem.check, hw, hx, hpw.symm]
        · simp [unlinkPrev, unlinkNext, Mem.set, Mem.setNext, Mem.check, hw, hx, hpw.symm, hpx, Ne.symm hpx]
      | some n =>
        by_cases hpx : p = x <;> by_cases hnx : n = x
        · subst hpx hnx
          simp [unlinkPrev, unlinkNext, Mem.set, Mem.setNext, Mem.setPrev, hw, hx, hpw.symm]
        · subst hpx
          simp [unlinkPrev, unlinkNext, Mem.set, Mem.setNext, Mem.setPrev, hw, hx, hpw.symm, hnx, Ne.symm hnx]
        · subst hnx
          simp [unlinkPrev, unlinkNext, Mem.set, Mem.setNext, Mem.setPrev, hw, hx, hpw.symm, hpx, Ne.symm hpx]
        · simp [unlinkPrev, unlinkNext, Mem.set, Mem.setNext, Mem.setPrev, hw, hx, hpw.symm, hpx, hnx,
            Ne.symm hpx, Ne.symm hnx]

/-- What they do to the list, and which assertions they evaluate. -/
theorem unlink_list (hw : m.link w = ⟨n, p⟩) (hp : p ≠ some w) :
    (unlinkNext (unlinkPrev m l w).1 (unlinkPrev m l w).2 w).2 =
      ⟨if p.isSome then l.head else n, if n.isSome then l.tail else p⟩ ∧
    (unlinkNext (unlinkPrev m l w).1 (unlinkPrev m l w).2 w).1.asserts =
      (m.asserts && (p.isSome || l.head == some w) && (n.isSome || l.tail == some w)) := by
  cases p with
  | none => cases n <;> simp [unlinkPrev, unlinkNext, Mem.set, Mem.setPrev, Mem.check, hw]
  | some p =>
    have hpw : p ≠ w := fun he => hp (by rw [he])
    cases n <;> simp [unlinkPrev, unlinkNext, Mem.set, Mem.setNext, Mem.setPrev, Mem.check, hw, hpw.symm]

end Unlink

end DoubleLinkListImpl

open DoubleLinkListImpl

variable {κ : Type}

/-- The list `ls k` represents the sequence `xs k`, for every `k`. -/
structure Rep (m : Mem N) (ls : κ → DoubleLinkListImpl N) (xs : κ → List N) : Prop where
  nodup : ∀ k, (xs k).Nodup
  head : ∀ k, (ls k).head = (xs k).head?
  tail : ∀ k, (ls k).tail = (xs k).getLast?
  linked : ∀ k, Linked m.link (xs k)
  disjoint : ∀ k k' x, x ∈ xs k → x ∈ xs k' → k = k'
  free : ∀ x, (∀ k, x ∉ xs k) → m.link x = ⟨none, none⟩

namespace Rep

section

variable {m m' : Mem N} {ls : κ → DoubleLinkListImpl N} {xs : κ → List N} {k : κ} {w : N} {bs : List N}

omit [DecidableEq N] in
/-- The links of a node in a list are its two neighbours. -/
theorem link_eq (as : List N) (h : Rep m ls xs) (hk : xs k = as ++ w :: bs) : m.link w = ⟨bs.head?, as.getLast?⟩ :=
  h.linked k as w bs hk

variable [DecidableEq κ]

omit [DecidableEq N] in
/-- A change of one list: the new memory links the new sequence, leaves the other lists alone, and clears what is in
no list. -/
theorem update (h : Rep m ls xs) {l : DoubleLinkListImpl N} {ys : List N} (hnd : ys.Nodup)
    (hhead : l.head = ys.head?) (htail : l.tail = ys.getLast?) (hlink : Linked m'.link ys)
    (hdisj : ∀ k' ≠ k, ∀ x ∈ xs k', x ∉ ys) (hother : ∀ k' ≠ k, ∀ x ∈ xs k', m'.link x = m.link x)
    (hfree : ∀ x, x ∉ ys → (∀ k' ≠ k, x ∉ xs k') → m'.link x = ⟨none, none⟩) :
    Rep m' (Function.update ls k l) (Function.update xs k ys) := by
  have hself : ∀ (P : DoubleLinkListImpl N → List N → Prop), P l ys → (∀ k' ≠ k, P (ls k') (xs k')) →
      ∀ k', P (Function.update ls k l k') (Function.update xs k ys k') := by
    intro P h1 h2 k'
    rcases eq_or_ne k' k with rfl | hk
    · rwa [Function.update_self, Function.update_self]
    · rw [Function.update_of_ne hk, Function.update_of_ne hk]
      exact h2 k' hk
  refine ⟨hself (fun _ zs => zs.Nodup) hnd (fun k' _ => h.nodup k'),
    hself (fun l zs => l.head = zs.head?) hhead (fun k' _ => h.head k'),
    hself (fun l zs => l.tail = zs.getLast?) htail (fun k' _ => h.tail k'),
    hself (fun _ zs => Linked m'.link zs) hlink (fun k' hk => (h.linked k').frame (hother k' hk)),
    fun k₁ k₂ x h1 h2 => ?_, fun x hx => ?_⟩
  · rcases eq_or_ne k₁ k with hk₁ | hk₁ <;> rcases eq_or_ne k₂ k with hk₂ | hk₂
    · rw [hk₁, hk₂]
    · rw [hk₁, Function.update_self] at h1
      rw [Function.update_of_ne hk₂] at h2
      exact absurd h1 (hdisj k₂ hk₂ x h2)
    · rw [Function.update_of_ne hk₁] at h1
      rw [hk₂, Function.update_self] at h2
      exact absurd h2 (hdisj k₁ hk₁ x h1)
    · rw [Function.update_of_ne hk₁] at h1
      rw [Function.update_of_ne hk₂] at h2
      exact h.disjoint k₁ k₂ x h1 h2
  · refine hfree x ?_ (fun k' hk' => ?_)
    · simpa using hx k
    · simpa [hk'] using hx k'

/-- Taking `w` out of list `k`, in terms of the links. -/
theorem unlink (as : List N) (h : Rep m ls xs) (hk : xs k = as ++ w :: bs) {l : DoubleLinkListImpl N}
    (hhead : l.head = (as ++ bs).head?) (htail : l.tail = (as ++ bs).getLast?)
    (hlink : ∀ x, m'.link x = if x = w then ⟨none, none⟩ else
      ⟨if as.getLast? = some x then bs.head? else (m.link x).next,
        if bs.head? = some x then as.getLast? else (m.link x).prev⟩) :
    Rep m' (Function.update ls k l) (Function.update xs k (as ++ bs)) := by
  have hnd := h.nodup k
  rw [hk] at hnd
  have hmid := List.nodup_middle.mp hnd
  rw [List.nodup_cons] at hmid
  -- a node that is not in list `k` keeps its links
  have hkeep : ∀ x, x ∉ xs k → m'.link x = m.link x := by
    intro x hx
    rw [hk] at hx
    have hxw : x ≠ w := fun he => hx (by simp [he])
    have hxa : ¬ as.getLast? = some x := fun he => hx (by simp [List.mem_of_getLast? he])
    have hxb : ¬ bs.head? = some x := fun he => hx (by simp [List.mem_of_head? he])
    rw [hlink, if_neg hxw, if_neg hxa, if_neg hxb]
  have hout : ∀ k' ≠ k, ∀ x ∈ xs k', x ∉ xs k := fun k' hk' x hx hx' => hk' (h.disjoint k' k x hx hx')
  refine h.update hmid.2 hhead htail ?_ (fun k' hk' x hx hx' => ?_) (fun k' hk' x hx => ?_)
    (fun x hx hx' => ?_)
  · have hl := h.linked k
    rw [hk] at hl
    refine hl.erase hnd (fun x hx => ?_)
    have hxw : x ≠ w := fun he => hmid.1 (he ▸ hx)
    rw [hlink, if_neg hxw]
  · refine hout k' hk' x hx ?_
    rw [hk]
    simp only [List.mem_append, List.mem_cons] at hx' ⊢
    rcases hx' with h1 | h1
    · exact .inl h1
    · exact .inr (.inr h1)
  · exact hkeep x (hout k' hk' x hx)
  · by_cases hxw : x = w
    · rw [hlink, if_pos hxw]
    · have hxk : x ∉ xs k := by
        rw [hk]
        simp only [List.mem_append, List.mem_cons, not_or] at hx ⊢
        exact ⟨hx.1, hxw, hx.2⟩
      rw [hkeep x hxk]
      refine h.free x (fun k' => ?_)
      rcases eq_or_ne k' k with rfl | hk'
      · exact hxk
      · exact hx' k' hk'

end

section Operations

variable {m : Mem N} {ls : κ → DoubleLinkListImpl N} {xs : κ → List N} (h : Rep m ls xs) {k k' : κ} {e w : N}
  {as bs rest : List N}
include h

theorem popFront_nil (hk : xs k = []) : DoubleLinkListImpl.popFront m (ls k) = (none, m, ls k) := by
  unfold DoubleLinkListImpl.popFront
  rw [h.head k, hk]
  rfl

omit [DecidableEq N] in
theorem head_ne (hw : w ∉ xs k) : (ls k).head ≠ some w := by
  rw [h.head k]
  exact fun he => hw (List.mem_of_head? he)

/-- A node in no list is not found. -/
theorem remove_free (hw : ∀ k, w ∉ xs k) : DoubleLinkListImpl.remove m (ls k) w = (false, m, ls k) := by
  unfold DoubleLinkListImpl.remove
  rw [h.free w hw, if_pos ⟨rfl, rfl, h.head_ne (hw k)⟩]

omit [DecidableEq N] in
theorem not_mem_of_other (as : List N) (hk' : xs k' = as ++ w :: bs) (hne : k ≠ k') : w ∉ xs k :=
  fun hw => hne (h.disjoint k k' w hw (by simp [hk']))

/-- A node that is alone in another list is not found either. -/
theorem remove_single (hk' : xs k' = [w]) (hne : k ≠ k') :
    DoubleLinkListImpl.remove m (ls k) w = (false, m, ls k) := by
  have hlink : m.link w = ⟨none, none⟩ := h.link_eq [] hk'
  unfold DoubleLinkListImpl.remove
  rw [hlink, if_pos ⟨rfl, rfl, h.head_ne (h.not_mem_of_other [] hk' hne)⟩]

/-- The code after the early return of `remove`. -/
theorem remove_unlinks (hk' : xs k' = as ++ w :: bs) (hfound : as ≠ [] ∨ bs ≠ [] ∨ (ls k).head = some w) :
    (DoubleLinkListImpl.remove m (ls k) w).1 = true ∧
    (DoubleLinkListImpl.remove m (ls k) w).2.1.asserts = (m.asserts &&
      (as.getLast?.isSome || (ls k).head == some w) && (bs.head?.isSome || (ls k).tail == some w)) ∧
    (DoubleLinkListImpl.remove m (ls k) w).2.2 = ⟨if as.getLast?.isSome then (ls k).head else bs.head?,
      if bs.head?.isSome then (ls k).tail else as.getLast?⟩ ∧
    ∀ x, (DoubleLinkListImpl.remove m (ls k) w).2.1.link x = if x = w then ⟨none, none⟩ else
      ⟨if as.getLast? = some x then bs.head? else (m.link x).next,
        if bs.head? = some x then as.getLast? else (m.link x).prev⟩ := by
  have hlink := h.link_eq as hk'
  have hnd := h.nodup k'
  rw [hk'] at hnd
  have hp : as.getLast? ≠ some w := by
    intro he
    exact (List.nodup_append.mp hnd).2.2 w (List.mem_of_getLast? he) w (by simp) rfl
  have hbranch : ¬ ((m.link w).prev = none ∧ (m.link w).next = none ∧ (ls k).head ≠ some w) := by
    rw [hlink]
    rintro ⟨h1, h2, h3⟩
    rcases hfound with hf | hf | hf
    · exact hf (List.getLast?_eq_none_iff.mp h1)
    · exact hf (List.head?_eq_none_iff.mp h2)
    · exact h3 hf
  obtain ⟨hl, ha⟩ := unlink_list (l := ls k) hlink hp
  unfold DoubleLinkListImpl.remove
  rw [if_neg hbranch]
  exact ⟨rfl, ha, hl, unlink_link hlink hp⟩

/-- An end of another list that is not alone there: an assertion fails. -/
theorem remove_end (hk' : xs k' = as ++ w :: bs) (hne : k ≠ k') (hend : as = [] ∨ bs = [])
    (hlong : as ≠ [] ∨ bs ≠ []) : (DoubleLinkListImpl.remove m (ls k) w).2.1.asserts = false := by
  have hw := h.not_mem_of_other as hk' hne
  have htail : (ls k).tail ≠ some w := by
    rw [h.tail k]
    exact fun he => hw (List.mem_of_getLast? he)
  obtain ⟨-, ha, -, -⟩ := h.remove_unlinks (k := k) hk' (hlong.imp_right .inl)
  rw [ha]
  rcases hend with rfl | rfl
  · simp [h.head_ne hw]
  · simp [htail]

variable [DecidableEq κ]

omit [DecidableEq κ] in
/-- What `push_back` does, for an empty and a nonempty list. -/
theorem pushBack_code (he : ∀ k, e ∉ xs k) (k : κ) :
    (DoubleLinkListImpl.pushBack m (ls k) e).1.asserts = m.asserts ∧
    (DoubleLinkListImpl.pushBack m (ls k) e).2 = ⟨(xs k ++ [e]).head?, some e⟩ ∧
    ∀ x, (DoubleLinkListImpl.pushBack m (ls k) e).1.link x =
      if x = e then ⟨none, (xs k).getLast?⟩ else
        ⟨if (xs k).getLast? = some x then some e else (m.link x).next, (m.link x).prev⟩ := by
  have hnull := h.free e he
  have hhead := h.head k
  have htail := h.tail k
  have hlast : ∀ t, (xs k).getLast? = some t → t ≠ e :=
    fun t ht hte => he k (hte ▸ List.mem_of_getLast? ht)
  rcases List.eq_nil_or_concat (xs k) with hnil | ⟨ys, t, hcons⟩
  · rw [hnil] at hhead htail ⊢
    refine ⟨?_, ?_, fun x => ?_⟩
    · simp [DoubleLinkListImpl.pushBack, hhead, Mem.set, Mem.check, hnull]
    · simp [DoubleLinkListImpl.pushBack, hhead]
    · by_cases hx : x = e <;> simp [DoubleLinkListImpl.pushBack, hhead, htail, Mem.set, Mem.check, hx]
  · rw [List.concat_eq_append] at hcons
    have ht : (xs k).getLast? = some t := by simp [hcons]
    have hte := hlast t ht
    have hsome : (xs k).head?.isSome := by simp [hcons]
    rw [ht] at htail ⊢
    have hnn : (ls k).head.isNone = false := by
      rw [hhead]
      simpa using hsome
    refine ⟨?_, ?_, fun x => ?_⟩
    · simp [DoubleLinkListImpl.pushBack, hnn, htail, Mem.setNext, Mem.set, Mem.check, hnull]
    · simp only [DoubleLinkListImpl.pushBack, hhead]
      rw [hcons]
      simp
    · rcases eq_or_ne x e with rfl | hx
      · simp [DoubleLinkListImpl.pushBack, hnn, htail, Mem.setNext, Mem.set, Mem.check, hte.symm]
      · by_cases hxt : x = t
        · subst hxt
          simp [DoubleLinkListImpl.pushBack, hnn, htail, Mem.setNext, Mem.set, Mem.check, hx]
        · simp [DoubleLinkListImpl.pushBack, hnn, htail, Mem.setNext, Mem.set, Mem.check, hx, hxt, Ne.symm hxt]

theorem pushBack (he : ∀ k, e ∉ xs k) :
    (DoubleLinkListImpl.pushBack m (ls k) e).1.asserts = m.asserts ∧
    Rep (DoubleLinkListImpl.pushBack m (ls k) e).1
      (Function.update ls k (DoubleLinkListImpl.pushBack m (ls k) e).2)
      (Function.update xs k (xs k ++ [e])) := by
  have hnd := h.nodup k
  obtain ⟨ha, hlist, hlink⟩ := h.pushBack_code he k
  refine ⟨ha, h.update ?_ ?_ ?_ ?_ ?_ ?_ ?_⟩
  · rw [← List.concat_eq_append]
    exact hnd.concat (he k)
  · rw [hlist]
  · rw [hlist]
    simp
  · refine (h.linked k).snoc hnd ?_ (fun x hx => ?_)
    · rw [hlink, if_pos rfl]
    · have hxe : x ≠ e := fun hxe => he k (hxe ▸ hx)
      rw [hlink, if_neg hxe]
  · intro k' hk' x hx hmem
    rcases List.mem_append.mp hmem with hmem | hmem
    · exact hk' (h.disjoint k' k x hx hmem)
    · rw [List.mem_singleton] at hmem
      exact he k' (hmem ▸ hx)
  · intro k' hk' x hx
    have hxe : x ≠ e := fun hxe => he k' (hxe ▸ hx)
    have hxt : ¬ (xs k).getLast? = some x :=
      fun ht => hk' (h.disjoint k' k x hx (List.mem_of_getLast? ht))
    rw [hlink, if_neg hxe, if_neg hxt]
  · intro x hx hx'
    simp only [List.mem_append, List.mem_singleton, not_or] at hx
    have hxt : ¬ (xs k).getLast? = some x := fun ht => hx.1 (List.mem_of_getLast? ht)
    rw [hlink, if_neg hx.2, if_neg hxt]
    refine h.free x (fun k' => ?_)
    rcases eq_or_ne k' k with rfl | hk'
    · exact hx.1
    · exact hx' k' hk'

/-- The first node is taken out and returned. -/
theorem popFront_cons (hk : xs k = w :: rest) :
    (DoubleLinkListImpl.popFront m (ls k)).1 = some w ∧
    (DoubleLinkListImpl.popFront m (ls k)).2.1.asserts = m.asserts ∧
    Rep (DoubleLinkListImpl.popFront m (ls k)).2.1
      (Function.update ls k (DoubleLinkListImpl.popFront m (ls k)).2.2) (Function.update xs k rest) := by
  have hlink : m.link w = ⟨rest.head?, none⟩ := h.link_eq [] hk
  have hhead : (ls k).head = some w := by rw [h.head k, hk]; rfl
  have htail := h.tail k
  have hnd := h.nodup k
  rw [hk] at hnd htail
  have hcode : (DoubleLinkListImpl.popFront m (ls k)).1 = some w ∧
      (DoubleLinkListImpl.popFront m (ls k)).2.1.asserts = m.asserts ∧
      (DoubleLinkListImpl.popFront m (ls k)).2.2 = ⟨rest.head?, rest.getLast?⟩ ∧
      ∀ x, (DoubleLinkListImpl.popFront m (ls k)).2.1.link x = if x = w then ⟨none, none⟩ else
        ⟨(m.link x).next, if rest.head? = some x then none else (m.link x).prev⟩ := by
    cases rest with
    | nil =>
      refine ⟨?_, ?_, ?_, fun x => ?_⟩
      · simp [DoubleLinkListImpl.popFront, hhead, hlink]
      · simp [DoubleLinkListImpl.popFront, hhead, hlink, Mem.set]
      · simp [DoubleLinkListImpl.popFront, hhead, hlink]
      · by_cases hx : x = w <;> simp [DoubleLinkListImpl.popFront, hhead, hlink, Mem.set, hx]
    | cons b rest =>
      refine ⟨?_, ?_, ?_, fun x => ?_⟩
      · simp [DoubleLinkListImpl.popFront, hhead, hlink]
      · simp [DoubleLinkListImpl.popFront, hhead, hlink, Mem.set, Mem.setPrev]
      · simp [DoubleLinkListImpl.popFront, hhead, hlink, htail, List.getLast?_cons_cons]
      · by_cases hx : x = w
        · simp [DoubleLinkListImpl.popFront, hhead, hlink, Mem.set, Mem.setPrev, hx]
        · by_cases hxb : x = b
          · subst hxb
            simp [DoubleLinkListImpl.popFront, hhead, hlink, Mem.set, Mem.setPrev, hx]
          · simp [DoubleLinkListImpl.popFront, hhead, hlink, Mem.set, Mem.setPrev, hx, hxb, Ne.symm hxb]
  obtain ⟨h1, h2, h3, h4⟩ := hcode
  refine ⟨h1, h2, ?_⟩
  refine h.unlink [] hk ?_ ?_ (fun x => ?_)
  · rw [h3]
    rfl
  · rw [h3]
    rfl
  · rw [h4]
    simp

/-- A node of this list is taken out, and the others keep their order. -/
theorem remove_mem (hk : xs k = as ++ w :: bs) :
    (DoubleLinkListImpl.remove m (ls k) w).1 = true ∧
    (DoubleLinkListImpl.remove m (ls k) w).2.1.asserts = m.asserts ∧
    Rep (DoubleLinkListImpl.remove m (ls k) w).2.1
      (Function.update ls k (DoubleLinkListImpl.remove m (ls k) w).2.2)
      (Function.update xs k (as ++ bs)) := by
  have hhead := h.head k
  have htail := h.tail k
  rw [hk] at hhead htail
  have hfound : as ≠ [] ∨ bs ≠ [] ∨ (ls k).head = some w := by
    cases as with
    | nil => exact .inr (.inr (by simpa using hhead))
    | cons a as => exact .inl (List.cons_ne_nil a as)
  obtain ⟨h1, h2, h3, h4⟩ := h.remove_unlinks hk hfound
  refine ⟨h1, ?_, h.unlink as hk ?_ ?_ h4⟩
  · rw [h2, hhead, htail]
    cases as <;> cases bs <;> simp [List.getLast?_append, List.getLast?_cons]
  · rw [h3, hhead]
    cases as <;> simp [List.getLast?_cons]
  · rw [h3, htail]
    cases bs <;> simp [List.getLast?_append, List.getLast?_cons]

/-- An inner node of another list is taken out of that list. -/
theorem remove_inner (hk' : xs k' = as ++ w :: bs) (ha : as ≠ []) (hb : bs ≠ []) :
    (DoubleLinkListImpl.remove m (ls k) w).1 = true ∧
    (DoubleLinkListImpl.remove m (ls k) w).2.1.asserts = m.asserts ∧
    (DoubleLinkListImpl.remove m (ls k) w).2.2 = ls k ∧
    Rep (DoubleLinkListImpl.remove m (ls k) w).2.1 ls (Function.update xs k' (as ++ bs)) := by
  have hp : as.getLast?.isSome := by
    rw [Option.isSome_iff_ne_none]
    exact fun he => ha (List.getLast?_eq_none_iff.mp he)
  have hn : bs.head?.isSome := by
    rw [Option.isSome_iff_ne_none]
    exact fun he => hb (List.head?_eq_none_iff.mp he)
  obtain ⟨h1, h2, h3, h4⟩ := h.remove_unlinks (k := k) hk' (.inl ha)
  refine ⟨h1, by rw [h2, hp, hn]; simp, by rw [h3, if_pos hp, if_pos hn], ?_⟩
  have hhead := h.head k'
  have htail := h.tail k'
  rw [hk'] at hhead htail
  have hrep := h.unlink as (l := ls k') hk' ?_ ?_ h4
  · rwa [Function.update_eq_self] at hrep
  · rw [hhead]
    cases as with
    | nil => exact absurd rfl ha
    | cons a as => rfl
  · rw [htail]
    cases bs with
    | nil => exact absurd rfl hb
    | cons b bs => simp [List.getLast?_append, List.getLast?_cons]

omit [DecidableEq N] in
/-- Move assignment into an empty list. -/
theorem moveFrom (hk' : xs k' = []) (hne : k' ≠ k) :
    (DoubleLinkListImpl.moveFrom m (ls k') (ls k)).1 = m ∧
    Rep m (Function.update (Function.update ls k' (ls k)) k DoubleLinkListImpl.new)
      (Function.update (Function.update xs k' (xs k)) k []) := by
  have hempty : (ls k').empty = true := by
    unfold DoubleLinkListImpl.empty
    rw [h.head k', hk']
    rfl
  -- afterwards list `j` is empty, or it is what list `i` was, where `i` determines `j`
  have hcase : ∀ j, (j = k ∧ Function.update (Function.update ls k' (ls k)) k new j = new ∧
        Function.update (Function.update xs k' (xs k)) k [] j = []) ∨
      ∃ i, (j = k' ∧ i = k ∨ j ≠ k' ∧ i = j) ∧ j ≠ k ∧
        Function.update (Function.update ls k' (ls k)) k new j = ls i ∧
        Function.update (Function.update xs k' (xs k)) k [] j = xs i := by
    intro j
    rcases eq_or_ne j k with rfl | hj
    · exact .inl ⟨rfl, Function.update_self .., Function.update_self ..⟩
    · rcases eq_or_ne j k' with rfl | hj'
      · exact .inr ⟨k, .inl ⟨rfl, rfl⟩, hj, by simp [hj], by simp [hj]⟩
      · exact .inr ⟨j, .inr ⟨hj', rfl⟩, hj, by simp [hj, hj'], by simp [hj, hj']⟩
  refine ⟨?_, ?_⟩
  · simp [DoubleLinkListImpl.moveFrom, Mem.check, hempty]
  refine ⟨fun j => ?_, fun j => ?_, fun j => ?_, fun j => ?_, fun j₁ j₂ x h1 h2 => ?_, fun x hx => ?_⟩
  · rcases hcase j with ⟨-, -, hx⟩ | ⟨i, -, -, -, hx⟩
    · rw [hx]
      exact List.nodup_nil
    · exact hx ▸ h.nodup i
  · rcases hcase j with ⟨-, hl, hx⟩ | ⟨i, -, -, hl, hx⟩
    · rw [hl, hx]
      rfl
    · rw [hl, hx, h.head i]
  · rcases hcase j with ⟨-, hl, hx⟩ | ⟨i, -, -, hl, hx⟩
    · rw [hl, hx]
      rfl
    · rw [hl, hx, h.tail i]
  · rcases hcase j with ⟨-, -, hx⟩ | ⟨i, -, -, -, hx⟩
    · rw [hx]
      exact linked_nil
    · rw [hx]
      exact h.linked i
  · rcases hcase j₁ with ⟨-, -, hx⟩ | ⟨i₁, hi₁, hk₁, -, hx₁⟩
    · rw [hx] at h1
      exact nomatch h1
    · rcases hcase j₂ with ⟨-, -, hx⟩ | ⟨i₂, hi₂, hk₂, -, hx₂⟩
      · rw [hx] at h2
        exact nomatch h2
      · rw [hx₁] at h1
        rw [hx₂] at h2
        have hi := h.disjoint i₁ i₂ x h1 h2
        rcases hi₁ with ⟨rfl, rfl⟩ | ⟨-, rfl⟩ <;> rcases hi₂ with ⟨rfl, rfl⟩ | ⟨-, rfl⟩
        · rfl
        · exact absurd hi.symm hk₂
        · exact absurd hi hk₁
        · exact hi
  · refine h.free x (fun j => ?_)
    rcases eq_or_ne j k with rfl | hj
    · have := hx k'
      rwa [Function.update_of_ne hne, Function.update_self] at this
    · rcases eq_or_ne j k' with rfl | hj'
      · rw [hk']
        exact List.not_mem_nil
      · have := hx j
        rwa [Function.update_of_ne hj, Function.update_of_ne hj'] at this

end Operations

end Rep

end Condy
