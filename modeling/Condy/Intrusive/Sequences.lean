import Condy.Intrusive
import Condy.Lib.Run
import Mathlib.Data.Fintype.Basic

/-!
# Condy.Intrusive.Sequences — every run of `DoubleLinkListImpl` operations

`Lists` is any family of lists over one memory of link entries, `Seqs` the family of sequences that they stand for.  Both
take the same operations; `Seqs.Allowed` is what the callers have to keep to: a node is pushed only when it is in no
list, `remove` is given a node of its list or of none, and a list that is assigned to is empty.

`Rep` says that the lists represent the sequences.  It determines the links of every node, so that a node keeps its links
when its sequence stays (`Rep.link_keep`).
-/

namespace Condy

open Lib

variable {κ N : Type} [DecidableEq κ] [DecidableEq N]

/-- An operation on the list `k`. -/
inductive ListOp (κ N : Type) where
  | pushBack (k : κ) (e : N)
  | popFront (k : κ)
  | remove (k : κ) (e : N)
  /-- `list k = std::move(list other)`. -/
  | moveAssign (k other : κ)
deriving DecidableEq, Repr

namespace ListOp

/-- The lists that the operation is about. -/
def lists : ListOp κ N → List κ
  | .pushBack k _ | .popFront k | .remove k _ => [k]
  | .moveAssign k other => [k, other]

/-- The node that it is given. -/
def node : ListOp κ N → Option N
  | .pushBack _ e | .remove _ e => some e
  | .popFront _ | .moveAssign _ _ => none

end ListOp

inductive ListResult (N : Type) where
  | void
  | entry (e : Option N)
  | bool (b : Bool)
deriving DecidableEq, Repr

/-! ## The lists in memory -/

structure Lists (κ N : Type) where
  mem : Mem N
  list : κ → DoubleLinkListImpl N
  returned : List (ListResult N)

namespace Lists

def new : Lists κ N := ⟨⟨fun _ => ⟨none, none⟩, true⟩, fun _ => .new, []⟩

def step (s : Lists κ N) : ListOp κ N → Lists κ N
  | .pushBack k e =>
    let q := DoubleLinkListImpl.pushBack s.mem (s.list k) e
    ⟨q.1, Function.update s.list k q.2, s.returned ++ [.void]⟩
  | .popFront k =>
    let q := DoubleLinkListImpl.popFront s.mem (s.list k)
    ⟨q.2.1, Function.update s.list k q.2.2, s.returned ++ [.entry q.1]⟩
  | .remove k e =>
    let q := DoubleLinkListImpl.remove s.mem (s.list k) e
    ⟨q.2.1, Function.update s.list k q.2.2, s.returned ++ [.bool q.1]⟩
  | .moveAssign k other =>
    if k = other then { s with returned := s.returned ++ [.void] }
    else
      let q := DoubleLinkListImpl.moveFrom s.mem (s.list k) (s.list other)
      ⟨q.1, Function.update (Function.update s.list k q.2.1) other q.2.2, s.returned ++ [.void]⟩

end Lists

/-! ## The sequences -/

structure Seqs (κ N : Type) where
  seq : κ → List N
  returned : List (ListResult N)

namespace Seqs

def new : Seqs κ N := ⟨fun _ => [], []⟩

def step (q : Seqs κ N) : ListOp κ N → Seqs κ N
  | .pushBack k e => ⟨Function.update q.seq k (q.seq k ++ [e]), q.returned ++ [.void]⟩
  | .popFront k => ⟨Function.update q.seq k (q.seq k).tail, q.returned ++ [.entry (q.seq k).head?]⟩
  | .remove k e => ⟨Function.update q.seq k ((q.seq k).erase e), q.returned ++ [.bool (decide (e ∈ q.seq k))]⟩
  | .moveAssign k other =>
    ⟨Function.update (Function.update q.seq k (q.seq other)) other [], q.returned ++ [.void]⟩

def Allowed (q : Seqs κ N) : ListOp κ N → Prop
  | .pushBack _ e => ∀ k, e ∉ q.seq k
  | .popFront _ => True
  | .remove k e => ∀ k', k' ≠ k → e ∉ q.seq k'
  | .moveAssign k _ => q.seq k = []

instance [Fintype κ] (q : Seqs κ N) : (op : ListOp κ N) → Decidable (q.Allowed op)
  | .pushBack _ e => inferInstanceAs (Decidable (∀ k, e ∉ q.seq k))
  | .popFront _ => .isTrue trivial
  | .remove k e => inferInstanceAs (Decidable (∀ k', k' ≠ k → e ∉ q.seq k'))
  | .moveAssign k _ => inferInstanceAs (Decidable (q.seq k = []))

/-- A list that the operation is not about keeps its sequence. -/
theorem step_other (q : Seqs κ N) {op : ListOp κ N} {k : κ} (hk : k ∉ op.lists) : (q.step op).seq k = q.seq k := by
  cases op with
  | pushBack j e | popFront j | remove j e =>
    have hne : k ≠ j := List.ne_of_not_mem_cons hk
    exact Function.update_of_ne hne ..
  | moveAssign j other =>
    simp only [ListOp.lists, List.mem_cons, List.not_mem_nil, or_false, not_or] at hk
    change Function.update (Function.update q.seq j (q.seq other)) other [] k = _
    rw [Function.update_of_ne hk.2, Function.update_of_ne hk.1]

/-- The nodes of the lists afterwards are those of before and the one that was given. -/
theorem mem_step (q : Seqs κ N) {op : ListOp κ N} {k : κ} {x : N} (hx : x ∈ (q.step op).seq k) :
    op.node = some x ∨ ∃ k', (k = k' ∨ k' ∈ op.lists) ∧ x ∈ q.seq k' := by
  by_cases hk : k ∈ op.lists
  · cases op with
    | pushBack j e =>
      obtain rfl := List.mem_singleton.mp hk
      change x ∈ Function.update q.seq k _ k at hx
      rw [Function.update_self] at hx
      rcases List.mem_append.mp hx with hx | hx
      · exact .inr ⟨k, .inl rfl, hx⟩
      · exact .inl (congrArg some (List.mem_singleton.mp hx).symm)
    | popFront j =>
      obtain rfl := List.mem_singleton.mp hk
      change x ∈ Function.update q.seq k _ k at hx
      rw [Function.update_self] at hx
      exact .inr ⟨k, .inl rfl, List.mem_of_mem_tail hx⟩
    | remove j e =>
      obtain rfl := List.mem_singleton.mp hk
      change x ∈ Function.update q.seq k _ k at hx
      rw [Function.update_self] at hx
      exact .inr ⟨k, .inl rfl, List.mem_of_mem_erase hx⟩
    | moveAssign j other =>
      change x ∈ Function.update (Function.update q.seq j (q.seq other)) other [] k at hx
      rcases eq_or_ne k other with rfl | hne
      · rw [Function.update_self] at hx
        exact absurd hx List.not_mem_nil
      · rw [Function.update_of_ne hne] at hx
        rcases eq_or_ne k j with rfl | hne'
        · rw [Function.update_self] at hx
          exact .inr ⟨other, .inr (by simp [ListOp.lists]), hx⟩
        · rw [Function.update_of_ne hne'] at hx
          exact .inr ⟨k, .inl rfl, hx⟩
  · rw [q.step_other hk] at hx
    exact .inr ⟨k, .inl rfl, hx⟩

end Seqs

/-! ## One operation -/

namespace Rep

variable {m m' : Mem N} {ls ls' : κ → DoubleLinkListImpl N} {xs xs' : κ → List N}

omit [DecidableEq κ] [DecidableEq N] in
/-- A node whose sequence stays keeps its links, and so does a node that stays in no list. -/
theorem link_keep (h : Rep m ls xs) (h' : Rep m' ls' xs') {x : N} (hkeep : ∀ k, x ∈ xs k → xs' k = xs k)
    (hback : ∀ k, x ∈ xs' k → x ∈ xs k) : m'.link x = m.link x := by
  by_cases hx : ∃ k, x ∈ xs k
  · obtain ⟨k, hx⟩ := hx
    obtain ⟨as, bs, hk⟩ := List.append_of_mem hx
    rw [h.link_eq as hk, h'.link_eq as ((hkeep k hx).trans hk)]
  · push Not at hx
    rw [h.free x hx, h'.free x fun k hk => hx k (hback k hk)]

end Rep

/-- The lists represent the sequences, the operations returned the same, and every assertion held. -/
structure Refines (s : Lists κ N) (q : Seqs κ N) : Prop where
  rep : Rep s.mem s.list q.seq
  returned : s.returned = q.returned
  asserts : s.mem.asserts = true

namespace Refines

variable {s : Lists κ N} {q : Seqs κ N}

omit [DecidableEq κ] [DecidableEq N] in
theorem new : Refines (Lists.new : Lists κ N) Seqs.new where
  rep :=
    { nodup := fun _ => List.nodup_nil
      head := fun _ => rfl
      tail := fun _ => rfl
      linked := fun _ => linked_nil
      disjoint := fun _ _ _ hx => absurd hx List.not_mem_nil
      free := fun _ _ => rfl }
  returned := rfl
  asserts := rfl

theorem pushBack (h : Refines s q) {k : κ} {e : N} (he : ∀ k, e ∉ q.seq k) :
    Refines (s.step (.pushBack k e)) (q.step (.pushBack k e)) := by
  obtain ⟨ha, hrep⟩ := h.rep.pushBack (k := k) he
  exact ⟨hrep, congrArg (· ++ [_]) h.returned, ha.trans h.asserts⟩

theorem popFront (h : Refines s q) (k : κ) : Refines (s.step (.popFront k)) (q.step (.popFront k)) := by
  cases hk : q.seq k with
  | nil =>
    have hcode := h.rep.popFront_nil hk
    have hlist : Function.update s.list k (s.list k) = s.list := Function.update_eq_self k s.list
    have hseq : Function.update q.seq k [] = q.seq := by
      rw [← hk]
      exact Function.update_eq_self k q.seq
    refine ⟨?_, ?_, ?_⟩
    · simp only [Lists.step, Seqs.step, hcode, hk, List.tail_nil, hlist, hseq]
      exact h.rep
    · simp only [Lists.step, Seqs.step, hcode, hk, h.returned, List.head?_nil]
    · simp only [Lists.step, hcode]
      exact h.asserts
  | cons w rest =>
    obtain ⟨hret, ha, hrep⟩ := h.rep.popFront_cons hk
    refine ⟨?_, ?_, ha.trans h.asserts⟩
    · simp only [Lists.step, Seqs.step, hk, List.tail_cons]
      exact hrep
    · simp only [Lists.step, Seqs.step, hret, hk, h.returned, List.head?_cons]

theorem remove (h : Refines s q) {k : κ} {e : N} (he : ∀ k', k' ≠ k → e ∉ q.seq k') :
    Refines (s.step (.remove k e)) (q.step (.remove k e)) := by
  by_cases hmem : e ∈ q.seq k
  · obtain ⟨as, bs, hk⟩ := List.append_of_mem hmem
    obtain ⟨hret, ha, hrep⟩ := h.rep.remove_mem hk
    have hnd := h.rep.nodup k
    rw [hk] at hnd
    have has : e ∉ as := fun hin => (List.nodup_append.mp hnd).2.2 e hin e List.mem_cons_self rfl
    have herase : (q.seq k).erase e = as ++ bs := by
      rw [hk, List.erase_append_right _ has, List.erase_cons_head]
    refine ⟨?_, ?_, ha.trans h.asserts⟩
    · simp only [Lists.step, Seqs.step, herase]
      exact hrep
    · simp only [Lists.step, Seqs.step, hret, hmem, h.returned, decide_true]
  · have hfree : ∀ k', e ∉ q.seq k' := by
      intro k'
      rcases eq_or_ne k' k with rfl | hne
      · exact hmem
      · exact he k' hne
    have hcode := h.rep.remove_free (k := k) hfree
    have hlist : Function.update s.list k (s.list k) = s.list := Function.update_eq_self k s.list
    have hseq : Function.update q.seq k ((q.seq k).erase e) = q.seq := by
      rw [List.erase_of_not_mem hmem]
      exact Function.update_eq_self k q.seq
    refine ⟨?_, ?_, ?_⟩
    · simp only [Lists.step, Seqs.step, hcode, hlist, hseq]
      exact h.rep
    · simp only [Lists.step, Seqs.step, hcode, h.returned, hmem, decide_false]
    · simp only [Lists.step, hcode]
      exact h.asserts

theorem moveAssign (h : Refines s q) {k : κ} (other : κ) (hk : q.seq k = []) :
    Refines (s.step (.moveAssign k other)) (q.step (.moveAssign k other)) := by
  by_cases hself : k = other
  · -- self-assignment leaves the list alone, and its sequence is empty anyway
    subst hself
    have hseq : Function.update (Function.update q.seq k (q.seq k)) k [] = q.seq := by
      rw [← hk, Function.update_eq_self, Function.update_eq_self]
    refine ⟨?_, ?_, ?_⟩
    · simp only [Lists.step, Seqs.step, if_true, hseq]
      exact h.rep
    · simp only [Lists.step, Seqs.step, if_true, h.returned]
    · simp only [Lists.step, if_true]
      exact h.asserts
  · obtain ⟨hm, hrep⟩ := h.rep.moveFrom hk hself
    refine ⟨?_, ?_, ?_⟩
    · simp only [Lists.step, Seqs.step, if_neg hself, hm]
      exact hrep
    · simp only [Lists.step, Seqs.step, if_neg hself, h.returned]
    · simp only [Lists.step, if_neg hself, hm]
      exact h.asserts

/-- **Step lemma.** -/
theorem step (h : Refines s q) {op : ListOp κ N} (hop : q.Allowed op) : Refines (s.step op) (q.step op) := by
  cases op with
  | pushBack k e => exact h.pushBack hop
  | popFront k => exact h.popFront k
  | remove k e => exact h.remove hop
  | moveAssign k other => exact h.moveAssign other hop

/-- The lists that an operation is not about stay as they are. -/
theorem step_list (s : Lists κ N) {op : ListOp κ N} {k : κ} (hk : k ∉ op.lists) : (s.step op).list k = s.list k := by
  cases op with
  | pushBack j e | popFront j | remove j e =>
    have hne : k ≠ j := List.ne_of_not_mem_cons hk
    exact Function.update_of_ne hne ..
  | moveAssign j other =>
    simp only [ListOp.lists, List.mem_cons, List.not_mem_nil, or_false, not_or] at hk
    simp only [Lists.step]
    split_ifs
    · rfl
    · dsimp only
      rw [Function.update_of_ne hk.2, Function.update_of_ne hk.1]

/-- The nodes that are neither in one of these lists nor given keep their links. -/
theorem step_link (h : Refines s q) {op : ListOp κ N} (hop : q.Allowed op) {x : N} (hx : ∀ k ∈ op.lists, x ∉ q.seq k)
    (hnode : op.node ≠ some x) : (s.step op).mem.link x = s.mem.link x := by
  refine h.rep.link_keep (h.step hop).rep (fun k hk => ?_) fun k hk => ?_
  · exact q.step_other fun hin => hx k hin hk
  · rcases q.mem_step hk with hgiven | ⟨k', rfl | hk', hmem⟩
    · exact absurd hgiven hnode
    · exact hmem
    · exact absurd hmem (hx k' hk')

end Refines

/-! ## Runs -/

/-- The lists and the sequences take an operation together. -/
def listStep (p : Lists κ N × Seqs κ N) (op : ListOp κ N) : Option (Lists κ N × Seqs κ N) :=
  some (p.1.step op, p.2.step op)

/-- **Every run of list operations**, on any family of lists and any nodes: as long as the callers keep to `Allowed`, the
lists represent the sequences, `pop_front` and `remove` returned what they do on sequences, and all assertions held.
The next operation leaves the lists that it is not about, and the nodes outside of its lists, as they are. -/
theorem lists_represent {ops : List (ListOp κ N)} {s : Lists κ N} {q : Seqs κ N}
    (hallowed : Along listStep (fun p op => p.2.Allowed op) (Lists.new, Seqs.new) ops)
    (hrun : run listStep (Lists.new, Seqs.new) ops = some (s, q)) :
    Rep s.mem s.list q.seq ∧ s.returned = q.returned ∧ s.mem.asserts = true ∧
    ∀ op, q.Allowed op → (∀ k ∉ op.lists, (s.step op).list k = s.list k ∧ (q.step op).seq k = q.seq k) ∧
      ∀ x, (∀ k ∈ op.lists, x ∉ q.seq k) → op.node ≠ some x → (s.step op).mem.link x = s.mem.link x := by
  have h : Refines s q := by
    refine run_inv_along (I := fun p : Lists κ N × Seqs κ N => Refines p.1 p.2) ?_ ops Refines.new hallowed hrun
    rintro ⟨s, q⟩ op t h hop hs
    obtain rfl := Option.some.inj hs
    exact h.step hop
  refine ⟨h.rep, h.returned, h.asserts, fun op hop => ⟨fun k hk => ?_, fun x hx hnode => ?_⟩⟩
  · exact ⟨Refines.step_list s hk, q.step_other hk⟩
  · exact h.step_link hop hx hnode

/-- Two lists and four nodes: a removal in the middle, one of a node in no list, a move and a pop. -/
theorem lists_represent_run : ∃ (s : Lists (Fin 2) (Fin 4)) (q : Seqs (Fin 2) (Fin 4)),
    run listStep (Lists.new, Seqs.new) [.pushBack 0 1, .pushBack 0 2, .pushBack 0 3, .remove 0 2, .remove 0 2,
      .moveAssign 1 0, .popFront 1, .pushBack 1 2, .popFront 0] = some (s, q) ∧
    q.seq 0 = [] ∧ q.seq 1 = [3, 2] ∧
    s.returned = [.void, .void, .void, .bool true, .bool false, .void, .entry (some 1), .void, .entry none] ∧
    s.mem.link 2 = ⟨none, some 3⟩ := by
  have hallowed : Along listStep (fun p op => p.2.Allowed op) ((Lists.new, Seqs.new) : Lists (Fin 2) (Fin 4) ×
      Seqs (Fin 2) (Fin 4)) [.pushBack 0 1, .pushBack 0 2, .pushBack 0 3, .remove 0 2, .remove 0 2, .moveAssign 1 0,
      .popFront 1, .pushBack 1 2, .popFront 0] := by decide
  have hseq : (run listStep ((Lists.new, Seqs.new) : Lists (Fin 2) (Fin 4) × Seqs (Fin 2) (Fin 4)) [.pushBack 0 1,
      .pushBack 0 2, .pushBack 0 3, .remove 0 2, .remove 0 2, .moveAssign 1 0, .popFront 1, .pushBack 1 2,
      .popFront 0]).map (fun p => (p.2.seq 0, p.2.seq 1, p.2.returned)) = some ([], [3, 2], [.void, .void, .void,
      .bool true, .bool false, .void, .entry (some 1), .void, .entry none]) := by decide
  obtain ⟨⟨s, q⟩, hrun, hend⟩ := Option.map_eq_some_iff.mp hseq
  simp only [Prod.mk.injEq] at hend
  obtain ⟨h0, h1, hret⟩ := hend
  obtain ⟨hrep, hreturned, -, -⟩ := lists_represent hallowed hrun
  exact ⟨s, q, hrun, h0, h1, hreturned.trans hret, hrep.link_eq (k := 1) [3] h1⟩

end Condy
