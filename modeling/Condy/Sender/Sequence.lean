import Condy.Link
import Condy.Sender.Parallel

/-!
# Condy.Sender.Sequence — what nested link flags sequence

`start(flags)` passes flags down a tree of senders: `flag<F>` adds `F`, `when_all` and `when_any` pass them on, `link` and
`hard_link` add their flag for every child but the last.  `Composed` is such a tree over any kind of operations, and
`Composed.queueWith` goes down it.  Here the operations have one entry each and do not fail: `Sender.queue` is the list of
the flags of the entries that are queued, in order.  An entry with `IOSQE_IO_LINK` or `IOSQE_IO_HARDLINK` has to complete before the next one
starts; `Execution` is any way to execute the entries under this rule, and `Before es p q` says that entry `p` completes
before entry `q` starts in all of them.

`Sequenced` is what a link promises: the operations below a child complete before those below the next child start.
The last child of a link is started without the flag of the link, so what its entries carry depends on the child and on
the links around.  `chained` is the exact condition.
-/

namespace Condy.Sequence

open Sender

def IOSQE_IO_LINK : ℕ := 4
def IOSQE_IO_HARDLINK : ℕ := 8

inductive LinkKind where
  | link
  | hardLink
  deriving DecidableEq, Repr

def LinkKind.flags : LinkKind → ℕ
  | .link => IOSQE_IO_LINK
  | .hardLink => IOSQE_IO_HARDLINK

/-- A sender composed of operations of type `L`. -/
inductive Composed (L : Type) where
  | op (leaf : L)
  | flag (flags : ℕ) (sender : Composed L)
  | parallel (form : Form) (canceller : Canceller) (children : List (Composed L))
  | link (form : Form) (kind : LinkKind) (children : List (Composed L))

/-- A sender of single-entry operations, each given by the flags that `prep_func_` left in its entry. -/
abbrev Sender := Composed ℕ

/-- The entry does not end the chain. -/
def linked (flags : ℕ) : Bool := flags.testBit 2 || flags.testBit 3

/-! ## What is queued -/

namespace Composed

variable {L E : Type} (entries : L → ℕ → List E)

mutual
/-- What `start(flags)` queues, if an operation started with these flags queues these entries. -/
def queueWith : Composed L → ℕ → List E
  | .op leaf, flags => entries leaf flags
  | .flag more s, flags => queueWith s (flags ||| more)
  | .parallel _ _ children, flags => queueWithFrom (fun _ => flags) 0 children
  | .link _ kind children, flags => queueWithFrom (Link.childFlags kind.flags flags children.length) 0 children
/-- The children from number `i` on, child `j` started with the flags `g j`. -/
def queueWithFrom : (ℕ → ℕ) → ℕ → List (Composed L) → List E
  | _, _, [] => []
  | g, i, c :: children => queueWith c (g i) ++ queueWithFrom g (i + 1) children
end

end Composed

namespace Sender

/-- `start(flags)`: the flags of the entries that it queues. -/
def queue (s : Sender) (flags : ℕ) : List ℕ := s.queueWith (fun own flags => [own ||| flags]) flags

def queueFrom (g : ℕ → ℕ) (i : ℕ) (children : List Sender) : List ℕ :=
  Composed.queueWithFrom (fun own flags => [own ||| flags]) g i children

mutual
/-- The number of operations. -/
def size : Sender → ℕ
  | .op _ => 1
  | .flag _ s => size s
  | .parallel _ _ children => sizeAll children
  | .link _ _ children => sizeAll children
def sizeAll : List Sender → ℕ
  | [] => 0
  | c :: children => size c + sizeAll children
end

end Sender

/-! ## What the kernel may do -/

/-- When the entries start and complete. -/
structure Execution (es : List ℕ) (start finish : ℕ → ℕ) : Prop where
  le : ∀ j < es.length, start j ≤ finish j
  chain : ∀ j e, es[j]? = some e → linked e = true → j + 1 < es.length → finish j ≤ start (j + 1)

def Before (es : List ℕ) (p q : ℕ) : Prop := ∀ start finish, Execution es start finish → finish p ≤ start q

/-- Each operation below a child completes before any operation below the next child starts; the operations of the
first child start at position `a`. -/
def Adjacent (es : List ℕ) : List Sender → ℕ → Prop
  | c :: d :: children, a =>
    (∀ p q, a ≤ p → p < a + c.size → a + c.size ≤ q → q < a + c.size + d.size → Before es p q) ∧
      Adjacent es (d :: children) (a + c.size)
  | _, _ => True

mutual
/-- In the queue `es`, in which the operations of the sender start at position `a`, every link in it keeps its
promise. -/
def Sequenced (es : List ℕ) : Sender → ℕ → Prop
  | .op _, _ => True
  | .flag _ s, a => Sequenced es s a
  | .parallel _ _ children, a => SequencedFrom es children a
  | .link _ _ children, a => SequencedFrom es children a ∧ Adjacent es children a
def SequencedFrom (es : List ℕ) : List Sender → ℕ → Prop
  | [], _ => True
  | c :: children, a => Sequenced es c a ∧ SequencedFrom es children (a + c.size)
end

/-! ## The condition -/

namespace Sender

mutual
/-- All operations are linked to the next. -/
def allLinked : Sender → ℕ → Bool
  | .op own, flags => linked (own ||| flags)
  | .flag more s, flags => allLinked s (flags ||| more)
  | .parallel _ _ children, flags => allLinkedFrom (fun _ => flags) 0 children
  | .link _ kind children, flags => allLinkedFrom (Link.childFlags kind.flags flags children.length) 0 children
def allLinkedFrom : (ℕ → ℕ) → ℕ → List Sender → Bool
  | _, _, [] => true
  | g, i, c :: children => allLinked c (g i) && allLinkedFrom g (i + 1) children
end

mutual
/-- All operations but the last are linked to the next. -/
def unbroken : Sender → ℕ → Bool
  | .op _, _ => true
  | .flag more s, flags => unbroken s (flags ||| more)
  | .parallel _ _ children, flags => unbrokenFrom (fun _ => flags) 0 children
  | .link _ kind children, flags => unbrokenFrom (Link.childFlags kind.flags flags children.length) 0 children
def unbrokenFrom : (ℕ → ℕ) → ℕ → List Sender → Bool
  | _, _, [] => true
  | g, i, c :: children =>
    -- the last operation is below this child if there is none below the others
    if sizeAll children = 0 then unbroken c (g i) else allLinked c (g i) && unbrokenFrom g (i + 1) children
end

/-- The last child of a link is unbroken, if the child before it has an operation. -/
def lastUnbroken (flags : ℕ) : List Sender → Bool
  | [] => true
  | [_] => true
  | [c, d] => size c == 0 || unbroken d flags
  | _ :: d :: e :: children => lastUnbroken flags (d :: e :: children)

mutual
/-- The last child of every link in the sender is unbroken. -/
def chained : Sender → ℕ → Bool
  | .op _, _ => true
  | .flag more s, flags => chained s (flags ||| more)
  | .parallel _ _ children, flags => chainedFrom (fun _ => flags) 0 children
  | .link _ kind children, flags =>
    chainedFrom (Link.childFlags kind.flags flags children.length) 0 children && lastUnbroken flags children
def chainedFrom : (ℕ → ℕ) → ℕ → List Sender → Bool
  | _, _, [] => true
  | g, i, c :: children => chained c (g i) && chainedFrom g (i + 1) children
end

end Sender

/-! ## The chain of the kernel -/

section Kernel

variable {es : List ℕ} {p q : ℕ}

/-- Along linked entries completions come before starts. -/
theorem finish_le_start {start finish : ℕ → ℕ} (h : Execution es start finish) (hlen : q < es.length) (hpq : p < q)
    (hl : ∀ j e, p ≤ j → j < q → es[j]? = some e → linked e = true) : finish p ≤ start q := by
  induction q with
  | zero => omega
  | succ q ih =>
    obtain ⟨e, he⟩ : ∃ e, es[q]? = some e := ⟨_, List.getElem?_eq_getElem (by omega)⟩
    have hstep := h.chain q e he (hl q e (by omega) (by omega) he) hlen
    by_cases hq : p = q
    · rw [hq]
      exact hstep
    · have hbefore := ih (by omega) (by omega) (fun j e h1 h2 => hl j e h1 (by omega))
      have hrun := h.le q (by omega)
      omega

/-- An entry completes before a later one starts exactly if no entry from it on ends the chain. -/
theorem before_iff (hpq : p < q) (hlen : q < es.length) :
    Before es p q ↔ ∀ j e, p ≤ j → j < q → es[j]? = some e → linked e = true := by
  constructor
  · intro h j e hpj hjq he
    by_contra hl
    -- the entries behind the end of the chain are done before the others start
    have hbad := h (fun i => if i ≤ j then 1 else 0) (fun i => if i ≤ j then 1 else 0) ⟨fun _ _ => le_rfl, ?_⟩
    · rw [if_pos hpj, if_neg (by omega)] at hbad
      omega
    · intro i e' he' hl' _
      have hne : i ≠ j := by
        rintro rfl
        rw [he] at he'
        exact hl (Option.some.inj he' ▸ hl')
      split_ifs <;> omega
  · exact fun hl start finish h => finish_le_start h hlen hpq hl

theorem getElem?_block (pre b post : List ℕ) {k : ℕ} (hk : k < b.length) :
    (pre ++ b ++ post)[pre.length + k]? = b[k]? := by
  rw [List.append_assoc, List.getElem?_append_right (by omega), List.getElem?_append_left (by omega)]
  congr 1
  omega

/-- Two blocks of entries, the first of which is linked throughout: all of the first complete before any of the second
start exactly if the second has no end of chain but its last entry. -/
theorem blocks_before (pre d post : List ℕ) {b : List ℕ} (hb : ∀ e ∈ b, linked e = true) :
    (∀ p q, pre.length ≤ p → p < pre.length + b.length → pre.length + b.length ≤ q →
      q < pre.length + b.length + d.length → Before (pre ++ b ++ d ++ post) p q) ↔
    b.length = 0 ∨ ∀ e ∈ d.dropLast, linked e = true := by
  have hlen : (pre ++ b ++ d ++ post).length = pre.length + b.length + d.length + post.length := by simp; omega
  have hd : ∀ k < d.length, (pre ++ b ++ d ++ post)[pre.length + b.length + k]? = d[k]? := by
    intro k hk
    have := getElem?_block (pre ++ b) d post hk
    rwa [List.length_append] at this
  constructor
  · intro h
    by_cases hzero : b.length = 0
    · exact .inl hzero
    · refine .inr fun e he => ?_
      obtain ⟨k, hk⟩ := List.mem_iff_getElem?.mp he
      rw [List.getElem?_dropLast] at hk
      obtain ⟨hlt, hk⟩ := Option.ite_none_right_eq_some.mp hk
      have hends := h pre.length (pre.length + b.length + (d.length - 1)) le_rfl (by omega) (by omega) (by omega)
      exact (before_iff (by omega) (by omega)).mp hends (pre.length + b.length + k) e (by omega) (by omega)
        ((hd k (by omega)).trans hk)
  · rintro h p q hp hpb hq hqc
    have hlast := h.resolve_left (by omega)
    refine (before_iff (by omega) (by omega)).mpr fun j e hpj hjq he => ?_
    by_cases hj : j < pre.length + b.length
    · obtain ⟨k, rfl⟩ := Nat.exists_eq_add_of_le (hp.trans hpj)
      rw [List.append_assoc, getElem?_block pre b _ (by omega)] at he
      exact hb e (List.mem_of_getElem? he)
    · obtain ⟨k, rfl⟩ := Nat.exists_eq_add_of_le (Nat.le_of_not_lt hj)
      rw [hd k (by omega)] at he
      refine hlast e (List.mem_of_getElem? (i := k) ?_)
      rw [List.getElem?_dropLast, if_pos (by omega)]
      exact he

end Kernel

/-! ## The entries of a sender -/

theorem linked_or {flags : ℕ} (h : linked flags = true) (more : ℕ) : linked (flags ||| more) = true := by
  unfold linked at h ⊢
  rw [Nat.testBit_or, Nat.testBit_or]
  cases h2 : flags.testBit 2 <;> simp_all

theorem linked_kind (flags : ℕ) (kind : LinkKind) : linked (flags ||| kind.flags) = true := by
  rw [Nat.or_comm]
  cases kind <;> exact linked_or (by decide) flags

/-- The flags of a link are among those of every child. -/
theorem linked_childFlags {flags : ℕ} (h : linked flags = true) (kind : LinkKind) (n i : ℕ) :
    linked (Link.childFlags kind.flags flags n i) = true := by
  unfold Link.childFlags
  split_ifs
  · exact linked_or h _
  · exact h

namespace Composed

section Linked

variable {L E : Type} {entries : L → ℕ → List E} {P : E → Prop}

mutual
/-- Started with a link flag, all operations are. -/
theorem forall_mem_queueWith (hleaf : ∀ leaf flags, linked flags = true → ∀ e ∈ entries leaf flags, P e) :
    ∀ (c : Composed L) (flags : ℕ), linked flags = true → ∀ e ∈ c.queueWith entries flags, P e
  | .op leaf, flags, h, e, he => hleaf leaf flags h e he
  | .flag more c, flags, h, e, he => forall_mem_queueWith hleaf c (flags ||| more) (linked_or h more) e he
  | .parallel _ _ children, _, h, e, he => forall_mem_queueWithFrom hleaf children _ 0 (fun _ _ _ => h) e he
  | .link _ kind children, _, h, e, he =>
    forall_mem_queueWithFrom hleaf children _ 0 (fun j _ _ => linked_childFlags h kind children.length j) e he
theorem forall_mem_queueWithFrom (hleaf : ∀ leaf flags, linked flags = true → ∀ e ∈ entries leaf flags, P e) :
    ∀ (children : List (Composed L)) (g : ℕ → ℕ) (i : ℕ),
      (∀ j, i ≤ j → j < i + children.length → linked (g j) = true) → ∀ e ∈ queueWithFrom entries g i children, P e
  | c :: children, g, i, h, e, he => by
    rw [List.length_cons] at h
    rcases List.mem_append.mp he with hc | hr
    · exact forall_mem_queueWith hleaf c (g i) (h i le_rfl (by omega)) e hc
    · exact forall_mem_queueWithFrom hleaf children g (i + 1) (fun j h1 h2 => h j (by omega) (by omega)) e hr
end

end Linked

end Composed

namespace Sender

theorem queueFrom_cons (g : ℕ → ℕ) (i : ℕ) (c : Sender) (children : List Sender) :
    queueFrom g i (c :: children) = queue c (g i) ++ queueFrom g (i + 1) children := rfl

mutual
theorem length_queue : ∀ (s : Sender) (flags : ℕ), (queue s flags).length = size s
  | .op _, _ => rfl
  | .flag more s, flags => length_queue s (flags ||| more)
  | .parallel _ _ children, flags => length_queueFrom (fun _ => flags) 0 children
  | .link _ kind children, flags => length_queueFrom (Link.childFlags kind.flags flags children.length) 0 children
theorem length_queueFrom : ∀ (g : ℕ → ℕ) (i : ℕ) (children : List Sender),
    (queueFrom g i children).length = sizeAll children
  | _, _, [] => rfl
  | g, i, c :: children => by
    rw [queueFrom_cons, sizeAll, List.length_append, length_queue c, length_queueFrom g (i + 1) children]
end

/-- Started with a link flag, all entries carry one. -/
theorem linked_of_mem_queue (s : Sender) {flags : ℕ} (h : linked flags = true) : ∀ e ∈ queue s flags, linked e = true := by
  refine Composed.forall_mem_queueWith (fun own flags h e he => ?_) s flags h
  rw [List.mem_singleton.mp he, Nat.or_comm]
  exact linked_or h own

mutual
theorem allLinked_iff : ∀ (s : Sender) (flags : ℕ), allLinked s flags = true ↔ ∀ e ∈ queue s flags, linked e = true
  | .op own, flags => (List.forall_mem_singleton (p := fun e => linked e = true) (a := own ||| flags)).symm
  | .flag more s, flags => allLinked_iff s (flags ||| more)
  | .parallel _ _ children, flags => allLinkedFrom_iff (fun _ => flags) 0 children
  | .link _ kind children, flags => allLinkedFrom_iff (Link.childFlags kind.flags flags children.length) 0 children
theorem allLinkedFrom_iff : ∀ (g : ℕ → ℕ) (i : ℕ) (children : List Sender),
    allLinkedFrom g i children = true ↔ ∀ e ∈ queueFrom g i children, linked e = true
  | _, _, [] => iff_of_true rfl fun _ he => absurd he List.not_mem_nil
  | g, i, c :: children => by
    rw [allLinkedFrom, Bool.and_eq_true, allLinked_iff c, allLinkedFrom_iff g (i + 1) children, queueFrom_cons,
      List.forall_mem_append]
end

mutual
/-- The condition on the tree is one on the entries. -/
theorem unbroken_iff : ∀ (s : Sender) (flags : ℕ),
    unbroken s flags = true ↔ ∀ e ∈ (queue s flags).dropLast, linked e = true
  | .op _, _ => iff_of_true rfl fun _ he => absurd he List.not_mem_nil
  | .flag more s, flags => unbroken_iff s (flags ||| more)
  | .parallel _ _ children, flags => unbrokenFrom_iff (fun _ => flags) 0 children
  | .link _ kind children, flags => unbrokenFrom_iff (Link.childFlags kind.flags flags children.length) 0 children
theorem unbrokenFrom_iff : ∀ (g : ℕ → ℕ) (i : ℕ) (children : List Sender),
    unbrokenFrom g i children = true ↔ ∀ e ∈ (queueFrom g i children).dropLast, linked e = true
  | _, _, [] => iff_of_true rfl fun _ he => absurd he List.not_mem_nil
  | g, i, c :: children => by
    have hlen := length_queueFrom g (i + 1) children
    rw [unbrokenFrom, queueFrom_cons]
    by_cases hz : sizeAll children = 0
    · rw [if_pos hz, List.eq_nil_of_length_eq_zero (hlen.trans hz), List.append_nil]
      exact unbroken_iff c (g i)
    · have hne : queueFrom g (i + 1) children ≠ [] := by
        intro hnil
        rw [hnil] at hlen
        exact hz hlen.symm
      rw [if_neg hz, Bool.and_eq_true, allLinked_iff c, unbrokenFrom_iff g (i + 1) children,
        List.dropLast_append_of_ne_nil hne, List.forall_mem_append]
end

/-- A child of a link against the next one. -/
theorem child_before (pre post : List ℕ) (c d : Sender) {f : ℕ} (hf : linked f = true) (g : ℕ) :
    (∀ p q, pre.length ≤ p → p < pre.length + size c → pre.length + size c ≤ q →
      q < pre.length + size c + size d → Before (pre ++ queue c f ++ queue d g ++ post) p q) ↔
    size c = 0 ∨ unbroken d g = true := by
  have h := blocks_before pre (queue d g) post (linked_of_mem_queue c hf)
  rw [length_queue, length_queue] at h
  rw [h, unbroken_iff]

/-- The children of a link from number `i` on: all but the last start with the flag of the link. -/
theorem adjacent_iff (kind : LinkKind) (flags n : ℕ) : ∀ (children : List Sender) (i : ℕ) (pre post : List ℕ),
    i + children.length = n →
    (Adjacent (pre ++ queueFrom (Link.childFlags kind.flags flags n) i children ++ post) children pre.length ↔
      lastUnbroken flags children = true)
  | [], _, _, _, _ => by simp [Adjacent, lastUnbroken]
  | [_], _, _, _, _ => by simp [Adjacent, lastUnbroken]
  | [c, d], i, pre, post, hn => by
    simp only [List.length_cons, List.length_nil] at hn
    have hc : Link.childFlags kind.flags flags n i = flags ||| kind.flags := if_pos (by omega)
    have hd : Link.childFlags kind.flags flags n (i + 1) = flags := if_neg (by omega)
    have hqueue : queueFrom (Link.childFlags kind.flags flags n) i [c, d] =
        queue c (flags ||| kind.flags) ++ queue d flags := by
      rw [queueFrom_cons, queueFrom_cons, hc, hd]
      exact congrArg _ (List.append_nil _)
    have h := child_before pre post c d (linked_kind flags kind) flags
    simp only [Adjacent, lastUnbroken, hqueue, and_true, Bool.or_eq_true, beq_iff_eq]
    rwa [← List.append_assoc]
  | c :: d :: e :: children, i, pre, post, hn => by
    simp only [List.length_cons] at hn
    have hc : Link.childFlags kind.flags flags n i = flags ||| kind.flags := if_pos (by omega)
    have hd : Link.childFlags kind.flags flags n (i + 1) = flags ||| kind.flags := if_pos (by omega)
    have ih := adjacent_iff kind flags n (d :: e :: children) (i + 1) (pre ++ queue c (flags ||| kind.flags)) post
      (by simp only [List.length_cons]; omega)
    -- the second child is not the last one either, and so linked throughout
    have hnext := (child_before pre
      (queueFrom (Link.childFlags kind.flags flags n) (i + 2) (e :: children) ++ post) c d (linked_kind flags kind)
      (flags ||| kind.flags)).mpr (.inr ((unbroken_iff _ _).mpr fun e he =>
        linked_of_mem_queue d (linked_kind flags kind) e (List.dropLast_subset _ he)))
    rw [List.length_append, length_queue] at ih
    rw [lastUnbroken, ← ih, Adjacent]
    simp only [queueFrom_cons, hc, hd, List.append_assoc] at hnext ⊢
    exact and_iff_right hnext

mutual
/-- The links in a sender keep their promise exactly if it is chained, whatever is queued around it. -/
theorem sequenced_iff : ∀ (s : Sender) (flags : ℕ) (pre post : List ℕ),
    Sequenced (pre ++ queue s flags ++ post) s pre.length ↔ chained s flags = true
  | .op _, _, _, _ => by simp [Sequenced, chained]
  | .flag more s, flags, pre, post => sequenced_iff s (flags ||| more) pre post
  | .parallel _ _ children, flags, pre, post => sequencedFrom_iff (fun _ => flags) 0 children pre post
  | .link _ kind children, flags, pre, post => by
    rw [Sequenced, chained, Bool.and_eq_true]
    exact and_congr (sequencedFrom_iff (Link.childFlags kind.flags flags children.length) 0 children pre post)
      (adjacent_iff kind flags children.length children 0 pre post (Nat.zero_add _))
theorem sequencedFrom_iff : ∀ (g : ℕ → ℕ) (i : ℕ) (children : List Sender) (pre post : List ℕ),
    SequencedFrom (pre ++ queueFrom g i children ++ post) children pre.length ↔ chainedFrom g i children = true
  | _, _, [], _, _ => by simp [SequencedFrom, chainedFrom]
  | g, i, c :: children, pre, post => by
    have hc := sequenced_iff c (g i) pre (queueFrom g (i + 1) children ++ post)
    have hr := sequencedFrom_iff g (i + 1) children (pre ++ queue c (g i)) post
    rw [List.length_append, length_queue] at hr
    rw [SequencedFrom, chainedFrom, Bool.and_eq_true, ← hc, ← hr, queueFrom_cons]
    simp only [List.append_assoc]
end

end Sender

/-- Each link in a sender has the operations below a child complete before those below the next child start exactly if
the last child of each link is unbroken (or the child before it has no operation). -/
theorem link_sequences_iff (s : Sender) (flags : ℕ) : Sequenced (s.queue flags) s 0 ↔ s.chained flags = true := by
  have h := s.sequenced_iff flags [] []
  rwa [List.nil_append, List.append_nil] at h

/-- A flat list of operations is chained. -/
example : Sender.chained (.link .variadic .link [.op 0, .op 0, .op 0]) 0 = true := by decide

/-- A group as the last child of a link: its second operation may be over before the first child completes. -/
theorem link_last_group : let s : Sender := .link .variadic .link [.op 0, .parallel .variadic .whenAll [.op 0, .op 0]]
    s.queue 0 = [IOSQE_IO_LINK, 0, 0] ∧
      (∃ start finish, Execution (s.queue 0) start finish ∧ finish 2 < finish 0) ∧
      ¬Sequenced (s.queue 0) s 0 := by
  intro s
  have hq : s.queue 0 = [IOSQE_IO_LINK, 0, 0] := by decide
  have hexec : Execution (s.queue 0) (fun i => if i ≤ 1 then 1 else 0) (fun i => if i ≤ 1 then 1 else 0) := by
    rw [hq]
    refine ⟨fun _ _ => le_rfl, fun j e he hl _ => ?_⟩
    match j with
    | 0 => decide
    | 1 => exact absurd hl (Option.some.inj he ▸ by decide)
    | j + 2 => simp
  refine ⟨hq, ⟨_, _, hexec, by decide⟩, fun h => ?_⟩
  -- the first child against the second operation of the group
  rw [Sequenced, Adjacent] at h
  have hbefore := h.2.1 0 2 (by decide) (by decide) (by decide) (by decide) _ _ hexec
  exact absurd hbefore (by decide)

end Condy.Sequence
