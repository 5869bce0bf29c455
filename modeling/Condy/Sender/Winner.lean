import Condy.Sender.Tree
import Mathlib.Data.List.Nodup

/-!
# Condy.Sender.Winner — the first completion wins a `when_any`

The canceller of a `when_any` runs before the completion takes its number, so the first completion is the winner only
if no receiver is called inside `request_stop`.  `Settled` is the reason: of the calls that have not returned, at most
one is a `receive_`, and it is below every `request_stop`.  `World.Inv` adds the books: the completions that reached a
node, in order, are those that took a number and the one that is still in `receive_`.
-/

namespace Condy.Sender

open Lib

variable {T : Type}

/-! ## Reading the log and the stack -/

/-- The operations whose receiver was called. -/
def calledPaths (log : List (Event T)) : List Path :=
  log.filterMap (fun | .called p _ _ => some p | .fired _ => none)

/-- The completions that reached node `p`, in order. -/
def childCalls (p : Path) (log : List (Event T)) : List (ℕ × Val T) :=
  log.filterMap (fun | .called (i :: q) v _ => if q = p then some (i, v) else none | _ => none)

/-- The completions that are in `receive_` of node `p`. -/
def pending (p : Path) (stack : List (Call T)) : List (ℕ × Val T) :=
  stack.filterMap (fun
    | .receive q i v => if q = p then some (i, v) else none
    | .record q i v => if q = p then some (i, v) else none
    | .stopping _ => none)

/-- The call that the receiver at `p` makes. -/
def entry : Path → Val T → List (Call T)
  | [], _ => []
  | i :: q, v => [.receive q i v]

section Readers

variable (p q : Path) (v : Val T) (b : Bool) (log : List (Event T))

@[simp] theorem calledPaths_called : calledPaths (log ++ [.called p v b]) = calledPaths log ++ [p] := by
  simp [calledPaths]

@[simp] theorem calledPaths_fired : calledPaths (log ++ [.fired p]) = calledPaths log := by simp [calledPaths]

theorem childCalls_append (l : List (Event T)) : childCalls p (log ++ l) = childCalls p log ++ childCalls p l :=
  List.filterMap_append

@[simp] theorem childCalls_fired : childCalls p (log ++ [.fired q]) = childCalls p log := by simp [childCalls]

/-- A call of a receiver reaches the node above. -/
theorem childCalls_called :
    childCalls q (log ++ [.called p v b]) = childCalls q log ++ pending q (entry p v) := by
  rw [childCalls_append]
  cases p with
  | nil => rfl
  | cons i p => by_cases h : p = q <;> simp [childCalls, pending, entry, h]

/-- The children that completed are among the operations whose receiver was called. -/
theorem childCalls_sublist : ((childCalls p log).map (fun c => c.1 :: p)).Sublist (calledPaths log) := by
  induction log with
  | nil => exact List.Sublist.refl _
  | cons e log ih =>
    cases e with
    | fired q => exact ih
    | called q v b =>
      cases q with
      | nil => exact ih.cons _
      | cons i q =>
        by_cases hq : q = p
        · subst hq
          simpa [childCalls, calledPaths] using ih
        · simpa [childCalls, calledPaths, hq] using ih.cons (i :: q)

/-- A child completes once if receivers are called once. -/
theorem childCalls_nodup (h : (calledPaths log).Nodup) : ((childCalls p log).map Prod.fst).Nodup := by
  have hnd := h.sublist (childCalls_sublist p log)
  have hmap : (childCalls p log).map (fun c => c.1 :: p) = ((childCalls p log).map Prod.fst).map (· :: p) := by
    rw [List.map_map]
    rfl
  rw [hmap] at hnd
  exact List.Nodup.of_map _ hnd

end Readers

/-- Of the calls that have not returned, at most one is a `receive_`, and it is below every `request_stop`. -/
def Settled (stack : List (Call T)) : Prop :=
  ∃ stops base, stack = stops ++ base ∧ (∀ c ∈ stops, c.isStop = true) ∧ (∀ c ∈ base, c.isStop = false) ∧
    base.length ≤ 1

namespace Settled

variable {c : Call T} {stack : List (Call T)}

theorem nil : Settled ([] : List (Call T)) := ⟨[], [], rfl, by simp, by simp, by simp⟩

theorem single (hc : c.isStop = false) : Settled [c] := ⟨[], [c], rfl, by simp, by simpa using hc, by simp⟩

theorem pushStop (h : Settled stack) (hc : c.isStop = true) : Settled (c :: stack) := by
  obtain ⟨stops, base, rfl, hs, hb, hl⟩ := h
  refine ⟨c :: stops, base, rfl, ?_, hb, hl⟩
  intro x hx
  rcases List.mem_cons.mp hx with rfl | hx
  · exact hc
  · exact hs x hx

theorem popStop (h : Settled (c :: stack)) (hc : c.isStop = true) : Settled stack := by
  obtain ⟨stops, base, he, hs, hb, hl⟩ := h
  cases stops with
  | nil =>
    have hmem : c ∈ base := by rw [← List.nil_append base, ← he]; exact List.mem_cons_self
    simp [hb c hmem] at hc
  | cons d stops =>
    obtain ⟨-, rfl⟩ := List.cons.inj he
    exact ⟨stops, base, rfl, fun x hx => hs x (List.mem_cons_of_mem d hx), hb, hl⟩

/-- A `receive_` is the innermost call only if it is the only one. -/
theorem alone (h : Settled (c :: stack)) (hc : c.isStop = false) : stack = [] := by
  obtain ⟨stops, base, he, hs, hb, hl⟩ := h
  cases stops with
  | nil =>
    rw [List.nil_append] at he
    subst he
    simpa using hl
  | cons d stops =>
    obtain ⟨rfl, -⟩ := List.cons.inj he
    simp [hs c List.mem_cons_self] at hc

end Settled

/-! ## The nodes -/

/-- The completions of `l` have taken their numbers. -/
structure NodeOk {n : ℕ} (o : OpState n (fun _ => Val T)) (l : List (Fin n × Val T)) : Prop where
  count : o.completedCount = l.length
  order : ∀ k, o.order k = (l.map Prod.fst)[k]?
  results : ∀ q ∈ l, o.results q.1 = some q.2

/-- The counter, the order and the results are the same. -/
def SameNode {n : ℕ} (o o' : OpState n (fun _ => Val T)) : Prop :=
  o'.completedCount = o.completedCount ∧ o'.order = o.order ∧ o'.results = o.results

namespace NodeOk

variable {n : ℕ} {o o' : OpState n (fun _ => Val T)} {l : List (Fin n × Val T)}

theorem congr (h : NodeOk o l) (hs : SameNode o o') : NodeOk o' l := by
  obtain ⟨h1, h2, h3⟩ := hs
  exact ⟨h1.trans h.count, fun k => by rw [h2, h.order], fun q hq => by rw [h3, h.results q hq]⟩

theorem receive (h : NodeOk o l) (form : Form) {i : Fin n} {v : Val T} (hi : i ∉ l.map Prod.fst) :
    NodeOk (o.receive form i v) (l ++ [(i, v)]) := by
  obtain ⟨hcount, horder, hresults, -⟩ := o.receive_spec form i v
  refine ⟨?_, fun k => ?_, fun q hq => ?_⟩
  · rw [hcount, h.count, List.length_append, List.length_singleton]
  · rw [horder, h.count, List.map_append, ← List.length_map Prod.fst]
    exact update_getElem? h.order i k
  · rw [hresults]
    rcases List.mem_append.mp hq with hold | hnew
    · have hne : q.1 ≠ i := fun he => hi (he ▸ List.mem_map_of_mem hold)
      rw [Function.update_of_ne hne]
      exact h.results q hold
    · rw [List.mem_singleton.mp hnew]
      exact Function.update_self _ _ _

/-- `when_any` delivers the first completion. -/
theorem chosen {i : Fin n} {v : Val T} (h : NodeOk o ((i, v) :: l)) : Shape.whenAny.result o = .chosen i v := by
  have h0 := h.order 0
  have hv := h.results (i, v) List.mem_cons_self
  rw [List.map_cons, List.getElem?_cons_zero] at h0
  simp only [Shape.result, h0, hv, Option.elim_some]

end NodeOk

theorem sameNode_canceller {n : ℕ} (o : OpState n (fun _ => Val T)) (c : Canceller) :
    SameNode o (o.canceller c).2 := by
  obtain ⟨b, hb⟩ := o.canceller_spec c
  rw [hb]
  exact ⟨rfl, rfl, rfl⟩

theorem sameNode_cancel {n : ℕ} (o : OpState n (fun _ => Val T)) (c : Canceller) : SameNode o (o.cancel c) := by
  obtain ⟨b, hb⟩ := o.cancel_spec c
  rw [hb]
  exact ⟨rfl, rfl, rfl⟩

/-! ## The agenda -/

namespace Tree

/-- What `start` reaches: a leaf or a node without children. -/
def Plain (t : Tree) (p : Path) : Prop :=
  (∃ k, t.sub p = some (.leaf k)) ∨ ∃ f sh, t.sub p = some (.node f sh [])

theorem arity_eq {t : Tree} {p : Path} {f : Form} {sh : Shape} {cs : List Tree} (h : t.sub p = some (.node f sh cs)) :
    t.arity p = cs.length := by
  simp [arity, h]

mutual
theorem starts_spec (t : Tree) : ∀ (u : Tree) (p : Path), t.sub p = some u →
    (u.starts p).Nodup ∧ ∀ x ∈ u.starts p, t.Plain x ∧ p <:+ x
  | .leaf k, p, hp => by
    refine ⟨List.nodup_singleton _, fun x hx => ?_⟩
    rw [List.mem_singleton.mp hx]
    exact ⟨.inl ⟨k, hp⟩, List.suffix_refl _⟩
  | .node f sh [], p, hp => by
    refine ⟨List.nodup_singleton _, fun x hx => ?_⟩
    rw [List.mem_singleton.mp hx]
    exact ⟨.inr ⟨f, sh, hp⟩, List.suffix_refl _⟩
  | .node f sh (c :: cs), p, hp => by
    have h := startsFrom_spec t (c :: cs) p 0 (fun j => by simp [sub, hp, child])
    exact ⟨h.1, fun x hx => ⟨(h.2 x hx).1, by
      obtain ⟨j, -, hj⟩ := (h.2 x hx).2
      exact (List.suffix_cons j p).trans hj⟩⟩
theorem startsFrom_spec (t : Tree) : ∀ (cs : List Tree) (p : Path) (i : ℕ), (∀ j, t.sub ((i + j) :: p) = cs[j]?) →
    (startsFrom cs p i).Nodup ∧ ∀ x ∈ startsFrom cs p i, t.Plain x ∧ ∃ j, i ≤ j ∧ (j :: p) <:+ x
  | [], _, _, _ => ⟨List.nodup_nil, fun _ hx => absurd hx List.not_mem_nil⟩
  | c :: cs, p, i, hp => by
    obtain ⟨hnd, hmem⟩ := starts_spec t c (i :: p) (by simpa using hp 0)
    obtain ⟨hnd', hmem'⟩ := startsFrom_spec t cs p (i + 1) (fun j => by
      have := hp (j + 1)
      rw [show i + (j + 1) = i + 1 + j by omega] at this
      simpa using this)
    refine ⟨List.nodup_append.mpr ⟨hnd, hnd', fun x hx y hy hxy => ?_⟩, fun x hx => ?_⟩
    · -- two children's paths differ in the last index but `p`
      obtain ⟨-, hsuf⟩ := hmem x hx
      obtain ⟨-, j, hj, hsuf'⟩ := hmem' y hy
      rw [← hxy] at hsuf'
      have heq := (List.suffix_of_suffix_length_le hsuf hsuf' (by simp)).eq_of_length (by simp)
      obtain ⟨hij, -⟩ := List.cons.inj heq
      omega
    · rcases List.mem_append.mp hx with hx | hx
      · exact ⟨(hmem x hx).1, i, le_rfl, (hmem x hx).2⟩
      · obtain ⟨hpl, j, hj, hsuf⟩ := hmem' x hx
        exact ⟨hpl, j, by omega, hsuf⟩
end

end Tree

/-! ## The tree -/

namespace World

variable {t : Tree}

structure Inv (s : World t T) : Prop where
  stack : Settled s.stack
  quiet : ∀ p v b, Event.called p v b ∈ s.log → b = false
  once : (calledPaths s.log).Nodup
  agenda : s.agenda.Nodup
  unstarted : ∀ p ∈ s.agenda, s.leaves p = .idle ∧ p ∉ calledPaths s.log ∧ t.Plain p
  leaves : ∀ p, s.leaves p = .idle ∨ ∃ k, t.sub p = some (.leaf k)
  leafCalled : ∀ p k, t.sub p = some (.leaf k) → p ∈ calledPaths s.log → s.leaves p = .done
  nodeCalled : ∀ p f sh c cs, t.sub p = some (.node f sh (c :: cs)) → p ∈ calledPaths s.log →
    (s.nodes p).completedCount = t.arity p
  /-- The completions that reached a node have taken their numbers, or are in `receive_`. -/
  nodes : ∀ p, ∃ l, NodeOk (s.nodes p) l ∧
    childCalls p s.log = l.map (fun q => (q.1.val, q.2)) ++ pending p s.stack
  /-- A `when_any` delivered its first completion. -/
  chosen : ∀ p f c cs v b, t.sub p = some (.node f .whenAny (c :: cs)) → Event.called p v b ∈ s.log →
    ∃ i w rest, childCalls p s.log = (i, w) :: rest ∧ v = .chosen i w
  /-- A canceller requests a stop for a completion that has reached its node. -/
  fired : ∀ p pre post, s.log = pre ++ .fired p :: post → childCalls p pre ≠ []

theorem init_inv (stopped : Bool) : (init t T stopped).Inv where
  stack := Settled.nil
  quiet := fun _ _ _ h => absurd h List.not_mem_nil
  once := List.nodup_nil
  agenda := (Tree.starts_spec t t [] rfl).1
  unstarted := fun p hp => ⟨rfl, List.not_mem_nil, ((Tree.starts_spec t t [] rfl).2 p hp).1⟩
  leaves := fun _ => .inl rfl
  leafCalled := fun _ _ _ h => absurd h List.not_mem_nil
  nodeCalled := fun _ _ _ _ _ _ h => absurd h List.not_mem_nil
  nodes := fun _ => ⟨[], ⟨rfl, fun _ => rfl, fun _ h => absurd h List.not_mem_nil⟩, rfl⟩
  chosen := fun _ _ _ _ _ _ _ h => absurd h List.not_mem_nil
  fired := fun p pre post h => by simp [init] at h

namespace Inv

variable {s s' : World t T} {p : Path} {v : Val T}

/-- Steps that call no receiver: the stack keeps its `receive_`, and a leaf that was neither idle nor done may
change. -/
theorem keep (h : s.Inv) (hstack : Settled s'.stack) (hpend : ∀ p, pending p s'.stack = pending p s.stack)
    (hlog : s'.log = s.log) (hag : s'.agenda = s.agenda)
    (hleaves : ∀ p, s'.leaves p = s.leaves p ∨ s.leaves p ≠ .idle ∧ s.leaves p ≠ .done)
    (hnodes : ∀ p, SameNode (s.nodes p) (s'.nodes p)) : s'.Inv := by
  refine ⟨hstack, ?_, ?_, ?_, ?_, ?_, ?_, ?_, ?_, ?_, ?_⟩
  · rw [hlog]
    exact h.quiet
  · rw [hlog]
    exact h.once
  · rw [hag]
    exact h.agenda
  · rw [hlog, hag]
    intro p hp
    obtain ⟨hidle, hrest⟩ := h.unstarted p hp
    rcases hleaves p with he | ⟨hne, -⟩
    · exact ⟨he.trans hidle, hrest⟩
    · exact absurd hidle hne
  · intro p
    rcases hleaves p with he | ⟨hne, -⟩
    · rw [he]
      exact h.leaves p
    · exact (h.leaves p).imp (fun hidle => absurd hidle hne) id
  · rw [hlog]
    intro p k hk hp
    have hdone := h.leafCalled p k hk hp
    rcases hleaves p with he | ⟨-, hne⟩
    · exact he.trans hdone
    · exact absurd hdone hne
  · rw [hlog]
    exact fun p f sh c cs hsub hp => (hnodes p).1.trans (h.nodeCalled p f sh c cs hsub hp)
  · intro p
    obtain ⟨l, hl, hcalls⟩ := h.nodes p
    exact ⟨l, hl.congr (hnodes p), by rw [hlog, hpend, hcalls]⟩
  · rw [hlog]
    exact h.chosen
  · rw [hlog]
    exact h.fired

theorem dropAgenda {rest : List Path} (h : s.Inv) (hag : s.agenda = p :: rest) :
    ({ s with agenda := rest } : World t T).Inv := by
  have hnd := h.agenda
  rw [hag] at hnd
  exact ⟨h.stack, h.quiet, h.once, (List.nodup_cons.mp hnd).2,
    fun q hq => h.unstarted q (hag ▸ List.mem_cons_of_mem p hq), h.leaves, h.leafCalled, h.nodeCalled, h.nodes,
    h.chosen, h.fired⟩

/-- A leaf that was taken off the agenda changes its state. -/
theorem setLeaf {k : LeafKind} (h : s.Inv) (hag : p ∉ s.agenda) (hnew : p ∉ calledPaths s.log)
    (hk : t.sub p = some (.leaf k)) (l : LeafState T) : (s.setLeaf p l).Inv := by
  refine ⟨h.stack, h.quiet, h.once, h.agenda, fun q hq => ?_, fun q => ?_, fun q k' hk' hq => ?_, h.nodeCalled,
    h.nodes, h.chosen, h.fired⟩
  · have hne : q ≠ p := fun he => hag (he ▸ hq)
    obtain ⟨hidle, hplain⟩ := h.unstarted q hq
    exact ⟨by simpa [World.setLeaf, hne] using hidle, hplain⟩
  · by_cases he : q = p
    · exact .inr ⟨k, he ▸ hk⟩
    · simpa [World.setLeaf, he] using h.leaves q
  · have hne : q ≠ p := fun he => hnew (he ▸ hq)
    simpa [World.setLeaf, hne] using h.leafCalled q k' hk' hq

/-- The receiver of an operation is called while no call is on the stack. -/
theorem call (h : s.Inv) (hst : s.stack = []) (hnew : p ∉ calledPaths s.log) (hag : p ∉ s.agenda)
    (hleaf : ∀ k, t.sub p = some (.leaf k) → s.leaves p = .done)
    (hnode : ∀ f sh c cs, t.sub p = some (.node f sh (c :: cs)) → (s.nodes p).completedCount = t.arity p)
    (hany : ∀ f c cs, t.sub p = some (.node f .whenAny (c :: cs)) →
      ∃ i w rest, childCalls p s.log = (i, w) :: rest ∧ v = .chosen i w) : (s.call p v).Inv := by
  have hlog : (s.call p v).log = s.log ++ [.called p v false] := by
    cases p <;> simp [World.call, hst]
  have hstack : (s.call p v).stack = entry p v := by
    cases p <;> simp [World.call, entry, hst]
  have hrest : (s.call p v).agenda = s.agenda ∧ (s.call p v).leaves = s.leaves ∧ (s.call p v).nodes = s.nodes := by
    cases p <;> exact ⟨rfl, rfl, rfl⟩
  obtain ⟨hagenda, hleaves, hnodes⟩ := hrest
  refine ⟨?_, ?_, ?_, ?_, ?_, ?_, ?_, ?_, ?_, ?_, ?_⟩
  · rw [hstack]
    cases p with
    | nil => exact Settled.nil
    | cons i q => exact Settled.single rfl
  · rw [hlog]
    intro q w b hq
    rcases List.mem_append.mp hq with hq | hq
    · exact h.quiet q w b hq
    · exact (Event.called.inj (List.mem_singleton.mp hq)).2.2
  · rw [hlog, calledPaths_called]
    exact nodup_snoc h.once hnew
  · rw [hagenda]
    exact h.agenda
  · rw [hagenda, hleaves, hlog, calledPaths_called]
    intro q hq
    obtain ⟨hidle, hnc, hplain⟩ := h.unstarted q hq
    refine ⟨hidle, ?_, hplain⟩
    simp only [List.mem_append, List.mem_singleton, not_or]
    exact ⟨hnc, fun he => hag (he ▸ hq)⟩
  · rw [hleaves]
    exact h.leaves
  · rw [hleaves, hlog, calledPaths_called]
    intro q k hk hq
    rcases List.mem_append.mp hq with hq | hq
    · exact h.leafCalled q k hk hq
    · rw [List.mem_singleton.mp hq] at hk ⊢
      exact hleaf k hk
  · rw [hnodes, hlog, calledPaths_called]
    intro q f sh c cs hsub hq
    rcases List.mem_append.mp hq with hq | hq
    · exact h.nodeCalled q f sh c cs hsub hq
    · rw [List.mem_singleton.mp hq] at hsub ⊢
      exact hnode f sh c cs hsub
  · rw [hnodes, hlog, hstack]
    intro q
    obtain ⟨l, hl, hcalls⟩ := h.nodes q
    refine ⟨l, hl, ?_⟩
    rw [childCalls_called, hcalls, hst]
    simp [pending]
  · rw [hlog]
    intro q f c cs w b hsub hq
    have hgrow : ∀ i u rest, childCalls q s.log = (i, u) :: rest →
        ∃ rest', childCalls q (s.log ++ [.called p v false]) = (i, u) :: rest' := by
      intro i u rest he
      rw [childCalls_append, he]
      exact ⟨_, rfl⟩
    rcases List.mem_append.mp hq with hq | hq
    · obtain ⟨i, u, rest, he, hw⟩ := h.chosen q f c cs w b hsub hq
      obtain ⟨rest', he'⟩ := hgrow i u rest he
      exact ⟨i, u, rest', he', hw⟩
    · obtain ⟨rfl, rfl, -⟩ : q = p ∧ w = v ∧ b = false := by simpa using hq
      obtain ⟨i, u, rest, he, hw⟩ := hany f c cs hsub
      obtain ⟨rest', he'⟩ := hgrow i u rest he
      exact ⟨i, u, rest', he', hw⟩
  · rw [hlog]
    intro q pre post he
    rcases snoc_split he with ⟨-, -, hbad⟩ | ⟨post', -, he'⟩
    · exact nomatch hbad
    · exact h.fired q pre post' he'

/-- A completion that has reached its node is on the record before its canceller fires. -/
theorem mark (h : s.Inv) (hp : childCalls p s.log ≠ []) : ({ s with log := s.log ++ [.fired p] } : World t T).Inv := by
  refine ⟨h.stack, ?_, ?_, h.agenda, ?_, h.leaves, ?_, ?_, ?_, ?_, ?_⟩
  · exact fun q v b hq => h.quiet q v b (by simpa using hq)
  · simpa only [calledPaths_fired] using h.once
  · simpa only [calledPaths_fired] using h.unstarted
  · simpa only [calledPaths_fired] using h.leafCalled
  · simpa only [calledPaths_fired] using h.nodeCalled
  · simpa only [childCalls_fired] using h.nodes
  · intro q f c cs v b hsub hq
    simpa using h.chosen q f c cs v b hsub (by simpa using hq)
  · intro q pre post he
    rcases snoc_split he with ⟨-, rfl, hq⟩ | ⟨post', -, he'⟩
    · obtain rfl := Event.fired.inj hq
      exact hp
    · exact h.fired q pre post' he'

theorem sameNodes_update {o : OpState (t.arity p) (fun _ => Val T)} (ho : SameNode (s.nodes p) o) (q : Path) :
    SameNode (s.nodes q) (Function.update s.nodes p o q) := by
  by_cases hq : q = p
  · subst hq
    simpa using ho
  · rw [Function.update_of_ne hq]
    exact ⟨rfl, rfl, rfl⟩

/-- A leaf that is neither idle nor done has been started, and its receiver was not called. -/
theorem started (h : s.Inv) (hidle : s.leaves p ≠ .idle) (hdone : s.leaves p ≠ .done) :
    p ∉ s.agenda ∧ p ∉ calledPaths s.log ∧ ∃ k, t.sub p = some (.leaf k) := by
  obtain ⟨k, hk⟩ := (h.leaves p).resolve_left hidle
  exact ⟨fun hp => hidle (h.unstarted p hp).1, fun hp => hdone (h.leafCalled p k hk hp), k, hk⟩

theorem cancelLeaf (h : s.Inv) (k : LeafKind) : (s.cancelLeaf p k).Inv := by
  cases k with
  | op => exact h.keep h.stack (fun _ => rfl) rfl rfl (fun _ => .inl rfl) (fun _ => ⟨rfl, rfl, rfl⟩)
  | push | pop | wait =>
    simp only [World.cancelLeaf]
    split
    · next hw =>
      obtain ⟨hag, hnew, k, hk⟩ := h.started (p := p) (by simp [hw]) (by simp [hw])
      have hset := h.setLeaf hag hnew hk (.scheduled (-ECANCELED) none)
      exact hset.keep hset.stack (fun _ => rfl) rfl rfl (fun _ => .inl rfl) (fun _ => ⟨rfl, rfl, rfl⟩)
    · exact h

theorem register (h : s.Inv) (k : LeafKind) : (s.register p k).Inv := by
  unfold World.register
  split
  · exact h.cancelLeaf k
  · exact h.keep h.stack (fun _ => rfl) rfl rfl (fun _ => .inl rfl) (fun _ => ⟨rfl, rfl, rfl⟩)

/-- A started leaf whose receiver was not called completes while no call is on the stack. -/
theorem callLeaf {k : LeafKind} (h : s.Inv) (hst : s.stack = []) (hag : p ∉ s.agenda) (hnew : p ∉ calledPaths s.log)
    (hk : t.sub p = some (.leaf k)) : ((s.setLeaf p .done).call p v).Inv := by
  refine (h.setLeaf hag hnew hk .done).call hst hnew hag ?_ ?_ ?_
  · exact fun _ _ => by simp [World.setLeaf]
  · intro f sh c cs hn
    rw [hk] at hn
    exact nomatch hn
  · intro f c cs hn
    rw [hk] at hn
    exact nomatch hn

theorem unregister (h : s.Inv) (p : Path) : (s.unregister p).Inv :=
  h.keep h.stack (fun _ => rfl) rfl rfl (fun _ => .inl rfl) (fun _ => ⟨rfl, rfl, rfl⟩)

end Inv

section Steps

variable {s s' : World t T}

theorem start_inv {r : Option (ℤ × Option T)} (h : s.Inv) (hst : s.stack = []) (hs : s.start r = some s') :
    s'.Inv := by
  unfold start at hs
  split at hs
  · exact nomatch hs
  · next p rest hag =>
    obtain ⟨-, hnew, hplain⟩ := h.unstarted p (by simp [hag])
    have hdrop := h.dropAgenda hag
    have hnot : p ∉ rest := by
      have hnd := h.agenda
      rw [hag] at hnd
      exact (List.nodup_cons.mp hnd).1
    rcases hplain with ⟨k, hk⟩ | ⟨f, sh, hn⟩
    · simp only [hk] at hs
      obtain rfl := Option.some.inj hs
      have hdone : ∀ v : Val T, ((({ s with agenda := rest } : World t T).setLeaf p .done).call p v).Inv :=
        fun v => hdrop.callLeaf hst hnot hnew hk
      cases k with
      | op =>
        simp only [startLeaf]
        split_ifs
        · exact hdone _
        · exact hdone _
        · exact (hdrop.setLeaf hnot hnew hk .inflight).register .op
      | push | pop | wait =>
        cases r with
        | some r => exact hdone _
        | none => exact (hdrop.setLeaf hnot hnew hk .waiting).register _
    · simp only [hn] at hs
      obtain rfl := Option.some.inj hs
      have hkeep : ({ s with
          agenda := rest
          nodes := Function.update s.nodes p (s.nodes p).callReceiver } : World t T).Inv :=
        hdrop.keep h.stack (fun _ => rfl) rfl rfl (fun _ => .inl rfl) (Inv.sameNodes_update ⟨rfl, rfl, rfl⟩)
      refine hkeep.call hst hnew hnot ?_ ?_ ?_
      all_goals
        intros
        simp_all

theorem canceller_inv {p : Path} {i : ℕ} {v : Val T} {rest : List (Call T)} (h : s.Inv)
    (hst : s.stack = .receive p i v :: rest) (c : Canceller) : (s.runCanceller p i v rest c).Inv := by
  have hset := h.stack
  rw [hst] at hset
  obtain rfl := hset.alone rfl
  have hcalls : childCalls p s.log ≠ [] := by
    obtain ⟨l, -, hl⟩ := h.nodes p
    rw [hl, hst]
    simp [pending]
  have hkeep : ({ s with
      nodes := Function.update s.nodes p ((s.nodes p).canceller c).2
      stack := if ((s.nodes p).canceller c).1 then [.stopping (some p), .record p i v] else [.record p i v] } :
      World t T).Inv := by
    refine h.keep ?_ (fun q => ?_) rfl rfl (fun _ => .inl rfl) (Inv.sameNodes_update (sameNode_canceller _ c))
    · split_ifs
      · exact (Settled.single rfl).pushStop rfl
      · exact Settled.single rfl
    · rw [hst]
      split_ifs <;> rfl
  unfold runCanceller
  by_cases hc : c = .whenAny
  · rw [if_pos hc]
    exact hkeep.mark hcalls
  · rw [if_neg hc]
    exact hkeep

/-- The completion in `receive_` is of a child that did not complete before, so a number is left for it. -/
theorem Inv.number_left {p : Path} {i : Fin (t.arity p)} {v : Val T} (h : s.Inv) (hst : s.stack = [.record p i v]) :
    ∃ l, NodeOk (s.nodes p) l ∧ childCalls p s.log = l.map (fun q => (q.1.val, q.2)) ++ [(i.val, v)] ∧
      i ∉ l.map Prod.fst ∧ l.length + 1 ≤ t.arity p := by
  obtain ⟨l, hl, hcalls⟩ := h.nodes p
  have hpend : pending p s.stack = [(i.val, v)] := by simp [hst, pending]
  rw [hpend] at hcalls
  have hnd : (l.map Prod.fst ++ [i]).Nodup := by
    have hmap := childCalls_nodup p s.log h.once
    rw [hcalls] at hmap
    refine List.Nodup.of_map Fin.val ?_
    simpa [Function.comp_def] using hmap
  refine ⟨l, hl, hcalls, ?_, by simpa using hnd.length_le_card⟩
  intro hmem
  exact (List.nodup_append.mp hnd).2.2 i hmem i List.mem_cons_self rfl

/-- A node with a number left was not done. -/
theorem Inv.not_done {p : Path} {f : Form} {sh : Shape} {c : Tree} {cs : List Tree} (h : s.Inv)
    (hn : t.sub p = some (.node f sh (c :: cs))) (hlt : (s.nodes p).completedCount < t.arity p) :
    p ∉ calledPaths s.log ∧ p ∉ s.agenda := by
  constructor
  · intro hp
    have hfull := h.nodeCalled p f sh c cs hn hp
    omega
  · intro hp
    rcases (h.unstarted p hp).2.2 with ⟨k, hk⟩ | ⟨f', sh', hk⟩
    · rw [hn] at hk
      exact nomatch hk
    · rw [hn] at hk
      exact nomatch hk

/-- The completion in `receive_` takes its number. -/
theorem Inv.recorded {p : Path} {i : Fin (t.arity p)} {v : Val T} {l : List (Fin (t.arity p) × Val T)}
    {o : OpState (t.arity p) (fun _ => Val T)} (h : s.Inv) (hst : s.stack = [.record p i v])
    (hnew : p ∉ calledPaths s.log) (hok : NodeOk o l) (hcalls : childCalls p s.log = l.map (fun q => (q.1.val, q.2))) :
    ({ s with stack := [], nodes := Function.update s.nodes p o } : World t T).Inv := by
  refine ⟨Settled.nil, h.quiet, h.once, h.agenda, h.unstarted, h.leaves, h.leafCalled, ?_, ?_, h.chosen, h.fired⟩
  · intro q f sh c cs hq hmem
    have hne : q ≠ p := fun he => hnew (he ▸ hmem)
    simpa [Function.update_of_ne hne] using h.nodeCalled q f sh c cs hq hmem
  · intro q
    by_cases hq : q = p
    · subst hq
      exact ⟨l, by simpa using hok, by simpa [pending] using hcalls⟩
    · obtain ⟨l', hl', hcalls'⟩ := h.nodes q
      have hnone : pending q s.stack = [] := by simp [hst, pending, Ne.symm hq]
      rw [hnone] at hcalls'
      exact ⟨l', by simpa [Function.update_of_ne hq] using hl', hcalls'⟩

theorem record_inv {p : Path} {i : Fin (t.arity p)} {v : Val T} {rest : List (Call T)} {f : Form} {sh : Shape}
    {cs : List Tree} (h : s.Inv) (hst : s.stack = .record p i v :: rest) (hn : t.sub p = some (.node f sh cs)) :
    (({ s with stack := rest } : World t T).recordResult p i v f sh).Inv := by
  have hset := h.stack
  rw [hst] at hset
  obtain rfl := hset.alone rfl
  obtain ⟨l, hl, hcalls, hi, hle⟩ := h.number_left hst
  obtain ⟨c, cs, rfl⟩ : ∃ c cs', cs = c :: cs' := by
    refine List.exists_cons_of_length_pos ?_
    rw [← Tree.arity_eq hn]
    omega
  obtain ⟨hnew, hag⟩ := h.not_done hn (by rw [hl.count]; omega)
  have hok := hl.receive f (v := v) hi
  have hcalls' : childCalls p s.log = (l ++ [(i, v)]).map (fun q => (q.1.val, q.2)) := by simpa using hcalls
  have hrec := h.recorded hst hnew hok hcalls'
  unfold recordResult
  split
  · next hfull =>
    -- the last number: the receiver of the node is called
    have hcall : ∀ w : World t T, w.Inv → w.stack = [] → w.log = s.log → w.agenda = s.agenda →
        w.nodes = Function.update s.nodes p ((s.nodes p).receive f i v) →
        (w.call p (sh.result ((s.nodes p).receive f i v))).Inv := by
      intro w hw hst' hlog' hag' hnodes'
      refine hw.call hst' (hlog' ▸ hnew) (hag' ▸ hag) ?_ ?_ ?_
      · intro k hk
        rw [hn] at hk
        exact nomatch hk
      · intro f' sh' c' cs' _
        rw [hnodes', Function.update_self, ((s.nodes p).receive_spec f i v).1]
        exact hfull
      · intro f' c' cs' hk
        rw [hn] at hk
        obtain ⟨-, rfl, -⟩ : f = f' ∧ sh = .whenAny ∧ _ := by simpa using hk
        rw [hlog', hcalls]
        cases l with
        | nil => exact ⟨i, v, [], rfl, hok.chosen⟩
        | cons q l => exact ⟨q.1, q.2, _, rfl, hok.chosen⟩
    split
    · exact hcall _ (hrec.unregister p) rfl rfl rfl rfl
    · exact hcall _ hrec rfl rfl rfl rfl
  · exact hrec

theorem fire_inv {p : Path} {u : Tree} (h : s.Inv) : (s.fire p u).Inv := by
  cases u with
  | leaf k => exact h.cancelLeaf k
  | node f sh cs =>
    simp only [fire]
    split
    · exact h.keep (h.stack.pushStop rfl) (fun _ => rfl) rfl rfl (fun _ => .inl rfl)
        (Inv.sameNodes_update (sameNode_cancel _ _))
    · exact h.keep h.stack (fun _ => rfl) rfl rfl (fun _ => .inl rfl) (Inv.sameNodes_update (sameNode_cancel _ _))

/-- **Step lemma.** -/
theorem step_inv {op : Step T} (h : s.Inv) (hs : step s op = some s') : s'.Inv := by
  cases op with
  | start r =>
    obtain ⟨hst, hs⟩ := Option.ite_none_right_eq_some.mp hs
    exact start_inv h (List.isEmpty_iff.mp hst) hs
  | canceller =>
    simp only [step] at hs
    split at hs
    · next p i v rest hst =>
      split at hs
      · obtain rfl := Option.some.inj hs
        exact canceller_inv h hst _
      · exact nomatch hs
    · exact nomatch hs
  | record =>
    simp only [step] at hs
    split at hs
    · next p i v rest hst =>
      split at hs
      · next form shape cs hn =>
        split_ifs at hs with hi
        obtain rfl := Option.some.inj hs
        exact record_inv (i := ⟨i, hi⟩) h hst hn
      · exact nomatch hs
    · exact nomatch hs
  | fire p =>
    simp only [step] at hs
    split at hs
    · obtain ⟨-, hs⟩ := Option.ite_none_right_eq_some.mp hs
      obtain ⟨u, -, rfl⟩ := Option.map_eq_some_iff.mp hs
      refine fire_inv (h.keep h.stack (fun _ => rfl) rfl rfl (fun _ => .inl rfl) (fun _ => ⟨rfl, rfl, rfl⟩))
    · exact nomatch hs
  | stopReturn =>
    simp only [step] at hs
    split at hs
    · next src rest hst =>
      obtain ⟨-, hs⟩ := Option.ite_none_right_eq_some.mp hs
      obtain rfl := Option.some.inj hs
      have hset := h.stack
      rw [hst] at hset
      refine h.keep (hset.popStop rfl) (fun q => ?_) rfl rfl (fun _ => .inl rfl) (fun _ => ⟨rfl, rfl, rfl⟩)
      rw [hst]
      rfl
    · exact nomatch hs
  | stopExternal =>
    obtain ⟨-, hs⟩ := Option.ite_none_left_eq_some.mp hs
    obtain rfl := Option.some.inj hs
    exact h.keep (h.stack.pushStop rfl) (fun _ => rfl) rfl rfl (fun _ => .inl rfl) (fun _ => ⟨rfl, rfl, rfl⟩)
  | serve p res item =>
    simp only [step] at hs
    split at hs
    · next hw =>
      obtain rfl := Option.some.inj hs
      obtain ⟨hag, hnew, k, hk⟩ := h.started (p := p) (by simp [hw]) (by simp [hw])
      have hkeep := h.setLeaf hag hnew hk (.scheduled res item)
      exact hkeep.keep hkeep.stack (fun _ => rfl) rfl rfl (fun _ => .inl rfl) (fun _ => ⟨rfl, rfl, rfl⟩)
    · exact nomatch hs
  | invoke =>
    simp only [step] at hs
    split at hs
    · exact nomatch hs
    · next p rest hq =>
      split at hs
      · next res item hl =>
        obtain ⟨⟨hst, -⟩, hs⟩ := Option.ite_none_right_eq_some.mp hs
        obtain rfl := Option.some.inj hs
        obtain ⟨hag, hnew, k, hk⟩ := h.started (p := p) (by simp [hl]) (by simp [hl])
        have hkeep : ({ s with localQueue := rest } : World t T).Inv :=
          h.keep h.stack (fun _ => rfl) rfl rfl (fun _ => .inl rfl) (fun _ => ⟨rfl, rfl, rfl⟩)
        exact (hkeep.unregister p).callLeaf (List.isEmpty_iff.mp hst) hag hnew hk
      · exact nomatch hs
  | cqe p res item =>
    simp only [step] at hs
    split at hs
    · next hl =>
      obtain ⟨⟨hst, -⟩, hs⟩ := Option.ite_none_right_eq_some.mp hs
      obtain rfl := Option.some.inj hs
      obtain ⟨hag, hnew, k, hk⟩ := h.started (p := p) (by simp [hl]) (by simp [hl])
      exact (h.unregister p).callLeaf (List.isEmpty_iff.mp hst) hag hnew hk
    · exact nomatch hs

end Steps

/-- The first completion that reached a node. -/
theorem first_call {p : Path} {log : List (Event T)} {i : ℕ} {w : Val T} {rest : List (ℕ × Val T)}
    (h : childCalls p log = (i, w) :: rest) :
    ∃ pre b post, log = pre ++ .called (i :: p) w b :: post ∧ childCalls p pre = [] := by
  obtain ⟨pre, e, post, rfl, hnone, he, -⟩ := List.filterMap_eq_cons_iff.mp h
  refine ⟨pre, ?_⟩
  cases e with
  | fired q => simp at he
  | called q v b =>
    cases q with
    | nil => simp at he
    | cons j q =>
      obtain ⟨rfl, rfl, rfl⟩ : q = p ∧ j = i ∧ v = w := by simpa using he
      exact ⟨b, post, rfl, List.filterMap_eq_nil_iff.mpr hnone⟩

theorem not_mem_of_childCalls {p : Path} {log : List (Event T)} (h : childCalls p log = []) (j : ℕ) (u : Val T)
    (b : Bool) : Event.called (j :: p) u b ∉ log := by
  intro hmem
  have hnone := List.filterMap_eq_nil_iff.mp h _ hmem
  simp at hnone

/-- **The first completion wins**, for every tree and every run on one runtime thread.  No receiver of the tree is called
while a `request_stop` on one of its stop sources has not returned.  The receiver of a node is called when all its children
have completed.  So `order_[0]` of a node and its result are those of the completion that reached the node first, before
the node's canceller requested a stop, and that is what a `when_any` delivers. -/
theorem first_completion_wins {stopped : Bool} {ops : List (Step T)} {s : World t T}
    (hrun : run step (init t T stopped) ops = some s) :
    (∀ p v inStop, Event.called p v inStop ∈ s.log → inStop = false) ∧
    (∀ p f sh c cs v b, t.sub p = some (.node f sh (c :: cs)) → Event.called p v b ∈ s.log →
      (s.nodes p).completedCount = (c :: cs).length) ∧
    ∀ p, 0 < (s.nodes p).completedCount → ∃ i w pre post,
      (s.nodes p).order 0 = some i ∧ (s.nodes p).results i = some w ∧
      s.log = pre ++ .called (i.val :: p) w false :: post ∧
      (∀ j u b, Event.called (j :: p) u b ∉ pre) ∧ Event.fired p ∉ pre ∧
      ∀ f c cs v b, t.sub p = some (.node f .whenAny (c :: cs)) → Event.called p v b ∈ s.log →
        v = .chosen i w := by
  have hI : s.Inv := run_inv (fun _ _ _ h hs => step_inv h hs) ops (init_inv stopped) hrun
  refine ⟨hI.quiet, fun p f sh c cs v b hsub hmem => ?_, fun p hpos => ?_⟩
  · rw [hI.nodeCalled p f sh c cs hsub (List.mem_filterMap.mpr ⟨_, hmem, rfl⟩), Tree.arity_eq hsub]
  obtain ⟨l, hl, hcalls⟩ := hI.nodes p
  obtain ⟨⟨i, w⟩, l, rfl⟩ := List.exists_cons_of_length_pos (hl.count ▸ hpos)
  rw [List.map_cons, List.cons_append] at hcalls
  obtain ⟨pre, b, post, hlog, hpre⟩ := first_call hcalls
  obtain rfl : b = false := hI.quiet (i.val :: p) w b (by simp [hlog])
  refine ⟨i, w, pre, post, hl.order 0, hl.results (i, w) List.mem_cons_self, hlog, not_mem_of_childCalls hpre, ?_, ?_⟩
  · intro hfired
    obtain ⟨pre', post', rfl⟩ := List.append_of_mem hfired
    refine hI.fired p pre' (post' ++ .called (i.val :: p) w false :: post) (by simp [hlog]) ?_
    rw [childCalls_append] at hpre
    exact (List.append_eq_nil_iff.mp hpre).1
  · intro f c cs v b hsub hmem
    obtain ⟨i', w', rest, hcalls', rfl⟩ := hI.chosen p f c cs v b hsub hmem
    rw [hcalls] at hcalls'
    obtain ⟨he, -⟩ := List.cons.inj hcalls'
    obtain ⟨rfl, rfl⟩ := Prod.mk.inj he
    rfl

/-- `when_any` of an operation and of a `when_all` of a pop and a wait. -/
def raceTree : Tree := .node .variadic .whenAny [.leaf .op, .node .ranged .whenAll [.leaf .pop, .leaf .wait]]

/-- The operation completes, its stop request schedules the other two leaves, and these complete later. -/
def race : List (Step ℕ) :=
  [.start none, .start none, .start none, .cqe [0] 5 none, .canceller, .fire [1, 1], .fire [0, 1], .stopReturn, .record,
    .invoke, .canceller, .record, .invoke, .canceller, .record, .canceller, .record]

theorem first_completion_wins_race : ∃ s : World raceTree ℕ, run step (init raceTree ℕ false) race = some s ∧
    s.stack.length = 0 ∧ calledPaths s.log = [[0], [1, 1], [0, 1], [1], []] ∧
    ∃ i w pre post, (s.nodes []).order 0 = some i ∧ s.log = pre ++ .called [i.val] w false :: post ∧
      Event.fired [] ∉ pre := by
  have hrun : (run step (init raceTree ℕ false) race).map (fun s =>
      (s.stack.length, calledPaths s.log, (s.nodes []).completedCount)) =
      some (0, [[0], [1, 1], [0, 1], [1], []], 2) := by decide +kernel
  obtain ⟨s, hs, hend⟩ := Option.map_eq_some_iff.mp hrun
  obtain ⟨hst, hcalled, hcount⟩ : s.stack.length = 0 ∧ calledPaths s.log = [[0], [1, 1], [0, 1], [1], []] ∧
      (s.nodes []).completedCount = 2 := by simpa using hend
  obtain ⟨i, w, pre, post, horder, -, hlog, -, hfired, -⟩ := (first_completion_wins hs).2.2 [] (by omega)
  exact ⟨s, hs, hst, hcalled, i, w, pre, post, horder, hlog, hfired⟩

end World

end Condy.Sender
