import Condy.Sender.Sequence

/-!
# Condy.Sender.LinkState — `LinkOperationState` and `RangedLinkOperationState`

Both classes derive from the operation state of `when_all` and take over its receivers, so that the completions of the
children are counted there.  They replace `start`: it reserves a slot of the ring for each child and starts the children
with the flags of the chain.  Two things that the replaced `start` did are not in the new one.  It returned whatever the
state of the ring, and it called the receiver when there were no children.

`LinkSystem` is a link with the environment of `System`, and `link_receives_iff` compares the two.
-/

namespace Condy.Sequence

open Lib Condy.Sender

variable {n : ℕ} {R : Fin n → Type} {σ : Type}

/-- The `when_all` that a link derives from, and what its own `start` uses. -/
structure LinkSystem (n : ℕ) (R : Fin n → Type) (σ : Type) where
  base : System n R
  /-- The ring as `start` finds it. -/
  ring : Ring σ
  /-- The flags that the children were started with. -/
  childFlags : List ℕ

namespace LinkSystem

def init (ring : Ring σ) : LinkSystem n R σ := { base := .init, ring, childFlags := [] }

/-- `start(flags)` is the link's own; all other steps are those of the base class. -/
def step (form : Form) (kind : LinkKind) (flags : ℕ) (s : LinkSystem n R σ) : Op R → Option (LinkSystem n R σ)
  | .start =>
    if s.base.entered then none
    else (s.ring.reserveSpace n).map fun r => { s with ring := r, base := { s.base with entered := true } }
  | .startChild =>
    (s.base.step form .whenAll .startChild).map fun b =>
      { s with base := b, childFlags := s.childFlags ++ [Link.childFlags kind.flags flags n s.base.started] }
  | .complete i result => (s.base.step form .whenAll (.complete i result)).map fun b => { s with base := b }
  | .proceed => (s.base.step form .whenAll .proceed).map fun b => { s with base := b }
  | .cancel => (s.base.step form .whenAll .cancel).map fun b => { s with base := b }

variable (form : Form) (kind : LinkKind) (flags : ℕ)

/-- `t` is the `when_all` after the steps that led the link to `s`. -/
structure Same (s : LinkSystem n R σ) (t : System n R) : Prop where
  base : s.base = t
  room : n ≤ s.ring.entries

theorem Same.map {s : LinkSystem n R σ} {o : Option (System n R)} {g : System n R → LinkSystem n R σ}
    (hg : ∀ b, (g b).base = b ∧ (g b).ring = s.ring) (hroom : n ≤ s.ring.entries) :
    Option.Rel Same (o.map g) o := by
  cases o with
  | none => exact .none
  | some b => exact .some ⟨(hg b).1, (hg b).2 ▸ hroom⟩

/-- With at least one child and a slot for each of them a link does what `when_all` does. -/
theorem same_step {s : LinkSystem n R σ} {t : System n R} (hn : 1 ≤ n) (op : Op R) (h : Same s t) :
    Option.Rel Same (step form kind flags s op) (t.step form .whenAll op) := by
  obtain ⟨rfl, hroom⟩ := h
  cases op with
  | start =>
    by_cases he : s.base.entered = true
    · have hlink : step form kind flags s .start = none := if_pos he
      have hall : s.base.step form .whenAll .start = none := if_pos he
      rw [hlink, hall]
      exact .none
    · obtain ⟨r, hr, hw⟩ := Ring.reserveSpace_isSome hroom
      have hlink : step form kind flags s .start =
          some { s with ring := r, base := { s.base with entered := true } } := by
        rw [step, if_neg he, hr]
        rfl
      have hall : s.base.step form .whenAll .start = some { s.base with entered := true } := by
        rw [System.step, if_neg he, if_neg (by omega)]
      rw [hlink, hall]
      exact .some ⟨rfl, hw.entries ▸ hroom⟩
  | startChild => exact Same.map (fun _ => ⟨rfl, rfl⟩) hroom
  | complete i r => exact Same.map (fun _ => ⟨rfl, rfl⟩) hroom
  | proceed => exact Same.map (fun _ => ⟨rfl, rfl⟩) hroom
  | cancel => exact .some ⟨rfl, hroom⟩

/-- The runs of the link, seen as runs of the `when_all`. -/
theorem run_base (hn : 1 ≤ n) {ring : Ring σ} (hroom : n ≤ ring.entries) (ops : List (Op R)) :
    (run (step form kind flags) (init ring) ops).map LinkSystem.base = run (System.step form .whenAll) .init ops := by
  have h := run_lockstep_map (S := Same) (f := LinkSystem.base) (g := id)
    (fun _ _ op hst => same_step form kind flags hn op hst) (fun _ _ hst => hst.base) ops
    (⟨rfl, hroom⟩ : Same (init ring : LinkSystem n R σ) .init)
  rwa [Option.map_id] at h

variable {form kind flags} in
/-- Without children no step calls the receiver. -/
theorem received_empty {R : Fin 0 → Type} {s : LinkSystem 0 R σ} {ring : Ring σ} {ops : List (Op R)}
    (hrun : run (step form kind flags) (init ring) ops = some s) : s.base.op.received = [] := by
  refine (run_inv (I := fun s : LinkSystem 0 R σ => s.base.frames = [] ∧ s.base.op.received = []) ?_ ops
    ⟨rfl, rfl⟩ hrun).2
  rintro s op s' ⟨hframes, hrec⟩ hs
  cases op with
  | start =>
    obtain ⟨-, hs⟩ := Option.ite_none_left_eq_some.mp hs
    obtain ⟨r, -, rfl⟩ := Option.map_eq_some_iff.mp hs
    exact ⟨hframes, hrec⟩
  | startChild =>
    obtain ⟨b, hb, -⟩ := Option.map_eq_some_iff.mp hs
    obtain ⟨⟨-, hlt, -⟩, -⟩ := Option.ite_none_right_eq_some.mp hb
    exact absurd hlt (Nat.not_lt_zero _)
  | complete i r => exact i.elim0
  | proceed =>
    obtain ⟨b, hb, -⟩ := Option.map_eq_some_iff.mp hs
    rw [System.step, hframes] at hb
    cases hb
  | cancel =>
    obtain rfl := Option.some.inj hs
    exact ⟨hframes, hrec⟩

/-- **A link calls its receiver in the runs in which `when_all` does, exactly if it has children and the ring has a slot
for each of them**, for both kinds, both forms, every number of children and every state of the ring.  Then the receiver
is called at most once, with the result of each child, and it has been called when all children have completed. -/
theorem link_receives_iff (R : Fin n → Type) (ring : Ring σ) :
    ((∀ ops, (run (step form kind flags) (init ring : LinkSystem n R σ) ops).map (·.base.op.received) =
        (run (System.step form .whenAll) (.init : System n R) ops).map (·.op.received)) ↔
      1 ≤ n ∧ n ≤ ring.entries) ∧
    (1 ≤ n → n ≤ ring.entries → ∀ ops s, run (step form kind flags) (init ring : LinkSystem n R σ) ops = some s →
      s.base.op.received.length ≤ 1 ∧
      (∀ order results, (order, results) ∈ s.base.op.received →
        (∀ i, ∃ r, Op.complete i r ∈ ops) ∧ ∀ i r, Op.complete i r ∈ ops → results i = some r) ∧
      (s.base.entered = true → s.base.frames = [] → (∀ i, ∃ r, Op.complete i r ∈ ops) →
        s.base.op.received.length = 1)) := by
  refine ⟨⟨fun hall => ?_, fun hn ops => ?_⟩, fun hn hroom ops s hrun => ?_⟩
  · have hstart := hall [.start]
    have hwhen : run (System.step form .whenAll) (.init : System n R) [.start] =
        some { System.init with entered := true, op := if n = 0 then System.init.op.callReceiver else System.init.op } := rfl
    rw [hwhen] at hstart
    obtain ⟨s, hs, hrec⟩ := Option.map_eq_some_iff.mp hstart
    constructor
    · by_contra h0
      obtain rfl : n = 0 := by omega
      rw [received_empty hs] at hrec
      nomatch hrec
    · -- the start of the link has returned
      obtain ⟨u, hu, -⟩ := Option.bind_eq_some_iff.mp hs
      obtain ⟨r, hr, -⟩ := Option.map_eq_some_iff.mp hu
      exact Ring.reserveSpace_iff.mp ⟨r, hr⟩
  · rw [← run_base form kind flags hn.1 hn.2 ops, Option.map_map]
    rfl
  · have hbase : run (System.step form .whenAll) .init ops = some s.base := by
      rw [← run_base form kind flags hn hroom ops, hrun]
      rfl
    obtain ⟨done, hI⟩ := System.run_system_inv hbase
    exact ⟨hI.length_received_le, fun _ _ hmem => (System.received_results hbase hmem).2,
      System.received_of_complete hbase⟩

/-- An empty range: `when_all` calls its receiver in `start`, a link never does. -/
theorem empty_link_never_receives : (run (System.step .ranged .whenAll) (.init : System 0 fun _ => ℕ) [.start]).map
      (·.op.received.length) = some 1 ∧
    (run (step .ranged .link 0) (init (Ring.new 8 false 32 []) : LinkSystem 0 (fun _ => ℕ) (LinkSqe ℕ)) [.start]).map
      (·.base.op.received.length) = some 0 ∧
    ∀ ops s, run (step .ranged .link 0) (init (Ring.new 8 false 32 []) : LinkSystem 0 (fun _ => ℕ) (LinkSqe ℕ)) ops =
      some s → s.base.op.received = [] :=
  ⟨rfl, rfl, fun _ _ hrun => received_empty hrun⟩

end LinkSystem

end Condy.Sequence
