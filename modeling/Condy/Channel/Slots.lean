import Condy.Channel.Refine
import Condy.Lib.Lifetime

/-!
# Condy.Channel.Slots — the lifetimes of the items in the ring buffer

`buffer_` is a `SmallArray` of `RawStorage`, so the channel begins and ends the lifetimes of its items by hand:
`push_inner_` by one `construct`, `pop_inner_` by a `get` and a `destroy`.  The functions `…Accesses` below list these
accesses for every function of the source that leads to one, branch by branch; `accesses N c₀ ops` is the trace of a
whole run.  `N` is the template parameter that decides between `small_` and `large_`.

`Accessed N c as c'` connects the lists with the model: `as` takes the live cells of `c` to those of `c'`, and the
flag `lifetimes` stays up exactly when `as` is legal.  It holds of every step without any invariant; that the flag is
up in every run is `run_refines`.

`head_` and `tail_` are words that wrap.  `counters_go_around` gives runs on which they have done so.
-/

namespace Condy

open Lib

variable {T : Type}

/-- An element of the storage: `small_[index]` or `large_[index]`. -/
structure Cell where
  small : Bool
  index : ℕ
  deriving DecidableEq

namespace SmallArray

variable (N capacity : ℕ)

/-- `SmallArray::is_small_`. -/
def isSmall : Bool := decide (capacity ≤ N)

/-- `SmallArray::operator[]`. -/
def cell (index : ℕ) : Cell := ⟨isSmall N capacity, index⟩

/-- The cells of the array: of the active member of the union, below the capacity.  `small_` has `N` elements, and
the capacity is not larger when it is active. -/
def inside (k : Cell) : Bool := k.small == isSmall N capacity && decide (k.index < capacity)

/-- The cells that hold an item. -/
def live (slots : ℕ → Option T) (k : Cell) : Bool := k.small == isSmall N capacity && (slots k.index).isSome

variable {N capacity}

@[simp] theorem inside_cell (i : ℕ) : inside N capacity (cell N capacity i) = decide (i < capacity) := by
  rw [inside, cell, beq_self_eq_true, Bool.true_and]

@[simp] theorem live_cell (slots : ℕ → Option T) (i : ℕ) :
    live N capacity slots (cell N capacity i) = (slots i).isSome := by
  rw [live, cell, beq_self_eq_true, Bool.true_and]

theorem live_update (slots : ℕ → Option T) (i : ℕ) (v : Option T) (k : Cell) :
    live N capacity (Function.update slots i v) k =
      if cell N capacity i = k then v.isSome else live N capacity slots k := by
  split_ifs with hk
  · subst hk
    rw [live_cell, Function.update_self]
  · unfold live
    by_cases hs : k.small = isSmall N capacity
    · have hi : k.index ≠ i := by
        rintro rfl
        apply hk
        rw [cell, ← hs]
      rw [Function.update_of_ne hi]
    · rw [beq_eq_false_iff_ne.mpr hs, Bool.false_and, Bool.false_and]

end SmallArray

namespace Buf

variable (N : ℕ) (b : Buf T)

/-- The cells of the storage that hold an item. -/
def live : Cell → Bool := SmallArray.live N b.capacity b.slots

/-- The accesses of `push_inner_`. -/
def pushAccesses : List (Access Cell) := [.construct (SmallArray.cell N b.capacity b.tailIdx)]

/-- The accesses of `pop_inner_`. -/
def popAccesses : List (Access Cell) :=
  [.get (SmallArray.cell N b.capacity b.headIdx), .destroy (SmallArray.cell N b.capacity b.headIdx)]

/-- The accesses of `pop_and_push_`. -/
def popAndPushAccesses : List (Access Cell) :=
  if b.capacity = 0 then [] else b.popAccesses N ++ b.pop.pushAccesses N

/-- The accesses of the loop of `destruct_all_`; the number bounds its iterations. -/
def drainAccesses (b : Buf T) : ℕ → List (Access Cell)
  | 0 => []
  | n + 1 => if b.empty then [] else b.popAccesses N ++ drainAccesses b.pop n

variable {b}

/-- The live slots are those of the positions from `head_` to `tail_`, counted modulo `2 ^ 64`. -/
theorem Holds.isSome_iff {hd : ℕ} {xs : List T} (h : b.Holds hd xs) (i : ℕ) :
    (b.slots i).isSome = true ↔ ∃ d < b.size, ((b.head + d) % 2 ^ 64) &&& b.mask = i := by
  have hlen := h.len
  have hslot : ∀ d < xs.length, ((b.head + d) % 2 ^ 64) &&& b.mask = (hd + d) % b.capacity := by
    intro d hd'
    rw [h.head, Nat.mod_add_mod, h.slot_eq (by omega)]
  rw [h.size_eq]
  constructor
  · intro hlive
    by_contra hnone
    push Not at hnone
    rw [h.vac i (fun d hd' he => hnone d hd' ((hslot d hd').trans he))] at hlive
    exact nomatch hlive
  · rintro ⟨d, hd', rfl⟩
    rw [hslot d hd', h.win d (by simpa using hd')]
    simp

end Buf

namespace Channel

/-- The accesses `as` lead from `c` to `c'`. -/
structure Accessed (N : ℕ) (c : Channel T) (as : List (Access Cell)) (c' : Channel T) : Prop where
  capacity : c'.buf.capacity = c.buf.capacity
  live : c'.buf.live N = liveAfter (c.buf.live N) as
  lifetimes : c'.lifetimes =
    (c.lifetimes && legal (SmallArray.inside N c.buf.capacity) (c.buf.live N) as)

namespace Accessed

variable {N : ℕ} {c d e : Channel T} {as bs : List (Access Cell)}

theorem refl (c : Channel T) : Accessed N c [] c := ⟨rfl, rfl, by simp⟩

theorem trans (h : Accessed N c as d) (h' : Accessed N d bs e) : Accessed N c (as ++ bs) e := by
  refine ⟨h'.capacity.trans h.capacity, ?_, ?_⟩
  · rw [liveAfter_append, ← h.live, h'.live]
  · rw [legal_append, ← h.live, h'.lifetimes, h.lifetimes, h.capacity, Bool.and_assoc]

/-- What the source does before and after the accesses leaves the buffer alone. -/
theorem frame {c' d' : Channel T} (h : Accessed N c as d) (hb : c.buf = c'.buf) (hl : c.lifetimes = c'.lifetimes)
    (hb' : d'.buf = d.buf) (hl' : d'.lifetimes = d.lifetimes) : Accessed N c' as d' := by
  refine ⟨?_, ?_, ?_⟩
  · rw [hb', ← hb, h.capacity]
  · rw [hb', ← hb, h.live]
  · rw [hl', ← hl, ← hb, h.lifetimes]

theorem check (h : Accessed N c as d) (b : Bool) : Accessed N c as (d.check b) := h.frame rfl rfl rfl rfl

theorem destroyed (h : Accessed N c as d) : Accessed N c as { d with destroyed := true } := h.frame rfl rfl rfl rfl

end Accessed

variable {N : ℕ} {c c' : Channel T}

theorem pushInner_accessed (c : Channel T) (x : T) : Accessed N c (c.buf.pushAccesses N) (c.pushInner x) := by
  refine ⟨rfl, ?_, ?_⟩
  · ext k
    show SmallArray.live N c.buf.capacity (Function.update c.buf.slots c.buf.tailIdx (some x)) k = _
    rw [SmallArray.live_update, Buf.pushAccesses, liveAfter_cons, liveAfter_nil, Access.after, Access.sets]
    split_ifs <;> rfl
  · show (c.lifetimes && decide _ && Option.isNone _) = _
    simp only [Buf.pushAccesses, legal_cons, legal_nil, Access.ok, Buf.live, SmallArray.inside_cell,
      SmallArray.live_cell, Option.not_isSome, Bool.and_true, Bool.and_assoc]

/-- The accesses of `try_push_inner_`. -/
def tryPushInnerAccesses (N : ℕ) (c : Channel T) : List (Access Cell) :=
  match c.popAwaiters with
  | _ :: _ => []
  | [] => if c.buf.full then [] else c.buf.pushAccesses N

theorem tryPushInner_accessed (c : Channel T) (r : ℕ) :
    Accessed N c (c.tryPushInnerAccesses N) (c.tryPushInner r).2 := by
  unfold tryPushInner tryPushInnerAccesses
  cases c.popAwaiters with
  | cons p rest => exact (Accessed.refl c).frame rfl rfl rfl rfl
  | nil =>
    cases c.buf.full with
    | true => exact .refl c
    | false => exact (pushInner_accessed (c.setPush r PushHandle.take) _).frame rfl rfl rfl rfl

theorem tryPush_accessed (c : Channel T) (r : ℕ) :
    Accessed N c (if c.closed then [] else c.tryPushInnerAccesses N) (c.tryPush r).2 := by
  unfold tryPush
  cases c.closed with
  | true => exact .refl c
  | false =>
    simp only [Bool.false_eq_true, if_false]
    split_ifs <;> exact tryPushInner_accessed c r

theorem requestPush_accessed (c : Channel T) (r : ℕ) :
    Accessed N c (if c.closed then [] else c.tryPushInnerAccesses N) (c.requestPush r).2 := by
  unfold requestPush
  cases c.closed with
  | true => exact .refl c
  | false =>
    simp only [Bool.false_eq_true, if_false]
    split_ifs
    · exact tryPushInner_accessed c r
    · exact (tryPushInner_accessed c r).frame rfl rfl rfl rfl

theorem forcePush_accessed {r : ℕ} {alloc : Bool} {q : Bool × Channel T} (hq : c.forcePush r alloc = some q) :
    Accessed N c (if c.closed then [] else c.tryPushInnerAccesses N) q.2 := by
  unfold forcePush at hq
  split_ifs at hq with hclosed htook halloc
  all_goals
    obtain rfl := Option.some.inj hq
    rw [if_neg hclosed]
  · exact tryPushInner_accessed c r
  · exact (tryPushInner_accessed c r).frame rfl rfl rfl rfl

theorem closePushes_buf (l : List ℕ) : ∀ c : Channel T,
    (c.closePushes l).buf = c.buf ∧ (c.closePushes l).lifetimes = c.lifetimes := by
  induction l with
  | nil => exact fun c => ⟨rfl, rfl⟩
  | cons r rest ih => exact fun c => ih (c.closePush r rest)

section Pop

variable [Inhabited T]

theorem popInner_accessed (c : Channel T) : Accessed N c (c.buf.popAccesses N) c.popInner.2 := by
  refine ⟨rfl, ?_, ?_⟩
  · ext k
    show SmallArray.live N c.buf.capacity (Function.update c.buf.slots c.buf.headIdx none) k = _
    rw [SmallArray.live_update, Buf.popAccesses, liveAfter_cons, liveAfter_cons, liveAfter_nil, Access.after,
      Access.sets]
    split_ifs <;> rfl
  · show (c.lifetimes && decide _ && Option.isSome _) = _
    -- `get` leaves the cell as it is, so `destroy` asks the same of it
    simp only [Buf.popAccesses, legal_cons, legal_nil, Access.after_get, Access.ok, Buf.live, SmallArray.inside_cell,
      SmallArray.live_cell, Bool.and_true, Bool.and_self, Bool.and_assoc]

theorem popAndPush_accessed (c : Channel T) (x : T) :
    Accessed N c (c.buf.popAndPushAccesses N) (c.popAndPush x).2 := by
  unfold popAndPush Buf.popAndPushAccesses
  split_ifs with h0
  · exact .refl c
  · exact (popInner_accessed c).trans (pushInner_accessed c.popInner.2 x)

/-- The accesses of `try_pop_inner_`. -/
def tryPopInnerAccesses (N : ℕ) (c : Channel T) : List (Access Cell) :=
  match c.pushAwaiters with
  | _ :: _ => c.buf.popAndPushAccesses N
  | [] => if c.buf.empty then [] else c.buf.popAccesses N

theorem tryPopInner_accessed (c : Channel T) : Accessed N c (c.tryPopInnerAccesses N) c.tryPopInner.2 := by
  unfold tryPopInner tryPopInnerAccesses
  cases c.pushAwaiters with
  | cons r rest => exact (popAndPush_accessed ((c.check c.buf.full).takeOver r rest) _).frame rfl rfl rfl rfl
  | nil =>
    cases c.buf.empty with
    | true => exact .refl c
    | false => exact popInner_accessed c

theorem drain_accessed (n : ℕ) : ∀ c : Channel T, Accessed N c (c.buf.drainAccesses N n) (c.drain n) := by
  induction n with
  | zero => exact .refl
  | succ n ih =>
    intro c
    unfold drain Buf.drainAccesses
    cases c.buf.empty with
    | true => exact .refl c
    | false => exact (popInner_accessed c).trans (ih c.popInner.2)

theorem closePops_buf (l : List ℕ) : ∀ c : Channel T,
    (c.closePops l).buf = c.buf ∧ (c.closePops l).lifetimes = c.lifetimes := by
  induction l with
  | nil => exact fun c => ⟨rfl, rfl⟩
  | cons p rest ih => exact fun c => ih (c.closePop p rest)

/-- `push_close_inner_` completes those who wait and touches no slot. -/
theorem pushCloseInner_accessed (c : Channel T) : Accessed N c [] c.pushCloseInner := by
  unfold pushCloseInner
  split_ifs with hclosed
  · exact .refl c
  · obtain ⟨hb, hl⟩ := closePops_buf c.popAwaiters ({ c with closed := true } : Channel T)
    obtain ⟨hb', hl'⟩ := closePushes_buf (closePops { c with closed := true } c.popAwaiters).pushAwaiters
      (closePops { c with closed := true } c.popAwaiters)
    exact (Accessed.refl c).frame rfl rfl (hb'.trans hb) (hl'.trans hl)

theorem destructAll_accessed (c : Channel T) :
    Accessed N c (c.buf.drainAccesses N c.buf.size) c.destructAll :=
  (drain_accessed c.buf.size c).check _

/-! ## Steps and runs -/

/-- The accesses of one step.  `try_push`, `request_push_` and `force_push` go on to `try_push_inner_` on an open
channel; the destructor empties the buffer after `push_close_inner_`. -/
def stepAccesses (N : ℕ) (c : Channel T) : Op T → List (Access Cell)
  | .tryPush .. | .push .. | .forcePush .. => if c.closed then [] else c.tryPushInnerAccesses N
  | .tryPop _ | .pop .. => c.tryPopInnerAccesses N
  | .cancelPush _ | .cancelPushDone _ | .cancelPop _ | .cancelPopDone _ | .pushClose => []
  | .destroy => c.pushCloseInner.buf.drainAccesses N c.pushCloseInner.buf.size

/-- The accesses of a run, in order. -/
def accesses (N : ℕ) (c : Channel T) (ops : List (Op T)) : List (Access Cell) := outputs step (stepAccesses N) c ops

theorem tryPop_accessed (c : Channel T) : Accessed N c (c.tryPopInnerAccesses N) c.tryPop.2 := by
  have h := tryPopInner_accessed (N := N) c
  unfold tryPop
  revert h
  generalize c.tryPopInner = q
  rintro h
  rcases q with ⟨_ | x, d⟩
  · simp only
    split_ifs <;> exact h
  · exact h

theorem requestPop_accessed (c : Channel T) (p : ℕ) : Accessed N c (c.tryPopInnerAccesses N) (c.requestPop p).2 := by
  have h := tryPopInner_accessed (N := N) c
  unfold requestPop
  revert h
  generalize c.tryPopInner = q
  rintro h
  rcases q with ⟨_ | x, d⟩
  · simp only
    split_ifs <;> exact h.frame rfl rfl rfl rfl
  · exact h

/-- **Step lemma**: the accesses listed for a step are those the model makes. -/
theorem step_accessed {op : Op T} (hs : step c op = some c') : Accessed N c (c.stepAccesses N op) c' := by
  cases step_made hs with
  | tryPush r x copied => exact (tryPush_accessed (c.newPush r x copied none) r).frame rfl rfl rfl rfl
  | push r x copied rt => exact (requestPush_accessed (c.newPush r x copied (some rt)) r).frame rfl rfl rfl rfl
  | forcePush r x alloc q hd hr hq => exact (forcePush_accessed hq).frame rfl rfl rfl rfl
  | tryPop p => exact (tryPop_accessed (c.newPop p none)).frame rfl rfl rfl rfl
  | pop p rt => exact (requestPop_accessed (c.newPop p (some rt)) p).frame rfl rfl rfl rfl
  | pushLeaves | popLeaves => exact (Accessed.refl c).frame rfl rfl rfl rfl
  | pushGone | popGone => exact .refl c
  | cancelPushDone r =>
    obtain ⟨hb, hl, -⟩ := c.cancelPushDone_frame r
    exact (Accessed.refl c).frame rfl rfl hb hl
  | cancelPopDone p =>
    obtain ⟨hb, hl, -⟩ := c.cancelPopDone_frame p
    exact (Accessed.refl c).frame rfl rfl hb hl
  | pushClose => exact pushCloseInner_accessed c
  | destroy =>
    have h := (pushCloseInner_accessed c).trans (destructAll_accessed (N := N) c.pushCloseInner)
    rw [List.nil_append] at h
    -- rewritten and not unified: the loop over `size` must not be run
    simp only [stepAccesses]
    exact h.destroyed

/-- **Run lemma**: so are those listed for a run. -/
theorem run_accessed (ops : List (Op T)) (hrun : run step c ops = some c') : Accessed N c (c.accesses N ops) c' :=
  run_outputs (R := Accessed N) .refl (fun _ _ _ _ _ h h' => h.trans h') (fun _ _ _ hs => step_accessed hs) ops hrun

variable {cap : ℕ} {c₀ : Channel T} {ops : List (Op T)}

/-- A new channel has no items, in any cell. -/
theorem init_live (h0 : init cap = some c₀) : c₀.buf.live N = fun _ => false := by
  obtain ⟨n, -, rfl⟩ := Option.map_eq_some_iff.mp h0
  ext k
  exact Bool.and_false _

theorem accesses_legal (h0 : init cap = some c₀) (hrun : run step c₀ ops = some c) :
    legal (SmallArray.inside N c₀.buf.capacity) (fun _ => false) (c₀.accesses N ops) = true := by
  obtain ⟨⟨hG, -⟩, -⟩ := run_refines ops (Sound.init h0) hrun
  have hl := (run_accessed (N := N) ops hrun).lifetimes
  rw [hG.lifetimes, init_live h0] at hl
  exact (Bool.and_eq_true_iff.mp hl.symm).2

theorem accesses_live (h0 : init cap = some c₀) (hrun : run step c₀ ops = some c) :
    liveAfter (fun _ => false) (c₀.accesses N ops) = c.buf.live N := by
  rw [(run_accessed ops hrun).live, init_live h0]

/-- Without a buffer there is no cell that an access could be to. -/
theorem accesses_nil (h0 : init 0 = some c₀) (hrun : run step c₀ ops = some c) : c₀.accesses N ops = [] := by
  have hcap : c₀.buf.capacity = 0 := by
    rcases init_capacity h0 with ⟨-, hz⟩ | ⟨k, -, hk, -⟩
    · exact hz
    · obtain rfl := Option.some.inj h0
      rfl
  refine List.eq_nil_iff_forall_not_mem.mpr (fun a ha => ?_)
  have hin := legal_inside (accesses_legal (N := N) h0 hrun) a ha
  simp [SmallArray.inside, hcap] at hin

/-- After the destructor no slot holds an item. -/
theorem destroyed_slots (h0 : init cap = some c₀) (hrun : run step c₀ ops = some c) (hd : c.destroyed = true)
    (i : ℕ) : c.buf.slots i = none := by
  obtain ⟨⟨hG, -⟩, ht⟩ := run_refines ops (Sound.init h0) hrun
  obtain ⟨-, hempty⟩ := init_spec h0
  rw [hempty] at ht
  obtain ⟨-, hitems⟩ := Spec.destroyed_star (Spec.inv_empty _) rfl ht hd
  obtain ⟨pos, hb⟩ := hG.buf
  rw [show c.buf.items = [] from hitems] at hb
  exact hb.vac i (fun d hd' => absurd hd' (Nat.not_lt_zero d))

/-- **Every slot is constructed and destroyed in turn**, for every capacity, every `N` and every run of callers:
every access is to a slot of the ring, `construct` to one without an item, `get` and `destroy` to one with an item.
The slots that hold an item are those of the positions from `head_` to `tail_`, counted modulo `2 ^ 64`; without a
buffer nothing is accessed; and when the destructor has run, every `construct` has had its `destroy`. -/
theorem slots_alternate (N : ℕ) (h0 : init cap = some c₀) (hrun : run step c₀ ops = some c) :
    legal (SmallArray.inside N c₀.buf.capacity) (fun _ => false) (c₀.accesses N ops) = true ∧
    (∀ k, (false :: lifetime k (c₀.accesses N ops)).IsChain (· ≠ ·)) ∧
    liveAfter (fun _ => false) (c₀.accesses N ops) = c.buf.live N ∧
    (∀ i, (c.buf.slots i).isSome = true ↔ ∃ d < c.buf.size, ((c.buf.head + d) % 2 ^ 64) &&& c.buf.mask = i) ∧
    (cap = 0 → c₀.accesses N ops = []) ∧
    (c.destroyed = true → (∀ i, c.buf.slots i = none) ∧
      ∀ k, (lifetime k (c₀.accesses N ops)).getLastD false = false) := by
  have hlegal := accesses_legal (N := N) h0 hrun
  have hlive := accesses_live (N := N) h0 hrun
  refine ⟨hlegal, lifetime_alternates hlegal, hlive, ?_, ?_, ?_⟩
  · obtain ⟨⟨hG, -⟩, -⟩ := run_refines ops (Sound.init h0) hrun
    obtain ⟨pos, hb⟩ := hG.buf
    exact hb.isSome_iff
  · rintro rfl
    exact accesses_nil h0 hrun
  · intro hd
    have hnone := destroyed_slots h0 hrun hd
    refine ⟨hnone, fun k => ?_⟩
    rw [← liveAfter_eq _ (fun _ => false), hlive, Buf.live, SmallArray.live, hnone]
    exact Bool.and_false _

/-- The calls of a run on two slots: both are filled, a push waits, a pop empties the first slot and the waiting item
takes it, and the destructor ends the items in the order of the ring. -/
def refillOps : List (Op ℕ) :=
  [.tryPush 0 10 false, .tryPush 1 11 false, .push 2 12 false 7, .tryPop 0, .destroy]

theorem slots_alternate_refill : ∃ c₀ c : Channel ℕ, init 2 = some c₀ ∧ run step c₀ refillOps = some c ∧
    c₀.accesses 2 refillOps =
      [.construct ⟨true, 0⟩, .construct ⟨true, 1⟩, .get ⟨true, 0⟩, .destroy ⟨true, 0⟩, .construct ⟨true, 0⟩,
        .get ⟨true, 1⟩, .destroy ⟨true, 1⟩, .get ⟨true, 0⟩, .destroy ⟨true, 0⟩] ∧
    lifetime ⟨true, 0⟩ (c₀.accesses 2 refillOps) = [true, false, true, false] ∧
    (∀ k, (false :: lifetime k (c₀.accesses 2 refillOps)).IsChain (· ≠ ·)) ∧ ∀ i, c.buf.slots i = none := by
  have hrun : ((init 2 : Option (Channel ℕ)).bind (fun c₀ =>
      (run step c₀ refillOps).map (fun c => (c.destroyed, c₀.accesses 2 refillOps)))) =
      some (true, [.construct ⟨true, 0⟩, .construct ⟨true, 1⟩, .get ⟨true, 0⟩, .destroy ⟨true, 0⟩,
        .construct ⟨true, 0⟩, .get ⟨true, 1⟩, .destroy ⟨true, 1⟩, .get ⟨true, 0⟩, .destroy ⟨true, 0⟩]) := by
    decide +kernel
  obtain ⟨c₀, h0, hrun⟩ := Option.bind_eq_some_iff.mp hrun
  obtain ⟨c, hc, hres⟩ := Option.map_eq_some_iff.mp hrun
  rw [Prod.mk.injEq] at hres
  obtain ⟨hd, htrace⟩ := hres
  obtain ⟨-, hchain, -, -, -, hend⟩ := slots_alternate 2 h0 hc
  refine ⟨c₀, c, h0, hc, htrace, ?_, hchain, (hend hd).1⟩
  rw [htrace]
  rfl

/-! ## The counters -/

variable {n : ℕ} {x : T} {xs : List T}

omit [Inhabited T] in
/-- `try_push` on an open channel with room, and no pop that waits. -/
theorem tryPush_room {r : ℕ} (hclosed : c.closed = false) (hp : c.popAwaiters = []) (hfull : c.buf.full = false) :
    c.tryPush r = (0, (c.setPush r PushHandle.take).pushInner (c.pushes r).item) := by
  unfold tryPush tryPushInner
  rw [hclosed, hp, hfull]
  rfl

/-- `try_pop` on a channel with items, and no push that waits. -/
theorem tryPop_item (hq : c.pushAwaiters = []) (hempty : c.buf.empty = false) :
    c.tryPop = ((0, c.popInner.1), c.popInner.2) := by
  unfold tryPop tryPopInner
  rw [hq, hempty]
  rfl

/-- The channel is open and nobody waits; `n` items went through it and `xs` are in it. -/
structure Calm (c : Channel T) (n : ℕ) (xs : List T) : Prop where
  buf : c.buf.Holds n xs
  idle : c.pushAwaiters = [] ∧ c.popAwaiters = []
  running : c.closed = false ∧ c.destroyed = false
  pushes : ∀ r ∈ pushOrder c.log, r < n + xs.length
  pops : ∀ p ∈ popOrder c.log, p < n
  count : (delivered c.log).length = n

theorem Calm.push (h : c.Calm n xs) (hl : xs.length < c.buf.capacity) (x : T) :
    ∃ c', step c (.tryPush (n + xs.length) x false) = some c' ∧ c'.Calm n (xs ++ [x]) ∧
      c'.buf.capacity = c.buf.capacity := by
  have hguard : ¬ (c.destroyed = true ∨ n + xs.length ∈ pushOrder c.log) := by
    rintro (hd | hr)
    · exact absurd hd (by simp [h.running.2])
    · exact absurd (h.pushes _ hr) (lt_irrefl _)
  have hfull : c.buf.full = false := by
    rw [← Bool.not_eq_true, h.buf.full_iff]
    exact Nat.ne_of_lt hl
  simp only [step]
  rw [if_neg hguard, tryPush_room (c := c.newPush _ x false none) h.running.1 h.idle.2 hfull]
  refine ⟨_, rfl, ?_⟩
  simp only [newPush, setPush, emit, pushInner, check, Function.update_self, PushHandle.new]
  refine ⟨⟨h.buf.push hl, h.idle, h.running, ?_, ?_, ?_⟩, rfl⟩
  · intro r hr
    have hr' : r ∈ pushOrder c.log ∨ r = n + xs.length := by simpa using hr
    rw [List.length_append, List.length_singleton]
    rcases hr' with hr' | rfl
    · exact Nat.lt_succ_of_lt (h.pushes r hr')
    · exact Nat.lt_succ_self _
  · intro p hp
    exact h.pops p (by simpa using hp)
  · simpa using h.count

theorem Calm.pop (h : c.Calm n (x :: xs)) : ∃ c', step c (.tryPop n) = some c' ∧ c'.Calm (n + 1) xs ∧
    c'.buf.capacity = c.buf.capacity := by
  have hguard : ¬ (c.destroyed = true ∨ n ∈ popOrder c.log) := by
    rintro (hd | hp)
    · exact absurd hd (by simp [h.running.2])
    · exact absurd (h.pops _ hp) (lt_irrefl _)
  have hempty : c.buf.empty = false := by
    rw [← Bool.not_eq_true, h.buf.empty_iff]
    exact List.cons_ne_nil x xs
  simp only [step]
  rw [if_neg hguard, tryPop_item (c := c.newPop n none) h.idle.1 hempty]
  refine ⟨_, rfl, ?_⟩
  simp only [newPop, setPop, emit, popInner, check]
  refine ⟨⟨h.buf.pop, h.idle, h.running, ?_, ?_, ?_⟩, rfl⟩
  · intro r hr
    have hlt := h.pushes r (by simpa using hr)
    rw [List.length_cons] at hlt
    omega
  · intro p hp
    have hp' : p ∈ popOrder c.log ∨ p = n := by simpa using hp
    rcases hp' with hp' | rfl
    · exact Nat.lt_succ_of_lt (h.pops p hp')
    · exact Nat.lt_succ_self p
  · simpa using h.count

/-- Any number of items can go through a buffer. -/
theorem Calm.run (m : ℕ) : ∀ {c : Channel T} {n : ℕ}, c.Calm n [] → 0 < c.buf.capacity →
    ∃ ops c', Lib.run step c ops = some c' ∧ c'.Calm (n + m) [] := by
  induction m with
  | zero => exact fun {c n} h _ => ⟨[], c, rfl, h⟩
  | succ m ih =>
    intro c n h hcap
    obtain ⟨d, h1, hd, hcap₁⟩ := h.push hcap default
    obtain ⟨c', h2, hc', hcap₂⟩ := hd.pop
    obtain ⟨ops, c'', hrun, hlast⟩ := ih hc' (by rwa [hcap₂, hcap₁])
    refine ⟨.tryPush n default false :: .tryPop n :: ops, c'', ?_, ?_⟩
    · rw [List.length_nil, Nat.add_zero] at h1
      rw [run_cons, h1, Option.bind_some, run_cons, h2, Option.bind_some, hrun]
    · rwa [Nat.add_assoc, Nat.add_comm 1 m] at hlast

/-- **The counters go around**: with a buffer there are runs on which any number of items have gone through it, and
`head_` and `tail_` are that number modulo `2 ^ 64`. -/
theorem counters_go_around (h0 : init cap = some c₀) (hcap : cap ≠ 0) (n : ℕ) :
    ∃ ops c, run step c₀ ops = some c ∧ (delivered c.log).length = n ∧
      c.buf.head = n % 2 ^ 64 ∧ c.buf.tail = n % 2 ^ 64 := by
  have hpos : 0 < c₀.buf.capacity := by
    rcases init_capacity h0 with ⟨hz, -⟩ | ⟨k, -, hk, -⟩
    · exact absurd hz hcap
    · rw [hk]
      exact Nat.two_pow_pos k
  have hcalm : c₀.Calm 0 [] := by
    have hb := init_holds h0
    obtain ⟨m, -, rfl⟩ := Option.map_eq_some_iff.mp h0
    exact ⟨hb, ⟨rfl, rfl⟩, ⟨rfl, rfl⟩, nofun, nofun, rfl⟩
  obtain ⟨ops, c, hrun, hc⟩ := hcalm.run n hpos
  rw [Nat.zero_add] at hc
  exact ⟨ops, c, hrun, hc.count, hc.buf.head, hc.buf.tail⟩

end Pop

end Channel

end Condy
