import Condy.Errno
import Condy.Ring

/-!
# Condy.Link — linked operations in the submission queue

`link` and `hard_link` start their children one after the other, each but the last with the link flag.  The kernel ends
a chain at the end of a submission, so the entries of a chain have to be handed over together.  `reserve_space` makes
room for all of them; but every start also calls `maybe_submit`, which submits when `submit_batch_` operations were
started, whichever these are.
-/

namespace Condy

/-! ## Queueing entries one by one -/

namespace Ring

variable {σ : Type}

/-- A series of `get_sqe` and `maybe_submit`. -/
def queueAll : List σ → Ring σ → Option (Ring σ)
  | [], r => some r
  | x :: xs, r => (r.getSqe x).bind fun r => queueAll xs r.maybeSubmit

/-- The last `xs.length` entries are `xs` and are queued together or were handed over together. -/
def Together (r : Ring σ) (xs : List σ) : Prop :=
  ∃ pre, r.queued = pre ++ xs ∨ ∃ bs, r.batches = bs ++ [pre ++ xs] ∧ r.queued = []

variable {r r' : Ring σ} {x : σ} {xs ys : List σ}

/-- One entry, when there is room. -/
def queueOne (r : Ring σ) (x : σ) : Ring σ := maybeSubmit { r with queued := r.queued ++ [x] }

theorem queueAll_cons (h : 0 < r.spaceLeft) : queueAll (x :: xs) r = queueAll xs (r.queueOne x) := by
  rw [queueAll, getSqe_room h]
  rfl

theorem queueOne_below (h : r.maybeSubmitCount + 1 < r.submitBatch) : r.queueOne x =
    { r with queued := r.queued ++ [x], maybeSubmitCount := r.maybeSubmitCount + 1 } :=
  if_neg (Nat.not_le_of_lt h)

theorem queueOne_full (h : r.submitBatch ≤ r.maybeSubmitCount + 1) : (r.queueOne x).queued = [] ∧
    (r.queueOne x).batches = r.batches ++ [r.queued ++ [x]] := by
  have he : r.queueOne x = submit { r with
      queued := r.queued ++ [x], maybeSubmitCount := r.maybeSubmitCount + 1 } := if_pos h
  rw [he]
  exact ⟨rfl, rfl⟩

/-- Submitting frees slots, so that an entry costs at most one. -/
theorem spaceLeft_queueOne (r : Ring σ) (x : σ) : r.spaceLeft - 1 ≤ (r.queueOne x).spaceLeft := by
  unfold queueOne maybeSubmit
  split
  · simp only [submit, spaceLeft, List.length_append, List.length_singleton, List.length_nil]
    split <;> omega
  · simp only [spaceLeft, List.length_append, List.length_singleton]
    omega

theorem room_queueOne (h : (x :: xs).length ≤ r.spaceLeft) : xs.length ≤ (r.queueOne x).spaceLeft := by
  have := r.spaceLeft_queueOne x
  rw [List.length_cons] at h
  omega

/-- With room for all of them the series ends. -/
theorem queueAll_isSome : ∀ (xs : List σ) {r : Ring σ}, xs.length ≤ r.spaceLeft → ∃ r', queueAll xs r = some r'
  | [], r, _ => ⟨r, rfl⟩
  | x :: xs, r, h => by
    rw [queueAll_cons (by rw [List.length_cons] at h; omega)]
    exact queueAll_isSome xs (room_queueOne h)

/-- A series that stays below the batch size does not submit before its last entry. -/
theorem queueAll_together : ∀ (xs : List σ) {r r' : Ring σ}, xs.length ≤ r.spaceLeft →
    r.maybeSubmitCount + xs.length ≤ r.submitBatch → queueAll xs r = some r' →
    r'.queued = r.queued ++ xs ∨ r'.batches = r.batches ++ [r.queued ++ xs] ∧ r'.queued = []
  | [], r, r', _, _, hq => by
    obtain rfl := Option.some.inj hq
    exact .inl (List.append_nil _).symm
  | x :: xs, r, r', h, hb, hq => by
    rw [queueAll_cons (by rw [List.length_cons] at h; omega)] at hq
    rw [List.length_cons] at hb
    by_cases hlt : r.maybeSubmitCount + 1 < r.submitBatch
    · have hroom := room_queueOne h
      rw [queueOne_below hlt] at hq hroom
      have ih := queueAll_together xs hroom (by dsimp only; omega) hq
      rwa [List.append_assoc] at ih
    · -- The batch is full with the last entry.
      obtain rfl : xs = [] := List.eq_nil_of_length_eq_zero (by omega)
      obtain rfl := Option.some.inj hq
      obtain ⟨h1, h2⟩ := r.queueOne_full (x := x) (by omega)
      exact .inr ⟨h2, h1⟩

/-- What is queued, or was handed over last, after a series: at most what was queued before and the series. -/
theorem queueAll_last : ∀ (xs : List σ) {r r' : Ring σ}, xs ≠ [] → xs.length ≤ r.spaceLeft →
    queueAll xs r = some r' → r'.queued.length ≤ r.queued.length + xs.length ∧
    (r'.queued = [] → ∃ bs b, r'.batches = bs ++ [b] ∧ b.length ≤ r.queued.length + xs.length)
  | [], _, _, hne, _, _ => absurd rfl hne
  | x :: xs, r, r', _, h, hq => by
    rw [queueAll_cons (by rw [List.length_cons] at h; omega)] at hq
    -- After one entry: one more is queued, or nothing and the last batch has it.
    have hone : (r.queueOne x).queued.length ≤ r.queued.length + 1 ∧ ((r.queueOne x).queued = [] →
        ∃ bs b, (r.queueOne x).batches = bs ++ [b] ∧ b.length ≤ r.queued.length + 1) := by
      by_cases hlt : r.maybeSubmitCount + 1 < r.submitBatch
      · rw [queueOne_below hlt]
        exact ⟨by simp, fun hn => absurd hn (by simp)⟩
      · obtain ⟨h1, h2⟩ := r.queueOne_full (x := x) (by omega)
        exact ⟨by simp [h1], fun _ => ⟨r.batches, _, h2, by simp⟩⟩
    rw [List.length_cons]
    cases xs with
    | nil =>
      obtain rfl := Option.some.inj hq
      exact hone
    | cons y ys =>
      obtain ⟨h1, h2⟩ := queueAll_last (y :: ys) (List.cons_ne_nil y ys) (room_queueOne h) hq
      refine ⟨by omega, fun hn => ?_⟩
      obtain ⟨bs, b, hb, hlen⟩ := h2 hn
      exact ⟨bs, b, hb, by omega⟩

/-- A series that passes the batch size submits between two of its entries. -/
theorem queueAll_split : ∀ (xs : List σ) {r : Ring σ}, xs.length ≤ r.spaceLeft → 2 ≤ xs.length →
    r.submitBatch < r.maybeSubmitCount + xs.length → ∃ (ys : List σ) (u : Ring σ), ys ≠ [] ∧ ys.length < xs.length ∧
      u.queued = [] ∧ ys.length ≤ u.spaceLeft ∧ queueAll xs r = queueAll ys u
  | [], _, _, h2, _ => absurd h2 (by simp)
  | x :: xs, r, h, h2, hb => by
    rw [queueAll_cons (by rw [List.length_cons] at h; omega)]
    rw [List.length_cons] at h2 hb ⊢
    have hroom := room_queueOne h
    by_cases hlt : r.maybeSubmitCount + 1 < r.submitBatch
    · rw [queueOne_below hlt] at hroom ⊢
      obtain ⟨ys, u, hne, hlen, hrest⟩ := queueAll_split xs hroom (by omega) (by dsimp only; omega)
      exact ⟨ys, u, hne, by omega, hrest⟩
    · have hne : xs ≠ [] := by
        rintro rfl
        simp at h2
      exact ⟨xs, _, hne, by omega, (r.queueOne_full (by omega)).1, hroom, rfl⟩

/-- **A series is handed over together exactly if the count stays within the batch.** -/
theorem queueAll_together_iff (h : xs.length ≤ r.spaceLeft) (hq : queueAll xs r = some r') :
    r'.Together xs ↔ xs.length ≤ 1 ∨ r.maybeSubmitCount + xs.length ≤ r.submitBatch := by
  constructor
  · rintro ⟨pre, ht⟩
    by_contra hno
    push Not at hno
    obtain ⟨ys, u, hne, hlen, hu, hroom, he⟩ := queueAll_split xs h (by omega) (by omega)
    rw [he] at hq
    obtain ⟨h1, h2⟩ := queueAll_last ys hne hroom hq
    rw [hu, List.length_nil, Nat.zero_add] at h1 h2
    -- What was handed over last has fewer than `xs.length` entries.
    rcases ht with ht | ⟨bs, hb, hnil⟩
    · rw [ht, List.length_append] at h1
      omega
    · obtain ⟨bs', b, hb', hlen'⟩ := h2 hnil
      rw [hb] at hb'
      obtain ⟨-, hbb⟩ := List.append_inj' hb' rfl
      rw [← (List.cons.inj hbb).1, List.length_append] at hlen'
      omega
  · rintro (hone | hle)
    · cases xs with
      | nil => exact ⟨r'.queued, .inl (List.append_nil _).symm⟩
      | cons x xs =>
        obtain rfl : xs = [] := List.eq_nil_of_length_eq_zero (by simpa using hone)
        rw [queueAll_cons h] at hq
        obtain rfl := Option.some.inj hq
        by_cases hlt : r.maybeSubmitCount + 1 < r.submitBatch
        · rw [queueOne_below hlt]
          exact ⟨r.queued, .inl rfl⟩
        · obtain ⟨h1, h2⟩ := r.queueOne_full (x := x) (by omega)
          exact ⟨r.queued, .inr ⟨r.batches, h2, h1⟩⟩
    · rcases queueAll_together xs h hle hq with h1 | ⟨h1, h2⟩
      · exact ⟨r.queued, .inl h1⟩
      · exact ⟨r.queued, .inr ⟨r.batches, h1, h2⟩⟩

end Ring

/-! ## Starting linked operations -/

/-- A prepared entry with its flags. -/
structure LinkSqe (β : Type) where
  body : β
  flags : ℕ
deriving DecidableEq, Repr

/-- A child: whether a stop is requested on its token, and what `prep_func_` returns. -/
structure LinkChild (β : Type) where
  stopRequested : Bool
  prep : Option (LinkSqe β)
deriving DecidableEq, Repr

/-- A child that needs one entry. -/
def LinkChild.ready {β : Type} (e : LinkSqe β) : LinkChild β := ⟨false, some e⟩

/-- `start` does not fail: no stop is requested, and `prep_func_` returns an entry. -/
def LinkChild.starts {β : Type} (c : LinkChild β) : Bool := !c.stopRequested && c.prep.isSome

/-- The entry that an operation queues when it is started with these flags. -/
def LinkChild.entry {β : Type} (c : LinkChild β) (flags : ℕ) : Option (LinkSqe β) :=
  if c.stopRequested then none else c.prep.map fun e => { e with flags := e.flags ||| flags }

/-- The runtime as far as the start of an operation uses it. -/
structure Starting (β : Type) where
  ring : Ring (LinkSqe β)
  pendingWorks : ℕ
  /-- The children that failed in `start`, with the results of their receivers. -/
  failed : List (ℕ × ℤ)
deriving DecidableEq, Repr

namespace Link

variable {β : Type}

/-- `OpSenderOperationState::start` of child `i`. -/
def startChild (s : Starting β) (i : ℕ) (c : LinkChild β) (flags : ℕ) : Option (Starting β) :=
  if c.stopRequested then some { s with failed := s.failed ++ [(i, -ECANCELED)] }
  else match c.prep with
    | none => some { s with failed := s.failed ++ [(i, -EINVAL)] }
    | some e => (s.ring.getSqe { e with flags := e.flags ||| flags }).map fun r =>
        { s with ring := r.maybeSubmit, pendingWorks := s.pendingWorks + 1 }

/-- The flags that child `i` of `n` is started with: all but the last are linked to the next. -/
def childFlags (linkFlags flags n i : ℕ) : ℕ := if i < n - 1 then flags ||| linkFlags else flags

/-- `LinkOperationState::start_linked_operations_<I>`. -/
def startLinkedOperations (linkFlags flags n : ℕ) : ℕ → List (LinkChild β) → Starting β → Option (Starting β)
  | _, [], s => some s
  | i, c :: cs, s =>
    (startChild s i c (childFlags linkFlags flags n i)).bind (startLinkedOperations linkFlags flags n (i + 1) cs)

/-- `LinkOperationState::start`. -/
def start (linkFlags flags : ℕ) (children : List (LinkChild β)) (s : Starting β) : Option (Starting β) :=
  (s.ring.reserveSpace children.length).bind fun r =>
    startLinkedOperations linkFlags flags children.length 0 children { s with ring := r }

/-- `RangedLinkOperationState::start`. -/
def startRanged (linkFlags flags : ℕ) (children : List (LinkChild β)) (s : Starting β) : Option (Starting β) :=
  (s.ring.reserveSpace children.length).bind fun r =>
    children.zipIdx.foldlM (fun s (c, i) => startChild s i c (childFlags linkFlags flags children.length i))
      { s with ring := r }

/-- The two forms start their children alike. -/
theorem startRanged_eq (linkFlags flags : ℕ) (children : List (LinkChild β)) (s : Starting β) :
    startRanged linkFlags flags children s = start linkFlags flags children s := by
  have hloop : ∀ (n : ℕ) (cs : List (LinkChild β)) (i : ℕ) (s : Starting β),
      (cs.zipIdx i).foldlM (fun s (c, i) => startChild s i c (childFlags linkFlags flags n i)) s =
        startLinkedOperations linkFlags flags n i cs s := by
    intro n cs
    induction cs with
    | nil => exact fun _ _ => rfl
    | cons c cs ih =>
      intro i s
      rw [List.zipIdx_cons, List.foldlM_cons, startLinkedOperations]
      exact congrArg _ (funext (ih (i + 1)))
  unfold startRanged start
  exact congrArg _ (funext fun r => hloop _ children 0 _)

/-- The entries of children from number `i` on, as they are queued. -/
def chain (linkFlags flags n : ℕ) : ℕ → List (LinkSqe β) → List (LinkSqe β)
  | _, [] => []
  | i, e :: es => { e with flags := e.flags ||| childFlags linkFlags flags n i } :: chain linkFlags flags n (i + 1) es

theorem length_chain (linkFlags flags n : ℕ) (es : List (LinkSqe β)) (i : ℕ) :
    (chain linkFlags flags n i es).length = es.length := by
  induction es generalizing i with
  | nil => rfl
  | cons e es ih => simp [chain, ih]

/-- Children that all need an entry queue the chain. -/
theorem startLinkedOperations_ready (linkFlags flags n : ℕ) : ∀ (es : List (LinkSqe β)) (i : ℕ) (s : Starting β),
    (startLinkedOperations linkFlags flags n i (es.map LinkChild.ready) s).map (·.ring) =
      Ring.queueAll (chain linkFlags flags n i es) s.ring
  | [], _, _ => rfl
  | e :: es, i, s => by
    rw [List.map_cons, startLinkedOperations, chain, Ring.queueAll]
    change (((s.ring.getSqe _).map _).bind _).map _ = _
    cases s.ring.getSqe { e with flags := e.flags ||| childFlags linkFlags flags n i } with
    | none => rfl
    | some r => exact startLinkedOperations_ready linkFlags flags n es (i + 1) _

/-- The count of started operations after `reserve_space(n)`. -/
def countAfterReserve (r : Ring (LinkSqe β)) (n : ℕ) : ℕ := if n ≤ r.spaceLeft then r.maybeSubmitCount else 0

/-- **When a chain is handed over together**: for any state of the ring, exactly if it has at most one entry or the
count of started operations stays within the batch. -/
theorem chain_together_iff (linkFlags flags : ℕ) (es : List (LinkSqe β)) (s : Starting β)
    (hn : es.length ≤ s.ring.entries) :
    ∃ s', start linkFlags flags (es.map LinkChild.ready) s = some s' ∧
      startRanged linkFlags flags (es.map LinkChild.ready) s = some s' ∧
      (s'.ring.Together (chain linkFlags flags es.length 0 es) ↔
        es.length ≤ 1 ∨ countAfterReserve s.ring es.length + es.length ≤ s.ring.submitBatch) := by
  obtain ⟨r, hr, hw⟩ := Ring.reserveSpace_isSome hn
  have hlen := length_chain linkFlags flags es.length es 0
  have hroom : (chain linkFlags flags es.length 0 es).length ≤ r.spaceLeft := by
    rw [hlen]
    exact hw.room
  obtain ⟨r', hq⟩ := Ring.queueAll_isSome _ hroom
  have hstart := startLinkedOperations_ready linkFlags flags es.length es 0 { s with ring := r }
  rw [hq, Option.map_eq_some_iff] at hstart
  obtain ⟨s', hs', rfl⟩ := hstart
  have hrun : start linkFlags flags (es.map LinkChild.ready) s = some s' := by
    unfold start
    rw [List.length_map, hr]
    exact hs'
  refine ⟨s', hrun, (startRanged_eq ..).trans hrun, ?_⟩
  have hcount : r.maybeSubmitCount = countAfterReserve s.ring es.length := by
    unfold countAfterReserve
    rcases hw.how with ⟨hle, rfl⟩ | ⟨hlt, -, h0⟩
    · rw [if_pos hle]
    · rw [if_neg (by omega), h0]
  rw [Ring.queueAll_together_iff hroom hq, hlen, hcount, hw.batch]

/-- Three linked operations on an idle ring with a batch size of 32. -/
theorem chain_together_idle : ∃ s', start 4 0 ([⟨1, 0⟩, ⟨2, 0⟩, ⟨3, 0⟩].map LinkChild.ready)
      (⟨.new 8 false 32 [], 0, []⟩ : Starting ℕ) = some s' ∧
    s'.ring.Together [⟨1, 4⟩, ⟨2, 4⟩, ⟨3, 0⟩] := by
  obtain ⟨s', hs', -, hiff⟩ := chain_together_iff 4 0 [⟨1, 0⟩, ⟨2, 0⟩, ⟨3, 0⟩]
    (⟨.new 8 false 32 [], 0, []⟩ : Starting ℕ) (by decide)
  exact ⟨s', hs', hiff.mpr (.inr (by decide))⟩

/-- One operation was started before and the batch size is 2: the first operation of the chain fills the batch, and the
second is left for the next submission. -/
theorem chain_split_by_batch : ∃ s s', startChild (⟨.new 8 false 2 [], 0, []⟩ : Starting ℕ) 0 (.ready ⟨0, 0⟩) 0 = some s ∧
    start 4 0 ([⟨1, 0⟩, ⟨2, 0⟩].map LinkChild.ready) s = some s' ∧
    s'.ring.batches = [[⟨0, 0⟩, ⟨1, 4⟩]] ∧ s'.ring.queued = [⟨2, 0⟩] ∧
    ¬ s'.ring.Together (chain 4 0 2 0 [⟨1, 0⟩, ⟨2, 0⟩]) := by
  have hrun : ((startChild (⟨.new 8 false 2 [], 0, []⟩ : Starting ℕ) 0 (.ready ⟨0, 0⟩) 0).bind fun s =>
      (start 4 0 ([⟨1, 0⟩, ⟨2, 0⟩].map LinkChild.ready) s).map fun s' => (s'.ring.batches, s'.ring.queued)) =
        some ([[⟨0, 0⟩, ⟨1, 4⟩]], [⟨2, 0⟩]) := by
    decide
  obtain ⟨s, hs, hrun⟩ := Option.bind_eq_some_iff.mp hrun
  obtain ⟨s', hs', hend⟩ := Option.map_eq_some_iff.mp hrun
  obtain ⟨hb, hq⟩ : s'.ring.batches = _ ∧ s'.ring.queued = _ := by simpa using hend
  refine ⟨s, s', hs, hs', hb, hq, ?_⟩
  rintro ⟨pre, ht | ⟨bs, -, hnil⟩⟩
  · have hlen := congrArg List.length (hq.symm.trans ht)
    rw [List.length_append, length_chain] at hlen
    simp only [List.length_cons, List.length_nil] at hlen
    omega
  · rw [hq] at hnil
    nomatch hnil

end Link

end Condy
