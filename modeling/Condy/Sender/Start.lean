import Condy.Sender.Sequence

/-!
# Condy.Sender.Start — starting composed senders whose operations may fail at once

`start(flags)` goes down the tree of a composed sender and queues an entry for each operation that does not fail
synchronously: a stop may be requested already, or `prep_func_` returns no entry.  `Composed.queue` is what is queued.

A link reserves one slot for each of its children first.  This loop has no end when the ring has fewer slots
(`Composed.fits`).  And it chooses the flags of a child by its position: when no operation of the last child starts, the
last entry of the chain is one that is linked to the next, whoever queues that.  `Composed.ends` says of the tree, the
stop requests, the prepared entries and the flags whether the chain ends with its last operation (`chain_ends_iff`).
-/

namespace Condy.Sequence

open Condy.Sender Condy.Sequence.Sender

variable {β : Type}

namespace Composed

mutual
/-- `start(flags)` of child `i`.  `none`: a `reserve_space` does not return. -/
def start : Composed (LinkChild β) → ℕ → ℕ → Starting β → Option (Starting β)
  | .op c, i, flags, s => Link.startChild s i c flags
  | .flag more c, i, flags, s => start c i (flags ||| more) s
  | .parallel _ _ children, _, flags, s => startFrom (fun _ => flags) 0 children s
  | .link _ kind children, _, flags, s =>
    (s.ring.reserveSpace children.length).bind fun r =>
      startFrom (Link.childFlags kind.flags flags children.length) 0 children { s with ring := r }
/-- The children from number `i` on, child `j` with the flags `g j`. -/
def startFrom : (ℕ → ℕ) → ℕ → List (Composed (LinkChild β)) → Starting β → Option (Starting β)
  | _, _, [], s => some s
  | g, i, c :: children, s => (start c i (g i) s).bind fun s => startFrom g (i + 1) children s
end

/-- The entries that `start(flags)` queues. -/
def queue (c : Composed (LinkChild β)) (flags : ℕ) : List (LinkSqe β) :=
  c.queueWith (fun c flags => (c.entry flags).toList) flags

def queueFrom (g : ℕ → ℕ) (i : ℕ) (children : List (Composed (LinkChild β))) : List (LinkSqe β) :=
  queueWithFrom (fun c flags => (c.entry flags).toList) g i children

mutual
/-- No link has more children than the ring has slots. -/
def fits (slots : ℕ) : Composed (LinkChild β) → Bool
  | .op _ => true
  | .flag _ c => fits slots c
  | .parallel _ _ children => fitsAll slots children
  | .link _ _ children => decide (children.length ≤ slots) && fitsAll slots children
def fitsAll (slots : ℕ) : List (Composed (LinkChild β)) → Bool
  | [] => true
  | c :: children => fits slots c && fitsAll slots children
end

/-! ## What `start` does -/

/-- The ring of the second state has the entries of the first, and these. -/
structure Queues (s s' : Starting β) (es : List (LinkSqe β)) : Prop where
  all : s'.ring.all = s.ring.all ++ es
  entries : s'.ring.entries = s.ring.entries

theorem Queues.refl (s : Starting β) : Queues s s [] := ⟨(List.append_nil _).symm, rfl⟩

theorem Queues.trans {s t u : Starting β} {es fs : List (LinkSqe β)} (h : Queues s t es) (h' : Queues t u fs) :
    Queues s u (es ++ fs) := by
  refine ⟨?_, h'.entries.trans h.entries⟩
  rw [h'.all, h.all, List.append_assoc]

/-- An operation queues its entry, if it does not fail. -/
theorem startChild_queues {s s' : Starting β} {i : ℕ} {c : LinkChild β} {flags : ℕ}
    (h : Link.startChild s i c flags = some s') : Queues s s' (c.entry flags).toList := by
  unfold Link.startChild at h
  unfold LinkChild.entry
  by_cases hstop : c.stopRequested = true
  · rw [if_pos hstop] at h ⊢
    obtain rfl := Option.some.inj h
    exact ⟨(List.append_nil _).symm, rfl⟩
  · rw [if_neg hstop] at h ⊢
    cases hprep : c.prep with
    | none =>
      rw [hprep] at h
      obtain rfl := Option.some.inj h
      exact ⟨(List.append_nil _).symm, rfl⟩
    | some e =>
      rw [hprep] at h
      obtain ⟨r, hr, rfl⟩ := Option.map_eq_some_iff.mp h
      obtain ⟨hall, -, hentries⟩ := Ring.getSqe_spec hr
      exact ⟨(r.all_maybeSubmit).trans hall, (r.entries_maybeSubmit).trans hentries⟩

theorem startChild_isSome {s : Starting β} (i : ℕ) (c : LinkChild β) (flags : ℕ) (he : 0 < s.ring.entries) :
    ∃ s', Link.startChild s i c flags = some s' := by
  unfold Link.startChild
  split_ifs
  · exact ⟨_, rfl⟩
  · cases c.prep with
    | none => exact ⟨_, rfl⟩
    | some e =>
      obtain ⟨r, hr⟩ := Option.isSome_iff_exists.mp
        (Ring.getSqe_isSome ({ e with flags := e.flags ||| flags } : LinkSqe β) he)
      exact ⟨_, congrArg (Option.map _) hr⟩

mutual
theorem start_queues : ∀ (c : Composed (LinkChild β)) {i flags : ℕ} {s s' : Starting β}, c.start i flags s = some s' →
    Queues s s' (c.queue flags)
  | .op _, _, _, _, _, h => startChild_queues h
  | .flag _ c, _, _, _, _, h => start_queues c h
  | .parallel _ _ children, _, _, _, _, h => startFrom_queues children h
  | .link _ _ children, _, _, s, _, h => by
    obtain ⟨r, hr, h⟩ := Option.bind_eq_some_iff.mp h
    have hw := Ring.waited hr
    have hwait : Queues s { s with ring := r } [] := ⟨hw.all.trans (List.append_nil _).symm, hw.entries⟩
    exact hwait.trans (startFrom_queues children h)
theorem startFrom_queues : ∀ (children : List (Composed (LinkChild β))) {g : ℕ → ℕ} {i : ℕ} {s s' : Starting β},
    startFrom g i children s = some s' → Queues s s' (queueFrom g i children)
  | [], _, _, s, _, h => by
    obtain rfl := Option.some.inj h
    exact Queues.refl s
  | c :: children, _, _, _, _, h => by
    obtain ⟨t, ht, h⟩ := Option.bind_eq_some_iff.mp h
    exact (start_queues c ht).trans (startFrom_queues children h)
end

/-! ## When `start` returns -/

mutual
/-- **`start` returns exactly if every link fits the ring.** -/
theorem start_iff : ∀ (c : Composed (LinkChild β)) (i flags : ℕ) {s : Starting β}, 0 < s.ring.entries →
    ((∃ s', c.start i flags s = some s') ↔ c.fits s.ring.entries = true)
  | .op c, i, flags, _, he => iff_of_true (startChild_isSome i c flags he) rfl
  | .flag more c, i, flags, _, he => start_iff c i (flags ||| more) he
  | .parallel _ _ children, _, _, _, he => startFrom_iff children _ 0 he
  | .link _ kind children, _, flags, s, he => by
    rw [fits, Bool.and_eq_true, decide_eq_true_eq, ← Ring.reserveSpace_iff]
    constructor
    · rintro ⟨s', h⟩
      obtain ⟨r, hr, h⟩ := Option.bind_eq_some_iff.mp h
      have hentries := (Ring.waited hr).entries
      have hrest := startFrom_iff children (Link.childFlags kind.flags flags children.length) 0
        (s := { s with ring := r }) (hentries ▸ he)
      exact ⟨⟨r, hr⟩, hentries ▸ hrest.mp ⟨s', h⟩⟩
    · rintro ⟨⟨r, hr⟩, hall⟩
      have hentries := (Ring.waited hr).entries
      have hrest := startFrom_iff children (Link.childFlags kind.flags flags children.length) 0
        (s := { s with ring := r }) (hentries ▸ he)
      obtain ⟨s', h⟩ := hrest.mpr (hentries.symm ▸ hall)
      exact ⟨s', Option.bind_eq_some_iff.mpr ⟨r, hr, h⟩⟩
theorem startFrom_iff : ∀ (children : List (Composed (LinkChild β))) (g : ℕ → ℕ) (i : ℕ) {s : Starting β}, 0 < s.ring.entries →
    ((∃ s', startFrom g i children s = some s') ↔ fitsAll s.ring.entries children = true)
  | [], _, _, s, _ => iff_of_true ⟨s, rfl⟩ rfl
  | c :: children, g, i, s, he => by
    have hc := start_iff c i (g i) he
    rw [fitsAll, Bool.and_eq_true, ← hc]
    constructor
    · rintro ⟨s', h⟩
      obtain ⟨t, ht, h⟩ := Option.bind_eq_some_iff.mp h
      have hentries := (start_queues c ht).entries
      exact ⟨⟨t, ht⟩, hentries ▸ (startFrom_iff children g (i + 1) (hentries ▸ he)).mp ⟨s', h⟩⟩
    · rintro ⟨⟨t, ht⟩, hall⟩
      have hentries := (start_queues c ht).entries
      obtain ⟨s', h⟩ := (startFrom_iff children g (i + 1) (hentries ▸ he)).mpr (hentries.symm ▸ hall)
      exact ⟨s', Option.bind_eq_some_iff.mpr ⟨t, ht, h⟩⟩
end

/-- A link of operations is `LinkOperationState` or `RangedLinkOperationState`. -/
theorem start_link_ops (form : Form) (kind : LinkKind) (children : List (LinkChild β)) (i flags : ℕ) (s : Starting β) :
    (Composed.link form kind (children.map .op)).start i flags s = match form with
      | .variadic => Link.start kind.flags flags children s
      | .ranged => Link.startRanged kind.flags flags children s := by
  have hloop : ∀ (n : ℕ) (cs : List (LinkChild β)) (j : ℕ) (s : Starting β),
      startFrom (Link.childFlags kind.flags flags n) j (cs.map .op) s =
        Link.startLinkedOperations kind.flags flags n j cs s := by
    intro n cs
    induction cs with
    | nil => exact fun _ _ => rfl
    | cons c cs ih => exact fun j s => congrArg _ (funext (ih (j + 1)))
  have hstart : (Composed.link form kind (children.map .op)).start i flags s =
      Link.start kind.flags flags children s := by
    rw [start, Link.start, List.length_map]
    exact congrArg _ (funext fun r => hloop _ children 0 _)
  cases form with
  | variadic => exact hstart
  | ranged => exact hstart.trans (Link.startRanged_eq ..).symm

theorem fitsAll_iff {slots : ℕ} : ∀ {children : List (Composed (LinkChild β))},
    fitsAll slots children = true ↔ ∀ c ∈ children, c.fits slots = true
  | [] => iff_of_true rfl fun _ hc => absurd hc List.not_mem_nil
  | c :: children => by
    rw [fitsAll, Bool.and_eq_true, fitsAll_iff, List.forall_mem_cons]

end Composed

/-- **When the start of a ranged link returns**: for every list of senders and every state of the ring.  The loop of
`reserve_space` ends after finitely many submits exactly if the ring has a slot for each sender; and `start` returns
exactly if this holds for the link and for every link below it. -/
theorem ranged_link_returns_iff (kind : LinkKind) (children : List (Composed (LinkChild β))) (i flags : ℕ) (s : Starting β)
    (he : 1 ≤ s.ring.entries) :
    ((∃ fuel r, Ring.waitSpace children.length fuel s.ring = some r) ↔ children.length ≤ s.ring.entries) ∧
      ((∃ s', (Composed.link .ranged kind children).start i flags s = some s') ↔
        children.length ≤ s.ring.entries ∧ ∀ c ∈ children, c.fits s.ring.entries = true) := by
  refine ⟨Ring.waitSpace_iff, ?_⟩
  rw [Composed.start_iff _ i flags he, Composed.fits, Bool.and_eq_true, decide_eq_true_eq, Composed.fitsAll_iff]

/-- Two operations on a ring of two entries, one of which is in use. -/
theorem ranged_link_returns_two : ∃ s', (Composed.link .ranged .link [.op (.ready ⟨1, 0⟩), .op (.ready ⟨2, 0⟩)]).start 0 0
    (⟨{ Ring.new 2 false 32 [] with queued := [⟨0, 0⟩] }, 0, []⟩ : Starting ℕ) = some s' := by
  refine (ranged_link_returns_iff .link [.op (.ready ⟨1, 0⟩), .op (.ready ⟨2, 0⟩)] 0 0 _ ?_).2.mpr ⟨?_, ?_⟩
  · decide
  · decide
  · exact Composed.fitsAll_iff.mp (by decide)

/-- Two operations on a ring of one entry: `reserve_space` submits for ever. -/
theorem ranged_link_never_returns : (∀ fuel, Ring.waitSpace 2 fuel (Ring.new 1 false 32 [] : Ring (LinkSqe ℕ)) = none) ∧
    (Composed.link .ranged .link [.op (.ready ⟨1, 0⟩), .op (.ready ⟨2, 0⟩)]).start 0 0
      (⟨Ring.new 1 false 32 [], 0, []⟩ : Starting ℕ) = none :=
  ⟨fun fuel => Ring.waitSpace_none fuel (by decide), by decide⟩

/-! ## The end of a chain -/

/-- The last entry, if there is one, ends the chain. -/
def EndsChain (es : List (LinkSqe β)) : Prop := ∀ e, es.getLast? = some e → linked e.flags = false

namespace Composed

mutual
/-- Some operation in the sender does not fail in `start`. -/
def starts : Composed (LinkChild β) → Bool
  | .op c => c.starts
  | .flag _ c => starts c
  | .parallel _ _ children => startsAny children
  | .link _ _ children => startsAny children
def startsAny : List (Composed (LinkChild β)) → Bool
  | [] => false
  | c :: children => starts c || startsAny children
end

mutual
/-- The last operation in the sender that does not fail in `start(flags)` is not linked to the next. -/
def ends : Composed (LinkChild β) → ℕ → Bool
  | .op c, flags => c.starts && c.prep.any fun e => !linked (e.flags ||| flags)
  | .flag more c, flags => ends c (flags ||| more)
  | .parallel _ _ children, flags => endsFrom (fun _ => flags) 0 children
  | .link _ kind children, flags => endsFrom (Link.childFlags kind.flags flags children.length) 0 children
def endsFrom : (ℕ → ℕ) → ℕ → List (Composed (LinkChild β)) → Bool
  | _, _, [] => false
  | g, i, c :: children => if startsAny children then endsFrom g (i + 1) children else ends c (g i)
end

theorem queueFrom_cons (g : ℕ → ℕ) (i : ℕ) (c : Composed (LinkChild β)) (children : List (Composed (LinkChild β))) :
    queueFrom g i (c :: children) = c.queue (g i) ++ queueFrom g (i + 1) children := rfl

theorem queueFrom_append (g : ℕ → ℕ) : ∀ (as bs : List (Composed (LinkChild β))) (i : ℕ),
    queueFrom g i (as ++ bs) = queueFrom g i as ++ queueFrom g (i + as.length) bs
  | [], _, _ => rfl
  | c :: as, bs, i => by
    rw [List.cons_append, queueFrom_cons, queueFrom_cons, queueFrom_append g as bs (i + 1), List.append_assoc, List.length_cons,
      show i + 1 + as.length = i + (as.length + 1) by omega]

theorem linked_entry (c : LinkChild β) (flags : ℕ) (h : linked flags = true) :
    ∀ e ∈ (c.entry flags).toList, linked e.flags = true := by
  intro e he
  obtain ⟨-, hentry⟩ := Option.ite_none_left_eq_some.mp (Option.mem_toList.mp he)
  obtain ⟨x, -, rfl⟩ := Option.map_eq_some_iff.mp hentry
  change linked (x.flags ||| flags) = true
  rw [Nat.or_comm]
  exact linked_or h x.flags

/-- The chain of a link: the entries of all children but the last carry its flag, those of the last do not. -/
theorem queue_link (form : Form) (kind : LinkKind) (as : List (Composed (LinkChild β))) (c : Composed (LinkChild β)) (flags : ℕ) :
    ∃ es, (Composed.link form kind (as ++ [c])).queue flags = es ++ c.queue flags ∧ ∀ e ∈ es, linked e.flags = true := by
  have hlast : Link.childFlags kind.flags flags (as ++ [c]).length as.length = flags := by
    refine if_neg ?_
    rw [List.length_append, List.length_singleton]
    omega
  refine ⟨queueFrom (Link.childFlags kind.flags flags (as ++ [c]).length) 0 as, ?_, ?_⟩
  · change queueFrom _ 0 (as ++ [c]) = _
    rw [queueFrom_append, Nat.zero_add, queueFrom_cons, hlast]
    exact congrArg _ (List.append_nil _)
  · refine forall_mem_queueWithFrom linked_entry as _ 0 fun j _ hj => ?_
    have hflags : Link.childFlags kind.flags flags (as ++ [c]).length j = flags ||| kind.flags := by
      refine if_pos ?_
      rw [List.length_append, List.length_singleton]
      omega
    rw [hflags]
    exact linked_kind flags kind

theorem entry_ne_none_iff (c : LinkChild β) (flags : ℕ) : (c.entry flags).toList ≠ [] ↔ c.starts = true := by
  obtain ⟨stop, prep⟩ := c
  cases stop <;> cases prep <;> simp [LinkChild.entry, LinkChild.starts]

theorem entry_ends_iff (c : LinkChild β) (flags : ℕ) : (Composed.op c).ends flags = true ↔
    (c.entry flags).toList ≠ [] ∧ EndsChain (c.entry flags).toList := by
  obtain ⟨stop, prep⟩ := c
  cases stop <;> cases prep <;> simp [LinkChild.entry, ends, LinkChild.starts, EndsChain]

mutual
theorem queue_ne_nil_iff : ∀ (c : Composed (LinkChild β)) (flags : ℕ), c.queue flags ≠ [] ↔ c.starts = true
  | .op c, flags => entry_ne_none_iff c flags
  | .flag more c, flags => queue_ne_nil_iff c (flags ||| more)
  | .parallel _ _ children, flags => queueFrom_ne_nil_iff (fun _ => flags) 0 children
  | .link _ kind children, flags =>
    queueFrom_ne_nil_iff (Link.childFlags kind.flags flags children.length) 0 children
theorem queueFrom_ne_nil_iff : ∀ (g : ℕ → ℕ) (i : ℕ) (children : List (Composed (LinkChild β))),
    queueFrom g i children ≠ [] ↔ startsAny children = true
  | _, _, [] => iff_of_false (fun h => h rfl) Bool.false_ne_true
  | g, i, c :: children => by
    rw [startsAny, Bool.or_eq_true, ← queue_ne_nil_iff c (g i), ← queueFrom_ne_nil_iff g (i + 1) children, queueFrom_cons,
      Ne, List.append_eq_nil_iff, not_and_or]
end

/-- What is queued last decides. -/
theorem endsChain_append {es fs : List (LinkSqe β)} (h : fs ≠ []) : EndsChain (es ++ fs) ↔ EndsChain fs := by
  unfold EndsChain
  rw [List.getLast?_append_of_ne_nil es h]

mutual
/-- The condition on the tree is one on the entries. -/
theorem ends_iff : ∀ (c : Composed (LinkChild β)) (flags : ℕ),
    c.ends flags = true ↔ c.queue flags ≠ [] ∧ EndsChain (c.queue flags)
  | .op c, flags => entry_ends_iff c flags
  | .flag more c, flags => ends_iff c (flags ||| more)
  | .parallel _ _ children, flags => endsFrom_iff (fun _ => flags) 0 children
  | .link _ kind children, flags => endsFrom_iff (Link.childFlags kind.flags flags children.length) 0 children
theorem endsFrom_iff : ∀ (g : ℕ → ℕ) (i : ℕ) (children : List (Composed (LinkChild β))),
    endsFrom g i children = true ↔ queueFrom g i children ≠ [] ∧ EndsChain (queueFrom g i children)
  | _, _, [] => iff_of_false Bool.false_ne_true fun h => h.1 rfl
  | g, i, c :: children => by
    have hrest := queueFrom_ne_nil_iff g (i + 1) children
    rw [endsFrom, queueFrom_cons]
    by_cases hs : startsAny children = true
    · have hne := hrest.mpr hs
      rw [if_pos hs, endsFrom_iff g (i + 1) children, endsChain_append hne]
      exact and_congr_left fun _ => iff_of_true hne (List.append_ne_nil_of_right_ne_nil _ hne)
    · rw [if_neg hs, not_ne_iff.mp (mt hrest.mp hs), List.append_nil]
      exact ends_iff c (g i)
end

theorem startsAny_iff {children : List (Composed (LinkChild β))} :
    startsAny children = true ↔ ∃ c ∈ children, c.starts = true := by
  induction children with
  | nil => simp [startsAny]
  | cons c children ih => simp [startsAny, ih]

end Composed

/-- **Where the chain of a link ends**: for every link or hard link of one or more senders, every outcome of their
starts, and every state of the ring in which `start` returns.  The entries that were queued end the chain exactly if the
last operation of the last child that does not fail carries no link flag, or if all operations of all children fail. -/
theorem chain_ends_iff (form : Form) (kind : LinkKind) (children : List (Composed (LinkChild β)))
    (last : Composed (LinkChild β)) (i flags : ℕ)
    {s s' : Starting β} (hs : (Composed.link form kind (children ++ [last])).start i flags s = some s') :
    ∃ es, s'.ring.all = s.ring.all ++ es ∧
      (EndsChain es ↔ last.ends flags = true ∨ ∀ c ∈ children ++ [last], c.starts = false) := by
  obtain ⟨es, hqueue, hlinked⟩ := Composed.queue_link form kind children last flags
  have hall := (Composed.start_queues _ hs).all
  -- whether anything is queued, and what
  have hany := Composed.queue_ne_nil_iff (.link form kind (children ++ [last])) flags
  rw [Composed.starts, Composed.startsAny_iff] at hany
  rw [hqueue] at hall hany
  have hnone : (∀ c ∈ children ++ [last], c.starts = false) ↔ es ++ last.queue flags = [] := by
    rw [← not_iff_not, ← Ne, hany]
    simp
  refine ⟨_, hall, ?_⟩
  rw [hnone, Composed.ends_iff]
  by_cases hnil : last.queue flags = []
  · rw [hnil, List.append_nil]
    constructor
    · intro hends
      refine .inr (List.eq_nil_iff_forall_not_mem.mpr fun x hx => ?_)
      -- the last entry is one that carries the flag of the link
      obtain ⟨e, he⟩ := Option.isSome_iff_exists.mp (List.getLast?_isSome.mpr (List.ne_nil_of_mem hx))
      have hflag := hlinked e (List.mem_of_getLast? he)
      rw [hends e he] at hflag
      nomatch hflag
    · rintro (⟨hne, -⟩ | rfl)
      · exact absurd rfl hne
      · exact fun e he => (nomatch he)
  · rw [Composed.endsChain_append hnil]
    constructor
    · exact fun hends => .inl ⟨hnil, hends⟩
    · rintro (⟨-, hends⟩ | hall)
      · exact hends
      · exact absurd (List.append_eq_nil_iff.mp hall).2 hnil

/-- Of three operations the second fails. -/
theorem chain_ends_inner_failure : ∃ s' es, (Composed.link .variadic .link
      [.op (.ready ⟨1, 0⟩), .op ⟨false, none⟩, .op (.ready ⟨3, 0⟩)]).start 0 0
      (⟨Ring.new 8 false 32 [], 0, []⟩ : Starting ℕ) = some s' ∧ s'.ring.all = es ∧ EndsChain es := by
  obtain ⟨s', hs⟩ := (Composed.start_iff (Composed.link .variadic .link
    [.op (.ready ⟨1, 0⟩), .op ⟨false, none⟩, .op (.ready ⟨3, 0⟩)]) 0 0
    (s := (⟨Ring.new 8 false 32 [], 0, []⟩ : Starting ℕ)) (by decide)).mpr (by decide)
  obtain ⟨es, hall, hends⟩ := chain_ends_iff .variadic .link [.op (.ready ⟨1, 0⟩), .op ⟨false, none⟩]
    (.op (.ready ⟨3, 0⟩)) 0 0 hs
  exact ⟨s', es, hs, hall, hends.mpr (.inl (by decide))⟩

/-- Of two linked operations the second fails.  The entry of the first is linked to the entry of an operation that has
nothing to do with them, which cannot start before it completes. -/
theorem chain_runs_on : ((Composed.link .variadic .link [.op (.ready ⟨1, 0⟩), .op ⟨false, none⟩]).start 0 0
      (⟨Ring.new 8 false 32 [], 0, []⟩ : Starting ℕ)).map (·.ring.queued) = some [⟨1, 4⟩] ∧
    (((Composed.link .variadic .link [.op (.ready ⟨1, 0⟩), .op ⟨false, none⟩]).start 0 0
      (⟨Ring.new 8 false 32 [], 0, []⟩ : Starting ℕ)).bind
      (Link.startChild · 0 (.ready ⟨7, 0⟩) 0)).map (·.ring.queued) = some [⟨1, 4⟩, ⟨7, 0⟩] ∧ Before [4, 0] 0 1 := by
  refine ⟨by decide, by decide, ?_⟩
  rw [before_iff Nat.zero_lt_one (by decide)]
  intro j e _ hj he
  obtain rfl : j = 0 := by omega
  obtain rfl : 4 = e := Option.some.inj he
  decide

end Condy.Sequence
