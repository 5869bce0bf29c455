import Condy.Cluster.Model
import Condy.Lib.Places

/-!
# Condy.Cluster.Inv — the invariant of the runtimes

`contents` lists the work items at every `Spot`: in a call that has not put its item anywhere yet, in a queue, in a
message, in a completion queue; and with each item the runtime that it is on its way to.  `Inv s xs` says that every item
is tracked through these spots to the runtime it was scheduled on (`Routed`), that the linked queues represent the
sequences `xs`, and that every runtime is in order (`RtOk`); `step_inv` is the step lemma.
-/

namespace Condy

open Lib

namespace Cluster

variable {ι θ : Type}

/-! ## Words and items -/

/-- The work item in a word, as `process_cqe_` sees it. -/
def workOf (word : ℕ) : Option ℕ :=
  match decodeWork word with
  | (w, some .schedule) => if w = 0 then none else some w
  | _ => none

theorem workOf_encodeWork {w : ℕ} (hw : w % 8 = 0) (type : WorkType) :
    workOf (encodeWork w type) = if type = .schedule ∧ w ≠ 0 then some w else none := by
  unfold workOf
  rw [decodeWork_encodeWork hw]
  cases type <;> by_cases h0 : w = 0 <;> simp [h0]

/-- A work item to schedule, a wake-up or a cancel. -/
def IsCall (w : ℕ) (type : WorkType) : Prop := w % 8 = 0 ∧ type ≠ .common ∧ (type = .schedule → w ≠ 0)

theorem IsCall.workOf_eq {w : ℕ} {type : WorkType} (h : IsCall w type) :
    workOf (encodeWork w type) = if type = .schedule then some w else none := by
  rw [workOf_encodeWork h.1]
  by_cases ht : type = .schedule
  · rw [if_pos ⟨ht, h.2.2 ht⟩, if_pos ht]
  · rw [if_neg (fun hc => ht hc.1), if_neg ht]

/-- A word that a message may carry. -/
def IsWord (d : ℕ) : Prop := ∃ w type, d = encodeWork w type ∧ IsCall w type

/-- The user data of an own message. -/
def doneWord : ℕ := encodeWork 0 .schedule

theorem workOf_doneWord : workOf doneWord = none := by
  rw [doneWord, workOf_encodeWork rfl]
  rfl

theorem IsWord.ne_doneWord {d : ℕ} (h : IsWord d) : d ≠ doneWord := by
  obtain ⟨w, type, rfl, hw, -, h0⟩ := h
  intro he
  obtain ⟨rfl, rfl⟩ := encodeWork_inj hw rfl he
  exact h0 rfl rfl

/-! ## Spots -/

theorem filterMap_snoc {α β : Type} (f : α → Option β) (l : List α) (a : α) :
    (l ++ [a]).filterMap f = l.filterMap f ++ (f a).toList := by
  rw [List.filterMap_append]
  cases h : f a <;> simp [h]

theorem filterMap_cons_toList {α β : Type} (f : α → Option β) (l : List α) (a : α) :
    (a :: l).filterMap f = (f a).toList ++ l.filterMap f := by
  cases h : f a <;> simp [h]

/-- The lists of a runtime that may hold an item. -/
inductive Bin where
  | queued | handed | refused | inbox | cq
deriving DecidableEq, Repr

inductive Spot (ι θ : Type) where
  | call (t : θ)
  | queue (k : ι × Queue)
  | bin (r : ι) (b : Bin)
deriving DecidableEq, Repr

/-- The item that a word brings to the runtime `r`. -/
def itemFor (r : ι) (word : ℕ) : Option (ι × ℕ) := (workOf word).map fun w => (r, w)

theorem itemFor_doneWord (r : ι) : itemFor r doneWord = none := by rw [itemFor, workOf_doneWord, Option.map_none]

def Call.item (c : Call ι) : Option (ι × ℕ) := if c.type = .schedule then some (c.target, c.work) else none

def Message.item (m : Message ι) : Option (ι × ℕ) := itemFor m.target m.data

/-- What the lists of the runtime `r` hold: its requests go to their targets, what has arrived has come for `r`. -/
def Rt.bin (x : Rt ι θ) (r : ι) : Bin → List (ι × ℕ)
  | .queued => x.queued.filterMap Message.item
  | .handed => x.handed.filterMap Message.item
  | .refused => x.cq.filterMap fun c => c.refused.bind Message.item
  | .inbox => x.inbox.filterMap (itemFor r)
  | .cq => x.cq.filterMap fun c => itemFor r c.userData

/-- The items at each spot with the runtimes they are on their way to, where `xs` are the sequences that the queues
represent. -/
def contents (call : θ → Option (Call ι)) (xs : ι × Queue → List ℕ) (rt : ι → Rt ι θ) : Spot ι θ → List (ι × ℕ)
  | .call t => ((call t).bind Call.item).toList
  | .queue k => (xs k).map fun w => (k.1, w)
  | .bin r b => (rt r).bin r b

theorem mem_contents_queue {call : θ → Option (Call ι)} {xs : ι × Queue → List ℕ} {rt : ι → Rt ι θ} {k : ι × Queue}
    {w : ℕ} (hw : w ∈ xs k) : (k.1, w) ∈ contents call xs rt (.queue k) :=
  List.mem_map.mpr ⟨w, hw, rfl⟩

/-! ## The invariant -/

/-- A message to a ring that is enabled. -/
def MessageOk (enabled : ι → Bool) (m : Message ι) : Prop := IsWord m.data ∧ enabled m.target = true

/-- The own completion of a message, or a message. -/
def CompletionOk (c : Completion ι) : Prop :=
  (c.userData = doneWord ∧ (c.refused = none ∨ c.res < 0)) ∨ (IsWord c.userData ∧ c.refused = none)

structure RtOk (enabled : ι → Bool) (x : Rt ι θ) : Prop where
  opened : x.ringEnabled = true → x.ringOpen = true
  pending : x.pendingWorks = x.works + x.queued.length + x.handed.length + x.acks +
    x.cq.countP (fun c => c.userData = doneWord)
  queued : ∀ m ∈ x.queued, MessageOk enabled m
  handed : ∀ m ∈ x.handed, MessageOk enabled m
  inbox : ∀ d ∈ x.inbox, IsWord d
  cq : ∀ c ∈ x.cq, CompletionOk c

structure CallOk (enabled : ι → Bool) (c : Call ι) : Prop where
  isCall : IsCall c.work c.type
  lock : c.stage = .lock → c.type = .schedule
  send : c.stage = .send → enabled c.target = true

def enabled (rt : ι → Rt ι θ) (r : ι) : Bool := (rt r).ringEnabled

/-- The place of a thread fits its runtime. -/
structure PlaceOk (rt : ι → Rt ι θ) (t : θ) (p : Place ι) : Prop where
  thread : ∀ r, p.runtime = some r → (rt r).runThread = some t
  opened : ∀ r, p = .flush r → (rt r).ringOpen = true

/-- The record of one runtime changes, but not whether it is enabled and where it runs. -/
structure Keeps (x x' : Rt ι θ) : Prop where
  ringEnabled : x'.ringEnabled = x.ringEnabled
  ringOpen : x'.ringOpen = x.ringOpen
  runThread : x'.runThread = x.runThread

theorem Keeps.trans {x y z : Rt ι θ} (h : Keeps x y) (h' : Keeps y z) : Keeps x z :=
  ⟨h'.ringEnabled.trans h.ringEnabled, h'.ringOpen.trans h.ringOpen, h'.runThread.trans h.runThread⟩

section

variable {en en' : ι → Bool} (hen : ∀ r, en r = true → en' r = true)
include hen

theorem MessageOk.mono {m : Message ι} (h : MessageOk en m) : MessageOk en' m := ⟨h.1, hen _ h.2⟩

theorem RtOk.mono {x : Rt ι θ} (h : RtOk en x) : RtOk en' x :=
  ⟨h.opened, h.pending, fun m hm => (h.queued m hm).mono hen, fun m hm => (h.handed m hm).mono hen, h.inbox, h.cq⟩

theorem CallOk.mono {c : Call ι} (h : CallOk en c) : CallOk en' c :=
  ⟨h.isCall, h.lock, fun hs => hen _ (h.send hs)⟩

end

variable {xs xs' : ι × Queue → List ℕ} {call : θ → Option (Call ι)} {rt rt' : ι → Rt ι θ}

theorem enabled_eq (hk : ∀ r, Keeps (rt r) (rt' r)) : enabled rt' = enabled rt := funext fun r => (hk r).ringEnabled

theorem PlaceOk.keep {t : θ} {p : Place ι} (h : PlaceOk rt t p) (ho : ∀ r, (rt' r).ringOpen = (rt r).ringOpen)
    (ht : ∀ r, (rt' r).runThread = (rt r).runThread) : PlaceOk rt' t p :=
  ⟨fun r hr => (ht r).trans (h.thread r hr), fun r hr => (ho r).trans (h.opened r hr)⟩

section

variable [DecidableEq ι] {r : ι} {x : Rt ι θ}

theorem Keeps.update (hk : Keeps (rt r) x) : ∀ r', Keeps (rt r') (Function.update rt r x r') :=
  (Function.forall_update_iff rt fun r' y => Keeps (rt r') y).mpr ⟨hk, fun _ _ => ⟨rfl, rfl, rfl⟩⟩

theorem RtOk.update {en : ι → Bool} (h : ∀ r, RtOk en (rt r)) (hx : RtOk en x) :
    ∀ r', RtOk en (Function.update rt r x r') :=
  (Function.forall_update_iff rt fun _ y => RtOk en y).mpr ⟨hx, fun r' _ => h r'⟩

theorem enabled_update (r' : ι) :
    enabled (Function.update rt r x) r' = if r' = r then x.ringEnabled else enabled rt r' := by
  unfold enabled
  by_cases hr : r' = r
  · rw [hr, Function.update_self, if_pos rfl]
  · rw [Function.update_of_ne hr, if_neg hr]

theorem contents_bin_self (b : Bin) : contents call xs (Function.update rt r x) (.bin r b) = x.bin r b := by
  change ((Function.update rt r x) r).bin r b = _
  rw [Function.update_self]

/-- A changed record changes only what its own lists hold. -/
theorem contents_rt_update {o : Spot ι θ} (ho : ∀ b, o = .bin r b → x.bin r b = (rt r).bin r b) :
    contents call xs (Function.update rt r x) o = contents call xs rt o := by
  rcases o with t | k | ⟨r', b⟩
  · rfl
  · rfl
  · rcases eq_or_ne r' r with rfl | hr
    · rw [contents_bin_self]
      exact ho b rfl
    · change ((Function.update rt r x) r').bin r' b = _
      rw [Function.update_of_ne hr]
      rfl

end

theorem contents_queue_update [DecidableEq ι] {k : ι × Queue} {l : List ℕ} {o : Spot ι θ} (ho : o ≠ .queue k) :
    contents call (Function.update xs k l) rt o = contents call xs rt o := by
  rcases o with t | k' | ⟨r, b⟩
  · rfl
  · change (Function.update xs k l k').map _ = _
    rw [Function.update_of_ne fun hk => ho (by rw [hk])]
    rfl
  · rfl

theorem contents_call_update [DecidableEq θ] {t : θ} {c : Option (Call ι)} {o : Spot ι θ} (ho : o ≠ .call t) :
    contents (Function.update call t c) xs rt o = contents call xs rt o := by
  rcases o with t' | k' | ⟨r, b⟩
  · change ((Function.update call t c t').bind Call.item).toList = _
    rw [Function.update_of_ne fun ht => ho (by rw [ht])]
    rfl
  · rfl
  · rfl

theorem contents_call {t : θ} {c : Option (Call ι)} (hc : call t = c) :
    contents call xs rt (.call t) = (c.bind Call.item).toList := by
  rw [← hc]
  rfl

theorem contents_call_self [DecidableEq θ] {t : θ} {c : Option (Call ι)} :
    contents (Function.update call t c) xs rt (.call t) = (c.bind Call.item).toList :=
  contents_call (Function.update_self ..)

theorem contents_update_of_item [DecidableEq θ] {t : θ} {c : Option (Call ι)}
    (hc : c.bind Call.item = (call t).bind Call.item) :
    contents (Function.update call t c) xs rt = contents call xs rt := by
  funext o
  rcases o with t' | k | ⟨r, b⟩
  · change ((Function.update call t c t').bind Call.item).toList = ((call t').bind Call.item).toList
    rcases eq_or_ne t' t with rfl | ht
    · rw [Function.update_self, hc]
    · rw [Function.update_of_ne ht]
  · rfl
  · rfl

variable [DecidableEq ι] [DecidableEq θ]

structure Inv (s : Cluster ι θ) (xs : ι × Queue → List ℕ) : Prop where
  rep : SingleRep s.mem s.queue xs
  routed : Routed (contents s.call xs s.rt) s.target s.scheduled s.invoked
  rts : ∀ r, RtOk (enabled s.rt) (s.rt r)
  calls : ∀ t c, s.call t = some c → CallOk (enabled s.rt) c ∧ (s.place t).user = true
  places : ∀ t, PlaceOk s.rt t (s.place t)
  flushed : ∀ r, (s.rt r).ringEnabled = true → xs (r, .globalQueue) = []
  started : ∀ r t, (s.rt r).runThread = some t → s.place t = .flush r ∨ (s.rt r).ringEnabled = true

theorem init_inv (eventInterval : ι → ℕ) : (init eventInterval : Cluster ι θ).Inv fun _ => [] := by
  refine ⟨⟨fun _ => List.nodup_nil, fun _ => rfl, fun _ => chained_nil, fun _ _ _ h => absurd h List.not_mem_nil,
    fun _ _ => rfl, rfl⟩, Routed.nil fun p => ?_, fun r => ?_, fun _ _ h => absurd h (by simp [init]),
    fun t => ⟨fun _ h => absurd h (by simp [init, Place.runtime]), fun _ h => absurd h (by simp [init])⟩,
    fun _ _ => rfl, fun _ _ h => absurd h (by simp [init, Rt.new])⟩
  · rcases p with t | k | ⟨r, b⟩
    · rfl
    · rfl
    · cases b <;> rfl
  · have hnil : ∀ {α : Type} {Q : α → Prop}, ∀ a ∈ ([] : List α), Q a := fun a ha => absurd ha List.not_mem_nil
    exact ⟨fun h => absurd h (by simp [init, Rt.new]), rfl, hnil, hnil, hnil, hnil⟩

variable {s s' : Cluster ι θ}

/-! ## Changes of one component -/

/-- The rule for steps that do not move a thread: the queues, the records and the calls may change, as long as the items
are tracked through the change. -/
theorem Inv.next (h : s.Inv xs) (hrep : SingleRep s'.mem s'.queue xs')
    (htr : Routed (contents s'.call xs' s'.rt) s'.target s'.scheduled s'.invoked) (hplace : s'.place = s.place)
    (hk : ∀ r, Keeps (s.rt r) (s'.rt r)) (hrts : ∀ r, RtOk (enabled s.rt) (s'.rt r))
    (hcalls : ∀ t c, s'.call t = some c → CallOk (enabled s.rt) c ∧ (s.place t).user = true)
    (hflush : ∀ r, (s.rt r).ringEnabled = true → xs' (r, .globalQueue) = []) : s'.Inv xs' := by
  have hen := enabled_eq hk
  refine ⟨hrep, htr, fun r => hen ▸ hrts r, fun t c hc => ?_, fun t => ?_, fun r hr => ?_, fun r t ht => ?_⟩
  · rw [hen, hplace]
    exact hcalls t c hc
  · rw [hplace]
    exact (h.places t).keep (fun r => (hk r).ringOpen) fun r => (hk r).runThread
  · refine hflush r ?_
    rw [← hr]
    exact ((hk r).ringEnabled).symm
  · rw [hplace, (hk r).ringEnabled]
    exact h.started r t ((hk r).runThread ▸ ht)

/-- A change of a record that leaves the items where they are. -/
theorem Inv.keepRt (h : s.Inv xs) {r : ι} {x : Rt ι θ} (hk : Keeps (s.rt r) x) (hb : ∀ b, x.bin r b = (s.rt r).bin r b)
    (hx : RtOk (enabled s.rt) x) : (s.setRt r x).Inv xs := by
  refine h.next h.rep ?_ rfl hk.update (RtOk.update h.rts hx) h.calls h.flushed
  have hsame : contents s.call xs (Function.update s.rt r x) = contents s.call xs s.rt :=
    funext fun o => contents_rt_update fun b _ => hb b
  exact hsame ▸ h.routed

omit [DecidableEq ι] in
theorem CallOk.update {en : ι → Bool} {t : θ} {c : Option (Call ι)}
    (h : ∀ t c, s.call t = some c → CallOk en c ∧ (s.place t).user = true)
    (hc : ∀ c', c = some c' → CallOk en c' ∧ (s.place t).user = true) :
    ∀ t' c', Function.update s.call t c t' = some c' → CallOk en c' ∧ (s.place t').user = true :=
  (Function.forall_update_iff s.call fun t' y => ∀ c', y = some c' → CallOk en c' ∧ (s.place t').user = true).mpr
    ⟨hc, fun t' _ => h t'⟩

theorem CallOk.clear {t : θ} (h : s.Inv xs) : ∀ t' c', Function.update s.call t none t' = some c' →
    CallOk (enabled s.rt) c' ∧ (s.place t').user = true :=
  CallOk.update h.calls fun _ hc => absurd hc (Option.some_ne_none _).symm

/-- A call ends and its item goes to `q`. -/
theorem Inv.endCall (h : s.Inv xs) {t : θ} {c : Call ι} (hc : s.call t = some c) {q : Spot ι θ} (hq : .call t ≠ q)
    (xs' : ι × Queue → List ℕ) (rt' : ι → Rt ι θ)
    (hput : (contents s.call xs' rt' q).Perm (contents s.call xs s.rt q ++ c.item.toList))
    (ho : ∀ o, o ≠ q → contents s.call xs' rt' o = contents s.call xs s.rt o) :
    Routed (contents (Function.update s.call t none) xs' rt') s.target s.scheduled s.invoked := by
  refine h.routed.move (p := .call t) (q := q) (l := c.item.toList) hq ?_ ?_ fun o h1 h2 => ?_
  · rw [contents_call hc, contents_call_self]
    simp
  · rwa [contents_call_update (Ne.symm hq)]
  · rw [contents_call_update h1]
    exact ho o h2

/-- A change of a call that leaves the item where it is. -/
theorem Inv.keepCall (h : s.Inv xs) {t : θ} {c : Option (Call ι)}
    (hc : ∀ c', c = some c' → CallOk (enabled s.rt) c' ∧ (s.place t).user = true)
    (hi : c.bind Call.item = (s.call t).bind Call.item) : (s.setCall t c).Inv xs := by
  refine h.next h.rep ?_ rfl (fun _ => ⟨rfl, rfl, rfl⟩) h.rts (CallOk.update h.calls hc) h.flushed
  change Routed (contents (Function.update s.call t c) xs s.rt) s.target s.scheduled s.invoked
  rw [contents_update_of_item hi]
  exact h.routed

theorem Inv.panic (h : s.Inv xs) : ({ s with panicked := true } : Cluster ι θ).Inv xs :=
  ⟨h.rep, h.routed, h.rts, h.calls, h.places, h.flushed, h.started⟩

theorem Inv.setPlace (h : s.Inv xs) {t : θ} {p : Place ι} (hp : PlaceOk s.rt t p) (hnf : ∀ r, s.place t ≠ .flush r)
    (hu : s.call t ≠ none → p.user = true) : (s.setPlace t p).Inv xs := by
  refine ⟨h.rep, h.routed, h.rts, fun t' c hc => ⟨(h.calls t' c hc).1, ?_⟩, fun t' => ?_, h.flushed, fun r t' ht' => ?_⟩
  · change (Function.update s.place t p t').user = true
    rcases eq_or_ne t' t with rfl | ht
    · rw [Function.update_self]
      refine hu ?_
      rw [show s.call t' = some c from hc]
      exact Option.some_ne_none c
    · rw [Function.update_of_ne ht]
      exact (h.calls t' c hc).2
  · change PlaceOk s.rt t' (Function.update s.place t p t')
    rcases eq_or_ne t' t with rfl | ht
    · rwa [Function.update_self]
    · rw [Function.update_of_ne ht]
      exact h.places t'
  · change Function.update s.place t p t' = .flush r ∨ _
    rcases eq_or_ne t' t with rfl | ht
    · exact .inr ((h.started r t' ht').resolve_left (hnf r))
    · rw [Function.update_of_ne ht]
      exact h.started r t' ht'

/-- Another place inside `run()` of the same runtime. -/
theorem Inv.setPlace_same (h : s.Inv xs) {t : θ} {p : Place ι} {r : ι} (hr : (s.place t).runtime = some r)
    (hp : p.runtime = some r) (hnf : ∀ r, s.place t ≠ .flush r ∧ p ≠ .flush r) (hu : s.call t ≠ none → p.user = true) :
    (s.setPlace t p).Inv xs := by
  refine h.setPlace ⟨fun r' hr' => ?_, fun r' hr' => absurd hr' (hnf r').2⟩ (fun r' => (hnf r').1) hu
  obtain rfl := Option.some.inj (hp.symm.trans hr')
  exact (h.places t).thread r hr

end Cluster

end Condy
