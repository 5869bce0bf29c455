import Condy.Cluster.Step
import Condy.Loop
import Mathlib.Data.List.Dedup
import Mathlib.Data.Multiset.Filter

/-!
# Condy.Cluster.Loop — every runtime of a cluster refines the loop

The threads run against one another, and `schedule_internal` takes several steps.  For the loop of its target it takes
effect in one: when it puts the item into the global queue, or when it finds the ring enabled.  From there to the
invocation the item is in the `mail`, wherever the message is (`inMail_iff`).  So is the first `run()`, which takes effect
in its locked section.
-/

namespace Condy

open Lib

namespace Cluster

variable {ι θ : Type} {s s' s₁ : Cluster ι θ} {xs xs' : ι × Queue → List ℕ} {t : θ} {r : ι} {w v : ℕ}

/-! ## The mail -/

/-- The item that a call has still to put somewhere. -/
def Call.asks (c : Call ι) : Option (ι × ℕ) := if c.stage = .send then none else c.item

def Asked (call : θ → Option (Call ι)) (r : ι) (w : ℕ) : Prop := ∃ t, (call t).bind Call.asks = some (r, w)

/-- The item was scheduled on `r` and not invoked, and it was put somewhere, but into no queue. -/
structure InMail (scheduled invoked : List ℕ) (target : ℕ → Option ι) (call : θ → Option (Call ι))
    (xs : ι × Queue → List ℕ) (r : ι) (w : ℕ) : Prop where
  outstanding : invoked.count w < scheduled.count w
  target : target w = some r
  asked : ¬ Asked call r w
  unqueued : ∀ q, w ∉ xs (r, q)

open Classical in
noncomputable def mail (s : Cluster ι θ) (xs : ι × Queue → List ℕ) (r : ι) : Multiset ℕ :=
  (s.scheduled.dedup.filter fun w => InMail s.scheduled s.invoked s.target s.call xs r w : List ℕ)

theorem mem_mail : w ∈ s.mail xs r ↔ InMail s.scheduled s.invoked s.target s.call xs r w := by
  classical
  rw [mail, Multiset.mem_coe, List.mem_filter, List.mem_dedup, decide_eq_true_iff]
  exact ⟨And.right, fun h => ⟨List.count_pos_iff.mp (Nat.zero_lt_of_lt h.outstanding), h⟩⟩

theorem nodup_mail : (s.mail xs r).Nodup := by
  classical
  exact (List.nodup_dedup _).filter _

theorem mail_congr (h : ∀ w, InMail s'.scheduled s'.invoked s'.target s'.call xs' r w ↔
    InMail s.scheduled s.invoked s.target s.call xs r w) : s'.mail xs' r = s.mail xs r :=
  (nodup_mail.ext nodup_mail).mpr fun w => by rw [mem_mail, mem_mail, h w]

theorem InMail.congr {scheduled invoked : List ℕ} {target : ℕ → Option ι} {call call' : θ → Option (Call ι)}
    (ha : Asked call' r w ↔ Asked call r w) (hq : (∃ q, w ∈ xs' (r, q)) ↔ ∃ q, w ∈ xs (r, q)) :
    InMail scheduled invoked target call' xs' r w ↔ InMail scheduled invoked target call xs r w :=
  ⟨fun h => ⟨h.outstanding, h.target, ha.not.mp h.asked, not_exists.mp (hq.not.mp (not_exists.mpr h.unqueued))⟩,
    fun h => ⟨h.outstanding, h.target, ha.not.mpr h.asked, not_exists.mp (hq.not.mpr (not_exists.mpr h.unqueued))⟩⟩

/-- What is invoked is no longer in the mail. -/
theorem inMail_leave (hcount : s.invoked.count w + 1 = s.scheduled.count w)
    (hq : ∀ v, v ≠ w → ((∃ q, v ∈ xs' (r, q)) ↔ ∃ q, v ∈ xs (r, q))) :
    InMail s.scheduled (s.invoked ++ [w]) s.target s.call xs' r v ↔
      InMail s.scheduled s.invoked s.target s.call xs r v ∧ v ≠ w := by
  rcases eq_or_ne v w with rfl | hne
  · refine iff_of_false (fun hm => ?_) fun hm => hm.2 rfl
    have hlt := hm.outstanding
    rw [List.count_append, List.count_singleton_self] at hlt
    omega
  · have hsame : (s.invoked ++ [w]).count v = s.invoked.count v := by simp [hne.symm]
    refine Iff.trans ?_ ((InMail.congr .rfl (hq v hne)).trans (and_iff_left hne).symm)
    exact ⟨fun hm => ⟨hsame ▸ hm.outstanding, hm.target, hm.asked, hm.unqueued⟩,
      fun hm => ⟨hsame.symm ▸ hm.outstanding, hm.target, hm.asked, hm.unqueued⟩⟩

theorem mem_call {c : Call ι} (hc : s.call t = some c) (hi : c.item = some (r, w)) :
    (r, w) ∈ contents s.call xs s.rt (.call t) := by
  rw [contents_call hc, Option.bind_some, hi]
  exact List.mem_singleton_self _

/-! ## What a runtime shows -/

variable [DecidableEq ι]

/-- Where a thread is for the loop of `r`. -/
def Place.spot (r : ι) : Place ι → Loop.Place
  | .outside | .flush _ => .outside
  | .top r' | .pick r' | .wait r' | .reap r' _ => if r' = r then .loop else .outside
  | .work r' | .handler r' _ => if r' = r then .user else .outside

theorem Place.spot_ne {p : Place ι} (hp : p.runtime = some r) (hnf : ∀ r', p ≠ .flush r') : p.spot r ≠ .outside := by
  cases p with
  | outside => cases hp
  | flush r' => exact absurd rfl (hnf r')
  | _ =>
    obtain rfl := Option.some.inj hp
    simp [Place.spot]

theorem Place.spot_other {p : Place ι} (hp : p.runtime ≠ some r) : p.spot r = .outside := by
  cases p <;> simp_all [Place.spot, Place.runtime]

theorem Place.spot_user {p : Place ι} (hu : p.user = true) (hp : p.runtime = some r) : p.spot r = .user := by
  cases p <;> simp_all [Place.spot, Place.runtime, Place.user]

def loopPlace (s : Cluster ι θ) (r : ι) : Loop.Place :=
  match (s.rt r).runThread with
  | none => .outside
  | some t => (s.place t).spot r

theorem loopPlace_eq (ht : (s.rt r).runThread = some t) : s.loopPlace r = (s.place t).spot r := by
  rw [loopPlace, ht]

/-- The runtime `r`, seen from its queues. -/
noncomputable def loop (s : Cluster ι θ) (xs : ι × Queue → List ℕ) (r : ι) : Loop ℕ :=
  { place := s.loopPlace r, ringEnabled := (s.rt r).ringEnabled, exitAllowed := (s.rt r).exitAllowed
    pendingWorks := (s.rt r).pendingWorks, localQueue := xs (r, .localQueue), globalQueue := xs (r, .globalQueue)
    mail := s.mail xs r }

/-- Every runtime does what its loop can do. -/
def LoopActs (s : Cluster ι θ) (xs : ι × Queue → List ℕ) (s' : Cluster ι θ) (xs' : ι × Queue → List ℕ) : Prop :=
  ∀ r, Loop.Acts (s.loop xs r) (s'.loop xs' r)

theorem LoopActs.refl (s : Cluster ι θ) (xs : ι × Queue → List ℕ) : s.LoopActs xs s xs := fun _ => .refl _

theorem LoopActs.trans {ys : ι × Queue → List ℕ} (h : s.LoopActs xs s₁ ys) (h' : s₁.LoopActs ys s' xs') :
    s.LoopActs xs s' xs' := fun r => (h r).trans (h' r)

/-- Only `r` acts. -/
theorem LoopActs.only (r : ι) (hself : Loop.Acts (s.loop xs r) (s'.loop xs' r))
    (hother : ∀ r', r' ≠ r → s'.loop xs' r' = s.loop xs r') : s.LoopActs xs s' xs' := by
  intro r'
  rcases eq_or_ne r' r with rfl | hr
  · exact hself
  · exact hother r' hr ▸ .refl _

/-- Items go in and out of the queues and the mail. -/
theorem loop_queues (s : Cluster ι θ) (xs : ι × Queue → List ℕ) {m : Multiset ℕ} (hmail : s'.mail xs' r = m)
    (hrt : s'.rt r = s.rt r) (hplace : s'.place = s.place) : s'.loop xs' r = { s.loop xs r with
      localQueue := xs' (r, .localQueue), globalQueue := xs' (r, .globalQueue), mail := m } := by
  rw [loop, loop, loopPlace, loopPlace, hrt, hplace, hmail]

theorem loop_congr (hrt : s'.rt r = s.rt r) (hplace : s'.place = s.place) (hq : ∀ q, xs' (r, q) = xs (r, q))
    (hmail : s'.mail xs' r = s.mail xs r) : s'.loop xs' r = s.loop xs r := by
  rw [loop_queues s xs hmail hrt hplace, hq, hq]
  rfl

theorem setRt_loop_other {x : Rt ι θ} {r' : ι} (hr : r' ≠ r) : (s.setRt r x).loop xs r' = s.loop xs r' := by
  have hsame : (s.setRt r x).rt r' = s.rt r' := Function.update_of_ne hr _ _
  rw [loop, loop, loopPlace, loopPlace, hsame]
  rfl

theorem setRt_loop_self {x : Rt ι θ} (ht : x.runThread = (s.rt r).runThread) : (s.setRt r x).loop xs r =
    { s.loop xs r with
      ringEnabled := x.ringEnabled, exitAllowed := x.exitAllowed, pendingWorks := x.pendingWorks } := by
  have hself : (s.setRt r x).rt r = x := Function.update_self ..
  rw [loop, loop, loopPlace, loopPlace, hself, ht]
  rfl

/-- A record changes, and works begin and end only on its own thread. -/
theorem setRt_acts {x : Rt ι θ} (hk : Keeps (s.rt r) x) (hx : x.exitAllowed = (s.rt r).exitAllowed)
    (hp : x.pendingWorks = (s.rt r).pendingWorks ∨ s.loopPlace r ≠ .outside) : s.LoopActs xs (s.setRt r x) xs := by
  refine .only r ?_ fun r' hr => setRt_loop_other hr
  rw [setRt_loop_self hk.runThread, hk.ringEnabled, hx]
  rcases hp with hp | hp
  · rw [hp]
    exact .refl _
  · exact .one (.works x.pendingWorks) (if_neg hp)

/-- Something that was nowhere is scheduled, and is in a queue or in a call that asks. -/
theorem enter_loop (xs : ι × Queue → List ℕ) {u : Cluster ι θ} {target : ι}
    (hs : s' = { u with scheduled := s.scheduled ++ [w], target := Function.update s.target w (some target) })
    (hcount : s.scheduled.count w = s.invoked.count w)
    (hinv : u.invoked = s.invoked) (hrt : u.rt = s.rt) (hplace : u.place = s.place)
    (hput : Asked u.call target w ∨ ∃ q, w ∈ xs' (target, q))
    (hasked : ∀ r v, v ≠ w → (Asked u.call r v ↔ Asked s.call r v))
    (hq : ∀ r v, v ≠ w → ∀ q, v ∈ xs' (r, q) ↔ v ∈ xs (r, q))
    (r : ι) :
    s'.loop xs' r = { s.loop xs r with
      localQueue := xs' (r, .localQueue), globalQueue := xs' (r, .globalQueue) } := by
  have hmail : s'.mail xs' r = s.mail xs r := by
    refine mail_congr fun v => ?_
    rw [hs, hinv]
    rcases eq_or_ne v w with rfl | hne
    · refine iff_of_false (fun hm => ?_) fun hm => absurd hm.outstanding (by omega)
      obtain rfl : target = r := by simpa using hm.target
      rcases hput with ha | ⟨q, hw⟩
      · exact hm.asked ha
      · exact hm.unqueued q hw
    · refine Iff.trans ?_ (InMail.congr (hasked r v hne) (exists_congr (hq r v hne)))
      have hsame : (s.scheduled ++ [w]).count v = s.scheduled.count v := by simp [hne.symm]
      constructor
      · intro hm
        exact ⟨hsame ▸ hm.outstanding, by simpa [hne] using hm.target, hm.asked, hm.unqueued⟩
      · intro hm
        exact ⟨hsame.symm ▸ hm.outstanding, by simpa [hne] using hm.target, hm.asked, hm.unqueued⟩
  exact loop_queues s xs hmail (by rw [hs, hrt]) (by rw [hs, hplace])

variable [DecidableEq θ]

/-! ## Where the items are -/

section

variable (h : s.Inv xs)
include h

/-- An item that is somewhere was not invoked since it was scheduled, and on its way to where it was scheduled. -/
theorem Inv.outstanding {p : Spot ι θ} (hp : (r, w) ∈ contents s.call xs s.rt p) :
    s.invoked.count w + 1 = s.scheduled.count w ∧ s.target w = some r := by
  refine ⟨?_, h.routed.route p _ hp⟩
  rcases h.routed.one w with ⟨-, hno⟩ | ⟨hcount, -⟩
  · exact absurd hp (hno p r)
  · exact hcount

/-- The one call with the item. -/
theorem Inv.asked_iff {c : Call ι} (hc : s.call t = some c) (ha : c.asks = some (r, w)) (c' : Option (Call ι))
    (hc' : c'.bind Call.asks = none) (r' : ι) (v : ℕ) :
    Asked (Function.update s.call t c') r' v ↔ Asked s.call r' v ∧ (r', v) ≠ (r, w) := by
  have hitem : ∀ {c : Call ι} {x}, c.asks = some x → c.item = some x := fun {c x} hx =>
    (Option.ite_none_left_eq_some.mp hx).2
  constructor
  · rintro ⟨t', ht'⟩
    rcases eq_or_ne t' t with rfl | hne
    · rw [Function.update_self, hc'] at ht'
      cases ht'
    · rw [Function.update_of_ne hne] at ht'
      refine ⟨⟨t', ht'⟩, fun he => ?_⟩
      obtain ⟨c₁, hc₁, ha₁⟩ := Option.bind_eq_some_iff.mp ht'
      have hsame := h.routed.unique (mem_call hc₁ (hitem (he ▸ ha₁))) (mem_call hc (hitem ha))
      exact hne (Spot.call.inj hsame)
  · rintro ⟨⟨t', ht'⟩, hne⟩
    refine ⟨t', ?_⟩
    rw [Function.update_of_ne, ht']
    rintro rfl
    rw [hc, Option.bind_some, ha] at ht'
    exact hne (Option.some.inj ht').symm

/-- What is somewhere, but in no queue and in no call that asks, is in the mail. -/
theorem Inv.inMail {p : Spot ι θ} (hp : (r, w) ∈ contents s.call xs s.rt p) (hq : ∀ k, p ≠ .queue k)
    (hcall : ∀ t, p = .call t → (s.call t).bind Call.asks = none) :
    InMail s.scheduled s.invoked s.target s.call xs r w := by
  obtain ⟨hcount, htarget⟩ := h.outstanding hp
  refine ⟨by omega, htarget, ?_, fun q hw => hq _ (h.routed.unique hp (mem_contents_queue hw))⟩
  rintro ⟨t, ht⟩
  obtain ⟨c, hc, ha⟩ := Option.bind_eq_some_iff.mp ht
  obtain rfl := h.routed.unique hp (mem_call hc (Option.ite_none_left_eq_some.mp ha).2)
  rw [hcall t rfl] at ht
  cases ht

/-- What is in the mail is in a message, or in a call that is about to send one. -/
theorem Inv.inMail_iff : InMail s.scheduled s.invoked s.target s.call xs r w ↔
    (∃ t c, s.call t = some c ∧ c.stage = .send ∧ c.item = some (r, w)) ∨ ∃ r' b, (r, w) ∈ (s.rt r').bin r' b := by
  constructor
  · intro hm
    rcases h.routed.one w with ⟨hcount, -⟩ | ⟨-, p, d, hd, hp, -⟩
    · exact absurd hm.outstanding (by omega)
    · obtain rfl := Option.some.inj (hm.target.symm.trans hd)
      rcases p with t | ⟨r', q⟩ | ⟨r', b⟩
      · obtain ⟨c, hc, hi⟩ := Option.bind_eq_some_iff.mp (Option.mem_toList.mp hp)
        refine .inl ⟨t, c, hc, ?_, hi⟩
        by_contra hstage
        exact hm.asked ⟨t, by rw [hc, Option.bind_some, Call.asks, if_neg hstage, hi]⟩
      · obtain ⟨v, hv, he⟩ := List.mem_map.mp hp
        obtain ⟨rfl, rfl⟩ := Prod.mk.inj he
        exact absurd hv (hm.unqueued q)
      · exact .inr ⟨r', b, hp⟩
  · rintro (⟨t, c, hc, hstage, hi⟩ | ⟨r', b, hp⟩)
    · refine h.inMail (mem_call hc hi) (by simp) fun t' ht' => ?_
      obtain rfl := Spot.call.inj ht'
      rw [hc, Option.bind_some, Call.asks, if_pos hstage]
    · exact h.inMail (p := .bin r' b) hp (by simp) (by simp)

end

/-! ## Changes of one component -/

theorem setPlace_loopPlace {p : Place ι} {r' : ι} (hp : p.spot r' = (s.place t).spot r') :
    (s.setPlace t p).loopPlace r' = s.loopPlace r' := by
  cases ht : (s.rt r').runThread with
  | none => simp [loopPlace, setPlace, ht]
  | some t' =>
    rw [loopPlace_eq ht, loopPlace_eq (s := s.setPlace t p) ht]
    rcases eq_or_ne t' t with rfl | hne
    · simpa [setPlace] using hp
    · simp [setPlace, hne]

theorem setPlace_loop {p : Place ι} {r' : ι} (hp : p.spot r' = (s.place t).spot r') :
    (s.setPlace t p).loop xs r' = s.loop xs r' := by
  rw [loop, loop, setPlace_loopPlace hp]
  rfl

theorem setPlace_loop_self {p : Place ι} (ht : (s.rt r).runThread = some t) :
    (s.setPlace t p).loop xs r = { s.loop xs r with place := p.spot r } := by
  have hself : (s.setPlace t p).place t = p := Function.update_self ..
  rw [loop, loop, loopPlace_eq (s := s.setPlace t p) ht, hself]
  rfl

/-- The thread of a runtime moves within `run()`. -/
theorem setPlace_acts {p : Place ι} (ht : (s.rt r).runThread = some t) (hr : (s.place t).runtime = some r)
    (hp : p.runtime = some r) (hnf : ∀ r', s.place t ≠ .flush r' ∧ p ≠ .flush r') :
    s.LoopActs xs (s.setPlace t p) xs := by
  refine .only r ?_ fun r' hne => setPlace_loop ?_
  · have hin : (s.loop xs r).place ≠ .outside := by
      rw [loop, loopPlace_eq ht]
      exact Place.spot_ne hr fun r' => (hnf r').1
    have hout : p.spot r ≠ .outside := Place.spot_ne hp fun r' => (hnf r').2
    rw [setPlace_loop_self ht]
    exact .inside hin hout (s.loop xs r).pendingWorks
  · rw [Place.spot_other, Place.spot_other]
    · rw [hr]
      exact fun he => hne (Option.some.inj he).symm
    · rw [hp]
      exact fun he => hne (Option.some.inj he).symm

/-- A move after a change of the record. -/
theorem setRt_moves {x : Rt ι θ} {p : Place ι} (ht : (s.rt r).runThread = some t) (hr : (s.place t).runtime = some r)
    (hk : Keeps (s.rt r) x) (hx : x.exitAllowed = (s.rt r).exitAllowed) (hp : p.runtime = some r)
    (hnf : ∀ r', s.place t ≠ .flush r' ∧ p ≠ .flush r') : s.LoopActs xs ((s.setRt r x).setPlace t p) xs := by
  have hin : s.loopPlace r ≠ .outside := by
    rw [loopPlace_eq ht]
    exact Place.spot_ne hr fun r' => (hnf r').1
  have ht' : ((s.setRt r x).rt r).runThread = some t := by
    rw [← ht, ← hk.runThread]
    exact congrArg Rt.runThread (Function.update_self ..)
  exact (setRt_acts hk hx (.inr hin)).trans (setPlace_acts ht' hr hp hnf)

/-- A call that had and has nothing to put. -/
theorem setCall_acts {c : Option (Call ι)} (hc : c.bind Call.asks = (s.call t).bind Call.asks) :
    s.LoopActs xs (s.setCall t c) xs := by
  have hasked : ∀ r w, Asked (Function.update s.call t c) r w ↔ Asked s.call r w := by
    intro r w
    refine exists_congr fun t' => ?_
    rcases eq_or_ne t' t with rfl | hne
    · rw [Function.update_self, hc]
    · rw [Function.update_of_ne hne]
  intro r
  have hmail : (s.setCall t c).mail xs r = s.mail xs r := mail_congr fun w => InMail.congr (hasked r w) .rfl
  have hloop : (s.setCall t c).loop xs r = s.loop xs r := loop_congr rfl rfl (fun _ => rfl) hmail
  exact hloop ▸ .refl _

theorem LoopActs.setCall {c : Option (Call ι)} (h : s.LoopActs xs s₁ xs')
    (hc : c.bind Call.asks = (s₁.call t).bind Call.asks) : s.LoopActs xs (s₁.setCall t c) xs' :=
  h.trans (setCall_acts hc)

/-! ## Scheduling -/

theorem scheduleInternal_acts (h : s.Inv xs) {target : ι} (hs : s.scheduleInternal t target w = some s') :
    s.LoopActs xs s' (if (s.place t).runtime = some target then
      Function.update xs (target, .localQueue) (xs (target, .localQueue) ++ [w]) else xs) := by
  obtain ⟨hg, hs⟩ := Option.ite_none_left_eq_some.mp hs
  simp only [not_or, Bool.not_eq_false, ne_eq, Decidable.not_not] at hg
  obtain ⟨hfree, -, -, hcount⟩ := hg
  obtain ⟨huser, hnone⟩ := free_iff.mp hfree
  split_ifs at hs ⊢ with hown
  · have hq : ∀ r v, v ≠ w → ∀ q, v ∈ Function.update xs (target, .localQueue) (xs (target, .localQueue) ++ [w]) (r, q) ↔
        v ∈ xs (r, q) := by
      intro r v hne q
      rcases eq_or_ne (r, q) (target, .localQueue) with he | hk
      · simp [he, hne]
      · rw [Function.update_of_ne hk]
    have hloop := enter_loop xs (Option.some.inj hs).symm hcount rfl rfl rfl (.inr ⟨.localQueue, by simp⟩)
      (fun _ _ _ => .rfl) hq
    refine .only target ?_ fun r' hr => ?_
    · have hplace : (s.loop xs target).place = .user := by
        rw [loop, loopPlace_eq ((h.places t).thread target hown), Place.spot_user huser hown]
      rw [hloop]
      refine .one (.schedule w) ((if_pos hplace).trans ?_)
      simp [loop]
    · rw [hloop, Function.update_of_ne (by simp [hr]), Function.update_of_ne (by simp [hr])]
      rfl
  · have hasked : ∀ r v, v ≠ w → (Asked (Function.update s.call t (some ⟨target, w, .schedule, .read⟩)) r v ↔
        Asked s.call r v) := by
      intro r v hne
      refine exists_congr fun t' => ?_
      rcases eq_or_ne t' t with rfl | ht
      · rw [Function.update_self, hnone]
        simp [Call.asks, Call.item, hne.symm]
      · rw [Function.update_of_ne ht]
    have hloop := enter_loop xs (Option.some.inj hs).symm hcount rfl rfl rfl
      (.inl ⟨t, by simp [setCall, Call.asks, Call.item]⟩) hasked (fun _ _ _ _ => .rfl)
    intro r
    rw [hloop]
    exact .refl _

section Stages

variable {c : Call ι} (h : s.Inv xs) (hc : s.call t = some c)
include h hc

/-- A call finds the ring enabled: its message is on its way. -/
theorem sendStage_acts (hstage : c.stage ≠ .send) (hen : (s.rt c.target).ringEnabled = true) :
    s.LoopActs xs (s.setCall t (some { c with stage := .send })) xs := by
  have hdone : ({ c with stage := .send } : Call ι).asks = none := rfl
  by_cases hty : c.type = .schedule
  · have hitem : c.item = some (c.target, c.work) := if_pos hty
    have hasks : c.asks = some (c.target, c.work) := (if_neg hstage).trans hitem
    have hiff := h.asked_iff hc hasks (some { c with stage := .send }) hdone
    have h' : (s.setCall t (some { c with stage := .send })).Inv xs := setStage_inv h hc (by simp) fun _ => hen
    refine .only c.target (.one (.remoteSchedule c.work) ?_) fun r' hr => ?_
    · have hmail : (s.setCall t (some { c with stage := .send })).mail xs c.target = c.work ::ₘ s.mail xs c.target := by
        have hnew : c.work ∉ s.mail xs c.target := fun hm =>
          (mem_mail.mp hm).asked ⟨t, by rw [hc, Option.bind_some, hasks]⟩
        refine (nodup_mail.ext (Multiset.nodup_cons.mpr ⟨hnew, nodup_mail⟩)).mpr fun v => ?_
        rw [Multiset.mem_cons, mem_mail, mem_mail]
        rcases eq_or_ne v c.work with rfl | hne
        · refine iff_of_true (h'.inMail (p := .call t) ?_ (by simp) fun t' ht' => ?_) (.inl rfl)
          · exact mem_call (c := { c with stage := .send }) (Function.update_self ..) hitem
          · obtain rfl := Spot.call.inj ht'
            simp [setCall, hdone]
        · rw [or_iff_right hne]
          refine InMail.congr ?_ .rfl
          rw [setCall, hiff]
          simp [hne]
      exact (if_pos hen).trans (congrArg some (loop_queues s xs hmail rfl rfl).symm)
    · refine loop_congr rfl rfl (fun _ => rfl) (mail_congr fun v => InMail.congr ?_ .rfl)
      rw [setCall, hiff]
      simp [hr]
  · refine setCall_acts ?_
    rw [hc]
    simp [Call.asks, Call.item, hty]

theorem callRead_acts (hstage : c.stage = .read) : s.LoopActs xs (s.callRead t c) xs := by
  unfold callRead
  split_ifs with hen hty
  · exact sendStage_acts h hc (by simp [hstage]) hen
  · refine setCall_acts ?_
    rw [hc]
    simp [Call.asks, Call.item, hstage]
  · refine setCall_acts ?_
    rw [hc]
    simp [Call.asks, Call.item, hty]

theorem callLock_acts (hstage : c.stage = .lock) : s.LoopActs xs (s.callLock t c)
    (if (s.rt c.target).ringEnabled = true then xs
      else Function.update xs (c.target, .globalQueue) (xs (c.target, .globalQueue) ++ [c.work])) := by
  unfold callLock
  split_ifs with hen
  · exact sendStage_acts h hc (by simp [hstage]) hen
  · have hitem : c.item = some (c.target, c.work) := if_pos ((h.calls t c hc).1.lock hstage)
    have hasks : c.asks = some (c.target, c.work) := (if_neg (by simp [hstage])).trans hitem
    have hiff := h.asked_iff hc hasks none rfl
    set ys := Function.update xs (c.target, .globalQueue) (xs (c.target, .globalQueue) ++ [c.work])
    have hmail : ∀ r, ((s.pushBack (c.target, .globalQueue) c.work).setCall t none).mail ys r = s.mail xs r := by
      intro r
      refine mail_congr fun v => ?_
      by_cases hv : (r, v) = (c.target, c.work)
      · obtain ⟨rfl, rfl⟩ := Prod.mk.inj hv
        refine iff_of_false (fun hm => hm.unqueued .globalQueue (by simp [ys])) fun hm => hm.asked ⟨t, ?_⟩
        rw [hc, Option.bind_some, hasks]
      · refine InMail.congr ((hiff r v).trans (and_iff_left hv)) (exists_congr fun q => ?_)
        rcases eq_or_ne (r, q) (c.target, .globalQueue) with he | hk
        · obtain ⟨rfl, rfl⟩ := Prod.mk.inj he
          have hne : v ≠ c.work := fun he => hv (by rw [he])
          simp [ys, hne]
        · rw [show ys (r, q) = xs (r, q) from Function.update_of_ne hk _ _]
    refine .only c.target (.one (.remoteSchedule c.work) ?_) fun r' hr => loop_congr rfl rfl (fun q => ?_) (hmail r')
    · refine (if_neg hen).trans (congrArg some (Eq.trans ?_ (loop_queues s xs (hmail c.target) rfl rfl).symm))
      simp [ys, loop]
    · exact Function.update_of_ne (by simp [hr]) _ _

theorem callSend_acts (hstage : c.stage = .send) {ok : Bool} (hs : s.callSend t c ok = some s') :
    s.LoopActs xs s' xs := by
  have hdone : (none : Option (Call ι)).bind Call.asks = (s.call t).bind Call.asks := by
    rw [hc, Option.bind_some, Call.asks, if_pos hstage]
    rfl
  rcases callSend_cases hs with ⟨r, hr, rfl⟩ | rfl | rfl
  · have hplace : s.loopPlace r ≠ .outside := by
      rw [loopPlace_eq ((h.places t).thread r hr), Place.spot_user (h.calls t c hc).2 hr]
      simp
    refine LoopActs.setCall (setRt_acts (r := r) ?_ ?_ (.inr hplace)) hdone
    · split_ifs <;> exact ⟨rfl, rfl, rfl⟩
    · split_ifs <;> rfl
  · exact .refl s xs
  · exact .setCall (setRt_acts ⟨rfl, rfl, rfl⟩ rfl (.inl rfl)) hdone

end Stages

theorem callStep_acts (h : s.Inv xs) {ok : Bool} (hs : s.callStep t ok = some s') :
    ∃ xs', s'.Inv xs' ∧ s.LoopActs xs s' xs' := by
  obtain ⟨c, hc, ⟨hstage, rfl⟩ | ⟨hstage, rfl⟩ | ⟨hstage, hs⟩⟩ := callStep_cases hs
  · exact ⟨_, callRead_inv h hc, callRead_acts h hc hstage⟩
  · exact ⟨_, callLock_inv h hc hstage, callLock_acts h hc hstage⟩
  · exact ⟨_, callSend_inv h hc hstage hs, callSend_acts h hc hstage hs⟩

theorem allowExit_acts {target : ι} (hs : s.allowExit t target = some s') : s.LoopActs xs s' xs := by
  obtain ⟨hfree, hs⟩ := Option.ite_none_left_eq_some.mp hs
  obtain ⟨-, hnone⟩ := free_iff.mp (Bool.not_eq_false _ ▸ hfree)
  have hstore : s.LoopActs xs (s.setRt target { s.rt target with exitAllowed := true }) xs := by
    refine .only target (.one .allowExit ?_) fun r' hr => setRt_loop_other hr
    exact congrArg some (Eq.symm (setRt_loop_self rfl))
  split_ifs at hs
  · obtain rfl := Option.some.inj hs
    exact hstore
  · obtain rfl := Option.some.inj hs
    refine hstore.setCall ?_
    rw [show (s.setRt target { s.rt target with exitAllowed := true }).call t = none from hnone]
    rfl

/-! ## `run()` -/

theorem run_acts (h : s.Inv xs) {ok : Bool} (hs : s.run t r ok = some s') : s.LoopActs xs s' xs := by
  obtain ⟨hout, -, ⟨hnew, rfl⟩ | ⟨hthread, rfl⟩ | rfl⟩ := run_cases hs
  · -- Nobody sees the first `run()` before its locked section.
    intro r'
    set u := s.setRt r { s.rt r with ringOpen := true, runThread := some t } with hu
    have hspot : (Place.flush r : Place ι).spot r' = (u.place t).spot r' := by
      rw [show u.place t = .outside from hout]
      rfl
    have hloop : u.loop xs r' = s.loop xs r' := by
      rcases eq_or_ne r' r with rfl | hr
      · have hplace : u.loopPlace r' = .outside := by
          rw [loopPlace_eq (t := t) (by simp [hu, setRt]), ← hspot]
          rfl
        have hmail : u.mail xs r' = s.mail xs r' := rfl
        rw [loop, hplace, hmail, loop, loopPlace, hnew]
        simp [hu, setRt]
      · exact setRt_loop_other hr
    rw [setPlace_loop hspot, hloop]
    exact .refl _
  · have hen : (s.rt r).ringEnabled = true := (h.started r t hthread).resolve_left (by simp [hout])
    refine .only r (.one .run ?_) fun r' hr => setPlace_loop ?_
    · have hplace : s.loopPlace r = .outside := by rw [loopPlace_eq hthread, hout]; rfl
      rw [setPlace_loop_self hthread]
      simp [Loop.step, loop, hplace, hen, Place.spot]
    · rw [hout]
      exact Place.spot_other (by simp [Place.runtime, hr.symm])
  · exact .refl _ _

/-- The locked section of the first `run()`. -/
theorem flush_acts (h : s.Inv xs) (hp : s.place t = .flush r) : s.LoopActs xs (s.flush t r)
    (Function.update (Function.update xs (r, .localQueue) (xs (r, .localQueue) ++ xs (r, .globalQueue)))
      (r, .globalQueue) []) := by
  have hthread : (s.rt r).runThread = some t := (h.places t).thread r (by rw [hp]; rfl)
  set ys := Function.update (Function.update xs (r, .localQueue) (xs (r, .localQueue) ++ xs (r, .globalQueue)))
    (r, .globalQueue) [] with hys
  have hother : ∀ r', r' ≠ r → ∀ q, ys (r', q) = xs (r', q) := by
    intro r' hr q
    rw [hys, Function.update_of_ne (by simp [hr]), Function.update_of_ne (by simp [hr])]
  have hlocal : ys (r, .localQueue) = xs (r, .localQueue) ++ xs (r, .globalQueue) := by simp [hys]
  have hglobal : ys (r, .globalQueue) = [] := by simp [hys]
  have hmail : ∀ r', (s.flush t r).mail ys r' = s.mail xs r' := by
    intro r'
    refine mail_congr fun v => InMail.congr .rfl ?_
    rcases eq_or_ne r' r with rfl | hr
    · constructor
      · rintro ⟨q, hq⟩
        cases q with
        | globalQueue => simp [hglobal] at hq
        | localQueue => exact (List.mem_append.mp (hlocal ▸ hq)).elim (fun hv => ⟨_, hv⟩) fun hv => ⟨_, hv⟩
      · rintro ⟨q, hq⟩
        refine ⟨.localQueue, hlocal ▸ List.mem_append.mpr ?_⟩
        cases q with
        | globalQueue => exact .inr hq
        | localQueue => exact .inl hq
    · exact exists_congr fun q => by rw [hother r' hr]
  refine .only r (.one .run ?_) fun r' hr => ?_
  · have hplace : s.loopPlace r = .outside := by rw [loopPlace_eq hthread, hp]; rfl
    have hloop : (s.flush t r).loop ys r = { s.loop xs r with
        place := .loop, ringEnabled := true, localQueue := xs (r, .localQueue) ++ xs (r, .globalQueue)
        globalQueue := [] } := by
      rw [loop, hmail, hlocal, hglobal]
      simp [flush, loopPlace, hthread, Place.spot, loop]
    rw [hloop]
    cases hen : (s.rt r).ringEnabled with
    | false => simp [Loop.step, loop, hplace, hen]
    | true => simp [Loop.step, loop, hplace, hen, h.flushed r hen]
  · have hrt : (s.flush t r).rt r' = s.rt r' := Function.update_of_ne hr _ _
    have hplace : (s.flush t r).loopPlace r' = (s.setPlace t (.top r)).loopPlace r' := by
      rw [loopPlace, hrt]
      rfl
    rw [loop, loop, hmail, hother r' hr, hother r' hr, hrt, hplace, setPlace_loopPlace]
    rw [hp]
    exact Place.spot_other (by simp [Place.runtime, hr.symm])

section Loop

variable (h : s.Inv xs)
include h

theorem tick_acts (hp : s.place t = .top r) : s.LoopActs xs (s.tick t r) xs := by
  have hr : (s.place t).runtime = some r := by rw [hp]; rfl
  have hthread := (h.places t).thread r hr
  unfold tick
  dsimp only
  split_ifs
  · exact setRt_moves hthread hr ⟨rfl, rfl, rfl⟩ rfl rfl (by simp [hp])
  · exact setRt_moves hthread hr ⟨rfl, rfl, rfl⟩ rfl rfl (by simp [hp])

theorem pick_acts (hp : s.place t = .pick r) :
    s.LoopActs xs (s.pick t r) (Function.update xs (r, .localQueue) (xs (r, .localQueue)).tail) := by
  have hr : (s.place t).runtime = some r := by rw [hp]; rfl
  have hthread := (h.places t).thread r hr
  have hin : s.loopPlace r = .loop := by simp [loopPlace_eq hthread, hp, Place.spot]
  unfold pick
  dsimp only
  cases hq : xs (r, .localQueue) with
  | nil =>
    have hsame : Function.update xs (r, .localQueue) ([] : List ℕ).tail = xs := by
      rw [List.tail_nil, ← hq, Function.update_eq_self]
    rw [h.rep.popFront_nil hq, hsame]
    dsimp only
    split_ifs with hexit
    · refine .only r (.one .quit ?_) fun r' hne => (setPlace_loop ?_).trans (setRt_loop_other hne)
      · rw [setPlace_loop_self (by simpa [setRt] using hthread), setRt_loop_self]
        · simp [Loop.step, loop, hin, hq, hexit, Place.spot]
        · rfl
      · have hother : (s.place t).spot r' = .outside := Place.spot_other (by simp [hr, hne.symm])
        exact hother.symm
    · exact setRt_moves hthread hr ⟨rfl, rfl, rfl⟩ rfl rfl (by simp [hp])
  | cons w rest =>
    obtain ⟨hw, -⟩ := h.rep.popFront_cons hq
    rw [hw, List.tail_cons]
    dsimp only
    set ys := Function.update xs (r, .localQueue) rest with hys
    set u : Cluster ι θ := { s with
      mem := (SingleLinkListImpl.popFront s.mem (s.queue (r, .localQueue))).2.1
      queue := Function.update s.queue (r, .localQueue)
        (SingleLinkListImpl.popFront s.mem (s.queue (r, .localQueue))).2.2
      invoked := s.invoked ++ [w] }
    have hfirst : w ∈ xs (r, .localQueue) := by rw [hq]; exact List.mem_cons_self
    obtain ⟨hcount, htarget⟩ := h.outstanding (mem_contents_queue hfirst)
    have hmail : ∀ r', u.mail ys r' = s.mail xs r' := by
      intro r'
      refine mail_congr fun v => (inMail_leave hcount fun v hne => exists_congr fun q => ?_).trans
        (and_iff_left_of_imp fun hm => ?_)
      · rcases eq_or_ne (r', q) (r, .localQueue) with he | hk
        · rw [he, hq, hys, Function.update_self, List.mem_cons, or_iff_right hne]
        · rw [hys, Function.update_of_ne hk]
      · rintro rfl
        obtain rfl := Option.some.inj (htarget.symm.trans hm.target)
        exact hm.unqueued .localQueue hfirst
    have hpop : s.LoopActs xs u ys := by
      refine .only r ?_ fun r' hne => loop_congr rfl rfl (fun q => ?_) (hmail r')
      · have hloop : u.loop ys r = { s.loop xs r with localQueue := rest } := by
          rw [loop_queues s xs (hmail r) rfl rfl]
          simp [hys, loop]
        rw [hloop]
        exact .pop (by simp [loop, hin]) hq
      · exact Function.update_of_ne (by simp [hne]) _ _
    exact hpop.trans (setPlace_acts (p := .work r) hthread hr rfl (by simp [u, hp]))

/-- A completion with an item is taken off the queue and the item invoked. -/
theorem invokeCqe_acts {next : After} (hp : s.place t = .reap r next) {c : Completion ι} {cs : List (Completion ι)}
    (hq : (s.rt r).cq = c :: cs) (hw : workOf c.userData = some w) :
    s.LoopActs xs { (s.setRt r { s.rt r with cq := cs }).setPlace t (.handler r next) with
      invoked := s.invoked ++ [w] } xs := by
  have hr : (s.place t).runtime = some r := by rw [hp]; rfl
  have hthread := (h.places t).thread r hr
  have hin : s.loopPlace r = .loop := by simp [loopPlace_eq hthread, hp, Place.spot]
  have hmem : (r, w) ∈ contents s.call xs s.rt (.bin r .cq) := by
    change (r, w) ∈ (s.rt r).cq.filterMap _
    rw [hq, List.filterMap_cons_some (by rw [itemFor, hw]; rfl)]
    exact List.mem_cons_self
  obtain ⟨hcount, htarget⟩ := h.outstanding hmem
  set u : Cluster ι θ := { s with invoked := s.invoked ++ [w] }
  have hleave : ∀ r' v, InMail u.scheduled u.invoked u.target u.call xs r' v ↔
      InMail s.scheduled s.invoked s.target s.call xs r' v ∧ v ≠ w := fun r' v => inMail_leave hcount fun _ _ => .rfl
  have htake : s.LoopActs xs u xs := by
    refine .only r ?_ fun r' hne => loop_congr rfl rfl (fun _ => rfl) (mail_congr fun v => ?_)
    · have hmail : u.mail xs r = (s.mail xs r).erase w := by
        refine (nodup_mail.ext (nodup_mail.erase w)).mpr fun v => ?_
        rw [Multiset.Nodup.mem_erase_iff nodup_mail, mem_mail, mem_mail, hleave, and_comm]
      rw [loop_queues s xs hmail rfl rfl]
      exact .receive (by simp [loop, hin]) (mem_mail.mpr (h.inMail hmem (by simp) (by simp)))
    · refine (hleave r' v).trans (and_iff_left_of_imp fun hm => ?_)
      rintro rfl
      exact hne (Option.some.inj (hm.target.symm.trans htarget))
  exact htake.trans (setRt_moves hthread hr ⟨rfl, rfl, rfl⟩ rfl rfl (by simp [u, hp]))

theorem processCqe_acts {next : After} (hp : s.place t = .reap r next) {c : Completion ι} {cs : List (Completion ι)}
    (hq : (s.rt r).cq = c :: cs) : s.LoopActs xs (s.processCqe t r next c cs) xs := by
  have hr : (s.place t).runtime = some r := by rw [hp]; rfl
  have hthread := (h.places t).thread r hr
  have hin : s.loopPlace r ≠ .outside := by simp [loopPlace_eq hthread, hp, Place.spot]
  unfold processCqe
  dsimp only
  split
  · exact setRt_acts ⟨rfl, rfl, rfl⟩ rfl (.inl rfl)
  · exact setRt_acts ⟨rfl, rfl, rfl⟩ rfl (.inl rfl)
  next data hd =>
    split_ifs with h0 hres
    · exact .refl s xs
    · exact setRt_acts ⟨rfl, rfl, rfl⟩ rfl (.inr hin)
    · refine invokeCqe_acts h hp hq ?_
      rw [workOf, hd]
      exact if_neg h0
  · exact setRt_moves hthread hr ⟨rfl, rfl, rfl⟩ rfl rfl (by simp [hp])
  · exact .refl s xs

theorem Goes.acts {p : Place ι} (hgo : s.Goes t r p) : s.LoopActs xs (s.setPlace t p) xs :=
  setPlace_acts ((h.places t).thread r hgo.runtime) hgo.runtime hgo.same hgo.started

theorem loopStep_acts (hs : s.loopStep t = some s') : ∃ xs', s'.Inv xs' ∧ s.LoopActs xs s' xs' := by
  rcases loopStep_cases hs with ⟨r, hp, rfl⟩ | ⟨r, hp, rfl⟩ | ⟨r, hp, rfl⟩ | ⟨r, next, c, cs, hp, hq, rfl⟩ |
    ⟨r, p, hgo, rfl⟩
  · exact ⟨_, flush_inv h hp, flush_acts h hp⟩
  · exact ⟨_, tick_inv h hp, tick_acts h hp⟩
  · exact ⟨_, pick_inv h hp, pick_acts h hp⟩
  · exact ⟨_, processCqe_inv h hp hq, processCqe_acts h hp hq⟩
  · exact ⟨_, Goes.inv h hgo, Goes.acts h hgo⟩

end Loop

/-! ## All steps -/

theorem userOf_place (h : s.Inv xs) (hu : s.userOf t = some r) : s.loopPlace r = .user := by
  obtain ⟨huser, hr⟩ := Option.ite_none_right_eq_some.mp hu
  rw [loopPlace_eq ((h.places t).thread r hr), Place.spot_user huser hr]

theorem step_loop (op : Op ι θ) (h : s.Inv xs) (hs : step s op = some s') :
    ∃ xs', s'.Inv xs' ∧ s.LoopActs xs s' xs' := by
  obtain ⟨-, hs⟩ := Option.ite_none_left_eq_some.mp hs
  cases op with
  | schedule t target w => exact ⟨_, scheduleInternal_inv h hs, scheduleInternal_acts h hs⟩
  | allowExit t target => exact ⟨_, allowExit_inv h hs, allowExit_acts hs⟩
  | cancel t target data =>
    refine ⟨_, cancelInternal_inv h hs, ?_⟩
    obtain ⟨hg, hs⟩ := Option.ite_none_left_eq_some.mp hs
    simp only [not_or, Bool.not_eq_false, ne_eq, Decidable.not_not] at hg
    obtain rfl := Option.some.inj hs
    refine setCall_acts ?_
    rw [(free_iff.mp hg.1).2]
    rfl
  | call t ok => exact callStep_acts h hs
  | run t r ok => exact ⟨_, run_inv h hs, run_acts h hs⟩
  | loop t => exact loopStep_acts h hs
  | submit t =>
    obtain ⟨r, -, rfl⟩ := Option.map_eq_some_iff.mp hs
    exact ⟨_, submit_inv h, setRt_acts ⟨rfl, rfl, rfl⟩ rfl (.inl rfl)⟩
  | pend t =>
    obtain ⟨r, hu, rfl⟩ := Option.map_eq_some_iff.mp hs
    exact ⟨_, pendUser_inv h, setRt_acts ⟨rfl, rfl, rfl⟩ rfl (.inr (by simp [userOf_place h hu]))⟩
  | resume t =>
    obtain ⟨r, hu, hs⟩ := Option.bind_eq_some_iff.mp hs
    obtain ⟨hw, hs⟩ := Option.ite_none_left_eq_some.mp hs
    obtain rfl := Option.some.inj hs
    exact ⟨_, resumeUser_inv h hw, setRt_acts ⟨rfl, rfl, rfl⟩ rfl (.inr (by simp [userOf_place h hu]))⟩
  | complete t =>
    obtain ⟨r, p, hgo, rfl⟩ := complete_cases hs
    exact ⟨_, Goes.inv h hgo, Goes.acts h hgo⟩
  | exec r res =>
    refine ⟨_, exec_inv h hs, ?_⟩
    obtain ⟨m, ms, -, ⟨-, rfl⟩ | ⟨-, rfl⟩⟩ := exec_cases hs
    · exact setRt_acts ⟨rfl, rfl, rfl⟩ rfl (.inl rfl)
    · have hsend : s.LoopActs xs (s.setRt r { s.rt r with handed := ms, acks := (s.rt r).acks + 1 }) xs :=
        setRt_acts ⟨rfl, rfl, rfl⟩ rfl (.inl rfl)
      exact hsend.trans (setRt_acts ⟨rfl, rfl, rfl⟩ rfl (.inl rfl))
  | ack r =>
    refine ⟨_, ack_inv h hs, ?_⟩
    obtain ⟨-, hs⟩ := Option.ite_none_left_eq_some.mp hs
    obtain rfl := Option.some.inj hs
    exact setRt_acts ⟨rfl, rfl, rfl⟩ rfl (.inl rfl)
  | arrive r i =>
    refine ⟨_, arrive_inv h hs, ?_⟩
    obtain ⟨d, -, rfl⟩ := Option.map_eq_some_iff.mp hs
    exact setRt_acts ⟨rfl, rfl, rfl⟩ rfl (.inl rfl)

/-- **Every runtime of a cluster refines the loop**, whatever the threads and the kernel do. -/
theorem run_loop {ops : List (Op ι θ)} (h : s.Inv xs) (hrun : Lib.run step s ops = some s') (r : ι) :
    ∃ xs', s'.Inv xs' ∧ Loop.Acts (s.loop xs r) (s'.loop xs' r) := by
  have hmatch : ∀ (u : Cluster ι θ) (op : Op ι θ) u' x, (∃ ys, u.Inv ys ∧ x = u.loop ys r) → step u op = some u' →
      ∃ ops' y, Lib.run Loop.step x ops' = some y ∧ ∃ ys, u'.Inv ys ∧ y = u'.loop ys r := by
    rintro u op u' x ⟨ys, hu, rfl⟩ hs
    obtain ⟨ys', hu', hacts⟩ := step_loop op hu hs
    obtain ⟨ops', hops'⟩ := hacts r
    exact ⟨ops', _, hops', ys', hu', rfl⟩
  obtain ⟨ops', y, hops', xs', h', rfl⟩ := run_refines hmatch ops ⟨xs, h, rfl⟩ hrun
  exact ⟨xs', h', ops', hops'⟩

end Cluster

end Condy
