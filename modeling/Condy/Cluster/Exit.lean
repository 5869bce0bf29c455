import Condy.Cluster.Delivery

/-!
# Condy.Cluster.Exit — no `allow_exit` is missed

`allow_exit` stores to `exit_allowed_`, reads `ring_enabled_` and sends a message; `run()` enables the ring, reads
`exit_allowed_` and waits.  `Exiting` keeps beside the runtimes for which of them an `allow_exit` has returned and which
have left `run()`.  `Watched` is what holds of a runtime up to the end of its first `run()`: when it waits with nothing
left to do and an `allow_exit` has returned, there is a `Signal`, something that ends the wait.
-/

namespace Condy

open Lib

namespace Cluster

variable {ι θ : Type}

/-! ## Signals -/

/-- The requests refused by the kernel whose completions were not processed yet. -/
def Rt.refusals (x : Rt ι θ) : List (Message ι) := x.cq.filterMap Completion.refused

/-- The requests handed over that have not arrived, as far as the sender knows. -/
def Rt.sent (x : Rt ι θ) : List (Message ι) := x.handed ++ x.refusals

/-- A message to the runtime was submitted and is not in its completion queue yet. -/
def InFlight (rt : ι → Rt ι θ) (r : ι) : Prop := (rt r).inbox ≠ [] ∨ ∃ r', ∃ m ∈ (rt r').handed, m.target = r

/-- A message to the runtime was refused, and the completion on which its sender panics was not processed yet. -/
def Refused (rt : ι → Rt ι θ) (r : ι) : Prop := ∃ r', ∃ m ∈ (rt r').refusals, m.target = r

def Signal (rt : ι → Rt ι θ) (r : ι) : Prop :=
  ((rt r).cq ≠ [] ∨ (rt r).inbox ≠ []) ∨ ∃ r', ∃ m ∈ (rt r').sent, m.target = r

variable {rt rt' : ι → Rt ι θ} {r r' : ι} {x : Rt ι θ}

theorem Signal.refused (h : Signal rt r) (hcq : (rt r).cq = []) (hf : ¬ InFlight rt r) : Refused rt r := by
  obtain (hcq' | hin) | ⟨r', m, hm, ht⟩ := h
  · exact absurd hcq hcq'
  · exact absurd (.inl hin) hf
  · rcases List.mem_append.mp hm with hm | hm
    · exact absurd (.inr ⟨r', m, hm, ht⟩) hf
    · exact ⟨r', m, hm, ht⟩

/-! ## Changes of a record -/

/-- A change of a record, as the other runtimes see it. -/
structure Rt.Calm (x x' : Rt ι θ) : Prop where
  exitAllowed : x.exitAllowed = true → x'.exitAllowed = true
  sent : x.sent ⊆ x'.sent

/-- A change of a record while its own thread waits. -/
structure Rt.Still (x x' : Rt ι θ) : Prop where
  pendingWorks : x'.pendingWorks = x.pendingWorks
  arrived : x.cq ≠ [] ∨ x.inbox ≠ [] → x'.cq ≠ [] ∨ x'.inbox ≠ []

/-- The records change, but not what the runtime `r` relies on. -/
structure Calm (place : θ → Place ι) (rt rt' : ι → Rt ι θ) (r : ι) : Prop where
  exitAllowed : (rt r).exitAllowed = true → (rt' r).exitAllowed = true
  waiting : ∀ t, place t = .wait r → (rt' r).pendingWorks = (rt r).pendingWorks ∧ (Signal rt r → Signal rt' r)

theorem Rt.refusals_snoc (cq : List (Completion ι)) {c : Completion ι} (hc : c.refused = none) :
    (cq ++ [c]).filterMap Completion.refused = cq.filterMap Completion.refused := by
  rw [filterMap_snoc, hc]
  exact List.append_nil _

theorem Rt.refusals_cons {c : Completion ι} {cs : List (Completion ι)} (hq : x.cq = c :: cs) (hc : c.refused = none) :
    cs.filterMap Completion.refused = x.refusals := by
  unfold Rt.refusals
  rw [hq, List.filterMap_cons_none hc]

theorem Rt.calm_submit (x : Rt ι θ) : x.Calm x.submit := by
  refine ⟨id, fun m hm => ?_⟩
  rcases List.mem_append.mp hm with hm | hm
  · exact List.mem_append_left _ (List.mem_append_left _ hm)
  · exact List.mem_append_right _ hm

/-- Completions behind the first one. -/
theorem Rt.calm_drop {c : Completion ι} {cs : List (Completion ι)} (hq : x.cq = c :: cs) (hc : c.refused = none)
    (n : ℕ) : x.Calm { x with cq := cs, pendingWorks := n } := by
  refine ⟨id, fun m hm => ?_⟩
  change m ∈ x.handed ++ cs.filterMap Completion.refused
  rwa [Rt.refusals_cons hq hc]

theorem Calm.refl (place : θ → Place ι) (rt : ι → Rt ι θ) (r : ι) : Calm place rt rt r :=
  ⟨id, fun _ _ => ⟨rfl, id⟩⟩

variable [DecidableEq ι]

theorem exists_sent_update (hx : (rt r').sent ⊆ x.sent) (h : ∃ o, ∃ m ∈ (rt o).sent, m.target = r) :
    ∃ o, ∃ m ∈ (Function.update rt r' x o).sent, m.target = r := by
  obtain ⟨o, m, hm, ht⟩ := h
  refine ⟨o, m, ?_, ht⟩
  rcases eq_or_ne o r' with rfl | ho
  · rw [Function.update_self]
    exact hx hm
  · rwa [Function.update_of_ne ho]

theorem Calm.other (place : θ → Place ι) (hr : r ≠ r') (hx : (rt r').sent ⊆ x.sent) :
    Calm place rt (Function.update rt r' x) r := by
  have hsame : Function.update rt r' x r = rt r := Function.update_of_ne hr _ _
  refine ⟨?_, fun t _ => ⟨by rw [hsame], fun h => ?_⟩⟩
  · rw [hsame]; exact id
  · obtain h | h := h
    · refine .inl ?_
      rwa [hsame]
    · exact .inr (exists_sent_update hx h)

theorem Calm.update {place : θ → Place ι} (hx : (rt r').Calm x) (hw : ∀ t, place t = .wait r' → (rt r').Still x)
    (r : ι) : Calm place rt (Function.update rt r' x) r := by
  rcases eq_or_ne r r' with rfl | hr
  · have hself : Function.update rt r x r = x := Function.update_self ..
    refine ⟨?_, fun t ht => ⟨?_, fun h => ?_⟩⟩
    · rw [hself]; exact hx.exitAllowed
    · rw [hself]; exact (hw t ht).pendingWorks
    · obtain h | h := h
      · refine .inl ?_
        rw [hself]
        exact (hw t ht).arrived h
      · exact .inr (exists_sent_update hx.sent h)
  · exact Calm.other place hr hx.sent

/-- The kernel accepts a message: it goes from the sender to the inbox of its target. -/
theorem Calm.accept (place : θ → Place ι) {m : Message ι} {ms : List (Message ι)} (hm : (rt r').handed = m :: ms)
    {rt₁ : ι → Rt ι θ} (h₁ : rt₁ = Function.update rt r' { rt r' with handed := ms, acks := (rt r').acks + 1 })
    (r : ι) : Calm place rt
      (Function.update rt₁ m.target { rt₁ m.target with inbox := (rt₁ m.target).inbox ++ [m.data] }) r := by
  have hsame₁ : ∀ o, (rt₁ o).exitAllowed = (rt o).exitAllowed ∧ (rt₁ o).pendingWorks = (rt o).pendingWorks ∧
      (rt₁ o).cq = (rt o).cq ∧ (rt₁ o).inbox = (rt o).inbox := by
    intro o
    rw [h₁]
    rcases eq_or_ne o r' with rfl | ho
    · rw [Function.update_self]
      exact ⟨rfl, rfl, rfl, rfl⟩
    · rw [Function.update_of_ne ho]
      exact ⟨rfl, rfl, rfl, rfl⟩
  obtain ⟨hexit, hpend, hcq, hin⟩ := hsame₁ r
  set y : Rt ι θ := { rt₁ m.target with inbox := (rt₁ m.target).inbox ++ [m.data] }
  have hinbox : y.inbox ≠ [] := List.append_ne_nil_of_right_ne_nil _ (List.cons_ne_nil _ _)
  have hy : (rt₁ m.target).Calm y := ⟨id, List.Subset.refl _⟩
  have hcalm : Calm place rt₁ (Function.update rt₁ m.target y) r :=
    Calm.update hy (fun _ _ => ⟨rfl, fun _ => .inr hinbox⟩) r
  refine ⟨fun h => hcalm.exitAllowed (hexit.trans h), fun t ht => ⟨(hcalm.waiting t ht).1.trans hpend, fun h => ?_⟩⟩
  obtain h | ⟨o, m', hm', htarget⟩ := h
  · refine (hcalm.waiting t ht).2 (.inl ?_)
    rwa [hcq, hin]
  · -- The message itself has arrived in the inbox, the others are where they were.
    by_cases hin : m' ∈ (rt₁ o).sent
    · exact (hcalm.waiting t ht).2 (.inr ⟨o, m', hin, htarget⟩)
    · rcases eq_or_ne o r' with rfl | ho
      · rw [h₁, Function.update_self] at hin
        rw [Rt.sent, hm] at hm'
        rcases List.mem_cons.mp hm' with rfl | hm'
        · refine .inl (.inr ?_)
          rw [← htarget, Function.update_self]
          exact hinbox
        · exact absurd hm' hin
      · rw [h₁, Function.update_of_ne ho] at hin
        exact absurd hm' hin

/-! ## The invariant -/

/-- A call of `allow_exit` or another wake-up of the runtime is in progress. -/
def Waking (call : θ → Option (Call ι)) (r : ι) : Prop := ∃ t c, call t = some c ∧ c.type = .ignore ∧ c.target = r

/-- What holds of a runtime up to the end of its first `run()`, where `ret` says that an `allow_exit` has returned. -/
structure Watched (s : Cluster ι θ) (ret : Prop) (r : ι) : Prop where
  stored : ret ∨ Waking s.call r → (s.rt r).exitAllowed = true
  woken : ∀ t, s.place t = .wait r → (s.rt r).pendingWorks = 0 → ret → Signal s.rt r

variable [DecidableEq θ] {s s' : Cluster ι θ} {xs xs' : ι × Queue → List ℕ} {t : θ} {ret ret' : Prop}

omit [DecidableEq ι] [DecidableEq θ] in
theorem Watched.mono (h : s.Watched ret r) (hret : ret' → ret) : s.Watched ret' r :=
  ⟨fun hr => h.stored (hr.imp_left hret), fun t ht hp hr => h.woken t ht hp (hret hr)⟩

omit [DecidableEq ι] [DecidableEq θ] in
/-- The rule for steps that do not move a thread. -/
theorem Watched.stay (h : s.Watched ret r) (hplace : s'.place = s.place) (hc : Calm s.place s.rt s'.rt r)
    (hcall : Waking s'.call r → (s'.rt r).exitAllowed = true ∨ Waking s.call r)
    (hret : ret' → ret ∨ ((s'.rt r).exitAllowed = true ∨ Waking s.call r) ∧
      ∀ t, s.place t = .wait r → Signal s'.rt r) : s'.Watched ret' r := by
  refine ⟨fun hr => ?_, fun t ht hp hr => ?_⟩
  · have hcases : ret ∨ (s'.rt r).exitAllowed = true ∨ Waking s.call r := by
      obtain hr | hr := hr
      · exact (hret hr).imp_right And.left
      · exact .inr (hcall hr)
    obtain hr | hr | hr := hcases
    · exact hc.exitAllowed (h.stored (.inl hr))
    · exact hr
    · exact hc.exitAllowed (h.stored (.inr hr))
  · rw [hplace] at ht
    obtain ⟨hsame, hsignal⟩ := hc.waiting t ht
    obtain hr | ⟨-, hr⟩ := hret hr
    · exact hsignal (h.woken t ht (hsame ▸ hp) hr)
    · exact hr t ht

omit [DecidableEq ι] [DecidableEq θ] in
theorem Watched.calm (h : s.Watched ret r) (hplace : s'.place = s.place) (hc : Calm s.place s.rt s'.rt r)
    (hcall : s'.call = s.call) : s'.Watched ret r :=
  h.stay hplace hc (fun hw => .inr (hcall ▸ hw)) .inl

omit [DecidableEq ι] in
/-- The rule for steps that move a thread. -/
theorem Watched.move {p : Place ι} (h : s.Watched ret r) (hplace : s'.place = Function.update s.place t p)
    (hcall : s'.call = s.call) (hc : Calm s.place s.rt s'.rt r)
    (hwait : p = .wait r → (s'.rt r).pendingWorks = 0 → (s'.rt r).exitAllowed ≠ true) : s'.Watched ret r := by
  have hstored : ret ∨ Waking s'.call r → (s'.rt r).exitAllowed = true := by
    rw [hcall]
    exact fun hr => hc.exitAllowed (h.stored hr)
  refine ⟨hstored, fun t' ht' hp hr => ?_⟩
  rw [hplace] at ht'
  rcases eq_or_ne t' t with rfl | hne
  · rw [Function.update_self] at ht'
    exact absurd (hstored (.inl hr)) (hwait ht' hp)
  · rw [Function.update_of_ne hne] at ht'
    obtain ⟨hsame, hsignal⟩ := hc.waiting t' ht'
    exact hsignal (h.woken t' ht' (hsame ▸ hp) hr)

/-! ## Steps that do not move a thread -/

/-- No thread waits in a runtime whose thread is elsewhere. -/
theorem Inv.not_wait (h : s.Inv xs) (hr : (s.place t).runtime = some r) (hne : s.place t ≠ .wait r) (t' : θ) :
    s.place t' ≠ .wait r := by
  intro ht'
  have h1 := (h.places t).thread r hr
  have h2 := (h.places t').thread r (by rw [ht']; rfl)
  obtain rfl := Option.some.inj (h1.symm.trans h2)
  exact hne ht'

/-- A record is changed by its own thread. -/
theorem Calm.own (h : s.Inv xs) {r₀ : ι} (hr : (s.place t).runtime = some r₀) (hne : s.place t ≠ .wait r₀)
    (hx : (s.rt r₀).Calm x) (r : ι) : Calm s.place s.rt (Function.update s.rt r₀ x) r :=
  Calm.update hx (fun t' ht' => absurd ht' (h.not_wait hr hne t')) r

omit [DecidableEq ι] [DecidableEq θ] in
theorem user_ne_wait (hu : (s.place t).user = true) : s.place t ≠ .wait r := by
  intro hp
  rw [hp] at hu
  cases hu

omit [DecidableEq ι] in
theorem waking_update {c : Option (Call ι)}
    (hc : ∀ c', c = some c' → c'.type = .ignore → c'.target = r → Waking s.call r)
    (h : Waking (Function.update s.call t c) r) : Waking s.call r := by
  obtain ⟨t', c', ht', htype, htarget⟩ := h
  rcases eq_or_ne t' t with rfl | hne
  · rw [Function.update_self] at ht'
    exact hc c' ht' htype htarget
  · rw [Function.update_of_ne hne] at ht'
    exact ⟨t', c', ht', htype, htarget⟩

theorem scheduleInternal_watched (h : s.Watched ret r) {target : ι} {w : ℕ}
    (hs : s.scheduleInternal t target w = some s') : s'.Watched ret r := by
  obtain ⟨-, hs⟩ := Option.ite_none_left_eq_some.mp hs
  split_ifs at hs
  · obtain rfl := Option.some.inj hs
    exact h.calm rfl (Calm.refl _ _ r) rfl
  · obtain rfl := Option.some.inj hs
    refine h.stay rfl (Calm.refl _ _ r) (fun hw => .inr (waking_update (fun c' hc' htype => ?_) hw)) .inl
    obtain rfl := Option.some.inj hc'
    cases htype

theorem cancelInternal_watched (h : s.Watched ret r) {target : ι} {data : ℕ}
    (hs : s.cancelInternal t target data = some s') : s'.Watched ret r := by
  obtain ⟨-, hs⟩ := Option.ite_none_left_eq_some.mp hs
  obtain rfl := Option.some.inj hs
  refine h.stay rfl (Calm.refl _ _ r) (fun hw => .inr (waking_update (fun c' hc' htype => ?_) hw)) .inl
  obtain rfl := Option.some.inj hc'
  cases htype

/-- `allow_exit` on the own thread returns at once, otherwise the call is in progress. -/
theorem allowExit_watched (hI : s.Inv xs) (h : s.Watched ret r) {target : ι} (hs : s.allowExit t target = some s')
    (hret : ret' → ret ∨ target = r ∧ s'.call t = none) : s'.Watched ret' r := by
  obtain ⟨hfree, hs⟩ := Option.ite_none_left_eq_some.mp hs
  obtain ⟨huser, hnone⟩ := free_iff.mp (Bool.not_eq_false _ ▸ hfree)
  set x : Rt ι θ := { s.rt target with exitAllowed := true }
  have hx : (s.rt target).Calm x := ⟨fun _ => rfl, List.Subset.refl _⟩
  have hc : Calm s.place s.rt (Function.update s.rt target x) r := Calm.update hx (fun _ _ => ⟨rfl, id⟩) r
  have hstore : target = r → (Function.update s.rt target x r).exitAllowed = true := by
    rintro rfl
    rw [Function.update_self]
  split_ifs at hs with hown
  · obtain rfl := Option.some.inj hs
    refine h.stay rfl hc .inr fun hr => (hret hr).imp_right ?_
    rintro ⟨rfl, -⟩
    exact ⟨.inl (hstore rfl), fun t' ht' => absurd ht' (hI.not_wait hown (user_ne_wait huser) t')⟩
  · obtain rfl := Option.some.inj hs
    refine h.stay rfl hc (fun hw => ?_) fun hr => .inl ((hret hr).resolve_right ?_)
    · by_cases htarget : target = r
      · exact .inl (hstore htarget)
      · refine .inr (waking_update (fun c' hc' _ ht => ?_) hw)
        obtain rfl := Option.some.inj hc'
        exact absurd ht htarget
    · rintro ⟨-, hn⟩
      change Function.update s.call t _ t = none at hn
      rw [Function.update_self] at hn
      cases hn

section

variable {c : Call ι} (h : s.Watched ret r) (hc : s.call t = some c)
include h hc

omit [DecidableEq ι] in
/-- A call goes on. -/
theorem setStage_watched {stage : Stage} : (s.setCall t (some { c with stage })).Watched ret r := by
  refine h.stay rfl (Calm.refl _ _ r) (fun hw => .inr (waking_update (fun c' hc' htype htarget => ?_) hw)) .inl
  obtain rfl := Option.some.inj hc'
  exact ⟨t, c, hc, htype, htarget⟩

omit [DecidableEq ι] in
/-- A call returns; where it is a wake-up of the runtime, there is a signal if the runtime waits. -/
theorem endCall_watched (hplace : s'.place = s.place) (hcall : s'.call = Function.update s.call t none)
    (hcalm : Calm s.place s.rt s'.rt r) (hret : ret' → ret ∨ c.type = .ignore ∧ c.target = r)
    (hsignal : c.type = .ignore → c.target = r → ∀ t', s.place t' = .wait r → Signal s'.rt r) : s'.Watched ret' r := by
  refine h.stay hplace hcalm (fun hw => ?_) fun hr => (hret hr).imp_right ?_
  · rw [hcall] at hw
    exact .inr (waking_update (fun _ hn => absurd hn (Option.some_ne_none _).symm) hw)
  · rintro ⟨htype, htarget⟩
    exact ⟨.inr ⟨t, c, hc, htype, htarget⟩, hsignal htype htarget⟩

end

/-- A wake-up from a runtime is handed to the kernel at once. -/
theorem sendQueued_watched (hI : s.Inv xs) (h : s.Watched ret r) {c : Call ι} (hc : s.call t = some c) {r₀ : ι}
    (hr₀ : (s.place t).runtime = some r₀) (huser : (s.place t).user = true)
    (hends : ret' → ret ∨ c.type = .ignore ∧ c.target = r) :
    ((s.setRt r₀ (if c.type = .schedule then (s.rt r₀).scheduleMsgRing ⟨c.target, encodeWork c.work c.type⟩
      else ((s.rt r₀).scheduleMsgRing ⟨c.target, encodeWork c.work c.type⟩).submit)).setCall t none).Watched ret' r := by
  set m : Message ι := ⟨c.target, encodeWork c.work c.type⟩
  set y := if c.type = .schedule then (s.rt r₀).scheduleMsgRing m else ((s.rt r₀).scheduleMsgRing m).submit with hy
  have hx : (s.rt r₀).Calm ((s.rt r₀).scheduleMsgRing m) := ⟨id, List.Subset.refl _⟩
  have hcalm : (s.rt r₀).Calm y := by
    rw [hy]
    split_ifs
    · exact hx
    · have hsub := Rt.calm_submit ((s.rt r₀).scheduleMsgRing m)
      exact ⟨hsub.exitAllowed, List.Subset.trans hx.sent hsub.sent⟩
  refine endCall_watched h hc rfl rfl (Calm.own hI hr₀ (user_ne_wait huser) hcalm r) hends ?_
  intro htype htarget t' _
  refine .inr ⟨r₀, m, ?_, htarget⟩
  change m ∈ (Function.update s.rt r₀ y r₀).sent
  rw [Function.update_self, hy, if_neg (by rw [htype]; decide)]
  exact List.mem_append_left _ (List.mem_append_right _ (List.mem_append_right _ List.mem_cons_self))

/-- A wake-up from another thread is in the inbox at once. -/
theorem sendSync_watched (h : s.Watched ret r) {c : Call ι} (hc : s.call t = some c)
    (hends : ret' → ret ∨ c.type = .ignore ∧ c.target = r) :
    ((s.setRt c.target { s.rt c.target with
      inbox := (s.rt c.target).inbox ++ [encodeWork c.work c.type] }).setCall t none).Watched ret' r := by
  set y : Rt ι θ := { s.rt c.target with inbox := (s.rt c.target).inbox ++ [encodeWork c.work c.type] }
  have hinbox : y.inbox ≠ [] := List.append_ne_nil_of_right_ne_nil _ (List.cons_ne_nil _ _)
  have hy : (s.rt c.target).Calm y := ⟨id, List.Subset.refl _⟩
  refine endCall_watched h hc rfl rfl (Calm.update hy (fun _ _ => ⟨rfl, fun _ => .inr hinbox⟩) r) hends ?_
  rintro - rfl t' -
  refine .inl (.inr ?_)
  change (Function.update s.rt c.target y c.target).inbox ≠ []
  rwa [Function.update_self]

theorem callStep_watched (hI : s.Inv xs) (h : s.Watched ret r) {ok : Bool} (hs : s.callStep t ok = some s')
    (hret : ∀ c, s.call t = some c → ret' → ret ∨ (c.type = .ignore ∧ c.target = r) ∧ s'.call t = none) :
    s'.Watched ret' r := by
  obtain ⟨c, hc, hs⟩ := callStep_cases hs
  obtain ⟨hok, huser⟩ := hI.calls t c hc
  replace hret := hret c hc
  have hends : ret' → ret ∨ c.type = .ignore ∧ c.target = r := fun hr => (hret hr).imp_right And.left
  -- Where the call goes on nothing was returned.
  have hgoes : s'.call t ≠ none → ret' → ret := fun hne hr => (hret hr).resolve_right fun hn => hne hn.2
  have hset : ∀ stage, (s.setCall t (some { c with stage })).call t ≠ none := by
    intro stage
    change Function.update s.call t _ t ≠ none
    rw [Function.update_self]
    exact Option.some_ne_none _
  rcases hs with ⟨-, rfl⟩ | ⟨hstage, rfl⟩ | ⟨-, hs⟩
  · unfold callRead at hgoes ⊢
    split_ifs at hgoes ⊢ with hen hty
    · exact (setStage_watched h hc).mono (hgoes (hset .send))
    · exact (setStage_watched h hc).mono (hgoes (hset .lock))
    · refine endCall_watched h hc rfl rfl (Calm.refl _ _ r) hends ?_
      rintro - rfl t' ht'
      -- A runtime that waits is enabled, so the call would have seen it.
      obtain hf | hen' := hI.started _ t' ((hI.places t').thread _ (by rw [ht']; rfl))
      · rw [ht'] at hf
        cases hf
      · exact absurd hen' hen
  · unfold callLock at hgoes ⊢
    split_ifs at hgoes ⊢ with hen
    · exact (setStage_watched h hc).mono (hgoes (hset .send))
    · refine endCall_watched h hc rfl rfl (Calm.refl _ _ r) hends ?_
      intro htype
      rw [hok.lock hstage] at htype
      cases htype
  · rcases callSend_cases hs with ⟨r₀, hr₀, rfl⟩ | rfl | rfl
    · exact sendQueued_watched hI h hc hr₀ huser hends
    · refine Watched.mono ?_ (hgoes ?_)
      · exact h.calm rfl (Calm.refl _ _ r) rfl
      · change s.call t ≠ none
        rw [hc]
        exact Option.some_ne_none c
    · exact sendSync_watched h hc hends

omit [DecidableEq θ] in
/-- The kernel puts something into the completion queue. -/
theorem post_watched (h : s.Watched ret r) {r₀ : ι} (hx : (s.rt r₀).Calm x)
    (hp : x.pendingWorks = (s.rt r₀).pendingWorks) (hcq : x.cq ≠ []) : (s.setRt r₀ x).Watched ret r :=
  h.calm rfl (Calm.update hx (fun _ _ => ⟨hp, fun _ => .inl hcq⟩) r) rfl

omit [DecidableEq θ] in
theorem exec_watched (h : s.Watched ret r) {r₀ : ι} {res : ℤ} (hs : s.exec r₀ res = some s') : s'.Watched ret r := by
  obtain ⟨m, ms, hm, ⟨-, rfl⟩ | ⟨-, rfl⟩⟩ := exec_cases hs
  · refine post_watched h ⟨id, fun m' hm' => ?_⟩ rfl (by simp)
    change m' ∈ ms ++ ((s.rt r₀).cq ++ [_]).filterMap Completion.refused
    rw [filterMap_snoc]
    rw [Rt.sent, hm] at hm'
    rcases List.mem_cons.mp hm' with rfl | hm'
    · exact List.mem_append_right _ (List.mem_append_right _ List.mem_cons_self)
    · rw [← List.append_assoc]
      exact List.mem_append_left _ hm'
  · exact h.calm rfl (Calm.accept _ hm rfl r) rfl

omit [DecidableEq θ] in
theorem ack_watched (h : s.Watched ret r) {r₀ : ι} (hs : s.ack r₀ = some s') : s'.Watched ret r := by
  obtain ⟨-, hs⟩ := Option.ite_none_left_eq_some.mp hs
  obtain rfl := Option.some.inj hs
  refine post_watched h ⟨id, fun m hm => ?_⟩ rfl (by simp)
  change m ∈ (s.rt r₀).handed ++ ((s.rt r₀).cq ++ [_]).filterMap Completion.refused
  rwa [Rt.refusals_snoc _ rfl]

omit [DecidableEq θ] in
theorem arrive_watched (h : s.Watched ret r) {r₀ : ι} {i : ℕ} (hs : s.arrive r₀ i = some s') : s'.Watched ret r := by
  obtain ⟨d, -, rfl⟩ := Option.map_eq_some_iff.mp hs
  refine post_watched h ⟨id, fun m hm => ?_⟩ rfl (by simp)
  change m ∈ (s.rt r₀).handed ++ ((s.rt r₀).cq ++ [_]).filterMap Completion.refused
  rwa [Rt.refusals_snoc _ rfl]

/-- The thread of a runtime changes its record in user code. -/
theorem user_watched (hI : s.Inv xs) (h : s.Watched ret r) {r₀ : ι} (hu : s.userOf t = some r₀)
    (hx : (s.rt r₀).Calm x) : (s.setRt r₀ x).Watched ret r := by
  unfold userOf at hu
  split_ifs at hu with huser
  exact h.calm rfl (Calm.own hI hu (user_ne_wait huser) hx r) rfl

/-! ## Steps that move a thread -/

omit [DecidableEq ι] in
/-- A thread moves, and no record changes. -/
theorem Watched.go {p : Place ι} (h : s.Watched ret r) (hplace : s'.place = Function.update s.place t p)
    (hcall : s'.call = s.call) (hrt : s'.rt = s.rt) (hwait : p ≠ .wait r) : s'.Watched ret r :=
  h.move hplace hcall (hrt ▸ Calm.refl _ _ r) fun hw => absurd hw hwait

/-- The first `run()` begins: nobody waits yet. -/
theorem enter_watched (hI : s.Inv xs) (h : s.Watched ret r) (hnew : (s.rt r).runThread = none) :
    ((s.setRt r { s.rt r with ringOpen := true, runThread := some t }).setPlace t (.flush r)).Watched ret r := by
  have hself : Function.update s.rt r { s.rt r with ringOpen := true, runThread := some t } r =
      { s.rt r with ringOpen := true, runThread := some t } := Function.update_self ..
  refine ⟨fun hr => ?_, fun t' ht' => ?_⟩
  · change (Function.update s.rt r _ r).exitAllowed = true
    rw [hself]
    exact h.stored hr
  · change Function.update s.place t _ t' = .wait r at ht'
    rcases eq_or_ne t' t with rfl | hne
    · rw [Function.update_self] at ht'
      cases ht'
    · rw [Function.update_of_ne hne] at ht'
      have hthread := (hI.places t').thread r (by rw [ht']; rfl)
      rw [hnew] at hthread
      cases hthread

theorem run_watched (hI : s.Inv xs) (h : s.Watched ret r) {r₀ : ι} {ok : Bool} (hs : s.run t r₀ ok = some s') :
    s'.Watched ret r := by
  obtain ⟨-, -, hs⟩ := run_cases hs
  rcases hs with ⟨hnew, rfl⟩ | ⟨-, rfl⟩ | rfl
  · rcases eq_or_ne r r₀ with rfl | hr
    · exact enter_watched hI h hnew
    · exact h.move rfl rfl (Calm.other _ hr (List.Subset.refl _)) (by simp)
  · exact h.go rfl rfl rfl (by simp)
  · exact h

/-- The thread of the runtime leaves `run()`. -/
def quits (s s' : Cluster ι θ) (r : ι) : Bool :=
  (s.rt r).runThread.any fun t => decide ((s.place t).runtime = some r) && decide ((s'.place t).runtime ≠ some r)

theorem quits_of_leaves (hI : s.Inv xs) (hr : (s.place t).runtime = some r) (hl : (s'.place t).runtime ≠ some r) :
    quits s s' r = true := by
  have hthread := (hI.places t).thread r hr
  simp [quits, hthread, hr, hl]

theorem pick_watched (hI : s.Inv xs) (h : s.Watched ret r) {r₀ : ι} (hp : s.place t = .pick r₀)
    (hq : quits s (s.pick t r₀) r = false) : (s.pick t r₀).Watched ret r := by
  have hr : (s.place t).runtime = some r₀ := by rw [hp]; rfl
  have hwait : s.place t ≠ .wait r₀ := by rw [hp]; simp
  unfold pick at hq ⊢
  simp only at hq ⊢
  split at hq
  · exact h.go rfl rfl rfl (by simp)
  · split_ifs at hq ⊢ with hexit
    · have hne : r ≠ r₀ := by
        rintro rfl
        rw [quits_of_leaves hI hr (by simp [setPlace, Place.runtime])] at hq
        cases hq
      exact h.move rfl rfl (Calm.other _ hne (List.Subset.refl _)) (by simp)
    · refine h.move rfl rfl (Calm.own hI hr hwait (Rt.calm_submit _) r) fun hw hpend => ?_
      obtain rfl := Place.wait.inj hw
      change (Function.update s.rt r₀ _ r₀).exitAllowed ≠ true
      change (Function.update s.rt r₀ _ r₀).pendingWorks = 0 at hpend
      rw [Function.update_self] at hpend ⊢
      exact fun he => hexit ⟨hpend, he⟩

theorem processCqe_watched (hI : s.Inv xs) (h : s.Watched ret r) {r₀ : ι} {next : After}
    (hp : s.place t = .reap r₀ next) {c : Completion ι} {cs : List (Completion ι)} (hq : (s.rt r₀).cq = c :: cs) :
    (s.processCqe t r₀ next c cs).Watched ret r := by
  have hr : (s.place t).runtime = some r₀ := by rw [hp]; rfl
  have hwait : s.place t ≠ .wait r₀ := by rw [hp]; simp
  have hcq := (hI.rts r₀).cq c (by rw [hq]; exact List.mem_cons_self)
  have hpanic : ({ s with panicked := true } : Cluster ι θ).Watched ret r := h.calm rfl (Calm.refl _ _ r) rfl
  unfold processCqe
  -- The completion taken off the queue is no refused request: those end in a panic.
  rcases hcq with ⟨hdone, href⟩ | ⟨-, href⟩
  · rw [hdone, doneWord, decodeWork_encodeWork rfl]
    simp only [if_true]
    split_ifs with hres
    · exact hpanic
    · exact h.calm rfl (Calm.own hI hr hwait (Rt.calm_drop hq (href.resolve_right hres) _) r) rfl
  · have hcalm := Calm.own hI hr hwait (Rt.calm_drop hq href (s.rt r₀).pendingWorks) r
    simp only
    split
    · exact h.calm rfl hcalm rfl
    · exact h.calm rfl hcalm rfl
    · split_ifs
      · exact hpanic
      · exact h.calm rfl (Calm.own hI hr hwait (Rt.calm_drop hq href _) r) rfl
      · exact h.move rfl rfl hcalm (by simp)
    · exact h.move rfl rfl hcalm (by simp)
    · exact hpanic

theorem loopStep_watched (hI : s.Inv xs) (h : s.Watched ret r) (hs : s.loopStep t = some s')
    (hq : quits s s' r = false) : s'.Watched ret r := by
  rcases loopStep_cases hs with ⟨r₀, hp, rfl⟩ | ⟨r₀, hp, rfl⟩ | ⟨r₀, hp, rfl⟩ | ⟨r₀, next, c, cs, hp, hcq, rfl⟩ |
    ⟨r₀, p, hgo, rfl⟩
  · have hx : (s.rt r₀).Calm { s.rt r₀ with ringEnabled := true } := ⟨id, List.Subset.refl _⟩
    exact h.move rfl rfl (Calm.own hI (by rw [hp]; rfl) (by rw [hp]; simp) hx r) (by simp)
  · have hx : ∀ n, (s.rt r₀).Calm { s.rt r₀ with tickCount := n } := fun n => ⟨id, List.Subset.refl _⟩
    have hc := fun n => Calm.own hI (by rw [hp]; rfl) (by rw [hp]; simp) (hx n) r
    unfold tick
    simp only
    split_ifs
    · exact h.move rfl rfl (hc 0) (by simp)
    · exact h.move rfl rfl (hc _) (by simp)
  · exact pick_watched hI h hp hq
  · exact processCqe_watched hI h hp hcq
  · exact h.go rfl rfl rfl (hgo.notWait r)

/-! ## Runs -/

/-- A step in which an `allow_exit` of the runtime returns. -/
def allowExitReturns (s s' : Cluster ι θ) (r : ι) : Op ι θ → Bool
  | .allowExit t target => decide (target = r) && (s'.call t).isNone
  | .call t _ => (s.call t).any (fun c => decide (c.type = .ignore) && decide (c.target = r)) && (s'.call t).isNone
  | _ => false

/-- What the runtime relies on holds after a step, unless its thread leaves `run()`. -/
theorem step_watched (hI : s.Inv xs) (h : s.Watched ret r) {op : Op ι θ} (hs : step s op = some s')
    (hq : quits s s' r = false) : s'.Watched (ret ∨ allowExitReturns s s' r op = true) r := by
  obtain ⟨-, hs⟩ := Option.ite_none_left_eq_some.mp hs
  -- Only `allow_exit` itself and the later steps of a call return.
  have hother : allowExitReturns s s' r op = false → s'.Watched ret r →
      s'.Watched (ret ∨ allowExitReturns s s' r op = true) r := fun hn h' => h'.mono fun hr => by simpa [hn] using hr
  cases op with
  | schedule t target w => exact hother rfl (scheduleInternal_watched h hs)
  | allowExit t target =>
    exact allowExit_watched hI h hs fun hr => hr.imp_right fun hret => by simpa [allowExitReturns] using hret
  | cancel t target data => exact hother rfl (cancelInternal_watched h hs)
  | call t ok =>
    refine callStep_watched hI h hs fun c hc hr => hr.imp_right fun hret => ?_
    simpa [allowExitReturns, hc] using hret
  | run t r₀ ok => exact hother rfl (run_watched hI h hs)
  | loop t => exact hother rfl (loopStep_watched hI h hs hq)
  | submit t =>
    obtain ⟨r₀, hu, rfl⟩ := Option.map_eq_some_iff.mp hs
    exact hother rfl (user_watched hI h hu (Rt.calm_submit _))
  | pend t =>
    obtain ⟨r₀, hu, rfl⟩ := Option.map_eq_some_iff.mp hs
    exact hother rfl (user_watched hI h hu ⟨id, List.Subset.refl _⟩)
  | resume t =>
    obtain ⟨r₀, hu, hs⟩ := Option.bind_eq_some_iff.mp hs
    obtain ⟨-, hs⟩ := Option.ite_none_left_eq_some.mp hs
    obtain rfl := Option.some.inj hs
    exact hother rfl (user_watched hI h hu ⟨id, List.Subset.refl _⟩)
  | complete t =>
    obtain ⟨r₀, p, hgo, rfl⟩ := complete_cases hs
    exact hother rfl (h.go rfl rfl rfl (hgo.notWait r))
  | exec r₀ res => exact hother rfl (exec_watched h hs)
  | ack r₀ => exact hother rfl (ack_watched h hs)
  | arrive r₀ i => exact hother rfl (arrive_watched h hs)

/-! ### Requests that do not fail -/

/-- No completion queue holds a refused request. -/
def Clean (rt : ι → Rt ι θ) : Prop := ∀ r, (rt r).refusals = []

omit [DecidableEq θ] in
theorem Clean.update (h : Clean rt) (hx : x.refusals = []) : Clean (Function.update rt r x) :=
  (Function.forall_update_iff rt fun _ y => y.refusals = []).mpr ⟨hx, fun o _ => h o⟩

theorem callStep_clean (h : Clean s.rt) {ok : Bool} (hs : s.callStep t ok = some s') : Clean s'.rt := by
  obtain ⟨c, -, ⟨-, rfl⟩ | ⟨-, rfl⟩ | ⟨-, hs⟩⟩ := callStep_cases hs
  · unfold callRead
    split_ifs <;> exact h
  · unfold callLock
    split_ifs <;> exact h
  · rcases callSend_cases hs with ⟨r₀, -, rfl⟩ | rfl | rfl
    · refine h.update ?_
      split_ifs <;> exact h r₀
    · exact h
    · exact h.update (h c.target)

theorem loopStep_clean (h : Clean s.rt) (hs : s.loopStep t = some s') : Clean s'.rt := by
  rcases loopStep_cases hs with ⟨r₀, -, rfl⟩ | ⟨r₀, -, rfl⟩ | ⟨r₀, -, rfl⟩ | ⟨r₀, next, c, cs, -, hq, rfl⟩ |
    ⟨r₀, p, -, rfl⟩
  · exact h.update (h r₀)
  · unfold tick
    simp only
    split_ifs <;> exact h.update (h r₀)
  · unfold pick
    simp only
    split
    · exact h
    · split_ifs <;> exact h.update (h r₀)
  · have hcs : cs.filterMap Completion.refused = [] := by
      have hall := h r₀
      rw [Rt.refusals, hq, filterMap_cons_toList] at hall
      exact (List.append_eq_nil_iff.mp hall).2
    unfold processCqe
    simp only
    split
    · exact h.update hcs
    · exact h.update hcs
    · split_ifs
      · exact h
      · exact h.update hcs
      · exact h.update hcs
    · exact h.update hcs
    · exact h
  · exact h

theorem step_clean (h : Clean s.rt) {op : Op ι θ} (hop : ∀ r res, op = .exec r res → 0 ≤ res)
    (hs : step s op = some s') : Clean s'.rt := by
  obtain ⟨-, hs⟩ := Option.ite_none_left_eq_some.mp hs
  cases op with
  | schedule t target w =>
    obtain ⟨-, hs⟩ := Option.ite_none_left_eq_some.mp hs
    split_ifs at hs <;> exact Option.some.inj hs ▸ h
  | allowExit t target =>
    obtain ⟨-, hs⟩ := Option.ite_none_left_eq_some.mp hs
    split_ifs at hs <;> obtain rfl := Option.some.inj hs <;> exact h.update (h target)
  | cancel t target data =>
    obtain ⟨-, hs⟩ := Option.ite_none_left_eq_some.mp hs
    exact Option.some.inj hs ▸ h
  | call t ok => exact callStep_clean h hs
  | run t r₀ ok =>
    obtain ⟨-, -, ⟨-, rfl⟩ | ⟨-, rfl⟩ | rfl⟩ := run_cases hs
    · exact h.update (h r₀)
    · exact h
    · exact h
  | loop t => exact loopStep_clean h hs
  | submit t =>
    obtain ⟨r₀, -, rfl⟩ := Option.map_eq_some_iff.mp hs
    exact h.update (h r₀)
  | pend t =>
    obtain ⟨r₀, -, rfl⟩ := Option.map_eq_some_iff.mp hs
    exact h.update (h r₀)
  | resume t =>
    obtain ⟨r₀, -, hs⟩ := Option.bind_eq_some_iff.mp hs
    obtain ⟨-, hs⟩ := Option.ite_none_left_eq_some.mp hs
    obtain rfl := Option.some.inj hs
    exact h.update (h r₀)
  | complete t =>
    obtain ⟨r₀, p, -, rfl⟩ := complete_cases hs
    exact h
  | exec r₀ res =>
    obtain ⟨m, ms, -, ⟨hres, -⟩ | ⟨-, rfl⟩⟩ := exec_cases hs
    · exact absurd hres (Int.not_lt.mpr (hop r₀ res rfl))
    · have h₁ := h.update (r := r₀) (x := { s.rt r₀ with handed := ms, acks := (s.rt r₀).acks + 1 }) (h r₀)
      exact h₁.update (h₁ m.target)
  | ack r₀ =>
    obtain ⟨-, hs⟩ := Option.ite_none_left_eq_some.mp hs
    obtain rfl := Option.some.inj hs
    exact h.update ((Rt.refusals_snoc _ rfl).trans (h r₀))
  | arrive r₀ i =>
    obtain ⟨d, -, rfl⟩ := Option.map_eq_some_iff.mp hs
    exact h.update ((Rt.refusals_snoc _ rfl).trans (h r₀))

/-! ### The system -/

/-- The runtimes, with those for which an `allow_exit` has returned and those that have left `run()`. -/
structure Exiting (ι θ : Type) where
  cluster : Cluster ι θ
  returned : ι → Bool
  left : ι → Bool

namespace Exiting

def init (eventInterval : ι → ℕ) : Exiting ι θ := ⟨Cluster.init eventInterval, fun _ => false, fun _ => false⟩

def step (e : Exiting ι θ) (op : Op ι θ) : Option (Exiting ι θ) :=
  (e.cluster.step op).map fun s =>
    ⟨s, fun r => e.returned r || allowExitReturns e.cluster s r op, fun r => e.left r || quits e.cluster s r⟩

/-- An `allow_exit` is missed: it has returned, and in its first `run()` the runtime has nothing left to do and waits,
with nothing there or on its way that would end the wait. -/
structure Missed (e : Exiting ι θ) (t : θ) (r : ι) : Prop where
  firstRun : e.left r = false
  returned : e.returned r = true
  exitAllowed : (e.cluster.rt r).exitAllowed = true
  pendingWorks : (e.cluster.rt r).pendingWorks = 0
  localQueue : (e.cluster.queue (r, .localQueue)).empty = true
  waits : e.cluster.place t = .wait r
  cq : (e.cluster.rt r).cq = []
  notInFlight : ¬ InFlight e.cluster.rt r

structure Inv (e : Exiting ι θ) : Prop where
  cluster : ∃ xs, e.cluster.Inv xs
  watched : ∀ r, e.left r = false → e.cluster.Watched (e.returned r = true) r

theorem init_inv (eventInterval : ι → ℕ) : (init eventInterval : Exiting ι θ).Inv := by
  refine ⟨⟨_, Cluster.init_inv eventInterval⟩, fun r _ => ⟨?_, fun t ht => ?_⟩⟩
  · rintro (hr | ⟨t, c, hc, -⟩)
    · cases hr
    · cases hc
  · cases ht

theorem step_inv {e e' : Exiting ι θ} {op : Op ι θ} (h : e.Inv) (hs : step e op = some e') : e'.Inv := by
  obtain ⟨s, hstep, rfl⟩ := Option.map_eq_some_iff.mp hs
  obtain ⟨xs, hI⟩ := h.cluster
  refine ⟨Cluster.step_inv op hI hstep, fun r hl => ?_⟩
  obtain ⟨hleft, hq⟩ := Bool.or_eq_false_iff.mp hl
  refine (step_watched hI (h.watched r hleft) hstep hq).mono fun hr => ?_
  exact Bool.or_eq_true_iff.mp hr

/-- **No `allow_exit` is missed**, for any number of runtimes and threads, in every interleaving of its steps with those
of the first `run()` and of other calls.  Only where the kernel refused the message can it look so, until the sender
processes the completion and panics; where no request fails, never. -/
theorem allow_exit_seen (eventInterval : ι → ℕ) {ops : List (Op ι θ)} {e : Exiting ι θ}
    (hrun : Lib.run step (init eventInterval) ops = some e) :
    (∀ t r, e.Missed t r → Refused e.cluster.rt r) ∧
      ((∀ r res, Op.exec r res ∈ ops → 0 ≤ res) → ∀ t r, ¬ e.Missed t r) := by
  have h : e.Inv := Lib.run_inv (fun _ _ _ h hs => step_inv h hs) ops (init_inv eventInterval) hrun
  have hrefused : ∀ t r, e.Missed t r → Refused e.cluster.rt r := by
    intro t r hm
    have hsignal := (h.watched r hm.firstRun).woken t hm.waits hm.pendingWorks hm.returned
    exact hsignal.refused hm.cq hm.notInFlight
  refine ⟨hrefused, fun hops t r hm => ?_⟩
  have hclean : Clean e.cluster.rt := by
    refine Lib.run_inv_along (I := fun e : Exiting ι θ => Clean e.cluster.rt)
      (G := fun _ op => ∀ r res, op = .exec r res → 0 ≤ res) (fun e op e' hc hop hs => ?_) ops (fun _ => rfl) ?_ hrun
    · obtain ⟨s, hstep, rfl⟩ := Option.map_eq_some_iff.mp hs
      exact step_clean hc hop hstep
    · refine Lib.along_of_forall ops _ fun op hop _ r res heq => hops r res ?_
      exact heq ▸ hop
  obtain ⟨r', m, hm', -⟩ := hrefused t r hm
  rw [hclean r'] at hm'
  cases hm'

/-- Thread 0 waits in runtime 0 with nothing to do, and thread 1, in an item of runtime 1, calls `allow_exit` of runtime
0.  The kernel has accepted its message. -/
def lateAllowExit : List (Op (Fin 2) (Fin 2)) :=
  let i : Fin 2 := ⟨0, Nat.two_pos⟩
  let j : Fin 2 := ⟨1, Nat.one_lt_two⟩
  [.run i i true, .loop i, .loop i, .loop i, .schedule j j 8, .call j true, .call j true, .run j j true, .loop j,
    .loop j, .loop j, .allowExit j i, .call j true, .call j true, .exec j 0]

theorem allow_exit_seen_late : ∃ e : Exiting (Fin 2) (Fin 2), Lib.run step (init fun _ => 61) lateAllowExit = some e ∧
    e.returned 0 = true ∧ e.cluster.place 0 = .wait 0 ∧ (e.cluster.rt 0).exitAllowed = true ∧
    (e.cluster.rt 0).pendingWorks = 0 ∧ (e.cluster.rt 0).cq = [] ∧
    (e.cluster.rt 0).inbox = [encodeWork 0 .ignore] ∧ ¬ e.Missed 0 0 := by
  have hsome : (Lib.run step (init fun _ => 61 : Exiting (Fin 2) (Fin 2)) lateAllowExit).map (fun e =>
      ((e.returned 0, (e.cluster.rt 0).exitAllowed, (e.cluster.rt 0).pendingWorks),
        e.cluster.place 0, (e.cluster.rt 0).cq, (e.cluster.rt 0).inbox)) =
      some ((true, true, 0), .wait 0, [], [encodeWork 0 .ignore]) := by decide +kernel
  obtain ⟨e, he, hend⟩ := Option.map_eq_some_iff.mp hsome
  simp only [Prod.mk.injEq] at hend
  obtain ⟨⟨h1, h3, h4⟩, h2, h5, h6⟩ := hend
  refine ⟨e, he, h1, h2, h3, h4, h5, h6, (allow_exit_seen _ he).2 ?_ 0 0⟩
  intro r res hin
  simp only [lateAllowExit, List.mem_cons, List.not_mem_nil, or_false, reduceCtorEq, false_or] at hin
  obtain ⟨-, rfl⟩ := Op.exec.inj hin
  exact Int.le_refl 0

end Exiting

end Cluster

end Condy
