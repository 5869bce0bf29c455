import Condy.Align
import Condy.Errno
import Condy.Lib.Run
import Condy.ProvidedBuffers.PoolMemory

/-!
# Condy.Zcrx.Regions — what the constructors and `cleanup_` of `ZeroCopyRxBufferPool` map and unmap

A pool that is given no area maps one; then it registers the area with the kernel and maps the refill ring.  Each of these
can fail, and a guard then runs `cleanup_` on the members as they are; the destructor runs the same `cleanup_`.

`Regions.Holds s objs` says that the regions of `objs` are what is mapped.  `cleanup_` unmaps what its object holds, with
one exception: after a failed `mmap` of the area the member is `MAP_FAILED` and not null, so `cleanup_` passes it to
`munmap` and its assertion fails before the exception leaves the constructor.
-/

namespace Condy.Zcrx

open Lib
open ProvidedBuffers (Memory)

/-- `sysconf(_SC_PAGESIZE)`. -/
structure PageSize where
  log : ℕ
  log_pos : 0 < log
  log_lt : log < 63

def PageSize.bytes (page : PageSize) : ℕ := 2 ^ page.log

/-- `MAP_FAILED`. -/
def mapFailed : ℕ := 2 ^ 64 - 1

/-- `make_system_error`. -/
structure SystemError where
  what : String
  code : ℤ
deriving DecidableEq, Repr

/-- `ZeroCopyRxArea` and `ZeroCopyRxDMABufArea`. -/
inductive Area where
  | memory (addr size : ℕ)
  | dmaBuf (dmabufFd offset size : ℕ)
deriving DecidableEq, Repr

/-- The answers of the kernel to one constructor: the address or `errno` of each `mmap`, and the result of
`io_uring_register_ifq`. -/
structure Answers where
  area : Except ℤ ℕ
  registered : ℤ
  ring : Except ℤ ℕ
deriving DecidableEq, Repr

/-- The members that `cleanup_` reads; `ringPtr` is `rq_ring_.ring_ptr`. -/
structure Members where
  areaSize : ℕ
  areaPtr : ℕ
  ringSize : ℕ
  ringPtr : ℕ
deriving DecidableEq, Repr

/-- The mapped memory of the process that comes from pools, and the pools that are alive. -/
structure Regions where
  mapped : List Memory
  live : List Members
  /-- The assertions of `cleanup_` held. -/
  asserts : Bool
  /-- Memory was unmapped that was no region. -/
  stray : Bool

/-- `get_refill_ring_size_`; an `io_uring_zcrx_rqe` has 16 bytes. -/
def getRefillRingSize (page : PageSize) (rqEntries : ℕ) : ℕ := alignUp ((rqEntries * 16 + page.bytes) % 2 ^ 64) page.bytes

namespace Regions

variable (page : PageSize)

def init : Regions := { mapped := [], live := [], asserts := true, stray := false }

/-- `mmap` with the kernel's answer. -/
def mmap (s : Regions) (len : ℕ) (ans : Except ℤ ℕ) : Except ℤ (ℕ × Regions) :=
  if len = 0 then .error 22 else ans.map fun a => (a, { s with mapped := ⟨a, len⟩ :: s.mapped })

/-- `munmap` and the assertion on its result: the kernel refuses an address inside a page and an empty range. -/
def munmap (s : Regions) (m : Memory) : Regions :=
  if ¬ page.bytes ∣ m.base ∨ m.len = 0 then { s with asserts := false }
  else if m ∈ s.mapped then { s with mapped := s.mapped.erase m }
  else { s with stray := true }

def cleanup (s : Regions) (m : Members) : Regions :=
  let s := if m.areaPtr ≠ 0 ∧ 0 < m.areaSize then s.munmap page ⟨m.areaPtr, m.areaSize⟩ else s
  if m.ringPtr ≠ 0 then s.munmap page ⟨m.ringPtr, m.ringSize⟩ else s

/-- `register_ifq_`: the exception, the members, and what is mapped.  `none`: `std::bit_ceil` is undefined. -/
def registerIfq (s : Regions) (m : Members) (rqEntries : ℕ) (ans : Answers) :
    Option (Option SystemError × Members × Regions) :=
  (bitCeil 32 rqEntries).map fun n =>
    let m := { m with ringSize := getRefillRingSize page n }
    if ans.registered ≠ 0 then (some ⟨"io_uring_register_ifq", -ans.registered⟩, m, s)
    else match s.mmap m.ringSize ans.ring with
      | .error e => (some ⟨"mmap", e⟩, m, s)
      | .ok (a, s) => (none, { m with ringPtr := a }, s)

/-- The guard of the constructors. -/
def leave (s : Regions) (m : Members) : Option SystemError → Option SystemError × Regions
  | none => (none, { s with live := s.live ++ [m] })
  | some e => (some e, s.cleanup page m)

def construct (s : Regions) (area : Area) (rqEntries : ℕ) (ans : Answers) : Option (Option SystemError × Regions) :=
  let register (s : Regions) (m : Members) :=
    (s.registerIfq page m rqEntries ans).map fun r => r.2.2.leave page r.2.1 r.1
  match area with
  | .memory addr size =>
    if addr = 0 then
      let areaSize := alignUp size page.bytes
      match s.mmap areaSize ans.area with
      | .error e => some (s.leave page ⟨areaSize, mapFailed, 0, 0⟩ (some ⟨"mmap", e⟩))
      | .ok (a, s) => register s ⟨areaSize, a, 0, 0⟩
    else register s ⟨0, addr, 0, 0⟩
  | .dmaBuf _ _ _ => register s ⟨0, 0, 0, 0⟩

end Regions

/-- `mmap` returns the start of a page, never null. -/
def PageSize.Returned (page : PageSize) : Except ℤ ℕ → Prop
  | .ok a => page.bytes ∣ a ∧ a ≠ 0
  | .error _ => True

instance (page : PageSize) : DecidablePred page.Returned
  | .ok _ => inferInstanceAs (Decidable (_ ∧ _))
  | .error _ => .isTrue trivial

inductive RegionOp where
  | construct (area : Area) (rqEntries : ℕ) (ans : Answers)
  /-- The pool at index `j` of the live ones is destroyed. -/
  | destroy (j : ℕ)
deriving DecidableEq, Repr

/-- The pool is to map an area of its own, and the kernel has no memory for it. -/
def RegionOp.areaFails (page : PageSize) : RegionOp → Bool
  | .construct (.memory addr size) _ ans => addr == 0 && alignUp size page.bytes != 0 && !ans.area.isOk
  | _ => false

def Regions.step (page : PageSize) (s : Regions) : RegionOp → Option Regions
  | .construct area rqEntries ans =>
    if page.Returned ans.area ∧ page.Returned ans.ring then (s.construct page area rqEntries ans).map Prod.snd else none
  | .destroy j => (s.live[j]?).map fun m => ({ s with live := s.live.eraseIdx j }).cleanup page m

/-! ## What pools hold -/

namespace Members

def areaRegions (m : Members) : List Memory :=
  if m.areaPtr ≠ 0 ∧ 0 < m.areaSize then [⟨m.areaPtr, m.areaSize⟩] else []

def ringRegions (m : Members) : List Memory := if m.ringPtr ≠ 0 then [⟨m.ringPtr, m.ringSize⟩] else []

/-- The regions that `cleanup_` unmaps. -/
def regions (m : Members) : List Memory := m.areaRegions ++ m.ringRegions

variable {m : Members}

theorem regions_noRing (h : m.ringPtr = 0) : m.regions = m.areaRegions := by
  rw [regions, ringRegions, if_neg (not_not_intro h), List.append_nil]

theorem regions_ring (h : m.ringPtr ≠ 0) : m.regions = m.areaRegions ++ [⟨m.ringPtr, m.ringSize⟩] := by
  rw [regions, ringRegions, if_pos h]

end Members

/-- A range that the kernel unmaps. -/
def PageSize.Unmaps (page : PageSize) (m : Memory) : Prop := page.bytes ∣ m.base ∧ m.len ≠ 0

namespace Regions

variable {page : PageSize} {s s' : Regions} {m : Members} {objs : List Members}

theorem cleanup_eq (s : Regions) (m : Members) : s.cleanup page m = m.regions.foldl (fun s r => s.munmap page r) s := by
  unfold cleanup Members.regions Members.areaRegions Members.ringRegions
  split_ifs <;> rfl

theorem munmap_mapped {r : Memory} (hr : page.Unmaps r) (hmem : r ∈ s.mapped) :
    s.munmap page r = { s with mapped := s.mapped.erase r } := by
  unfold munmap
  rw [if_neg (not_or.mpr ⟨not_not_intro hr.1, hr.2⟩), if_pos hmem]

/-- Unmapping regions that are mapped leaves the others. -/
theorem munmap_all (rest : List Memory) : ∀ (rs : List Memory) (s : Regions), (∀ r ∈ rs, page.Unmaps r) →
    s.mapped.Perm (rs ++ rest) →
      ∃ l, rs.foldl (fun s r => s.munmap page r) s = { s with mapped := l } ∧ l.Perm rest
  | [], s, _, hp => ⟨s.mapped, rfl, hp⟩
  | r :: rs, s, hr, hp => by
    have hmem : r ∈ s.mapped := hp.mem_iff.mpr List.mem_cons_self
    have herase : (s.mapped.erase r).Perm (rs ++ rest) := by
      have h := hp.erase r
      rwa [List.cons_append, List.erase_cons_head] at h
    rw [List.foldl_cons, munmap_mapped (hr r List.mem_cons_self) hmem]
    exact munmap_all rest rs { s with mapped := s.mapped.erase r } (fun x hx => hr x (List.mem_cons_of_mem r hx)) herase

structure Holds (page : PageSize) (s : Regions) (objs : List Members) : Prop where
  mapped : s.mapped.Perm (objs.flatMap Members.regions)
  unmaps : ∀ m ∈ objs, ∀ r ∈ m.regions, page.Unmaps r
  sound : s.stray = false

namespace Holds

theorem perm {objs' : List Members} (h : s.Holds page objs) (hp : objs'.Perm objs) : s.Holds page objs' where
  mapped := h.mapped.trans (hp.flatMap_right _).symm
  unmaps := fun m hm => h.unmaps m (hp.subset hm)
  sound := h.sound

/-- The first object has other members, with the same regions. -/
theorem congr {m' : Members} (h : s.Holds page (m :: objs)) (hr : m'.regions = m.regions) : s.Holds page (m' :: objs) := by
  obtain ⟨hmapped, hunmaps, hsound⟩ := h
  rw [List.flatMap_cons, ← hr, ← List.flatMap_cons] at hmapped
  rw [List.forall_mem_cons, ← hr] at hunmaps
  exact ⟨hmapped, List.forall_mem_cons.mpr hunmaps, hsound⟩

/-- An object that holds nothing. -/
theorem nothing (h : s.Holds page objs) (hr : m.regions = []) : s.Holds page (m :: objs) where
  mapped := by
    rw [List.flatMap_cons, hr]
    exact h.mapped
  unmaps := List.forall_mem_cons.mpr ⟨fun r hmem => absurd (hr ▸ hmem) List.not_mem_nil, h.unmaps⟩
  sound := h.sound

/-- **`cleanup_` unmaps what its object holds**, and its assertions hold. -/
theorem cleanup (h : s.Holds page (m :: s.live)) :
    (s.cleanup page m).Holds page (s.cleanup page m).live ∧ (s.cleanup page m).asserts = s.asserts := by
  obtain ⟨l, hl, hperm⟩ := munmap_all _ m.regions s (h.unmaps m List.mem_cons_self) h.mapped
  rw [cleanup_eq, hl]
  exact ⟨⟨hperm, fun x hx => h.unmaps x (List.mem_cons_of_mem m hx), h.sound⟩, rfl⟩

/-- A region is mapped that the first object holds from now on. -/
theorem mapRegion {m' : Members} {r : Memory} (h : s.Holds page (m :: objs)) (hr : m'.regions.Perm (r :: m.regions))
    (hun : page.Unmaps r) : { s with mapped := r :: s.mapped }.Holds page (m' :: objs) where
  mapped := by
    rw [List.flatMap_cons]
    refine (h.mapped.cons r).trans ?_
    rw [List.flatMap_cons, ← List.cons_append]
    exact (hr.append_right _).symm
  unmaps := by
    refine List.forall_mem_cons.mpr ⟨fun x hx => ?_, fun x hx => h.unmaps x (List.mem_cons_of_mem m hx)⟩
    rcases List.mem_cons.mp (hr.subset hx) with rfl | hx
    · exact hun
    · exact h.unmaps m List.mem_cons_self x hx
  sound := h.sound

end Holds

/-! ## The constructors -/

/-- The size of the ring does not wrap: the kernel and `cleanup_` are given a positive multiple of the page size. -/
theorem getRefillRingSize_pos (page : PageSize) {n k : ℕ} (hn : n = 2 ^ k) (hk : k < 32) : 0 < getRefillRingSize page n := by
  have hlog := page.log_lt
  have hpage : page.bytes ≤ 2 ^ 62 := Nat.pow_le_pow_right (by decide) (by omega)
  have hpos : 0 < page.bytes := Nat.two_pow_pos _
  have hle : n ≤ 2 ^ 31 := hn ▸ Nat.pow_le_pow_right (by decide) (by omega)
  unfold getRefillRingSize
  rw [Nat.mod_eq_of_lt (by omega)]
  have hup := alignUp_bounds (k := page.log) (v := n * 16 + page.bytes) (by omega) (by
    rw [← PageSize.bytes]
    omega)
  rw [← PageSize.bytes] at hup
  omega

/-- The end of a constructor: the object is there, or what it held is unmapped. -/
theorem Holds.leave (h : s.Holds page (m :: s.live)) (e : Option SystemError) :
    (s.leave page m e).2.Holds page (s.leave page m e).2.live ∧ (s.leave page m e).2.asserts = s.asserts := by
  cases e with
  | none =>
    obtain ⟨hmapped, hunmaps, hsound⟩ := h.perm (List.perm_append_singleton m s.live)
    exact ⟨⟨hmapped, hunmaps, hsound⟩, rfl⟩
  | some e => exact h.cleanup

/-- `register_ifq_` throws with nothing more mapped, or maps the ring. -/
theorem registerIfq_cases {rqEntries : ℕ} {ans : Answers} {r : Option SystemError × Members × Regions}
    (hr : s.registerIfq page m rqEntries ans = some r) : ∃ n, 0 < n ∧
      ((∃ e, r = (some e, { m with ringSize := n }, s)) ∨
        ∃ a, ans.ring = .ok a ∧
          r = (none, { m with ringSize := n, ringPtr := a }, { s with mapped := ⟨a, n⟩ :: s.mapped })) := by
  obtain ⟨n, hn, rfl⟩ := Option.map_eq_some_iff.mp hr
  obtain ⟨k, hk, hpow, -⟩ := bitCeil_pow hn
  have hpos := getRefillRingSize_pos page hpow hk
  refine ⟨_, hpos, ?_⟩
  by_cases hreg : ans.registered ≠ 0
  · exact .inl ⟨_, if_pos hreg⟩
  · unfold mmap
    rw [if_neg hreg, if_neg (Nat.ne_of_gt hpos)]
    cases hans : ans.ring with
    | error e => exact .inl ⟨_, rfl⟩
    | ok a => exact .inr ⟨a, rfl, rfl⟩

/-- What a constructor does once the area is there. -/
theorem Holds.register {rqEntries : ℕ} {ans : Answers} {r : Option SystemError × Members × Regions}
    (h : s.Holds page (m :: s.live)) (hring : m.ringPtr = 0) (hans : page.Returned ans.ring)
    (hr : s.registerIfq page m rqEntries ans = some r) :
    (r.2.2.leave page r.2.1 r.1).2.Holds page (r.2.2.leave page r.2.1 r.1).2.live ∧
      (r.2.2.leave page r.2.1 r.1).2.asserts = s.asserts := by
  obtain ⟨n, hpos, ⟨e, rfl⟩ | ⟨a, ha, rfl⟩⟩ := registerIfq_cases hr
  · -- without a ring its size does not count
    have hsame : ({ m with ringSize := n } : Members).regions = m.regions := by
      rw [Members.regions_noRing (m := m) hring]
      exact Members.regions_noRing hring
    exact Holds.leave (h.congr hsame) (some e)
  · rw [ha] at hans
    refine Holds.leave (h.mapRegion ?_ ⟨hans.1, Nat.ne_of_gt hpos⟩) none
    rw [Members.regions_noRing (m := m) hring, Members.regions_ring hans.2]
    exact List.perm_append_singleton _ _

/-- `MAP_FAILED` is no start of a page. -/
theorem not_dvd_mapFailed : ¬ page.bytes ∣ mapFailed := by
  intro hdvd
  have htwo : 2 ∣ mapFailed := Nat.dvd_trans (dvd_pow_self 2 (Nat.ne_of_gt page.log_pos)) hdvd
  exact absurd htwo (by decide)

/-- A failed `mmap` of the area: `cleanup_` asserts that it unmapped `MAP_FAILED`, if the length is positive. -/
theorem cleanup_mapFailed (s : Regions) (n : ℕ) :
    s.cleanup page ⟨n, mapFailed, 0, 0⟩ = if n = 0 then s else { s with asserts := false } := by
  unfold cleanup
  rw [if_neg (not_not_intro rfl)]
  by_cases hn : n = 0
  · rw [if_pos hn, if_neg (fun h => Nat.ne_of_gt h.2 hn)]
  · rw [if_neg hn, if_pos ⟨show mapFailed ≠ 0 by decide, Nat.pos_of_ne_zero hn⟩]
    exact if_pos (.inl not_dvd_mapFailed)

theorem construct_holds {area : Area} {rqEntries : ℕ} {ans : Answers} {r : Option SystemError × Regions}
    (h : s.Holds page s.live) (harea : page.Returned ans.area) (hring : page.Returned ans.ring)
    (hr : s.construct page area rqEntries ans = some r) :
    r.2.Holds page r.2.live ∧
      r.2.asserts = (s.asserts && !(RegionOp.construct area rqEntries ans).areaFails page) := by
  unfold construct at hr
  cases area with
  | dmaBuf fd offset size =>
    obtain ⟨q, hq, rfl⟩ := Option.map_eq_some_iff.mp hr
    obtain ⟨hholds, hasserts⟩ := (h.nothing rfl).register rfl hring hq
    exact ⟨hholds, hasserts.trans (Bool.and_true _).symm⟩
  | memory addr size =>
    dsimp only at hr
    by_cases haddr : addr = 0
    · rw [if_pos haddr] at hr
      unfold mmap at hr
      by_cases hlen : alignUp size page.bytes = 0
      · rw [if_pos hlen] at hr
        cases hr
        have hback : (s.leave page ⟨alignUp size page.bytes, mapFailed, 0, 0⟩ (some ⟨"mmap", 22⟩)).2 = s :=
          (cleanup_mapFailed s _).trans (if_pos hlen)
        rw [hback]
        refine ⟨h, ?_⟩
        simp [RegionOp.areaFails, hlen]
      · rw [if_neg hlen] at hr
        cases hans : ans.area with
        | error e =>
          rw [hans] at hr
          cases hr
          have hfail : (s.leave page ⟨alignUp size page.bytes, mapFailed, 0, 0⟩ (some ⟨"mmap", e⟩)).2 =
              { s with asserts := false } := (cleanup_mapFailed s _).trans (if_neg hlen)
          rw [hfail]
          refine ⟨⟨h.mapped, h.unmaps, h.sound⟩, ?_⟩
          simp [RegionOp.areaFails, haddr, hlen, hans, Except.isOk, Except.toBool]
        | ok a =>
          rw [hans] at hr harea
          obtain ⟨q, hq, rfl⟩ := Option.map_eq_some_iff.mp hr
          have hregions : (Members.mk (alignUp size page.bytes) a 0 0).regions = [⟨a, alignUp size page.bytes⟩] := by
            rw [Members.regions_noRing rfl, Members.areaRegions, if_pos ⟨harea.2, Nat.pos_of_ne_zero hlen⟩]
          have hmap := (h.nothing (m := ⟨0, 0, 0, 0⟩) rfl).mapRegion (List.Perm.of_eq hregions) ⟨harea.1, hlen⟩
          obtain ⟨hholds, hasserts⟩ := Holds.register hmap rfl hring hq
          refine ⟨hholds, hasserts.trans ?_⟩
          simp [RegionOp.areaFails, hans, Except.isOk, Except.toBool]
    · rw [if_neg haddr] at hr
      obtain ⟨q, hq, rfl⟩ := Option.map_eq_some_iff.mp hr
      obtain ⟨hholds, hasserts⟩ := (h.nothing (m := ⟨0, addr, 0, 0⟩) (by
        rw [Members.regions_noRing rfl, Members.areaRegions, if_neg (fun h => Nat.lt_irrefl 0 h.2)])).register rfl hring hq
      refine ⟨hholds, hasserts.trans ?_⟩
      simp [RegionOp.areaFails, haddr]

/-! ## Runs -/

theorem step_holds (op : RegionOp) (h : s.Holds page s.live) (hs : s.step page op = some s') :
    s'.Holds page s'.live ∧ s'.asserts = (s.asserts && !op.areaFails page) := by
  cases op with
  | construct area rqEntries ans =>
    obtain ⟨⟨harea, hring⟩, hs⟩ := Option.ite_none_right_eq_some.mp hs
    obtain ⟨r, hr, rfl⟩ := Option.map_eq_some_iff.mp hs
    exact construct_holds h harea hring hr
  | destroy j =>
    obtain ⟨m, hm, rfl⟩ := Option.map_eq_some_iff.mp hs
    obtain ⟨hj, rfl⟩ := List.getElem?_eq_some_iff.mp hm
    have hsplit : ({ s with live := s.live.eraseIdx j } : Regions).Holds page (s.live[j] :: s.live.eraseIdx j) := by
      obtain ⟨hmapped, hunmaps, hsound⟩ := h.perm (List.getElem_cons_eraseIdx_perm hj)
      exact ⟨hmapped, hunmaps, hsound⟩
    obtain ⟨hclean, hasserts⟩ := hsplit.cleanup
    exact ⟨hclean, hasserts.trans (Bool.and_true _).symm⟩

theorem init_holds : init.Holds page init.live where
  mapped := List.Perm.refl _
  unmaps := fun _ hm => absurd hm List.not_mem_nil
  sound := rfl

/-- Over every sequence of constructions and destructions, failed ones included, the mapped regions are those of the pools
that are alive, so that each is unmapped once and an area of the user never.  An assertion of `cleanup_` fails exactly if the
kernel refuses to map a nonempty area. -/
theorem regions_owned {ops : List RegionOp} (hrun : run (step page) init ops = some s) :
    s.stray = false ∧ s.mapped.Perm (s.live.flatMap Members.regions) ∧
      (s.asserts = false ↔ ∃ op ∈ ops, op.areaFails page = true) := by
  have hinv : ∀ (s : Regions) op t, s.Holds page s.live → s.step page op = some t → t.Holds page t.live :=
    fun _ op _ h hs => (step_holds op h hs).1
  have hi : s.Holds page s.live := run_inv (I := fun s => s.Holds page s.live) hinv ops init_holds hrun
  refine ⟨hi.sound, hi.mapped, fun hf => ?_, fun ⟨op, hop, hfails⟩ => ?_⟩
  · refine (run_origin (I := fun s => s.Holds page s.live) (K := fun s => s.asserts = false) hinv ?_ ops init_holds hrun
      hf).resolve_left Bool.noConfusion
    intro s op t h hs hK
    rw [(step_holds op h hs).2, Bool.and_eq_false_iff] at hK
    exact hK.imp_right fun hnot => by simpa using hnot
  · refine run_mark (I := fun s => s.Holds page s.live) (J := fun s => s.asserts = false) (G := fun _ _ => True) hinv ?_ ?_
      ops hop init_holds (along_of_forall ops _ fun _ _ _ => trivial) hrun
    · intro s t h hs
      rw [(step_holds op h hs).2, hfails, Bool.not_true, Bool.and_false]
    · intro s b t h hJ _ hs
      rw [(step_holds b h hs).2, hJ, Bool.false_and]

/-- A pool with its own area, a pool whose ring cannot be mapped, a pool in the user's memory, and the first is destroyed. -/
def threePools : List RegionOp :=
  [.construct (.memory 0 5000) 3 ⟨.ok 8192, 0, .ok 65536⟩, .construct (.memory 0 1) 1 ⟨.ok 16384, 0, .error 12⟩,
    .construct (.memory 40960 4096) 1 ⟨.error 12, 0, .ok 131072⟩, .destroy 0]

theorem regions_owned_three : ∃ s, run (step ⟨12, by decide, by decide⟩) init threePools = some s ∧
    s.stray = false ∧ s.mapped = [⟨131072, 8192⟩] := by
  have hmap : (run (step ⟨12, by decide, by decide⟩) init threePools).map Regions.mapped =
      some [⟨131072, 8192⟩] := by decide +kernel
  obtain ⟨s, hs, hmapped⟩ := Option.map_eq_some_iff.mp hmap
  exact ⟨s, hs, (regions_owned hs).1, hmapped⟩

end Regions

end Condy.Zcrx
