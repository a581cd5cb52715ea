import Mathlib.Data.Int.Interval
import Phpco.Cidmap
import Phpco.Engine
import Phpco.NextFit
import Phpco.Transition

namespace Phpco

open NextFit (ahead busy start Sweeping)

inductive CidCall
  | alloc (cid : ℤ)
  | free (cid : ℤ)
  deriving DecidableEq

/-- The cids returned and not freed since, by the calls so far, newest first. -/
def allocated : List CidCall → Finset ℤ
  | [] => ∅
  | .alloc cid :: calls => if cid = -1 then allocated calls else insert cid (allocated calls)
  | .free cid :: calls => (allocated calls).erase cid

inductive CidRequest
  | alloc
  | free (cid : ℤ)

structure CidRun where
  allocator : CidAllocator
  calls : List CidCall

def cidStep (s : CidRun) : CidRequest → Except Halt CidRun
  | .alloc =>
    match allocCidmap s.allocator with
    | none => .error .diverges
    | some (cid, allocator) => .ok ⟨allocator, .alloc cid :: s.calls⟩
  | .free cid => .ok ⟨freeCidmap cid s.allocator, .free cid :: s.calls⟩

def FreesAllocated (s : CidRun) (r : CidRequest) : Prop :=
  ∀ cid, r = .free cid → cid ∈ allocated s.calls

abbrev CidReached : CidRun → Prop :=
  Transition.Reachable cidStep (fun s => s = ⟨.initial, []⟩) FreesAllocated

/-- Bit `cid - 1` is set exactly when `cid` is allocated, no other bit of the page is, and
`nr_free` counts the other cids. -/
structure CidmapLaw (s : CidRun) : Prop where
  bits : ∀ n : ℕ, bitAt s.allocator.cidmap.page n = true ↔ (n : ℤ) + 1 ∈ allocated s.calls
  range : ∀ cid ∈ allocated s.calls, 1 ≤ cid ∧ cid ≤ 32768
  nrFree : s.allocator.cidmap.nrFree + (allocated s.calls).card = 32768

/-- The law of the page, with the counter as the page counts it. -/
structure Mapped (s : CidRun) : Prop where
  counts : s.allocator.Counts
  bits : ∀ n : ℕ, s.allocator.held n = true ↔ (n : ℤ) + 1 ∈ allocated s.calls
  range : ∀ cid ∈ allocated s.calls, 1 ≤ cid ∧ cid ≤ 32768

theorem Mapped.allocated_eq {s : CidRun} (h : Mapped s) :
    allocated s.calls = s.allocator.heldSet.image fun n : ℕ => (n : ℤ) + 1 := by
  ext cid
  simp only [Finset.mem_image, CidAllocator.mem_heldSet]
  constructor
  · intro hcid
    have hr := h.range cid hcid
    have hn : ((cid - 1).toNat : ℤ) + 1 = cid := by omega
    exact ⟨(cid - 1).toNat, ⟨by omega, (h.bits _).mpr (hn.symm ▸ hcid)⟩, hn⟩
  · rintro ⟨n, ⟨_, hheld⟩, rfl⟩
    exact (h.bits n).mp hheld

theorem Mapped.cidmapLaw {s : CidRun} (h : Mapped s) : CidmapLaw s where
  bits := h.bits
  range := h.range
  nrFree := by
    have hinj : Function.Injective fun n : ℕ => (n : ℤ) + 1 := by
      intro a b hab
      exact Int.natCast_inj.mp (add_right_cancel hab)
    rw [h.allocated_eq, Finset.card_image_of_injective _ hinj]
    exact h.counts.nrFree

theorem mapped_initial : Mapped ⟨.initial, []⟩ where
  counts := CidAllocator.initial_counts
  bits := by simp [allocated, CidAllocator.held, CidAllocator.initial, bitAt]
  range := by simp [allocated]

/-- What `alloc_cidmap` does in a run: it fails if nothing is free and changes nothing, or it
takes a free cid. -/
theorem Mapped.alloc_cases {s : CidRun} (h : Mapped s) :
    (s.allocator.cidmap.nrFree = 0 ∧ allocCidmap s.allocator = some (-1, s.allocator)) ∨
    ∃ n : ℕ, ∃ a, n < 0x8000 ∧ allocCidmap s.allocator = some ((n : ℤ) + 1, a) ∧
      (n : ℤ) + 1 ∉ allocated s.calls ∧ Mapped ⟨a, .alloc (n + 1) :: s.calls⟩ := by
  by_cases hfree : s.allocator.cidmap.nrFree = 0
  · exact .inl ⟨hfree, by rw [allocCidmap, if_pos hfree]⟩
  · right
    obtain ⟨n, hn, a, ha⟩ := h.counts.alloc hfree
    obtain ⟨hm, _⟩ | ⟨k, hk, hkn, hz, _, hheld, _⟩ := allocCidmap_cases ha
    · omega
    · have hkn : k = n := by omega
      subst hkn
      -- the position was clear, so the cid is not allocated
      have hnew : (k : ℤ) + 1 ∉ allocated s.calls := by
        rw [← h.bits k, hz]
        exact Bool.false_ne_true
      have hcid : (k : ℤ) + 1 ≠ -1 := by omega
      refine ⟨k, a, hk, ha, hnew, ⟨(h.counts.alloc_counts hfree ha).1, ?_, ?_⟩⟩
      · intro n
        simp only [allocated, if_neg hcid, Finset.mem_insert, hheld, ← h.bits n]
        by_cases hnk : n = k
        · simp [hnk]
        · have hne : (n : ℤ) + 1 ≠ k + 1 := by omega
          simp [hnk, hne]
      · intro cid hmem
        simp only [allocated, if_neg hcid, Finset.mem_insert] at hmem
        rcases hmem with rfl | hmem
        · omega
        · exact h.range cid hmem

theorem Mapped.free {s : CidRun} (h : Mapped s) {cid : ℤ} (hcid : cid ∈ allocated s.calls) :
    Mapped ⟨freeCidmap cid s.allocator, .free cid :: s.calls⟩ := by
  have hr := h.range cid hcid
  obtain ⟨n, rfl⟩ : ∃ n : ℕ, cid = n + 1 := ⟨(cid - 1).toNat, by omega⟩
  refine ⟨h.counts.free (by omega) ((h.bits n).mpr hcid), ?_, ?_⟩
  · intro k
    simp only [allocated, Finset.mem_erase, held_freeCidmap, ← h.bits k]
    by_cases hk : k = n
    · simp [hk]
    · have hne : (k : ℤ) + 1 ≠ n + 1 := by omega
      simp [hk, hne]
  · intro d hd
    exact h.range d (Finset.mem_of_mem_erase hd)

theorem Mapped.step_cases {s s' : CidRun} {r : CidRequest} (h : Mapped s)
    (hok : FreesAllocated s r) (hstep : cidStep s r = .ok s') :
    (s.allocator.cidmap.nrFree = 0 ∧ s' = ⟨s.allocator, .alloc (-1) :: s.calls⟩) ∨
    (∃ n : ℕ, ∃ a, n < 0x8000 ∧ allocCidmap s.allocator = some ((n : ℤ) + 1, a) ∧
      s' = ⟨a, .alloc (n + 1) :: s.calls⟩ ∧ Mapped s') ∨
    ∃ cid ∈ allocated s.calls, s' = ⟨freeCidmap cid s.allocator, .free cid :: s.calls⟩ := by
  cases r with
  | alloc =>
    simp only [cidStep] at hstep
    obtain ⟨hfree, ha⟩ | ⟨n, a, hn, ha, _, hm⟩ := h.alloc_cases
    · rw [ha] at hstep
      cases hstep
      exact .inl ⟨hfree, rfl⟩
    · rw [ha] at hstep
      cases hstep
      exact .inr (.inl ⟨n, a, hn, ha, rfl, hm⟩)
  | free cid =>
    cases hstep
    exact .inr (.inr ⟨cid, hok cid rfl, rfl⟩)

theorem mapped_step {s s' : CidRun} {r : CidRequest} (h : Mapped s) (hok : FreesAllocated s r)
    (hstep : cidStep s r = .ok s') : Mapped s' := by
  obtain ⟨_, rfl⟩ | ⟨n, a, _, _, _, hm⟩ | ⟨cid, hcid, rfl⟩ := h.step_cases hok hstep
  · exact ⟨h.counts, h.bits, h.range⟩
  · exact hm
  · exact h.free hcid

theorem mapped_of_reached {s : CidRun} (h : CidReached s) : Mapped s :=
  h.invariant (fun _ hs => hs ▸ mapped_initial) fun _ _ _ hm hok hstep => mapped_step hm hok hstep

theorem Mapped.all_of_full {s : CidRun} (h : Mapped s) (hfree : s.allocator.cidmap.nrFree = 0)
    (c : ℤ) (h1 : 1 ≤ c) (h2 : c ≤ 32768) : c ∈ allocated s.calls := by
  have hcard : (allocated s.calls).card = 32768 := by
    have hsum := h.cidmapLaw.nrFree
    omega
  have hsub : allocated s.calls ⊆ Finset.Icc 1 32768 := fun c hc =>
    Finset.mem_Icc.mpr (h.range c hc)
  have hall : allocated s.calls = Finset.Icc 1 32768 := by
    apply Finset.eq_of_subset_of_card_le hsub
    rw [hcard, Int.card_Icc]
    rfl
  rw [hall]
  exact Finset.mem_Icc.mpr ⟨h1, h2⟩

/-- The law holds in every run, and the next `alloc_cidmap` terminates: it returns a cid that is
not allocated, or it returns -1 because all are, and then it changes nothing. -/
theorem cidmap_lawful {s : CidRun} (h : CidReached s) :
    CidmapLaw s ∧ ∃ cid a, allocCidmap s.allocator = some (cid, a) ∧
      (cid = -1 ↔ ∀ c, 1 ≤ c → c ≤ 32768 → c ∈ allocated s.calls) ∧
      (cid = -1 → a = s.allocator) ∧
      (cid ≠ -1 → 1 ≤ cid ∧ cid ≤ 32768 ∧ cid ∉ allocated s.calls) := by
  have hm := mapped_of_reached h
  refine ⟨hm.cidmapLaw, ?_⟩
  obtain ⟨hfree, ha⟩ | ⟨n, a, hn, ha, hnew, _⟩ := hm.alloc_cases
  · exact ⟨-1, s.allocator, ha, ⟨fun _ => hm.all_of_full hfree, fun _ => rfl⟩, fun _ => rfl,
      fun hne => absurd rfl hne⟩
  · refine ⟨n + 1, a, ha, ⟨fun hcid => ?_, fun hall => ?_⟩, fun hcid => ?_, fun _ => ?_⟩
    · omega
    · exact absurd (hall _ (by omega) (by omega)) hnew
    · omega
    · exact ⟨by omega, by omega, hnew⟩

def freesAllocated (s : CidRun) : CidRequest → Bool
  | .alloc => true
  | .free cid => decide (cid ∈ allocated s.calls)

theorem freesAllocated_of_test {s : CidRun} {r : CidRequest} (h : freesAllocated s r = true) :
    FreesAllocated s r := by
  rintro cid rfl
  exact of_decide_eq_true h

theorem exists_cidReached (rs : List CidRequest) (p : CidRun → Bool)
    (h : Transition.leadsTo cidStep freesAllocated p ⟨.initial, []⟩ rs = true) :
    ∃ s, Transition.runFrom cidStep ⟨.initial, []⟩ rs = .ok s ∧ CidReached s ∧ p s = true :=
  Transition.exists_reachable_of_leadsTo (.init rfl) (fun _ _ => freesAllocated_of_test) h

theorem cidmap_lawful_freed : ∃ s cid a,
    Transition.runFrom cidStep ⟨.initial, []⟩ [.alloc, .alloc, .free 1] = .ok s ∧
    s.calls = [.free 1, .alloc 2, .alloc 1] ∧ CidmapLaw s ∧
    allocCidmap s.allocator = some (cid, a) ∧ cid ∉ allocated s.calls := by
  obtain ⟨s, hrun, hs, hp⟩ := exists_cidReached [.alloc, .alloc, .free 1]
    (fun s => s.calls = [.free 1, .alloc 2, .alloc 1]) (by decide)
  have hcalls := of_decide_eq_true hp
  obtain ⟨hlaw, cid, a, ha, hfull, _, hnew⟩ := cidmap_lawful hs
  have hone : (1 : ℤ) ∉ allocated s.calls := by
    rw [hcalls]
    decide
  refine ⟨s, cid, a, hrun, hcalls, hlaw, ha, (hnew fun hcid => ?_).2.2⟩
  exact hone (hfull.mp hcid 1 (by omega) (by omega))

/-- The loop steps over positions that are set. -/
theorem findLoop_skips {m : Cidmap} {mark : ℤ} {fuel cid c q : ℕ} (hcid : cid < 0x8000)
    (hc : c < 0x8000) (hq : q < 0x8000) (h : findLoop m mark fuel cid = some (c : ℤ))
    (hd : ahead 0x8000 cid q < ahead 0x8000 cid c) : bitAt m.page q = true := by
  induction fuel generalizing cid with
  | zero => simp [findLoop] at h
  | succ fuel ih =>
    have hne : c ≠ cid := by
      rintro rfl
      simp [ahead] at hd
    unfold findLoop at h
    rw [Cidmap.word_natCast] at h
    split_ifs at h with hm hb
    · cases h
      exact absurd rfl hne
    · cases h
      exact absurd rfl hne
    · by_cases hqc : q = cid
      · rw [not_and_bitMask_ne_zero, Bool.not_eq_false] at hb
        exact hqc ▸ hb
      · have hnext : ((cid : ℤ) + 1) % 0x8000 = ((cid + 1) % 0x8000 : ℕ) := by omega
        rw [hnext] at h
        apply ih (Nat.mod_lt _ (by decide)) h
        unfold ahead at *
        split_ifs at * <;> omega

theorem findNextZeroBit_skips {m : Cidmap} {mark : ℤ} {n c q : ℕ} (hmark : mark + 1 = n)
    (hn : n ≤ 0x8000) (hc : c < 0x8000) (hq : q < 0x8000)
    (h : findNextZeroBit m mark = some (c : ℤ))
    (hd : ahead 0x8000 n q < ahead 0x8000 n c) : bitAt m.page q = true := by
  have hfirst : (mark + 1) % 0x8000 = (n % 0x8000 : ℕ) := by omega
  rw [findNextZeroBit, hfirst] at h
  apply findLoop_skips (Nat.mod_lt _ (by decide)) hc hq h
  unfold ahead at *
  split_ifs at * <;> omega

/-- `alloc_cidmap` takes the position the search found. -/
theorem allocCidmap_search {a a' : CidAllocator} {n : ℕ}
    (h : allocCidmap a = some ((n : ℤ) + 1, a')) :
    findNextZeroBit a.cidmap a.lastCid = some (n : ℤ) ∧ a'.lastCid = n := by
  unfold allocCidmap at h
  split_ifs at h
  · have h := congrArg Prod.fst (Option.some.inj h)
    simp only at h
    omega
  · cases hf : findNextZeroBit a.cidmap a.lastCid with
    | none => simp [hf] at h
    | some c =>
      simp only [hf] at h
      split_ifs at h
      · simp only [Option.some.injEq, Prod.mk.injEq] at h
        obtain ⟨hc, rfl⟩ := h
        have hc : c = n := by omega
        exact ⟨congrArg some hc, hc⟩
      · have h := congrArg Prod.fst (Option.some.inj h)
        simp only at h
        omega

def CidCall.place : CidCall → NextFit.Event
  | .alloc cid => if cid = -1 then .refused else .taken (cid - 1).toNat
  | .free cid => .released (cid - 1).toNat

def CidCall.InRange : CidCall → Prop
  | .alloc cid => cid = -1 ∨ 1 ≤ cid ∧ cid ≤ 32768
  | .free cid => 1 ≤ cid ∧ cid ≤ 32768

theorem mem_busy_places {calls : List CidCall} (h : ∀ call ∈ calls, call.InRange) (n : ℕ) :
    n ∈ busy (calls.map CidCall.place) ↔ (n : ℤ) + 1 ∈ allocated calls := by
  induction calls with
  | nil => simp [busy, allocated]
  | cons call calls ih =>
    have ih := ih fun call hmem => h call (List.mem_cons_of_mem _ hmem)
    have hcall := h call List.mem_cons_self
    cases call with
    | alloc cid =>
      by_cases hcid : cid = -1
      · simp only [List.map_cons, CidCall.place, allocated, if_pos hcid, busy]
        exact ih
      · have hr : 1 ≤ cid ∧ cid ≤ 32768 := hcall.resolve_left hcid
        have heq : n = (cid - 1).toNat ↔ (n : ℤ) + 1 = cid := by omega
        simp only [List.map_cons, CidCall.place, allocated, if_neg hcid, busy, Finset.mem_insert,
          ih, heq]
    | free cid =>
      have hr : 1 ≤ cid ∧ cid ≤ 32768 := hcall
      have heq : n = (cid - 1).toNat ↔ (n : ℤ) + 1 = cid := by omega
      simp only [List.map_cons, CidCall.place, allocated, busy, Finset.mem_erase, ih, ne_eq, heq]

/-- A run of the allocator is a history of next-fit allocation, and `last_cid` is its cursor. -/
structure Fits (s : CidRun) : Prop where
  inRange : ∀ call ∈ s.calls, call.InRange
  sweeping : Sweeping 0x8000 (s.calls.map CidCall.place)
  cursor : s.allocator.lastCid + 1 = start (s.calls.map CidCall.place)

theorem fits_initial : Fits ⟨.initial, []⟩ where
  inRange := by simp
  sweeping := .nil
  cursor := rfl

theorem fits_step {s s' : CidRun} {r : CidRequest} (h : Fits s) (hm : Mapped s)
    (hok : FreesAllocated s r) (hstep : cidStep s r = .ok s') : Fits s' := by
  obtain ⟨_, rfl⟩ | ⟨n, a, hn, ha, rfl, _⟩ | ⟨cid, hcid, rfl⟩ := hm.step_cases hok hstep
  · refine ⟨?_, h.sweeping.refused, h.cursor⟩
    intro call hmem
    rcases List.mem_cons.mp hmem with rfl | hmem
    · exact .inl rfl
    · exact h.inRange call hmem
  · obtain ⟨hfind, hlast⟩ := allocCidmap_search ha
    have hplace : (CidCall.alloc (n + 1)).place = .taken n := by
      have hpos : (n : ℤ) + 1 ≠ -1 := by omega
      have hsub : ((n : ℤ) + 1 - 1).toNat = n := by omega
      simp only [CidCall.place, if_neg hpos, hsub]
    have hcursor := hm.counts.lastCid
    have hstart := h.cursor
    refine ⟨?_, ?_, ?_⟩
    · intro call hmem
      rcases List.mem_cons.mp hmem with rfl | hmem
      · exact .inr ⟨by omega, by omega⟩
      · exact h.inRange call hmem
    · rw [List.map_cons, hplace]
      -- `find_next_zero_bit` starts behind `last_cid` and skips set bits only
      apply Sweeping.taken h.sweeping hn
      intro q hq hd
      rw [mem_busy_places h.inRange, ← hm.bits q]
      exact findNextZeroBit_skips hstart (by omega) hn hq hfind hd
    · rw [List.map_cons, hplace]
      simp [start, hlast]
  · have hr := hm.range cid hcid
    refine ⟨?_, h.sweeping.released, h.cursor⟩
    intro call hmem
    rcases List.mem_cons.mp hmem with rfl | hmem
    · exact hr
    · exact h.inRange call hmem

theorem fits_of_reached {s : CidRun} (h : CidReached s) : Fits s :=
  h.invariant_of (fun _ hs => hs ▸ fits_initial) fun _ _ _ hr hf hok hstep =>
    fits_step hf (mapped_of_reached hr) hok hstep

/-- Cid `d` was allocated at a moment from `calls₁` on and up to `calls₂`. -/
def AllocatedBetween (calls₁ calls₂ : List CidCall) (d : ℤ) : Prop :=
  ∃ calls, calls₁ <:+ calls ∧ calls <:+ calls₂ ∧ d ∈ allocated calls

/-- Between two calls of `alloc_cidmap` that return `c`, every other cid is allocated at some
moment. -/
theorem cid_reuse_sweeps {s : CidRun} (h : CidReached s) {post mid pre : List CidCall} {c d : ℤ}
    (hcalls : s.calls = post ++ .alloc c :: (mid ++ .alloc c :: pre)) (hc : c ≠ -1)
    (hd : 1 ≤ d ∧ d ≤ 32768) (hne : d ≠ c) :
    AllocatedBetween (.alloc c :: pre) (mid ++ .alloc c :: pre) d := by
  have hf := fits_of_reached h
  have hin := hf.inRange
  have hsweep := hf.sweeping
  rw [hcalls] at hin hsweep
  have hcr : 1 ≤ c ∧ c ≤ 32768 := (hin (.alloc c) (by simp)).resolve_left hc
  have hplace : (CidCall.alloc c).place = .taken (c - 1).toNat := if_neg hc
  rw [List.map_append] at hsweep
  have hlast := hsweep.of_suffix (List.suffix_append _ _)
  rw [List.map_cons, hplace] at hlast
  have hfirst : .taken (c - 1).toNat :: pre.map CidCall.place <:+
      (mid ++ .alloc c :: pre).map CidCall.place := by
    rw [List.map_append, List.map_cons, hplace]
    exact List.suffix_append _ _
  -- on the places of the cids this is a fact about next-fit allocation
  obtain ⟨hist, h1, h2, hbusy⟩ := NextFit.busyBetween_of_taken_twice hlast hfirst
    (show (d - 1).toNat < 0x8000 by omega) (by omega)
  obtain ⟨calls, hsuf, rfl⟩ := List.suffix_map_iff.mp h2
  have hlen := h1.length_le
  simp only [List.length_cons, List.length_map] at hlen
  refine ⟨calls, List.suffix_of_suffix_length_le (List.suffix_append _ _) hsuf ?_, hsuf, ?_⟩
  · simpa using hlen
  · have hall : ∀ call ∈ calls, call.InRange := fun call hmem =>
      hin call (List.mem_append_right _ (List.mem_cons_of_mem _ (hsuf.subset hmem)))
    have hd' : ((d - 1).toNat : ℤ) + 1 = d := by omega
    rw [mem_busy_places hall, hd'] at hbusy
    exact hbusy

def fills : ℕ → List CidCall
  | 0 => []
  | k + 1 => .alloc (k + 1) :: fills k

theorem le_of_mem_fills {k : ℕ} {cid : ℤ} (h : cid ∈ allocated (fills k)) : cid ≤ k := by
  induction k with
  | zero => simp [fills, allocated] at h
  | succ k ih =>
    have hk : (k : ℤ) + 1 ≠ -1 := by omega
    simp only [fills, allocated, if_neg hk, Finset.mem_insert] at h
    rcases h with rfl | h
    · omega
    · have := ih h
      omega

theorem one_mem_fills (k : ℕ) : 1 ∈ allocated (fills (k + 1)) := by
  induction k with
  | zero => decide
  | succ k ih =>
    have hk : ((k + 1 : ℕ) : ℤ) + 1 ≠ -1 := by omega
    rw [fills, allocated, if_neg hk]
    exact Finset.mem_insert_of_mem ih

theorem fills_succ (k : ℕ) : ∃ mid, fills (k + 1) = mid ++ [.alloc 1] := by
  induction k with
  | zero => exact ⟨[], rfl⟩
  | succ k ih =>
    obtain ⟨mid, hmid⟩ := ih
    exact ⟨.alloc ((k + 1 : ℕ) + 1) :: mid, by rw [fills, hmid, List.cons_append]⟩

theorem Mapped.alloc_next {s : CidRun} (h : Mapped s) {k : ℕ} (hk : k < 0x8000)
    (hfree : (k : ℤ) + 1 ∉ allocated s.calls) {n : ℕ} (hn : s.allocator.lastCid + 1 = n)
    (hnk : n % 0x8000 = k) : ∃ a, cidStep s .alloc = .ok ⟨a, .alloc (k + 1) :: s.calls⟩ ∧
      a.lastCid = k := by
  obtain ⟨hfull, _⟩ | ⟨c, a, hc, ha, _, _⟩ := h.alloc_cases
  · exact absurd (h.all_of_full hfull _ (by omega) (by omega)) hfree
  · obtain ⟨hfind, hlast⟩ := allocCidmap_search ha
    have hck : c = k := by
      by_contra hne
      have hcursor := h.counts.lastCid
      apply hfree
      rw [← h.bits k]
      apply findNextZeroBit_skips hn (by omega) hc hk hfind
      unfold ahead
      split_ifs <;> omega
    subst hck
    exact ⟨a, by simp only [cidStep, ha], hlast⟩

theorem exists_filled {k : ℕ} (hk : k ≤ 0x8000) :
    ∃ a, CidReached ⟨a, fills k⟩ ∧ a.lastCid + 1 = k := by
  induction k with
  | zero => exact ⟨.initial, .init rfl, rfl⟩
  | succ k ih =>
    obtain ⟨a, hr, hlast⟩ := ih (by omega)
    have hfree : (k : ℤ) + 1 ∉ allocated (fills k) := by
      intro hmem
      have := le_of_mem_fills hmem
      omega
    obtain ⟨a', hstep, hlast'⟩ := (mapped_of_reached hr).alloc_next (by omega) hfree hlast
      (Nat.mod_eq_of_lt (by omega))
    have hok : FreesAllocated ⟨a, fills k⟩ .alloc := fun cid hcid => by cases hcid
    exact ⟨a', hr.next hok hstep, by omega⟩

theorem cid_reuse_sweeps_once_round : ∃ s mid, CidReached s ∧
    s.calls = [] ++ .alloc 1 :: (mid ++ .alloc 1 :: []) ∧
    AllocatedBetween [.alloc 1] (mid ++ .alloc 1 :: []) 2 := by
  obtain ⟨k, hk⟩ : ∃ k, k + 1 = 0x8000 := ⟨0x7fff, rfl⟩
  obtain ⟨a, hr, hlast⟩ := exists_filled (Nat.le_of_eq hk)
  have hr' := hr.next (a := .free 1) (fun cid hcid => by cases hcid; exact one_mem_fills k) rfl
  obtain ⟨a', hstep, _⟩ := (mapped_of_reached hr').alloc_next (k := 0) (by decide)
    (Finset.notMem_erase _ _) (n := k + 1) hlast (by omega)
  have hr'' := hr'.next (fun cid hcid => by cases hcid) hstep
  obtain ⟨mid, hmid⟩ := fills_succ k
  have hcalls : CidCall.alloc 1 :: .free 1 :: fills (k + 1) =
      [] ++ .alloc 1 :: ((.free 1 :: mid) ++ .alloc 1 :: []) := by
    rw [hmid]
    rfl
  exact ⟨_, .free 1 :: mid, hr'', hcalls, cid_reuse_sweeps hr'' hcalls (by decide) (by decide)
    (by decide)⟩

end Phpco
