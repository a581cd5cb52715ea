import Phpco.CidRuns
import Phpco.Moves

/-!
# The search for a free position

`find_next_zero_bit` goes once round the page from the position after the mark
and stops at the first clear bit.  Only a mark of -1 is never met again, and as
long as `last_cid` is -1 nothing has been allocated.
-/

namespace Phpco
open CidAllocator

def positions (start len : ℕ) : List ℕ := (List.range len).map fun i => (start + i) % 0x8000

def zeroAt (m : Cidmap) (n : ℕ) : Bool := !bitAt m.page n

theorem positions_succ (start len : ℕ) :
    positions start (len + 1) = start % 0x8000 :: positions (start + 1) len := by
  rw [positions, List.range_succ_eq_map, List.map_cons, List.map_map, Nat.add_zero, positions]
  congr 1
  apply List.map_congr_left
  intro i _
  simp only [Function.comp_apply]
  congr 1
  omega

theorem positions_zero : positions 0 0x8000 = List.range 0x8000 := by
  conv_rhs => rw [← List.map_id (List.range 0x8000)]
  apply List.map_congr_left
  intro i hi
  have hlt := List.mem_range.mp hi
  simp only [id_eq]
  omega

/-- Away from the mark the loop stops at the first clear position, or it goes past all of them. -/
theorem findLoop_eq_find {m : Cidmap} {mark : ℤ} {start fuel : ℕ} (len : ℕ) (hfuel : len < fuel)
    (hmark : ∀ i < len, (((start + i) % 0x8000 : ℕ) : ℤ) ≠ mark) :
    findLoop m mark fuel ((start % 0x8000 : ℕ) : ℤ) =
      match (positions start len).find? (zeroAt m) with
      | some k => some (k : ℤ)
      | none => findLoop m mark (fuel - len) (((start + len) % 0x8000 : ℕ) : ℤ) := by
  induction len generalizing start fuel with
  | zero => rfl
  | succ len ih =>
    obtain ⟨fuel, rfl⟩ : ∃ n, fuel = n + 1 := ⟨fuel - 1, by omega⟩
    have hfirst : ((start % 0x8000 : ℕ) : ℤ) ≠ mark := hmark 0 (Nat.succ_pos _)
    have hnext : (((start % 0x8000 : ℕ) : ℤ) + 1) % 0x8000 = ((start + 1) % 0x8000 : ℕ) := by omega
    rw [positions_succ, List.find?_cons, findLoop, if_neg hfirst, Cidmap.word_natCast, hnext]
    cases hz : zeroAt m (start % 0x8000) with
    | true =>
      have hb : bitAt m.page (start % 0x8000) = false := by simpa [zeroAt] using hz
      rw [if_pos ((not_and_bitMask_ne_zero _ _).mpr hb)]
    | false =>
      have hb : ¬ bitAt m.page (start % 0x8000) = false := by simpa [zeroAt] using hz
      rw [if_neg (mt (not_and_bitMask_ne_zero _ _).mp hb), ih (by omega) fun i hi => ?_]
      · have hsub : fuel + 1 - (len + 1) = fuel - len := by omega
        have hadd : start + 1 + len = start + (len + 1) := by omega
        rw [hsub, hadd]
      · have hadd : start + 1 + i = start + (i + 1) := by omega
        rw [hadd]
        exact hmark (i + 1) (by omega)

theorem findNextZeroBit_natCast (m : Cidmap) {c : ℕ} (hc : c < 0x8000) :
    findNextZeroBit m c =
      some ((((positions (c + 1) 0x7fff).find? (zeroAt m)).getD c : ℕ) : ℤ) := by
  have hstart : ((c : ℤ) + 1) % 0x8000 = ((c + 1) % 0x8000 : ℕ) := by omega
  rw [findNextZeroBit, hstart, findLoop_eq_find 0x7fff (by omega) fun i hi => by omega]
  cases (positions (c + 1) 0x7fff).find? (zeroAt m) with
  | some k => rfl
  | none =>
    have hback : (((c + 1 + 0x7fff) % 0x8000 : ℕ) : ℤ) = c := by omega
    simp only [hback, Option.getD_none]
    rw [findLoop, if_pos rfl]

theorem findNextZeroBit_neg_one {m : Cidmap} {k : ℕ}
    (hk : (List.range 0x8000).find? (zeroAt m) = some k) : findNextZeroBit m (-1) = some (k : ℤ) := by
  have h : findNextZeroBit m (-1) = _ :=
    @findLoop_eq_find m (-1) 0 0x8001 0x8000 (by omega) fun i _ => by omega
  rw [positions_zero, hk] at h
  exact h

theorem held_of_freeCidmap {a : CidAllocator} {cid : ℤ} {n : ℕ}
    (h : (freeCidmap cid a).held n = true) : a.held n = true := by
  by_cases hcid : cid - 1 < 0
  · have hpage : (freeCidmap cid a).cidmap.page = a.cidmap.page := by
      simp only [freeCidmap, clearBit, Cidmap.setWord]
      rw [if_pos (by omega)]
    rwa [held, hpage] at h
  · obtain ⟨k, hk⟩ := Int.eq_ofNat_of_zero_le (not_lt.mp hcid)
    obtain rfl : cid = k + 1 := by omega
    rw [held_freeCidmap] at h
    split_ifs at h
    exact h

/-- The cursor is -1 only before the first cid is taken. -/
structure Cursor (a : CidAllocator) : Prop where
  range : -1 ≤ a.lastCid ∧ a.lastCid < 0x8000
  clear : a.lastCid = -1 → ∀ n, a.held n = false

theorem cursor_initial : Cursor .initial := by
  refine ⟨by decide, fun _ n => ?_⟩
  simp [held, CidAllocator.initial, bitAt]

theorem Cursor.free {a : CidAllocator} (h : Cursor a) (cid : ℤ) : Cursor (freeCidmap cid a) := by
  refine ⟨h.range, fun hlast n => ?_⟩
  by_contra hheld
  rw [Bool.not_eq_false] at hheld
  cases (h.clear hlast n).symm.trans (held_of_freeCidmap hheld)

/-- A failed allocation leaves the cursor where it was. -/
theorem lastCid_of_alloc_fails {a a' : CidAllocator} (h : allocCidmap a = some (-1, a')) :
    a'.lastCid = a.lastCid := by
  unfold allocCidmap at h
  split_ifs at h
  · cases h
    rfl
  · cases hf : findNextZeroBit a.cidmap a.lastCid with
    | none => simp [hf] at h
    | some c =>
      have hc := (findNextZeroBit_range hf).1
      simp only [hf] at h
      split_ifs at h
      · have hcid := congrArg Prod.fst (Option.some.inj h)
        simp only at hcid
        omega
      · cases h
        rfl

theorem Cursor.alloc {a a' : CidAllocator} {cid : ℤ} (h : Cursor a)
    (ha : allocCidmap a = some (cid, a')) : Cursor a' := by
  obtain ⟨rfl, hheld⟩ | ⟨n, hn, _, _, _, _, _, hlast⟩ := allocCidmap_cases ha
  · have hlast := lastCid_of_alloc_fails ha
    refine ⟨hlast ▸ h.range, fun hcursor n => ?_⟩
    rw [hheld n]
    exact h.clear (hlast ▸ hcursor) n
  · exact ⟨by omega, by omega⟩

/-- Only `alloc_cidmap` and `free_cidmap` change the allocator. -/
theorem cids_step {s s' : State} {a : Action} (hr : TableWf s.rg) (h : step s a = .ok s') :
    s'.cids = s.cids ∨ (∃ cid, allocCidmap s.cids = some (cid, s'.cids)) ∨
      ∃ cid, s'.cids = freeCidmap cid s.cids := by
  cases step_move hr h with
  | quiet hq _ _ => exact .inl hq.cids
  | enterLoop _ _ _ hq _ => exact .inl hq.cids
  | loop _ _ _ hq _ _ _ _ => exact .inl hq.cids
  | leaveLoop _ _ hq _ _ _ => exact .inl hq.cids
  | invoke l l' stack fd ev c v _ _ _ _ _ hres => exact .inl (unswitched_cCoroResume hres).cids
  | create site slots callback _ _ hc =>
    obtain ⟨cid, cids, ha, ⟨_, _, ht⟩ | ⟨_, hj⟩⟩ := coroutineCreate_cases hc
    · obtain ⟨buf, tasks, _, _, rfl⟩ := coroutineCreateTail_cases (by decide) ht
      rw [ensureInit_cids] at ha
      exact .inr (.inl ⟨cid, ha⟩)
    · obtain ⟨buf, _, _, rfl⟩ := setjmp_eq_ok.mp hj
      rw [ensureInit_cids] at ha
      exact .inr (.inl ⟨cid, ha⟩)
  | resume site arg c _ _ _ _ hres => exact .inl (unswitched_cCoroResume hres).cids
  | yield site s₁ _ _ hy hc =>
    obtain ⟨t, task, _, _, _, rfl⟩ := coroutineYield_cases hy
    exact .inl (unswitched_coroYield hc).1.cids
  | block fd c s₁ _ _ _ hb hc => exact .inl ((unswitched_coroYield hc).1.cids.trans hb.cids)
  | finish x stack base s₁ _ _ _ hc hret =>
    obtain ⟨t, task, retval, _, _, _, rfl⟩ := coroClose_eq_ok.mp hc
    exact .inr (.inr ⟨task.cid, (unswitched_returnFrom (by decide) hret).1.cids⟩)

/-- Also in a run that frees cid -1. -/
theorem cursor_of_reached {ok : State → Action → Prop} {s : State} (h : Reached ok s) :
    Cursor s.cids := by
  apply h.invariant_of (I := fun s => Cursor s.cids)
  · rintro s ⟨_, _, _, _, rfl⟩
    exact cursor_initial
  · intro s a s' hreach hc _ hstep
    obtain hsame | ⟨cid, ha⟩ | ⟨cid, hf⟩ := cids_step (tableWf_of_reached hreach) hstep
    · rwa [hsame]
    · exact hc.alloc ha
    · rw [hf]
      exact hc.free cid

theorem exists_zeroAt {m : Cidmap} {n : ℕ} (hn : n < 0x8000) (hz : bitAt m.page n = false) :
    ∃ k, (List.range 0x8000).find? (zeroAt m) = some k := by
  apply Option.isSome_iff_exists.mp
  rw [List.find?_isSome]
  exact ⟨n, List.mem_range.mpr hn, by simp [zeroAt, hz]⟩

/-- From a position of the page `find_next_zero_bit` yields the first clear position round the
circle, and the position itself if there is no other.  From -1 it yields the least clear position,
and there is one whenever `alloc_cidmap` searches from -1, as there is in any case when only
allocated cids are freed. -/
theorem find_next_zero_bit_finds_first :
    (∀ (m : Cidmap) (c : ℕ), c < 0x8000 → findNextZeroBit m c =
      some ((((positions (c + 1) 0x7fff).find? (zeroAt m)).getD c : ℕ) : ℤ)) ∧
    (∀ (m : Cidmap) (n : ℕ), n < 0x8000 → bitAt m.page n = false →
      ∃ k : ℕ, (List.range 0x8000).find? (zeroAt m) = some k ∧ findNextZeroBit m (-1) = some (k : ℤ)) ∧
    (∀ (ok : State → Action → Prop) (s : State), Reached ok s →
      (-1 ≤ s.cids.lastCid ∧ s.cids.lastCid < 0x8000) ∧
      (s.cids.cidmap.nrFree ≠ 0 → s.cids.lastCid = -1 →
        ∃ n < 0x8000, bitAt s.cids.cidmap.page n = false)) ∧
    ∀ s : CidRun, CidReached s → s.allocator.cidmap.nrFree ≠ 0 →
      ∃ n < 0x8000, bitAt s.allocator.cidmap.page n = false := by
  refine ⟨fun m c hc => findNextZeroBit_natCast m hc, fun m n hn hz => ?_, fun ok s hs => ?_,
    fun s hs hfree => (mapped_of_reached hs).counts.exists_free hfree⟩
  · obtain ⟨k, hk⟩ := exists_zeroAt hn hz
    exact ⟨k, hk, findNextZeroBit_neg_one hk⟩
  · have hcursor := cursor_of_reached hs
    exact ⟨hcursor.range, fun _ hlast => ⟨0, by decide, hcursor.clear hlast 0⟩⟩

theorem find_next_zero_bit_finds_first_taken : ∃ s,
    Transition.runFrom cidStep ⟨.initial, []⟩ [.alloc, .alloc, .alloc] = .ok s ∧
    findNextZeroBit s.allocator.cidmap 0 = some 3 ∧
    findNextZeroBit s.allocator.cidmap (-1) = some 3 ∧
    ∃ n < 0x8000, bitAt s.allocator.cidmap.page n = false := by
  obtain ⟨s, hrun, hs, hp⟩ := exists_cidReached [.alloc, .alloc, .alloc]
    (fun s => zeroAt s.allocator.cidmap 0 = false ∧ zeroAt s.allocator.cidmap 1 = false ∧
      zeroAt s.allocator.cidmap 2 = false ∧ zeroAt s.allocator.cidmap 3 = true ∧
      s.allocator.cidmap.nrFree ≠ 0) (by decide +kernel)
  obtain ⟨h0, h1, h2, h3, hfree⟩ := of_decide_eq_true hp
  obtain ⟨hfrom, hleast, _, hexists⟩ := find_next_zero_bit_finds_first
  obtain ⟨n, hn, hz⟩ := hexists s hs hfree
  obtain ⟨k, hk, hstart⟩ := hleast s.allocator.cidmap n hn hz
  refine ⟨s, hrun, ?_, ?_, n, hn, hz⟩
  · rw [← Nat.cast_zero, hfrom s.allocator.cidmap 0 (by decide), positions_succ, List.find?_cons,
      positions_succ, List.find?_cons, positions_succ, List.find?_cons]
    simp [h1, h2, h3]
  · rw [← positions_zero, positions_succ, List.find?_cons, positions_succ, List.find?_cons,
      positions_succ, List.find?_cons, positions_succ, List.find?_cons] at hk
    simp [h0, h1, h2, h3] at hk
    rw [hstart, ← hk]
    rfl

end Phpco
