import Mathlib.Algebra.Group.Nat.Defs
import Mathlib.Data.Finset.Card
import Mathlib.Data.Finset.Range
import Mathlib.Tactic.Set

/-!
# The cid bitmap

`alloc_cidmap` and `free_cidmap` of coroutine_util.c.  On a two's complement
`int`, `x & 0x1f` is `x % 32`, `x >> 5` is `x / 32` and `x & 0x7fff` is
`x % 0x8000`, all three rounding towards minus infinity as `ℤ` does.
-/

namespace Phpco

/-- `cidmap_t`; `page` is read as the `uint32_t` words its users address. -/
structure Cidmap where
  nrFree : ℕ
  page : ℕ → BitVec 32

structure CidAllocator where
  cidmap : Cidmap
  lastCid : ℤ

def CidAllocator.initial : CidAllocator := ⟨⟨0x8000, fun _ => 0⟩, -1⟩

namespace Cidmap

/-- `((uint32_t *) &cidmap.page)[i]`.  `nr_free` is the word just below the page. -/
def word (m : Cidmap) (i : ℤ) : BitVec 32 :=
  if i < 0 then BitVec.ofNat 32 m.nrFree else m.page i.toNat

def setWord (m : Cidmap) (i : ℤ) (w : BitVec 32) : Cidmap :=
  if i < 0 then { m with nrFree := w.toNat }
  else { m with page := Function.update m.page i.toNat w }

end Cidmap

def bitAt (page : ℕ → BitVec 32) (n : ℕ) : Bool := (page (n / 32)).getLsbD (n % 32)

def bitMask (cid : ℤ) : BitVec 32 := 1#32 <<< (cid % 32).toNat

def testAndSetBit (cid : ℤ) (m : Cidmap) : Bool × Cidmap :=
  let old := m.word (cid / 32)
  (old &&& bitMask cid == 0, m.setWord (cid / 32) (old ||| bitMask cid))

def clearBit (cid : ℤ) (m : Cidmap) : Cidmap :=
  m.setWord (cid / 32) (m.word (cid / 32) &&& ~~~bitMask cid)

/-- The loop of `find_next_zero_bit`; `none` when `fuel` rounds do not end it. -/
def findLoop (m : Cidmap) (mark : ℤ) : ℕ → ℤ → Option ℤ
  | 0, _ => none
  | fuel + 1, cid =>
    if cid = mark then some cid
    else if ~~~m.word (cid / 32) &&& bitMask cid ≠ 0 then some cid
    else findLoop m mark fuel ((cid + 1) % 0x8000)

/-- After one full round over the page and one step more the loop only repeats itself. -/
def findNextZeroBit (m : Cidmap) (cid : ℤ) : Option ℤ :=
  findLoop m cid 0x8001 ((cid + 1) % 0x8000)

/-- `none` is a search that never ends. -/
def allocCidmap (a : CidAllocator) : Option (ℤ × CidAllocator) :=
  if a.cidmap.nrFree = 0 then some (-1, a)
  else
    match findNextZeroBit a.cidmap a.lastCid with
    | none => none
    | some cid =>
      let (clear, m) := testAndSetBit cid a.cidmap
      if clear then some (cid + 1, ⟨{ m with nrFree := (m.nrFree + (2 ^ 32 - 1)) % 2 ^ 32 }, cid⟩)
      else some (-1, { a with cidmap := m })

def freeCidmap (cid : ℤ) (a : CidAllocator) : CidAllocator :=
  let m := { a.cidmap with nrFree := (a.cidmap.nrFree + 1) % 2 ^ 32 }
  { a with cidmap := clearBit (cid - 1) m }

theorem bitMask_natCast (n : ℕ) : bitMask n = BitVec.twoPow 32 (n % 32) := by
  have h : ((n : ℤ) % 32).toNat = n % 32 := by omega
  rw [bitMask, h]
  rfl

theorem and_bitMask_eq_zero (w : BitVec 32) (n : ℕ) :
    w &&& bitMask n = 0 ↔ w.getLsbD (n % 32) = false := by
  have hn : n % 32 < 32 := Nat.mod_lt _ (by decide)
  rw [bitMask_natCast]
  constructor
  · intro h
    have hb := congrArg (fun v : BitVec 32 => v.getLsbD (n % 32)) h
    simpa [BitVec.getLsbD_twoPow, hn] using hb
  · intro h
    apply BitVec.eq_of_getLsbD_eq
    intro i hi
    by_cases hin : i = n % 32
    · subst hin
      simp [h]
    · simp [BitVec.getLsbD_twoPow, Ne.symm hin]

theorem not_and_bitMask_ne_zero (w : BitVec 32) (n : ℕ) :
    ~~~w &&& bitMask n ≠ 0 ↔ w.getLsbD (n % 32) = false := by
  have hn : n % 32 < 32 := Nat.mod_lt _ (by decide)
  rw [ne_eq, and_bitMask_eq_zero]
  simp [hn]

namespace Cidmap

@[simp] theorem word_natCast (m : Cidmap) (n : ℕ) : m.word ((n : ℤ) / 32) = m.page (n / 32) := by
  have h : ¬ (n : ℤ) / 32 < 0 := by omega
  have h' : ((n : ℤ) / 32).toNat = n / 32 := by omega
  rw [word, if_neg h, h']

theorem setWord_natCast (m : Cidmap) (n : ℕ) (w : BitVec 32) :
    m.setWord ((n : ℤ) / 32) w = { m with page := Function.update m.page (n / 32) w } := by
  have h : ¬ (n : ℤ) / 32 < 0 := by omega
  have h' : ((n : ℤ) / 32).toNat = n / 32 := by omega
  rw [setWord, if_neg h, h']

end Cidmap

theorem bitAt_update (page : ℕ → BitVec 32) (n : ℕ) (w : BitVec 32) (v : Bool)
    (hw : ∀ i < 32, w.getLsbD i = if i = n % 32 then v else (page (n / 32)).getLsbD i) (k : ℕ) :
    bitAt (Function.update page (n / 32) w) k = if k = n then v else bitAt page k := by
  have hk : k % 32 < 32 := Nat.mod_lt _ (by decide)
  by_cases hq : k / 32 = n / 32
  · have he : k % 32 = n % 32 ↔ k = n := by omega
    simp only [bitAt, hq, Function.update_self, hw _ hk, he]
  · have hne : k ≠ n := fun h => hq (h ▸ rfl)
    simp [bitAt, Function.update_of_ne hq, hne]

theorem testAndSetBit_natCast_fst (n : ℕ) (m : Cidmap) :
    (testAndSetBit n m).1 = !bitAt m.page n := by
  have h := and_bitMask_eq_zero (m.page (n / 32)) n
  simp only [testAndSetBit, Cidmap.word_natCast, bitAt]
  cases hb : (m.page (n / 32)).getLsbD (n % 32) with
  | false => simpa using h.mpr hb
  | true => simpa [hb] using h

theorem bitAt_testAndSetBit (n : ℕ) (m : Cidmap) (k : ℕ) :
    bitAt (testAndSetBit n m).2.page k = if k = n then true else bitAt m.page k := by
  simp only [testAndSetBit, Cidmap.word_natCast, Cidmap.setWord_natCast]
  apply bitAt_update
  intro i hi
  rw [bitMask_natCast, BitVec.getLsbD_or, BitVec.getLsbD_twoPow]
  by_cases hin : i = n % 32
  · simp [hin, Nat.mod_lt]
  · simp [hin, Ne.symm hin]

theorem bitAt_clearBit (n : ℕ) (m : Cidmap) (k : ℕ) :
    bitAt (clearBit n m).page k = if k = n then false else bitAt m.page k := by
  simp only [clearBit, Cidmap.word_natCast, Cidmap.setWord_natCast]
  apply bitAt_update
  intro i hi
  rw [bitMask_natCast, BitVec.getLsbD_and, BitVec.getLsbD_not, BitVec.getLsbD_twoPow]
  by_cases hin : i = n % 32
  · simp [hin, Nat.mod_lt]
  · simp [hin, Ne.symm hin, hi]

theorem nrFree_testAndSetBit (n : ℕ) (m : Cidmap) : (testAndSetBit n m).2.nrFree = m.nrFree := by
  simp only [testAndSetBit, Cidmap.setWord_natCast]

theorem nrFree_clearBit (n : ℕ) (m : Cidmap) : (clearBit n m).nrFree = m.nrFree := by
  simp only [clearBit, Cidmap.setWord_natCast]

theorem findLoop_range {m : Cidmap} {mark : ℤ} {fuel : ℕ} {cid c : ℤ}
    (h0 : 0 ≤ cid) (h1 : cid < 0x8000) (h : findLoop m mark fuel cid = some c) :
    0 ≤ c ∧ c < 0x8000 := by
  induction fuel generalizing cid with
  | zero => simp [findLoop] at h
  | succ fuel ih =>
    unfold findLoop at h
    split_ifs at h
    · cases h; exact ⟨h0, h1⟩
    · cases h; exact ⟨h0, h1⟩
    · exact ih (by omega) (by omega) h

theorem findNextZeroBit_range {m : Cidmap} {cid c : ℤ} (h : findNextZeroBit m cid = some c) :
    0 ≤ c ∧ c < 0x8000 :=
  findLoop_range (by omega) (by omega) h

/-- While a zero position lies ahead, no further than the start mark, the loop
ends on a zero position.  The distance ahead is the measure. -/
theorem findLoop_of_zero {m : Cidmap} {mark : ℤ} {n : ℕ} (hn : n < 0x8000)
    (hz : bitAt m.page n = false) (hmark : mark < 0x8000) {fuel : ℕ} {cid : ℤ}
    (h0 : 0 ≤ cid) (h1 : cid < 0x8000) (hfuel : (n - cid) % 0x8000 < fuel)
    (hd : mark < 0 ∨ (n - cid) % 0x8000 ≤ (mark - cid) % 0x8000) :
    ∃ k : ℕ, k < 0x8000 ∧ findLoop m mark fuel cid = some (k : ℤ) ∧ bitAt m.page k = false := by
  induction fuel generalizing cid with
  | zero => omega
  | succ fuel ih =>
    obtain ⟨k, rfl⟩ := Int.eq_ofNat_of_zero_le h0
    have hk : k < 0x8000 := by omega
    unfold findLoop
    by_cases hm : (k : ℤ) = mark
    · have hkn : k = n := by omega
      exact ⟨k, hk, by rw [if_pos hm], hkn ▸ hz⟩
    · rw [if_neg hm, Cidmap.word_natCast]
      by_cases hb : bitAt m.page k = false
      · exact ⟨k, hk, by rw [if_pos ((not_and_bitMask_ne_zero _ _).mpr hb)], hb⟩
      · rw [if_neg (mt (not_and_bitMask_ne_zero _ _).mp hb)]
        have hne : k ≠ n := fun h => hb (h ▸ hz)
        exact ih (by omega) (by omega) (by omega) (by omega)

theorem findNextZeroBit_of_zero {m : Cidmap} {mark : ℤ} {n : ℕ} (hn : n < 0x8000)
    (hz : bitAt m.page n = false) (hmark : -1 ≤ mark ∧ mark < 0x8000) :
    ∃ k : ℕ, k < 0x8000 ∧ findNextZeroBit m mark = some (k : ℤ) ∧ bitAt m.page k = false :=
  findLoop_of_zero hn hz hmark.2 (by omega) (by omega) (by omega) (by omega)

namespace CidAllocator

/-- Position `n` of the page, that is, cid `n + 1`, is taken. -/
def held (a : CidAllocator) (n : ℕ) : Bool := bitAt a.cidmap.page n

def heldSet (a : CidAllocator) : Finset ℕ := {n ∈ Finset.range 0x8000 | a.held n = true}

theorem mem_heldSet {a : CidAllocator} {n : ℕ} :
    n ∈ a.heldSet ↔ n < 0x8000 ∧ a.held n = true := by
  simp [heldSet]

structure Counts (a : CidAllocator) : Prop where
  nrFree : a.cidmap.nrFree + a.heldSet.card = 0x8000
  lastCid : -1 ≤ a.lastCid ∧ a.lastCid < 0x8000

theorem initial_counts : initial.Counts where
  nrFree := by
    have h : initial.heldSet = ∅ := by
      ext n
      simp [mem_heldSet, held, initial, bitAt]
    rw [h]
    rfl
  lastCid := by decide

theorem Counts.exists_free {a : CidAllocator} (h : a.Counts) (hfree : a.cidmap.nrFree ≠ 0) :
    ∃ n < 0x8000, a.held n = false := by
  by_contra! hall
  have hs : a.heldSet = Finset.range 0x8000 := by
    ext n
    simp only [mem_heldSet, Finset.mem_range]
    exact ⟨And.left, fun hn => ⟨hn, by simpa using hall n hn⟩⟩
  have hc := h.nrFree
  rw [hs, Finset.card_range] at hc
  omega

end CidAllocator

/-- What `alloc_cidmap` can do: take a free position, or fail and take none. -/
theorem allocCidmap_cases {a a' : CidAllocator} {cid : ℤ} (h : allocCidmap a = some (cid, a')) :
    (cid = -1 ∧ ∀ k, a'.held k = a.held k) ∨
    (∃ n : ℕ, n < 0x8000 ∧ cid = n + 1 ∧ a.held n = false ∧ a.cidmap.nrFree ≠ 0 ∧
      (∀ k, a'.held k = if k = n then true else a.held k) ∧
      a'.cidmap.nrFree = (a.cidmap.nrFree + (2 ^ 32 - 1)) % 2 ^ 32 ∧ a'.lastCid = n) := by
  unfold allocCidmap at h
  by_cases hz : a.cidmap.nrFree = 0
  · rw [if_pos hz] at h
    cases h
    exact .inl ⟨rfl, fun _ => rfl⟩
  rw [if_neg hz] at h
  cases hf : findNextZeroBit a.cidmap a.lastCid with
  | none => simp [hf] at h
  | some c =>
    obtain ⟨hc0, hc1⟩ := findNextZeroBit_range hf
    obtain ⟨n, rfl⟩ := Int.eq_ofNat_of_zero_le hc0
    have hset := bitAt_testAndSetBit n a.cidmap
    simp only [hf, testAndSetBit_natCast_fst, Bool.not_eq_true'] at h
    by_cases hb : bitAt a.cidmap.page n = false
    · rw [if_pos hb] at h
      cases h
      have hnr := congrArg (fun x => (x + (2 ^ 32 - 1)) % 2 ^ 32) (nrFree_testAndSetBit n a.cidmap)
      exact .inr ⟨n, by omega, rfl, hb, hz, hset, hnr, rfl⟩
    · rw [if_neg hb] at h
      cases h
      -- the search found no clear bit and gave one that is set: setting it again changes nothing
      refine .inl ⟨rfl, fun k => (hset k).trans ?_⟩
      by_cases hk : k = n
      · simpa [hk, CidAllocator.held] using hb
      · simp [hk, CidAllocator.held]

namespace CidAllocator

theorem heldSet_insert {a a' : CidAllocator} {n : ℕ} (hn : n < 0x8000)
    (h : ∀ k, a'.held k = if k = n then true else a.held k) :
    a'.heldSet = insert n a.heldSet := by
  ext k
  simp only [mem_heldSet, Finset.mem_insert, h]
  by_cases hk : k = n
  · simp [hk, hn]
  · simp [hk]

/-- With an accurate counter, a non-zero `nr_free` makes the allocation succeed. -/
theorem Counts.alloc {a : CidAllocator} (h : a.Counts) (hfree : a.cidmap.nrFree ≠ 0) :
    ∃ n : ℕ, n < 0x8000 ∧ ∃ a', allocCidmap a = some ((n : ℤ) + 1, a') := by
  obtain ⟨n, hn, hz⟩ := h.exists_free hfree
  obtain ⟨k, hk, hf, hkz⟩ := findNextZeroBit_of_zero hn hz h.lastCid
  rw [allocCidmap, if_neg hfree, hf]
  simp only [testAndSetBit_natCast_fst, hkz, Bool.not_false, if_true]
  exact ⟨k, hk, _, rfl⟩

theorem Counts.alloc_counts {a a' : CidAllocator} {cid : ℤ} (h : a.Counts)
    (hfree : a.cidmap.nrFree ≠ 0) (ha : allocCidmap a = some (cid, a')) :
    a'.Counts ∧ a'.cidmap.nrFree + 1 = a.cidmap.nrFree := by
  obtain ⟨n, hn, b, hb⟩ := h.alloc hfree
  rw [ha] at hb
  have hcid : cid = n + 1 := congrArg Prod.fst (Option.some.inj hb)
  have hle := h.nrFree
  rcases allocCidmap_cases ha with ⟨hm, _⟩ | ⟨k, hk, hkn, hz, _, hheld, hnr, hlast⟩
  · omega
  have hnr' : a'.cidmap.nrFree + 1 = a.cidmap.nrFree := by omega
  refine ⟨⟨?_, by omega⟩, hnr'⟩
  have hnot : k ∉ a.heldSet := by simp [mem_heldSet, hz]
  rw [heldSet_insert hk hheld, Finset.card_insert_of_notMem hnot]
  omega

end CidAllocator

theorem held_freeCidmap (n : ℕ) (a : CidAllocator) (k : ℕ) :
    (freeCidmap (n + 1) a).held k = if k = n then false else a.held k := by
  have h : ((n : ℤ) + 1 - 1) = n := by omega
  simp only [freeCidmap, CidAllocator.held, h, bitAt_clearBit]

/-- `free_cidmap(-1)` addresses the word below the page. -/
theorem held_freeCidmap_neg_one (a : CidAllocator) (k : ℕ) :
    (freeCidmap (-1) a).held k = a.held k := rfl

theorem CidAllocator.Counts.free {a : CidAllocator} {n : ℕ} (h : a.Counts) (hn : n < 0x8000)
    (hheld : a.held n = true) : (freeCidmap (n + 1) a).Counts := by
  have hset : (freeCidmap (n + 1) a).heldSet = a.heldSet.erase n := by
    ext k
    simp only [CidAllocator.mem_heldSet, Finset.mem_erase, held_freeCidmap]
    by_cases hk : k = n
    · simp [hk]
    · simp [hk]
  have hmem : n ∈ a.heldSet := CidAllocator.mem_heldSet.mpr ⟨hn, hheld⟩
  have hpos : 0 < a.heldSet.card := Finset.card_pos.mpr ⟨n, hmem⟩
  have hsub : ((n : ℤ) + 1 - 1) = n := by omega
  have hnr : (freeCidmap (n + 1) a).cidmap.nrFree = (a.cidmap.nrFree + 1) % 2 ^ 32 := by
    simp only [freeCidmap, hsub, nrFree_clearBit]
  have hc := h.nrFree
  refine ⟨?_, h.lastCid⟩
  rw [hset, Finset.card_erase_of_mem hmem, hnr]
  omega

end Phpco
