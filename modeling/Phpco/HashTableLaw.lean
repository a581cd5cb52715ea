import Phpco.HashTableChains
import Phpco.Transition

/-!
# The hash table as a map

A sequence of calls leaves the table standing for the map that `stored` is, as
long as `hash_table_rm` finds no key: a removal frees the node and goes on along
its chain from there.
-/

namespace Phpco
open LinkedList Transition

/-- No removal in the sequence is of a key that is stored by then. -/
def RemovesAbsent (ops : List HashOp) : Prop :=
  ∀ seen key, seen ++ [.rm key] <+: ops → stored seen key = none

def InChain (ht : HashTable) (i : ℕ) (p : Ptr) : Prop :=
  ∃ ns, Path (kvCells ht) (ht.table i) ns (some p)

/-- What a table is after the calls `ops` on a new one. -/
structure TableLaw (ops : List HashOp) (ht : HashTable) : Prop where
  get : ∀ key, hashTableGet ht key = .ok ((stored ops key).bind Item.value)
  others : ∀ before op ht₀ key, ops = before ++ [op] →
    runFrom HashOp.apply hashTableNew before = .ok ht₀ → op.key ≠ key →
      hashTableGet ht key = hashTableGet ht₀ key
  once : ∀ p q kv kv', ht.kvs p = some kv → ht.kvs q = some kv' → kv.key = kv'.key → p = q
  bucket : ∀ i p, InChain ht i p ↔ ∃ kv, ht.kvs p = some kv ∧ chainIndex kv.key = i

variable {ops : List HashOp} {ht ht' : HashTable} {chain : ℕ → List KvCell} {key : CString}

@[simp] theorem stored_nil : stored [] key = none := rfl

@[simp] theorem stored_concat (ops : List HashOp) (op : HashOp) (key : CString) :
    stored (ops ++ [op]) key = if op.key = key then op.item else stored ops key := by
  unfold stored
  rw [List.reverse_append, List.reverse_singleton, List.singleton_append, List.find?_cons]
  by_cases hkey : op.key = key <;> simp [hkey]

theorem removesAbsent_nil : RemovesAbsent [] := by
  intro seen key hseen
  simp at hseen

theorem removesAbsent_concat (op : HashOp) : RemovesAbsent (ops ++ [op]) ↔
    RemovesAbsent ops ∧ ∀ key, op = .rm key → stored ops key = none := by
  constructor
  · intro h
    refine ⟨fun seen key hseen => h seen key (hseen.trans (List.prefix_append _ _)), ?_⟩
    rintro key rfl
    exact h ops key (List.prefix_refl _)
  · rintro ⟨h, hop⟩ seen key hseen
    rcases List.prefix_concat_iff.mp hseen with heq | hseen
    · obtain ⟨rfl, hlast⟩ := List.append_inj' heq rfl
      exact hop key (List.singleton_inj.mp hlast).symm
    · exact h seen key hseen

/-- The chains of a table, and what the calls so far have stored in them. -/
structure Represents (ht : HashTable) (chain : ℕ → List KvCell) (ops : List HashOp) : Prop where
  chains : Chains ht chain
  items : itemOf chain = stored ops

theorem represents_hashTableNew : Represents hashTableNew (fun _ => []) [] :=
  ⟨chains_hashTableNew, rfl⟩

/-- A call keeps to the map, and breaks off where it removes a key that is stored. -/
theorem apply_cases (h : Represents ht chain ops) (op : HashOp) :
    (∃ ht' chain', HashOp.apply ht op = .ok ht' ∧ Represents ht' chain' (ops ++ [op]) ∧
      (∀ key, op = .rm key → stored ops key = none) ∧
      ht'.calls = ht.calls ++ (stored ops op.key).toList.flatMap Item.release ∧
      ht'.freed = ht.freed) ∨
    (HashOp.apply ht op = .error .useAfterFree ∧ ∃ key, op = .rm key ∧ stored ops key ≠ none) := by
  cases op with
  | put2 key value freeValue =>
    left
    obtain ⟨ht', chain', hput, hafter⟩ := hashTablePut2_of_chains h.chains key ⟨value, freeValue⟩
    refine ⟨ht', chain', hput, ⟨hafter.chains, ?_⟩, (by rintro _ ⟨⟩), ?_, hafter.freed⟩
    · rw [hafter.items, h.items]
      funext key'
      by_cases hkey : key' = key
      · simp [hkey]
      · simp [hkey, Ne.symm hkey]
    · rw [hafter.calls, h.items]
      rfl
  | rm key =>
    have hrm := hashTableRm_of_chains h.chains key
    rw [h.items] at hrm
    by_cases hkey : stored ops key = none
    · left
      rw [if_pos hkey] at hrm
      refine ⟨ht, chain, hrm, ⟨h.chains, ?_⟩, ?_, ?_, rfl⟩
      · rw [h.items]
        funext key'
        by_cases hkey' : key = key'
        · simp [← hkey', hkey]
        · simp [hkey']
      · rintro key' ⟨⟩
        exact hkey
      · simp [hkey]
    · right
      rw [if_neg hkey] at hrm
      exact ⟨hrm, key, rfl, hkey⟩

/-- The calls all return if no removal finds its key, and only then. -/
theorem run_cases (ops : List HashOp) :
    (RemovesAbsent ops ∧ ∃ ht chain, runFrom HashOp.apply hashTableNew ops = .ok ht ∧
      Represents ht chain ops) ∨
    (¬ RemovesAbsent ops ∧ runFrom HashOp.apply hashTableNew ops = .error .useAfterFree) := by
  induction ops using List.reverseRecOn with
  | nil => exact .inl ⟨removesAbsent_nil, _, _, rfl, represents_hashTableNew⟩
  | append_singleton ops op ih =>
    rw [removesAbsent_concat, runFrom_concat]
    rcases ih with ⟨habsent, ht, chain, hrun, h⟩ | ⟨habsent, hrun⟩
    · rw [hrun]
      rcases apply_cases h op with ⟨ht', chain', happ, h', hop, _⟩ | ⟨happ, key, hop, hkey⟩
      · exact .inl ⟨⟨habsent, hop⟩, ht', chain', happ, h'⟩
      · exact .inr ⟨fun hall => hkey (hall.2 key hop), happ⟩
    · right
      refine ⟨fun hall => habsent hall.1, ?_⟩
      rw [hrun]
      rfl

theorem run_of_removesAbsent (h : RemovesAbsent ops) : ∃ ht chain,
    runFrom HashOp.apply hashTableNew ops = .ok ht ∧ Represents ht chain ops := by
  rcases run_cases ops with ⟨_, hrun⟩ | ⟨hnot, _⟩
  · exact hrun
  · exact absurd h hnot

theorem removesAbsent_of_run (h : runFrom HashOp.apply hashTableNew ops = .ok ht) :
    RemovesAbsent ops := by
  rcases run_cases ops with ⟨habsent, _⟩ | ⟨_, herr⟩
  · exact habsent
  · rw [h] at herr
    cases herr

theorem RemovesAbsent.of_prefix {seen : List HashOp} (h : RemovesAbsent ops)
    (hseen : seen <+: ops) : RemovesAbsent seen :=
  fun before key hbefore => h before key (hbefore.trans hseen)

theorem hashTableGet_of_represents (h : Represents ht chain ops) (key : CString) :
    hashTableGet ht key = .ok ((stored ops key).bind Item.value) := by
  rw [hashTableGet_of_chains h.chains, h.items]

theorem Chains.exists_cell (h : Chains ht chain) {p : Ptr} {kv : Kv} (hkv : ht.kvs p = some kv) :
    ∃ n ∈ chain (chainIndex kv.key), n.1 = p ∧ n.2.1 = kv.key := by
  have hlt : p < ht.next := by
    by_contra hle
    rw [h.fresh p (Nat.le_of_not_lt hle)] at hkv
    cases hkv
  obtain ⟨i, n, hn, rfl⟩ := h.covered p hlt
  obtain ⟨next, hkv'⟩ := h.kv hn
  rw [hkv, Option.some.injEq] at hkv'
  have hkey : n.2.1 = kv.key := by rw [hkv']
  refine ⟨n, ?_, rfl, hkey⟩
  rwa [← hkey, h.index i n hn]

theorem Chains.once (h : Chains ht chain) {p q : Ptr} {kv kv' : Kv} (hkv : ht.kvs p = some kv)
    (hkv' : ht.kvs q = some kv') (heq : kv.key = kv'.key) : p = q := by
  obtain ⟨n, hn, rfl, hkey⟩ := h.exists_cell hkv
  obtain ⟨m, hm, rfl, hkey'⟩ := h.exists_cell hkv'
  rw [← heq] at hm
  have hnm : n = m := List.inj_on_of_nodup_map (h.keys _) hn hm (by rw [hkey, hkey', heq])
  rw [hnm]

theorem Chains.inChain_iff (h : Chains ht chain) (i : ℕ) (p : Ptr) :
    InChain ht i p ↔ ∃ kv, ht.kvs p = some kv ∧ chainIndex kv.key = i := by
  unfold InChain
  rw [← (h.path i).mem_iff]
  constructor
  · intro hp
    obtain ⟨n, hn, rfl⟩ := List.mem_map.mp hp
    obtain ⟨next, hkv⟩ := h.kv hn
    exact ⟨_, hkv, h.index i n hn⟩
  · rintro ⟨kv, hkv, rfl⟩
    obtain ⟨n, hn, hnp, _⟩ := h.exists_cell hkv
    exact List.mem_map.mpr ⟨n, hn, hnp⟩

theorem tableLaw_of_represents (h : Represents ht chain ops) : TableLaw ops ht where
  get := hashTableGet_of_represents h
  others before op ht₀ key hops hrun hkey := by
    have hbefore := removesAbsent_of_run hrun
    obtain ⟨ht₁, chain₁, hrun₁, h₁⟩ := run_of_removesAbsent hbefore
    rw [hrun, Except.ok.injEq] at hrun₁
    rw [hashTableGet_of_represents h, hrun₁, hashTableGet_of_represents h₁, hops, stored_concat,
      if_neg hkey]
  once _ _ _ _ := h.chains.once
  bucket := h.chains.inChain_iff

/-- The calls all return and keep the table to its law exactly if none of them
removes a key that is stored. -/
theorem hash_table_lawful_iff (ops : List HashOp) :
    (∀ seen, seen <+: ops → ∃ ht, runFrom HashOp.apply hashTableNew seen = .ok ht ∧
      TableLaw seen ht) ↔ RemovesAbsent ops := by
  constructor
  · intro h
    obtain ⟨ht, hrun, _⟩ := h ops (List.prefix_refl _)
    exact removesAbsent_of_run hrun
  · intro h seen hseen
    obtain ⟨ht, chain, hrun, hrep⟩ := run_of_removesAbsent (h.of_prefix hseen)
    exact ⟨ht, hrun, tableLaw_of_represents hrep⟩

def keyA : CString := ⟨[97], by decide⟩
def keyB : CString := ⟨[98], by decide⟩

/-- Putting in a key and removing it reads the node that was freed. -/
theorem removal_not_lawful : ¬ ∀ seen, seen <+: [.put2 keyA (some 1) none, .rm keyA] →
    ∃ ht, runFrom HashOp.apply hashTableNew seen = .ok ht ∧ TableLaw seen ht := by
  intro h
  obtain ⟨ht, hrun, _⟩ := h _ (List.prefix_refl _)
  have herr : runFrom HashOp.apply hashTableNew [.put2 keyA (some 1) none, .rm keyA] =
      .error .useAfterFree := rfl
  rw [herr] at hrun
  cases hrun

end Phpco
