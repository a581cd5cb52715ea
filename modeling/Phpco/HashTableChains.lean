import Mathlib.Data.List.Perm.Subperm
import Mathlib.Data.List.Range
import Phpco.HashTable
import Phpco.LinkedList

namespace Phpco
open LinkedList

/-- What the chains pass through: the nodes with their keys and items. -/
abbrev KvCell := Ptr × (CString × Item)

def kvCells (ht : HashTable) : Heap Ptr (CString × Item) :=
  fun p => (ht.kvs p).map fun kv => ((kv.key, ⟨kv.value, kv.freeValue⟩), kv.next)

/-- The nodes of the table, all that there have ever been, make up these chains. -/
structure Chains (ht : HashTable) (chain : ℕ → List KvCell) : Prop where
  path : ∀ i, Path (kvCells ht) (ht.table i) (chain i) none
  index : ∀ i, ∀ n ∈ chain i, chainIndex n.2.1 = i
  keys : ∀ i, ((chain i).map fun n => n.2.1).Nodup
  fresh : ∀ p, ht.next ≤ p → ht.kvs p = none
  covered : ∀ p, p < ht.next → ∃ i, ∃ n ∈ chain i, n.1 = p

/-- What a chain holds under a key. -/
def itemIn (ns : List KvCell) (key : CString) : Option Item :=
  (ns.find? fun n => n.2.1 = key).map fun n => n.2.2

def itemOf (chain : ℕ → List KvCell) (key : CString) : Option Item :=
  itemIn (chain (chainIndex key)) key

variable {ht : HashTable} {chain : ℕ → List KvCell} {key : CString} {n m : KvCell}
  {ns seen rest : List KvCell} {i j : ℕ}

theorem kvCells_eq_some {p : Ptr} {v : CString × Item} {next : Option Ptr} :
    kvCells ht p = some (v, next) ↔ ht.kvs p = some ⟨next, v.1, v.2.value, v.2.freeValue⟩ := by
  unfold kvCells
  constructor
  · intro h
    obtain ⟨kv, hkv, heq⟩ := Option.map_eq_some_iff.mp h
    obtain ⟨rfl, rfl⟩ := Prod.mk.inj heq
    exact hkv
  · intro h
    simp [h]

theorem itemIn_eq_none : itemIn ns key = none ↔ ∀ n ∈ ns, n.2.1 ≠ key := by
  simp [itemIn]

theorem itemIn_of_first (hseen : ∀ m ∈ seen, m.2.1 ≠ key) (hn : n.2.1 = key) :
    itemIn (seen ++ n :: rest) key = some n.2.2 := by
  have hfind : (seen ++ n :: rest).find? (fun n => n.2.1 = key) = some n := by
    apply List.find?_eq_some_iff_append.mpr
    exact ⟨by simpa using hn, seen, rest, rfl, fun m hm => by simpa using hseen m hm⟩
  rw [itemIn, hfind, Option.map_some]

/-- A chain without the key, or one split at the first node with it. -/
theorem itemIn_cases (ns : List KvCell) (key : CString) : (∀ n ∈ ns, n.2.1 ≠ key) ∨
    ∃ seen n rest, ns = seen ++ n :: rest ∧ (∀ m ∈ seen, m.2.1 ≠ key) ∧ n.2.1 = key := by
  cases hfind : ns.find? (fun n => n.2.1 = key) with
  | none => exact .inl (by simpa using hfind)
  | some n =>
    right
    obtain ⟨hn, seen, rest, hns, hseen⟩ := List.find?_eq_some_iff_append.mp hfind
    exact ⟨seen, n, rest, hns, fun m hm => by simpa using hseen m hm, by simpa using hn⟩

theorem Chains.kv (h : Chains ht chain) (hn : n ∈ chain i) :
    ∃ next, ht.kvs n.1 = some ⟨next, n.2.1, n.2.2.value, n.2.2.freeValue⟩ := by
  obtain ⟨next, hcell⟩ := (h.path i).exists_next hn
  exact ⟨next, kvCells_eq_some.mp hcell⟩

theorem Chains.eq_of_address (h : Chains ht chain) (hn : n ∈ chain i) (hm : m ∈ chain j)
    (heq : n.1 = m.1) : n = m ∧ i = j := by
  obtain ⟨next, hcell⟩ := (h.path i).exists_next hn
  obtain ⟨next', hcell'⟩ := (h.path j).exists_next hm
  rw [heq, hcell', Option.some.injEq, Prod.mk.injEq] at hcell
  have hnm : n = m := Prod.ext heq hcell.1.symm
  exact ⟨hnm, by rw [← h.index i n hn, ← h.index j m hm, hnm]⟩

theorem Chains.lt_next (h : Chains ht chain) (hn : n ∈ chain i) : n.1 < ht.next := by
  obtain ⟨next, hkv⟩ := h.kv hn
  by_contra hlt
  rw [h.fresh n.1 (Nat.le_of_not_lt hlt)] at hkv
  cases hkv

theorem Chains.length_le (h : Chains ht chain) (i : ℕ) : (chain i).length ≤ ht.next := by
  have hsub : (chain i).map Prod.fst ⊆ List.range ht.next := by
    intro p hp
    obtain ⟨n, hn, rfl⟩ := List.mem_map.mp hp
    exact List.mem_range.mpr (h.lt_next hn)
  have hlen := (List.subperm_of_subset (h.path i).nodup hsub).length_le
  simpa using hlen

theorem chains_hashTableNew : Chains hashTableNew fun _ => [] where
  path _ := rfl
  index _ n hn := by cases hn
  keys _ := List.nodup_nil
  fresh _ _ := rfl
  covered _ hp := absurd hp (Nat.not_lt_zero _)

variable {α : Type} {found : Ptr → Kv → Except Halt α} {absent : Option Ptr → Except Halt α}

theorem exists_kv {p : Option Ptr} (h : Path (kvCells ht) p (n :: ns) none) :
    p = some n.1 ∧ ∃ next, ht.kvs n.1 = some ⟨next, n.2.1, n.2.2.value, n.2.2.freeValue⟩ ∧
      Path (kvCells ht) next ns none := by
  obtain ⟨hp, next, hn, hrest⟩ := h
  exact ⟨hp, next, kvCells_eq_some.mp hn, hrest⟩

theorem walk_of_absent {p prep : Option Ptr} {fuel : ℕ} (h : Path (kvCells ht) p ns none)
    (hns : ∀ n ∈ ns, n.2.1 ≠ key) (hfuel : ns.length ≤ fuel) :
    walk ht key found absent fuel p prep = absent ((ns.getLast?.map Prod.fst).or prep) := by
  induction ns generalizing p prep fuel with
  | nil =>
    obtain rfl : p = none := h
    simp [walk]
  | cons n ns ih =>
    obtain ⟨rfl, next, hkv, hrest⟩ := exists_kv h
    have hlast : ((n :: ns).getLast?.map Prod.fst).or prep =
        (ns.getLast?.map Prod.fst).or (some n.1) := by
      rw [List.getLast?_cons]
      cases ns.getLast? <;> rfl
    cases fuel with
    | zero => simp at hfuel
    | succ fuel =>
      rw [walk, hkv]
      simp only [if_neg (hns n List.mem_cons_self)]
      rw [hlast]
      exact ih hrest (fun m hm => hns m (List.mem_cons_of_mem _ hm)) (by simpa using hfuel)

/-- The first node with the key is found. -/
theorem walk_of_first {p prep : Option Ptr} {fuel : ℕ} {kv : Kv}
    (h : Path (kvCells ht) p (seen ++ n :: rest) none) (hseen : ∀ m ∈ seen, m.2.1 ≠ key)
    (hkv : ht.kvs n.1 = some kv) (hn : kv.key = key) (hfuel : seen.length < fuel) :
    walk ht key found absent fuel p prep = found n.1 kv := by
  induction seen generalizing p prep fuel with
  | nil =>
    obtain ⟨rfl, _⟩ := h
    cases fuel with
    | zero => simp at hfuel
    | succ fuel =>
      rw [walk, hkv]
      simp only [if_pos hn]
  | cons m seen ih =>
    obtain ⟨rfl, next, hkv', hrest⟩ := exists_kv h
    cases fuel with
    | zero => simp at hfuel
    | succ fuel =>
      rw [walk, hkv']
      simp only [if_neg (hseen m List.mem_cons_self)]
      exact ih hrest (fun k hk => hseen k (List.mem_cons_of_mem _ hk)) (by simpa using hfuel)

theorem hashTableGet_of_chains (h : Chains ht chain) (key : CString) :
    hashTableGet ht key = .ok ((itemOf chain key).bind Item.value) := by
  have hpath := h.path (chainIndex key)
  have hlen := h.length_le (chainIndex key)
  unfold itemOf hashTableGet
  rcases itemIn_cases (chain (chainIndex key)) key with habsent | ⟨seen, n, rest, hchain, hseen, hn⟩
  · rw [itemIn_eq_none.mpr habsent]
    exact walk_of_absent hpath habsent hlen
  · rw [hchain] at hpath hlen ⊢
    rw [itemIn_of_first hseen hn]
    have hfuel : seen.length < ht.next := by simp at hlen; omega
    obtain ⟨next, hkv⟩ := h.kv (i := chainIndex key) (n := n) (by simp [hchain])
    exact walk_of_first hpath hseen hkv hn hfuel

def Item.release (x : Item) : List (Ptr × Option Ptr) := releaseCall x.freeValue x.value

variable {ht' : HashTable} {x : Item} {a : Ptr}

theorem Chains.set (h : Chains ht chain) (hpath : Path (kvCells ht') (ht'.table i) ns none)
    (hindex : ∀ n ∈ ns, chainIndex n.2.1 = i) (hkeys : (ns.map fun n => n.2.1).Nodup)
    (htable : ∀ j, j ≠ i → ht'.table j = ht.table j)
    (hoff : ∀ j, j ≠ i → ∀ n ∈ chain j, ht'.kvs n.1 = ht.kvs n.1)
    (hfresh : ∀ p, ht'.next ≤ p → ht'.kvs p = none)
    (hcovered : ∀ p, p < ht'.next → (∃ n ∈ ns, n.1 = p) ∨ ∃ j, j ≠ i ∧ ∃ n ∈ chain j, n.1 = p) :
    Chains ht' (Function.update chain i ns) := by
  constructor
  · intro j
    by_cases hj : j = i
    · rw [hj, Function.update_self]
      exact hpath
    · rw [Function.update_of_ne hj, htable j hj]
      exact (h.path j).congr fun n hn => by simp [kvCells, hoff j hj n hn]
  · intro j n hn
    by_cases hj : j = i
    · rw [hj, Function.update_self] at hn
      rw [hj]
      exact hindex n hn
    · rw [Function.update_of_ne hj] at hn
      exact h.index j n hn
  · intro j
    by_cases hj : j = i
    · rw [hj, Function.update_self]
      exact hkeys
    · rw [Function.update_of_ne hj]
      exact h.keys j
  · exact hfresh
  · intro p hp
    rcases hcovered p hp with ⟨n, hn, hnp⟩ | ⟨j, hj, n, hn, hnp⟩
    · exact ⟨i, n, by rwa [Function.update_self], hnp⟩
    · exact ⟨j, n, by rwa [Function.update_of_ne hj], hnp⟩

theorem itemOf_update (hns : ∀ key', itemIn ns key' =
      if key' = key then some x else itemIn (chain (chainIndex key)) key') :
    itemOf (Function.update chain (chainIndex key) ns) =
      Function.update (itemOf chain) key (some x) := by
  funext key'
  unfold itemOf
  by_cases hkey : key' = key
  · rw [hkey, Function.update_self, Function.update_self, hns, if_pos rfl]
  · rw [Function.update_of_ne hkey]
    by_cases hindex : chainIndex key' = chainIndex key
    · rw [hindex, Function.update_self, hns, if_neg hkey]
    · rw [Function.update_of_ne hindex]

theorem itemIn_replace (hseen : ∀ m ∈ seen, m.2.1 ≠ key) (hn : n.2.1 = key) (key' : CString) :
    itemIn (seen ++ (n.1, (key, x)) :: rest) key' =
      if key' = key then some x else itemIn (seen ++ n :: rest) key' := by
  split_ifs with hkey
  · rw [hkey]
    exact itemIn_of_first hseen rfl
  · simp [itemIn, List.find?_append, hn, Ne.symm hkey]

theorem itemIn_push (hns : ∀ m ∈ ns, m.2.1 ≠ key) (key' : CString) :
    itemIn (ns ++ [(a, (key, x))]) key' = if key' = key then some x else itemIn ns key' := by
  split_ifs with hkey
  · rw [hkey]
    exact itemIn_of_first hns rfl
  · simp [itemIn, List.find?_append, Ne.symm hkey]

/-- What a put does to the chains, to the map they stand for and to the calls so far. -/
structure Put (ht : HashTable) (chain : ℕ → List KvCell) (key : CString) (x : Item)
    (ht' : HashTable) (chain' : ℕ → List KvCell) : Prop where
  chains : Chains ht' chain'
  items : itemOf chain' = Function.update (itemOf chain) key (some x)
  calls : ht'.calls = ht.calls ++ (itemOf chain key).toList.flatMap Item.release
  freed : ht'.freed = ht.freed

/-- The item of a node is replaced. -/
theorem put_of_stored {next : Option Ptr} (h : Chains ht chain)
    (hchain : chain (chainIndex key) = seen ++ n :: rest) (hseen : ∀ m ∈ seen, m.2.1 ≠ key)
    (hn : n.2.1 = key) (hkv : ht.kvs n.1 = some ⟨next, n.2.1, n.2.2.value, n.2.2.freeValue⟩) :
    Put ht chain key x
      { ht with
        kvs := Function.update ht.kvs n.1 (some ⟨next, n.2.1, x.value, x.freeValue⟩)
        calls := ht.calls ++ releaseCall n.2.2.freeValue n.2.2.value }
      (Function.update chain (chainIndex key) (seen ++ (n.1, (key, x)) :: rest)) := by
  have hmem : n ∈ chain (chainIndex key) := by simp [hchain]
  have hpath := h.path (chainIndex key)
  have hnodup := hpath.nodup
  have hkeys := h.keys (chainIndex key)
  have hindex := h.index (chainIndex key)
  rw [hchain] at hpath hnodup hkeys hindex
  have hne : ∀ m ∈ seen ++ rest, m.1 ≠ n.1 := by
    intro m hm heq
    have hperm : (seen ++ n :: rest).Perm (n :: (seen ++ rest)) := List.perm_middle
    have hcons := (hperm.map Prod.fst).nodup_iff.mp hnodup
    exact (List.nodup_cons.mp hcons).1 (List.mem_map.mpr ⟨m, hm, heq⟩)
  constructor
  · apply h.set
    · apply hpath.replace
      · intro next' hcell
        have hkv' := kvCells_eq_some.mp hcell
        rw [hkv, Option.some.injEq, Kv.mk.injEq] at hkv'
        apply kvCells_eq_some.mpr
        simp [hkv'.1, hn]
      · intro m hm
        simp [kvCells, Function.update_of_ne (hne m hm)]
    · intro m hm
      rcases List.mem_append.mp hm with hm | hm
      · exact hindex m (List.mem_append_left _ hm)
      · rcases List.mem_cons.mp hm with rfl | hm
        · rfl
        · exact hindex m (List.mem_append_right _ (List.mem_cons_of_mem _ hm))
    · rw [List.map_append, List.map_cons] at hkeys ⊢
      rwa [hn] at hkeys
    · exact fun _ _ => rfl
    · intro j hj m hm
      apply Function.update_of_ne
      intro heq
      exact hj (h.eq_of_address hm hmem heq).2
    · intro p hp
      have hpn : p ≠ n.1 := (Nat.lt_of_lt_of_le (h.lt_next hmem) hp).ne'
      simp [Function.update_of_ne hpn, h.fresh p hp]
    · intro p hp
      obtain ⟨j, m, hm, hmp⟩ := h.covered p hp
      by_cases hj : j = chainIndex key
      · left
        rw [hj, hchain] at hm
        rcases List.mem_append.mp hm with hm | hm
        · exact ⟨m, List.mem_append_left _ hm, hmp⟩
        · rcases List.mem_cons.mp hm with rfl | hm
          · exact ⟨(m.1, (key, x)), by simp, hmp⟩
          · exact ⟨m, by simp [hm], hmp⟩
      · exact .inr ⟨j, hj, m, hm, hmp⟩
  · apply itemOf_update
    rw [hchain]
    exact itemIn_replace hseen hn
  · have hitem : itemOf chain key = some n.2.2 := by
      rw [itemOf, hchain]
      exact itemIn_of_first hseen hn
    simp [hitem, Item.release]
  · rfl

theorem put_of_pushed (h : Chains ht chain) (hns : ∀ m ∈ chain (chainIndex key), m.2.1 ≠ key)
    (hpath : Path (kvCells ht') (ht'.table (chainIndex key))
      (chain (chainIndex key) ++ [(ht.next, (key, x))]) none)
    (htable : ∀ j, j ≠ chainIndex key → ht'.table j = ht.table j)
    (hkvs : ∀ p, p ≠ ht.next → (∀ n ∈ chain (chainIndex key), n.1 ≠ p) → ht'.kvs p = ht.kvs p)
    (hnext : ht'.next = ht.next + 1) (hcalls : ht'.calls = ht.calls) (hfreed : ht'.freed = ht.freed) :
    Put ht chain key x ht' (Function.update chain (chainIndex key)
      (chain (chainIndex key) ++ [(ht.next, (key, x))])) := by
  have hitem : itemOf chain key = none := itemIn_eq_none.mpr hns
  constructor
  · apply h.set hpath
    · intro m hm
      rcases List.mem_append.mp hm with hm | hm
      · exact h.index _ m hm
      · rw [List.mem_singleton.mp hm]
    · rw [List.map_append, List.nodup_append]
      refine ⟨h.keys _, by simp, ?_⟩
      intro k hk k' hk'
      obtain ⟨m, hm, rfl⟩ := List.mem_map.mp hk
      rw [List.map_singleton, List.mem_singleton] at hk'
      rw [hk']
      exact hns m hm
    · exact htable
    · intro j hj m hm
      apply hkvs
      · exact (h.lt_next hm).ne
      · intro n hn heq
        exact hj (h.eq_of_address hn hm heq).2.symm
    · intro p hp
      have hlt : ht.next < p := by rw [hnext] at hp; exact hp
      rw [hkvs p hlt.ne' fun n hn => ((h.lt_next hn).trans hlt).ne, h.fresh p hlt.le]
    · intro p hp
      rw [hnext] at hp
      rcases Nat.lt_succ_iff_lt_or_eq.mp hp with hlt | rfl
      · obtain ⟨j, m, hm, hmp⟩ := h.covered p hlt
        by_cases hj : j = chainIndex key
        · exact .inl ⟨m, List.mem_append_left _ (hj ▸ hm), hmp⟩
        · exact .inr ⟨j, hj, m, hm, hmp⟩
      · exact .inl ⟨(ht.next, (key, x)), by simp, rfl⟩
  · exact itemOf_update (itemIn_push hns)
  · rw [hitem, hcalls]
    simp
  · exact hfreed

/-- The new node is linked behind the last one, or else into the table. -/
theorem appendKv_of_chains (h : Chains ht chain)
    (hns : ∀ m ∈ chain (chainIndex key), m.2.1 ≠ key) :
    ∃ ht', appendKv ht ⟨none, key, x.value, x.freeValue⟩
        (((chain (chainIndex key)).getLast?.map Prod.fst).or (ht.table (chainIndex key))) = .ok ht' ∧
      Put ht chain key x ht' (Function.update chain (chainIndex key)
        (chain (chainIndex key) ++ [(ht.next, (key, x))])) := by
  have hpath := h.path (chainIndex key)
  rcases List.eq_nil_or_concat (chain (chainIndex key)) with hnil | ⟨ns, n, hchain⟩
  · have hprep : ((chain (chainIndex key)).getLast?.map Prod.fst).or (ht.table (chainIndex key)) =
        none := by
      rw [hnil] at hpath ⊢
      exact hpath
    rw [hprep]
    refine ⟨_, rfl, ?_⟩
    apply put_of_pushed h hns
    · rw [hnil]
      exact ⟨by simp, none, by simp [kvCells], rfl⟩
    · exact fun j hj => Function.update_of_ne hj _ _
    · exact fun p hp _ => Function.update_of_ne hp _ _
    · rfl
    · rfl
    · rfl
  · have hmem : n ∈ chain (chainIndex key) := by simp [hchain]
    have hne : n.1 ≠ ht.next := (h.lt_next hmem).ne
    obtain ⟨next, hkv⟩ := h.kv hmem
    have hprep : ((chain (chainIndex key)).getLast?.map Prod.fst).or (ht.table (chainIndex key)) =
        some n.1 := by
      rw [hchain]
      simp
    rw [hprep]
    refine ⟨_, by simp only [appendKv, hkv]; rfl, ?_⟩
    apply put_of_pushed h hns
    · have hnodup := hpath.nodup
      rw [hchain, List.concat_eq_append] at hpath hnodup ⊢
      apply hpath.push
      · simp [kvCells]
      · simp [kvCells, Function.update_of_ne hne.symm]
      · intro m hm
        have hmn : m.1 ≠ n.1 := by
          intro heq
          rw [List.map_append, List.nodup_append] at hnodup
          exact hnodup.2.2 m.1 (List.mem_map_of_mem hm) n.1 (by simp) heq
        have hm' : m ∈ chain (chainIndex key) := by simp [hchain, hm]
        simp [kvCells, Function.update_of_ne hmn, Function.update_of_ne (h.lt_next hm').ne]
    · exact fun _ _ => rfl
    · intro p hp hoff
      have hpn : p ≠ n.1 := (hoff n hmem).symm
      simp [Function.update_of_ne hpn, Function.update_of_ne hp]
    · rfl
    · rfl
    · rfl

theorem hashTablePut2_of_chains (h : Chains ht chain) (key : CString) (x : Item) :
    ∃ ht' chain', hashTablePut2 ht key x.value x.freeValue = .ok ht' ∧
      Put ht chain key x ht' chain' := by
  have hpath := h.path (chainIndex key)
  have hlen := h.length_le (chainIndex key)
  rcases itemIn_cases (chain (chainIndex key)) key with habsent | ⟨seen, n, rest, hchain, hseen, hn⟩
  · obtain ⟨ht', happend, hput⟩ := appendKv_of_chains (x := x) h habsent
    refine ⟨ht', _, ?_, hput⟩
    rw [hashTablePut2, walk_of_absent hpath habsent hlen]
    exact happend
  · rw [hchain] at hpath hlen
    have hfuel : seen.length < ht.next := by simp at hlen; omega
    obtain ⟨next, hkv⟩ := h.kv (i := chainIndex key) (n := n) (by simp [hchain])
    refine ⟨_, _, ?_, put_of_stored h hchain hseen hn hkv⟩
    exact walk_of_first hpath hseen hkv hn hfuel

theorem rmLoop_of_absent {p prep : Option Ptr} {fuel : ℕ} (h : Path (kvCells ht) p ns none)
    (hns : ∀ n ∈ ns, n.2.1 ≠ key) (hfuel : ns.length ≤ fuel) :
    rmLoop key fuel ht p prep = .ok ht := by
  induction ns generalizing p prep fuel with
  | nil =>
    obtain rfl : p = none := h
    simp [rmLoop]
  | cons n ns ih =>
    obtain ⟨rfl, next, hkv, hrest⟩ := exists_kv h
    cases fuel with
    | zero => simp at hfuel
    | succ fuel =>
      rw [rmLoop, hkv]
      simp only [if_neg (hns n List.mem_cons_self)]
      exact ih hrest (fun m hm => hns m (List.mem_cons_of_mem _ hm)) (by simpa using hfuel)

/-- The removal reads what the freed node links to. -/
theorem rmLoop_of_first {p prep : Option Ptr} {fuel : ℕ}
    (h : Path (kvCells ht) p (seen ++ n :: rest) none) (hseen : ∀ m ∈ seen, m.2.1 ≠ key)
    (hn : n.2.1 = key) (hfuel : seen.length < fuel) :
    rmLoop key fuel ht p prep = .error .useAfterFree := by
  induction seen generalizing p prep fuel with
  | nil =>
    obtain ⟨rfl, next, hkv, _⟩ := exists_kv h
    cases fuel with
    | zero => simp at hfuel
    | succ fuel =>
      rw [rmLoop, hkv]
      simp only [if_pos hn, freeKv, Function.update_self]
      split_ifs
      · simp only [bind, Except.bind, Function.update_self]
      · rfl
  | cons m seen ih =>
    obtain ⟨rfl, next, hkv, hrest⟩ := exists_kv h
    cases fuel with
    | zero => simp at hfuel
    | succ fuel =>
      rw [rmLoop, hkv]
      simp only [if_neg (hseen m List.mem_cons_self)]
      exact ih hrest (fun k hk => hseen k (List.mem_cons_of_mem _ hk)) (by simpa using hfuel)

/-- A key that is stored cannot be removed in defined behaviour. -/
theorem hashTableRm_of_chains (h : Chains ht chain) (key : CString) : hashTableRm ht key =
    if itemOf chain key = none then .ok ht else .error .useAfterFree := by
  have hpath := h.path (chainIndex key)
  have hlen := h.length_le (chainIndex key)
  unfold itemOf hashTableRm
  rcases itemIn_cases (chain (chainIndex key)) key with habsent | ⟨seen, n, rest, hchain, hseen, hn⟩
  · rw [if_pos (itemIn_eq_none.mpr habsent)]
    exact rmLoop_of_absent hpath habsent hlen
  · rw [hchain] at hpath hlen ⊢
    have hfuel : seen.length < ht.next := by simp at hlen; omega
    rw [itemIn_of_first hseen hn, if_neg (by simp)]
    exact rmLoop_of_first hpath hseen hn hfuel

end Phpco
