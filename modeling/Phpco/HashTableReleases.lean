import Phpco.HashTableLaw

/-!
# The releases of the hash table

A value that is put in is released once: when another takes its place, or by
`hash_table_delete`.  As for the map, this is so as long as `hash_table_rm`
finds no key.
-/

namespace Phpco
open LinkedList Transition

def putValues (ops : List HashOp) : List (Option Ptr) :=
  ops.filterMap fun
    | .put2 _ value _ => some value
    | .rm _ => none

def callsOn (calls : List (Ptr × Option Ptr)) (value : Option Ptr) : List Ptr :=
  (calls.filter fun call => call.2 = value).map Prod.fst

/-- The calls on a new table and then `hash_table_delete` release what they should. -/
structure ReleaseLaw (ops : List HashOp) : Prop where
  /-- The function put in with a value is called on it when a later call has its key. -/
  timely : ∀ seen ht, seen <+: ops → runFrom HashOp.apply hashTableNew seen = .ok ht →
    ∀ before key value freeValue rest, seen = before ++ .put2 key value freeValue :: rest →
      callsOn ht.calls value = if ∃ op ∈ rest, op.key = key then freeValue.toList else []
  deleted : ∃ ht, (runFrom HashOp.apply hashTableNew ops >>= hashTableDelete) = .ok ht ∧
    (∀ key value freeValue, .put2 key value freeValue ∈ ops →
      callsOn ht.calls value = freeValue.toList) ∧
    ∀ p, ht.freed.count p = if p < ht.next then 1 else 0

variable {ops : List HashOp} {ht : HashTable} {chain : ℕ → List KvCell} {key key' : CString}
  {value freeValue freeValue' : Option Ptr} {calls : List (Ptr × Option Ptr)}

@[simp] theorem callsOn_nil : callsOn [] value = [] := rfl

@[simp] theorem callsOn_append (calls calls' : List (Ptr × Option Ptr)) :
    callsOn (calls ++ calls') value = callsOn calls value ++ callsOn calls' value := by
  simp [callsOn]

@[simp] theorem callsOn_release (x : Item) :
    callsOn x.release value = if x.value = value then x.freeValue.toList else [] := by
  obtain ⟨v, freeValue⟩ := x
  cases freeValue with
  | none => simp [Item.release, releaseCall]
  | some f => by_cases hv : v = value <;> simp [Item.release, releaseCall, callsOn, hv]

theorem putValues_append (ops ops' : List HashOp) :
    putValues (ops ++ ops') = putValues ops ++ putValues ops' :=
  List.filterMap_append

theorem mem_putValues (h : .put2 key value freeValue ∈ ops) : value ∈ putValues ops :=
  List.mem_filterMap.mpr ⟨_, h, rfl⟩

theorem put_unique (hnodup : (putValues ops).Nodup) (h : .put2 key value freeValue ∈ ops)
    (h' : .put2 key' value freeValue' ∈ ops) : key = key' ∧ freeValue = freeValue' := by
  obtain ⟨before, rest, rfl⟩ := List.append_of_mem h
  have hsplit : putValues (before ++ .put2 key value freeValue :: rest) =
      putValues before ++ value :: putValues rest := putValues_append _ _
  rw [hsplit] at hnodup
  have hnot := (List.nodup_middle.mp hnodup)
  rw [List.nodup_cons, List.mem_append, not_or] at hnot
  rcases List.mem_append.mp h' with h' | h'
  · exact absurd (mem_putValues h') hnot.1.1
  · rcases List.mem_cons.mp h' with heq | h'
    · cases heq
      exact ⟨rfl, rfl⟩
    · exact absurd (mem_putValues h') hnot.1.2

theorem mem_of_stored {x : Item} (h : stored ops key = some x) :
    .put2 key x.value x.freeValue ∈ ops := by
  obtain ⟨op, hfind, hop⟩ := Option.bind_eq_some_iff.mp h
  have hmem := List.mem_reverse.mp (List.mem_of_find?_eq_some hfind)
  have hkey : op.key = key := by simpa using List.find?_some hfind
  cases op with
  | rm k => cases hop
  | put2 k value freeValue =>
    cases hop
    rw [← hkey]
    exact hmem

theorem stored_of_last {before rest : List HashOp} (h : ∀ op ∈ rest, op.key ≠ key) :
    stored (before ++ .put2 key value freeValue :: rest) key = some ⟨value, freeValue⟩ := by
  have hrest : rest.reverse.find? (fun op => op.key = key) = none := by simpa using h
  simp [stored, List.find?_append, hrest]

theorem stored_of_later {before rest : List HashOp} (h : ∃ op ∈ rest, op.key = key) :
    stored (before ++ rest) key = stored rest key := by
  have hrest : (rest.reverse.find? fun op => op.key = key).isSome := by simpa using h
  obtain ⟨op, hop⟩ := Option.isSome_iff_exists.mp hrest
  simp [stored, List.find?_append, hop]

/-- What is stored was put in and is not released yet; what was put in and is
not stored any more has been released. -/
structure Account (ops : List HashOp) (calls : List (Ptr × Option Ptr)) : Prop where
  pending : ∀ key x, stored ops key = some x → callsOn calls x.value = []
  released : ∀ key value freeValue, .put2 key value freeValue ∈ ops →
    stored ops key ≠ some ⟨value, freeValue⟩ → callsOn calls value = freeValue.toList
  others : ∀ value, value ∉ putValues ops → callsOn calls value = []

theorem account_nil : Account [] [] where
  pending _ _ h := by cases h
  released _ _ _ h := by cases h
  others _ _ := rfl

/-- A call releases what was stored under its key. -/
theorem Account.concat {op : HashOp} (h : Account ops calls)
    (hnodup : (putValues (ops ++ [op])).Nodup) :
    Account (ops ++ [op]) (calls ++ (stored ops op.key).toList.flatMap Item.release) := by
  have hold : (putValues ops).Nodup := by
    rw [putValues_append] at hnodup
    exact (List.nodup_append.mp hnodup).1
  have hfresh : ∀ key value freeValue, op = .put2 key value freeValue → value ∉ putValues ops := by
    rintro key value freeValue rfl
    rw [putValues_append] at hnodup
    intro hmem
    exact (List.nodup_append.mp hnodup).2.2 value hmem value (by simp [putValues]) rfl
  -- calls on a value change only if it was stored under the key of the call
  have hcalls : ∀ value, (∀ y, stored ops op.key = some y → y.value ≠ value) →
      callsOn (calls ++ (stored ops op.key).toList.flatMap Item.release) value =
        callsOn calls value := by
    intro value hne
    cases hy : stored ops op.key with
    | none => simp
    | some y => simp [hne y hy]
  constructor
  · intro key x hx
    rw [stored_concat] at hx
    split_ifs at hx with hkey
    · cases op with
      | rm k => cases hx
      | put2 k value freeValue =>
        cases hx
        have hnot := hfresh k value freeValue rfl
        rw [hcalls value fun y hy heq => hnot (heq ▸ mem_putValues (mem_of_stored hy))]
        exact h.others value hnot
    · rw [hcalls x.value, h.pending key x hx]
      intro y hy heq
      have hput := mem_of_stored hy
      rw [heq] at hput
      exact hkey (put_unique hold hput (mem_of_stored hx)).1
  · intro key value freeValue hput hne
    rw [stored_concat] at hne
    rcases List.mem_append.mp hput with hput | hlast
    · by_cases hst : stored ops key = some ⟨value, freeValue⟩
      · have hkey : op.key = key := by
          by_contra hkey
          rw [if_neg hkey] at hne
          exact hne hst
        rw [callsOn_append, h.pending key _ hst, hkey, hst]
        simp
      · rw [hcalls value, h.released key value freeValue hput hst]
        intro y hy heq
        have hput' := mem_of_stored hy
        rw [heq] at hput'
        obtain ⟨hkey, hfree⟩ := put_unique hold hput' hput
        apply hst
        rw [← hkey, hy, ← heq, ← hfree]
    · rw [← List.mem_singleton.mp hlast] at hne
      simp [HashOp.item] at hne
  · intro value hvalue
    rw [putValues_append, List.mem_append, not_or] at hvalue
    rw [hcalls value fun y hy heq => hvalue.1 (heq ▸ mem_putValues (mem_of_stored hy))]
    exact h.others value hvalue.1

/-- The calls that return have settled their accounts, and have freed nothing. -/
theorem account_of_run (h : runFrom HashOp.apply hashTableNew ops = .ok ht)
    (hnodup : (putValues ops).Nodup) : Account ops ht.calls ∧ ht.freed = [] := by
  induction ops using List.reverseRecOn generalizing ht with
  | nil =>
    cases h
    exact ⟨account_nil, rfl⟩
  | append_singleton ops op ih =>
    rw [runFrom_concat] at h
    obtain ⟨ht₀, hrun, happ⟩ := Except.bind_eq_ok.mp h
    have hold : (putValues ops).Nodup := by
      rw [putValues_append] at hnodup
      exact (List.nodup_append.mp hnodup).1
    obtain ⟨hacc, hfreed⟩ := ih hrun hold
    obtain ⟨ht₁, chain, hrun₁, hrep⟩ := run_of_removesAbsent (removesAbsent_of_run hrun)
    rw [hrun, Except.ok.injEq] at hrun₁
    subst hrun₁
    rcases apply_cases hrep op with ⟨ht', _, happ', _, _, hcalls, hfreed'⟩ | ⟨herr, _⟩
    · rw [happ, Except.ok.injEq] at happ'
      subst happ'
      rw [hcalls, hfreed', hfreed]
      exact ⟨hacc.concat hnodup, rfl⟩
    · rw [happ] at herr
      cases herr

theorem timely_of_account {before rest : List HashOp}
    (hacc : Account (before ++ .put2 key value freeValue :: rest) calls)
    (hnodup : (putValues (before ++ .put2 key value freeValue :: rest)).Nodup) :
    callsOn calls value = if ∃ op ∈ rest, op.key = key then freeValue.toList else [] := by
  split_ifs with hlater
  · apply hacc.released key value freeValue (by simp)
    rw [List.append_cons, stored_of_later hlater]
    intro hst
    -- the value would have been put in twice
    rw [List.append_cons, putValues_append, List.nodup_append] at hnodup
    exact hnodup.2.2 value (mem_putValues (List.mem_append_right _ List.mem_cons_self)) value
      (mem_putValues (mem_of_stored hst)) rfl
  · have hst : stored (before ++ .put2 key value freeValue :: rest) key = some ⟨value, freeValue⟩ :=
      stored_of_last fun op hop hkey => hlater ⟨op, hop, hkey⟩
    exact hacc.pending key _ hst

/-- What deleting a part of the nodes does to a table. -/
structure Deleted (ht : HashTable) (ns : List KvCell) (ht' : HashTable) : Prop where
  table : ht'.table = ht.table
  next : ht'.next = ht.next
  calls : ht'.calls = ht.calls ++ ns.flatMap fun n => n.2.2.release
  freed : ht'.freed = ht.freed ++ ns.map Prod.fst
  kvs : ∀ p, p ∉ ns.map Prod.fst → ht'.kvs p = ht.kvs p

theorem Deleted.nil (ht : HashTable) : Deleted ht [] ht where
  table := rfl
  next := rfl
  calls := by simp
  freed := by simp
  kvs _ _ := rfl

theorem Deleted.append {ht' ht'' : HashTable} {ns ms : List KvCell} (h : Deleted ht ns ht')
    (h' : Deleted ht' ms ht'') : Deleted ht (ns ++ ms) ht'' where
  table := h'.table.trans h.table
  next := h'.next.trans h.next
  calls := by simp [h'.calls, h.calls]
  freed := by simp [h'.freed, h.freed]
  kvs p hp := by
    rw [List.map_append, List.mem_append, not_or] at hp
    rw [h'.kvs p hp.2, h.kvs p hp.1]

theorem deleted_freeKv {n : KvCell} {next : Option Ptr} :
    Deleted ht [n] (freeKv ht n.1 ⟨next, n.2.1, n.2.2.value, n.2.2.freeValue⟩) where
  table := rfl
  next := rfl
  calls := by simp [freeKv, Item.release]
  freed := by simp [freeKv]
  kvs p hp := Function.update_of_ne (by simpa using hp) _ _

theorem Deleted.path {ht' : HashTable} {ns ms : List KvCell} {p : Option Ptr}
    (h : Deleted ht ns ht') (hpath : Path (kvCells ht) p ms none)
    (hoff : ∀ m ∈ ms, m.1 ∉ ns.map Prod.fst) : Path (kvCells ht') p ms none :=
  hpath.congr fun m hm => by simp [kvCells, h.kvs m.1 (hoff m hm)]

theorem deleteChain_of_path {p : Option Ptr} {fuel : ℕ} {ns : List KvCell}
    (h : Path (kvCells ht) p ns none) (hfuel : ns.length ≤ fuel) :
    ∃ ht', deleteChain fuel ht p = .ok ht' ∧ Deleted ht ns ht' := by
  induction ns generalizing ht p fuel with
  | nil =>
    obtain rfl : p = none := h
    exact ⟨ht, by simp [deleteChain], .nil ht⟩
  | cons n ns ih =>
    have hnodup := List.nodup_cons.mp h.nodup
    obtain ⟨rfl, next, hkv, hrest⟩ := exists_kv h
    cases fuel with
    | zero => simp at hfuel
    | succ fuel =>
      have hfirst : Deleted ht [n] (freeKv ht n.1 ⟨next, n.2.1, n.2.2.value, n.2.2.freeValue⟩) :=
        deleted_freeKv
      have hrest' := hfirst.path hrest fun m hm => by
        intro hmem
        rw [List.map_singleton, List.mem_singleton] at hmem
        exact hnodup.1 (List.mem_map.mpr ⟨m, hm, hmem⟩)
      obtain ⟨ht', hdel, hafter⟩ := ih hrest' (by simpa using hfuel)
      refine ⟨ht', ?_, hfirst.append hafter⟩
      rw [deleteChain, hkv]
      exact hdel

/-- The chains are deleted one after the other. -/
theorem deleteChains_of_paths {is : List ℕ} (hnodup : is.Nodup)
    (hpath : ∀ i ∈ is, Path (kvCells ht) (ht.table i) (chain i) none)
    (hlen : ∀ i ∈ is, (chain i).length ≤ ht.next)
    (hdisjoint : ∀ i j, i ≠ j → ∀ n ∈ chain i, n.1 ∉ (chain j).map Prod.fst) :
    ∃ ht', is.foldlM (fun ht i => deleteChain ht.next ht (ht.table i)) ht = .ok ht' ∧
      Deleted ht (is.flatMap chain) ht' := by
  induction is generalizing ht with
  | nil => exact ⟨ht, rfl, .nil ht⟩
  | cons i is ih =>
    have hnot := List.nodup_cons.mp hnodup
    obtain ⟨ht₁, hdel, hfirst⟩ :=
      deleteChain_of_path (hpath i List.mem_cons_self) (hlen i List.mem_cons_self)
    have hpath₁ : ∀ j ∈ is, Path (kvCells ht₁) (ht₁.table j) (chain j) none := by
      intro j hj
      have hne : j ≠ i := fun heq => hnot.1 (heq ▸ hj)
      rw [hfirst.table]
      exact hfirst.path (hpath j (List.mem_cons_of_mem _ hj)) (hdisjoint j i hne)
    obtain ⟨ht', hrest, hafter⟩ := ih hnot.2 hpath₁ fun j hj => by
      rw [hfirst.next]
      exact hlen j (List.mem_cons_of_mem _ hj)
    refine ⟨ht', ?_, ?_⟩
    · rw [List.foldlM_cons, hdel]
      exact hrest
    · rw [List.flatMap_cons]
      exact hfirst.append hafter

theorem Chains.disjoint (h : Chains ht chain) {i j : ℕ} (hij : i ≠ j) :
    ∀ n ∈ chain i, n.1 ∉ (chain j).map Prod.fst := by
  intro n hn hmem
  obtain ⟨m, hm, heq⟩ := List.mem_map.mp hmem
  exact hij (h.eq_of_address hn hm heq.symm).2

def allNodes (chain : ℕ → List KvCell) : List KvCell := (List.range tableSize).flatMap chain

theorem hashTableDelete_of_chains (h : Chains ht chain) :
    ∃ ht', hashTableDelete ht = .ok ht' ∧ Deleted ht (allNodes chain) ht' :=
  deleteChains_of_paths List.nodup_range (fun i _ => h.path i) (fun i _ => h.length_le i)
    fun _ _ => h.disjoint

theorem Chains.mem_allNodes (h : Chains ht chain) {i : ℕ} {n : KvCell} (hn : n ∈ chain i) :
    n ∈ allNodes chain := by
  refine List.mem_flatMap.mpr ⟨i, ?_, hn⟩
  rw [← h.index i n hn]
  exact List.mem_range.mpr (chainIndex_lt _)

theorem Chains.nodup_allNodes (h : Chains ht chain) : ((allNodes chain).map Prod.fst).Nodup := by
  rw [allNodes, List.map_flatMap, List.nodup_flatMap]
  refine ⟨fun i _ => (h.path i).nodup, ?_⟩
  apply List.nodup_range.pairwise_of_forall_ne
  intro i _ j _ hij p hi hj
  obtain ⟨n, hn, rfl⟩ := List.mem_map.mp hi
  exact h.disjoint hij n hn hj

theorem Chains.count_allNodes (h : Chains ht chain) (p : Ptr) :
    ((allNodes chain).map Prod.fst).count p = if p < ht.next then 1 else 0 := by
  have hnodup := h.nodup_allNodes
  split_ifs with hp
  · obtain ⟨i, n, hn, rfl⟩ := h.covered p hp
    exact List.count_eq_one_of_mem hnodup (List.mem_map_of_mem (h.mem_allNodes hn))
  · apply List.count_eq_zero_of_not_mem
    intro hmem
    obtain ⟨n, hn, rfl⟩ := List.mem_map.mp hmem
    obtain ⟨i, _, hi⟩ := List.mem_flatMap.mp hn
    exact hp (h.lt_next hi)

theorem callsOn_flatMap_of_none {ns : List KvCell} (h : ∀ n ∈ ns, n.2.2.value ≠ value) :
    callsOn (ns.flatMap fun n => n.2.2.release) value = [] := by
  induction ns with
  | nil => rfl
  | cons n ns ih =>
    rw [List.flatMap_cons, callsOn_append, ih fun m hm => h m (List.mem_cons_of_mem _ hm),
      callsOn_release, if_neg (h n List.mem_cons_self), List.append_nil]

theorem callsOn_flatMap_of_unique {ns : List KvCell} {n : KvCell} (hn : n ∈ ns) (hnodup : ns.Nodup)
    (h : ∀ m ∈ ns, m.2.2.value = n.2.2.value → m = n) :
    callsOn (ns.flatMap fun n => n.2.2.release) n.2.2.value = n.2.2.freeValue.toList := by
  obtain ⟨before, rest, rfl⟩ := List.append_of_mem hn
  have hnot := (List.nodup_cons.mp (List.nodup_middle.mp hnodup)).1
  have hne : ∀ m ∈ before ++ rest, m.2.2.value ≠ n.2.2.value := by
    intro m hm heq
    have hmem : m ∈ before ++ n :: rest := by
      rcases List.mem_append.mp hm with hm | hm
      · exact List.mem_append_left _ hm
      · exact List.mem_append_right _ (List.mem_cons_of_mem _ hm)
    exact hnot (h m hmem heq ▸ hm)
  rw [List.flatMap_append, List.flatMap_cons, callsOn_append, callsOn_append,
    callsOn_flatMap_of_none fun m hm => hne m (List.mem_append_left _ hm),
    callsOn_flatMap_of_none fun m hm => hne m (List.mem_append_right _ hm), callsOn_release]
  simp

theorem Chains.itemOf_eq (h : Chains ht chain) {i : ℕ} {n : KvCell} (hn : n ∈ chain i) :
    itemOf chain n.2.1 = some n.2.2 := by
  have hchain : n ∈ chain (chainIndex n.2.1) := by rwa [h.index i n hn]
  rcases itemIn_cases (chain (chainIndex n.2.1)) n.2.1 with habsent | ⟨seen, m, rest, hsplit, hseen, hm⟩
  · exact absurd rfl (habsent n hchain)
  · have hmem : m ∈ chain (chainIndex n.2.1) := by simp [hsplit]
    have hmn : m = n := List.inj_on_of_nodup_map (h.keys _) hmem hchain hm
    rw [itemOf, hsplit, itemIn_of_first hseen hm, hmn]

theorem callsOn_of_deleted {ht' : HashTable} (hacc : Account ops ht.calls)
    (hrep : Represents ht chain ops) (hdel : Deleted ht (allNodes chain) ht')
    (hnodup : (putValues ops).Nodup) (hput : .put2 key value freeValue ∈ ops) :
    callsOn ht'.calls value = freeValue.toList := by
  have hstored : ∀ m ∈ allNodes chain, stored ops m.2.1 = some m.2.2 := by
    intro m hm
    obtain ⟨i, _, hi⟩ := List.mem_flatMap.mp hm
    rw [← hrep.items]
    exact hrep.chains.itemOf_eq hi
  rw [hdel.calls, callsOn_append]
  by_cases hst : stored ops key = some ⟨value, freeValue⟩
  · rw [hacc.pending key _ hst, List.nil_append]
    have hitem := hst
    rw [← hrep.items, itemOf] at hitem
    rcases itemIn_cases (chain (chainIndex key)) key with habsent | ⟨seen, n, rest, hchain, hseen, hn⟩
    · rw [itemIn_eq_none.mpr habsent] at hitem
      cases hitem
    · rw [hchain, itemIn_of_first hseen hn, Option.some.injEq] at hitem
      have hmem : n ∈ chain (chainIndex key) := by simp [hchain]
      have hnodes := List.Nodup.of_map _ hrep.chains.nodup_allNodes
      have hcalls := callsOn_flatMap_of_unique (hrep.chains.mem_allNodes hmem) hnodes fun m hm heq => by
        have hput' := mem_of_stored (hstored m hm)
        rw [heq, hitem] at hput'
        have hkey := (put_unique hnodup hput' hput).1
        obtain ⟨i, _, hi⟩ := List.mem_flatMap.mp hm
        have hmi : m ∈ chain (chainIndex key) := by rwa [← hkey, hrep.chains.index i m hi]
        exact List.inj_on_of_nodup_map (hrep.chains.keys _) hmi hmem (hkey.trans hn.symm)
      rw [hitem] at hcalls
      exact hcalls
  · rw [hacc.released key value freeValue hput hst, callsOn_flatMap_of_none, List.append_nil]
    intro m hm heq
    have hput' := mem_of_stored (hstored m hm)
    rw [heq] at hput'
    obtain ⟨hkey, hfree⟩ := put_unique hnodup hput' hput
    apply hst
    rw [← hkey, hstored m hm, ← heq, ← hfree]

/-- Values are released in time and once, and nodes are freed once, exactly if
no call removes a key that is stored. -/
theorem hash_table_releases_iff (ops : List HashOp) (hdistinct : (putValues ops).Nodup) :
    ReleaseLaw ops ↔ RemovesAbsent ops := by
  constructor
  · intro h
    obtain ⟨ht, hrun, _⟩ := h.deleted
    obtain ⟨ht₀, hrun₀, _⟩ := Except.bind_eq_ok.mp hrun
    exact removesAbsent_of_run hrun₀
  · intro h
    constructor
    · rintro seen ht hseen hrun before key value freeValue rest rfl
      have hnodup : (putValues (before ++ .put2 key value freeValue :: rest)).Nodup := by
        obtain ⟨later, rfl⟩ := hseen
        rw [putValues_append] at hdistinct
        exact (List.nodup_append.mp hdistinct).1
      exact timely_of_account (account_of_run hrun hnodup).1 hnodup
    · obtain ⟨ht, chain, hrun, hrep⟩ := run_of_removesAbsent h
      obtain ⟨hacc, hfreed⟩ := account_of_run hrun hdistinct
      obtain ⟨ht', hdel, hafter⟩ := hashTableDelete_of_chains hrep.chains
      refine ⟨ht', Except.bind_eq_ok.mpr ⟨ht, hrun, hdel⟩, fun key value freeValue => ?_, fun p => ?_⟩
      · exact callsOn_of_deleted hacc hrep hafter hdistinct
      · rw [hafter.freed, hfreed, hafter.next, List.nil_append]
        exact hrep.chains.count_allNodes p

theorem hash_table_releases_iff_two :
    ReleaseLaw [.put2 keyA (some 1) (some 7), .rm keyB, .put2 keyA (some 2) none] := by
  apply (hash_table_releases_iff _ (by decide)).mpr
  have hput : RemovesAbsent [.put2 keyA (some 1) (some 7)] :=
    (@removesAbsent_concat [] _).mpr ⟨removesAbsent_nil, by rintro _ ⟨⟩⟩
  have hrm : RemovesAbsent [.put2 keyA (some 1) (some 7), .rm keyB] := by
    refine (@removesAbsent_concat [.put2 keyA (some 1) (some 7)] _).mpr ⟨hput, ?_⟩
    rintro _ ⟨⟩
    decide
  exact (@removesAbsent_concat [.put2 keyA (some 1) (some 7), .rm keyB] _).mpr
    ⟨hrm, by rintro _ ⟨⟩⟩

/-- A table is not deleted after a removal that breaks off. -/
theorem removal_not_released : ¬ ReleaseLaw [.put2 keyA (some 1) (some 7), .rm keyA] := by
  intro h
  obtain ⟨ht, hrun, _⟩ := h.deleted
  have herr : (runFrom HashOp.apply hashTableNew [.put2 keyA (some 1) (some 7), .rm keyA] >>=
      hashTableDelete) = .error .useAfterFree := rfl
  rw [herr] at hrun
  cases hrun

end Phpco
