import Phpco.TimeoutQueue

/-!
# Deletion from a link

`delete_node` unlinks the first node with the datum.  It forgets `rear` when
this is the only node, and the link to it when it is the last of several, so
a link stays in order as long as its last node is not deleted.
-/

namespace Phpco
open LinkedList

/-- What `delete_node` does to a link with the nodes `ns`. -/
structure DeleteLaw (p : Link) (ns : List (Ptr × Ptr)) (data : Ptr) (p' : Link) : Prop where
  holds : Holds p' (ns.eraseP fun n => n.2 = data)
  freed : ∀ n, ns.find? (fun n => n.2 = data) = some n → p'.nodes n.1 = none
  unchanged : (∀ n ∈ ns, n.2 ≠ data) → p' = p
  empty : emptyqueue p' = true ↔ ns.eraseP (fun n => n.2 = data) = []

/-- The calls of `delete_node` return, and each of them does what it should. -/
def DeletesLawfully : Link → List (Ptr × Ptr) → List Ptr → Prop
  | _, _, [] => True
  | p, ns, data :: ds => ∃ fuel p', deleteNode p data fuel = .ok p' ∧ DeleteLaw p ns data p' ∧
      DeletesLawfully p' (ns.eraseP fun n => n.2 = data) ds

variable {p p' : Link} {data : Ptr} {n : Ptr × Ptr} {ns seen rest : List (Ptr × Ptr)}

theorem exists_node {q : Option Ptr} (h : Path (cells p) q (n :: ns) none) :
    q = some n.1 ∧ ∃ node, p.nodes n.1 = some node ∧ node.data = n.2 ∧
      Path (cells p) node.next ns none := by
  obtain ⟨hq, next, hn, hrest⟩ := h
  obtain ⟨node, hnode, heq⟩ := Option.map_eq_some_iff.mp hn
  obtain ⟨hdata, rfl⟩ := Prod.mk.inj heq
  exact ⟨hq, node, hnode, hdata, hrest⟩

theorem deleteLoop_of_absent {q f : Option Ptr} {fuel : ℕ} (h : Path (cells p) q ns none)
    (hns : ∀ m ∈ ns, m.2 ≠ data) : deleteLoop p data fuel q f =
      if ns.length ≤ fuel then .ok p else .error .diverges := by
  induction ns generalizing q f fuel with
  | nil =>
    obtain rfl : q = none := h
    simp [deleteLoop]
  | cons n ns ih =>
    obtain ⟨rfl, node, hnode, hdata, hrest⟩ := exists_node h
    have hne : node.data ≠ data := hdata ▸ hns n List.mem_cons_self
    cases fuel with
    | zero => simp [deleteLoop]
    | succ fuel =>
      rw [deleteLoop, hnode]
      simp only [if_neg hne]
      rw [ih hrest fun m hm => hns m (List.mem_cons_of_mem _ hm)]
      simp

theorem deleteLoop_of_first {q f : Option Ptr} {fuel : ℕ}
    (h : Path (cells p) q (seen ++ n :: rest) none) (hseen : ∀ m ∈ seen, m.2 ≠ data)
    (hn : n.2 = data) : deleteLoop p data fuel q f =
      if seen.length < fuel then removeNode p n.1 ((seen.getLast?.map Prod.fst).or f)
      else .error .diverges := by
  induction seen generalizing q f fuel with
  | nil =>
    obtain ⟨rfl, node, hnode, hdata, _⟩ := exists_node h
    cases fuel with
    | zero => simp [deleteLoop]
    | succ fuel =>
      rw [deleteLoop, hnode]
      simp [hdata, hn]
  | cons m seen ih =>
    obtain ⟨rfl, node, hnode, hdata, hrest⟩ := exists_node h
    have hne : node.data ≠ data := hdata ▸ hseen m List.mem_cons_self
    have hlast : (((m :: seen).getLast?.map Prod.fst).or f) =
        ((seen.getLast?.map Prod.fst).or (some m.1)) := by
      rw [List.getLast?_cons]
      cases seen.getLast? <;> rfl
    cases fuel with
    | zero => simp [deleteLoop]
    | succ fuel =>
      rw [deleteLoop, hnode]
      simp only [if_neg hne]
      rw [ih hrest fun k hk => hseen k (List.mem_cons_of_mem _ hk), hlast]
      simp

theorem deleteNode_of_absent (h : Holds p ns) (hns : ∀ m ∈ ns, m.2 ≠ data) (fuel : ℕ) :
    deleteNode p data fuel = if ns.length ≤ fuel then .ok p else .error .diverges := by
  unfold deleteNode
  by_cases hsize : p.size = 0
  · have hnil : ns = [] := List.length_eq_zero_iff.mp (by rw [h.size] at hsize; omega)
    simp [hsize, hnil]
  · rw [if_neg hsize]
    exact deleteLoop_of_absent h.queue.path hns

theorem deleteNode_of_first (h : Holds p (seen ++ n :: rest)) (hseen : ∀ m ∈ seen, m.2 ≠ data)
    (hn : n.2 = data) (fuel : ℕ) : deleteNode p data fuel =
      if seen.length < fuel then removeNode p n.1 (seen.getLast?.map Prod.fst)
      else .error .diverges := by
  have hsize : p.size ≠ 0 := by
    rw [h.size]
    simp only [List.length_append, List.length_cons]
    omega
  rw [deleteNode, if_neg hsize, deleteLoop_of_first h.queue.path hseen hn, Option.or_none]

theorem eraseP_of_absent (hns : ∀ m ∈ ns, m.2 ≠ data) : (ns.eraseP fun n => n.2 = data) = ns :=
  List.eraseP_of_forall_not fun m hm => by simpa using hns m hm

theorem eraseP_of_first (hseen : ∀ m ∈ seen, m.2 ≠ data) (hn : n.2 = data) :
    (seen ++ n :: rest).eraseP (fun n => n.2 = data) = seen ++ rest := by
  rw [List.eraseP_append_right _ fun m hm => by simpa using hseen m hm,
    List.eraseP_cons_of_pos (by simpa using hn)]

theorem deleteLaw_of_absent (h : Holds p ns) (hns : ∀ m ∈ ns, m.2 ≠ data) :
    DeleteLaw p ns data p := by
  refine ⟨?_, fun n hn => ?_, fun _ => rfl, ?_⟩
  · rwa [eraseP_of_absent hns]
  · have hdata := List.find?_some hn
    exact absurd (of_decide_eq_true hdata) (hns n (List.mem_of_find?_eq_some hn))
  · rw [eraseP_of_absent hns]
    exact h.emptyqueue_iff

theorem deleteLaw_of_first (h : Holds p (seen ++ n :: rest)) (hseen : ∀ m ∈ seen, m.2 ≠ data)
    (hn : n.2 = data) (hrest : rest ≠ [])
    (hrem : removeNode p n.1 (seen.getLast?.map Prod.fst) = .ok p') :
    DeleteLaw p (seen ++ n :: rest) data p' := by
  have hlast : p.rear ≠ some n.1 := fun hrear => hrest (h.rear_eq_iff.mp hrear)
  have hholds : Holds p' (seen ++ rest) := holds_removeNode h hlast hrem
  have hfind : (seen ++ n :: rest).find? (fun n => n.2 = data) = some n := by
    apply List.find?_eq_some_iff_append.mpr
    exact ⟨by simpa using hn, seen, rest, rfl, fun m hm => by simpa using hseen m hm⟩
  refine ⟨?_, fun m hm => ?_, fun hall => ?_, ?_⟩
  · rwa [eraseP_of_first hseen hn]
  · obtain rfl : n = m := Option.some.inj (hfind.symm.trans hm)
    exact nodes_removeNode hrem
  · exact absurd hn (hall n (by simp))
  · rw [eraseP_of_first hseen hn]
    exact hholds.emptyqueue_iff

/-- Fewer deletions of the last node's datum than nodes that hold it. -/
def SparesLast (ns : List (Ptr × Ptr)) (ds : List Ptr) : Prop :=
  ∀ n ∈ ns.getLast?, ds.count n.2 < (ns.map Prod.snd).count n.2

theorem sparesLast_of_absent {ds : List Ptr} (hns : ∀ m ∈ ns, m.2 ≠ data) :
    SparesLast ns (data :: ds) ↔ SparesLast ns ds := by
  apply forall₂_congr
  intro m hm
  rw [List.count_cons_of_ne (Ne.symm (hns m (List.mem_of_getLast? hm)))]

theorem sparesLast_of_first {ds : List Ptr} (hn : n.2 = data) (hrest : rest ≠ []) :
    SparesLast (seen ++ n :: rest) (data :: ds) ↔ SparesLast (seen ++ rest) ds := by
  have hlast : (seen ++ n :: rest).getLast? = (seen ++ rest).getLast? := by
    rw [List.getLast?_append_of_ne_nil _ (List.cons_ne_nil n rest),
      List.getLast?_append_of_ne_nil _ hrest]
    obtain ⟨m, ms, rfl⟩ := List.exists_cons_of_ne_nil hrest
    exact List.getLast?_cons_cons
  unfold SparesLast
  rw [hlast]
  apply forall₂_congr
  intro m _
  -- the call and the node it removes count for the same datum
  simp only [List.map_append, List.map_cons, List.count_append, List.count_cons, hn]
  split_ifs <;> omega

/-- A call that deletes the last node leaves no link. -/
theorem not_deleteLaw_of_last {fuel : ℕ} (h : Holds p (seen ++ [n]))
    (hseen : ∀ m ∈ seen, m.2 ≠ data) (hn : n.2 = data) (hdel : deleteNode p data fuel = .ok p') :
    ¬ DeleteLaw p (seen ++ [n]) data p' := by
  intro hlaw
  rw [deleteNode_of_first h hseen hn] at hdel
  split_ifs at hdel
  exact not_holds_removeNode h (h.rear_eq_iff.mpr rfl) hdel _ hlaw.holds

/-- Calls of `delete_node` on a link in order all do what they should if they leave the last node
in it, and only then. -/
theorem delete_node_lawful_iff (p : Link) (ns : List (Ptr × Ptr)) (h : Holds p ns) (ds : List Ptr) :
    DeletesLawfully p ns ds ↔ SparesLast ns ds := by
  induction ds generalizing p ns with
  | nil =>
    refine ⟨fun _ n hn => ?_, fun _ => trivial⟩
    rw [List.count_nil]
    exact List.count_pos_iff.mpr (List.mem_map_of_mem (List.mem_of_getLast? hn))
  | cons data ds ih =>
    cases hfind : ns.find? fun n => n.2 = data with
    | none =>
      have hns : ∀ m ∈ ns, m.2 ≠ data := fun m hm => by simpa using List.find?_eq_none.mp hfind m hm
      rw [sparesLast_of_absent hns, ← ih p ns h, DeletesLawfully, eraseP_of_absent hns]
      constructor
      · rintro ⟨fuel, p', _, hlaw, hds⟩
        rwa [hlaw.unchanged hns] at hds
      · intro hds
        refine ⟨ns.length, p, ?_, deleteLaw_of_absent h hns, hds⟩
        rw [deleteNode_of_absent h hns]
        exact if_pos (Nat.le_refl _)
    | some n =>
      obtain ⟨hn, seen, rest, rfl, hseen⟩ := List.find?_eq_some_iff_append.mp hfind
      have hn : n.2 = data := of_decide_eq_true hn
      have hseen : ∀ m ∈ seen, m.2 ≠ data := fun m hm => by simpa using hseen m hm
      by_cases hrest : rest = []
      · subst hrest
        constructor
        · rintro ⟨fuel, p', hdel, hlaw, _⟩
          exact absurd hlaw (not_deleteLaw_of_last h hseen hn hdel)
        · intro hspares
          -- no other node holds the datum
          have hcount : (seen.map Prod.snd).count data = 0 := by
            apply List.count_eq_zero_of_not_mem
            intro hmem
            obtain ⟨m, hm, hdata⟩ := List.mem_map.mp hmem
            exact hseen m hm hdata
          have hlt := hspares n (by simp)
          simp only [hn, List.count_cons_self, List.map_append, List.map_cons, List.map_nil,
            List.count_append, hcount, List.count_nil] at hlt
          omega
      · obtain ⟨p', hrem⟩ := exists_removeNode h
        have hlaw := deleteLaw_of_first h hseen hn hrest hrem
        have hholds := hlaw.holds
        rw [eraseP_of_first hseen hn] at hholds
        rw [sparesLast_of_first hn hrest, ← ih p' _ hholds, DeletesLawfully,
          eraseP_of_first hseen hn]
        constructor
        · rintro ⟨fuel, p'', hdel, _, hds⟩
          rw [deleteNode_of_first h hseen hn] at hdel
          split_ifs at hdel
          obtain rfl : p' = p'' := Except.ok.inj (hrem.symm.trans hdel)
          exact hds
        · intro hds
          refine ⟨seen.length + 1, p', ?_, hlaw, hds⟩
          rw [deleteNode_of_first h hseen hn, if_pos (Nat.lt_succ_self _), hrem]

def twoNodes : Link where
  front := some 1
  rear := some 2
  size := 2
  nodes a := if a = 1 then some ⟨7, some 2⟩ else if a = 2 then some ⟨8, none⟩ else none

theorem holds_twoNodes : Holds twoNodes [(1, 7), (2, 8)] :=
  ⟨⟨⟨rfl, some 2, rfl, rfl, none, rfl, rfl⟩, rfl⟩, rfl⟩

theorem delete_node_lawful_iff_two : Holds twoNodes [(1, 7), (2, 8)] ∧
    DeletesLawfully twoNodes [(1, 7), (2, 8)] [7, 7, 9] := by
  refine ⟨holds_twoNodes, (delete_node_lawful_iff _ _ holds_twoNodes _).mpr ?_⟩
  intro n hn
  obtain rfl : (2, 8) = n := Option.some.inj hn
  decide

/-- The deletion of the only node leaves `rear` at it. -/
theorem only_node_not_deleted : Holds (pushqueue initqueue 1 7) [(1, 7)] ∧
    ¬ DeletesLawfully (pushqueue initqueue 1 7) [(1, 7)] [7] := by
  have hempty : Holds initqueue [] := ⟨queue_nil.mpr ⟨rfl, rfl⟩, rfl⟩
  have hone := holds_pushqueue_of_empty 1 7 hempty
  refine ⟨hone, ?_⟩
  rintro ⟨fuel, p', hdel, hlaw, _⟩
  have hlast : Holds (pushqueue initqueue 1 7) ([] ++ [(1, 7)]) := hone
  exact not_deleteLaw_of_last hlast (by simp) rfl hdel hlaw

end Phpco
