import Phpco.Link
import Phpco.LinkedList

namespace Phpco
open LinkedList

def cells (p : Link) : Heap Ptr Ptr := fun a => (p.nodes a).map fun node => (node.data, node.next)

theorem cells_of_nodes {p : Link} {a : Ptr} {node : Node} (h : p.nodes a = some node) :
    cells p a = some (node.data, node.next) := by
  simp [cells, h]

/-- The queue holds the elements of the nodes `ns`, in this order. -/
structure Holds (p : Link) (ns : List (Ptr × Ptr)) : Prop where
  queue : Queue (cells p) p.front p.rear ns
  size : p.size = ns.length

theorem emptyqueue_iff {p : Link} : emptyqueue p = true ↔ p.front = none ∧ p.rear = none := by
  simp [emptyqueue]

theorem Holds.emptyqueue_iff {p : Link} {ns : List (Ptr × Ptr)} (h : Holds p ns) :
    emptyqueue p = true ↔ ns = [] := by
  rw [Phpco.emptyqueue_iff]
  constructor
  · rintro ⟨hf, _⟩
    have hfront := h.queue.front_eq
    rw [hf] at hfront
    cases ns with
    | nil => rfl
    | cons n ns => cases hfront
  · rintro rfl
    exact queue_nil.mp h.queue

theorem nodes_pushqueue (p : Link) (que data : Ptr) :
    (pushqueue p que data).nodes = Function.update p.nodes que (some ⟨data, none⟩) := by
  unfold pushqueue
  dsimp only
  split_ifs <;> rfl

theorem size_pushqueue (p : Link) (que data : Ptr) :
    (pushqueue p que data).size = p.size + 1 := by
  unfold pushqueue
  dsimp only
  split_ifs <;> rfl

theorem pushqueue_of_empty {p : Link} (que data : Ptr) (h : emptyqueue p = true) :
    (pushqueue p que data).front = some que ∧ (pushqueue p que data).rear = some que := by
  unfold pushqueue
  dsimp only
  split_ifs with h'
  · exact ⟨rfl, rfl⟩
  · exact absurd h h'

theorem pushqueue_of_nonempty {p : Link} (que data : Ptr) (h : emptyqueue p = false) :
    (pushqueue p que data).front = p.front ∧ (pushqueue p que data).rear = some que := by
  unfold pushqueue
  dsimp only
  split_ifs with h'
  · cases h.symm.trans h'
  · exact ⟨rfl, rfl⟩

theorem cells_pushqueue (p : Link) (que data : Ptr) :
    cells (pushqueue p que data) = Function.update (cells p) que (some (data, none)) := by
  funext a
  rw [cells, nodes_pushqueue]
  by_cases ha : a = que
  · simp [ha]
  · simp [ha, cells]

theorem holds_pushqueue_of_empty {p : Link} (que data : Ptr) (h : Holds p []) :
    Holds (pushqueue p que data) [(que, data)] := by
  obtain ⟨hfront, hrear⟩ := pushqueue_of_empty que data (h.emptyqueue_iff.mpr rfl)
  constructor
  · rw [cells_pushqueue, hfront, hrear]
    exact queue_singleton
  · rw [size_pushqueue, h.size]
    rfl

/-- The path from `front` does not change when a node is pushed after it. -/
theorem path_pushqueue {p : Link} {que : Ptr} {ns : List (Ptr × Ptr)} (data : Ptr)
    (h : Path (cells p) p.front ns none) (hne : emptyqueue p = false) (hfresh : p.nodes que = none) :
    Path (cells (pushqueue p que data)) (pushqueue p que data).front ns none := by
  rw [(pushqueue_of_nonempty que data hne).1]
  apply h.congr
  intro n hn
  have hcell := h.cell_ne_none hn
  have hnq : n.1 ≠ que := by
    intro heq
    apply hcell
    simp [cells, heq, hfresh]
  rw [cells_pushqueue, Function.update_of_ne hnq]

theorem removeNode_cases {p p' : Link} {q : Ptr} {f : Option Ptr}
    (h : removeNode p q f = .ok p') : ∃ node, p.nodes q = some node ∧ p'.size = p.size - 1 ∧
      ((p.front = some q ∧ p'.front = node.next ∧ p'.rear = p.rear ∧
          p'.nodes = Function.update p.nodes q none) ∨
        (p.front ≠ some q ∧ p.rear = some q ∧ p'.front = p.front ∧ p'.rear = f ∧
          p'.nodes = Function.update p.nodes q none) ∨
        ∃ a prev, p.front ≠ some q ∧ p.rear ≠ some q ∧ f = some a ∧ p.nodes a = some prev ∧
          p'.front = p.front ∧ p'.rear = p.rear ∧ p'.nodes = Function.update
            (Function.update p.nodes a (some { prev with next := node.next })) q none) := by
  unfold removeNode at h
  cases hq : p.nodes q with
  | none => simp [hq] at h
  | some node =>
    simp only [hq] at h
    refine ⟨node, rfl, ?_⟩
    by_cases hfront : p.front = some q
    · rw [if_pos hfront] at h
      cases h
      exact ⟨rfl, .inl ⟨hfront, rfl, rfl, rfl⟩⟩
    · rw [if_neg hfront] at h
      by_cases hrear : p.rear = some q
      · rw [if_pos hrear] at h
        cases h
        exact ⟨rfl, .inr (.inl ⟨hfront, hrear, rfl, rfl, rfl⟩)⟩
      · rw [if_neg hrear] at h
        cases f with
        | none => cases h
        | some a =>
          cases ha : p.nodes a with
          | none => simp [ha] at h
          | some prev =>
            simp only [ha] at h
            cases h
            exact ⟨rfl, .inr (.inr ⟨a, prev, hfront, hrear, rfl, ha, rfl, rfl, rfl⟩)⟩

theorem nodes_removeNode {p p' : Link} {q : Ptr} {f : Option Ptr} (h : removeNode p q f = .ok p') :
    p'.nodes q = none := by
  obtain ⟨_, _, _, ⟨_, _, _, hd⟩ | ⟨_, _, _, _, hd⟩ | ⟨_, _, _, _, _, _, _, _, hd⟩⟩ :=
    removeNode_cases h
  · rw [hd, Function.update_self]
  · rw [hd, Function.update_self]
  · rw [hd, Function.update_self]

theorem cells_of_dropped {p p' : Link} {q a : Ptr} (h : p'.nodes = Function.update p.nodes q none)
    (ha : a ≠ q) : cells p' a = cells p a := by
  rw [cells, h, Function.update_of_ne ha]
  rfl

section

variable {p p' : Link} {n : Ptr × Ptr} {seen rest : List (Ptr × Ptr)}

theorem Holds.ne_of_mem (h : Holds p (seen ++ n :: rest)) :
    ∀ m ∈ seen ++ rest, m.1 ≠ n.1 := by
  intro m hm heq
  have hnodup := h.queue.nodup
  rw [List.map_append, List.map_cons, List.nodup_middle] at hnodup
  apply (List.nodup_cons.mp hnodup).1
  rw [← List.map_append, ← heq]
  exact List.mem_map_of_mem hm

theorem Holds.rear_eq_iff (h : Holds p (seen ++ n :: rest)) : p.rear = some n.1 ↔ rest = [] := by
  have hne := h.ne_of_mem
  rw [h.queue.rear, List.getLast?_append_of_ne_nil _ (List.cons_ne_nil n rest)]
  rcases List.eq_nil_or_concat rest with rfl | ⟨init, m, rfl⟩
  · simp
  · have hm := hne m (by simp)
    rw [List.concat_eq_append, ← List.cons_append, List.getLast?_concat]
    simp [hm]

theorem Holds.front_eq_iff (h : Holds p (seen ++ n :: rest)) : p.front = some n.1 ↔ seen = [] := by
  have hne := h.ne_of_mem
  rw [h.queue.front_eq]
  cases seen with
  | nil => simp
  | cons m seen =>
    have hm := hne m (by simp)
    simp [hm]

theorem Holds.cell_eq (h : Holds p (seen ++ n :: rest)) {node : Node}
    (hnode : p.nodes n.1 = some node) : cells p n.1 = some (n.2, node.next) := by
  rw [← (h.queue.path.cell_eq (cells_of_nodes hnode)).1]
  exact cells_of_nodes hnode

theorem exists_removeNode (h : Holds p (seen ++ n :: rest)) :
    ∃ p', removeNode p n.1 (seen.getLast?.map Prod.fst) = .ok p' := by
  have hcell : ∀ m ∈ seen ++ n :: rest, ∃ node, p.nodes m.1 = some node := by
    intro m hm
    have hne := h.queue.path.cell_ne_none hm
    simp only [cells, ne_eq, Option.map_eq_none_iff] at hne
    exact Option.ne_none_iff_exists'.mp hne
  obtain ⟨node, hnode⟩ := hcell n (by simp)
  unfold removeNode
  simp only [hnode]
  split_ifs with hfront hrear
  · exact ⟨_, rfl⟩
  · exact ⟨_, rfl⟩
  · rcases List.eq_nil_or_concat seen with rfl | ⟨init, m, rfl⟩
    · exact absurd (h.front_eq_iff.mpr rfl) hfront
    · obtain ⟨prev, hprev⟩ := hcell m (by simp)
      simp only [List.concat_eq_append, List.getLast?_concat, Option.map_some, hprev]
      exact ⟨_, rfl⟩

/-- The removal of a node that is not the last. -/
theorem holds_removeNode (h : Holds p (seen ++ n :: rest)) (hlast : p.rear ≠ some n.1)
    (hrem : removeNode p n.1 (seen.getLast?.map Prod.fst) = .ok p') :
    Holds p' (seen ++ rest) := by
  obtain ⟨node, hnode, hsize, hcase⟩ := removeNode_cases hrem
  have hne := h.ne_of_mem
  have hcell := h.cell_eq hnode
  have hrest : rest ≠ [] := fun hnil => hlast (h.rear_eq_iff.mpr hnil)
  have hsize' : p'.size = (seen ++ rest).length := by
    rw [hsize, h.size]
    simp only [List.length_append, List.length_cons]
    omega
  refine ⟨?_, hsize'⟩
  rcases hcase with ⟨hfront, hfront', hrear', hdrop⟩ | ⟨_, hrear, _⟩ |
    ⟨a, prev, _, _, hf, ha, hfront', hrear', hdrop⟩
  · -- the first node
    obtain rfl := h.front_eq_iff.mp hfront
    rw [hfront', hrear']
    exact h.queue.remove_front hrest hcell fun m hm => cells_of_dropped hdrop (hne m hm)
  · exact absurd hrear hlast
  · -- a node between two others
    rcases List.eq_nil_or_concat seen with rfl | ⟨init, m, rfl⟩
    · cases hf
    · rw [List.concat_eq_append] at *
      have hma : m.1 = a := by simpa using hf
      have hm : Holds p (init ++ m :: (n :: rest)) := by simpa using h
      have hmn : m.1 ≠ n.1 := hne m (by simp)
      rw [hfront', hrear', List.append_assoc, List.singleton_append]
      apply hm.queue.remove_middle hrest hcell
      · have hprev := (hm.queue.path.cell_eq (cells_of_nodes (hma ▸ ha))).1
        rw [cells, hdrop, Function.update_of_ne hmn, ← hma, Function.update_self, ← hprev]
        rfl
      · intro k hk
        have hkn : k.1 ≠ n.1 := hne k (by simp at hk ⊢; tauto)
        have hkm : k.1 ≠ m.1 := hm.ne_of_mem k (by simp at hk ⊢; tauto)
        rw [cells, hdrop, Function.update_of_ne hkn, ← hma, Function.update_of_ne hkm]
        rfl

/-- The removal of the last node leaves no queue: `rear` stays, or a link to the freed node. -/
theorem not_holds_removeNode (h : Holds p (seen ++ n :: rest)) (hlast : p.rear = some n.1)
    (hrem : removeNode p n.1 (seen.getLast?.map Prod.fst) = .ok p') (ns : List (Ptr × Ptr)) :
    ¬ Holds p' ns := by
  intro hp'
  obtain rfl := h.rear_eq_iff.mp hlast
  obtain ⟨node, hnode, _, hcase⟩ := removeNode_cases hrem
  have hne := h.ne_of_mem
  rcases hcase with ⟨hfront, hfront', hrear', hdrop⟩ | ⟨_, _, hfront', _, hdrop⟩ |
    ⟨_, _, _, hrear, _⟩
  · obtain rfl := h.front_eq_iff.mp hfront
    have hnext := (h.queue.path.cell_eq (cells_of_nodes hnode)).2
    have hns : ns = [] := by
      have hf := hp'.queue.front_eq
      rw [hfront', hnext] at hf
      cases ns with
      | nil => rfl
      | cons m ns => cases hf
    rw [hns] at hp'
    have hnone := (queue_nil.mp hp'.queue).2
    rw [hrear', hlast] at hnone
    cases hnone
  · have hgone : cells p' n.1 = none := by
      rw [cells, hdrop, Function.update_self]
      rfl
    rw [List.append_nil] at hne
    have hq := hp'.queue
    rw [hfront'] at hq
    exact h.queue.not_dropLast (fun m hm => cells_of_dropped hdrop (hne m hm)) hgone hq
  · exact hrear hlast

end

end Phpco
