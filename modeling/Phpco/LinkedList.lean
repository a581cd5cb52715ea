import Mathlib.Data.List.Basic
import Mathlib.Data.List.Nodup
import Mathlib.Logic.Function.Basic

/-!
# Singly linked lists in a heap

A heap has at an address a value and the address of the next cell.  A path is
what following the links from one address to another passes through, and a
queue is a path to the end with its first and its last cell.
-/

namespace LinkedList

variable {Addr Val : Type*}

abbrev Heap (Addr Val : Type*) := Addr → Option (Val × Option Addr)

/-- The links lead from `p` through the cells `ns` to `q`. -/
def Path (h : Heap Addr Val) : Option Addr → List (Addr × Val) → Option Addr → Prop
  | p, [], q => p = q
  | p, n :: ns, q => p = some n.1 ∧ ∃ next, h n.1 = some (n.2, next) ∧ Path h next ns q

variable {h h' : Heap Addr Val} {p q r : Option Addr} {n : Addr × Val} {ns xs ys : List (Addr × Val)}

@[simp] theorem path_nil : Path h p [] q ↔ p = q := Iff.rfl

theorem path_cons : Path h p (n :: ns) q ↔
    p = some n.1 ∧ ∃ next, h n.1 = some (n.2, next) ∧ Path h next ns q := Iff.rfl

theorem path_append : Path h p (xs ++ ys) r ↔ ∃ q, Path h p xs q ∧ Path h q ys r := by
  induction xs generalizing p with
  | nil => simp
  | cons n xs ih =>
    simp only [List.cons_append, path_cons, ih]
    constructor
    · rintro ⟨hp, next, hn, q, hx, hy⟩
      exact ⟨q, ⟨hp, next, hn, hx⟩, hy⟩
    · rintro ⟨q, ⟨hp, next, hn, hx⟩, hy⟩
      exact ⟨hp, next, hn, q, hx, hy⟩

theorem Path.congr (hp : Path h p ns q) (heq : ∀ n ∈ ns, h' n.1 = h n.1) : Path h' p ns q := by
  induction ns generalizing p with
  | nil => exact hp
  | cons n ns ih =>
    obtain ⟨hfirst, next, hn, hrest⟩ := hp
    refine ⟨hfirst, next, ?_, ih hrest fun m hm => heq m (List.mem_cons_of_mem _ hm)⟩
    rw [heq n List.mem_cons_self, hn]

theorem Path.exists_next (hp : Path h p ns q) (hn : n ∈ ns) : ∃ next, h n.1 = some (n.2, next) := by
  induction ns generalizing p with
  | nil => cases hn
  | cons m ns ih =>
    obtain ⟨_, next, hm, hrest⟩ := hp
    rcases List.mem_cons.mp hn with rfl | hn
    · exact ⟨next, hm⟩
    · exact ih hrest hn

theorem Path.cell_ne_none (hp : Path h p ns q) (hn : n ∈ ns) : h n.1 ≠ none := by
  obtain ⟨next, hnext⟩ := hp.exists_next hn
  simp [hnext]

/-- There is only one way to the end. -/
theorem Path.unique (hx : Path h p xs none) (hy : Path h p ys none) : xs = ys := by
  induction xs generalizing p ys with
  | nil =>
    cases ys with
    | nil => rfl
    | cons m ys =>
      rw [path_nil] at hx
      rw [hx] at hy
      cases hy.1
  | cons n xs ih =>
    obtain ⟨hp, next, hn, hx⟩ := hx
    cases ys with
    | nil =>
      rw [path_nil, hp] at hy
      cases hy
    | cons m ys =>
      obtain ⟨hp', next', hm, hy⟩ := hy
      have haddr : n.1 = m.1 := Option.some.inj (hp.symm.trans hp')
      rw [← haddr, hn, Option.some.injEq, Prod.mk.injEq] at hm
      have hnm : n = m := Prod.ext haddr hm.1
      rw [hnm, ih hx (hm.2 ▸ hy)]

theorem Path.front_eq (hp : Path h p ns none) : p = ns.head?.map Prod.fst := by
  cases ns with
  | nil => exact hp
  | cons n ns => exact hp.1

/-- What a cell on the path holds: its own value, and the link to the one after it. -/
theorem Path.cell_eq {v : Val} {next : Option Addr} (hp : Path h p (xs ++ n :: ys) none)
    (hn : h n.1 = some (v, next)) : v = n.2 ∧ next = ys.head?.map Prod.fst := by
  obtain ⟨q, _, _, next', hn', hrest⟩ := path_append.mp hp
  rw [hn, Option.some.injEq, Prod.mk.injEq] at hn'
  obtain ⟨rfl, rfl⟩ := hn'
  exact ⟨rfl, hrest.front_eq⟩

/-- A cell that came twice would lead round in circles. -/
theorem Path.nodup (hp : Path h p ns none) : (ns.map Prod.fst).Nodup := by
  induction ns generalizing p with
  | nil => exact List.nodup_nil
  | cons n ns ih =>
    obtain ⟨_, next, hn, hrest⟩ := hp
    apply List.nodup_cons.mpr
    refine ⟨fun hmem => ?_, ih hrest⟩
    obtain ⟨m, hm, haddr⟩ := List.mem_map.mp hmem
    obtain ⟨xs, ys, hns⟩ := List.append_of_mem hm
    have hpath := hrest
    rw [hns] at hpath
    obtain ⟨q, _, hq⟩ := path_append.mp hpath
    have hfirst : q = some n.1 := by rw [hq.1, haddr]
    have hlong : Path h (some n.1) (n :: ns) none := ⟨rfl, next, hn, hrest⟩
    have hlen := congrArg List.length (hlong.unique (hfirst ▸ hq))
    rw [hns] at hlen
    simp only [List.length_cons, List.length_append] at hlen
    omega

theorem Path.replace {v : Val} (hp : Path h p (xs ++ n :: ys) q)
    (hn : ∀ next, h n.1 = some (n.2, next) → h' n.1 = some (v, next))
    (hoff : ∀ m ∈ xs ++ ys, h' m.1 = h m.1) : Path h' p (xs ++ (n.1, v) :: ys) q := by
  obtain ⟨r, hx, hfirst, next, hcell, hrest⟩ := path_append.mp hp
  apply path_append.mpr
  refine ⟨r, hx.congr fun m hm => hoff m (List.mem_append_left _ hm), hfirst, next, hn next hcell, ?_⟩
  exact hrest.congr fun m hm => hoff m (List.mem_append_right _ hm)

theorem Path.push {a : Addr} {v : Val} (hp : Path h p (xs ++ [n]) none)
    (hn : h' n.1 = some (n.2, some a)) (ha : h' a = some (v, none))
    (hoff : ∀ m ∈ xs, h' m.1 = h m.1) : Path h' p (xs ++ [n] ++ [(a, v)]) none := by
  obtain ⟨r, hx, hfirst, _⟩ := path_append.mp hp
  rw [List.append_assoc]
  apply path_append.mpr
  exact ⟨r, hx.congr hoff, hfirst, some a, hn, rfl, none, ha, rfl⟩

theorem Path.mem_of_path {a : Addr} (hy : Path h p ys none) (hx : Path h p xs (some a)) :
    a ∈ ys.map Prod.fst := by
  induction xs generalizing p ys with
  | nil =>
    rw [path_nil] at hx
    cases ys with
    | nil =>
      rw [hx] at hy
      cases hy
    | cons m ys =>
      obtain rfl : m.1 = a := Option.some.inj (hy.1.symm.trans hx)
      exact List.mem_cons_self
  | cons n xs ih =>
    obtain ⟨hp, next, hn, hx⟩ := hx
    cases ys with
    | nil =>
      rw [path_nil, hp] at hy
      cases hy
    | cons m ys =>
      obtain ⟨hp', next', hm, hy⟩ := hy
      have haddr : n.1 = m.1 := Option.some.inj (hp.symm.trans hp')
      rw [← haddr, hn, Option.some.injEq, Prod.mk.injEq] at hm
      exact List.mem_cons_of_mem _ (ih (hm.2 ▸ hy) hx)

theorem Path.mem_iff {a : Addr} (hp : Path h p ns none) :
    a ∈ ns.map Prod.fst ↔ ∃ xs, Path h p xs (some a) := by
  constructor
  · intro ha
    obtain ⟨n, hn, rfl⟩ := List.mem_map.mp ha
    obtain ⟨xs, ys, rfl⟩ := List.append_of_mem hn
    obtain ⟨q, hx, hq, _⟩ := path_append.mp hp
    exact ⟨xs, hq ▸ hx⟩
  · rintro ⟨xs, hx⟩
    exact hp.mem_of_path hx

theorem Path.not_of_dangling {a : Addr} (hx : Path h p xs (some a)) (ha : h a = none) :
    ¬ Path h p ys none := by
  intro hy
  obtain ⟨n, hn, rfl⟩ := List.mem_map.mp (hy.mem_of_path hx)
  exact hy.cell_ne_none hn ha

/-- A queue with the cells `ns`, given by its first and its last cell. -/
structure Queue (h : Heap Addr Val) (front rear : Option Addr) (ns : List (Addr × Val)) : Prop where
  path : Path h front ns none
  rear : rear = ns.getLast?.map Prod.fst

variable {front rear : Option Addr}

theorem queue_nil : Queue h front rear [] ↔ front = none ∧ rear = none :=
  ⟨fun hq => ⟨hq.path, hq.rear⟩, fun ⟨hf, hr⟩ => ⟨hf, hr⟩⟩

theorem Queue.nodup (hq : Queue h front rear ns) : (ns.map Prod.fst).Nodup := hq.path.nodup

theorem Queue.front_eq (hq : Queue h front rear ns) : front = ns.head?.map Prod.fst :=
  hq.path.front_eq

theorem queue_singleton [DecidableEq Addr] {a : Addr} {v : Val} :
    Queue (Function.update h a (some (v, none))) (some a) (some a) [(a, v)] :=
  ⟨⟨rfl, none, by simp, rfl⟩, rfl⟩

theorem Queue.remove_front {next : Option Addr} (hq : Queue h front rear (n :: ns)) (hns : ns ≠ [])
    (hn : h n.1 = some (n.2, next)) (hoff : ∀ m ∈ ns, h' m.1 = h m.1) :
    Queue h' next rear ns := by
  obtain ⟨_, next', hn', hrest⟩ := hq.path
  rw [hn, Option.some.injEq, Prod.mk.injEq] at hn'
  obtain ⟨m, ms, rfl⟩ := List.exists_cons_of_ne_nil hns
  refine ⟨(hn'.2 ▸ hrest).congr hoff, ?_⟩
  rw [hq.rear, List.getLast?_cons_cons]

/-- A cell between two others can be linked over. -/
theorem Queue.remove_middle {f : Addr × Val} {next : Option Addr}
    (hq : Queue h front rear (xs ++ f :: n :: ns)) (hns : ns ≠ []) (hn : h n.1 = some (n.2, next))
    (hf : h' f.1 = some (f.2, next)) (hoff : ∀ m ∈ xs ++ ns, h' m.1 = h m.1) :
    Queue h' front rear (xs ++ f :: ns) := by
  obtain ⟨q, hx, hfirst, _, _, hsecond⟩ := path_append.mp hq.path
  obtain ⟨_, next', hn', hrest⟩ := hsecond
  rw [hn, Option.some.injEq, Prod.mk.injEq] at hn'
  obtain ⟨m, ms, rfl⟩ := List.exists_cons_of_ne_nil hns
  constructor
  · apply path_append.mpr
    refine ⟨q, hx.congr fun k hk => hoff k (List.mem_append_left _ hk), hfirst, next, hf, ?_⟩
    exact (hn'.2 ▸ hrest).congr fun k hk => hoff k (List.mem_append_right _ hk)
  · rw [hq.rear]
    simp [List.getLast?_append]

/-- A queue whose last cell is freed while its predecessor still links to it is none. -/
theorem Queue.not_dropLast (hq : Queue h front rear (xs ++ [n])) {rear' : Option Addr}
    (hoff : ∀ m ∈ xs, h' m.1 = h m.1) (hn : h' n.1 = none) : ¬ Queue h' front rear' ys := by
  intro hq'
  obtain ⟨q, hx, hfirst, _⟩ := path_append.mp hq.path
  exact (hfirst ▸ hx.congr hoff).not_of_dangling hn hq'.path

end LinkedList
