import Phpco.TimeoutPasses

/-!
# One timeout pass

The pass of `event_loop` over a queue in order, with whatever the calls of
`aio_invoke` do that leave the queue alone.  A pass that fires persistent
elements only does what it should; the removal of an element ends in a read of
its freed node.
-/

namespace Phpco
open Except EventTable LinkedList Transition

/-- A call of `aio_invoke` by a pass: the element, its descriptor, and the clock after the call. -/
structure Firing where
  address : Ptr
  fd : ℤ
  time : ℤ
  deriving DecidableEq, Repr

/-- The pass at an element that expired: it is invoked and removed or counted afresh, and then
its node is read again.  `invoke` is what `aio_invoke` does with the coroutine it resumes. -/
def fireElement (invoke : State → ℤ → State) (l : EventLoop) (below : List CFrame) (now : ℤ)
    (s : State) (q : Ptr) (f : Option Ptr) (address : Ptr) (fd : ℤ) :
    Except Halt (State × Option Ptr × Firing) := do
  check (inTable fd) .outOfBounds
  let s := invoke (setPhase s l below (.expired now q f)) fd
  let timeouts ← reapTimeout s q f
  let node ← deref (timeouts.link.nodes q) .useAfterFree
  return (setPhase { s with timeouts := timeouts } l below (.timeouts now node.next (some q)),
    node.next, ⟨address, fd, s.now⟩)

/-- The pass at node `q`, reached after `f`; `fuel` bounds its rounds. -/
def passLoop (invoke : State → ℤ → State) (l : EventLoop) (below : List CFrame) (now : ℤ) :
    ℕ → State → Option Ptr → Option Ptr → Except Halt (State × List Firing)
  | _, s, none, _ => .ok (s, [])
  | 0, _, some _, _ => .error .diverges
  | fuel + 1, s, some q, f => do
    let node ← deref (s.timeouts.link.nodes q) .useAfterFree
    let element ← deref (s.timeouts.elements node.data) .useAfterFree
    if element.lastTime + element.timeout ≤ now then
      let (s, next, firing) ← fireElement invoke l below now s q f node.data element.fd
      let (s', firings) ← passLoop invoke l below now fuel s next (some q)
      return (s', firing :: firings)
    else
      passLoop invoke l below now fuel (setPhase s l below (.timeouts now node.next (some q)))
        node.next (some q)

def timeoutPass (invoke : State → ℤ → State) (l : EventLoop) (below : List CFrame) (fuel : ℕ)
    (s : State) : Except Halt (State × List Firing) :=
  passLoop invoke l below s.now fuel
    (setPhase s l below (.timeouts s.now s.timeouts.link.front none)) s.timeouts.link.front none

structure TimeoutEntry where
  node : Ptr
  address : Ptr
  element : TimeoutElement

def TimeoutEntry.cell (x : TimeoutEntry) : Ptr × Ptr := (x.node, x.address)

def TimeoutEntry.expired (now : ℤ) (x : TimeoutEntry) : Bool :=
  x.element.lastTime + x.element.timeout ≤ now

def TimeoutEntry.stays (now : ℤ) (x : TimeoutEntry) : Bool :=
  !x.expired now || x.element.persistent

/-- A queue in order, each node with an element of its own. -/
structure QueueOf (t : Timeouts) (xs : List TimeoutEntry) : Prop where
  holds : Holds t.link (xs.map TimeoutEntry.cell)
  elements : ∀ x ∈ xs, t.elements x.address = some x.element
  own : (xs.map TimeoutEntry.address).Nodup

/-- What a pass over the queue `xs` does that starts at `now`. -/
structure PassLaw (xs : List TimeoutEntry) (now : ℤ) (t : Timeouts) (firings : List Firing) :
    Prop where
  fired : firings.map (fun f => (f.address, f.fd)) =
    (xs.filter (TimeoutEntry.expired now)).map fun x => (x.address, x.element.fd)
  holds : Holds t.link ((xs.filter (TimeoutEntry.stays now)).map TimeoutEntry.cell)
  empty : emptyqueue t.link = true ↔ xs.filter (TimeoutEntry.stays now) = []
  refreshed : ∀ x ∈ xs, x.expired now = true → x.element.persistent = true →
    ∃ f ∈ firings, f.address = x.address ∧
      t.elements x.address = some { x.element with lastTime := f.time }
  unchanged : ∀ x ∈ xs, x.expired now = false → t.elements x.address = some x.element

/-- The pass ends, and it does what it should. -/
def PassesLawfully (invoke : State → ℤ → State) (l : EventLoop) (below : List CFrame) (s : State)
    (xs : List TimeoutEntry) : Prop :=
  ∃ fuel s' firings, timeoutPass invoke l below fuel s = .ok (s', firings) ∧
    PassLaw xs s.now s'.timeouts firings

section

variable {invoke : State → ℤ → State} {l : EventLoop} {below : List CFrame} {now : ℤ}
  {xs : List TimeoutEntry} {x : TimeoutEntry} {s : State} {q f : Option Ptr} {fuel : ℕ}

/-- The queue from `q` on, as far as the pass reads it. -/
structure Ahead (t : Timeouts) (q : Option Ptr) (xs : List TimeoutEntry) : Prop where
  path : Path (cells t.link) q (xs.map TimeoutEntry.cell) none
  elements : ∀ x ∈ xs, t.elements x.address = some x.element
  own : (xs.map TimeoutEntry.address).Nodup

theorem Ahead.nil {t : Timeouts} (h : Ahead t q []) : q = none := h.path

theorem Ahead.cons {t : Timeouts} (h : Ahead t q (x :: xs)) : q = some x.node ∧
    ∃ node, t.link.nodes x.node = some node ∧ node.data = x.address ∧ Ahead t node.next xs := by
  obtain ⟨hq, next, hn, hrest⟩ := h.path
  obtain ⟨node, hnode, heq⟩ := Option.map_eq_some_iff.mp hn
  obtain ⟨hdata, rfl⟩ := Prod.mk.inj heq
  exact ⟨hq, node, hnode, hdata, hrest, fun y hy => h.elements y (List.mem_cons_of_mem _ hy),
    (List.nodup_cons.mp h.own).2⟩

theorem Ahead.notMem {t : Timeouts} (h : Ahead t q (x :: xs)) : ∀ y ∈ xs, y.address ≠ x.address := by
  intro y hy heq
  apply (List.nodup_cons.mp h.own).1
  exact heq ▸ List.mem_map_of_mem hy

theorem Ahead.refresh {t : Timeouts} (h : Ahead t q xs) {a : Ptr} {e : TimeoutElement}
    (ha : ∀ y ∈ xs, y.address ≠ a) :
    Ahead { t with elements := Function.update t.elements a (some e) } q xs := by
  refine ⟨h.path, fun y hy => ?_, h.own⟩
  exact (Function.update_of_ne (ha y hy) _ _).trans (h.elements y hy)

theorem passLoop_cons {node : Node} (hnode : s.timeouts.link.nodes x.node = some node)
    (hdata : node.data = x.address) (hel : s.timeouts.elements x.address = some x.element) :
    passLoop invoke l below now (fuel + 1) s (some x.node) f =
      if x.expired now = true then do
        let (s, next, firing) ← fireElement invoke l below now s x.node f x.address x.element.fd
        let (s', firings) ← passLoop invoke l below now fuel s next (some x.node)
        return (s', firing :: firings)
      else passLoop invoke l below now fuel
        (setPhase s l below (.timeouts now node.next (some x.node))) node.next (some x.node) := by
  rw [passLoop, hnode]
  simp only [deref, bind, Except.bind, hdata, hel, TimeoutEntry.expired, decide_eq_true_eq]

theorem reapTimeout_of_persistent {node : Node} (hnode : s.timeouts.link.nodes x.node = some node)
    (hdata : node.data = x.address) (hel : s.timeouts.elements x.address = some x.element)
    (hpers : x.element.persistent = true) : reapTimeout s x.node f = .ok { s.timeouts with
      elements := Function.update s.timeouts.elements x.address
        (some { x.element with lastTime := s.now }) } := by
  apply bind_eq_ok.mpr ⟨node, deref_eq_ok.mpr hnode, ?_⟩
  apply bind_eq_ok.mpr ⟨x.element, deref_eq_ok.mpr (hdata ▸ hel), ?_⟩
  rw [if_pos hpers, hdata]
  rfl

theorem fireElement_of_persistent (l : EventLoop) (below : List CFrame) (now : ℤ) (f : Option Ptr)
    (hkeep : ∀ s fd, (invoke s fd).timeouts = s.timeouts)
    {node : Node} (a : Ptr) (hnode : s.timeouts.link.nodes x.node = some node)
    (hdata : node.data = x.address) (hel : s.timeouts.elements x.address = some x.element)
    (hpers : x.element.persistent = true) (hin : inTable x.element.fd) :
    ∃ s' time, fireElement invoke l below now s x.node f a x.element.fd =
        .ok (s', node.next, ⟨a, x.element.fd, time⟩) ∧
      s'.timeouts = { s.timeouts with
        elements := Function.update s.timeouts.elements x.address
          (some { x.element with lastTime := time }) } := by
  obtain ⟨s₁, hs₁⟩ : ∃ s₁, s₁ = invoke (setPhase s l below (.expired now x.node f)) x.element.fd :=
    ⟨_, rfl⟩
  have hsame : s₁.timeouts = s.timeouts := hs₁ ▸ hkeep _ _
  have hreap := reapTimeout_of_persistent (s := s₁) (f := f) (by rwa [hsame]) hdata
    (by rwa [hsame]) hpers
  rw [hsame] at hreap
  refine ⟨setPhase { s₁ with timeouts := { s.timeouts with
    elements := Function.update s.timeouts.elements x.address
      (some { x.element with lastTime := s₁.now }) } } l below
    (.timeouts now node.next (some x.node)), s₁.now, ?_, rfl⟩
  apply bind_eq_ok.mpr ⟨(), check_eq_ok.mpr hin, ?_⟩
  rw [← hs₁]
  apply bind_eq_ok.mpr ⟨_, hreap, ?_⟩
  exact bind_eq_ok.mpr ⟨node, deref_eq_ok.mpr hnode, rfl⟩

/-- Any other element stops the pass. -/
theorem fireElement_ne_ok (hkeep : ∀ s fd, (invoke s fd).timeouts = s.timeouts) {node : Node}
    {a : Ptr} (hnode : s.timeouts.link.nodes x.node = some node) (hdata : node.data = x.address)
    (hel : s.timeouts.elements x.address = some x.element)
    (hbad : ¬ (x.element.persistent = true ∧ inTable x.element.fd)) (r : State × Option Ptr × Firing) :
    fireElement invoke l below now s x.node f a x.element.fd ≠ .ok r := by
  intro h
  have hsame : (invoke (setPhase s l below (.expired now x.node f)) x.element.fd).timeouts =
      s.timeouts := hkeep _ _
  unfold fireElement at h
  obtain ⟨_, hin, h⟩ := bind_eq_ok.mp h
  obtain ⟨timeouts, hreap, h⟩ := bind_eq_ok.mp h
  obtain ⟨node', hnode', _⟩ := bind_eq_ok.mp h
  -- what is not persistent is freed, and the node is read after that
  obtain ⟨node'', element, hn, he, hpers, _⟩ := reapTimeout_cases hreap (deref_eq_ok.mp hnode')
  rw [hsame] at hn he
  obtain rfl : node = node'' := Option.some.inj (hnode.symm.trans hn)
  rw [hdata, hel] at he
  cases he
  exact hbad ⟨hpers, check_eq_ok.mp hin⟩

/-- A pass over persistent elements goes on to the end. -/
theorem passLoop_of_kept (l : EventLoop) (below : List CFrame)
    (hkeep : ∀ s fd, (invoke s fd).timeouts = s.timeouts)
    (h : Ahead s.timeouts q xs) (hok : ∀ x ∈ xs, x.expired now = true →
      x.element.persistent = true ∧ inTable x.element.fd) :
    ∃ s' firings, passLoop invoke l below now xs.length s q f = .ok (s', firings) ∧
      s'.timeouts.link = s.timeouts.link ∧
      firings.map (fun f => (f.address, f.fd)) =
        (xs.filter (TimeoutEntry.expired now)).map (fun x => (x.address, x.element.fd)) ∧
      (∀ x ∈ xs, x.expired now = true → ∃ f ∈ firings, f.address = x.address ∧
        s'.timeouts.elements x.address = some { x.element with lastTime := f.time }) ∧
      ∀ a, (∀ x ∈ xs, x.expired now = true → x.address ≠ a) →
        s'.timeouts.elements a = s.timeouts.elements a := by
  induction xs generalizing s q f with
  | nil =>
    obtain rfl := h.nil
    refine ⟨s, [], by simp [passLoop], rfl, rfl, fun x hx => ?_, fun _ _ => rfl⟩
    cases hx
  | cons x xs ih =>
    obtain ⟨rfl, node, hnode, hdata, hrest⟩ := h.cons
    have hel := h.elements x List.mem_cons_self
    have htail : ∀ y ∈ xs, y.expired now = true →
        y.element.persistent = true ∧ inTable y.element.fd :=
      fun y hy => hok y (List.mem_cons_of_mem _ hy)
    rw [List.length_cons, passLoop_cons hnode hdata hel]
    by_cases hexp : x.expired now = true
    · obtain ⟨hpers, hin⟩ := hok x List.mem_cons_self hexp
      obtain ⟨s₁, time, hfire, ht⟩ := fireElement_of_persistent l below now f
        hkeep x.address hnode hdata hel hpers hin
      have hahead : Ahead s₁.timeouts node.next xs := by
        rw [ht]
        exact hrest.refresh h.notMem
      obtain ⟨s', firings, hs', hlink, hfired, hrefreshed, hsame⟩ := ih (f := some x.node) hahead htail
      refine ⟨s', ⟨x.address, x.element.fd, time⟩ :: firings, ?_, ?_, ?_, ?_, ?_⟩
      · rw [if_pos hexp, hfire]
        simp only [bind, Except.bind, hs']
        rfl
      · rw [hlink, ht]
      · rw [List.map_cons, hfired, List.filter_cons_of_pos hexp, List.map_cons]
      · intro y hy hyexp
        rcases List.mem_cons.mp hy with rfl | hy
        · -- the rest of the pass leaves the element alone
          refine ⟨_, List.mem_cons_self, rfl, ?_⟩
          rw [hsame _ fun z hz _ => h.notMem z hz, ht]
          exact Function.update_self ..
        · obtain ⟨g, hg, hga, hge⟩ := hrefreshed y hy hyexp
          exact ⟨g, List.mem_cons_of_mem _ hg, hga, hge⟩
      · intro a ha
        rw [hsame a fun y hy => ha y (List.mem_cons_of_mem _ hy), ht]
        exact Function.update_of_ne (Ne.symm (ha x List.mem_cons_self hexp)) _ _
    · obtain ⟨s', firings, hs', hlink, hfired, hrefreshed, hsame⟩ := ih
        (s := setPhase s l below (.timeouts now node.next (some x.node))) (f := some x.node) hrest htail
      refine ⟨s', firings, ?_, hlink, ?_, ?_, ?_⟩
      · rw [if_neg hexp]
        exact hs'
      · rw [hfired, List.filter_cons_of_neg hexp]
      · intro y hy hyexp
        rcases List.mem_cons.mp hy with rfl | hy
        · exact absurd hyexp hexp
        · exact hrefreshed y hy hyexp
      · exact fun a ha => hsame a fun y hy => ha y (List.mem_cons_of_mem _ hy)

/-- A pass that gets through has fired persistent elements only. -/
theorem kept_of_passLoop (hkeep : ∀ s fd, (invoke s fd).timeouts = s.timeouts)
    (h : Ahead s.timeouts q xs) {r : State × List Firing}
    (hpass : passLoop invoke l below now fuel s q f = .ok r) :
    ∀ x ∈ xs, x.expired now = true → x.element.persistent = true ∧ inTable x.element.fd := by
  induction xs generalizing s q f fuel r with
  | nil =>
    intro x hx
    cases hx
  | cons x xs ih =>
    obtain ⟨rfl, node, hnode, hdata, hrest⟩ := h.cons
    have hel := h.elements x List.mem_cons_self
    cases fuel with
    | zero => cases hpass
    | succ fuel =>
      rw [passLoop_cons hnode hdata hel] at hpass
      by_cases hexp : x.expired now = true
      · rw [if_pos hexp] at hpass
        obtain ⟨⟨s₁, next, firing⟩, hfire, hpass⟩ := bind_eq_ok.mp hpass
        obtain ⟨⟨s', firings⟩, hrec, _⟩ := bind_eq_ok.mp hpass
        have hgood : x.element.persistent = true ∧ inTable x.element.fd := by
          by_contra hbad
          exact fireElement_ne_ok hkeep hnode hdata hel hbad _ hfire
        obtain ⟨s₂, time, hfire', ht⟩ := fireElement_of_persistent l below now f
          hkeep x.address hnode hdata hel hgood.1 hgood.2
        cases hfire.symm.trans hfire'
        have hahead : Ahead s₁.timeouts node.next xs := by
          rw [ht]
          exact hrest.refresh h.notMem
        intro y hy hyexp
        rcases List.mem_cons.mp hy with rfl | hy
        · exact hgood
        · exact ih hahead hrec y hy hyexp
      · rw [if_neg hexp] at hpass
        intro y hy hyexp
        rcases List.mem_cons.mp hy with rfl | hy
        · exact absurd hyexp hexp
        · exact ih (s := setPhase s l below (.timeouts now node.next (some x.node))) hrest hpass y hy hyexp

/-- `invoke` stands for runs of the system: for what comes between the switch that `aio_invoke`
makes in a pass of this loop and the return to it. -/
def InvokesBy (invoke : State → ℤ → State) (l : EventLoop) (below : List CFrame) (s₀ : State) :
    Prop :=
  ∀ s as now q f fd, runFrom step s₀ as = .ok s →
    s.stack = .eventLoop { l with phase := .timeouts now (some q) f } :: below →
    dispatchFd s = some fd → inTable fd →
    ∃ answer s₁ bs, aioInvoke (setPhase s l below (.expired now q f)) fd answer = .ok s₁ ∧
      runFrom step s₁ bs = .ok (invoke (setPhase s l below (.expired now q f)) fd) ∧
      (invoke (setPhase s l below (.expired now q f)) fd).stack =
        .eventLoop { l with phase := .expired now q f } :: below

/-- The system goes from `s` through the pass, or up to the step at which the pass breaks off. -/
def RunsTo (s : State) (l : EventLoop) (below : List CFrame) (now : ℤ) :
    Except Halt (State × List Firing) → Prop
  | .ok (s', _) => ∃ as f, runFrom step s as = .ok s' ∧
      s'.stack = .eventLoop { l with phase := .timeouts now none f } :: below
  | .error e => e = .diverges ∨
      ∃ as t, runFrom step s as = .ok t ∧ ∀ answer, step t (.loopStep answer) = .error e

theorem RunsTo.of_run {s' : State} {r : Except Halt (State × List Firing)} {as : List Action}
    (hrun : runFrom step s as = .ok s') (h : RunsTo s' l below now r) : RunsTo s l below now r := by
  match r with
  | .ok (t, _) =>
    obtain ⟨bs, f, hbs, ht⟩ := h
    exact ⟨as ++ bs, f, runFrom_append hrun hbs, ht⟩
  | .error e =>
    rcases h with hdiv | ⟨bs, t, hbs, ht⟩
    · exact .inl hdiv
    · exact .inr ⟨as ++ bs, t, runFrom_append hrun hbs, ht⟩

theorem step_loopStep {l' : EventLoop} (hs : s.stack = .eventLoop l' :: below) (answer : Zval) :
    step s (.loopStep answer) = eventLoopStep s l' below answer := by
  simp only [step, hs]

/-- At an element that expired, the system invokes its slot and then looks at the node again. -/
theorem runsTo_fireElement {s₀ : State} {node : Node} {element : TimeoutElement} {q : Ptr}
    (hinv : InvokesBy invoke l below s₀) {as : List Action} (hs₀ : runFrom step s₀ as = .ok s)
    (hs : s.stack = .eventLoop { l with phase := .timeouts now (some q) f } :: below)
    (hnode : s.timeouts.link.nodes q = some node)
    (hel : s.timeouts.elements node.data = some element)
    (hexp : element.lastTime + element.timeout ≤ now) :
    match fireElement invoke l below now s q f node.data element.fd with
    | .ok (s', next, _) => (∃ bs, runFrom step s bs = .ok s') ∧
        s'.stack = .eventLoop { l with phase := .timeouts now next (some q) } :: below
    | .error e => ∃ bs t, runFrom step s bs = .ok t ∧ ∀ answer, step t (.loopStep answer) = .error e := by
  have hfire : ∀ answer, step s (.loopStep answer) =
      aioInvoke (setPhase s l below (.expired now q f)) element.fd answer := by
    intro answer
    rw [step_loopStep hs, eventLoopStep]
    simp only [hnode, hel, deref, bind, Except.bind, if_pos hexp]
    rfl
  by_cases hin : inTable element.fd
  · have hdispatch : dispatchFd s = some element.fd := by
      simp [dispatchFd, hs, hnode, hel, hexp]
    obtain ⟨answer, s₁, bs, hcall, hbs, hstack⟩ := hinv s as now q f element.fd hs₀ hs hdispatch hin
    obtain ⟨t, ht⟩ : ∃ t, t = invoke (setPhase s l below (.expired now q f)) element.fd := ⟨_, rfl⟩
    rw [← ht] at hbs hstack
    have hrun : runFrom step s (.loopStep answer :: bs) = .ok t := by
      simp only [runFrom, hfire, hcall]
      exact hbs
    have hreap : ∀ answer, step t (.loopStep answer) = reapTimeout t q f >>= fun timeouts =>
        deref (timeouts.link.nodes q) .useAfterFree >>= fun node =>
        .ok (setPhase { t with timeouts := timeouts } l below (.timeouts now node.next (some q))) := by
      intro answer
      rw [step_loopStep hstack, eventLoopStep]
      rfl
    have hok : check (inTable element.fd) .outOfBounds = .ok () := check_eq_ok.mpr hin
    unfold fireElement
    rw [hok, ← ht]
    simp only [bind, Except.bind] at hreap ⊢
    cases hr : reapTimeout t q f with
    | error e => exact ⟨_, t, hrun, fun answer => by rw [hreap, hr]⟩
    | ok timeouts =>
      cases hn : deref (timeouts.link.nodes q) .useAfterFree with
      | error e =>
        simp only [hn]
        refine ⟨_, t, hrun, fun answer => ?_⟩
        rw [hreap, hr]
        simp only [hn]
      | ok node' =>
        simp only [hn]
        refine ⟨⟨_, runFrom_append hrun (runFrom_one (a := .loopStep .null) ?_)⟩, rfl⟩
        rw [hreap, hr]
        simp only [hn]
  · have hout : check (inTable element.fd) .outOfBounds = .error .outOfBounds := by
      simp [check, hin]
    unfold fireElement
    rw [hout]
    refine ⟨[], s, rfl, fun answer => ?_⟩
    rw [hfire, aioInvoke, hout]
    rfl

theorem runsTo_passLoop {s₀ : State} (hinv : InvokesBy invoke l below s₀) {as : List Action}
    (hs₀ : runFrom step s₀ as = .ok s)
    (hs : s.stack = .eventLoop { l with phase := .timeouts now q f } :: below) (fuel : ℕ) :
    RunsTo s l below now (passLoop invoke l below now fuel s q f) := by
  induction fuel generalizing s q f as with
  | zero =>
    cases q with
    | none => exact ⟨[], f, rfl, hs⟩
    | some q => exact .inl rfl
  | succ fuel ih =>
    cases q with
    | none => exact ⟨[], f, rfl, hs⟩
    | some q =>
      rw [passLoop]
      cases hnode : s.timeouts.link.nodes q with
      | none =>
        refine .inr ⟨[], s, rfl, fun answer => ?_⟩
        rw [step_loopStep hs, eventLoopStep]
        simp only [hnode]
        rfl
      | some node =>
        cases hel : s.timeouts.elements node.data with
        | none =>
          simp only [deref, bind, Except.bind, hel]
          refine .inr ⟨[], s, rfl, fun answer => ?_⟩
          rw [step_loopStep hs, eventLoopStep]
          simp only [hnode, deref, bind, Except.bind, hel]
        | some element =>
          simp only [deref, bind, Except.bind, hel]
          split_ifs with hexp
          · have hfire := runsTo_fireElement hinv hs₀ hs hnode hel hexp
            cases hr : fireElement invoke l below now s q f node.data element.fd with
            | error e =>
              rw [hr] at hfire
              exact .inr hfire
            | ok r =>
              obtain ⟨s₁, next, firing⟩ := r
              rw [hr] at hfire
              obtain ⟨⟨bs, hbs⟩, hs₁⟩ := hfire
              have hrest := RunsTo.of_run hbs (ih (runFrom_append hs₀ hbs) hs₁)
              cases hp : passLoop invoke l below now fuel s₁ next (some q) with
              | error e =>
                simp only [hp] at hrest ⊢
                exact hrest
              | ok r =>
                simp only [hp] at hrest ⊢
                exact hrest
          · have hnext : step s (.loopStep .null) =
                .ok (setPhase s l below (.timeouts now node.next (some q))) := by
              rw [step_loopStep hs, eventLoopStep]
              simp only [hnode, hel, deref, bind, Except.bind, if_neg hexp]
              rfl
            have hrun := runFrom_one hnext
            exact RunsTo.of_run hrun (ih (runFrom_append hs₀ hrun) rfl)

/-- From the end of a batch on, the system goes through the pass. -/
theorem runsTo_timeoutPass {since : EventTable} (hinv : InvokesBy invoke l below s)
    (hs : s.stack = .eventLoop { l with phase := .batch [] since } :: below) (fuel : ℕ) :
    RunsTo s l below s.now (timeoutPass invoke l below fuel s) := by
  have hbegin : step s (.loopStep .null) =
      .ok (setPhase s l below (.timeouts s.now s.timeouts.link.front none)) := by
    rw [step_loopStep hs]
    rfl
  have hrun := runFrom_one hbegin
  exact RunsTo.of_run hrun (runsTo_passLoop hinv hrun rfl fuel)

end

/-- A pass over a queue in order does what it should, whatever the coroutines do that leave the
queue alone, exactly if all elements that expired are persistent and name a slot of the table. -/
theorem timeout_pass_lawful_iff (invoke : State → ℤ → State)
    (hkeep : ∀ s fd, (invoke s fd).timeouts = s.timeouts) (l : EventLoop) (below : List CFrame)
    (s : State) (xs : List TimeoutEntry) (h : QueueOf s.timeouts xs) :
    PassesLawfully invoke l below s xs ↔ ∀ x ∈ xs, x.expired s.now = true →
      x.element.persistent = true ∧ inTable x.element.fd := by
  have hahead : Ahead s.timeouts s.timeouts.link.front xs :=
    ⟨h.holds.queue.path, h.elements, h.own⟩
  constructor
  · rintro ⟨fuel, s', firings, hpass, _⟩
    exact kept_of_passLoop
      (s := setPhase s l below (.timeouts s.now s.timeouts.link.front none)) hkeep hahead hpass
  · intro hok
    obtain ⟨s', firings, hpass, hlink, hfired, hrefreshed, hsame⟩ := passLoop_of_kept l below
      (s := setPhase s l below (.timeouts s.now s.timeouts.link.front none)) (f := none)
      hkeep hahead hok
    -- nothing is to be removed
    have hall : xs.filter (TimeoutEntry.stays s.now) = xs := by
      apply List.filter_eq_self.mpr
      intro x hx
      cases hexp : x.expired s.now with
      | false => simp [TimeoutEntry.stays, hexp]
      | true => simp [TimeoutEntry.stays, (hok x hx hexp).1]
    have hholds : Holds s'.timeouts.link (xs.map TimeoutEntry.cell) := by
      rw [hlink]
      exact h.holds
    refine ⟨xs.length, s', firings, hpass, hfired, hall.symm ▸ hholds, ?_,
      fun x hx hexp _ => hrefreshed x hx hexp, fun x hx hexp => ?_⟩
    · rw [hall, hholds.emptyqueue_iff, List.map_eq_nil_iff]
    · rw [hsame x.address fun y hy hyexp heq => ?_]
      · exact h.elements x hx
      · rw [List.inj_on_of_nodup_map h.own hy hx heq, hexp] at hyexp
        cases hyexp

def oneTimeout (persistent : Bool) : State :=
  socketSetTimeout (initial 0 0) (.stream (some 3)) 0 0 persistent

def oneEntry (persistent : Bool) : TimeoutEntry := ⟨2, 1, ⟨3, 0, 0, persistent⟩⟩

theorem queueOf_oneTimeout (persistent : Bool) :
    QueueOf (oneTimeout persistent).timeouts [oneEntry persistent] := by
  have hempty : Holds initqueue [] := ⟨queue_nil.mpr ⟨rfl, rfl⟩, rfl⟩
  refine ⟨holds_pushqueue_of_empty 2 1 hempty, fun x hx => ?_, List.nodup_singleton 1⟩
  obtain rfl := List.mem_singleton.mp hx
  rfl

def mainLoop : EventLoop := ⟨callFrame (initial 0 0) callSite, .wait, 0⟩

theorem timeout_pass_lawful_iff_persistent :
    PassesLawfully (fun s _ => s) mainLoop [] (oneTimeout true) [oneEntry true] := by
  apply (timeout_pass_lawful_iff (fun s _ => s) (fun _ _ => rfl) mainLoop [] (oneTimeout true)
    [oneEntry true] (queueOf_oneTimeout true)).mpr
  intro x hx _
  obtain rfl := List.mem_singleton.mp hx
  decide

/-- A single timeout that is not persistent. -/
theorem one_shot_not_passed : QueueOf (oneTimeout false).timeouts [oneEntry false] ∧
    ¬ PassesLawfully (fun s _ => s) mainLoop [] (oneTimeout false) [oneEntry false] := by
  have hqueue := queueOf_oneTimeout false
  refine ⟨hqueue, ?_⟩
  rintro ⟨fuel, s', firings, hpass, _⟩
  have hkept := kept_of_passLoop (s := setPhase (oneTimeout false) mainLoop []
    (.timeouts (oneTimeout false).now (oneTimeout false).timeouts.link.front none))
    (fun _ _ => rfl) ⟨hqueue.holds.queue.path, hqueue.elements, hqueue.own⟩ hpass
  exact absurd (hkept (oneEntry false) List.mem_cons_self rfl).1 (by decide)

end Phpco
