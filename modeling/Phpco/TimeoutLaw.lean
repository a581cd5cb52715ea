import Phpco.BatchLaw
import Phpco.ReportLaw
import Phpco.TimeoutPasses

/-!
# When a timeout may end a wait

The time of a timeout is counted from `last_time` of its element, which only the
passes set.  A coroutine is not resumed too early as long as a wait for a
descriptor with a timeout begins when the timeout was counted last, and no
operation completes on a descriptor with a timeout that was counted before.
-/

namespace Phpco
open Except EventTable LinkedList Transition

/-- When the timeouts were set, for how long, when an operation on their descriptors completed
since, and when the current waits began. -/
structure WaitHistory where
  setAt : Ptr → ℤ
  given : Ptr → ℤ
  completed : Ptr → Option ℤ
  began : ℤ → ℤ

/-- The descriptor on which an operation completes in time: a coroutine waits for it, and the batch
loop comes to its entry. -/
def completesOn (s : State) : Action → Option ℤ
  | .loopStep _ => (batchEntry s).bind fun e =>
    if dispatched e ∧ s.rg.waiter e.dataFd ≠ none then some e.dataFd else none
  | _ => none

def noteCompletion (s : State) (a : Action) (e : Option TimeoutElement) (old : Option ℤ) :
    Option ℤ :=
  match completesOn s a, e with
  | some fd, some e => if e.fd = fd then some s.now else old
  | _, _ => old

def noteWaits (g : WaitHistory) (s : State) (a : Action) (_ : State) : WaitHistory where
  setAt := match a with
    | .socketSetTimeout _ _ _ _ _ => Function.update g.setAt (s.next + 1) s.now
    | _ => g.setAt
  given := match a with
    | .socketSetTimeout _ _ _ timeout _ => Function.update g.given (s.next + 1) timeout
    | _ => g.given
  completed := match a with
    | .socketSetTimeout _ _ _ _ _ => Function.update g.completed (s.next + 1) none
    | a => fun p => noteCompletion s a (s.timeouts.elements p) (g.completed p)
  began := match ioRequest s a with
    | some (q, _) => if s.rg.waiter q.fd = none then Function.update g.began q.fd s.now else g.began
    | none => g.began

def WaitHistory.initial : WaitHistory := ⟨fun _ => 0, fun _ => 0, fun _ => none, fun _ => 0⟩

/-- The element at address `a`, which can be reached from `front`. -/
def Queued (s : State) (a : Ptr) (e : TimeoutElement) : Prop :=
  (∃ ns q, Path (cells s.timeouts.link) s.timeouts.link.front ns none ∧ (q, a) ∈ ns) ∧
    s.timeouts.elements a = some e

/-- A pass found the element expired, and sets its `last_time` once it has invoked it. -/
def Invoking (s : State) (a : Ptr) : Prop :=
  ∃ l ∈ loops s.stack, ∃ now q f node, l.phase = .expired now q f ∧
    s.timeouts.link.nodes q = some node ∧ node.data = a

/-- The next step of a pass finds the element expired. -/
def Fires (s : State) (act : Action) (a : Ptr) (e : TimeoutElement) : Prop :=
  (∃ answer, act = .loopStep answer) ∧ ∃ l below now q f node, s.stack = .eventLoop l :: below ∧
    l.phase = .timeouts now (some q) f ∧ s.timeouts.link.nodes q = some node ∧ node.data = a ∧
    s.timeouts.elements a = some e ∧ e.lastTime + e.timeout ≤ now

/-- A coroutine begins to wait for the descriptor. -/
def BeginsWait (s : State) (act : Action) (fd : ℤ) : Prop :=
  s.epollfd ≠ none ∧ s.rg.waiter fd = none ∧ ∃ q, ioRequest s act = some (q, true) ∧ q.fd = fd

/-- The clock of `gettimeofday` is not set back, timeouts fit into an `int`, waits begin when
the timeouts for their descriptors were counted last, no operation completes on a descriptor with
a one-shot timeout or one that was counted before, and no pass fires what an outer pass is
invoking. -/
structure InTime (s : State) (act : Action) : Prop where
  clock : ∀ now clock, act = .tick now clock → s.now ≤ now
  fits : ∀ site obj garbage timeout persistent,
    act = .socketSetTimeout site obj garbage timeout persistent → timeout ≤ toInt timeout
  begins : ∀ a e, BeginsWait s act e.fd → Queued s a e → e.lastTime = s.now ∨ Invoking s a
  completes : ∀ a e, completesOn s act = some e.fd → Queued s a e →
    e.persistent = true ∧ e.lastTime = s.now
  nested : ∀ a e, Fires s act a e → ¬ Invoking s a

/-- A timeout that ends a wait was set and the wait began long enough ago.  One on whose
descriptor an operation has completed at `time` fires only if it is persistent, and long enough
after that. -/
structure Timely (g : WaitHistory) (s : State) (act : Action) (s' : State) : Prop where
  fires : ∀ a e τ c x result, Fires s act a e →
    s'.log = .switched τ (.io e.fd) c x result :: s.log →
    g.given a ≤ s.now - g.setAt a ∧ g.given a ≤ s.now - g.began e.fd
  completed : ∀ a e time, Fires s act a e → g.completed a = some time →
    e.persistent = true ∧ g.given a ≤ s.now - time

theorem queued_iff {s : State} {ns : List (Ptr × Ptr)} {g : Examined} (h : Walk s ns g) {a : Ptr}
    {e : TimeoutElement} :
    Queued s a e ↔ (∃ q, (q, a) ∈ ns) ∧ s.timeouts.elements a = some e := by
  constructor
  · rintro ⟨⟨ns', q, hpath, hq⟩, he⟩
    exact ⟨⟨q, by rwa [h.path.unique hpath]⟩, he⟩
  · rintro ⟨⟨q, hq⟩, he⟩
    exact ⟨⟨ns, q, h.path, hq⟩, he⟩

theorem walk_of_reached {ok : State → Action → Prop} {s : State} (h : Reached ok s) :
    ∃ ns g, Walk s ns g := by
  apply h.invariant_of (I := fun s => ∃ ns g, Walk s ns g)
  · exact fun s hs => ⟨[], fun _ => [], walk_initial hs _⟩
  · rintro s a s' hreach ⟨ns, g, hw⟩ _ hstep
    obtain ⟨ns', hw', _⟩ := walk_step hreach hw hstep
    exact ⟨ns', _, hw'⟩

/-- A reachable element was reachable before, or it is new. -/
theorem queued_step {ok : State → Action → Prop} {s s' : State} {act : Action} {a : Ptr}
    {e' : TimeoutElement} (hreach : Reached ok s) (hstep : step s act = .ok s')
    (hq : Queued s' a e') :
    (∃ e, Queued s a e ∧ (e' = e ∨ e' = { e with lastTime := s.now })) ∨
      ∃ site obj garbage timeout persistent,
        act = .socketSetTimeout site obj garbage timeout persistent ∧ a = s.next + 1 ∧
        e' = ⟨cConvertToFd obj garbage, toInt timeout, s.now, persistent⟩ := by
  obtain ⟨ns, g, hw⟩ := walk_of_reached hreach
  obtain ⟨ns', hw', hns⟩ := walk_step hreach hw hstep
  obtain ⟨⟨q, hmem⟩, he'⟩ := (queued_iff hw').mp hq
  cases queueMove hstep with
  | same ht ha =>
    left
    obtain rfl : ns' = ns := hns.resolve_right fun h => by cases ha.symm.trans h.1
    exact ⟨e', (queued_iff hw).mpr ⟨⟨q, hmem⟩, by rw [← ht, he']⟩, .inl rfl⟩
  | counts answer l below now q' f node element ha _ _ _ hel _ _ ht =>
    left
    obtain rfl : ns' = ns := hns.resolve_right fun h => by
      rw [ha] at h
      cases h.1
    rw [ht] at he'
    change Function.update s.timeouts.elements node.data _ a = some e' at he'
    by_cases hnode : a = node.data
    · rw [hnode, Function.update_self] at he'
      cases he'
      exact ⟨element, (queued_iff hw).mpr ⟨⟨q, hmem⟩, by rw [hnode, hel]⟩, .inr rfl⟩
    · rw [Function.update_of_ne hnode] at he'
      exact ⟨e', (queued_iff hw).mpr ⟨⟨q, hmem⟩, he'⟩, .inl rfl⟩
  | push site obj garbage timeout persistent ha _ _ _ _ ht =>
    rw [ht] at he'
    change Function.update s.timeouts.elements (s.next + 1) _ a = some e' at he'
    by_cases hnew : a = s.next + 1
    · rw [hnew, Function.update_self] at he'
      cases he'
      exact .inr ⟨site, obj, garbage, timeout, persistent, ha, hnew, rfl⟩
    · left
      rw [Function.update_of_ne hnew] at he'
      have hold : ns' = ns := by
        rcases hns with hns | ⟨_, _, hns⟩
        · exact hns
        · rw [hns, List.mem_singleton, Prod.mk.injEq] at hmem
          exact absurd hmem.2 hnew
      exact ⟨e', (queued_iff hw).mpr ⟨⟨q, hold ▸ hmem⟩, he'⟩, .inl rfl⟩

theorem nodes_step {ok : State → Action → Prop} {s s' : State} {act : Action} {q : Ptr} {node : Node}
    (hreach : Reached ok s) (hstep : step s act = .ok s')
    (hnode : s.timeouts.link.nodes q = some node) : s'.timeouts.link.nodes q = some node := by
  obtain ⟨ns, g, hw⟩ := walk_of_reached hreach
  cases queueMove hstep with
  | same ht _ => rw [ht, hnode]
  | counts _ _ _ _ _ _ _ _ _ _ _ _ _ _ _ ht => rw [ht, hnode]
  | push site obj garbage timeout persistent _ _ _ _ _ ht =>
    have hlt : q < s.next := hw.fresh q (by simp [hnode])
    have hne : q ≠ s.next + 2 := (hlt.trans_le (Nat.le_add_right _ 2)).ne
    rw [ht]
    change (pushqueue s.timeouts.link (s.next + 2) (s.next + 1)).nodes q = some node
    rw [nodes_pushqueue, Function.update_of_ne hne, hnode]

/-- A loop in the middle of an `aio_invoke` stays so until it goes on itself. -/
theorem invoking_step {ok : State → Action → Prop} {s s' : State} {act : Action} {a : Ptr}
    {e' : TimeoutElement} (hreach : Reached ok s) (hstep : step s act = .ok s')
    (h : Invoking s a) (he' : s'.timeouts.elements a = some e') :
    Invoking s' a ∨ e'.lastTime = s.now := by
  obtain ⟨l, hl, now, q, f, node, hp, hnode, rfl⟩ := h
  have hkeep : l ∈ loops s'.stack → Invoking s' node.data := fun hl' =>
    ⟨l, hl', now, q, f, node, hp, nodes_step hreach hstep hnode, rfl⟩
  cases stackMove hreach hstep with
  | same _ hs => exact .inl (hkeep (by rwa [hs]))
  | push x _ _ hs => exact .inl (hkeep (by rwa [hs]))
  | enter l₀ _ _ _ hs => exact .inl (hkeep (by rw [hs]; exact List.mem_cons_of_mem _ hl))
  | pop x _ hs =>
    rw [hs] at hl
    exact .inl (hkeep hl)
  | leave l₀ hs hp₀ =>
    rw [hs] at hl
    rcases List.mem_cons.mp hl with rfl | hl
    · cases hp.symm.trans hp₀
    · exact .inl (hkeep hl)
  | loop l₀ l' below hs hphase hs' =>
    rw [hs] at hl
    rcases List.mem_cons.mp hl with rfl | hl
    · right
      cases hphase with
      | reaps answer now' q' f' timeouts node' _ hp' hreap hnode' ht _ =>
        cases hp.symm.trans hp'
        obtain ⟨node₁, element, hnode₁, _, _, rfl⟩ := reapTimeout_cases hreap hnode'
        cases hnode.symm.trans hnode₁
        rw [ht] at he'
        change Function.update s.timeouts.elements node.data _ node.data = some e' at he'
        rw [Function.update_self] at he'
        cases he'
        rfl
      | reported _ _ hp' => cases hp.symm.trans hp'
      | takes _ _ _ _ _ hp' => cases hp.symm.trans hp'
      | passBegins _ _ _ hp' => cases hp.symm.trans hp'
      | passEnds _ _ _ _ hp' => cases hp.symm.trans hp'
      | passesOver _ _ _ _ _ _ _ hp' => cases hp.symm.trans hp'
      | fires _ _ _ _ _ _ _ hp' => cases hp.symm.trans hp'
    · left
      apply hkeep
      rcases hs' with hs' | ⟨_, x, hs'⟩
      · rw [hs']
        exact List.mem_cons_of_mem _ hl
      · rw [hs']
        exact List.mem_cons_of_mem _ hl

def passTime : LoopPhase → Option ℤ
  | .timeouts now _ _ => some now
  | .expired now _ _ => some now
  | _ => none

theorem passTime_step {ok : State → Action → Prop} {s s' : State} {act : Action} {l' : EventLoop}
    {now : ℤ} (hreach : Reached ok s) (hstep : step s act = .ok s') (hl' : l' ∈ loops s'.stack)
    (hnow : passTime l'.phase = some now) :
    now = s.now ∨ ∃ l ∈ loops s.stack, passTime l.phase = some now := by
  cases stackMove hreach hstep with
  | same _ hs => exact .inr ⟨l', by rwa [hs] at hl', hnow⟩
  | push x _ _ hs => exact .inr ⟨l', by rwa [hs] at hl', hnow⟩
  | enter l _ _ hp hs =>
    rw [hs] at hl'
    rcases List.mem_cons.mp hl' with rfl | hl'
    · rw [hp] at hnow
      cases hnow
    · exact .inr ⟨l', hl', hnow⟩
  | pop x _ hs => exact .inr ⟨l', by rwa [hs], hnow⟩
  | leave l hs _ => exact .inr ⟨l', by rw [hs]; exact List.mem_cons_of_mem _ hl', hnow⟩
  | loop l l₁ below hs hphase hs' =>
    have hmem : l' = l₁ ∨ l' ∈ loops below := by
      rcases hs' with hs' | ⟨_, x, hs'⟩
      · rw [hs'] at hl'
        exact List.mem_cons.mp hl'
      · rw [hs'] at hl'
        exact List.mem_cons.mp hl'
    rcases hmem with rfl | hl'
    · have hl : l ∈ loops s.stack := by
        rw [hs]
        exact List.mem_cons_self
      cases hphase with
      | reported _ _ _ _ hp' =>
        rw [hp'] at hnow
        cases hnow
      | takes _ _ _ _ _ _ hp' =>
        rw [hp'] at hnow
        cases hnow
      | passBegins _ _ _ _ hp' =>
        rw [hp'] at hnow
        exact .inl (Option.some.inj hnow).symm
      | passEnds _ _ _ _ _ hp' =>
        rw [hp'] at hnow
        cases hnow
      | passesOver _ _ _ _ _ _ _ hp _ _ _ hp' =>
        rw [hp'] at hnow
        exact .inr ⟨l, hl, by rw [hp]; exact hnow⟩
      | fires _ _ _ _ _ _ _ hp _ _ _ hp' =>
        rw [hp'] at hnow
        exact .inr ⟨l, hl, by rw [hp]; exact hnow⟩
      | reaps _ _ _ _ _ _ _ hp _ _ _ hp' =>
        rw [hp'] at hnow
        exact .inr ⟨l, hl, by rw [hp]; exact hnow⟩
    · exact .inr ⟨l', by rw [hs]; exact List.mem_cons_of_mem _ hl', hnow⟩

theorem now_step {s s' : State} {act : Action} (hok : InTime s act) (h : step s act = .ok s') :
    s.now ≤ s'.now := by
  cases timeMove h with
  | same hsame => exact hsame.now.ge
  | tick now clock ha _ hs =>
    rw [hs]
    exact hok.clock now clock ha
  | push _ _ _ _ _ _ _ hs =>
    rw [hs]
    exact le_rfl
  | reap _ _ _ _ _ _ _ _ _ _ _ _ _ hs =>
    rw [hs]
    exact le_rfl

/-- A wait that goes on, or one that begins. -/
theorem began_step {s s' : State} {act : Action} {g : WaitHistory} {fd : ℤ} (hr : TableWf s.rg)
    (h : step s act = .ok s') (hw : s'.rg.waiter fd ≠ none) :
    (s.rg.waiter fd ≠ none ∧ (noteWaits g s act s').began fd = g.began fd) ∨
      (BeginsWait s act fd ∧ (noteWaits g s act s').began fd = s.now) := by
  obtain ⟨c, hc⟩ := Option.ne_none_iff_exists'.mp hw
  rcases waiter_step hr h hc with hold | ⟨hep, hnone, _, _, q, hq, rfl, _⟩
  · left
    refine ⟨by simp [hold], ?_⟩
    unfold noteWaits
    cases hreq : ioRequest s act with
    | none => rfl
    | some p =>
      dsimp only
      split_ifs with hidle
      · have hne : fd ≠ p.1.fd := by
          rintro rfl
          rw [hidle] at hold
          cases hold
        exact Function.update_of_ne hne _ _
      · rfl
  · right
    refine ⟨⟨hep, hnone, q, hq, rfl⟩, ?_⟩
    simp [noteWaits, hq, hnone]

theorem noteWaits_of_ne {s : State} {a : Ptr} (g : WaitHistory) (s' : State) (act : Action)
    (ha : a ≠ s.next + 1) : (noteWaits g s act s').setAt a = g.setAt a ∧
      (noteWaits g s act s').given a = g.given a := by
  cases act with
  | socketSetTimeout _ _ _ _ _ =>
    exact ⟨Function.update_of_ne ha _ _, Function.update_of_ne ha _ _⟩
  | _ => exact ⟨rfl, rfl⟩

theorem noteCompletion_cases {s : State} {act : Action} {el : Option TimeoutElement}
    {old : Option ℤ} {time : ℤ} (h : noteCompletion s act el old = some time) :
    old = some time ∨ time = s.now ∧ ∃ e, el = some e ∧ completesOn s act = some e.fd := by
  unfold noteCompletion at h
  split at h
  case h_1 fd e hfd =>
    split_ifs at h with heq
    · cases h
      exact .inr ⟨rfl, e, rfl, heq ▸ hfd⟩
    · exact .inl h
  case h_2 => exact .inl h

theorem completed_of_ne {s : State} {a : Ptr} {time : ℤ} {g : WaitHistory} {s' : State}
    {act : Action} (ha : a ≠ s.next + 1) (h : (noteWaits g s act s').completed a = some time) :
    g.completed a = some time ∨
      time = s.now ∧ ∃ e, s.timeouts.elements a = some e ∧ completesOn s act = some e.fd := by
  cases act with
  | socketSetTimeout _ _ _ _ _ =>
    left
    rw [← h]
    exact (Function.update_of_ne ha _ _).symm
  | _ => exact noteCompletion_cases h

/-- The timeouts are counted from when they were set, and from when the current waits began. -/
structure Waited (s : State) (g : WaitHistory) : Prop where
  set : ∀ a e, Queued s a e → g.setAt a ≤ e.lastTime ∧ g.given a ≤ e.timeout
  last : ∀ a e, Queued s a e → e.lastTime ≤ s.now
  waits : ∀ a e, Queued s a e → s.rg.waiter e.fd ≠ none →
    g.began e.fd ≤ e.lastTime ∨ Invoking s a
  completed : ∀ a e time, Queued s a e → g.completed a = some time →
    e.persistent = true ∧ time ≤ e.lastTime
  began : ∀ fd, s.rg.waiter fd ≠ none → g.began fd ≤ s.now
  passes : ∀ l ∈ loops s.stack, ∀ now, passTime l.phase = some now → now ≤ s.now

theorem waited_initial {s : State} (h : Initial s) (g : WaitHistory) : Waited s g := by
  obtain ⟨_, _, _, _, rfl⟩ := h
  constructor
  · rintro a e ⟨_, he⟩
    cases he
  · rintro a e ⟨_, he⟩
    cases he
  · rintro a e ⟨_, he⟩
    cases he
  · rintro a e time ⟨_, he⟩
    cases he
  · intro fd hw
    exact absurd rfl hw
  · intro l hl
    cases hl

theorem queued_lt {ok : State → Action → Prop} {s : State} {a : Ptr} {e : TimeoutElement}
    (hreach : Reached ok s) (h : Queued s a e) : a < s.next := by
  obtain ⟨ns, g, hw⟩ := walk_of_reached hreach
  exact hw.freshElements a (by simp [h.2])

section

variable {ok : State → Action → Prop} {s s' : State} {act : Action} {g : WaitHistory} {a : Ptr}
  {e' : TimeoutElement}

theorem set_step (hreach : Reached ok s) (h : Waited s g) (hok : InTime s act)
    (hstep : step s act = .ok s') (hq : Queued s' a e') :
    (noteWaits g s act s').setAt a ≤ e'.lastTime ∧ (noteWaits g s act s').given a ≤ e'.timeout ∧
      e'.lastTime ≤ s'.now := by
  have hnow := now_step hok hstep
  rcases queued_step hreach hstep hq with ⟨e, he, hcase⟩ |
    ⟨site, obj, garbage, timeout, persistent, rfl, rfl, rfl⟩
  · have hne : a ≠ s.next + 1 := ((queued_lt hreach he).trans (Nat.lt_succ_self _)).ne
    obtain ⟨hset, hgiven⟩ := noteWaits_of_ne g s' act hne
    obtain ⟨hold, htime⟩ := h.set a e he
    have hlast := h.last a e he
    rw [hset, hgiven]
    rcases hcase with rfl | rfl
    · exact ⟨hold, htime, hlast.trans hnow⟩
    · exact ⟨hold.trans hlast, htime, hnow⟩
  · have hset : (noteWaits g s (.socketSetTimeout site obj garbage timeout persistent) s').setAt
        (s.next + 1) = s.now := Function.update_self ..
    have hgiven : (noteWaits g s (.socketSetTimeout site obj garbage timeout persistent) s').given
        (s.next + 1) = timeout := Function.update_self ..
    rw [hset, hgiven]
    exact ⟨le_rfl, hok.fits site obj garbage timeout persistent rfl, hnow⟩

theorem waits_step (hreach : Reached ok s) (h : Waited s g) (hok : InTime s act)
    (hstep : step s act = .ok s') (hq : Queued s' a e') (hw : s'.rg.waiter e'.fd ≠ none) :
    (noteWaits g s act s').began e'.fd ≤ e'.lastTime ∨ Invoking s' a := by
  have hinvoking : Invoking s a → Invoking s' a ∨ e'.lastTime = s.now := fun hi =>
    invoking_step hreach hstep hi hq.2
  have hbegan := began_step (g := g) (tableWf_of_reached hreach) hstep hw
  have hle : (noteWaits g s act s').began e'.fd ≤ s.now := by
    rcases hbegan with ⟨hold, hb⟩ | ⟨_, hb⟩
    · rw [hb]
      exact h.began _ hold
    · exact hb.le
  have hinvoked : Invoking s a →
      (noteWaits g s act s').began e'.fd ≤ e'.lastTime ∨ Invoking s' a := by
    intro hi
    rcases hinvoking hi with hi | hlast
    · exact .inr hi
    · exact .inl (hlast ▸ hle)
  rcases queued_step hreach hstep hq with ⟨e, he, hcase⟩ | ⟨_, _, _, _, _, _, _, rfl⟩
  · rcases hcase with rfl | rfl
    · rcases hbegan with ⟨hold, hb⟩ | ⟨hbegins, hb⟩
      · rcases h.waits a e' he hold with hwait | hi
        · left
          rw [hb]
          exact hwait
        · exact hinvoked hi
      · rcases hok.begins a e' hbegins he with hlast | hi
        · left
          rw [hb, hlast]
        · exact hinvoked hi
    · exact .inl hle
  · exact .inl hle

/-- An operation completes when the timeouts for its descriptor were counted last, and they are
never counted back. -/
theorem completed_step (hreach : Reached ok s) (h : Waited s g) (hok : InTime s act)
    (hstep : step s act = .ok s') (hq : Queued s' a e') {time : ℤ}
    (hc : (noteWaits g s act s').completed a = some time) :
    e'.persistent = true ∧ time ≤ e'.lastTime := by
  rcases queued_step hreach hstep hq with ⟨e, he, hcase⟩ |
    ⟨site, obj, garbage, timeout, persistent, rfl, rfl, _⟩
  · have hne : a ≠ s.next + 1 := ((queued_lt hreach he).trans (Nat.lt_succ_self _)).ne
    have hlast := h.last a e he
    have hold : e.persistent = true ∧ time ≤ e.lastTime := by
      rcases completed_of_ne hne hc with hc | ⟨rfl, e₁, he₁, hon⟩
      · exact h.completed a e time he hc
      · obtain rfl : e₁ = e := Option.some.inj (he₁.symm.trans he.2)
        obtain ⟨hpersistent, hnow⟩ := hok.completes a e₁ hon he
        exact ⟨hpersistent, hnow.ge⟩
    rcases hcase with rfl | rfl
    · exact hold
    · exact ⟨hold.1, hold.2.trans hlast⟩
  · have hnone : (noteWaits g s (.socketSetTimeout site obj garbage timeout persistent) s').completed
        (s.next + 1) = none := Function.update_self ..
    cases hnone.symm.trans hc

theorem waited_step (hreach : Reached ok s) (h : Waited s g) (hok : InTime s act)
    (hstep : step s act = .ok s') : Waited s' (noteWaits g s act s') where
  set a e hq := by
    obtain ⟨hset, hgiven, _⟩ := set_step hreach h hok hstep hq
    exact ⟨hset, hgiven⟩
  last a e hq := (set_step hreach h hok hstep hq).2.2
  waits a e hq hw := waits_step hreach h hok hstep hq hw
  completed a e time hq hc := completed_step hreach h hok hstep hq hc
  began fd hw := by
    have hnow := now_step hok hstep
    rcases began_step (g := g) (tableWf_of_reached hreach) hstep hw with ⟨hold, hb⟩ | ⟨_, hb⟩
    · rw [hb]
      exact (h.began fd hold).trans hnow
    · rw [hb]
      exact hnow
  passes l' hl' now hp := by
    have hnow := now_step hok hstep
    rcases passTime_step hreach hstep hl' hp with rfl | ⟨l, hl, hp⟩
    · exact hnow
    · exact (h.passes l hl now hp).trans hnow

end

theorem waited_of_noted {x : State × WaitHistory}
    (h : Noted step Initial InTime noteWaits .initial x) : Waited x.1 x.2 := by
  apply h.invariant_of (I := Waited)
  · exact fun s hs => waited_initial hs _
  · exact fun s g act s' hr hc hok hstep => waited_step hr.reachable hc hok hstep

/-- A pass only finds elements that can be reached. -/
theorem Fires.queued {ok : State → Action → Prop} {s : State} {act : Action} {a : Ptr}
    {e : TimeoutElement} (hreach : Reached ok s) (h : Fires s act a e) : Queued s a e := by
  obtain ⟨ns, g, hw⟩ := walk_of_reached hreach
  obtain ⟨_, l, below, now, q, f, node, hs, hp, hnode, rfl, he, _⟩ := h
  have hat := hw.passes l below (by rw [hs])
  rw [hp] at hat
  obtain ⟨seen, n, rest, rfl, rfl, _, _⟩ := passAt_timeouts_some hat
  have hdata := (hw.path.cell_eq (cells_of_nodes hnode)).1
  exact (queued_iff hw).mpr ⟨⟨n.1, by simp [hdata]⟩, he⟩

theorem Waited.fires_late {s : State} {g : WaitHistory} {act : Action} {a : Ptr}
    {e : TimeoutElement} (h : Waited s g) (hf : Fires s act a e) : e.lastTime + e.timeout ≤ s.now := by
  obtain ⟨_, l, below, now, q, f, node, hs, hp, _, _, _, hexp⟩ := hf
  have hpass := h.passes l (by simp [hs]) now (by rw [hp]; rfl)
  exact hexp.trans hpass

/-- In every run whose steps keep to the condition, a timeout ends no wait too early, and none is
counted from before an operation on its descriptor completed. -/
theorem timeouts_end_no_wait_early {s s' : State} {g : WaitHistory} {act : Action}
    (h : Noted step Initial InTime noteWaits .initial (s, g)) (hok : InTime s act)
    (hstep : step s act = .ok s') : Timely g s act s' := by
  have hreach := h.reachable
  have hwaited : Waited s g := waited_of_noted h
  constructor
  · intro a e τ c x result hfires hlog
    have hq := hfires.queued hreach
    obtain ⟨⟨answer, rfl⟩, _⟩ := id hfires
    obtain ⟨_, _, _, _, ev, hev, hc, _⟩ := resume_of_switched hstep hlog
    have hw : s.rg.waiter e.fd ≠ none := by simp [waiter, hev, hc]
    have hlate := hwaited.fires_late hfires
    obtain ⟨hset, hgiven⟩ := hwaited.set a e hq
    have hbegan := (hwaited.waits a e hq hw).resolve_right (hok.nested a e hfires)
    constructor
    · omega
    · omega
  · intro a e time hfires hc
    have hq := hfires.queued hreach
    have hlate := hwaited.fires_late hfires
    have hgiven := (hwaited.set a e hq).2
    obtain ⟨hpersistent, htime⟩ := hwaited.completed a e time hq hc
    exact ⟨hpersistent, by omega⟩

/-- A coroutine sets a timeout of 10 ms for descriptor 3 and reads.  The read completes at `ms`, the
coroutine reads again, and a pass begins at 10 ms. -/
def timeoutRun (persistent : Bool) (ms : ℤ) : List Action :=
  [createCall 1, .socketSetTimeout callSite (.stream (some 3)) 0 10 persistent, readCall 3,
    .eventLoop callSite, .tick ms ⟨0, 0⟩, .epollWait [⟨epollIn, 3⟩], .loopStep (.value 7),
    readCall 3, .loopStep .null, .loopStep .null, .loopStep .null, .epollWait [],
    .tick 10 ⟨0, 0⟩, .loopStep .null]

def onlyQueued (p : TimeoutElement → Bool) (s : State) : Bool :=
  match s.timeouts.link.front with
  | none => true
  | some q => match s.timeouts.link.nodes q with
    | some ⟨data, none⟩ => (s.timeouts.elements data).all p
    | _ => false

theorem of_onlyQueued {p : TimeoutElement → Bool} {s : State} {a : Ptr} {e : TimeoutElement}
    (h : onlyQueued p s = true) (hq : Queued s a e) : p e = true := by
  obtain ⟨⟨ns, q', hpath, hmem⟩, he⟩ := hq
  unfold onlyQueued at h
  split at h
  case h_1 hfront =>
    rw [hfront] at hpath
    cases hpath.unique (path_nil.mpr rfl)
    cases hmem
  case h_2 q hfront =>
    split at h
    case h_1 data hnode =>
      have hone : Path (cells s.timeouts.link) s.timeouts.link.front [(q, data)] none :=
        ⟨hfront, none, cells_of_nodes hnode, rfl⟩
      rw [hpath.unique hone, List.mem_singleton, Prod.mk.injEq] at hmem
      rw [← hmem.2, he] at h
      simpa using h
    case h_2 => cases h

def inTime (s : State) : Action → Bool
  | .tick now _ => decide (s.now ≤ now)
  | .socketSetTimeout _ _ _ timeout _ => decide (timeout ≤ toInt timeout)
  | .loopStep answer => ((completesOn s (.loopStep answer)).isNone ||
      onlyQueued (fun e => e.persistent && e.lastTime == s.now) s) &&
    (loops s.stack).all fun l => match l.phase with
      | .expired _ _ _ => false
      | _ => true
  | act => (ioRequest s act).isNone || onlyQueued (fun e => e.lastTime == s.now) s

theorem begins_of_test {s : State} {act : Action} (hio : ((ioRequest s act).isNone ||
    onlyQueued (fun e => e.lastTime == s.now) s) = true) (a : Ptr) (e : TimeoutElement)
    (hb : BeginsWait s act e.fd) (hq : Queued s a e) : e.lastTime = s.now ∨ Invoking s a := by
  obtain ⟨_, _, q, hreq, _⟩ := hb
  rw [hreq] at hio
  exact .inl (by simpa using of_onlyQueued hio hq)

theorem inTime_of_test {s : State} {act : Action} (h : inTime s act = true) : InTime s act := by
  refine ⟨?_, ?_, ?_, ?_, ?_⟩
  · rintro now clock rfl
    exact of_decide_eq_true h
  · rintro site obj garbage timeout persistent rfl
    exact of_decide_eq_true h
  · apply begins_of_test
    cases act with
    | tick _ _ => rfl
    | socketSetTimeout _ _ _ _ _ => rfl
    | loopStep _ => rfl
    | _ => exact h
  · intro a e hon hq
    cases act with
    | loopStep answer =>
      obtain ⟨hcompletes, _⟩ := Bool.and_eq_true_iff.mp h
      rw [hon] at hcompletes
      simpa using of_onlyQueued hcompletes hq
    | _ => cases hon
  · rintro a e ⟨⟨answer, rfl⟩, _⟩ ⟨l, hl, now, q, f, node, hp, _⟩
    obtain ⟨_, hexp⟩ := Bool.and_eq_true_iff.mp h
    have hphase := List.all_eq_true.mp hexp l hl
    simp [hp] at hphase

def firesNext (s : State) : Option (Ptr × TimeoutElement) :=
  match s.stack with
  | .eventLoop ⟨_, .timeouts now (some q) _, _⟩ :: _ =>
    match s.timeouts.link.nodes q with
    | some node => match s.timeouts.elements node.data with
      | some e => if e.lastTime + e.timeout ≤ now then some (node.data, e) else none
      | none => none
    | none => none
  | _ => none

theorem fires_of_firesNext {s : State} {p : Ptr × TimeoutElement} (h : firesNext s = some p) :
    Fires s (.loopStep .null) p.1 p.2 := by
  unfold firesNext at h
  split at h
  case h_1 frame now q f test below hs =>
    split at h
    case h_1 node hnode =>
      split at h
      case h_1 e he =>
        split_ifs at h with hexp
        cases h
        exact ⟨⟨_, rfl⟩, _, below, now, q, f, node, hs, rfl, hnode, rfl, he, hexp⟩
      case h_2 => cases h
    case h_2 => cases h
  case h_2 => cases h

/-- The next step fires a timeout of 10 ms for descriptor 3 and resumes the coroutine, which has
waited for `ms` since an operation completed. -/
def endsWaitAfter (ms : ℤ) (x : State × WaitHistory) : Bool :=
  match firesNext x.1 with
  | some (a, e) => decide (e.fd = 3 ∧ x.2.given a = 10 ∧ x.1.now - x.2.began 3 = ms ∧
      x.2.completed a = some (x.1.now - ms)) &&
    isOkAnd (fun s' => match s'.log with
      | .switched _ (.io 3) _ _ _ :: log => decide (log = x.1.log)
      | _ => false) (step x.1 (.loopStep .null))
  | none => false

theorem exists_of_endsWaitAfter {ms : ℤ} {x : State × WaitHistory}
    (h : endsWaitAfter ms x = true) : ∃ s' a e τ c act result, Fires x.1 (.loopStep .null) a e ∧
      step x.1 (.loopStep .null) = .ok s' ∧ s'.log = .switched τ (.io e.fd) c act result :: x.1.log ∧
      x.2.given a = 10 ∧ x.1.now - x.2.began e.fd = ms ∧
      x.2.completed a = some (x.1.now - ms) := by
  unfold endsWaitAfter at h
  split at h
  case h_1 a e hf =>
    obtain ⟨htimes, hstep⟩ := Bool.and_eq_true_iff.mp h
    obtain ⟨hfd, hgiven, hms, hcompleted⟩ := of_decide_eq_true htimes
    obtain ⟨s', hs', hlog⟩ := exists_of_isOkAnd hstep
    split at hlog
    case h_1 τ c act result log hcons =>
      refine ⟨s', a, e, τ, c, act, result, fires_of_firesNext hf, hs', ?_, hgiven, ?_, hcompleted⟩
      · rw [hcons, hfd, of_decide_eq_true hlog]
      · rw [hfd]
        exact hms
    case h_2 => cases hlog
  case h_2 => cases h

theorem timeouts_end_no_wait_early_persistent : ∃ x s' a e, runFrom (withHistory step noteWaits)
      (initial 0 0, .initial) (timeoutRun true 0) = .ok x ∧ step x.1 (.loopStep .null) = .ok s' ∧
    Fires x.1 (.loopStep .null) a e ∧ x.2.completed a = some (x.1.now - 10) ∧
    e.persistent = true ∧ 10 ≤ x.1.now - x.2.began e.fd := by
  obtain ⟨x, hrun, hx, hp⟩ := exists_noted_of noteWaits .initial inTime
    (fun _ _ => inTime_of_test) (timeoutRun true 0)
    (fun x => endsWaitAfter 10 x && inTime x.1 (.loopStep .null)) (by decide +kernel)
  obtain ⟨hends, hok⟩ := Bool.and_eq_true_iff.mp hp
  obtain ⟨s', a, e, τ, c, act, result, hf, hs', hlog, hgiven, _, hcompleted⟩ :=
    exists_of_endsWaitAfter hends
  have htimely := timeouts_end_no_wait_early hx (inTime_of_test hok) hs'
  obtain ⟨hpersistent, _⟩ := htimely.completed a e _ hf hcompleted
  exact ⟨x, s', a, e, hrun, hs', hf, hcompleted, hpersistent,
    hgiven ▸ (htimely.fires a e τ c act result hf hlog).2⟩

/-- A one-shot timeout outlives the operation it was set for, and ends the next one after 1 ms. -/
theorem wait_cut_short : ∃ x s', runFrom (withHistory step noteWaits)
      (initial 0 0, .initial) (timeoutRun false 9) = .ok x ∧
    Noted step Initial (fun _ _ => True) noteWaits .initial x ∧
    step x.1 (.loopStep .null) = .ok s' ∧ ¬ Timely x.2 x.1 (.loopStep .null) s' := by
  obtain ⟨x, hrun, hx, hp⟩ := exists_noted_of noteWaits .initial (fun _ _ => true)
    (fun _ _ _ => trivial) (timeoutRun false 9) (endsWaitAfter 1) (by decide +kernel)
  obtain ⟨s', a, e, τ, c, act, result, hf, hs', hlog, hgiven, hms, _⟩ := exists_of_endsWaitAfter hp
  refine ⟨x, s', hrun, hx, hs', fun htimely => ?_⟩
  have hlate := (htimely.fires a e τ c act result hf hlog).2
  omega

end Phpco
