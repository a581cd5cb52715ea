import Phpco.TimeoutPasses

/-!
# The law of the timeout queue

The queue is to be the list of the live timeouts, in the order of their
registration, and a pass examines them all.  This holds of every run in which
the queue is empty whenever a timeout is set: a push on a queue that is not
empty is lost, and the removal of an expired element reads the node it freed.
-/

namespace Phpco
open Except LinkedList Transition

structure LiveTimeout where
  address : Ptr
  fd : ℤ
  timeout : ℤ
  persistent : Bool
  deriving DecidableEq

/-- The timeouts set and not removed, and what the passes have examined. -/
structure TimeoutHistory where
  live : List LiveTimeout
  examined : Examined

/-- A pass that invoked the element of node `q` is done with it if it is not persistent. -/
def noteLive (live : List LiveTimeout) (s : State) (a : Action) : List LiveTimeout :=
  match a, s.stack with
  | .socketSetTimeout _ obj garbage timeout persistent, _ =>
    live ++ [⟨s.next + 1, cConvertToFd obj garbage, toInt timeout, persistent⟩]
  | .loopStep _, .eventLoop l :: _ =>
    match l.phase with
    | .expired _ q _ =>
      match s.timeouts.link.nodes q with
      | some node => live.filter fun x => x.persistent || x.address ≠ node.data
      | none => live
    | _ => live
  | _, _ => live

def noteTimeouts (g : TimeoutHistory) (s : State) (a : Action) (_ : State) : TimeoutHistory where
  live := noteLive g.live s a
  examined := noteExamined g.examined s a

def TimeoutHistory.initial : TimeoutHistory := ⟨[], fun _ => []⟩

def ElementsAre (t : Timeouts) (live : List LiveTimeout) : Prop :=
  ∀ x ∈ live, ∃ lastTime, t.elements x.address = some ⟨x.fd, x.timeout, lastTime, x.persistent⟩

/-- The queue is the list of the live timeouts, and a pass that is at its end has examined all
of them. -/
structure Refines (s : State) (g : TimeoutHistory) : Prop where
  holds : ∃ ns, Holds s.timeouts.link ns ∧ ns.map Prod.snd = g.live.map (·.address)
  elements : ElementsAre s.timeouts g.live
  examined : ∀ l below now f, s.stack = .eventLoop l :: below → l.phase = .timeouts now none f →
    g.examined below.length = g.live.map (·.address)

def SetsOnEmpty (s : State) : Action → Prop
  | .socketSetTimeout _ _ _ _ _ => emptyqueue s.timeouts.link = true
  | _ => True

structure InOrder (s : State) (g : TimeoutHistory) (ns : List (Ptr × Ptr)) : Prop where
  walk : Walk s ns g.examined
  holds : Holds s.timeouts.link ns
  live : ns.map Prod.snd = g.live.map (·.address)
  elements : ElementsAre s.timeouts g.live

theorem InOrder.refines {s : State} {g : TimeoutHistory} {ns : List (Ptr × Ptr)}
    (h : InOrder s g ns) : Refines s g where
  holds := ⟨ns, h.holds, h.live⟩
  elements := h.elements
  examined := by
    intro l below now f hs hp
    have hat := h.walk.passes l below (by rw [hs])
    rw [hp] at hat
    obtain ⟨seen, rest, rfl, hq, _, hex⟩ := hat
    have hrest : rest = [] := by
      cases rest with
      | nil => rfl
      | cons n rest => cases hq
    rw [hex, ← h.live, hrest, List.append_nil]

/-- A removal reads the freed node, so that a step which goes on removed nothing. -/
theorem noteLive_of_ok {s s' : State} {a : Action} {live : List LiveTimeout}
    (ha : isSetTimeout a = false) (hels : ElementsAre s.timeouts live) (h : step s a = .ok s') :
    noteLive live s a = live := by
  cases a with
  | socketSetTimeout _ _ _ _ _ => cases ha
  | loopStep answer =>
    simp only [step] at h
    split at h
    · next l below hs =>
      obtain ⟨frame, phase, test⟩ := l
      simp only [noteLive, hs]
      cases phase with
      | expired now q f =>
        simp only [eventLoopStep] at h
        obtain ⟨timeouts, hreap, h⟩ := bind_eq_ok.mp h
        obtain ⟨node', hnode', _⟩ := bind_eq_ok.mp h
        obtain ⟨node, element, hnode, hel, hpers, _⟩ :=
          reapTimeout_cases hreap (deref_eq_ok.mp hnode')
        simp only [hnode]
        apply List.filter_eq_self.mpr
        intro x hx
        obtain ⟨lastTime, hxe⟩ := hels x hx
        by_cases hxa : x.address = node.data
        · rw [hxa, hel] at hxe
          cases hxe
          simp only [show x.persistent = true from hpers, Bool.true_or]
        · simp [hxa]
      | _ => rfl
    · cases h
  | _ => rfl

theorem inOrder_set {s s' : State} {g : TimeoutHistory} {ns : List (Ptr × Ptr)} {site : CallSite}
    {obj : Zval} {garbage timeout : ℤ} {persistent : Bool} {ok : State → Action → Prop}
    (hreach : Reached ok s) (h : InOrder s g ns) (hempty : emptyqueue s.timeouts.link = true)
    (hstep : step s (.socketSetTimeout site obj garbage timeout persistent) = .ok s') :
    ∃ ns', InOrder s'
      (noteTimeouts g s (.socketSetTimeout site obj garbage timeout persistent) s') ns' := by
  obtain ⟨ns', hwalk, _⟩ := walk_step hreach h.walk hstep
  obtain rfl : ns = [] := h.holds.emptyqueue_iff.mp hempty
  have hlive : g.live = [] := List.map_eq_nil_iff.mp h.live.symm
  cases queueMove hstep with
  | same _ ha => cases ha
  | counts _ _ _ _ _ _ _ _ ha => cases ha
  | push _ _ _ _ _ ha _ _ _ _ ht =>
    cases ha
    have hlink : s'.timeouts.link = pushqueue s.timeouts.link (s.next + 2) (s.next + 1) := by
      rw [ht]
      rfl
    have hholds := holds_pushqueue_of_empty (s.next + 2) (s.next + 1) h.holds
    rw [← hlink] at hholds
    obtain rfl : ns' = [(s.next + 2, s.next + 1)] :=
      hwalk.path.unique hholds.queue.path
    refine ⟨_, hwalk, hholds, ?_, ?_⟩
    · simp [noteTimeouts, noteLive, hlive]
    · intro x hx
      simp only [noteTimeouts, noteLive, hlive, List.nil_append, List.mem_singleton] at hx
      subst hx
      exact ⟨s.now, by rw [ht]; exact Function.update_self ..⟩

theorem inOrder_step {ok : State → Action → Prop} {s s' : State} {a : Action} {g : TimeoutHistory}
    {ns : List (Ptr × Ptr)} (hreach : Reached ok s) (h : InOrder s g ns) (hok : SetsOnEmpty s a)
    (hstep : step s a = .ok s') : ∃ ns', InOrder s' (noteTimeouts g s a s') ns' := by
  obtain ⟨ns', hwalk, hcase⟩ := walk_step hreach h.walk hstep
  cases hset : isSetTimeout a with
  | false =>
    have hsame := sameQueue_step hstep hset
    have hlive : noteLive g.live s a = g.live := noteLive_of_ok hset h.elements hstep
    obtain rfl : ns' = ns := by
      rcases hcase with hns | ⟨hset', _⟩
      · exact hns
      · cases hset.symm.trans hset'
    refine ⟨ns', hwalk, ?_, ?_, ?_⟩
    · rw [hsame.link]
      exact h.holds
    · rw [noteTimeouts, hlive]
      exact h.live
    · intro x hx
      rw [noteTimeouts, hlive] at hx
      obtain ⟨lastTime, hxe⟩ := h.elements x hx
      obtain ⟨lastTime', hxe'⟩ := hsame.elements x.address
      rw [hxe] at hxe'
      exact ⟨lastTime', hxe'⟩
  | true =>
    obtain ⟨site, obj, garbage, timeout, persistent, rfl⟩ := isSetTimeout_eq_true.mp hset
    exact inOrder_set hreach h hok hstep

theorem inOrder_of_noted {x : State × TimeoutHistory}
    (h : Noted step Initial SetsOnEmpty noteTimeouts .initial x) : ∃ ns, InOrder x.1 x.2 ns := by
  apply h.invariant_of (I := fun s g => ∃ ns, InOrder s g ns)
  · intro s hs
    refine ⟨[], walk_initial hs _, ?_, rfl, fun x hx => ?_⟩
    · obtain ⟨_, _, _, _, rfl⟩ := hs
      exact ⟨queue_nil.mpr ⟨rfl, rfl⟩, rfl⟩
    · cases hx
  · rintro s g a s' hr ⟨ns, hns⟩ hok hstep
    exact inOrder_step hr.reachable hns hok hstep

/-- A timeout that is set while there is another one is lost. -/
theorem refines_set_iff {s s' : State} {g : TimeoutHistory} {ns : List (Ptr × Ptr)} {site : CallSite}
    {obj : Zval} {garbage timeout : ℤ} {persistent : Bool} {ok : State → Action → Prop}
    (hreach : Reached ok s) (h : InOrder s g ns)
    (hstep : step s (.socketSetTimeout site obj garbage timeout persistent) = .ok s') :
    Refines s' (noteTimeouts g s (.socketSetTimeout site obj garbage timeout persistent) s') ↔
      emptyqueue s.timeouts.link = true := by
  constructor
  · intro hset
    by_contra hne
    obtain ⟨ns', hns', hlive'⟩ := hset.holds
    obtain ⟨ns₁, hwalk, hcase⟩ := walk_step hreach h.walk hstep
    have hkeep : ns₁ = ns := by
      rcases hcase with hns | ⟨_, hnil, _⟩
      · exact hns
      · exact absurd (h.holds.emptyqueue_iff.mpr hnil) hne
    have hlen := congrArg List.length hlive'
    have hold := congrArg List.length h.live
    rw [hns'.queue.path.unique hwalk.path, hkeep] at hlen
    simp [noteTimeouts, noteLive] at hlen hold
    omega
  · intro hempty
    obtain ⟨ns', hns'⟩ := inOrder_set hreach h hempty hstep
    exact hns'.refines

/-- After the removal of an element the pass reads the freed node. -/
theorem step_removes {s : State} {g : TimeoutHistory} {ns : List (Ptr × Ptr)} (h : InOrder s g ns)
    {l : EventLoop} {below : List CFrame} {now : ℤ} {q : Ptr} {f : Option Ptr} {node : Node}
    {element : TimeoutElement} (hs : s.stack = .eventLoop l :: below)
    (hp : l.phase = .expired now q f) (hnode : s.timeouts.link.nodes q = some node)
    (hel : s.timeouts.elements node.data = some element) (hone : element.persistent = false)
    (answer : Zval) :
    step s (.loopStep answer) = .error .useAfterFree ∧
      ∃ timeouts, reapTimeout s q f = .ok timeouts ∧
        ((∃ ns', Holds timeouts.link ns') ↔ s.timeouts.link.rear ≠ some q) := by
  have hat := h.walk.passes l below (by rw [hs])
  rw [hp] at hat
  obtain ⟨seen, n, rest, rfl, rfl, rfl, _⟩ := hat
  obtain ⟨link, hrem⟩ := exists_removeNode h.holds
  have hreap : reapTimeout s n.1 (seen.getLast?.map Prod.fst) =
      .ok { s.timeouts with link := link } := by
    apply bind_eq_ok.mpr ⟨node, deref_eq_ok.mpr hnode, ?_⟩
    apply bind_eq_ok.mpr ⟨element, deref_eq_ok.mpr hel, ?_⟩
    rw [hone, if_neg (by decide)]
    exact bind_eq_ok.mpr ⟨link, hrem, rfl⟩
  constructor
  · simp only [step, hs, eventLoopStep, hp, hreap]
    change deref (link.nodes n.1) .useAfterFree >>= _ = _
    rw [nodes_removeNode hrem]
    rfl
  · refine ⟨_, hreap, ?_⟩
    constructor
    · rintro ⟨ns', hns'⟩ hlast
      exact not_holds_removeNode h.holds hlast hrem ns' hns'
    · exact fun hlast => ⟨_, holds_removeNode h.holds hlast hrem⟩

/-- In every run in which timeouts are only set while the queue is empty, the queue is the list of
the live timeouts and the passes examine them all.  Setting a timeout keeps it so exactly if the
queue is empty; the removal of one keeps the queue in order exactly if it is not the last, and then
reads the node it freed in any case. -/
theorem timeout_queue_refines {s : State} {g : TimeoutHistory}
    (h : Noted step Initial SetsOnEmpty noteTimeouts .initial (s, g)) :
    Refines s g ∧
    (∀ site obj garbage timeout persistent s',
      step s (.socketSetTimeout site obj garbage timeout persistent) = .ok s' →
      (Refines s' (noteTimeouts g s (.socketSetTimeout site obj garbage timeout persistent) s') ↔
        emptyqueue s.timeouts.link = true)) ∧
    ∀ l below now q f node element answer, s.stack = .eventLoop l :: below →
      l.phase = .expired now q f → s.timeouts.link.nodes q = some node →
      s.timeouts.elements node.data = some element → element.persistent = false →
      step s (.loopStep answer) = .error .useAfterFree ∧
        ∃ timeouts, reapTimeout s q f = .ok timeouts ∧
          ((∃ ns, Holds timeouts.link ns) ↔ s.timeouts.link.rear ≠ some q) := by
  obtain ⟨ns, hns⟩ := inOrder_of_noted h
  refine ⟨hns.refines, ?_, ?_⟩
  · intro site obj garbage timeout persistent s' hstep
    exact refines_set_iff h.reachable hns hstep
  · intro l below now q f node element answer hs hp hnode hel hone
    exact step_removes hns hs hp hnode hel hone answer

def setRun (fds : List ℤ) : List Action :=
  fds.map (fun fd => .socketSetTimeout callSite (.long fd) 0 10 true) ++
    [.eventLoop callSite, .epollWait [], .loopStep .null]

def setsOnEmpty (s : State) : Action → Bool
  | .socketSetTimeout _ _ _ _ _ => emptyqueue s.timeouts.link
  | _ => true

theorem setsOnEmpty_of_test {s : State} {a : Action} (h : setsOnEmpty s a = true) :
    SetsOnEmpty s a := by
  cases a with
  | socketSetTimeout _ _ _ _ _ => exact h
  | _ => trivial

theorem timeout_queue_refines_one : ∃ x, runFrom (withHistory step noteTimeouts)
      (initial 0 0, .initial) (setRun [3]) = .ok x ∧ Refines x.1 x.2 ∧ x.2.live.length = 1 := by
  obtain ⟨x, hrun, hx, hp⟩ := exists_noted_of noteTimeouts .initial setsOnEmpty
    (fun _ _ => setsOnEmpty_of_test) (setRun [3]) (fun x => x.2.live.length == 1) (by decide)
  exact ⟨x, hrun, (timeout_queue_refines hx).1, by simpa using hp⟩

def cutOff (x : State × TimeoutHistory) : Bool :=
  match x.1.timeouts.link.front with
  | none => false
  | some q => match x.1.timeouts.link.nodes q with
    | some ⟨_, none⟩ => decide (1 < x.2.live.length)
    | _ => false

theorem not_refines_of_cutOff {x : State × TimeoutHistory} (h : cutOff x = true) :
    ¬ Refines x.1 x.2 := by
  intro hr
  obtain ⟨ns, hns, hlive⟩ := hr.holds
  unfold cutOff at h
  split at h
  case h_1 => cases h
  case h_2 q hq =>
    split at h
    case h_1 data hnode =>
      have hpath : Path (cells x.1.timeouts.link) x.1.timeouts.link.front [(q, data)] none :=
        ⟨hq, none, cells_of_nodes hnode, rfl⟩
      have hlen := congrArg List.length hlive
      rw [hns.queue.path.unique hpath, List.length_map, List.length_map] at hlen
      have hlt := of_decide_eq_true h
      rw [← hlen] at hlt
      exact absurd hlt (by simp)
    case h_2 => cases h

/-- The second of two timeouts is not in the queue. -/
theorem second_timeout_lost : ∃ x, runFrom (withHistory step noteTimeouts)
      (initial 0 0, .initial) (setRun [3, 4]) = .ok x ∧
    Noted step Initial (fun _ _ => True) noteTimeouts .initial x ∧ ¬ Refines x.1 x.2 := by
  obtain ⟨x, hrun, hx, hp⟩ := exists_noted_of noteTimeouts .initial (fun _ _ => true)
    (fun _ _ _ => trivial) (setRun [3, 4]) cutOff (by decide)
  exact ⟨x, hrun, hx, not_refines_of_cutOff hp⟩

end Phpco
