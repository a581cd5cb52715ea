import Phpco.ServiceLaw
import Phpco.TimeoutLaw

/-!
# An expired timeout ends the wait

Once a timeout has expired, the next pass over the queue comes to it.  Unless the
coroutine that waits for its descriptor was switched to before, the pass does so,
whatever `epoll_wait` reports and whatever the other coroutines do meanwhile.
-/

namespace Phpco
open Except LinkedList Transition

variable {s s' : State} {a : Action} {t c p : Ptr} {e : TimeoutElement} {ns : List (Ptr × Ptr)}
  {test : ℕ}

/-- A careful step that closes nobody's descriptor; the clock of `gettimeofday` is not set back. -/
structure LetsExpire (s : State) (a : Action) : Prop where
  careful : Careful s a
  keeps : ¬ ClosesWaiter s a
  clock : ∀ now clock, a = .tick now clock → s.now ≤ now

/-- The pass of the round has still to come to the element at `p`, which expires at `time`. -/
def YetToCome (ns : List (Ptr × Ptr)) (p : Ptr) (time : ℤ) : LoopPhase → Prop
  | .timeouts now q _ => time ≤ now ∧ ∃ seen rest, ns = seen ++ rest ∧
      q = rest.head?.map Prod.fst ∧ p ∈ rest.map Prod.snd
  | .expired now q _ => time ≤ now ∧ ∃ seen n rest, ns = seen ++ n :: rest ∧ q = n.1 ∧ n.2 ≠ p ∧
      p ∈ rest.map Prod.snd
  | _ => True

/-- The element at `p` has expired, and the round with number `test` has still to come to it. -/
structure Approaching (ns : List (Ptr × Ptr)) (p : Ptr) (e : TimeoutElement) (test : ℕ)
    (s : State) : Prop where
  walk : ∃ g, Walk s ns g
  element : s.timeouts.elements p = some e
  expired : e.lastTime + e.timeout ≤ s.now
  round : ∃ l, loops s.stack = [l] ∧ l.test = test ∧ YetToCome ns p (e.lastTime + e.timeout) l.phase

theorem mainLoops_of_careful (h : Reached Careful s) : Reached MainLoops s :=
  h.mono fun _ _ _ _ _ hok _ => hok.room.1.1

theorem LetsExpire.now_le (hok : LetsExpire s a) (hstep : step s a = .ok s') : s.now ≤ s'.now := by
  cases timeMove hstep with
  | same hsame => exact hsame.now.ge
  | tick now clock ha _ hs =>
    rw [hs]
    exact hok.clock now clock ha
  | push _ _ _ _ _ _ _ hs =>
    rw [hs]
    exact le_rfl
  | reap _ _ _ _ _ _ _ _ _ _ _ _ _ hs =>
    rw [hs]
    exact le_rfl

theorem Approaching.walk_next (h : Approaching ns p e test s) (hp : p ∈ ns.map Prod.snd)
    (hreach : Reached Careful s) (hstep : step s a = .ok s') : ∃ g, Walk s' ns g := by
  obtain ⟨g, hw⟩ := h.walk
  obtain ⟨ns', hw', rfl | ⟨_, hnil, _⟩⟩ := walk_step hreach hw hstep
  · exact ⟨_, hw'⟩
  · rw [hnil] at hp
    cases hp

/-- An element is counted afresh only after it was invoked. -/
theorem Approaching.element_next (h : Approaching ns p e test s) (hstep : step s a = .ok s') :
    s'.timeouts.elements p = some e := by
  obtain ⟨g, hw⟩ := h.walk
  cases queueMove hstep with
  | same ht _ => rw [ht, h.element]
  | push _ _ _ _ _ _ _ _ _ _ ht =>
    have hlt : p < s.next := hw.freshElements p (by simp [h.element])
    have hne : p ≠ s.next + 1 := (hlt.trans (Nat.lt_succ_self _)).ne
    rw [ht]
    exact (Function.update_of_ne hne _ _).trans h.element
  | counts answer l below now q f node element _ hs hp hnode _ _ _ ht =>
    obtain ⟨l', hl, _, hcome⟩ := h.round
    obtain ⟨rfl, _⟩ : l = l' ∧ loops below = [] := by
      rw [hs] at hl
      simpa using hl
    rw [hp] at hcome
    obtain ⟨_, seen, n, rest, rfl, rfl, hne, _⟩ := hcome
    obtain ⟨hdata, _⟩ := hw.path.cell_eq (cells_of_nodes hnode)
    rw [ht]
    exact (Function.update_of_ne (fun heq => hne (hdata.symm.trans heq.symm)) _ _).trans h.element

/-- The loop on top comes closer to the element, or invokes on it. -/
theorem comes_loopStep (h : Approaching ns p e test s) (hp : p ∈ ns.map Prod.snd)
    (htest : test < 1000) (hw : s.rg.waiter e.fd = some c) {l : EventLoop} {below : List CFrame}
    {answer : Zval} (hs : s.stack = .eventLoop l :: below) (hstep : LoopStep s l below answer s') :
    (∃ l', loops s'.stack = [l'] ∧ l'.test = test ∧ YetToCome ns p (e.lastTime + e.timeout) l'.phase) ∨
      ∃ τ act result, s'.log = .switched τ (.io e.fd) c act result :: s.log := by
  obtain ⟨g, hwalk⟩ := h.walk
  obtain ⟨l₀, hl, rfl, hcome⟩ := h.round
  obtain ⟨rfl, hbelow⟩ : l = l₀ ∧ loops below = [] := by
    rw [hs] at hl
    simpa using hl
  have hturn : ∀ {l' : EventLoop}, s'.stack = .eventLoop l' :: below → loops s'.stack = [l'] := by
    intro l' hs'
    rw [hs', loops_cons_eventLoop, hbelow]
  cases hstep with
  | leaves _ hge _ => omega
  | passBegins since _ hs' =>
    refine .inl ⟨_, hturn (congrArg State.stack hs'), rfl, h.expired, [], ns, rfl, ?_, hp⟩
    exact hwalk.path.front_eq
  | skips _ _ _ _ _ hs' => exact .inl ⟨_, hturn (congrArg State.stack hs'), rfl, trivial⟩
  | dispatches _ events since _ _ hinv =>
    exact .inl ⟨{ l with phase := .batch events since }, loops_of_aioInvoke rfl hbelow hinv, rfl, trivial⟩
  | passEnds now f hphase _ =>
    -- the pass does not end before the element
    rw [hphase] at hcome
    obtain ⟨_, seen, rest, _, hq, hmem⟩ := hcome
    cases rest with
    | nil => cases hmem
    | cons n rest => cases hq
  | passesOver now q f node element hphase hnode hel hlt hs' =>
    rw [hphase] at hcome
    obtain ⟨htime, seen, rest, rfl, hq, hmem⟩ := hcome
    cases rest with
    | nil => cases hq
    | cons n rest =>
      obtain rfl : q = n.1 := Option.some.inj hq
      obtain ⟨hdata, hnext⟩ := hwalk.path.cell_eq (cells_of_nodes hnode)
      refine .inl ⟨_, hturn (congrArg State.stack hs'), rfl, htime, seen ++ [n], rest, by simp,
        hnext, ?_⟩
      rcases List.mem_cons.mp hmem with heq | hmem
      · -- it has expired, and is not passed over
        rw [hdata, ← heq, h.element] at hel
        cases hel
        omega
      · exact hmem
  | fires now q f node element hphase hnode hel _ hinv =>
    rw [hphase] at hcome
    obtain ⟨htime, seen, rest, rfl, hq, hmem⟩ := hcome
    cases rest with
    | nil => cases hq
    | cons n rest =>
      obtain rfl : q = n.1 := Option.some.inj hq
      obtain ⟨hdata, _⟩ := hwalk.path.cell_eq (cells_of_nodes hnode)
      by_cases heq : n.2 = p
      · right
        rw [hdata, heq, h.element] at hel
        cases hel
        obtain ⟨τ, act, result, hlog⟩ := switched_of_aioInvoke hinv hw
        exact ⟨τ, act, result, hlog⟩
      · have hrest := (List.mem_cons.mp hmem).resolve_left (Ne.symm heq)
        exact .inl ⟨{ l with phase := .expired now n.1 f }, loops_of_aioInvoke rfl hbelow hinv, rfl, htime, seen, n,
          rest, rfl, rfl, heq, hrest⟩
  | reaps now q f timeouts node hphase hreap hnode hs' =>
    rw [hphase] at hcome
    obtain ⟨htime, seen, n, rest, rfl, rfl, _, hmem⟩ := hcome
    obtain ⟨_, _, _, _, _, rfl⟩ := reapTimeout_cases hreap hnode
    obtain ⟨_, hnext⟩ := hwalk.path.cell_eq (cells_of_nodes hnode)
    exact .inl ⟨_, hturn (congrArg State.stack hs'), rfl, htime, seen ++ [n], rest, by simp, hnext,
      hmem⟩

theorem approaching_step (hreach : Reached Careful s) (h : Approaching ns p e test s)
    (hp : p ∈ ns.map Prod.snd) (htest : test < 1000) (hw : s.rg.waiter e.fd = some c)
    (hok : LetsExpire s a) (hstep : step s a = .ok s') : Approaching ns p e test s' ∨
      ∃ τ act result, s'.log = .switched τ (.io e.fd) c act result :: s.log := by
  have hnext : ∀ {l' : EventLoop}, loops s'.stack = [l'] → l'.test = test →
      YetToCome ns p (e.lastTime + e.timeout) l'.phase → Approaching ns p e test s' :=
    fun hl ht hcome => ⟨h.walk_next hp hreach hstep, h.element_next hstep,
      h.expired.trans (hok.now_le hstep), _, hl, ht, hcome⟩
  obtain ⟨l, hl, ht, hcome⟩ := h.round
  cases round_step (mainLoops_of_careful hreach) hok.careful.room.1.1 hl hstep with
  | same hsame => exact .inl (hnext hsame ht hcome)
  | waits batch _ hl' => exact .inl (hnext hl' ht trivial)
  | turns answer below hs _ hturn =>
    rcases comes_loopStep h hp htest hw hs hturn with ⟨l', hl', ht', hcome'⟩ | hlog
    · exact .inl (hnext hl' ht' hcome')
    · exact .inr hlog

/-- A coroutine waits for the descriptor of a timeout that has expired, and `event_loop` is about
to call `epoll_wait` or dispatches what that reported.  In every run from there the round is not
over before the coroutine was switched to. -/
theorem timeout_ends_wait (hreach : Reached Careful s)
    (hst : status s.log t = .suspended (.io e.fd) c) (hfound : s.rg.waiter e.fd = some c)
    (hq : Queued s p e) (hexp : e.lastTime + e.timeout ≤ s.now) {l : EventLoop}
    (hl : loops s.stack = [l]) (hpass : passTime l.phase = none) (htest : l.test < 1000)
    (hrun : Reachable step (fun u => u = s) LetsExpire s') :
    Woken t (.io e.fd) c s' ∨ ∃ l', loops s'.stack = [l'] ∧ l'.test = l.test := by
  obtain ⟨ns, g, hw⟩ := walk_of_reached hreach
  obtain ⟨⟨q, hmem⟩, helement⟩ := (queued_iff hw).mp hq
  have hp : p ∈ ns.map Prod.snd := List.mem_map.mpr ⟨(q, p), hmem, rfl⟩
  have hcome : YetToCome ns p (e.lastTime + e.timeout) l.phase := by
    cases hphase : l.phase with
    | wait => trivial
    | batch events since => trivial
    | timeouts now q f =>
      rw [hphase] at hpass
      cases hpass
    | expired now q f =>
      rw [hphase] at hpass
      cases hpass
  have hkeeps : ∀ u a, LetsExpire u a → MainLoops u a ∧ ¬ ClosesWaiter u a :=
    fun u a hok => ⟨hok.careful.room.1.1, hok.keeps⟩
  have happ : Approaching ns p e l.test s := ⟨⟨g, hw⟩, helement, hexp, l, hl, rfl, hcome⟩
  have hJ : ∀ u a u', Reached MainLoops u → u.rg.waiter e.fd = some c →
      Reached Careful u ∧ Approaching ns p e l.test u → LetsExpire u a → step u a = .ok u' →
      (Reached Careful u' ∧ Approaching ns p e l.test u') ∨
        ∃ τ act result, u'.log = .switched τ (.io e.fd) c act result :: u.log := by
    rintro u a u' _ hfound ⟨hu, happ⟩ hok hstep
    rcases approaching_step hu happ hp htest hfound hok hstep with happ' | hlog
    · exact .inl ⟨hu.next hok.careful hstep, happ'⟩
    · exact .inr hlog
  rcases until_woken hkeeps (mainLoops_of_careful hreach) hst hfound ⟨hreach, happ⟩ hJ hrun with
    hwoken | ⟨_, happ'⟩
  · exact .inl hwoken
  · obtain ⟨l', hl', ht', _⟩ := happ'.round
    exact .inr ⟨l', hl', ht'⟩

def testLetsExpire (s : State) (a : Action) : Bool :=
  testCareful s a && match a with
    | .socketClose _ _ _ _ => false
    | .tick now _ => s.now ≤ now
    | _ => true

theorem letsExpire_of_test (s : State) (a : Action) (h : testLetsExpire s a = true) :
    LetsExpire s a := by
  simp only [testLetsExpire, Bool.and_eq_true] at h
  obtain ⟨hcareful, hlast⟩ := h
  refine ⟨careful_of_test s a hcareful, ?_, ?_⟩
  · rintro ⟨site, io, closed, retval, fd, rfl, _, _⟩
    cases hlast
  · rintro now clock rfl
    exact of_decide_eq_true hlast

def expiryRun : List Action :=
  [createCall 1, .socketSetTimeout callSite (.stream (some 3)) 0 5 true, readCall 3,
    .eventLoop callSite, .tick 10 ⟨0, 0⟩]

def expiryRound : List Action :=
  [.epollWait [], .loopStep .null, .loopStep (.bool false), .finish, .loopStep .null,
    .loopStep .null]

theorem timeout_ends_wait_read : ∃ s s', runFrom step (initial 0 0) expiryRun = .ok s ∧
    status s.log 5 = .suspended (.io 3) 13 ∧ runFrom step s expiryRound = .ok s' ∧
    (loops s'.stack).map (·.test) = [1] ∧ Woken 5 (.io 3) 13 s' := by
  obtain ⟨s, hrun, hs, hp⟩ := exists_reached_of _ careful_of_test expiryRun
    (fun s => status s.log 5 = .suspended (.io 3) 13 ∧ s.rg.waiter 3 = some 13 ∧
      s.timeouts.link.front = some 11 ∧ s.timeouts.link.nodes 11 = some ⟨10, none⟩ ∧
      s.timeouts.elements 10 = some ⟨3, 5, 0, true⟩ ∧ s.now = 10 ∧
      (loops s.stack).map (fun l => (passTime l.phase, l.test)) = [(none, 0)] ∧
      leadsTo step testLetsExpire (fun s' => (loops s'.stack).map (·.test) = [1]) s expiryRound)
    (by decide +kernel)
  obtain ⟨hst, hfound, hfront, hnode, helement, hnow, hloops, hround⟩ := of_decide_eq_true hp
  obtain ⟨l, hl, hl'⟩ := List.map_eq_singleton_iff.mp hloops
  obtain ⟨hpass, htest⟩ := Prod.mk.inj hl'
  have hq : Queued s 10 ⟨3, 5, 0, true⟩ := by
    refine ⟨⟨[(11, 10)], 11, ⟨hfront, none, cells_of_nodes hnode, rfl⟩, ?_⟩, helement⟩
    exact List.mem_singleton.mpr rfl
  have hexp : (0 : ℤ) + 5 ≤ s.now := by
    rw [hnow]
    decide
  have hstart : Reachable step (fun u => u = s) LetsExpire s := .init rfl
  obtain ⟨s', hrun', hs', hp'⟩ := exists_reachable_of_leadsTo hstart letsExpire_of_test hround
  have hround' := of_decide_eq_true hp'
  refine ⟨s, s', hrun, hst, hrun', hround', ?_⟩
  rcases timeout_ends_wait hs hst hfound hq hexp hl hpass (by omega) hs' with
    hwoken | ⟨l', hl', htest'⟩
  · exact hwoken
  · rw [hl', List.map_cons, List.map_nil, List.cons.injEq] at hround'
    omega

end Phpco
