import Phpco.BatchLaw
import Phpco.Cooperation
import Phpco.NestingLaw
import Phpco.WakeLaw

/-!
# What the batch still holds

While `event_loop` dispatches a batch, the coroutines it resumes do as they like, and
may be many.  A coroutine whose descriptor is reported further on in the batch is
switched to before `event_loop` goes on to the timeouts.
-/

namespace Phpco
open Except Transition

variable {s s' : State} {a : Action} {t c : Ptr} {fd : ℤ} {l : EventLoop}

/-- What a step does to the loop of the main program. -/
inductive RoundStep (s : State) (l : EventLoop) (s' : State) : Prop
  | same : loops s'.stack = [l] → RoundStep s l s'
  | waits (batch : List EpollEvent) : l.phase = .wait →
      loops s'.stack = [{ l with phase := .batch batch s.rg }] → RoundStep s l s'
  | turns (answer : Zval) (below : List CFrame) : s.stack = .eventLoop l :: below →
      loops below = [] → LoopStep s l below answer s' → RoundStep s l s'

/-- While a coroutine runs, the loop below stays as it is. -/
theorem loops_of_activation (hreach : Reached MainLoops s) (hok : MainLoops s a) {x : Activation}
    {below : List CFrame} (hs : s.stack = .activation x :: below) (hstep : step s a = .ok s') :
    loops s'.stack = loops s.stack := by
  obtain ⟨hsched, hhosted⟩ := hosted_of_mainLoops hreach
  have hhome := atHome_of_step hok hstep
  cases stack_step (tableWf_of_reached hreach) hsched hhosted hhome hstep with
  | same hsame => rw [hsame]
  | push x hpush =>
    rw [hpush]
    rfl
  | pop x rest hpop hret =>
    rw [hret.1, hpop]
    rfl
  | loop hnil =>
    rw [hs] at hnil
    cases hnil

theorem loops_of_aioInvoke {u : State} {below : List CFrame} {answer : Zval}
    (hu : u.stack = .eventLoop l :: below) (hbelow : loops below = [])
    (h : aioInvoke u fd answer = .ok s') : loops s'.stack = [l] := by
  rcases stack_aioInvoke h with hs' | ⟨x, hs'⟩
  · rw [hs', hu, loops_cons_eventLoop, hbelow]
  · rw [hs', hu, loops_cons_activation, loops_cons_eventLoop, hbelow]

theorem round_step (hreach : Reached MainLoops s) (hok : MainLoops s a) (hl : loops s.stack = [l])
    (hstep : step s a = .ok s') : RoundStep s l s' := by
  rcases hs : s.stack with _ | ⟨f, below⟩
  · rw [hs] at hl
    cases hl
  · cases f with
    | activation x => exact .same ((loops_of_activation hreach hok hs hstep).trans hl)
    | eventLoop l₀ =>
      obtain ⟨rfl, hbelow⟩ : l₀ = l ∧ loops below = [] := by
        rw [hs] at hl
        simpa using hl
      obtain ⟨now, clock, rfl, rfl⟩ | ⟨batch, l', below', rfl, hs', hwait, _, rfl⟩ |
        ⟨answer, l', below', rfl, hs', _⟩ | ⟨hphp, _⟩ := step_cases hstep
      · exact .same hl
      · cases hs.symm.trans hs'
        exact .waits batch hwait (congrArg (List.cons _) hbelow)
      · simp only [step, hs] at hstep
        exact .turns answer below hs hbelow (eventLoopStep_cases hstep)
      · exact absurd hs (hphp l₀ below)

/-- What every step keeps that does not switch to a coroutine that waits holds until that one is
switched to. -/
theorem until_woken {ok : State → Action → Prop} {J : State → Prop}
    (hok : ∀ u a, ok u a → MainLoops u a ∧ ¬ ClosesWaiter u a) (hreach : Reached MainLoops s)
    (hst : status s.log t = .suspended (.io fd) c) (hfound : s.rg.waiter fd = some c) (hJ : J s)
    (hnext : ∀ u a u', Reached MainLoops u → u.rg.waiter fd = some c → J u → ok u a →
      step u a = .ok u' → J u' ∨ ∃ τ act result, u'.log = .switched τ (.io fd) c act result :: u.log)
    (hrun : Reachable step (fun u => u = s) ok s') : Woken t (.io fd) c s' ∨ J s' := by
  have hI : Reached MainLoops s' ∧ (Woken t (.io fd) c s' ∨
      status s'.log t = .suspended (.io fd) c ∧ s'.rg.waiter fd = some c ∧ J s') := by
    refine hrun.invariant (I := fun u => Reached MainLoops u ∧ (Woken t (.io fd) c u ∨
      status u.log t = .suspended (.io fd) c ∧ u.rg.waiter fd = some c ∧ J u)) ?_ ?_
    · rintro u rfl
      exact ⟨hreach, .inr ⟨hst, hfound, hJ⟩⟩
    · rintro u a u' ⟨hu, hw⟩ ha hstep
      obtain ⟨hmain, hkeeps⟩ := hok u a ha
      refine ⟨hu.next hmain hstep, ?_⟩
      have hr := tableWf_of_reached hu
      rcases hw with ⟨act, result, hmem⟩ | ⟨hst, hfound, hJ⟩
      · exact .inl ⟨act, result, (log_step hr hstep).subset hmem⟩
      · obtain ⟨hs, hh⟩ := hosted_of_mainLoops hu
        have hlife := lifeStep hr hs (hh.finishesOwn hs a) hstep
        rcases life_cases hlife (kept_of_reached (finishesOwn_of_mainLoops hu)) hst with
          ⟨hst', hne⟩ | ⟨act, result, hlog⟩
        · right
          refine ⟨hst', ?_, ?_⟩
          · rcases keepsWaiters_step hr (waiting_of_reached hu) hkeeps hstep fd c hfound with
              hfound' | ⟨τ, act, result, hlog⟩
            · exact hfound'
            · exact absurd hlog (hne τ _ act result)
          · rcases hnext u a u' hu hfound hJ ha hstep with hJ' | ⟨τ, act, result, hlog⟩
            · exact hJ'
            · exact absurd hlog (hne τ _ act result)
        · exact .inl ⟨act, result, hlog ▸ List.mem_cons_self⟩
  rcases hI.2 with hwoken | ⟨_, _, hJ'⟩
  · exact .inl hwoken
  · exact .inr hJ'

def LoopPhase.ahead : LoopPhase → List EpollEvent
  | .batch events _ => events
  | _ => []

/-- In its round `test` the loop of the main program has still to come to the entry `e`. -/
def StillHolds (e : EpollEvent) (test : ℕ) (s : State) : Prop :=
  ∃ l, loops s.stack = [l] ∧ l.test = test ∧ e ∈ l.phase.ahead

theorem mem_ahead {phase : LoopPhase} {e : EpollEvent} :
    e ∈ phase.ahead ↔ ∃ events since, phase = .batch events since ∧ e ∈ events := by
  cases phase <;> simp [LoopPhase.ahead]

theorem stillHolds_step {e : EpollEvent} {test : ℕ} (hreach : Reached MainLoops s)
    (hw : s.rg.waiter e.dataFd = some c) (hd : dispatched e) (h : StillHolds e test s)
    (hok : MainLoops s a) (hstep : step s a = .ok s') : StillHolds e test s' ∨
      ∃ τ act result, s'.log = .switched τ (.io e.dataFd) c act result :: s.log := by
  obtain ⟨l, hl, htest, hahead⟩ := h
  obtain ⟨events, since, hp, hmem⟩ := mem_ahead.mp hahead
  cases round_step hreach hok hl hstep with
  | same hsame => exact .inl ⟨l, hsame, htest, hahead⟩
  | waits batch hwait _ => cases hp.symm.trans hwait
  | turns answer below hs hbelow hturn =>
    cases hturn with
    | passBegins _ hbatch _ =>
      -- the batch is not over before the entry
      cases hp.symm.trans hbatch
      cases hmem
    | skips e' rest _ hbatch hnot hs' =>
      cases hp.symm.trans hbatch
      rcases List.mem_cons.mp hmem with rfl | hrest
      · exact absurd hd hnot
      · refine .inl ⟨{ l with phase := .batch rest since }, ?_, htest, hrest⟩
        rw [hs']
        exact congrArg (List.cons _) hbelow
    | dispatches e' rest _ hbatch _ hinv =>
      cases hp.symm.trans hbatch
      rcases List.mem_cons.mp hmem with rfl | hrest
      · obtain ⟨τ, act, result, hlog⟩ := switched_of_aioInvoke hinv hw
        exact .inr ⟨τ, act, result, hlog⟩
      · exact .inl ⟨{ l with phase := .batch rest since }, loops_of_aioInvoke rfl hbelow hinv, htest,
          hrest⟩
    | leaves hphase _ _ => cases hp.symm.trans hphase
    | passEnds _ _ hphase _ => cases hp.symm.trans hphase
    | passesOver _ _ _ _ _ hphase _ _ _ _ => cases hp.symm.trans hphase
    | fires _ _ _ _ _ hphase _ _ _ _ => cases hp.symm.trans hphase
    | reaps _ _ _ _ _ hphase _ _ _ => cases hp.symm.trans hphase

/-- A coroutine waits for a descriptor that is reported further on in the batch of `event_loop`.
In every run from there in which `coroutine::socket_close` closes no descriptor that is waited
for, the batch is not over before the coroutine was switched to. -/
theorem report_ends_wait {e : EpollEvent} {test : ℕ} (hreach : Reached MainLoops s)
    (hst : status s.log t = .suspended (.io e.dataFd) c) (hfound : s.rg.waiter e.dataFd = some c)
    (hd : dispatched e) (h : StillHolds e test s)
    (hrun : Reachable step (fun u => u = s) (fun u a => MainLoops u a ∧ ¬ ClosesWaiter u a) s') :
    Woken t (.io e.dataFd) c s' ∨ StillHolds e test s' :=
  until_woken (fun _ _ => id) hreach hst hfound h
    (fun _ _ _ hu hw hJ hok hstep => stillHolds_step hu hw hd hJ hok.1 hstep) hrun

def reportsRun : List Action :=
  [createCall 1, readCall 3, createCall 2, readCall 4, .eventLoop callSite,
    .epollWait [⟨epollIn, 3⟩, ⟨epollIn, 4⟩]]

def reportsRound : List Action :=
  [.loopStep (.value 7), createCall 3, .call callSite, readCall 5, .finish, .loopStep (.value 7),
    .finish, .loopStep .null]

theorem report_ends_wait_third : ∃ s s', runFrom step (initial 0 0) reportsRun = .ok s ∧
    status s.log 14 = .suspended (.io 4) 19 ∧ runFrom step s reportsRound = .ok s' ∧
    (loops s'.stack).map (fun l => l.phase.ahead) = [[]] ∧ Woken 14 (.io 4) 19 s' := by
  obtain ⟨s, hrun, hs, hp⟩ := exists_reached_of _ mainLoops_of_test reportsRun
    (fun s => status s.log 14 = .suspended (.io 4) 19 ∧ s.rg.waiter 4 = some 19 ∧
      (loops s.stack).map (fun l => (l.test, l.phase.ahead)) =
        [(0, [⟨epollIn, 3⟩, ⟨epollIn, 4⟩])] ∧
      leadsTo step (fun u a => testMainLoops u a && !isSocketClose a)
        (fun s' => (loops s'.stack).map (fun l => l.phase.ahead) = [[]]) s reportsRound)
    (by decide +kernel)
  obtain ⟨hst, hfound, hloops, hround⟩ := of_decide_eq_true hp
  obtain ⟨l, hl, hl'⟩ := List.map_eq_singleton_iff.mp hloops
  obtain ⟨htest, hahead⟩ := Prod.mk.inj hl'
  have hholds : StillHolds ⟨epollIn, 4⟩ 0 s := by
    refine ⟨l, hl, htest, ?_⟩
    rw [hahead]
    exact List.mem_cons_of_mem _ List.mem_cons_self
  have hok : ∀ u a, (testMainLoops u a && !isSocketClose a) = true →
      MainLoops u a ∧ ¬ ClosesWaiter u a := by
    intro u a h
    obtain ⟨hmain, hnot⟩ := Bool.and_eq_true_iff.mp h
    refine ⟨mainLoops_of_test u a hmain, ?_⟩
    rintro ⟨site, io, closed, retval, fd, rfl, _⟩
    cases hnot
  have hstart : Reachable step (fun u => u = s) (fun u a => MainLoops u a ∧ ¬ ClosesWaiter u a) s :=
    .init rfl
  obtain ⟨s', hrun', hs', hp'⟩ := exists_reachable_of_leadsTo hstart hok hround
  have hround' := of_decide_eq_true hp'
  refine ⟨s, s', hrun, hst, hrun', hround', ?_⟩
  rcases report_ends_wait (e := ⟨epollIn, 4⟩) hs hst hfound (.inl (by decide)) hholds hs' with
    hwoken | ⟨l', hl', _, hahead'⟩
  · exact hwoken
  · rw [hl', List.map_singleton, List.singleton_inj] at hround'
    rw [hround'] at hahead'
    cases hahead'

end Phpco
