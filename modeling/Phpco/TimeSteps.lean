import Phpco.Moves

namespace Phpco
open Except EventTable

structure SameTime (s s' : State) : Prop where
  now : s'.now = s.now
  clock : s'.clock = s.clock
  timeouts : s'.timeouts = s.timeouts

theorem SameTime.trans {s s' s'' : State} (h : SameTime s s') (h' : SameTime s' s'') :
    SameTime s s'' where
  now := h'.now.trans h.now
  clock := h'.clock.trans h.clock
  timeouts := h'.timeouts.trans h.timeouts

theorem Unswitched.sameTime {s s' : State} (h : Unswitched s s') : SameTime s s' :=
  ⟨h.now, h.clock, h.timeouts⟩

theorem sameTime_coroClose {s s' : State} (h : coroClose s = .ok s') : SameTime s s' := by
  obtain ⟨t, task, retval, _, _, _, rfl⟩ := coroClose_eq_ok.mp h
  exact ⟨rfl, rfl, rfl⟩

theorem sameTime_coroutineCreate {s s' : State} {frame : InternalCall} {slots : ℕ}
    {callback : Zval} (h : coroutineCreate s frame slots callback = .ok s') : SameTime s s' := by
  have hinit : SameTime s (ensureInit s) :=
    ⟨ensureInit_now s, ensureInit_clock s, ensureInit_timeouts s⟩
  apply hinit.trans
  obtain ⟨cid, cids, _, ⟨_, _, ht⟩ | ⟨_, hj⟩⟩ := coroutineCreate_cases h
  · obtain ⟨buf, tasks, _, _, rfl⟩ := coroutineCreateTail_cases (by decide) ht
    exact ⟨rfl, rfl, rfl⟩
  · have hu := unswitched_setjmp hj
    exact ⟨hu.now, hu.clock, hu.timeouts⟩

theorem sameTime_coroutineYield {s s' : State} (h : coroutineYield s = .ok s') : SameTime s s' := by
  obtain ⟨t, task, _, _, _, rfl⟩ := coroutineYield_cases h
  exact ⟨rfl, rfl, rfl⟩

theorem sameTime_aioInvoke {s s' : State} {fd : ℤ} {answer : Zval}
    (h : aioInvoke s fd answer = .ok s') : SameTime s s' := by
  obtain ⟨_, ⟨_, rfl⟩ | ⟨ev, c, _, _, hres⟩⟩ := aioInvoke_cases h
  · exact ⟨rfl, rfl, rfl⟩
  · have hsame := unswitched_cCoroResume hres
    exact ⟨hsame.now, hsame.clock, hsame.timeouts⟩

theorem sameTime_io {s s' : State} {a : Action} {o : Outcome} (ha : isIo a = true)
    (h : phpStep s a = .ok o) (hs : settle o = .ok s') : SameTime s s' := by
  cases ioStep ha h with
  | refused site v ho =>
    subst ho
    cases hs
    exact ⟨rfl, rfl, rfl⟩
  | asked site r q addOk _ _ _ hst =>
    obtain ⟨rg, ret, _, ⟨_, rfl⟩ | ⟨_, rfl⟩⟩ := storeAndYield_cases hst
    · cases hs
      exact ⟨rfl, rfl, rfl⟩
    · have hsame := (unswitched_coroYield hs).1
      exact ⟨hsame.now, hsame.clock, hsame.timeouts⟩

def isSetTimeout : Action → Bool
  | .socketSetTimeout _ _ _ _ _ => true
  | _ => false

theorem isSetTimeout_eq_true {a : Action} : isSetTimeout a = true ↔
    ∃ site obj garbage timeout persistent,
      a = .socketSetTimeout site obj garbage timeout persistent := by
  cases a <;> simp [isSetTimeout]

theorem sameTime_php {s s' : State} {a : Action} {o : Outcome} (ha : isIo a = false)
    (ht : isSetTimeout a = false) (h : phpStep s a = .ok o) (hs : settle o = .ok s') :
    SameTime s s' := by
  cases phpStep_cases ha h with
  | finish x stack base s₁ s₂ _ _ hc hret =>
    cases hs
    have hclose := sameTime_coroClose hc
    have hopen : SameTime s s₁ := ⟨hclose.now, hclose.clock, hclose.timeouts⟩
    exact hopen.trans (unswitched_returnFrom (by decide) hret).1.sameTime
  | create site slots callback s₁ hc =>
    cases hs
    have hsame := sameTime_coroutineCreate hc
    exact ⟨hsame.now, hsame.clock, hsame.timeouts⟩
  | yield site s₁ hy =>
    have hsame := (sameTime_coroutineYield hy).trans (unswitched_coroYield hs).1.sameTime
    exact ⟨hsame.now, hsame.clock, hsame.timeouts⟩
  | resume site arg c s₁ _ _ hres =>
    cases hs
    have hsame := unswitched_cCoroResume hres
    exact ⟨hsame.now, hsame.clock, hsame.timeouts⟩
  | socketSetTimeout _ _ _ _ _ => cases ht
  | _ =>
    cases hs
    exact ⟨rfl, rfl, rfl⟩

/-- How a step changes the clocks and the queue. -/
inductive TimeMove (s : State) (a : Action) (s' : State) : Prop
  | same : SameTime s s' → TimeMove s a s'
  | tick (now : ℤ) (clock : Timespec) : a = .tick now clock → s.clock.le clock →
      s' = { s with now := now, clock := clock } → TimeMove s a s'
  | push (site : CallSite) (obj : Zval) (garbage timeout : ℤ) (persistent : Bool) :
      a = .socketSetTimeout site obj garbage timeout persistent → phpRuns s →
      s' = leaveCall (socketSetTimeout (enterCall s site) obj garbage timeout persistent)
        (callFrame s site) (.bool true) → TimeMove s a s'
  | reap (answer : Zval) (l : EventLoop) (stack : List CFrame) (now : ℤ) (q : Ptr) (f : Option Ptr)
      (timeouts : Timeouts) (node : Node) : a = .loopStep answer →
      s.stack = .eventLoop l :: stack → l.phase = .expired now q f →
      reapTimeout s q f = .ok timeouts → timeouts.link.nodes q = some node →
      s' = setPhase { s with timeouts := timeouts } l stack (.timeouts now node.next (some q)) →
      TimeMove s a s'

theorem timeMove_loop {s s' : State} {l : EventLoop} {stack : List CFrame} {answer : Zval}
    (hs : s.stack = .eventLoop l :: stack) (h : eventLoopStep s l stack answer = .ok s') :
    TimeMove s (.loopStep answer) s' := by
  -- only the reaping of an expired element changes the queue
  cases eventLoopStep_cases h with
  | dispatches _ _ _ _ _ hinv =>
    have hsame := sameTime_aioInvoke hinv
    exact .same ⟨hsame.now, hsame.clock, hsame.timeouts⟩
  | fires _ _ _ _ _ _ _ _ _ hinv =>
    have hsame := sameTime_aioInvoke hinv
    exact .same ⟨hsame.now, hsame.clock, hsame.timeouts⟩
  | reaps now q f timeouts node hp hreap hnode hs' =>
    exact .reap answer l stack now q f timeouts node rfl hs hp hreap hnode hs'
  | leaves _ _ hs' => exact .same (by rw [hs']; exact ⟨rfl, rfl, rfl⟩)
  | passBegins _ _ hs' => exact .same (by rw [hs']; exact ⟨rfl, rfl, rfl⟩)
  | skips _ _ _ _ _ hs' => exact .same (by rw [hs']; exact ⟨rfl, rfl, rfl⟩)
  | passEnds _ _ _ hs' => exact .same (by rw [hs']; exact ⟨rfl, rfl, rfl⟩)
  | passesOver _ _ _ _ _ _ _ _ _ hs' => exact .same (by rw [hs']; exact ⟨rfl, rfl, rfl⟩)

theorem timeMove {s s' : State} {a : Action} (h : step s a = .ok s') : TimeMove s a s' := by
  cases a with
  | tick now clock =>
    obtain ⟨_, hle, h⟩ := bind_eq_ok.mp h
    cases h
    exact .tick now clock rfl (check_eq_ok.mp hle) rfl
  | loopStep answer =>
    simp only [step] at h
    split at h
    · next l stack hs => exact timeMove_loop hs h
    · cases h
  | socketSetTimeout site obj garbage timeout persistent =>
    have hphp := phpRuns_of_step rfl h
    rw [step_eq_phpStep hphp rfl] at h
    cases h
    exact .push site obj garbage timeout persistent rfl hphp rfl
  | _ =>
    obtain ⟨_, _, ha, _⟩ | ⟨_, _, _, ha, _, _, _, rfl⟩ | ⟨_, _, _, ha, _⟩ | ⟨_, o, ho, hs⟩ :=
      step_cases h
    · cases ha
    · exact .same ⟨rfl, rfl, rfl⟩
    · cases ha
    · first
        | exact .same (sameTime_io rfl ho hs)
        | exact .same (sameTime_php rfl rfl ho hs)

theorem Timespec.le_refl (t : Timespec) : t.le t := .inr ⟨rfl, le_rfl⟩

theorem Timespec.le_trans {t t' t'' : Timespec} (h : t.le t') (h' : t'.le t'') : t.le t'' := by
  unfold Timespec.le at *
  omega

theorem clock_step {s s' : State} {a : Action} (h : step s a = .ok s') : s.clock.le s'.clock := by
  cases timeMove h with
  | same hsame =>
    rw [hsame.clock]
    exact Timespec.le_refl _
  | tick now clock _ hle hs =>
    rw [hs]
    exact hle
  | push _ _ _ _ _ _ _ hs =>
    rw [hs]
    exact Timespec.le_refl _
  | reap _ _ _ _ _ _ _ _ _ _ _ _ _ hs =>
    rw [hs]
    exact Timespec.le_refl _

theorem clock_of_reached {ok : State → Action → Prop} {s : State} (h : Reached ok s) :
    0 ≤ s.clock.tvSec := by
  apply h.invariant (I := fun s => 0 ≤ s.clock.tvSec)
  · rintro s ⟨_, _, _, _, rfl⟩
    exact le_rfl
  · intro s a s' hle _ hstep
    have hclock := clock_step hstep
    unfold Timespec.le at hclock
    omega

theorem exists_noted_of {η : Type} (note : η → State → Action → State → η) (h₀ : η)
    {ok : State → Action → Prop} (test : State → Action → Bool)
    (hok : ∀ s a, test s a = true → ok s a) (as : List Action) (p : State × η → Bool)
    (h : Transition.leadsTo (Transition.withHistory step note) (fun x a => test x.1 a) p
      (initial 0 0, h₀) as = true) :
    ∃ x, Transition.runFrom (Transition.withHistory step note) (initial 0 0, h₀) as = .ok x ∧
      Transition.Noted step Initial ok note h₀ x ∧ p x = true :=
  Transition.exists_reachable_of_leadsTo (.init ⟨⟨0, by decide, 0, by decide, rfl⟩, rfl⟩)
    (fun x a => hok x.1 a) h

end Phpco
