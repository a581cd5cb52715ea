import Phpco.Cooperation
import Phpco.WakeLaw

/-!
# Every request can be brought to an end

In a considerate run no coroutine is lost.  Wherever such a run has come to, the
coroutines that run may return and the others may be woken one after the other,
until none is left and all that they had is released.
-/

namespace Phpco
open Except EventTable Transition

variable {s s' : State} {a : Action} {t c : Ptr} {fd : ℤ}

/-- A careful step that asks for no descriptor on which a coroutine waits, closes no such
descriptor, and sets no timer to a time before the epoch. -/
structure Considerate (s : State) (a : Action) : Prop where
  careful : Careful s a
  idle : ∀ q addOk, ioRequest s a = some (q, addOk) → s.rg.waiter q.fd = none
  keeps : ∀ fd, ClosesFd fd a → s.rg.waiter fd = none
  expires : ∀ site timeout tfd clockOk addOk, a = .sleep site timeout tfd clockOk addOk →
    0 ≤ (armedValue s timeout).tvSec

theorem Considerate.cooperates (h : Considerate s a) : Cooperates s a where
  loop := h.careful.room.1.1
  idle := h.idle
  keeps := by
    rintro ⟨site, io, closed, retval, fd, rfl, hfd, hw⟩
    exact hw (h.keeps fd hfd)

theorem careful_of_considerate (h : Reached Considerate s) : Reached Careful s :=
  h.mono fun _ _ _ _ _ hok _ => hok.careful

theorem isIo_of_windsDown (ha : windsDown a = true) : isIo a = false := by
  cases a <;> first | rfl | cases ha

theorem WindsDown.considerate (h : WindsDown s a) : Considerate s a where
  careful := h.1
  idle q addOk hq := by
    have hio := isIo_of_ioRequest hq
    rw [isIo_of_windsDown h.2] at hio
    cases hio
  keeps fd hfd := absurd hfd h.keepsOpen.2
  expires := by
    rintro site timeout tfd clockOk addOk rfl
    cases h.2

def TimersSet (r : EventTable) : Prop := ∀ fd, r.timerfds fd ≠ some none

theorem timerfds_mono_free {r : EventTable} {slot fd : ℤ} {timer : Option Timespec}
    (h : (aioEventFree r slot).timerfds fd = some timer) : r.timerfds fd = some timer := by
  unfold aioEventFree at h
  split at h
  · exact h
  · split at h
    · exact h
    · exact h
    · exact h
    · next ev _ _ _ =>
      change Function.update r.timerfds ev.fd none fd = some timer at h
      by_cases hfd : fd = ev.fd
      · simp [hfd] at h
      · rwa [Function.update_of_ne hfd] at h

theorem timersSet_step (hr : TableWf s.rg) (h : TimersSet s.rg) (hok : Considerate s a)
    (hstep : step s a = .ok s') : TimersSet s'.rg := by
  intro fd hfd
  cases tableMove hstep with
  | same hrg _ => exact h fd (hrg ▸ hfd)
  | init _ _ _ _ _ hrg =>
    rw [hrg] at hfd
    exact h fd hfd
  | store q addOk r r' ret hq _ _ _ _ _ _ =>
    have hmove : s'.rg.timerfds fd = s.rg.timerfds fd ∨ _ :=
      timerfds_io hr (isIo_of_ioRequest hq) hstep
    rcases hmove with hsame | ⟨site, timeout, clockOk, addOk, rfl, hpos⟩
    · exact h fd (hsame ▸ hfd)
    · obtain ⟨_, _, htimers, _⟩ := sleep_cases hr hpos hstep
      rw [htimers, Function.update_self, if_pos (hok.expires _ _ _ _ _ rfl)] at hfd
      cases hfd
  | invoke answer fd' _ _ _ hrg _ _ =>
    rw [hrg, timerfds_invokeTable] at hfd
    exact h fd (timerfds_mono_free hfd)
  | socketClose site io closed retval fd' _ _ _ hrg _ =>
    rw [hrg] at hfd
    have hold := timerfds_mono_free hfd
    split_ifs at hold
    · exact h fd hold
    · exact h fd hold
  | closeFd fd' _ hrg _ =>
    rw [hrg] at hfd
    exact h fd hfd

theorem timersSet_of_reached (h : Reached Considerate s) : TimersSet s.rg := by
  refine h.invariant_of (I := fun s => TimersSet s.rg) ?_ fun s a s' hreach ht hok hstep =>
    timersSet_step (tableWf_of_reached hreach) ht hok hstep
  rintro s ⟨_, _, _, _, rfl⟩ fd hfd
  cases hfd

/-- Who waits for a descriptor can be woken. -/
def Attended (s : State) : Prop :=
  ∀ t fd c, status s.log t = .suspended (.io fd) c → Wakeable t fd c s

theorem wakeable_of_suspends (hr : TableWf s.rg) (htimers : TimersSet s'.rg)
    (hok : Considerate s a) (hstep : step s a = .ok s') (hput : PutsUnder s a t (.io fd) c s')
    (hst : status s'.log t = .suspended (.io fd) c) : Wakeable t fd c s' := by
  obtain ⟨q, addOk, hq, rfl⟩ := hput.request fd rfl
  have hidle := hok.idle q addOk hq
  have hfound : s'.rg.waiter q.fd = some c := hput.idle fun fd hfd => by cases hfd; exact hidle
  refine ⟨hst, hfound, ?_, htimers _⟩
  -- the slot was idle, so that the call has registered the descriptor
  cases tableMove hstep with
  | same hrg _ =>
    rw [hrg, hidle] at hfound
    cases hfound
  | store q' addOk' r r' ret hq' hsame _ _ hst' hrg _ =>
    cases hq.symm.trans hq'
    rw [hrg] at hfound ⊢
    obtain ⟨_, ⟨_, hw, rfl⟩ | ⟨_, _, _, _, ev, _, _, rfl⟩ | ⟨_, hbusy, rfl⟩⟩ :=
      aioEventStore_cases (hr.congr hsame.slots hsame.interest) hst'
    · rw [waiter_setSlot_none hw, hw] at hfound
      cases hfound
    · simp [registerSlot]
    · exact absurd ((hsame.waiter q.fd).trans hidle) hbusy
  | init site slots callback ha _ _ =>
    rw [ha] at hq
    cases hq
  | invoke answer fd' ha _ _ _ _ _ =>
    rw [ha] at hq
    cases hq
  | socketClose site io closed retval fd' ha _ _ _ _ =>
    rw [ha] at hq
    cases hq
  | closeFd fd' ha _ _ =>
    rw [ha] at hq
    cases hq

theorem attended_step (hreach : Reached Considerate s) (h : Attended s) (hok : Considerate s a)
    (hstep : step s a = .ok s') : Attended s' := by
  intro t fd c hst'
  have hreach' := hreach.next hok hstep
  have hcareful := careful_of_considerate hreach
  have hsafe := safe_of_reached hcareful
  have hr := tableWf_of_reached hreach
  by_cases hst : status s.log t = .suspended (.io fd) c
  · have hw := h t fd c hst
    have hopen : ¬ ClosesFd fd a := fun hcl => by
      cases (hok.keeps fd hcl).symm.trans hw.found
    rcases wakeable_step hcareful hw hopen hstep with hw' | ⟨act, result, hmem⟩
    · exact hw'
    · -- it waits, so that it was not switched to
      have hown := finishesOwn_of_careful (careful_of_considerate hreach')
      obtain ⟨hnone, _⟩ := spent_of_reached hown _ _ _ _ _ hmem
      cases hnone.symm.trans (kept_of_reached hown t _ c hst')
  · have hnew : ∀ {es}, Adds s s' es → status (es ++ s.log) t = .suspended (.io fd) c :=
      fun hlog => hlog.status ▸ hst'
    have hother : ∀ {t' σ}, σ ≠ .suspended (.io fd) c →
        Function.update (status s.log) t' σ t ≠ .suspended (.io fd) c := by
      intro t' σ hσ heq
      rw [Function.update_apply] at heq
      split_ifs at heq
      · exact hσ heq
      · exact hst heq
    cases lifeStep hr hsafe.sched (hsafe.hosted.finishesOwn hsafe.sched a) hstep with
    | same _ hlog _ _ => exact absurd (hnew hlog) hst
    | starts x t' cid retval _ _ _ hlog _ _ => exact absurd (hnew hlog) (hother (by simp))
    | switches x t' w c' result _ _ _ _ _ hlog _ _ =>
      have hadds : Adds s s' [.switched (some t') w c' x.id result] := ⟨[], hlog⟩
      exact absurd (hnew hadds) (hother (by simp))
    | suspends x t' w c' _ _ _ _ hlog _ hput =>
      by_cases hsame : Status.suspended w c' = .suspended (.io fd) c
      · cases hsame
        have htt : t = t' := by
          by_contra hne
          exact hst ((Function.update_of_ne hne _ _).symm.trans (hnew hlog))
        subst htt
        exact wakeable_of_suspends hr (timersSet_of_reached hreach') hok hstep hput hst'
      · exact absurd (hnew hlog) (hother hsame)
    | finishes x t' cid page retval _ _ _ hlog _ _ => exact absurd (hnew hlog) (hother (by simp))

theorem attended_of_reached (h : Reached Considerate s) : Attended s := by
  refine h.invariant_of ?_ fun s a s' hreach ha hok hstep => attended_step hreach ha hok hstep
  rintro s ⟨_, _, _, _, rfl⟩ t fd c hst
  cases hst

/-- Who waits now did so before, in the same context. -/
def Narrows (s s' : State) : Prop :=
  ∀ w c t, s'.contextOf w = some c → s'.scheduler.saved c = some (some t) →
    s.contextOf w = some c ∧ s.scheduler.saved c = some (some t)

theorem Narrows.refl (s : State) : Narrows s s := fun _ _ _ hc ht => ⟨hc, ht⟩

theorem Narrows.trans {s₁ s₂ : State} (h : Narrows s s₁) (h' : Narrows s₁ s₂) : Narrows s s₂ := by
  intro w c t hc ht
  obtain ⟨hc₁, ht₁⟩ := h' w c t hc ht
  exact h w c t hc₁ ht₁

theorem narrows_step (h : LifeStep s a s') (ha : windsDown a = true) : Narrows s s' := by
  have hkeep : KeepsKeys s s' →
      (∀ c t, s'.scheduler.saved c = some (some t) → s.scheduler.saved c = some (some t)) →
        Narrows s s' :=
    fun hkeys hsaved w c t hc ht => ⟨hkeys.contextOf w c hc, hsaved c t ht⟩
  cases h with
  | same _ _ hsaved hkeys => exact hkeep hkeys fun c t ht => hsaved ▸ ht
  | starts x t cid retval _ _ _ _ hsaved hkeys => exact hkeep hkeys fun c t ht => hsaved ▸ ht
  | switches x t w c result _ _ _ _ _ _ hsaved hkeys =>
    refine hkeep hkeys fun c' t' ht => ?_
    rw [hsaved, Function.update_apply] at ht
    split_ifs at ht
    exact ht
  | suspends x t w c _ _ _ _ _ _ hput =>
    -- none of these calls suspends
    exfalso
    cases w with
    | yield cid =>
      obtain ⟨site, rfl⟩ := hput.yields cid rfl
      cases ha
    | io fd =>
      obtain ⟨q, addOk, hq, _⟩ := hput.request fd rfl
      have hio := isIo_of_ioRequest hq
      rw [isIo_of_windsDown ha] at hio
      cases hio
  | finishes x t cid page retval _ _ _ _ hsaved hkeys => exact hkeep hkeys fun c t ht => hsaved ▸ ht

theorem narrows_run (hreach : Reached Considerate s)
    (hrun : Reachable step (fun u => u = s) WindsDown s') :
    Reached Considerate s' ∧ Narrows s s' := by
  refine hrun.invariant (I := fun u => Reached Considerate u ∧ Narrows s u) ?_ ?_
  · rintro u rfl
    exact ⟨hreach, .refl u⟩
  · rintro u a u' ⟨hu, hnarrows⟩ hok hstep
    have hsafe := safe_of_reached (careful_of_considerate hu)
    have hlife := lifeStep (tableWf_of_reached hu) hsafe.sched
      (hsafe.hosted.finishesOwn hsafe.sched a) hstep
    exact ⟨hu.next hok.considerate hstep, hnarrows.trans (narrows_step hlife hok.2)⟩

theorem exists_resumed (hreach : Reached Careful s) (hstack : s.stack = []) {cid : ℤ}
    (hst : status s.log t = .suspended (.yield cid) c) :
    ∃ s', Reachable step (fun u => u = s) WindsDown s' ∧ Woken t (.yield cid) c s' := by
  have hsafe := safe_of_reached hreach
  obtain ⟨hs, _, _, hc⟩ := scheduled_of_inRoom (inRoom_of_careful hreach)
  obtain ⟨hsaved, hcid, _⟩ := hs.core.yielded t cid c hst
  have hcid : cidOf s.log t = some cid := hcid
  have hrange : 1 ≤ cid ∧ cid ≤ 32768 := by
    rcases hs.core.cidHeld t cid hcid with hm | ⟨n, hn, hm, _⟩
    · exact absurd (hm ▸ hcid) (hc.numbered t)
    · omega
  have hint : toInt cid = cid := by
    rw [toInt, Int.bmod_eq_of_le] <;> omega
  have hin : inContextMap (toInt cid) := by
    rw [hint]
    exact ⟨by omega, hrange.2⟩
  have hy : YieldedUnder s (toInt cid) t c := hint.symm ▸ ⟨hcid, hst⟩
  have hcareful : Careful s (.resume callSite cid) := by
    constructor
    case room =>
      refine ⟨⟨by rintro site ⟨⟩, ?_, by rintro site slots callback ⟨⟩⟩, by
        rintro site slots callback ⟨⟩⟩
      rintro site arg ⟨⟩
      exact ⟨t, c, hy⟩
    case inside =>
      rintro ⟨⟩
    case index =>
      refine fun _ => .inr (.inl ?_)
      rw [namedCid, if_pos (hint ▸ hin)]
      rfl
    case events => rintro q addOk event c ⟨⟩
    case unused => rintro site ⟨⟩
    case persistent => rintro site obj garbage timeout persistent ⟨⟩
  have hphp : phpRuns s := phpRuns_of_stack hstack
  obtain ⟨s', hstep⟩ := step_of_offered hsafe (tableWf_of_reached hreach) hcareful hphp
  have hrun : Reachable step (fun u => u = s) WindsDown s := .init rfl
  refine ⟨s', hrun.next ⟨hcareful, rfl⟩ hstep, ?_⟩
  have hlife := lifeStep (tableWf_of_reached hreach) hs (hsafe.hosted.finishesOwn hs _) hstep
  rcases life_cases hlife (kept_of_reached (finishesOwn_of_careful hreach)) hst with
    ⟨_, hne⟩ | ⟨act, result, hlog⟩
  · rw [step_resume_some hphp hin (hs.map_of_yieldedUnder hy)] at hstep
    obtain ⟨τ, act, result, hlog⟩ := log_cCoroResume hstep
    exact absurd hlog (hne τ _ act result)
  · exact ⟨act, result, hlog ▸ List.mem_cons_self⟩

/-- Whoever waits can be woken, and then the main program regains control. -/
theorem exists_one_less (hreach : Reached Considerate s) (hstack : s.stack = []) {w : Wait}
    (hw : s.parked w = some t) :
    ∃ s', Reachable step (fun u => u = s) WindsDown s' ∧ s'.stack = [] ∧ s'.parked w = none := by
  obtain ⟨c, hc, ht⟩ := parked_eq_some.mp hw
  have hcareful := careful_of_considerate hreach
  have hst := suspended_of_contextOf (safe_of_reached hcareful).sched.core hc ht
  have hwoken : ∃ s₁, Reachable step (fun u => u = s) WindsDown s₁ ∧ Woken t w c s₁ := by
    cases w with
    | yield cid => exact exists_resumed hcareful hstack hst
    | io fd => exact exists_woken hcareful (attended_of_reached hreach t fd c hst)
  obtain ⟨s₁, hrun₁, act, result, hmem⟩ := hwoken
  obtain ⟨hreach₁, hnarrows₁⟩ := narrows_run hreach hrun₁
  have hcareful₁ := careful_of_considerate hreach₁
  obtain ⟨s₂, hback, hstack₂⟩ := exists_main hcareful₁
  have hrun₂ : Reachable step (fun u => u = s₁) WindsDown s₂ :=
    hback.mono fun u a _ _ _ ha _ => windsDown_of_goesBack u (.inl ha)
  obtain ⟨_, hnarrows₂⟩ := narrows_run hreach₁ hrun₂
  refine ⟨s₂, hrun₁.trans hrun₂, hstack₂, Option.eq_none_iff_forall_ne_some.mpr fun t' hw' => ?_⟩
  -- the context was used up
  obtain ⟨c', hc', ht'⟩ := parked_eq_some.mp hw'
  obtain ⟨hc₁, ht₁⟩ := hnarrows₂ w c' t' hc' ht'
  obtain ⟨hc₀, _⟩ := hnarrows₁ w c' t' hc₁ ht₁
  obtain rfl : c = c' := Option.some.inj (hc.symm.trans hc₀)
  obtain ⟨hnone, _⟩ := spent_of_reached (finishesOwn_of_careful hcareful₁) _ _ _ _ _ hmem
  cases hnone.symm.trans ht₁

theorem exists_waiting (hreach : Reached Considerate s) :
    ∃ ps, Coop.Waiting s.cooperative ps := by
  have hcoop : Reached Cooperates s := hreach.mono fun _ _ _ _ _ hok _ => hok.cooperates
  obtain ⟨ps, hw, _⟩ := Coop.Run.census (simulates.trace hcoop)
  exact ⟨ps, hw⟩

/-- By induction on the number of those that wait. -/
theorem exists_none_waits (hreach : Reached Considerate s) (hstack : s.stack = []) :
    ∃ s', Reachable step (fun u => u = s) WindsDown s' ∧ s'.stack = [] ∧
      ∀ w, s'.parked w = none := by
  obtain ⟨ps, hps⟩ := exists_waiting hreach
  induction hn : ps.length using Nat.strongRecOn generalizing s ps with
  | ind n ih =>
    rcases ps with _ | ⟨⟨w, t⟩, rest⟩
    · refine ⟨s, .init rfl, hstack, fun w => Option.eq_none_iff_forall_ne_some.mpr fun t ht => ?_⟩
      cases (hps.mem w t).mpr ht
    · obtain ⟨s₁, hrun₁, hstack₁, hnone⟩ :=
        exists_one_less hreach hstack ((hps.mem w t).mp List.mem_cons_self)
      obtain ⟨hreach₁, hnarrows⟩ := narrows_run hreach hrun₁
      obtain ⟨ps₁, hps₁⟩ := exists_waiting hreach₁
      have hless : ps₁.length < n := by
        have hnot : (w, t) ∉ ps₁ := fun hmem => by
          cases hnone.symm.trans ((hps₁.mem w t).mp hmem)
        have hsub : (w, t) :: ps₁ ⊆ (w, t) :: rest := by
          rintro ⟨w', t'⟩ hmem
          rcases List.mem_cons.mp hmem with heq | hmem
          · exact heq ▸ List.mem_cons_self
          · obtain ⟨c, hc, ht⟩ := parked_eq_some.mp ((hps₁.mem w' t').mp hmem)
            obtain ⟨hc', ht'⟩ := hnarrows w' c t' hc ht
            exact (hps.mem w' t').mpr (parked_eq_some.mpr ⟨c, hc', ht'⟩)
        have hnodup : ((w, t) :: ps₁).Nodup := List.nodup_cons.mpr ⟨hnot, hps₁.nodup⟩
        rw [← hn]
        exact (List.subperm_of_subset hnodup hsub).length_le
      obtain ⟨s', hrun', hfinal⟩ := ih ps₁.length hless hreach₁ hstack₁ ps₁ hps₁ rfl
      exact ⟨s', hrun₁.trans hrun', hfinal⟩

/-- No coroutine is left, and no cid or page is in use. -/
structure Completed (s : State) : Prop where
  main : s.stack = []
  ended : ∀ t, status s.log t = .absent ∨ status s.log t = .closed
  coroNum : s.corog.coroNum = 0
  cids : ∀ n, s.cids.held n = false
  pages : ∀ p, s.tasks p = none

theorem completed_of_none_waits (hreach : Reached Considerate s) (hstack : s.stack = [])
    (hnone : ∀ w, s.parked w = none) : Completed s := by
  have hcoop : Reached Cooperates s := hreach.mono fun _ _ _ _ _ hok _ => hok.cooperates
  have hf := Coop.Run.follows (simulates.trace hcoop)
  have hended : ∀ t, status s.log t = .absent ∨ status s.log t = .closed := by
    intro t
    have hphase : Coop.phase s.record t = _ := phase_scheduling (fun w _ => w) s.log t
    cases hst : status s.log t with
    | absent => exact .inl rfl
    | closed => exact .inr rfl
    | running act =>
      rw [hst] at hphase
      have hmem := (hf.active t).mpr hphase
      rw [State.cooperative, hstack] at hmem
      cases hmem
    | suspended w c =>
      rw [hst] at hphase
      cases (hnone w).symm.trans ((hf.parked w t).mpr hphase)
  have hinRoom := inRoom_of_careful (careful_of_considerate hreach)
  obtain ⟨hs, _, _, hc⟩ := scheduled_of_inRoom hinRoom
  have hlaw := ownershipLaw_of_reached hinRoom
  have hlive : ∀ t, cidOf s.log t = none := fun t => (hs.core.live t).mpr (hended t)
  constructor
  case main => exact hstack
  case ended => exact hended
  case coroNum =>
    rw [hc.coroNum, List.length_eq_zero_iff, List.eq_nil_iff_forall_not_mem]
    exact fun t ht => (hc.mem t).mp ht (hlive t)
  case cids =>
    intro n
    rw [Bool.eq_false_iff]
    intro hheld
    obtain ⟨t, ht⟩ := (hlaw.cids n).mp hheld
    cases (hlive t).symm.trans ht
  case pages =>
    intro p
    by_contra hp
    exact (hlaw.pages p).mp hp (hlive p)

/-- In every considerate run, whoever waits for a descriptor can be woken; and from wherever the
run has come to, winding it down completes it. -/
theorem request_can_complete (hreach : Reached Considerate s) :
    (∀ t fd c, status s.log t = .suspended (.io fd) c → Wakeable t fd c s) ∧
    ∃ s', Reachable step (fun u => u = s) WindsDown s' ∧ Completed s' := by
  refine ⟨attended_of_reached hreach, ?_⟩
  obtain ⟨s₁, hback, hstack⟩ := exists_main (careful_of_considerate hreach)
  have hrun : Reachable step (fun u => u = s) WindsDown s₁ :=
    hback.mono fun u a _ _ _ ha _ => windsDown_of_goesBack u (.inl ha)
  obtain ⟨hreach₁, _⟩ := narrows_run hreach hrun
  obtain ⟨s', hrun', hstack', hnone⟩ := exists_none_waits hreach₁ hstack
  obtain ⟨hreach', _⟩ := narrows_run hreach₁ hrun'
  exact ⟨s', hrun.trans hrun', completed_of_none_waits hreach' hstack' hnone⟩

def testConsiderate (s : State) (a : Action) : Bool :=
  testCareful s a && testCooperates s a && match a with
    | .closeFd fd => s.rg.waiter fd = none
    | .sleep _ timeout _ _ _ => 0 ≤ (armedValue s timeout).tvSec
    | _ => true

theorem considerate_of_test (s : State) (a : Action) (h : testConsiderate s a = true) :
    Considerate s a := by
  simp only [testConsiderate, Bool.and_eq_true] at h
  obtain ⟨⟨hcareful, hcoop⟩, hlast⟩ := h
  have hc := cooperates_of_test hcoop
  constructor
  case careful => exact careful_of_test s a hcareful
  case idle => exact hc.idle
  case keeps =>
    intro fd hfd
    cases a with
    | closeFd fd' =>
      obtain rfl : fd' = fd := hfd
      exact of_decide_eq_true hlast
    | socketClose site io closed retval =>
      by_contra hw
      exact hc.keeps ⟨site, io, closed, retval, fd, rfl, hfd, hw⟩
    | _ => cases hfd
  case expires =>
    rintro site timeout tfd clockOk addOk rfl
    exact of_decide_eq_true hlast

def mixedRun : List Action :=
  [createCall 1, readCall 3, createCall 2, .sleep callSite 2 4 true true, createCall 3, yieldCall,
    createCall 4]

theorem request_can_complete_mixed : ∃ s s', runFrom step (initial 0 0) mixedRun = .ok s ∧
    s.corog.coroNum = 4 ∧ (activations s.stack).length = 1 ∧
    Reachable step (fun u => u = s) WindsDown s' ∧ Completed s' := by
  obtain ⟨s, hrun, hs, hp⟩ := exists_reached_of _ considerate_of_test mixedRun
    (fun s => s.corog.coroNum = 4 ∧ (activations s.stack).length = 1) (by decide +kernel)
  obtain ⟨hnum, hdepth⟩ := of_decide_eq_true hp
  obtain ⟨_, s', hback, hdone⟩ := request_can_complete hs
  exact ⟨s, s', hrun, hnum, hdepth, hback, hdone⟩

end Phpco
