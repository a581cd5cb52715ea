import Phpco.Frames
import Phpco.SchedulerRuns

/-!
# What `coroutine::resume` switches to

`cid_context_map` keeps a context after it was resumed.  A call of
`coroutine::resume` that still finds it there uses freed memory; every other
call switches to the context its owner yielded with, or returns FALSE.
-/

namespace Phpco
open Except

/-- Coroutine `t` owns `cid` and is suspended in `coroutine::yield` with the context `c`. -/
structure YieldedUnder (s : State) (cid : ℤ) (t c : Ptr) : Prop where
  owner : cidOf s.log t = some cid
  suspended : status s.log t = .suspended (.yield cid) c

def resultUsed (s : State) (c : Ptr) : Prop :=
  ∃ ctx call frames, s.contexts c = .saved ctx ∧ ctx.executeData = call :: frames ∧
    call.resultUsed = true

/-- A call of `coroutine::resume` that switches to the context of a coroutine yielded
under the cid, or else returns FALSE.  `crashes` is such a switch that ends when `NULL`
is copied into the result of the suspended call. -/
inductive ResumeLawful (s : State) (site : CallSite) (arg : ℤ) : Prop
  | switches (t c act : Ptr) (s' : State) : YieldedUnder s (toInt arg) t c →
      step s (.resume site arg) = .ok s' →
      s'.log = .switched (some t) (.yield (toInt arg)) c act none :: s.log →
      ResumeLawful s site arg
  | crashes (t c : Ptr) : YieldedUnder s (toInt arg) t c → resultUsed s c →
      step s (.resume site arg) = .error .nullDeref → ResumeLawful s site arg
  | refuses : (∀ t c, ¬ YieldedUnder s (toInt arg) t c) →
      step s (.resume site arg) =
        .ok (leaveCall (enterCall s site) (callFrame s site) (.bool false)) →
      ResumeLawful s site arg

/-- The cid is in `cid_context_map`, and the context there was not switched to before. -/
def NotResumed (s : State) (cid : ℤ) : Prop :=
  inContextMap cid ∧ ∀ c, s.cidContextMap cid = some c → switches s.log c = 0

theorem switches_of_resumed {log : List Event} {cid : ℤ} {c : Ptr}
    (h : entry log cid = .resumed c) : switches log c ≠ 0 := by
  induction log with
  | nil => cases h
  | cons e log ih =>
    cases e with
    | created t cid' retval act => exact ih h
    | closed t cid' page retval => exact ih h
    | returned v => exact ih h
    | suspended task w c' =>
      cases w with
      | io fd => exact ih h
      | yield cid' =>
        by_cases hcid : cid = cid'
        · simp [hcid] at h
        · exact ih (by simpa [hcid] using h)
    | switched task w c' act result =>
      rw [switches_switched]
      cases w with
      | io fd => exact fun h0 => ih h (by omega)
      | yield cid' =>
        by_cases hcid : cid = cid'
        · have hc : c' = c := by simpa [hcid] using h
          simp [hc]
        · exact fun h0 => ih (by simpa [hcid] using h) (by omega)

/-- A context in the map that was not switched to is the one its owner yielded with. -/
theorem Sched.yieldedUnder {s : State} (h : Sched s) {cid : ℤ} {c : Ptr}
    (hm : s.cidContextMap cid = some c) (hc : switches s.log c = 0) :
    ∃ t ctx, YieldedUnder s cid t c ∧ s.contexts c = .saved ctx ∧ ctx.task = some t := by
  have he := h.core.entries cid
  cases hcase : entry s.scheduler.log cid with
  | never =>
    rw [hcase] at he
    simp [show s.cidContextMap cid = none from he] at hm
  | yielded c' =>
    rw [hcase] at he
    obtain ⟨hm', t, ht⟩ := he
    obtain rfl : c' = c := Option.some.inj (hm'.symm.trans hm)
    obtain ⟨hsaved, howner, _⟩ := h.core.yielded t cid c' ht
    obtain ⟨ctx, hctx, htask⟩ := saver_eq_some.mp hsaved
    exact ⟨t, ctx, ⟨howner, ht⟩, hctx, htask⟩
  | resumed c' =>
    rw [hcase] at he
    obtain rfl : c' = c := Option.some.inj (he.1.symm.trans hm)
    exact absurd hc (switches_of_resumed hcase)

theorem Sched.map_of_yieldedUnder {s : State} (h : Sched s) {cid : ℤ} {t c : Ptr}
    (hy : YieldedUnder s cid t c) : s.cidContextMap cid = some c := by
  have he := h.core.entries cid
  rw [(h.core.yielded t cid c hy.suspended).2.2] at he
  exact he.1

theorem step_resume {s : State} (hphp : phpRuns s) (site : CallSite) (arg : ℤ) :
    step s (.resume site arg) =
      coroutineResume (enterCall s site) (callFrame s site) arg >>= settle :=
  step_eq_phpStep hphp rfl

theorem step_resume_null {s : State} (hphp : phpRuns s) {site : CallSite} {arg : ℤ}
    (hin : inContextMap (toInt arg)) (hm : s.cidContextMap (toInt arg) = none) :
    step s (.resume site arg) =
      .ok (leaveCall (enterCall s site) (callFrame s site) (.bool false)) := by
  have hm' : (enterCall s site).cidContextMap (toInt arg) = none := hm
  simp only [step_resume hphp, coroutineResume, check, if_pos hin, hm']
  rfl

theorem step_resume_some {s : State} (hphp : phpRuns s) {site : CallSite} {arg : ℤ} {c : Ptr}
    (hin : inContextMap (toInt arg)) (hm : s.cidContextMap (toInt arg) = some c) :
    step s (.resume site arg) =
      cCoroResume (newCheckPoint (enterCall s site)) c none (.yield (toInt arg))
        (.resume (callFrame s site) s.checkPoint c (coroSave (enterCall s site)) s.corog.require) := by
  have hm' : (enterCall s site).cidContextMap (toInt arg) = some c := hm
  simp only [step_resume hphp, coroutineResume, check, if_pos hin, hm']
  exact runs_bind _

theorem step_resume_saved {s : State} (hphp : phpRuns s) (site : CallSite) {arg : ℤ} {c : Ptr}
    {ctx : PhpContext} {call : ExecuteData} {frames : List ExecuteData}
    (hin : inContextMap (toInt arg)) (hm : s.cidContextMap (toInt arg) = some c)
    (hctx : s.contexts c = .saved ctx) (hex : ctx.executeData = call :: frames)
    (hne : frames ≠ []) :
    (call.resultUsed = false ∧ ∃ s', step s (.resume site arg) = .ok s' ∧
        s'.log = .switched ctx.task (.yield (toInt arg)) c (s.next + 2) none :: s.log) ∨
      (call.resultUsed = true ∧ step s (.resume site arg) = .error .nullDeref) := by
  obtain ⟨caller, rest, rfl⟩ := List.exists_cons_of_ne_nil hne
  have hctx' : (newCheckPoint (enterCall s site)).contexts c = .saved ctx := hctx
  rw [step_resume_some hphp hin hm, cCoroResume]
  simp only [hctx', hex]
  cases hused : call.resultUsed with
  | true => exact .inr ⟨rfl, rfl⟩
  | false =>
    have hj : setjmp (resumed (newCheckPoint (enterCall s site)) c ctx call (caller :: rest)
        (.yield (toInt arg)) none) (.resume (callFrame s site) s.checkPoint c
          (coroSave (enterCall s site)) s.corog.require) = .ok _ :=
      setjmp_eq_ok.mpr ⟨s.next + 1, rfl, by simp [resumed, newCheckPoint, enterCall], rfl⟩
    exact .inl ⟨rfl, _, hj, rfl⟩

theorem resumeLawful_iff {s : State} (h : Sched s) (hf : Framed s) (hphp : phpRuns s)
    (site : CallSite) (arg : ℤ) : ResumeLawful s site arg ↔ NotResumed s (toInt arg) := by
  constructor
  · intro hlaw
    have hstep : step s (.resume site arg) ≠ .error .outOfBounds ∧
        step s (.resume site arg) ≠ .error .useAfterFree := by
      cases hlaw with
      | switches t c act s' _ hs _ => simp [hs]
      | crashes t c _ _ hs => simp [hs]
      | refuses _ hs => simp [hs]
    have hin : inContextMap (toInt arg) := by
      by_contra hin
      refine hstep.1 ?_
      simp only [step_resume hphp, coroutineResume, check, if_neg hin]
      rfl
    refine ⟨hin, fun c hm => ?_⟩
    -- a context that was switched to is not saved any more
    by_contra hsw
    have hns : s.scheduler.saved c = none := by
      by_contra hs
      exact hsw (h.core.unswitched c (.inr hs))
    refine hstep.2 ?_
    have hctx : (newCheckPoint (enterCall s site)).contexts c = s.contexts c := rfl
    rw [step_resume_some hphp hin hm, cCoroResume, hctx]
    cases hcell : s.contexts c with
    | free => rfl
    | resumed => rfl
    | saved ctx => simp [State.scheduler, hcell, ContextCell.saver] at hns
  · rintro ⟨hin, hfresh⟩
    cases hm : s.cidContextMap (toInt arg) with
    | none =>
      refine .refuses (fun t c hy => ?_) (step_resume_null hphp hin hm)
      simp [h.map_of_yieldedUnder hy] at hm
    | some c =>
      obtain ⟨t, ctx, hy, hctx, htask⟩ := h.yieldedUnder hm (hfresh c hm)
      obtain ⟨call, frames, hex, hne⟩ := hf.saved c ctx hctx
      rcases step_resume_saved hphp site hin hm hctx hex hne with
        ⟨_, s', hs, hlog⟩ | ⟨hused, hs⟩
      · exact .switches t c _ s' hy hs (by rw [hlog, htask])
      · exact .crashes t c hy ⟨ctx, call, frames, hctx, hex, hused⟩ hs

/-- In every run no context is switched to twice, and a call of `coroutine::resume`
keeps the law exactly if the context in `cid_context_map` was not switched to before. -/
theorem resume_lawful_iff_not_resumed {s : State} (h : Reached FinishesOwn s) :
    (∀ c, switches s.log c ≤ 1) ∧
      ∀ site arg, phpRuns s → (ResumeLawful s site arg ↔ NotResumed s (toInt arg)) := by
  have hs := sched_of_reached (fun _ _ => id) h
  exact ⟨hs.core.switchedOnce, fun site arg hphp =>
    resumeLawful_iff hs (framed_of_reached h) hphp site arg⟩

def yieldRun : List Action := [createCall 1, yieldCall]

def failsWith (e : Halt) : Except Halt State → Bool
  | .error e' => e = e'
  | .ok _ => false

theorem failsWith_iff {e : Halt} {r : Except Halt State} : failsWith e r = true ↔ r = .error e := by
  cases r <;> simp [failsWith, eq_comm]

theorem resume_lawful_iff_not_resumed_yielded : ∃ s,
    Transition.runFrom step (initial 0 0) yieldRun = .ok s ∧ (∀ c, switches s.log c ≤ 1) ∧
    s.cidContextMap 1 ≠ none ∧ ResumeLawful s callSite 1 := by
  have hok : ∀ s a, decide (a ≠ .finish) = true → FinishesOwn s a :=
    fun s a ha hfin => absurd hfin (of_decide_eq_true ha)
  obtain ⟨s, hrun, hs, hp⟩ := exists_reached_of _ hok yieldRun
    (fun s => s.stack.isEmpty ∧ s.cidContextMap 1 ≠ none ∧
      (s.cidContextMap 1).all fun c => switches s.log c = 0) (by decide)
  simp only [List.isEmpty_iff, Option.all_eq_true, decide_eq_true_eq] at hp
  obtain ⟨hstack, hm, hfresh⟩ := hp
  obtain ⟨hsw, hlaw⟩ := resume_lawful_iff_not_resumed hs
  exact ⟨s, hrun, hsw, hm, (hlaw callSite 1 (phpRuns_of_stack hstack)).mpr ⟨by decide, hfresh⟩⟩

def resumedRun : List Action := yieldRun ++ [.resume callSite 1, .finish]

theorem resume_after_finish : ∃ s,
    Transition.runFrom step (initial 0 0) resumedRun = .ok s ∧ Reached (fun _ _ => True) s ∧
    phpRuns s ∧ ¬ ResumeLawful s callSite 1 := by
  obtain ⟨s, hrun, hs, hp⟩ := exists_reached resumedRun
    (fun s => s.stack.isEmpty ∧ failsWith .useAfterFree (step s (.resume callSite 1))) (by decide)
  simp only [List.isEmpty_iff, decide_eq_true_eq, failsWith_iff] at hp
  refine ⟨s, hrun, hs, phpRuns_of_stack hp.1, fun hlaw => ?_⟩
  cases hlaw with
  | switches t c act s' _ hs' _ => simp [hp.2] at hs'
  | crashes t c _ _ hs' => simp [hp.2] at hs'
  | refuses _ hs' => simp [hp.2] at hs'

end Phpco
