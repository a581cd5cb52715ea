import Phpco.CallLaw
import Phpco.ResumeLaw

/-!
# The value of a suspended call

A coroutine that is switched back in finds the value of the call it was suspended
in.  `aio_invoke` passes the result of the registered PHP function, and
`coroutine::resume` passes `NULL`.
-/

namespace Phpco
open Except EventTable

/-- The call of an extension function whose context is saved in `c`; `used` says whether
the PHP code uses its result. -/
def SuspendedCall (s : State) (c : Ptr) (used : Bool) : Prop :=
  ∃ ctx current frames, s.contexts c = .saved ctx ∧ ctx.executeData = current :: frames ∧
    current.resultUsed = used

/-- What a used call evaluates to that registered `q`, if the PHP function returns `answer`. -/
def requestedValue (q : StoreArgs) (answer : Zval) : Zval :=
  match requestedCall q with
  | none => .null
  | some call => if call.function = .prepare then .coPdoStatement answer else answer

def received (used : Bool) (v : Zval) : Option Zval := if used then some v else none

theorem copyResult_some (used : Bool) (v : Zval) :
    copyResult used (some v) = .ok (received used v) := by
  cases used <;> rfl

/-- The PHP code that runs resumes `c`, and its call receives `v`. -/
def ResumesWith (s : State) (a : Action) (c : Ptr) (v : Option Zval) : Prop :=
  ∃ s' τ w act, step s a = .ok s' ∧ s'.log = .switched τ w c act v :: s.log

theorem invokeResult_of_requested {ev : AioEvent} {q : StoreArgs}
    (h : invokeCall ev = requestedCall q) (answer : Zval) :
    invokeResult ev answer = requestedValue q answer := by
  unfold invokeResult requestedValue
  cases hq : requestedCall q with
  | none => simp only [h, hq]
  | some call => simp only [h, hq]

/-- `aio_invoke` resumes the call that registered with the value of its own request. -/
theorem received_of_loopStep {s s' : State} {answer : Zval} {τ : Option Ptr} {fd : ℤ}
    {c act : Ptr} {result : Option Zval} (hp : Pending s) (h : step s (.loopStep answer) = .ok s')
    (hlog : s'.log = .switched τ (.io fd) c act result :: s.log) :
    ∃ q used, .registered q ∈ s.rg.log ∧ q.fd = fd ∧ q.context = c ∧ SuspendedCall s c used ∧
      result = received used (requestedValue q answer) := by
  obtain ⟨_, l, stack, phase, ev, hev, hc, hresume⟩ := resume_of_switched h hlog
  obtain ⟨q, hq, hfd, hqc, hcall⟩ := hp.held fd ev c hev hc
  obtain ⟨ctx, current, frames, result', hctx, hex, _, hres, hj⟩ := cCoroResume_cases hresume
  refine ⟨q, current.resultUsed, hq, hfd, hqc, ⟨ctx, current, frames, hctx, hex, rfl⟩, ?_⟩
  rw [copyResult_some, invokeResult_of_requested hcall] at hres
  have hlog' := (log_setjmp hj).1
  rw [hlog] at hlog'
  simp only [resumed, List.cons.injEq, Event.switched.injEq] at hlog'
  rw [hlog'.1.2.2.2.2]
  exact (Except.ok.inj hres).symm

/-- A call that the event loop resumes always receives the value of its own request.  One that
`coroutine::resume` resumes receives PHP null, or nothing, exactly if its result is not used. -/
theorem resumed_value_iff_unused {s : State} (h : Reached (fun _ _ => True) s) :
    (∀ answer s' τ fd c act result, step s (.loopStep answer) = .ok s' →
      s'.log = .switched τ (.io fd) c act result :: s.log →
      ∃ q used, .registered q ∈ s.rg.log ∧ q.fd = fd ∧ q.context = c ∧ SuspendedCall s c used ∧
        result = received used (requestedValue q answer)) ∧
    ∀ site arg c used, phpRuns s → inContextMap (toInt arg) →
      s.cidContextMap (toInt arg) = some c → SuspendedCall s c used →
      (ResumesWith s (.resume site arg) c (received used .null) ↔ used = false) := by
  refine ⟨fun _ _ _ _ _ _ _ hstep hlog => received_of_loopStep (pending_of_reached h) hstep hlog, ?_⟩
  rintro site arg c used hphp hin hm ⟨ctx, call, frames, hctx, hex, hused⟩
  obtain ⟨call', frames', hex', hne⟩ := (framed_of_reached h).saved c ctx hctx
  rw [hex] at hex'
  cases hex'
  constructor
  · rintro ⟨s', τ, w, act, hstep, _⟩
    rcases step_resume_saved hphp site hin hm hctx hex hne with ⟨hunused, _⟩ | ⟨_, hnull⟩
    · rw [← hused, hunused]
    · rw [hnull] at hstep
      cases hstep
  · rintro rfl
    rcases step_resume_saved hphp site hin hm hctx hex hne with ⟨_, s', hs', hlog⟩ | ⟨hu, _⟩
    · exact ⟨s', _, _, _, hs', hlog⟩
    · rw [hused] at hu
      cases hu

def yieldUsedRun (used : Bool) : List Action := [createCall 1, .yield ⟨5, used⟩]

def suspendedUnderOne (used : Bool) (s : State) : Bool :=
  s.stack.isEmpty && match s.cidContextMap 1 with
  | some c => match s.contexts c with
    | .saved ctx => match ctx.executeData with
      | current :: _ => current.resultUsed == used
      | [] => false
    | _ => false
  | none => false

theorem exists_suspendedCall {used : Bool} {s : State} (h : suspendedUnderOne used s = true) :
    phpRuns s ∧ ∃ c, s.cidContextMap (toInt 1) = some c ∧ SuspendedCall s c used := by
  obtain ⟨hstack, h⟩ := Bool.and_eq_true_iff.mp h
  refine ⟨phpRuns_of_stack (List.isEmpty_iff.mp hstack), ?_⟩
  split at h
  case h_1 c hm =>
    refine ⟨c, hm, ?_⟩
    split at h
    case h_1 ctx hctx =>
      split at h
      case h_1 current frames hex => exact ⟨ctx, current, frames, hctx, hex, by simpa using h⟩
      case h_2 => cases h
    case h_2 => cases h
  case h_2 => cases h

theorem exists_yieldUsed (used : Bool) : ∃ s c,
    Transition.runFrom step (initial 0 0) (yieldUsedRun used) = .ok s ∧
    Reached (fun _ _ => True) s ∧ phpRuns s ∧ s.cidContextMap (toInt 1) = some c ∧
    SuspendedCall s c used := by
  obtain ⟨s, hrun, hs, hp⟩ := exists_reached (yieldUsedRun used) (suspendedUnderOne used)
    (by cases used <;> decide)
  obtain ⟨hphp, c, hm, hc⟩ := exists_suspendedCall hp
  exact ⟨s, c, hrun, hs, hphp, hm, hc⟩

theorem resumed_value_iff_unused_statement : ∃ s c,
    Transition.runFrom step (initial 0 0) (yieldUsedRun false) = .ok s ∧
    ResumesWith s (.resume callSite 1) c none := by
  obtain ⟨s, c, hrun, hs, hphp, hm, hc⟩ := exists_yieldUsed false
  have hin : inContextMap (toInt 1) := by decide
  exact ⟨s, c, hrun,
    ((resumed_value_iff_unused hs).2 callSite 1 c false hphp hin hm hc).mpr rfl⟩

/-- The value of a `coroutine::yield` that PHP code uses would be copied from `NULL`. -/
theorem yielded_value_absent : ∃ s c,
    Transition.runFrom step (initial 0 0) (yieldUsedRun true) = .ok s ∧
    Reached (fun _ _ => True) s ∧ SuspendedCall s c true ∧
    step s (.resume callSite 1) = .error .nullDeref ∧
    ¬ ResumesWith s (.resume callSite 1) c (some .null) := by
  obtain ⟨s, c, hrun, hs, hphp, hm, hc⟩ := exists_yieldUsed true
  obtain ⟨ctx, call, frames, hctx, hex, hused⟩ := hc
  obtain ⟨call', frames', hex', hne⟩ := (framed_of_reached hs).saved c ctx hctx
  rw [hex] at hex'
  cases hex'
  have hin : inContextMap (toInt 1) := by decide
  rcases step_resume_saved hphp callSite hin hm hctx hex hne with
    ⟨hunused, _⟩ | ⟨_, hnull⟩
  · rw [hused] at hunused
    cases hunused
  · refine ⟨s, c, hrun, hs, ⟨ctx, call, frames, hctx, hex, hused⟩, hnull, ?_⟩
    rintro ⟨s', τ, w, act, hstep, _⟩
    rw [hnull] at hstep
    cases hstep

end Phpco
