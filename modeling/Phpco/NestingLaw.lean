import Phpco.Pages
import Phpco.ResumeLaw

/-!
# Nested switches

Coroutines may create and resume each other to any depth.  Each `coro_yield`
jumps to the activation that switched to the coroutine last, and each
`coroutine_create` and `coroutine::resume` gives its caller back the registers
with which it was called.
-/

namespace Phpco
open Except Transition

/-- Besides, every `coroutine::resume` names a coroutine suspended in `coroutine::yield`. -/
def WellNested (s : State) (a : Action) : Prop :=
  AtHome s a ∧ ∀ site arg, a = .resume site arg → ∃ t c, YieldedUnder s (toInt arg) t c

/-- What a switch changes: the vm stack and `current_execute_data`, the coroutine and
its return value, `checkPoint` and `require`. -/
structure Registers where
  eg : ExecutorGlobals
  currentCoro : Option Ptr
  allocatedReturnValuePtr : Option Ptr
  checkPoint : Option Ptr
  require : Bool
  deriving DecidableEq

def registers (s : State) : Registers where
  eg := s.eg
  currentCoro := s.corog.currentCoro
  allocatedReturnValuePtr := s.corog.allocatedReturnValuePtr
  checkPoint := s.checkPoint
  require := s.corog.require

def Switch.registers : Switch → Option Registers
  | .create frame prevCheckpoint ctx required _ =>
    some ⟨⟨freeCallFrame ctx.vm frame.call, frame.caller⟩, ctx.task, ctx.allocatedReturnValuePtr,
      prevCheckpoint, required⟩
  | .resume frame prevCheckpoint _ ctx required =>
    some ⟨⟨freeCallFrame ctx.vm frame.call, frame.caller⟩, ctx.task, ctx.allocatedReturnValuePtr,
      prevCheckpoint, required⟩
  | .invoke _ _ _ => none

theorem registers_returnFrom {s s' : State} {switch : Switch} {r : Registers} {ret : ℤ}
    (hret : 0 ≤ ret) (hr : switch.registers = some r) (h : returnFrom s switch ret = .ok s') :
    registers s' = r := by
  cases switch with
  | create frame prevCheckpoint ctx required callback =>
    obtain ⟨buf, tasks, _, _, rfl⟩ := coroutineCreateTail_cases hret h
    exact Option.some.inj hr
  | resume frame prevCheckpoint context ctx required =>
    obtain ⟨buf, _, rfl⟩ := coroutineResumeTail_cases h
    exact Option.some.inj hr
  | invoke fd event context => cases hr

def Returned (s' : State) (x : Activation) (rest : List CFrame) : Prop :=
  s'.stack = rest ∧ ∀ r, x.switch.registers = some r → registers s' = r

/-- A step leaves the C stack as it is, or it pushes or pops one frame. -/
inductive StackStep (s s' : State) : Prop
  | same : s'.stack = s.stack → StackStep s s'
  | push (x : Activation) : s'.stack = .activation x :: s.stack → StackStep s s'
  | pop (x : Activation) (rest : List CFrame) : s.stack = .activation x :: rest →
      Returned s' x rest → StackStep s s'
  | loop : activations s.stack = [] → StackStep s s'

theorem returned_coroYield {s s' : State} {x : Activation} {rest : List CFrame}
    (hs : s.stack = .activation x :: rest)
    (hl : Links (activations s.stack) s.checkPoint s.jmpBufs s.corog.currentCoro)
    (hy : coroYield s = .ok s') : Returned s' x rest := by
  obtain ⟨x', rest', hj, hret⟩ := coroYield_eq_ok.mp hy
  obtain ⟨hs', _⟩ := jump_top hl (phpRuns_of_activation hs) hj
  cases hs.symm.trans hs'
  have hstack := (returnFrom_cases (by decide) hret).1
  exact ⟨hstack, fun r hr => registers_returnFrom (by decide) hr hret⟩

theorem stack_coroutineCreate {s s' : State} {site : CallSite} {slots : ℕ} {callback : Zval}
    (hc : coroutineCreate (enterCall s site) (callFrame s site) slots callback = .ok s') :
    s'.stack = s.stack ∨ ∃ x, s'.stack = .activation x :: s.stack := by
  obtain ⟨_, hstack, _⟩ := ensureInit_kept (enterCall s site)
  obtain ⟨cid, cids, _, ⟨_, _, ht⟩ | ⟨_, hj⟩⟩ := coroutineCreate_cases hc
  · obtain ⟨buf, tasks, _, _, rfl⟩ := coroutineCreateTail_cases (by decide) ht
    exact .inl hstack
  · obtain ⟨buf, _, _, rfl⟩ := setjmp_eq_ok.mp hj
    exact .inr ⟨_, congrArg (List.cons _) hstack⟩

theorem stack_step {s s' : State} {a : Action} (hr : TableWf s.rg) (hs : Sched s) (h : Hosted s)
    (hok : AtHome s a) (hstep : step s a = .ok s') : StackStep s s' := by
  have hloops := h.loops
  cases step_move hr hstep with
  | quiet _ hstack _ => exact .same hstack
  | enterLoop site ha _ _ _ => exact .loop (hok.1 site ha)
  | loop l l' stack _ hstack _ _ _ =>
    rw [hstack] at hloops
    exact .loop (by rw [hstack]; exact hloops.1)
  | leaveLoop l stack _ hstack _ _ =>
    rw [hstack] at hloops
    exact .loop (by rw [hstack]; exact hloops.1)
  | invoke l l' stack fd ev c v hstack _ _ _ _ _ =>
    rw [hstack] at hloops
    exact .loop (by rw [hstack]; exact hloops.1)
  | create site slots callback _ _ hc =>
    rcases stack_coroutineCreate hc with hstack | ⟨x, hstack⟩
    · exact .same hstack
    · exact .push x hstack
  | resume site arg c _ _ _ _ hres =>
    obtain ⟨_, _, _, _, _, _, _, _, hj⟩ := cCoroResume_cases hres
    obtain ⟨buf, _, _, rfl⟩ := setjmp_eq_ok.mp hj
    exact .push _ rfl
  | yield site s₁ ha hphp hy hc =>
    subst ha
    obtain ⟨x, rest, hstack⟩ := activation_of_ne_nil hphp (hok.2 s₁ (phpStep_yield hy))
    obtain ⟨t, task, _, _, _, hs₁⟩ := coroutineYield_cases hy
    refine .pop x rest hstack (returned_coroYield (s := s₁) ?_ ?_ hc)
    · rw [hs₁]
      exact hstack
    · rw [hs₁]
      exact hs.links
  | block fd c s₁ _ hphp ho hbl hc =>
    obtain ⟨x, rest, hstack⟩ := activation_of_ne_nil hphp (hok.2 s₁ ho)
    refine .pop x rest hstack (returned_coroYield (hbl.stack.trans hstack) ?_ hc)
    rw [hbl.stack, hbl.checkPoint, hbl.jmpBufs, hbl.corog]
    exact hs.links
  | finish x rest base s₁ _ hstack _ hc hret =>
    obtain ⟨t, task, retval, _, _, _, hs₁⟩ := coroClose_eq_ok.mp hc
    have hrest := (returnFrom_cases (by decide) hret).1
    refine .pop x rest hstack ⟨hrest.trans (by rw [hs₁]), fun r hr => ?_⟩
    exact registers_returnFrom (by decide) hr hret

/-- The activation `x` with its caller's part of the C stack is still there. -/
def Inside (x : Activation) (rest : List CFrame) (s : State) : Prop :=
  ∃ frames, s.stack = frames ++ .activation x :: rest

theorem activations_ne_nil_of_inside {x : Activation} {rest : List CFrame} {s : State}
    (h : Inside x rest s) : activations s.stack ≠ [] := by
  obtain ⟨frames, hs⟩ := h
  rw [hs, activations, List.filterMap_append]
  simp [CFrame.activation?]

/-- From inside a switch a step stays inside, or it gives the caller its registers back. -/
theorem inside_step {x : Activation} {rest : List CFrame} {s s' : State} {a : Action}
    (hr : TableWf s.rg) (hs : Sched s) (h : Hosted s) (hok : AtHome s a)
    (hin : Inside x rest s) (hstep : step s a = .ok s') : Inside x rest s' ∨ Returned s' x rest := by
  have hne := activations_ne_nil_of_inside hin
  obtain ⟨frames, hstack⟩ := hin
  cases stack_step hr hs h hok hstep with
  | same heq => exact .inl ⟨frames, heq.trans hstack⟩
  | push y hpush => exact .inl ⟨.activation y :: frames, by rw [hpush, hstack]; rfl⟩
  | pop y rest' hy hret =>
    rw [hy] at hstack
    cases frames with
    | nil =>
      cases hstack
      exact .inr hret
    | cons f frames =>
      cases hstack
      exact .inl ⟨frames, hret.1⟩
  | loop hnil => exact absurd hnil hne

def depth (s : State) : ℕ := s.stack.length

theorem depth_lt_of_inside {x : Activation} {rest : List CFrame} {s : State}
    (h : Inside x rest s) : rest.length < depth s := by
  obtain ⟨frames, hs⟩ := h
  rw [depth, hs, List.length_append, List.length_cons]
  omega

def isSwitch (s : State) : Action → Prop
  | .create _ _ _ => s.checkPoint ≠ none
  | .resume _ _ => True
  | _ => False

/-- Such a call returns at once, or an activation holds the registers of its caller. -/
theorem switch_step {s s₁ : State} {a : Action} (hs : Sched s) (ha : isSwitch s a)
    (hok : WellNested s a) (h : step s a = .ok s₁) :
    (s₁.stack = s.stack ∧ registers s₁ = registers s) ∨
      ∃ x, s₁.stack = .activation x :: s.stack ∧ x.switch.registers = some (registers s) := by
  cases a with
  | create site slots callback =>
    obtain ⟨_, hc⟩ := step_create h
    have hi : ensureInit (enterCall s site) = enterCall s site := ensureInit_of_checkPoint ha
    obtain ⟨cid, cids, _, hcase⟩ := coroutineCreate_cases hc
    rw [hi] at hcase
    obtain ⟨_, _, ht⟩ | ⟨_, hj⟩ := hcase
    · left
      obtain ⟨buf, tasks, _, _, rfl⟩ := coroutineCreateTail_cases (by decide) ht
      refine ⟨rfl, ?_⟩
      simp only [registers, backInCaller, coroSave, newCheckPoint]
      rw [caller_callFrame]
      rfl
    · right
      obtain ⟨buf, _, _, rfl⟩ := setjmp_eq_ok.mp hj
      refine ⟨_, rfl, ?_⟩
      simp only [registers, Switch.registers, coroSave]
      rw [caller_callFrame]
      rfl
  | resume site arg =>
    right
    obtain ⟨t, c, hy⟩ := hok.2 site arg rfl
    have hphp := phpRuns_of_step rfl h
    have hin : inContextMap (toInt arg) := by
      by_contra hin
      simp [step_resume hphp, coroutineResume, check, hin, bind, Except.bind] at h
    rw [step_resume_some hphp hin (hs.map_of_yieldedUnder hy)] at h
    obtain ⟨_, _, _, _, _, _, _, _, hj⟩ := cCoroResume_cases h
    obtain ⟨buf, _, _, rfl⟩ := setjmp_eq_ok.mp hj
    refine ⟨_, rfl, ?_⟩
    simp only [registers, Switch.registers, coroSave]
    rw [caller_callFrame]
    rfl
  | _ => cases ha

/-- A call that goes on to `coro_yield` has not touched what the jump depends on. -/
theorem jump_of_yields {s s₁ : State} {a : Action} (h : phpStep s a = .ok (.yields s₁)) :
    s₁.stack = s.stack ∧ s₁.checkPoint = s.checkPoint ∧ s₁.jmpBufs = s.jmpBufs := by
  cases ha : isIo a with
  | true =>
    cases ioStep ha h with
    | refused site v ho => cases ho
    | asked site r q addOk _ _ _ hst =>
      obtain ⟨rg, ret, _, ⟨_, ho⟩ | ⟨_, ho⟩⟩ := storeAndYield_cases hst
      · cases ho
      · cases ho
        exact ⟨rfl, rfl, rfl⟩
  | false =>
    cases phpStep_cases ha h with
    | yield site s₁ hy =>
      obtain ⟨t, task, _, _, _, rfl⟩ := coroutineYield_cases hy
      exact ⟨rfl, rfl, rfl⟩

/-- The activation that switched to the current coroutine last is the innermost one, and
`coro_yield` jumps to its `setjmp`. -/
theorem jumps_to_last_switch {s s₁ : State} {a : Action} (hs : Sched s) (h : Hosted s)
    (hok : AtHome s a) (hphp : phpRuns s) (hy : phpStep s a = .ok (.yields s₁)) :
    ∃ x rest t, s.stack = .activation x :: rest ∧ s.corog.currentCoro = some t ∧
      status s.log t = .running x.id ∧ jumpTarget s₁ = .ok (x, rest) := by
  obtain ⟨x, rest, hstack⟩ := activation_of_ne_nil hphp (hok.2 s₁ hy)
  have hx : x ∈ activations s.stack := by
    rw [hstack]
    exact List.mem_cons_self
  obtain ⟨t, htask, hrun⟩ := hs.core.running x hx
  obtain ⟨hstack₁, hcp, hjb⟩ := jump_of_yields hy
  have hbufs := hs.links.bufs
  rw [hstack] at hbufs
  refine ⟨x, rest, t, hstack, (h.current hstack hs.links).trans htask, hrun, ?_⟩
  refine jumpTarget_eq_ok.mpr ⟨x.buf, x.id, hcp.trans hbufs.1, ?_, ?_⟩
  · rw [hjb]
    exact h.armed x hx
  · rw [hstack₁, hstack]
    exact if_pos rfl

theorem registers_of_excursion {s s₁ s' : State} {a : Action} (h : Reached WellNested s)
    (hok : WellNested s a) (ha : isSwitch s a) (hstep : step s a = .ok s₁)
    (he : Excursion step WellNested depth (depth s) s₁ s') : registers s' = registers s := by
  have hreach := h.next hok hstep
  have hs := (hosted_of_reached (fun _ _ => And.left) h).1
  rcases switch_step hs ha hok hstep with ⟨hstack, hregs⟩ | ⟨x, hstack, hx⟩
  · -- the call has returned already
    cases he with
    | done _ => exact hregs
    | next hlt _ _ _ =>
      rw [depth, depth, hstack] at hlt
      exact absurd hlt (lt_irrefl _)
  · apply he.exit (I := fun t => Reached WellNested t ∧ Inside x s.stack t)
    · rintro t b t' ⟨ht, hin⟩ _ hb htt
      obtain ⟨hst, hht⟩ := hosted_of_reached (fun _ _ => And.left) ht
      rcases inside_step (tableWf_of_reached ht) hst hht hb.1 hin htt with hin' | ⟨hrest, hr⟩
      · exact .inl ⟨depth_lt_of_inside hin', ht.next hb htt, hin'⟩
      · exact .inr ⟨congrArg List.length hrest, hr _ hx⟩
    · exact fun _ => ⟨hreach, [], hstack⟩
    · intro hd
      rw [depth, depth, hstack, List.length_cons] at hd
      omega

/-- In every run that is well nested, each `coro_yield` jumps to the activation that
switched to the coroutine last, and each `coroutine_create` and `coroutine::resume`
returns with the registers it was called with, whatever ran in between. -/
theorem switches_nest :
    (∀ s a s₁, Reached WellNested s → WellNested s a → phpRuns s →
      phpStep s a = .ok (.yields s₁) →
        ∃ x rest t, s.stack = .activation x :: rest ∧ s.corog.currentCoro = some t ∧
          status s.log t = .running x.id ∧ jumpTarget s₁ = .ok (x, rest)) ∧
    ∀ s a s₁ s', Reached WellNested s → WellNested s a → isSwitch s a → step s a = .ok s₁ →
      Excursion step WellNested depth (depth s) s₁ s' → registers s' = registers s := by
  constructor
  · intro s a s₁ h hok hphp hy
    obtain ⟨hs, hh⟩ := hosted_of_reached (fun _ _ => And.left) h
    exact jumps_to_last_switch hs hh hok.1 hphp hy
  · intro s a s₁ s' h hok ha hstep he
    exact registers_of_excursion h hok ha hstep he

def isYieldOf (cid : ℤ) : Status → Bool
  | .suspended (.yield cid') _ => cid' = cid
  | _ => false

def testWellNested (s : State) (a : Action) : Bool :=
  (!yields (phpStep s a) || !(activations s.stack).isEmpty) && match a with
    | .eventLoop _ => false
    | .resume _ arg => (liveTasks s.log).any fun t =>
      cidOf s.log t = some (toInt arg) ∧ isYieldOf (toInt arg) (status s.log t)
    | _ => true

theorem wellNested_of_test {s : State} {a : Action} (h : testWellNested s a = true) :
    WellNested s a := by
  obtain ⟨hy, hm⟩ := Bool.and_eq_true_iff.mp h
  refine ⟨⟨?_, fun s₁ hs₁ hnil => ?_⟩, ?_⟩
  · rintro site rfl
    cases hm
  · simp [hs₁, yields, hnil] at hy
  · rintro site arg rfl
    simp only [List.any_eq_true, decide_eq_true_eq] at hm
    obtain ⟨t, _, howner, hst⟩ := hm
    cases hcase : status s.log t with
    | suspended w c =>
      rw [hcase] at hst
      cases w with
      | io fd => cases hst
      | yield cid =>
        obtain rfl : cid = toInt arg := of_decide_eq_true hst
        exact ⟨t, c, howner, hcase⟩
    | _ => simp [hcase, isYieldOf] at hst

def nestedRun : List Action := [createCall 1, createCall 2, yieldCall]

def resumeCall (cid : ℤ) : Action := .resume callSite cid

theorem switches_nest_resumed : ∃ s s₁ s', runFrom step (initial 0 0) nestedRun = .ok s ∧
    step s (resumeCall 2) = .ok s₁ ∧ step s₁ .finish = .ok s' ∧ registers s' = registers s ∧
    ∃ s₂ x rest t, phpStep s₁ yieldCall = .ok (.yields s₂) ∧ s₁.corog.currentCoro = some t ∧
      status s₁.log t = .running x.id ∧ jumpTarget s₂ = .ok (x, rest) := by
  have hok : ∀ s a, testWellNested s a = true → WellNested s a := fun _ _ => wellNested_of_test
  obtain ⟨s, hrun, hs, hp⟩ := exists_reached_of _ hok nestedRun
    (fun s => testWellNested s (resumeCall 2) ∧ isOkAnd (fun s₁ =>
      testWellNested s₁ .finish ∧ testWellNested s₁ yieldCall ∧ yields (phpStep s₁ yieldCall) ∧
        depth s₁ = depth s + 1 ∧ isOkAnd (fun s' => depth s' = depth s) (step s₁ .finish))
      (step s (resumeCall 2))) (by decide)
  simp only [decide_eq_true_eq] at hp
  obtain ⟨htest, hstep⟩ := hp
  obtain ⟨s₁, hs₁, hp₁⟩ := exists_of_isOkAnd hstep
  simp only [decide_eq_true_eq] at hp₁
  obtain ⟨hfin, hyield, hy, hdepth, hstep'⟩ := hp₁
  obtain ⟨s', hs', hdepth'⟩ := exists_of_isOkAnd hstep'
  obtain ⟨hjump, hregs⟩ := switches_nest
  have hreach := hs.next (hok s _ htest) hs₁
  have hexc : Excursion step WellNested depth (depth s) s₁ s' :=
    .next (by omega) (hok s₁ _ hfin) hs' (.done (of_decide_eq_true hdepth'))
  obtain ⟨s₂, hs₂⟩ := exists_of_yields hy
  obtain ⟨x, rest, t, _, hcur, hst, hj⟩ :=
    hjump s₁ yieldCall s₂ hreach (hok s₁ _ hyield) (phpRuns_of_step rfl hs') hs₂
  exact ⟨s, s₁, s', hrun, hs₁, hs', hregs s _ s₁ s' hs (hok s _ htest) trivial hs₁ hexc, s₂, x,
    rest, t, hs₂, hcur, hst, hj⟩

end Phpco
