import Phpco.Moves

namespace Phpco
open Except

/-- What the caller of an activation needs to go on, above the rest of the C stack. -/
def Switch.Framed (stack : List CFrame) : Switch → Prop
  | .create frame _ _ _ _ => frame.caller ≠ []
  | .resume frame _ _ _ _ => frame.caller ≠ []
  | .invoke _ _ _ => ∃ l rest, stack = .eventLoop l :: rest

def FramedStack : List CFrame → Prop
  | [] => True
  | .eventLoop l :: stack => l.frame.caller ≠ [] ∧ FramedStack stack
  | .activation x :: stack => x.switch.Framed stack ∧ FramedStack stack

def PhpContext.Framed (ctx : PhpContext) : Prop :=
  ∃ call frames, ctx.executeData = call :: frames ∧ frames ≠ []

structure Framed (s : State) : Prop where
  running : phpRuns s → s.eg.currentExecuteData ≠ []
  saved : ∀ c ctx, s.contexts c = .saved ctx → ctx.Framed
  stack : FramedStack s.stack

theorem FramedStack.unwind {act : Ptr} {stack rest : List CFrame} {x : Activation}
    (h : FramedStack stack) (hu : unwind act stack = some (x, rest)) :
    FramedStack (.activation x :: rest) := by
  induction stack with
  | nil => simp [Phpco.unwind] at hu
  | cons f stack ih =>
    cases f with
    | eventLoop l => exact ih h.2 hu
    | activation y =>
      by_cases hy : y.id = act
      · simp only [Phpco.unwind, if_pos hy, Option.some.injEq, Prod.mk.injEq] at hu
        obtain ⟨rfl, rfl⟩ := hu
        exact h
      · simp only [Phpco.unwind, if_neg hy] at hu
        exact ih h.2 hu

theorem framed_setjmp {s s' : State} {switch : Switch} (hj : setjmp s switch = .ok s')
    (hrun : s.eg.currentExecuteData ≠ []) (hsaved : ∀ c ctx, s.contexts c = .saved ctx → ctx.Framed)
    (hswitch : switch.Framed s.stack) (hstack : FramedStack s.stack) : Framed s' := by
  obtain ⟨buf, _, _, rfl⟩ := setjmp_eq_ok.mp hj
  exact ⟨fun _ => hrun, hsaved, hswitch, hstack⟩

theorem framed_cCoroResume {s s' : State} {c : Ptr} {retval : Option Zval} {w : Wait}
    {switch : Switch} (hr : cCoroResume s c retval w switch = .ok s')
    (hsaved : ∀ c ctx, s.contexts c = .saved ctx → ctx.Framed)
    (hswitch : switch.Framed s.stack) (hstack : FramedStack s.stack) : Framed s' := by
  obtain ⟨ctx, current, frames, result, _, _, hne, _, hj⟩ := cCoroResume_cases hr
  refine framed_setjmp hj hne (fun c' ctx' hc' => ?_) hswitch hstack
  simp only [resumed, Function.update_apply] at hc'
  split_ifs at hc'
  exact hsaved c' ctx' hc'

theorem framed_returnFrom {s s' : State} {switch : Switch} {ret : ℤ} (hret : 0 ≤ ret)
    (h : returnFrom s switch ret = .ok s')
    (hsaved : ∀ c ctx, s.contexts c = .saved ctx → ctx.Framed)
    (hswitch : switch.Framed s.stack) (hstack : FramedStack s.stack) : Framed s' := by
  have hfree : ∀ c c' ctx, Function.update s.contexts c .free c' = .saved ctx → ctx.Framed := by
    intro c c' ctx hc'
    simp only [Function.update_apply] at hc'
    split_ifs at hc'
    exact hsaved c' ctx hc'
  cases switch with
  | create frame prevCheckpoint ctx required callback =>
    obtain ⟨buf, tasks, _, _, rfl⟩ := coroutineCreateTail_cases hret h
    exact ⟨fun _ => hswitch, hsaved, hstack⟩
  | resume frame prevCheckpoint context ctx required =>
    obtain ⟨buf, _, rfl⟩ := coroutineResumeTail_cases h
    exact ⟨fun _ => hswitch, hfree context, hstack⟩
  | invoke fd event context =>
    obtain ⟨_, rfl⟩ := aioInvokeTail_cases h
    obtain ⟨l, rest, hs⟩ := hswitch
    exact ⟨fun hphp => absurd hs (hphp l rest), hfree context, hstack⟩

theorem framed_coroYield {s s' : State} (h : coroYield s = .ok s')
    (hsaved : ∀ c ctx, s.contexts c = .saved ctx → ctx.Framed) (hstack : FramedStack s.stack) :
    Framed s' := by
  obtain ⟨x, rest, hj, hret⟩ := coroYield_eq_ok.mp h
  obtain ⟨buf, act, _, _, hu⟩ := jumpTarget_eq_ok.mp hj
  obtain ⟨hswitch, hrest⟩ := hstack.unwind hu
  exact framed_returnFrom (by decide) hret hsaved hswitch hrest

theorem framed_create {s s' : State} {site : CallSite} {slots : ℕ} {callback : Zval}
    (h : Framed s) (hphp : phpRuns s)
    (hc : coroutineCreate (enterCall s site) (callFrame s site) slots callback = .ok s') :
    Framed s' := by
  have hcaller : (callFrame s site).caller ≠ [] := h.running hphp
  have hsaved : ∀ c ctx, (ensureInit (enterCall s site)).contexts c = .saved ctx → ctx.Framed := by
    rw [ensureInit_contexts]
    exact h.saved
  have hstack : FramedStack (ensureInit (enterCall s site)).stack := by
    rw [ensureInit_stack]
    exact h.stack
  obtain ⟨cid, cids, _, ⟨_, _, ht⟩ | ⟨_, hj⟩⟩ := coroutineCreate_cases hc
  · obtain ⟨buf, tasks, _, _, rfl⟩ := coroutineCreateTail_cases (by decide) ht
    exact ⟨fun _ => hcaller, hsaved, hstack⟩
  · exact framed_setjmp hj (by simp [startTask]) hsaved hcaller hstack

theorem framed_coroSave {s s₁ : State} {site : CallSite} (h : s.eg.currentExecuteData ≠ [])
    (heg : s₁.eg = (enterCall s site).eg) : (coroSave s₁).Framed :=
  ⟨(callFrame s site).call, s.eg.currentExecuteData, by rw [coroSave, heg, enterCall], h⟩

theorem framed_step {s s' : State} {a : Action} (hr : TableWf s.rg) (h : Framed s)
    (hstep : step s a = .ok s') : Framed s' := by
  -- a step saves one context at most
  have hupdate : ∀ {c₀ : Ptr} {ctx₀ : PhpContext}, ctx₀.Framed →
      ∀ c ctx, Function.update s.contexts c₀ (.saved ctx₀) c = .saved ctx → ctx.Framed := by
    intro c₀ ctx₀ h₀ c ctx hc
    by_cases hcc : c = c₀
    · simp only [hcc, Function.update_self, ContextCell.saved.injEq] at hc
      exact hc ▸ h₀
    · exact h.saved c ctx (by simpa [hcc] using hc)
  cases step_move hr hstep with
  | quiet hq hs hk =>
    refine ⟨fun hphp => (hk (h.running ?_)).1, by rw [hq.contexts]; exact h.saved,
      by rw [hs]; exact h.stack⟩
    unfold phpRuns at hphp ⊢
    rwa [hs] at hphp
  | enterLoop site ha hphp hq hs =>
    refine ⟨fun hphp' => absurd hs (hphp' _ _), by rw [hq.contexts]; exact h.saved, ?_⟩
    rw [hs]
    exact ⟨h.running hphp, h.stack⟩
  | loop l l' stack hq hs hs' hf _ =>
    have hst := h.stack
    rw [hs] at hst
    refine ⟨fun hphp' => absurd hs' (hphp' _ _), by rw [hq.contexts]; exact h.saved, ?_⟩
    rw [hs']
    exact ⟨by rw [hf.1]; exact hst.1, hst.2⟩
  | leaveLoop l stack hq hs hs' heg =>
    -- the frames of the caller of `event_loop` are in its C frame
    have hst := h.stack
    rw [hs] at hst
    refine ⟨fun _ => by rw [heg]; exact hst.1, by rw [hq.contexts]; exact h.saved, ?_⟩
    rw [hs']
    exact hst.2
  | invoke l l' stack fd ev c v hs hf _ _ _ hres =>
    have hst := h.stack
    rw [hs] at hst
    exact framed_cCoroResume hres h.saved ⟨l', stack, rfl⟩ ⟨by rw [hf.1]; exact hst.1, hst.2⟩
  | create site slots callback ha hphp hc => exact framed_create h hphp hc
  | resume site arg c ha hphp _ _ hres =>
    exact framed_cCoroResume hres h.saved (h.running hphp) h.stack
  | yield site s₁ ha hphp hy hc =>
    obtain ⟨t, task, _, _, _, hs₁⟩ := coroutineYield_cases hy
    refine framed_coroYield hc ?_ (by rw [hs₁]; exact h.stack)
    rw [hs₁]
    exact hupdate (framed_coroSave (h.running hphp) rfl)
  | block fd c s₁ ha hphp _ hb hc =>
    obtain ⟨site, heg⟩ := hb.eg
    refine framed_coroYield hc ?_ (by rw [hb.stack]; exact h.stack)
    rw [hb.contexts]
    exact hupdate (framed_coroSave (h.running hphp) heg)
  | finish x stack base s₁ ha hs _ hc hret =>
    have hst := h.stack
    rw [hs] at hst
    obtain ⟨t, task, retval, _, _, _, rfl⟩ := coroClose_eq_ok.mp hc
    exact framed_returnFrom (by decide) hret h.saved hst.1 hst.2

theorem framed_of_reached {ok : State → Action → Prop} {s : State} (h : Reached ok s) :
    Framed s := by
  refine h.invariant_of (fun s hs => ?_) fun s a s' hreach hf _ hstep =>
    framed_step (tableWf_of_reached hreach) hf hstep
  obtain ⟨_, _, _, _, rfl⟩ := hs
  exact ⟨fun _ => by simp [initial], fun c ctx hc => by simp [initial] at hc, trivial⟩

end Phpco
