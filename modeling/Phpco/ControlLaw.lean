import Phpco.Cooperation

/-!
# Out of control

A coroutine loses control when it suspends itself, or when it creates or resumes another
one.  Its registers are then kept in its context, or by the activation in which the other
one runs; whatever happens in between, these are the registers with which it gets back
control.
-/

namespace Phpco
open Except Transition

variable {s s' s₁ : State} {a : Action} {t : Ptr} {regs : PhpContext}

/-- The PHP code of the coroutine `t` runs. -/
def InControl (t : Ptr) (s : State) : Prop :=
  ∃ x rest, s.stack = .activation x :: rest ∧ x.task = some t

instance (t : Ptr) (s : State) : Decidable (InControl t s) :=
  match h : s.stack with
  | .activation x :: _ => decidable_of_iff (x.task = some t) (by simp [InControl, h])
  | .eventLoop _ :: _ => .isFalse (by simp [InControl, h])
  | [] => .isFalse (by simp [InControl, h])

/-- The registers once the call is popped that a context was saved in. -/
def PhpContext.popped (ctx : PhpContext) : Option PhpContext :=
  match ctx.executeData with
  | call :: frames => some { ctx with executeData := frames, vm := freeCallFrame ctx.vm call }
  | [] => none

def Registers.saved (r : Registers) : PhpContext where
  executeData := r.eg.currentExecuteData
  vm := r.eg.vm
  task := r.currentCoro
  allocatedReturnValuePtr := r.allocatedReturnValuePtr

/-- Where the registers `regs` of the coroutine `t` are while it is not in control. -/
inductive KeptFor (t : Ptr) (regs : PhpContext) (s : State) : Prop
  | context (c : Ptr) (ctx : PhpContext) : s.contexts c = .saved ctx → ctx.task = some t →
      ctx.popped = some regs → KeptFor t regs s
  | caller (y x : Activation) (rest : List CFrame) (r : Registers) :
      Inside y (.activation x :: rest) s → x.task = some t → y.switch.registers = some r →
      r.saved = regs → KeptFor t regs s
  | closed : status s.log t = .closed → KeptFor t regs s

@[simp] theorem popped_enterCall (s : State) (site : CallSite) :
    (coroSave (enterCall s site)).popped = some (coroSave s) := by
  simp [PhpContext.popped, coroSave, enterCall, callFrame]

theorem saved_callFrame (s : State) (site : CallSite) (checkPoint : Option Ptr) (require : Bool) :
    Registers.saved ⟨⟨freeCallFrame (coroSave (enterCall s site)).vm (callFrame s site).call,
      (callFrame s site).caller⟩, (coroSave (enterCall s site)).task,
      (coroSave (enterCall s site)).allocatedReturnValuePtr, checkPoint, require⟩ = coroSave s := by
  simp only [Registers.saved, coroSave, enterCall, callFrame, freeCallFrame_pushCallFrame]

theorem saved_registers (s : State) : (registers s).saved = coroSave s := rfl

theorem InControl.running (h : InControl t s) (hs : Sched s) :
    ∃ x rest, s.stack = .activation x :: rest ∧ status s.log t = .running x.id := by
  obtain ⟨x, rest, hstack, htask⟩ := h
  have hcore := hs.core
  rw [hstack] at hcore
  exact ⟨x, rest, hstack, hcore.status_head htask⟩

theorem mem_activations_of_inside {x y z : Activation} {rest rest' : List CFrame}
    (h : Inside y (.activation x :: rest) s) (hs : s.stack = .activation z :: rest') :
    x ∈ activations rest' := by
  obtain ⟨frames, hframes⟩ := h
  rw [hs] at hframes
  cases frames with
  | nil =>
    cases hframes
    exact List.mem_cons_self
  | cons f frames =>
    cases hframes
    simp [activations, CFrame.activation?]

/-- A coroutine in control is nowhere else. -/
theorem KeptFor.not_inControl (h : KeptFor t regs s) (hs : Sched s) : ¬ InControl t s := by
  intro hin
  obtain ⟨z, rest', hstack, hrun⟩ := hin.running hs
  cases h with
  | context c ctx hc htask _ =>
    have hsaved : s.scheduler.saved c = some (some t) := saver_eq_some.mpr ⟨ctx, hc, htask⟩
    obtain ⟨t', w, ht, hst⟩ := hs.core.saved c _ hsaved
    cases ht
    cases hrun.symm.trans hst
  | caller y x rest r hinside htask _ _ =>
    have hx := mem_activations_of_inside hinside hstack
    have hcore := hs.core
    rw [hstack] at hcore
    -- both activations would be the one in which `t` runs
    obtain ⟨t', ht', hrun'⟩ := hcore.running x (List.mem_cons_of_mem _ hx)
    cases htask.symm.trans ht'
    have hlt : x.id < z.id := (List.pairwise_cons.mp hcore.descending).1 x hx
    exact absurd (Status.running.inj (hrun.symm.trans hrun')) hlt.ne'
  | closed hclosed => cases hrun.symm.trans hclosed

/-- A call has saved its caller in the new context `c`, and calls `coro_yield`. -/
structure Saves (s : State) (c : Ptr) (s₁ : State) : Prop where
  context : ∃ site, s₁.contexts = Function.update s.contexts c (.saved (coroSave (enterCall s site)))
  suspends : ∃ w, Suspends s w c s₁

theorem saves_yield {site : CallSite} (hy : coroutineYield (enterCall s site) = .ok s₁) :
    Saves s (enterCall s site).next s₁ := by
  obtain ⟨_, _, _, _, _, hsus, _⟩ := suspends_yield hy
  obtain ⟨_, _, _, _, _, hs₁⟩ := coroutineYield_cases hy
  exact ⟨⟨site, by rw [hs₁]; rfl⟩, _, hsus⟩

theorem saves_block {fd : ℤ} {c : Ptr} (hr : TableWf s.rg) (ha : isIo a = true)
    (hy : phpStep s a = .ok (.yields s₁)) (hb : Blocks s fd c s₁) : Saves s c s₁ := by
  obtain ⟨q, _, _, hsus, _⟩ := suspends_block hr ha hy
  obtain ⟨site, heg⟩ := hb.eg
  obtain ⟨rfl, rfl⟩ : q.fd = fd ∧ q.context = c := by
    have hlog := hsus.log.symm.trans hb.log
    simp only [List.cons.injEq, Event.suspended.injEq, Wait.io.injEq] at hlog
    exact hlog.1.2
  refine ⟨⟨site, ?_⟩, _, hsus⟩
  rw [hb.contexts, coroSave, heg, hb.corog]
  rfl

theorem contexts_returnFrom {switch : Switch} {ret : ℤ} {c : Ptr} {ctx : PhpContext}
    (hret : 0 ≤ ret) (hused : ∀ c, switch.context = some c → s.scheduler.saved c = none)
    (h : returnFrom s switch ret = .ok s') (hc : s.contexts c = .saved ctx) :
    s'.contexts c = .saved ctx := by
  have hne : switch.context ≠ some c := by
    intro hcontext
    have hnone : (s.contexts c).saver = none := hused c hcontext
    rw [hc] at hnone
    cases hnone
  cases switch with
  | create frame prevCheckpoint ctx required callback =>
    obtain ⟨buf, tasks, _, _, rfl⟩ := coroutineCreateTail_cases hret h
    exact hc
  | resume frame prevCheckpoint context ctx required =>
    obtain ⟨buf, _, rfl⟩ := coroutineResumeTail_cases h
    have hcc : c ≠ context := by
      rintro rfl
      exact hne rfl
    simpa [backInCaller, hcc] using hc
  | invoke fd event context =>
    obtain ⟨_, rfl⟩ := aioInvokeTail_cases h
    have hcc : c ≠ context := by
      rintro rfl
      exact hne rfl
    simpa [hcc] using hc

theorem contexts_coroYield {c c' : Ptr} {ctx : PhpContext} (hs : Sched s) (hphp : phpRuns s)
    (h : Saves s c s₁) (hy : coroYield s₁ = .ok s') (hc : s₁.contexts c' = .saved ctx) :
    s'.contexts c' = .saved ctx := by
  obtain ⟨w, hsus⟩ := h.suspends
  have hl := hs.links
  rw [← hsus.stack, ← hsus.checkPoint, ← hsus.jmpBufs, ← hsus.corog] at hl
  obtain ⟨x, rest, hj, hret⟩ := coroYield_eq_ok.mp hy
  obtain ⟨hstack, _⟩ := jump_top hl (by unfold phpRuns; rw [hsus.stack]; exact hphp) hj
  have hcore := hs.core
  rw [← hsus.stack, hstack] at hcore
  refine contexts_returnFrom (by decide) (fun c₀ hc₀ => ?_) hret hc
  obtain ⟨hlt, hnone⟩ := hcore.holders x List.mem_cons_self c₀ hc₀
  have hsaved : s₁.scheduler.saved c₀ = none := by
    rw [hsus.saved, Function.update_of_ne (hlt.trans_le hsus.fresh).ne, hnone]
  exact hsaved

/-- The registers of the caller are in the new context, and all others are where they were. -/
theorem Saves.keeps {c : Ptr} (h : Saves s c s₁) (hs : Sched s) (hphp : phpRuns s)
    (hy : coroYield s₁ = .ok s') :
    (∃ site, s'.contexts c = .saved (coroSave (enterCall s site))) ∧
      ∀ c' ctx, s.contexts c' = .saved ctx → s'.contexts c' = .saved ctx := by
  obtain ⟨site, hcontexts⟩ := h.context
  obtain ⟨w, hsus⟩ := h.suspends
  constructor
  · refine ⟨site, contexts_coroYield hs hphp h hy ?_⟩
    rw [hcontexts, Function.update_self]
  · intro c' ctx hc'
    apply contexts_coroYield hs hphp h hy
    have hsaved : s.scheduler.saved c' = some ctx.task := saver_eq_some.mpr ⟨ctx, hc', rfl⟩
    have hlt : c' < s.next := hs.core.saved_lt_next (by simp [hsaved])
    rw [hcontexts, Function.update_of_ne (hlt.trans_le hsus.fresh).ne, hc']

theorem contexts_finish {x : Activation} {rest : List CFrame} {c : Ptr} {ctx : PhpContext}
    (hs : Sched s) (hstack : s.stack = .activation x :: rest)
    (hclose : coroClose { s with eg := ⟨s.eg.vm, []⟩, stack := rest } = .ok s₁)
    (hret : returnFrom s₁ x.switch coroEnd = .ok s') (hc : s.contexts c = .saved ctx) :
    s'.contexts c = .saved ctx := by
  obtain ⟨t, task, retval, _, _, _, hs₁⟩ := coroClose_eq_ok.mp hclose
  have hcore := hs.core
  rw [hstack] at hcore
  refine contexts_returnFrom (by decide) (fun c₀ hc₀ => ?_) hret ?_
  · rw [hs₁]
    exact (hcore.holders x List.mem_cons_self c₀ hc₀).2
  · rw [hs₁]
    exact hc

/-- The coroutine of a context that is switched to gets what was saved there. -/
theorem switched_cCoroResume {u : State} {c c' : Ptr} {ctx : PhpContext} {retval : Option Zval}
    {w : Wait} {switch : Switch} (hc : u.contexts c = .saved ctx) (hpop : ctx.popped = some regs)
    (hres : cCoroResume u c' retval w switch = .ok s') :
    s'.contexts c = .saved ctx ∨
      (∃ x rest, s'.stack = .activation x :: rest ∧ x.task = ctx.task) ∧ coroSave s' = regs := by
  obtain ⟨ctx', current, frames, result, hctx, hex, _, _, hj⟩ := cCoroResume_cases hres
  obtain ⟨buf, _, _, rfl⟩ := setjmp_eq_ok.mp hj
  by_cases hcc : c = c'
  · right
    subst hcc
    obtain rfl : ctx' = ctx := ContextCell.saved.inj (hctx.symm.trans hc)
    simp only [PhpContext.popped, hex, Option.some.injEq] at hpop
    exact ⟨⟨_, _, rfl, rfl⟩, hpop⟩
  · left
    simpa [resumed, hcc] using hc

theorem contexts_step {c : Ptr} {ctx : PhpContext} (hr : TableWf s.rg) (hs : Sched s)
    (hstep : step s a = .ok s') (hc : s.contexts c = .saved ctx) (hpop : ctx.popped = some regs) :
    s'.contexts c = .saved ctx ∨
      (∃ x rest, s'.stack = .activation x :: rest ∧ x.task = ctx.task) ∧ coroSave s' = regs := by
  cases step_move hr hstep with
  | quiet hq _ _ => exact .inl (by rw [hq.contexts, hc])
  | enterLoop _ _ _ hq _ => exact .inl (by rw [hq.contexts, hc])
  | loop _ _ _ hq _ _ _ _ => exact .inl (by rw [hq.contexts, hc])
  | leaveLoop _ _ hq _ _ _ => exact .inl (by rw [hq.contexts, hc])
  | invoke l l' stack fd ev c' v _ _ _ _ _ hres =>
    have hc₁ : { s with rg := invokeTable s.rg fd, stack := .eventLoop l' :: stack }.contexts c =
      .saved ctx := hc
    exact switched_cCoroResume hc₁ hpop hres
  | create site slots callback _ _ hcreate =>
    left
    have hi : (ensureInit (enterCall s site)).contexts = s.contexts := ensureInit_contexts _
    obtain ⟨cid, cids, _, ⟨_, _, ht⟩ | ⟨_, hj⟩⟩ := coroutineCreate_cases hcreate
    · obtain ⟨buf, tasks, _, _, rfl⟩ := coroutineCreateTail_cases (by decide) ht
      exact (congrFun hi c).trans hc
    · obtain ⟨buf, _, _, rfl⟩ := setjmp_eq_ok.mp hj
      exact (congrFun hi c).trans hc
  | resume site arg c' _ _ _ _ hres =>
    have hc₁ : (newCheckPoint (enterCall s site)).contexts c = .saved ctx := hc
    exact switched_cCoroResume hc₁ hpop hres
  | yield site s₁ _ hphp hy hyield =>
    exact .inl (((saves_yield hy).keeps hs hphp hyield).2 c ctx hc)
  | block fd c' s₁ ha hphp ho hb hyield =>
    exact .inl (((saves_block hr ha ho hb).keeps hs hphp hyield).2 c ctx hc)
  | finish x rest base s₁ _ hstack _ hclose hret =>
    exact .inl (contexts_finish hs hstack hclose hret hc)

theorem inControl_of_stack (hin : InControl t s) (hstack : s'.stack = s.stack) : InControl t s' := by
  obtain ⟨x, rest, hs, htask⟩ := hin
  exact ⟨x, rest, hstack.trans hs, htask⟩

theorem keptFor_of_push {y : Activation} (hin : InControl t s)
    (hstack : s'.stack = .activation y :: s.stack)
    (hy : y.switch.registers.map Registers.saved = some regs) : KeptFor t regs s' := by
  obtain ⟨x, rest, hs, htask⟩ := hin
  obtain ⟨r, hr, hregs⟩ := Option.map_eq_some_iff.mp hy
  exact .caller y x rest r ⟨[], by rw [hstack, hs]; rfl⟩ htask hr hregs

theorem keptFor_of_saves {c : Ptr} (h : Saves s c s₁) (hs : Sched s) (hh : Hosted s)
    (hin : InControl t s) (hy : coroYield s₁ = .ok s') : KeptFor t (coroSave s) s' := by
  obtain ⟨x, rest, hstack, htask⟩ := hin
  obtain ⟨⟨site, hsaved⟩, _⟩ := h.keeps hs (phpRuns_of_activation hstack) hy
  refine .context c _ hsaved ?_ (popped_enterCall s site)
  exact (hh.current hstack hs.links).trans htask

/-- A step from a state with `t` in control leaves it there or keeps its registers. -/
theorem keptFor_of_inControl (hr : TableWf s.rg) (hs : Sched s) (hh : Hosted s) (hok : AtHome s a)
    (hin : InControl t s) (hstep : step s a = .ok s') :
    InControl t s' ∨ KeptFor t (coroSave s) s' := by
  have hcontrol := hin
  obtain ⟨x, rest, hstack, htask⟩ := hin
  have hloop : ∀ l below, s.stack ≠ .eventLoop l :: below := phpRuns_of_activation hstack
  cases step_move hr hstep with
  | quiet _ hsame _ => exact .inl (inControl_of_stack hcontrol hsame)
  | enterLoop site ha _ _ _ =>
    have hnil := hok.1 site ha
    rw [hstack] at hnil
    cases hnil
  | loop l _ below _ hl _ _ _ => exact absurd hl (hloop l below)
  | leaveLoop l below _ hl _ _ => exact absurd hl (hloop l below)
  | invoke l _ below _ _ _ _ hl _ _ _ _ _ => exact absurd hl (hloop l below)
  | create site slots callback _ _ hcreate =>
    have histack : (ensureInit (enterCall s site)).stack = s.stack := ensureInit_stack _
    have hiregs : coroSave (ensureInit (enterCall s site)) = coroSave (enterCall s site) := by
      rcases ensureInit_cases (enterCall s site) with ⟨_, he⟩ | ⟨_, he⟩
      · rw [he]
      · rw [he]
        rfl
    obtain ⟨cid, cids, _, ⟨_, _, ht⟩ | ⟨_, hj⟩⟩ := coroutineCreate_cases hcreate
    · obtain ⟨buf, tasks, _, _, rfl⟩ := coroutineCreateTail_cases (by decide) ht
      exact .inl (inControl_of_stack hcontrol histack)
    · obtain ⟨buf, _, _, rfl⟩ := setjmp_eq_ok.mp hj
      refine .inr (keptFor_of_push hcontrol (congrArg (List.cons _) histack) ?_)
      rw [hiregs]
      exact congrArg some (saved_callFrame s site _ _)
  | resume site arg c _ _ _ _ hres =>
    obtain ⟨_, _, _, _, _, _, _, _, hj⟩ := cCoroResume_cases hres
    obtain ⟨buf, _, _, rfl⟩ := setjmp_eq_ok.mp hj
    exact .inr (keptFor_of_push hcontrol rfl (congrArg some (saved_callFrame s site _ _)))
  | yield site s₁ _ _ hy hyield =>
    exact .inr (keptFor_of_saves (saves_yield hy) hs hh hcontrol hyield)
  | block fd c s₁ ha _ ho hb hyield =>
    exact .inr (keptFor_of_saves (saves_block hr ha ho hb) hs hh hcontrol hyield)
  | finish z below base s₁ _ hz _ hclose hret =>
    right
    obtain ⟨t', task, retval, hcur, _, _, hs₁⟩ := coroClose_eq_ok.mp hclose
    have ht : s.corog.currentCoro = some t := (hh.current hstack hs.links).trans htask
    obtain rfl : t = t' := Option.some.inj (ht.symm.trans hcur)
    obtain ⟨vs, hlog⟩ := returned_of_log (log_returnFrom (by decide) hret)
    refine .closed ?_
    rw [hlog, status_returned, hs₁, status_closed]
    exact Function.update_self ..

theorem closed_step (h : LifeStep s a s') (ht : status s.log t = .closed) :
    status s'.log t = .closed := by
  have hother : ∀ {t' : Ptr} {st : Status}, status s.log t' ≠ .closed →
      Function.update (status s.log) t' st t = .closed := by
    intro t' st hne
    rw [Function.update_of_ne (by rintro rfl; exact hne ht), ht]
  cases h with
  | same _ hlog _ _ =>
    rw [hlog.status]
    exact ht
  | starts x t' cid retval _ _ habsent hlog _ _ =>
    rw [hlog.status]
    exact hother (by simp [habsent])
  | switches x t' w c result _ _ hst _ _ hlog _ _ =>
    rw [hlog]
    exact hother (by simp [hst])
  | suspends x t' w c _ _ hst _ hlog _ _ =>
    rw [hlog.status]
    exact hother (by simp [hst])
  | finishes x t' cid page retval _ _ hst hlog _ _ =>
    rw [hlog.status]
    exact hother (by simp [hst])

/-- Whatever happens, the registers stay where they are, or the coroutine is in control with
them. -/
theorem keptFor_step (hr : TableWf s.rg) (hs : Sched s) (hh : Hosted s) (hok : AtHome s a)
    (h : KeptFor t regs s) (hstep : step s a = .ok s') :
    KeptFor t regs s' ∨ InControl t s' ∧ coroSave s' = regs := by
  cases h with
  | context c ctx hc htask hpop =>
    rcases contexts_step hr hs hstep hc hpop with hc' | ⟨⟨x, rest, hstack, hx⟩, hregs⟩
    · exact .inl (.context c ctx hc' htask hpop)
    · exact .inr ⟨⟨x, rest, hstack, hx.trans htask⟩, hregs⟩
  | caller y x rest r hin htask hy hregs =>
    rcases inside_step hr hs hh hok hin hstep with hin' | ⟨hstack, hback⟩
    · exact .inl (.caller y x rest r hin' htask hy hregs)
    · refine .inr ⟨⟨x, rest, hstack, htask⟩, ?_⟩
      rw [← hregs, ← hback r hy, saved_registers]
  | closed hclosed =>
    exact .inl (.closed (closed_step (lifeStep hr hs (hh.finishesOwn hs a) hstep) hclosed))

/-- A coroutine loses control in some step, and others run for as long as they like.  In the
step with which it gets back control it has the registers again with which it lost it. -/
theorem gets_back_its_registers {s₀ s₁ s₂ s₃ : State} {a b : Action}
    (hreach : Reached MainLoops s₀) (hin : InControl t s₀) (hok : MainLoops s₀ a)
    (hstep : step s₀ a = .ok s₁)
    (hrun : Reachable step (fun u => u = s₁) (fun u b => MainLoops u b ∧ ¬ InControl t u) s₂)
    (hout : ¬ InControl t s₂) (hok' : MainLoops s₂ b) (hback : step s₂ b = .ok s₃)
    (hin' : InControl t s₃) : coroSave s₃ = coroSave s₀ := by
  have hkept : ∀ {u u' : State} {b : Action}, Reached MainLoops u → MainLoops u b →
      step u b = .ok u' → KeptFor t (coroSave s₀) u →
      KeptFor t (coroSave s₀) u' ∨ InControl t u' ∧ coroSave u' = coroSave s₀ := by
    intro u u' b hu hb hub hk
    obtain ⟨hs, hh⟩ := hosted_of_mainLoops hu
    exact keptFor_step (tableWf_of_reached hu) hs hh (atHome_of_step hb hub) hk hub
  have hI : Reached MainLoops s₂ ∧ (InControl t s₂ ∨ KeptFor t (coroSave s₀) s₂) := by
    refine hrun.invariant (I := fun u => Reached MainLoops u ∧
      (InControl t u ∨ KeptFor t (coroSave s₀) u)) ?_ ?_
    · rintro u rfl
      obtain ⟨hs, hh⟩ := hosted_of_mainLoops hreach
      exact ⟨hreach.next hok hstep, keptFor_of_inControl (tableWf_of_reached hreach) hs hh
        (atHome_of_step hok hstep) hin hstep⟩
    · rintro u b u' ⟨hu, hk⟩ ⟨hb, hnot⟩ hub
      refine ⟨hu.next hb hub, ?_⟩
      rcases hkept hu hb hub (hk.resolve_left hnot) with hk' | ⟨hcontrol, _⟩
      · exact .inr hk'
      · exact .inl hcontrol
  obtain ⟨hreach₂, hk⟩ := hI
  rcases hkept hreach₂ hok' hback (hk.resolve_left hout) with hk' | ⟨_, hregs⟩
  · obtain ⟨hs, _⟩ := hosted_of_mainLoops (hreach₂.next hok' hback)
    exact absurd hin' (hk'.not_inControl hs)
  · exact hregs

def othersRun : List Action :=
  [createCall 2, yieldCall, .eventLoop callSite, .epollWait [⟨epollIn, 3⟩]]

theorem gets_back_its_registers_read : ∃ s₀ s₁ s₂ s₃,
    runFrom step (initial 0 0) [createCall 1, .call callSite] = .ok s₀ ∧
    s₀.eg.currentExecuteData.length = 2 ∧ step s₀ (readCall 3) = .ok s₁ ∧
    runFrom step s₁ othersRun = .ok s₂ ∧ step s₂ (.loopStep (.value 7)) = .ok s₃ ∧
    coroSave s₃ = coroSave s₀ := by
  obtain ⟨s₀, hrun₀, hs₀, hp⟩ := exists_reached_of _ mainLoops_of_test [createCall 1, .call callSite]
    (fun s₀ => InControl 5 s₀ ∧ s₀.eg.currentExecuteData.length = 2 ∧ isOkAnd (fun s₁ =>
      leadsTo step (fun u b => testMainLoops u b && !decide (InControl 5 u)) (fun s₂ =>
        ¬ InControl 5 s₂ ∧ isOkAnd (fun s₃ => InControl 5 s₃) (step s₂ (.loopStep (.value 7))))
      s₁ othersRun) (step s₀ (readCall 3))) (by decide +kernel)
  simp only [decide_eq_true_eq] at hp
  obtain ⟨hin, hlength, hread⟩ := hp
  obtain ⟨s₁, hs₁, hothers⟩ := exists_of_isOkAnd hread
  have hok : ∀ u b, (testMainLoops u b && !decide (InControl 5 u)) = true →
      MainLoops u b ∧ ¬ InControl 5 u := by
    intro u b h
    obtain ⟨htest, hnot⟩ := Bool.and_eq_true_iff.mp h
    exact ⟨mainLoops_of_test u b htest, by simpa using hnot⟩
  have hstart : Reachable step (fun u => u = s₁) (fun u b => MainLoops u b ∧ ¬ InControl 5 u) s₁ :=
    .init rfl
  obtain ⟨s₂, hrun₂, hs₂, hp₂⟩ := exists_reachable_of_leadsTo hstart hok hothers
  obtain ⟨hout, hback⟩ := of_decide_eq_true hp₂
  obtain ⟨s₃, hs₃, hin₃⟩ := exists_of_isOkAnd hback
  exact ⟨s₀, s₁, s₂, s₃, hrun₀, hlength, hs₁, hrun₂, hs₃,
    gets_back_its_registers hs₀ hin (by rintro site ⟨⟩) hs₁ hs₂ hout (by rintro site ⟨⟩) hs₃
      (of_decide_eq_true hin₃)⟩

end Phpco
