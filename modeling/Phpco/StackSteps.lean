import Phpco.SchedulerRuns
import Phpco.TimeSteps

namespace Phpco
open Except

/-- The buffers lead to their own activations, and new ones will be different. -/
structure Jumps (s : State) : Prop where
  links : Links (activations s.stack) s.checkPoint s.jmpBufs s.corog.currentCoro
  ids : ∀ x ∈ activations s.stack, x.id < s.next ∧ x.buf < s.next

namespace Jumps

theorem mono {s s' : State} (h : Jumps s) (hstack : activations s'.stack = activations s.stack)
    (hcp : s'.checkPoint = s.checkPoint) (hbufs : s'.jmpBufs = s.jmpBufs)
    (hcur : s'.corog.currentCoro = s.corog.currentCoro) (hnext : s.next ≤ s'.next) : Jumps s' where
  links := by
    rw [hstack, hcp, hbufs, hcur]
    exact h.links
  ids := by
    rw [hstack]
    exact fun x hx => (h.ids x hx).imp (·.trans_le hnext) (·.trans_le hnext)

theorem quiet {s s' : State} (h : Jumps s) (hq : Quiet s s')
    (hstack : activations s'.stack = activations s.stack) : Jumps s' :=
  h.mono hstack hq.checkPoint hq.jmpBufs (by rw [hq.corog]) hq.next

theorem enterCall {s : State} (h : Jumps s) (site : CallSite) : Jumps (enterCall s site) :=
  h.quiet (quiet_enterCall s site) rfl

theorem activations_eq_nil {s : State} (h : Jumps s) (hcp : s.checkPoint = none) :
    activations s.stack = [] :=
  h.links.activations_eq_nil hcp

theorem ensureInit {s : State} (h : Jumps s) : Jumps (ensureInit s) := by
  by_cases hcp : s.checkPoint = none
  · have hnil := h.activations_eq_nil hcp
    have hinit : Phpco.ensureInit s = coroInit s := if_pos hcp
    have hact : activations (coroInit s).stack = [] := hnil
    rw [hinit]
    constructor
    · rw [hact]
      exact ⟨trivial, .nil, trivial⟩
    · rw [hact]
      simp
  · have hsame : Phpco.ensureInit s = s := if_neg hcp
    rw [hsame]
    exact h

theorem returnFrom {s s' : State} {x : Activation} {cur : Option Ptr} {ret : ℤ} (hret : 0 ≤ ret)
    (hlinks : Links (x :: activations s.stack) s.checkPoint s.jmpBufs cur)
    (hids : ∀ y ∈ activations s.stack, y.id < s.next ∧ y.buf < s.next)
    (h : returnFrom s x.switch ret = .ok s') : Jumps s' ∧ s'.stack = s.stack := by
  have hcp := hlinks.bufs.1
  cases hsw : x.switch with
  | create frame prevCheckpoint ctx required callback =>
    rw [hsw] at h
    obtain ⟨buf, tasks, _, _, rfl⟩ := coroutineCreateTail_cases hret h
    have hp := hlinks.pop buf (show x.switch.ctx = some ctx by rw [hsw]; rfl)
    rw [show x.outerCheckPoint = prevCheckpoint by rw [Activation.outerCheckPoint, hsw]] at hp
    exact ⟨⟨hp, hids⟩, rfl⟩
  | resume frame prevCheckpoint context ctx required =>
    rw [hsw] at h
    obtain ⟨buf, _, rfl⟩ := coroutineResumeTail_cases h
    have hp := hlinks.pop buf (show x.switch.ctx = some ctx by rw [hsw]; rfl)
    rw [show x.outerCheckPoint = prevCheckpoint by rw [Activation.outerCheckPoint, hsw]] at hp
    exact ⟨⟨hp, hids⟩, rfl⟩
  | invoke fd event context =>
    rw [hsw] at h
    obtain ⟨_, rfl⟩ := aioInvokeTail_cases h
    have hp := hlinks.pop_invoke (by rw [hsw]; rfl) s.corog.currentCoro
    rw [show x.outerCheckPoint = some x.buf by rw [Activation.outerCheckPoint, hsw], ← hcp] at hp
    exact ⟨⟨hp, hids⟩, rfl⟩

theorem coroYield {s s' : State} (h : Jumps s) (hphp : phpRuns s) (hy : coroYield s = .ok s') :
    Jumps s' ∧ ∃ x, s.stack = .activation x :: s'.stack := by
  obtain ⟨x, stack, hj, hret⟩ := coroYield_eq_ok.mp hy
  obtain ⟨hs, _⟩ := jump_top h.links hphp hj
  have hlinks := h.links
  have hids := h.ids
  rw [hs] at hlinks hids
  obtain ⟨hjumps, hstack⟩ := returnFrom (s := { s with
    eg := ⟨s.corog.originVmStack, s.eg.currentExecuteData⟩
    stack := stack }) (by decide) hlinks (fun y hy => hids y (List.mem_cons_of_mem _ hy)) hret
  exact ⟨hjumps, x, by rw [hstack]; exact hs⟩

theorem push {s s' : State} {switch : Switch} (h : Jumps s) (s₁ : State) (ctx : PhpContext)
    (hstack : s₁.stack = s.stack) (hcp : s₁.checkPoint = some s.next) (hnext : s.next < s₁.next)
    (hbufs : ∀ buf ≠ s.next, s₁.jmpBufs buf = s.jmpBufs buf)
    (hctx : switch.ctx = some ctx) (hcur : ctx.task = s.corog.currentCoro)
    (hout : Activation.outerCheckPoint ⟨s₁.next, s₁.corog.currentCoro, s.next, switch⟩ =
      s.checkPoint)
    (hj : setjmp s₁ switch = .ok s') : Jumps s' ∧ ∃ x, s'.stack = .activation x :: s.stack := by
  obtain ⟨buf, hbuf, _, rfl⟩ := setjmp_eq_ok.mp hj
  obtain rfl : s.next = buf := Option.some.inj (hcp.symm.trans hbuf)
  refine ⟨⟨?_, ?_⟩, _, congrArg (List.cons _) hstack⟩
  · have hset : Function.update s₁.jmpBufs s.next (.set s₁.next) s.next = .set s₁.next :=
      Function.update_self ..
    have hl := h.links.push (y := ⟨s₁.next, s₁.corog.currentCoro, s.next, switch⟩) hctx hcur hout
      (fun x hx => ⟨(h.ids x hx).2.ne, ((h.ids x hx).1.trans hnext).ne⟩) hset
      fun b hb => by rw [Function.update_of_ne hb, hbufs b hb]
    rw [← hstack, ← hcp] at hl
    exact hl
  · intro x hx
    rcases List.mem_cons.mp hx with rfl | hx
    · exact ⟨Nat.lt_succ_self _, hnext.trans (Nat.lt_succ_self _)⟩
    · rw [hstack] at hx
      have hlt := hnext.trans (Nat.lt_succ_self s₁.next)
      exact (h.ids x hx).imp (·.trans hlt) (·.trans hlt)

theorem create {s s' : State} {frame : InternalCall} {slots : ℕ} {callback : Zval} (h : Jumps s)
    (hc : coroutineCreate s frame slots callback = .ok s') :
    Jumps s' ∧ (s'.stack = s.stack ∨ ∃ x, s'.stack = .activation x :: s.stack) := by
  have hi := h.ensureInit
  have hstack := ensureInit_stack s
  obtain ⟨cid, cids, _, ⟨_, _, ht⟩ | ⟨_, hj⟩⟩ := coroutineCreate_cases hc
  · obtain ⟨buf, tasks, hbuf, _, rfl⟩ := coroutineCreateTail_cases (by decide) ht
    obtain rfl : (Phpco.ensureInit s).next = buf := Option.some.inj hbuf
    refine ⟨⟨hi.links.congr fun x hx => ?_, fun x hx => ?_⟩, .inl hstack⟩
    · have hne : x.buf ≠ (Phpco.ensureInit s).next := (hi.ids x hx).2.ne
      simp [backInCaller, newCheckPoint, hne]
    · exact (hi.ids x hx).imp (·.trans (Nat.lt_succ_self _)) (·.trans (Nat.lt_succ_self _))
  · obtain ⟨hjumps, x, hx⟩ := hi.push
      (startTask { newCheckPoint (Phpco.ensureInit s) with cids := cids } cid slots)
      (coroSave (Phpco.ensureInit s))
      rfl rfl (Nat.lt_add_of_pos_right (k := 4) (by decide)) (fun b hb => by simp [startTask,
        newCheckPoint, hb]) rfl rfl rfl hj
    exact ⟨hjumps, .inr ⟨x, hx.trans (by rw [hstack])⟩⟩

theorem resume {s s' : State} {frame : InternalCall} {cid : ℤ} {c : Ptr} {retval : Option Zval}
    {required : Bool} (h : Jumps s)
    (hr : cCoroResume (newCheckPoint s) c retval (.yield cid)
      (.resume frame s.checkPoint c (coroSave s) required) = .ok s') :
    Jumps s' ∧ ∃ x, s'.stack = .activation x :: s.stack := by
  obtain ⟨ctx, current, frames, result, _, _, _, _, hj⟩ := cCoroResume_cases hr
  exact h.push (resumed (newCheckPoint s) c ctx current frames (.yield cid) result)
    (coroSave s) rfl rfl (Nat.lt_succ_self _) (fun b hb => by simp [resumed, newCheckPoint,
      hb]) rfl rfl rfl hj

theorem invoke {s s' : State} {fd : ℤ} {event c : Ptr} {retval : Option Zval} (h : Jumps s)
    (hb : ∀ b, s.checkPoint = some b → b < s.next)
    (hr : cCoroResume s c retval (.io fd) (.invoke fd event c) = .ok s') :
    Jumps s' ∧ ∃ x, s'.stack = .activation x :: s.stack := by
  obtain ⟨ctx, current, frames, result, _, _, _, _, hj⟩ := cCoroResume_cases hr
  obtain ⟨buf, hbuf, _, rfl⟩ := setjmp_eq_ok.mp hj
  have hcp : s.checkPoint = some buf := hbuf
  refine ⟨⟨?_, ?_⟩, _, rfl⟩
  · have hl := h.links.push_invoke (y := ⟨s.next, ctx.task, buf, .invoke fd event c⟩) hcp rfl
      fun x hx => (h.ids x hx).1.ne
    rw [← hcp] at hl
    exact hl
  · intro x hx
    rcases List.mem_cons.mp hx with rfl | hx
    · exact ⟨Nat.lt_succ_self _, (hb buf hcp).trans (Nat.lt_succ_self _)⟩
    · exact (h.ids x hx).imp (·.trans (Nat.lt_succ_self _)) (·.trans (Nat.lt_succ_self _))

theorem finish {s s₁ s' : State} {x : Activation} {stack : List CFrame} (h : Jumps s)
    (hs : s.stack = .activation x :: stack)
    (hc : coroClose { s with eg := ⟨s.eg.vm, []⟩, stack := stack } = .ok s₁)
    (hret : Phpco.returnFrom s₁ x.switch coroEnd = .ok s') : Jumps s' ∧ s'.stack = stack := by
  obtain ⟨t, task, retval, _, _, _, hs₁⟩ := coroClose_eq_ok.mp hc
  have hlinks := h.links
  have hids := h.ids
  rw [hs] at hlinks hids
  have hstack : s₁.stack = stack := by rw [hs₁]
  have hlinks₁ : Links (x :: activations s₁.stack) s₁.checkPoint s₁.jmpBufs s.corog.currentCoro := by
    rw [hs₁]
    exact hlinks
  have hids₁ : ∀ y ∈ activations s₁.stack, y.id < s₁.next ∧ y.buf < s₁.next := by
    rw [hs₁]
    exact fun y hy => hids y (List.mem_cons_of_mem _ hy)
  exact (returnFrom (by decide) hlinks₁ hids₁ hret).imp id (·.trans hstack)

end Jumps

inductive PhaseStep (s : State) (a : Action) (l l' : EventLoop) (s' : State) : Prop
  | reported (batch : List EpollEvent) : a = .epollWait batch → l.phase = .wait →
      mayReturn s batch → l'.phase = .batch batch s.rg → PhaseStep s a l l' s'
  | takes (answer : Zval) (e : EpollEvent) (events : List EpollEvent) (since : EventTable) :
      a = .loopStep answer → l.phase = .batch (e :: events) since →
      l'.phase = .batch events since → PhaseStep s a l l' s'
  | passBegins (answer : Zval) (since : EventTable) : a = .loopStep answer →
      l.phase = .batch [] since → l'.phase = .timeouts s.now s.timeouts.link.front none →
      PhaseStep s a l l' s'
  | passEnds (answer : Zval) (now : ℤ) (f : Option Ptr) : a = .loopStep answer →
      l.phase = .timeouts now none f → l'.phase = .wait → PhaseStep s a l l' s'
  | passesOver (answer : Zval) (now : ℤ) (q : Ptr) (f : Option Ptr) (node : Node)
      (element : TimeoutElement) : a = .loopStep answer → l.phase = .timeouts now (some q) f →
      s.timeouts.link.nodes q = some node → s.timeouts.elements node.data = some element →
      now < element.lastTime + element.timeout →
      l'.phase = .timeouts now node.next (some q) → PhaseStep s a l l' s'
  | fires (answer : Zval) (now : ℤ) (q : Ptr) (f : Option Ptr) (node : Node)
      (element : TimeoutElement) : a = .loopStep answer → l.phase = .timeouts now (some q) f →
      s.timeouts.link.nodes q = some node → s.timeouts.elements node.data = some element →
      element.lastTime + element.timeout ≤ now → l'.phase = .expired now q f →
      PhaseStep s a l l' s'
  | reaps (answer : Zval) (now : ℤ) (q : Ptr) (f : Option Ptr) (timeouts : Timeouts) (node : Node) :
      a = .loopStep answer → l.phase = .expired now q f → reapTimeout s q f = .ok timeouts →
      timeouts.link.nodes q = some node → s'.timeouts = timeouts →
      l'.phase = .timeouts now node.next (some q) → PhaseStep s a l l' s'

/-- How a step changes the C stack. -/
inductive StackMove (s : State) (a : Action) (s' : State) : Prop
  | same : (∀ answer, a ≠ .loopStep answer) → s'.stack = s.stack → StackMove s a s'
  | push (x : Activation) : (∀ answer, a ≠ .loopStep answer) → phpRuns s →
      s'.stack = .activation x :: s.stack → StackMove s a s'
  | enter (l : EventLoop) : (∀ answer, a ≠ .loopStep answer) → phpRuns s → l.phase = .wait →
      s'.stack = .eventLoop l :: s.stack → StackMove s a s'
  | pop (x : Activation) : (∀ answer, a ≠ .loopStep answer) →
      s.stack = .activation x :: s'.stack → StackMove s a s'
  | loop (l l' : EventLoop) (below : List CFrame) : s.stack = .eventLoop l :: below →
      PhaseStep s a l l' s' → (s'.stack = .eventLoop l' :: below ∨
        (∀ now q f, l'.phase ≠ .timeouts now q f) ∧
          ∃ x, s'.stack = .activation x :: .eventLoop l' :: below) → StackMove s a s'
  | leave (l : EventLoop) : s.stack = .eventLoop l :: s'.stack → l.phase = .wait →
      StackMove s a s'

theorem stack_aioInvoke {s s' : State} {fd : ℤ} {answer : Zval}
    (h : aioInvoke s fd answer = .ok s') :
    s'.stack = s.stack ∨ ∃ x, s'.stack = .activation x :: s.stack := by
  obtain ⟨_, ⟨_, rfl⟩ | ⟨ev, c, _, _, hres⟩⟩ := aioInvoke_cases h
  · exact .inl rfl
  · obtain ⟨ctx, current, frames, result, _, _, _, _, hj⟩ := cCoroResume_cases hres
    obtain ⟨buf, _, _, rfl⟩ := setjmp_eq_ok.mp hj
    exact .inr ⟨_, rfl⟩

theorem stackMove_loop {s s' : State} {l : EventLoop} {below : List CFrame} {answer : Zval}
    (hs : s.stack = .eventLoop l :: below) (h : eventLoopStep s l below answer = .ok s') :
    StackMove s (.loopStep answer) s' := by
  cases eventLoopStep_cases h with
  | leaves hp _ hs' =>
    rw [hs']
    exact .leave l hs hp
  | passBegins since hp hs' =>
    exact .loop l _ below hs (.passBegins answer since rfl hp rfl) (.inl (by rw [hs']; rfl))
  | skips e events since hp _ hs' =>
    exact .loop l { l with phase := .batch events since } below hs
      (.takes answer e events since rfl hp rfl) (.inl (by rw [hs']; rfl))
  | dispatches e events since hp _ hinv =>
    exact .loop l { l with phase := .batch events since } below hs
      (.takes answer e events since rfl hp rfl)
      ((stack_aioInvoke hinv).imp id fun hx => ⟨by simp, hx⟩)
  | passEnds now f hp hs' =>
    exact .loop l { l with phase := .wait, test := l.test + 1 } below hs
      (.passEnds answer now f rfl hp rfl) (.inl (by rw [hs']))
  | passesOver now q f node element hp hnode hel hlt hs' =>
    exact .loop l { l with phase := .timeouts now node.next (some q) } below hs
      (.passesOver answer now q f node element rfl hp hnode hel hlt rfl) (.inl (by rw [hs']; rfl))
  | fires now q f node element hp hnode hel hexp hinv =>
    exact .loop l { l with phase := .expired now q f } below hs
      (.fires answer now q f node element rfl hp hnode hel hexp rfl)
      ((stack_aioInvoke hinv).imp id fun hx => ⟨by simp, hx⟩)
  | reaps now q f timeouts node hp hreap hnode hs' =>
    exact .loop l { l with phase := .timeouts now node.next (some q) } below hs
      (.reaps answer now q f timeouts node rfl hp hreap hnode (by rw [hs']; rfl) rfl)
      (.inl (by rw [hs']; rfl))

/-- A step keeps the buffers in order, and one of PHP code moves one frame at most. -/
theorem jumps_step {s s' : State} {a : Action} (hr : TableWf s.rg) (hb : Bounded s) (h : Jumps s)
    (hstep : step s a = .ok s') :
    Jumps s' ∧ (phpRuns s → (∀ answer, a ≠ .loopStep answer) → StackMove s a s') := by
  cases step_move hr hstep with
  | quiet hq hs _ => exact ⟨h.quiet hq (by rw [hs]), fun _ ha => .same ha hs⟩
  | enterLoop site _ _ hq hs =>
    exact ⟨h.quiet hq (by rw [hs]; rfl), fun hphp ha => .enter _ ha hphp rfl hs⟩
  | loop l l' stack hq hs hs' _ _ =>
    exact ⟨h.quiet hq (by rw [hs, hs']; rfl), fun hphp _ => absurd hs (hphp l stack)⟩
  | leaveLoop l stack hq hs hs' _ =>
    exact ⟨h.quiet hq (by rw [hs, hs']; rfl), fun hphp _ => absurd hs (hphp l stack)⟩
  | invoke l l' stack fd ev c v hs _ _ _ _ hres =>
    have h₁ : Jumps { s with rg := invokeTable s.rg fd, stack := .eventLoop l' :: stack } :=
      h.mono (by rw [hs]; rfl) rfl rfl rfl le_rfl
    exact ⟨(h₁.invoke hb.checkPoint hres).1, fun hphp _ => absurd hs (hphp l stack)⟩
  | create site slots callback _ _ hc =>
    obtain ⟨hjumps, hs⟩ := (h.enterCall site).create hc
    refine ⟨hjumps, fun hphp ha => ?_⟩
    rcases hs with hs | ⟨x, hs⟩
    · exact .same ha hs
    · exact .push x ha hphp hs
  | resume site arg c _ _ _ _ hres =>
    obtain ⟨hjumps, x, hs⟩ := (h.enterCall site).resume hres
    exact ⟨hjumps, fun hphp ha => .push x ha hphp hs⟩
  | yield site s₁ _ hphp hy hc =>
    obtain ⟨t, task, _, _, _, hs₁⟩ := coroutineYield_cases hy
    have hjumps₁ : Jumps s₁ := (h.enterCall site).mono (by rw [hs₁]) (by rw [hs₁]) (by rw [hs₁])
      (by rw [hs₁]) (by rw [hs₁]; exact Nat.le_succ _)
    have hstack : s₁.stack = s.stack := by rw [hs₁]; rfl
    obtain ⟨hjumps, x, hx⟩ := hjumps₁.coroYield (by rwa [phpRuns, hstack]) hc
    exact ⟨hjumps, fun _ ha => .pop x ha (hstack.symm.trans hx)⟩
  | block fd c s₁ _ hphp _ hbl hc =>
    have hjumps₁ : Jumps s₁ := h.mono (by rw [hbl.stack]) hbl.checkPoint hbl.jmpBufs
      (by rw [hbl.corog]) (hbl.fresh.1.trans hbl.fresh.2.le)
    obtain ⟨hjumps, x, hx⟩ := hjumps₁.coroYield (by rwa [phpRuns, hbl.stack]) hc
    exact ⟨hjumps, fun _ ha => .pop x ha (hbl.stack.symm.trans hx)⟩
  | finish x stack base s₁ _ hs _ hc hret =>
    obtain ⟨hjumps, hstack⟩ := h.finish hs hc hret
    exact ⟨hjumps, fun _ ha => .pop x ha (by rw [hstack]; exact hs)⟩

theorem jumps_initial {s : State} (h : Initial s) : Jumps s := by
  obtain ⟨_, _, _, _, rfl⟩ := h
  refine ⟨⟨trivial, .nil, trivial⟩, fun x hx => ?_⟩
  cases hx

theorem jumps_of_reached {ok : State → Action → Prop} {s : State} (h : Reached ok s) : Jumps s :=
  h.invariant_of (fun _ => jumps_initial) fun _ _ _ hreach hs _ hstep =>
    (jumps_step (tableWf_of_reached hreach) (bounded_of_reached hreach) hs hstep).1

/-- What a step from a reached state does to the C stack. -/
theorem stackMove {ok : State → Action → Prop} {s s' : State} {a : Action} (h : Reached ok s)
    (hstep : step s a = .ok s') : StackMove s a s' := by
  rcases step_cases hstep with ⟨now, clock, rfl, rfl⟩ | ⟨batch, l, below, rfl, hs, hp, hm, rfl⟩ |
    ⟨answer, l, below, rfl, hs, _⟩ | ⟨hphp, o, ho, _⟩
  · exact .same (by simp) rfl
  · exact .loop l { l with phase := .batch batch s.rg } below hs (.reported batch rfl hp hm rfl)
      (.inl rfl)
  · apply stackMove_loop hs
    simpa only [step, hs] using hstep
  · have hjumps := jumps_of_reached h
    have hmove := jumps_step (tableWf_of_reached h) (bounded_of_reached h) hjumps hstep
    apply hmove.2 hphp
    rintro answer rfl
    cases ho

end Phpco
