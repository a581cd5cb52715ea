import Phpco.NestingLaw

/-!
# The registers after `aio_invoke`

`aio_invoke` is the third way to switch to a coroutine, and the only one that
does not save the registers of its caller.  A dispatch leaves them as they were
exactly if it switches to no coroutine.
-/

namespace Phpco
open Except EventTable Transition

structure SameRegisters (s s' : State) : Prop where
  eg : s'.eg = s.eg
  currentCoro : s'.corog.currentCoro = s.corog.currentCoro
  allocatedReturnValuePtr : s'.corog.allocatedReturnValuePtr = s.corog.allocatedReturnValuePtr

instance (s s' : State) : Decidable (SameRegisters s s') :=
  decidable_of_iff (s'.eg = s.eg ∧ s'.corog.currentCoro = s.corog.currentCoro ∧
      s'.corog.allocatedReturnValuePtr = s.corog.allocatedReturnValuePtr)
    ⟨fun h => ⟨h.1, h.2.1, h.2.2⟩, fun h => ⟨h.eg, h.currentCoro, h.allocatedReturnValuePtr⟩⟩

/-- A coroutine runs that `aio_invoke` switched to for descriptor `fd`, and nothing
waits on `fd`. -/
structure Invoked (s : State) (x : Activation) (fd : ℤ) (rest : List CFrame) : Prop where
  stack : s.stack = .activation x :: rest
  checkPoint : s.checkPoint = some x.buf
  armed : s.jmpBufs x.buf = .set x.id
  epollfd : s.epollfd ≠ none
  range : inTable fd
  table : TableWf s.rg
  idle : s.rg.waiter fd = none
  slot : ∃ addr c ev, x.switch = .invoke fd addr c ∧ s.rg.aioEventFds fd = some ev ∧ ev.addr = addr

theorem Invoked.call {s : State} {x : Activation} {fd : ℤ} {rest : List CFrame}
    (h : Invoked s x fd rest) (site : CallSite) : Invoked (enterCall s site) x fd rest :=
  ⟨h.stack, h.checkPoint, h.armed, h.epollfd, h.range, h.table, h.idle, h.slot⟩

/-- An idle slot takes a new wait, in the record it has. -/
theorem store_idle {r : EventTable} {a : StoreArgs} {ev : AioEvent} (addr : Ptr) (hr : TableWf r)
    (hin : inTable a.fd) (hw : r.waiter a.fd = none) (hev : r.aioEventFds a.fd = some ev) :
    ∃ r' ev', aioEventStore r a true addr = .ok (r', cOk) ∧
      r'.aioEventFds a.fd = some ev' ∧ ev'.addr = ev.addr := by
  have hctx : ev.phpContext = none := waiter_eq_none.mp hw ev hev
  have hevents : ev.epEvent.events = 0 := (hr.slot _ _ hev).events_eq_zero.mpr hctx
  have hinterest : r.interest a.fd = none := hr.interest_of_idle hw
  unfold aioEventStore
  rw [if_neg (not_not.mpr hin)]
  simp only [hev, Option.getD_some, hevents, if_true, hinterest, and_self, storeWaiter, hctx]
  exact ⟨_, _, rfl, Function.update_self .., rfl⟩

theorem storeAndYield_yields {s : State} {frame : InternalCall} {a : StoreArgs} {addOk : Bool}
    {rg : EventTable} (h : aioEventStore s.rg a (addOk && s.epollfd.isSome) (a.context + 1) =
      .ok (rg, cOk)) :
    storeAndYield s frame a addOk = .ok (.yields { s with
      rg := rg
      next := a.context + 2
      contexts := Function.update s.contexts a.context (.saved (coroSave s))
      log := .suspended s.corog.currentCoro (.io a.fd) a.context :: s.log }) := by
  have hret : ¬ cOk < 0 := by decide
  simp only [storeAndYield, h, bind, Except.bind, if_neg hret]
  rfl

def readArgs (s : State) (fd : ℤ) : StoreArgs :=
  storeFunction (enterCall s callSite) fd .normal epollIn .socketRead [.stream (some fd), .long 10]

theorem phpStep_readCall {s : State} {fd : ℤ} (hfd : ¬ fd < 0) : phpStep s (readCall fd) =
    storeAndYield (enterCall s callSite) (callFrame s callSite) (readArgs s fd) true := by
  have hconv : cConvertToFd (.stream (some fd)) 0 = fd := if_neg hfd
  simp only [readCall, phpStep, socketRead, firstFd, List.head?_cons, deref, bind, Except.bind,
    pure, Except.pure, hconv, if_neg hfd]
  rfl

/-- `coro_yield` in a coroutine that `aio_invoke` switched to goes back to `aio_invoke`. -/
theorem coroYield_invoke {s : State} {x : Activation} {rest : List CFrame} {fd : ℤ} {c : Ptr}
    {ev : AioEvent} (hs : s.stack = .activation x :: rest) (hcp : s.checkPoint = some x.buf)
    (harmed : s.jmpBufs x.buf = .set x.id) (hsw : x.switch = .invoke fd ev.addr c)
    (hev : s.rg.aioEventFds fd = some ev) : coroYield s = .ok { s with
      eg := ⟨s.corog.originVmStack, s.eg.currentExecuteData⟩
      stack := rest
      corog := { s.corog with require := false }
      contexts := Function.update s.contexts c .free } := by
  have hunwind : unwind x.id s.stack = some (x, rest) := by
    rw [hs]
    exact if_pos rfl
  refine coroYield_eq_ok.mpr ⟨x, rest, jumpTarget_eq_ok.mpr ⟨x.buf, x.id, hcp, harmed, hunwind⟩, ?_⟩
  rw [hsw]
  simp only [returnFrom, aioInvokeTail, hev, deref, check, if_true, bind, Except.bind, pure,
    Except.pure]

/-- It reads again, and the event loop goes on with the frames of its call. -/
theorem Invoked.exists_read {s : State} {x : Activation} {fd : ℤ} {rest : List CFrame}
    (h : Invoked s x fd rest) : ∃ s', step s (readCall fd) = .ok s' ∧ s'.stack = rest ∧
      s'.eg.currentExecuteData = (callFrame s callSite).call :: s.eg.currentExecuteData := by
  obtain ⟨addr, c, ev, hsw, hev, rfl⟩ := h.slot
  have hopen : (enterCall s callSite).epollfd.isSome = true := Option.isSome_iff_ne_none.mpr h.epollfd
  obtain ⟨r', ev', hst, hev', haddr⟩ := store_idle (a := readArgs s fd)
    ((readArgs s fd).context + 1) h.table h.range h.idle hev
  have hy := phpStep_readCall (s := s) (not_lt.mpr h.range.1)
  rw [storeAndYield_yields (by rw [hopen]; exact hst)] at hy
  rw [step_eq_phpStep (phpRuns_of_activation h.stack) rfl, hy]
  -- the record that `aio_invoke` reads again is the same
  have hsw' : x.switch = .invoke (readArgs s fd).fd ev'.addr c := haddr.symm ▸ hsw
  exact ⟨_, coroYield_invoke h.stack h.checkPoint h.armed hsw' hev', rfl, rfl⟩

/-- A dispatch on an idle descriptor only turns to the next entry. -/
theorem sameRegisters_of_idle {s s₁ : State} {answer : Zval} {fd : ℤ}
    (hd : dispatchFd s = some fd) (hstep : step s (.loopStep answer) = .ok s₁)
    (hwait : s.rg.waiter fd = none) : depth s₁ = depth s ∧ SameRegisters s s₁ := by
  obtain ⟨l, stack, phase, hs, hinv⟩ := dispatch_cases hd hstep
  obtain ⟨_, ⟨_, rfl⟩ | ⟨ev, c, hev, hc, _⟩⟩ := aioInvoke_cases hinv
  · refine ⟨?_, rfl, rfl, rfl⟩
    rw [depth, depth, hs]
    rfl
  · have hev' : s.rg.aioEventFds fd = some ev := hev
    rw [waiter_eq_some.mpr ⟨ev, hev', hc⟩] at hwait
    cases hwait

theorem invoked_of_dispatch {s s₁ : State} {answer : Zval} {fd : ℤ} (hr : TableWf s.rg)
    (hw : Waiting s) (hd : dispatchFd s = some fd) (hstep : step s (.loopStep answer) = .ok s₁)
    (hwait : s.rg.waiter fd ≠ none) : ∃ x rest, Invoked s₁ x fd rest ∧ rest.length = depth s := by
  obtain ⟨l, stack, phase, hs, hinv⟩ := dispatch_cases hd hstep
  obtain ⟨hin, ⟨hnone, _⟩ | ⟨ev, c, hev, hc, hres⟩⟩ := aioInvoke_cases hinv
  · exact absurd hnone hwait
  have hev' : s.rg.aioEventFds fd = some ev := hev
  obtain ⟨ctx, current, frames, result, _, _, _, _, hj⟩ := cCoroResume_cases hres
  obtain ⟨buf, hbuf, _, rfl⟩ := setjmp_eq_ok.mp hj
  refine ⟨_, _, ⟨rfl, hbuf, Function.update_self .., fun hn => hwait (hw.idle hn fd), hin,
    hr.invokeTable fd, ?_, ev.addr, c, clearEvent ev, rfl, ?_, rfl⟩, ?_⟩
  · change (invokeTable s.rg fd).waiter fd = none
    rw [waiter_invokeTable, if_pos rfl]
  · change (invokeTable s.rg fd).aioEventFds fd = _
    rw [aioEventFds_invokeTable, slot_aioEventFree, if_pos rfl, hev']
    rfl
  · rw [depth, hs]
    rfl

/-- Whatever the coroutine does that is resumed, an `aio_invoke` returns with the registers
it was called with: that is so exactly if it resumes none. -/
theorem invoke_restores_iff_idle {s s₁ : State} {answer : Zval} {fd : ℤ}
    (h : Reached (fun _ _ => True) s) (hd : dispatchFd s = some fd)
    (hstep : step s (.loopStep answer) = .ok s₁) :
    (∀ s', Excursion step (fun _ _ => True) depth (depth s) s₁ s' → SameRegisters s s') ↔
      s.rg.waiter fd = none := by
  constructor
  · intro hsame
    by_contra hwait
    obtain ⟨x, rest, hinv, hdepth⟩ := invoked_of_dispatch (tableWf_of_reached h)
      (waiting_of_reached h) hd hstep hwait
    have hlt : ∀ t, t.stack = .activation x :: rest → depth s < depth t := by
      intro t ht
      have hlen : depth t = depth s + 1 := by
        rw [← hdepth]
        exact congrArg List.length ht
      omega
    -- it waits again at once, or in a function that it calls first
    obtain ⟨s₂, hs₂, hrest₂, hframes₂⟩ := hinv.exists_read
    obtain ⟨s₃, hs₃, hrest₃, hframes₃⟩ := (hinv.call callSite).exists_read
    have hcall : step s₁ (.call callSite) = .ok (enterCall s₁ callSite) := by
      rw [step_eq_phpStep (phpRuns_of_activation hinv.stack) rfl]
      rfl
    have h₂ := hsame s₂ (.next (hlt s₁ hinv.stack) trivial hs₂ (.done (by rw [depth, hrest₂, hdepth])))
    have h₃ := hsame s₃ (.next (hlt s₁ hinv.stack) trivial hcall (.next (hlt _ hinv.stack) trivial hs₃
      (.done (by rw [depth, hrest₃, hdepth]))))
    rw [h₂.eg] at hframes₂
    rw [h₃.eg, hframes₂] at hframes₃
    -- these are different numbers of frames
    have hlen := congrArg List.length hframes₃
    simp [enterCall] at hlen
  · intro hwait s' he
    obtain ⟨hdepth, hregs⟩ := sameRegisters_of_idle hd hstep hwait
    cases he with
    | done _ => exact hregs
    | next hlt _ _ _ => omega

def idleTimeoutRun : List Action := [.socketSetTimeout callSite (.stream (some 3)) 0 0 false,
  createCall 1, yieldCall, .eventLoop callSite, .epollWait [], .loopStep .null]

theorem invoke_restores_iff_idle_timeout : ∃ s s₁,
    runFrom step (initial 0 0) idleTimeoutRun = .ok s ∧ dispatchFd s = some 3 ∧
    step s (.loopStep .null) = .ok s₁ ∧ SameRegisters s s₁ := by
  obtain ⟨s, hrun, hs, hp⟩ := exists_reached idleTimeoutRun
    (fun s => dispatchFd s = some 3 ∧ s.rg.waiter 3 = none ∧
      isOkAnd (fun s₁ => depth s₁ = depth s) (step s (.loopStep .null))) (by decide)
  simp only [decide_eq_true_eq] at hp
  obtain ⟨hd, hwait, hstep⟩ := hp
  obtain ⟨s₁, hs₁, hdepth⟩ := exists_of_isOkAnd hstep
  exact ⟨s, s₁, hrun, hd, hs₁, (invoke_restores_iff_idle hs hd hs₁).mpr hwait s₁
    (.done (of_decide_eq_true hdepth))⟩

def deeperLoopRun : List Action :=
  [createCall 1, readCall 3, .call callSite, .eventLoop callSite, .epollWait [⟨epollIn, 3⟩]]

/-- The coroutine finishes: the function's frame is above `vm_stack_top`, and
`current_execute_data` is `NULL`. -/
theorem invoke_loses_frames : ∃ s s₁ s', runFrom step (initial 0 0) deeperLoopRun = .ok s ∧
    Reached (fun _ _ => True) s ∧ activations s.stack = [] ∧ dispatchFd s = some 3 ∧
    step s (.loopStep (.value 7)) = .ok s₁ ∧ step s₁ .finish = .ok s' ∧ depth s' = depth s ∧
    s'.eg.vm.top < s.eg.vm.top ∧ ¬ SameRegisters s s' := by
  obtain ⟨s, hrun, hs, hp⟩ := exists_reached deeperLoopRun
    (fun s => (activations s.stack).isEmpty ∧ dispatchFd s = some 3 ∧ isOkAnd (fun s₁ =>
      isOkAnd (fun s' => depth s' = depth s ∧ s'.eg.vm.top < s.eg.vm.top) (step s₁ .finish))
      (step s (.loopStep (.value 7)))) (by decide)
  simp only [decide_eq_true_eq, List.isEmpty_iff] at hp
  obtain ⟨hnil, hd, hstep⟩ := hp
  obtain ⟨s₁, hs₁, hfin⟩ := exists_of_isOkAnd hstep
  obtain ⟨s', hs', hp'⟩ := exists_of_isOkAnd hfin
  obtain ⟨hdepth, htop⟩ := of_decide_eq_true hp'
  refine ⟨s, s₁, s', hrun, hs, hnil, hd, hs₁, hs', hdepth, htop, fun hsame => ?_⟩
  rw [hsame.eg] at htop
  exact absurd htop (lt_irrefl _)

end Phpco
