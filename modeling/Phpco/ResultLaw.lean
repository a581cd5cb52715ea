import Phpco.CallLaw
import Phpco.StackSteps

/-!
# The event that `aio_invoke` reads again

After `coro_resume` returned, `aio_invoke` looks up in its event whether there
is a result to destroy.  The coroutine it resumed may have registered on the same
descriptor by then: that keeps the event as it is needed if the registration is
accepted and names a function exactly if the one before did.
-/

namespace Phpco
open Except EventTable Transition

/-- Whether `aio_invoke` destroys `result`, as it reads that in its event after `coro_resume`. -/
def destroysResult (r : EventTable) (fd : ℤ) (event : Ptr) : Except Halt Bool := do
  let ev ← deref (r.aioEventFds fd) .useAfterFree
  check (ev.addr = event) .useAfterFree
  return ev.functionName.isSome

theorem aioInvokeTail_eq (s : State) (fd : ℤ) (event context : Ptr) :
    aioInvokeTail s fd event context = destroysResult s.rg fd event >>= fun _ =>
      .ok { s with contexts := Function.update s.contexts context .free } := by
  unfold aioInvokeTail destroysResult
  cases hev : s.rg.aioEventFds fd with
  | none =>
    simp only [hev, deref]
    rfl
  | some ev =>
    by_cases haddr : ev.addr = event
    · simp only [hev, deref, check, bind, Except.bind, if_pos haddr]
      rfl
    · simp only [hev, deref, check, bind, Except.bind, if_neg haddr]

/-- The event of the dispatch that took out the context `c` is still allocated, and says
whether the dispatch called a function. -/
structure EventKept (r : EventTable) (fd : ℤ) (event c : Ptr) : Prop where
  dispatched : ∃ call, .invoked fd call (some c) ∈ r.log
  destroys : ∀ call, .invoked fd call (some c) ∈ r.log →
    destroysResult r fd event = .ok call.isSome

/-- An `aio_invoke` that waits for `coro_resume` to return. -/
def Dispatching (s : State) (fd : ℤ) (event c : Ptr) : Prop :=
  ∃ x ∈ activations s.stack, x.switch = .invoke fd event c

/-- A registration on an idle slot whose `aio_invoke` has not returned is accepted, and
names a function exactly if the slot does. -/
def KeepsEvents (s : State) (a : Action) : Prop :=
  ∀ q addOk event c, ioRequest s a = some (q, addOk) → Dispatching s q.fd event c →
    s.rg.waiter q.fd = none → (addOk && s.epollfd.isSome) = true ∧
      ∀ ev, s.rg.aioEventFds q.fd = some ev → ev.functionName.isSome = q.functionName.isSome

/-- The activation whose `coro_resume` or `coro_create` returns in this step of PHP code,
and the waiter table then. -/
inductive HandsBack (s : State) (a : Action) : Activation → EventTable → Prop
  | yields {s₁ : State} {x : Activation} {stack : List CFrame} :
      phpStep s a = .ok (.yields s₁) → jumpTarget s₁ = .ok (x, stack) → HandsBack s a x s₁.rg
  | finish {s₁ : State} {x : Activation} {stack : List CFrame} : a = .finish →
      s.stack = .activation x :: stack →
      coroClose { s with eg := ⟨s.eg.vm, []⟩, stack := stack } = .ok s₁ → HandsBack s a x s₁.rg

variable {s s' s₁ : State} {a : Action} {r r' : EventTable} {fd : ℤ} {event c : Ptr}
  {ok : State → Action → Prop}

theorem destroysResult_eq_ok {b : Bool} : destroysResult r fd event = .ok b ↔
    ∃ ev, r.aioEventFds fd = some ev ∧ ev.addr = event ∧ ev.functionName.isSome = b := by
  simp only [destroysResult, bind_eq_ok, deref_eq_ok, check_eq_ok, pure, Except.pure, Except.ok.injEq]
  constructor
  · rintro ⟨ev, hev, _, haddr, hb⟩
    exact ⟨ev, hev, haddr, hb⟩
  · rintro ⟨ev, hev, haddr, hb⟩
    exact ⟨ev, hev, (), haddr, hb⟩

theorem EventKept.slot (h : EventKept r fd event c) :
    ∃ ev, r.aioEventFds fd = some ev ∧ ev.addr = event := by
  obtain ⟨call, hcall⟩ := h.dispatched
  obtain ⟨ev, hev, haddr, _⟩ := destroysResult_eq_ok.mp (h.destroys call hcall)
  exact ⟨ev, hev, haddr⟩

theorem EventKept.congr (h : EventKept r fd event c)
    (hslot : ∀ ev, r.aioEventFds fd = some ev → ∃ ev', r'.aioEventFds fd = some ev' ∧
      ev'.addr = ev.addr ∧ ev'.functionName.isSome = ev.functionName.isSome)
    (hlog : ∀ call, .invoked fd call (some c) ∈ r'.log ↔ .invoked fd call (some c) ∈ r.log) :
    EventKept r' fd event c := by
  obtain ⟨call, hcall⟩ := h.dispatched
  refine ⟨⟨call, (hlog call).mpr hcall⟩, fun call' hcall' => ?_⟩
  obtain ⟨ev, hev, haddr, hname⟩ := destroysResult_eq_ok.mp (h.destroys call' ((hlog call').mp hcall'))
  obtain ⟨ev', hev', haddr', hname'⟩ := hslot ev hev
  exact destroysResult_eq_ok.mpr ⟨ev', hev', haddr'.trans haddr, hname'.trans hname⟩

theorem EventKept.of_same (h : EventKept r fd event c) (hslots : r'.aioEventFds = r.aioEventFds)
    (hlog : r'.log = r.log) : EventKept r' fd event c :=
  h.congr (fun ev hev => ⟨ev, by rw [hslots, hev], rfl, rfl⟩) fun call => by rw [hlog]

theorem EventKept.free (h : EventKept r fd event c) (fd' : ℤ) :
    EventKept (aioEventFree r fd') fd event c := by
  obtain ⟨es, hes, hrel⟩ := log_aioEventFree_releases r fd'
  refine h.congr (fun ev hev => ?_) fun call => ?_
  · rw [slot_aioEventFree]
    split_ifs with hfd
    · exact ⟨clearEvent ev, by rw [← hfd, hev]; rfl, rfl, rfl⟩
    · exact ⟨ev, hev, rfl, rfl⟩
  · rw [hes, List.mem_append]
    refine ⟨fun hmem => hmem.resolve_left fun hnew => ?_, .inr⟩
    cases hrel _ hnew

theorem EventKept.invokeTable (h : EventKept r fd event c) {fd' : ℤ}
    (hother : r.waiter fd' ≠ some c) : EventKept (invokeTable r fd') fd event c := by
  cases hev : r.aioEventFds fd' with
  | none =>
    have hsame : Phpco.invokeTable r fd' = r := by simp [Phpco.invokeTable, hev]
    rwa [hsame]
  | some ev =>
    have hlog := log_invokeTable hev
    refine (h.free fd').congr (fun ev' hev' => ?_) fun call => ?_
    · exact ⟨ev', by rw [aioEventFds_invokeTable, hev'], rfl, rfl⟩
    · rw [hlog, List.mem_cons]
      refine ⟨fun hmem => hmem.resolve_left fun hnew => hother ?_, .inr⟩
      simp only [TableEvent.invoked.injEq] at hnew
      exact waiter_eq_some.mpr ⟨ev, hev, hnew.2.2.symm⟩

/-- What `_aio_event_store` makes of a record that is there. -/
theorem record_aioEventStore {q : StoreArgs} {addOk : Bool} {addr : Ptr} {ret : ℤ} {ev : AioEvent}
    (hr : TableWf r) (hev : r.aioEventFds q.fd = some ev)
    (h : aioEventStore r q addOk addr = .ok (r', ret)) :
    (r.waiter q.fd ≠ none ∧ r' = r) ∨ (r.waiter q.fd = none ∧ addOk = false ∧
      r'.aioEventFds q.fd = none) ∨
    (r.waiter q.fd = none ∧ addOk = true ∧ ∃ ev', r'.aioEventFds q.fd = some ev' ∧
      ev'.addr = ev.addr ∧ ev'.functionName = q.functionName) := by
  have hwf := hr.slot _ _ hev
  unfold aioEventStore at h
  by_cases hin : inTable q.fd
  case neg => simp [hin] at h
  rw [if_neg (not_not.mpr hin)] at h
  simp only [hev, Option.getD_some] at h
  by_cases hz : ev.epEvent.events = 0
  · have hctx : ev.phpContext = none := hwf.events_eq_zero.mp hz
    have hw : r.waiter q.fd = none := by simp [waiter, hev, hctx]
    have hinterest : r.interest q.fd = none := hr.interest_of_idle hw
    rw [if_pos hz] at h
    cases addOk with
    | false =>
      simp only [Bool.false_eq_true, false_and, if_false] at h
      cases h
      exact .inr (.inl ⟨hw, rfl, Function.update_self ..⟩)
    | true =>
      simp only [hinterest, and_self, if_true, storeWaiter, hctx] at h
      cases h
      exact .inr (.inr ⟨hw, rfl, _, Function.update_self .., rfl, rfl⟩)
  · rw [if_neg hz] at h
    have hctx := hwf.events.mp hz
    simp only [storeWaiter, if_neg hctx] at h
    cases h
    exact .inl ⟨by simp [waiter, hev, hctx], setSlot_self hev⟩

theorem invoked_aioEventStore {q : StoreArgs} {addOk : Bool} {addr : Ptr} {ret : ℤ}
    (hr : TableWf r) (h : aioEventStore r q addOk addr = .ok (r', ret)) (call : Option PhpCall) :
    .invoked fd call (some c) ∈ r'.log ↔ .invoked fd call (some c) ∈ r.log := by
  obtain ⟨_, ⟨_, _, rfl⟩ | ⟨_, _, _, _, ev, _, _, rfl⟩ | ⟨_, _, rfl⟩⟩ := aioEventStore_cases hr h
  · rfl
  · simp [registerSlot]
  · rfl

/-- A registration keeps the event of a dispatch exactly if it is on another descriptor, finds
a waiter there, or is accepted and names a function exactly if the event does. -/
theorem eventKept_store_iff {q : StoreArgs} {addOk : Bool} {addr : Ptr} {ret : ℤ} (hr : TableWf r)
    (h : aioEventStore r q addOk addr = .ok (r', ret)) (hk : EventKept r fd event c) :
    EventKept r' fd event c ↔ (fd = q.fd → r.waiter q.fd = none → addOk = true ∧
      ∀ ev, r.aioEventFds q.fd = some ev → ev.functionName.isSome = q.functionName.isSome) := by
  by_cases hfd : fd = q.fd
  · subst hfd
    obtain ⟨ev, hev, haddr⟩ := hk.slot
    rcases record_aioEventStore hr hev h with ⟨hw, rfl⟩ | ⟨hw, rfl, hnone⟩ | ⟨hw, rfl, ev', hev', haddr', hname⟩
    · exact ⟨fun _ _ hw' => absurd hw' hw, fun _ => hk⟩
    · constructor
      · intro hk'
        obtain ⟨ev', hev', _⟩ := hk'.slot
        rw [hnone] at hev'
        cases hev'
      · intro hcond
        cases (hcond rfl hw).1
    · constructor
      · intro hk' _ _
        refine ⟨rfl, fun ev₀ hev₀ => ?_⟩
        obtain ⟨call, hcall⟩ := hk.dispatched
        obtain ⟨ev₁, hev₁, _, hb₁⟩ := destroysResult_eq_ok.mp (hk.destroys call hcall)
        obtain ⟨ev₂, hev₂, _, hb₂⟩ := destroysResult_eq_ok.mp
          (hk'.destroys call ((invoked_aioEventStore hr h call).mpr hcall))
        cases hev₀.symm.trans hev₁
        cases hev'.symm.trans hev₂
        rw [hb₁, ← hb₂, hname]
      · intro hcond
        refine hk.congr (fun ev₀ hev₀ => ⟨ev', hev', ?_, ?_⟩) (invoked_aioEventStore hr h)
        · cases hev.symm.trans hev₀
          exact haddr'
        · rw [hname]
          exact ((hcond rfl hw).2 ev₀ hev₀).symm
  · refine ⟨fun _ hfd' => absurd hfd' hfd, fun _ => hk.congr (fun ev hev => ?_)
      (invoked_aioEventStore hr h)⟩
    exact ⟨ev, by rw [slot_aioEventStore hr h hfd, hev], rfl, rfl⟩

theorem stack_setjmp {switch : Switch} (h : setjmp s switch = .ok s') :
    ∃ x : Activation, x.switch = switch ∧ s'.stack = .activation x :: s.stack := by
  obtain ⟨buf, _, _, rfl⟩ := setjmp_eq_ok.mp h
  exact ⟨_, rfl, rfl⟩

theorem Dispatching.of_pushed {x : Activation} (hstack : s'.stack = .activation x :: s.stack)
    (hx : ∀ fd event c, x.switch ≠ .invoke fd event c) (h : Dispatching s' fd event c) :
    Dispatching s fd event c := by
  obtain ⟨y, hy, hsw⟩ := h
  rw [hstack] at hy
  rcases List.mem_cons.mp hy with rfl | hy
  · exact absurd hsw (hx fd event c)
  · exact ⟨y, hy, hsw⟩

theorem Dispatching.of_popped {x : Activation} (hstack : s.stack = .activation x :: s'.stack)
    (h : Dispatching s' fd event c) : Dispatching s fd event c := by
  obtain ⟨y, hy, hsw⟩ := h
  refine ⟨y, ?_, hsw⟩
  rw [hstack]
  exact List.mem_cons_of_mem _ hy

theorem Dispatching.of_same (hstack : activations s'.stack = activations s.stack)
    (h : Dispatching s' fd event c) : Dispatching s fd event c := by
  obtain ⟨y, hy, hsw⟩ := h
  exact ⟨y, hstack ▸ hy, hsw⟩

/-- An `aio_invoke` that waits has waited before, or has just taken its context out. -/
theorem dispatching_step (h : Reached ok s) (hstep : step s a = .ok s')
    (hd : Dispatching s' fd event c) : Dispatching s fd event c ∨
      ∃ ev, s.rg.aioEventFds fd = some ev ∧ ev.addr = event ∧ ev.phpContext = some c ∧
        s'.rg = invokeTable s.rg fd := by
  have hjumps := jumps_of_reached h
  cases step_move (tableWf_of_reached h) hstep with
  | quiet _ hs _ => exact .inl (hd.of_same (by rw [hs]))
  | enterLoop _ _ _ _ hs => exact .inl (hd.of_same (by rw [hs]; rfl))
  | loop _ _ _ _ hs hs' _ _ => exact .inl (hd.of_same (by rw [hs, hs']; rfl))
  | leaveLoop _ _ _ hs hs' _ => exact .inl (hd.of_same (by rw [hs, hs']; rfl))
  | invoke l l' stack fd' ev c' v hs _ _ hev hc hres =>
    have hrg := (unswitched_cCoroResume hres).rg
    obtain ⟨ctx, current, frames, result, _, _, _, _, hj⟩ := cCoroResume_cases hres
    obtain ⟨x, hx, hstack⟩ := stack_setjmp hj
    obtain ⟨y, hy, hsw⟩ := hd
    rw [hstack] at hy
    rcases List.mem_cons.mp hy with rfl | hy
    · rw [hx, Switch.invoke.injEq] at hsw
      obtain ⟨rfl, rfl, rfl⟩ := hsw
      exact .inr ⟨ev, hev, rfl, hc, hrg⟩
    · refine .inl ⟨y, ?_, hsw⟩
      rw [hs]
      exact hy
  | create site slots callback _ _ hc =>
    left
    obtain ⟨cid, cids, _, ⟨_, _, ht⟩ | ⟨_, hj⟩⟩ := coroutineCreate_cases hc
    · obtain ⟨buf, tasks, _, _, rfl⟩ := coroutineCreateTail_cases (by decide) ht
      exact hd.of_same (congrArg activations (ensureInit_stack (enterCall s site)))
    · obtain ⟨x, hx, hstack⟩ := stack_setjmp hj
      have hs : s'.stack = .activation x :: s.stack :=
        hstack.trans (congrArg _ (ensureInit_stack (enterCall s site)))
      exact hd.of_pushed hs (by simp [hx])
  | resume site arg c' _ _ _ _ hres =>
    left
    obtain ⟨ctx, current, frames, result, _, _, _, _, hj⟩ := cCoroResume_cases hres
    obtain ⟨x, hx, hstack⟩ := stack_setjmp hj
    exact hd.of_pushed hstack (by simp [hx])
  | yield site s₁ _ hphp hy hc =>
    obtain ⟨t, task, _, _, _, hs₁⟩ := coroutineYield_cases hy
    have hjumps₁ : Jumps s₁ := (hjumps.enterCall site).mono (by rw [hs₁]) (by rw [hs₁])
      (by rw [hs₁]) (by rw [hs₁]) (by rw [hs₁]; exact Nat.le_succ _)
    have hstack : s₁.stack = s.stack := by rw [hs₁]; rfl
    obtain ⟨_, x, hx⟩ := hjumps₁.coroYield (by rwa [phpRuns, hstack]) hc
    exact .inl (hd.of_popped (hstack.symm.trans hx))
  | block fd' c' s₁ _ hphp _ hbl hc =>
    have hjumps₁ : Jumps s₁ := hjumps.mono (by rw [hbl.stack]) hbl.checkPoint hbl.jmpBufs
      (by rw [hbl.corog]) (hbl.fresh.1.trans hbl.fresh.2.le)
    obtain ⟨_, x, hx⟩ := hjumps₁.coroYield (by rwa [phpRuns, hbl.stack]) hc
    exact .inl (hd.of_popped (hbl.stack.symm.trans hx))
  | finish x stack base s₁ _ hs _ hc hret =>
    obtain ⟨_, hstack⟩ := hjumps.finish hs hc hret
    exact .inl (hd.of_popped (by rw [hstack]; exact hs))

theorem not_invoked_of_invocations {log : List TableEvent} (h : invocations log c = 0)
    (call : Option PhpCall) : .invoked fd call (some c) ∉ log := by
  intro hmem
  rw [invocations, List.countP_eq_zero] at h
  exact h _ hmem (by simp [TableEvent.invokes])

/-- Right after the dispatch the event says whether it called a function. -/
theorem eventKept_invokeTable {ev : AioEvent} (hnames : NamesCall r) (hev : r.aioEventFds fd = some ev)
    (hc : ev.phpContext = some c) (hfresh : invocations r.log c = 0) :
    EventKept (invokeTable r fd) fd ev.addr c := by
  have hlog := log_invokeTable hev
  rw [hc] at hlog
  refine ⟨⟨invokeCall ev, hlog ▸ List.mem_cons_self⟩, fun call hcall => ?_⟩
  apply destroysResult_eq_ok.mpr
  refine ⟨clearEvent ev, by rw [aioEventFds_invokeTable, slot_aioEventFree, if_pos rfl, hev]; rfl,
    rfl, ?_⟩
  rw [hlog] at hcall
  rcases List.mem_cons.mp hcall with heq | hold
  · simp only [TableEvent.invoked.injEq, true_and, and_true] at heq
    rw [heq, Bool.eq_iff_iff, Option.isSome_iff_ne_none, Option.isSome_iff_ne_none]
    exact not_congr (hnames fd ev hev).symm
  · -- the context was pending, so no dispatch took it out before
    rw [← invocations_aioEventFree r fd] at hfresh
    exact absurd hold (not_invoked_of_invocations hfresh call)

theorem eventKept_step (h : Reached ok s) (hk : EventKept s.rg fd event c)
    (hd : Dispatching s fd event c) (hkeeps : KeepsEvents s a) (hstep : step s a = .ok s') :
    EventKept s'.rg fd event c := by
  have hr := tableWf_of_reached h
  cases tableMove hstep with
  | same hrg _ =>
    rw [hrg]
    exact hk
  | init site slots callback _ hcp _ =>
    -- before `coro_init` there are no activations
    obtain ⟨x, hx, _⟩ := hd
    rw [(jumps_of_reached h).activations_eq_nil hcp] at hx
    cases hx
  | store q addOk r r' ret hq hsame _ _ hst hrg _ =>
    rw [hrg]
    have hk' : EventKept r fd event c := hk.of_same hsame.slots hsame.log
    apply (eventKept_store_iff (hr.congr hsame.slots hsame.interest) hst hk').mpr
    rintro rfl hw
    rw [hsame.slots]
    rw [hsame.waiter] at hw
    exact hkeeps q addOk event c hq hd hw
  | invoke answer fd' _ _ _ hrg _ _ =>
    rw [hrg]
    apply hk.invokeTable
    intro hw
    -- a context that was taken out does not wait
    obtain ⟨call, hcall⟩ := hk.dispatched
    exact not_invoked_of_invocations ((pending_of_reached h).pending fd' c hw) call hcall
  | socketClose site io closed retval fd' _ _ _ hrg _ =>
    rw [hrg]
    apply EventKept.free
    split_ifs
    · exact hk.of_same rfl rfl
    · exact hk
  | closeFd fd' _ hrg _ =>
    rw [hrg]
    exact hk.of_same rfl rfl

theorem eventKept_of_reached (h : Reached KeepsEvents s) (hd : Dispatching s fd event c) :
    EventKept s.rg fd event c := by
  apply h.invariant_of (I := fun s => ∀ fd event c, Dispatching s fd event c →
    EventKept s.rg fd event c) _ _ fd event c hd
  · rintro s ⟨_, _, _, _, rfl⟩ fd event c ⟨x, hx, _⟩
    cases hx
  · intro s a s' hreach hall hkeeps hstep fd event c hd
    rcases dispatching_step hreach hstep hd with hd | ⟨ev, hev, rfl, hc, hrg⟩
    · exact eventKept_step hreach (hall fd event c hd) hd hkeeps hstep
    · rw [hrg]
      exact eventKept_invokeTable (namesCall_of_reached hreach) hev hc
        ((pending_of_reached hreach).pending fd c (waiter_eq_some.mpr ⟨ev, hev, hc⟩))

theorem handsBack_cases {x : Activation} (h : HandsBack s a x r) :
    x ∈ activations s.stack ∧ (r = s.rg ∨ ∃ q addOk r₀ ret addr, ioRequest s a = some (q, addOk) ∧
      SameSlots s.rg r₀ ∧
      aioEventStore r₀ q (addOk && s.epollfd.isSome) addr = .ok (r, ret)) := by
  cases h with
  | @yields s₁ _ stack hy hj =>
    obtain ⟨buf, act, _, _, hunwind⟩ := jumpTarget_eq_ok.mp hj
    have hx := (unwind_eq_some hunwind).1
    cases ha : isIo a with
    | true =>
      cases ioStep ha hy with
      | refused site v ho => cases ho
      | asked site r₀ q addOk hq hsame hlt hst =>
        obtain ⟨rg, ret, hstore, ⟨_, ho⟩ | ⟨_, ho⟩⟩ := storeAndYield_cases hst
        · cases ho
        · cases ho
          exact ⟨hx, .inr ⟨q, addOk, r₀, ret, _, hq, hsame, hstore⟩⟩
    | false =>
      cases phpStep_cases ha hy with
      | yield site _ hyield =>
        obtain ⟨t, task, _, _, _, rfl⟩ := coroutineYield_cases hyield
        exact ⟨hx, .inl rfl⟩
  | @finish s₁ _ stack ha hs hc =>
    obtain ⟨t, task, retval, _, _, _, rfl⟩ := coroClose_eq_ok.mp hc
    refine ⟨?_, .inl rfl⟩
    rw [hs]
    exact List.mem_cons_self

/-- In a run that keeps the events, an `aio_invoke` to which the coroutine it resumed
hands back finds its event allocated, and destroys a result exactly if it has one. -/
theorem event_kept_for_aio_invoke {x : Activation} (h : Reached KeepsEvents s)
    (hkeeps : KeepsEvents s a) (hback : HandsBack s a x r) (hx : x.switch = .invoke fd event c) :
    EventKept r fd event c := by
  obtain ⟨hmem, htable⟩ := handsBack_cases hback
  have hd : Dispatching s fd event c := ⟨x, hmem, hx⟩
  have hk := eventKept_of_reached h hd
  rcases htable with rfl | ⟨q, addOk, r₀, ret, addr, hq, hsame, hst⟩
  · exact hk
  · have hr := (tableWf_of_reached h).congr hsame.slots hsame.interest
    apply (eventKept_store_iff hr hst (hk.of_same hsame.slots hsame.log)).mpr
    rintro rfl hw
    rw [hsame.slots]
    rw [hsame.waiter] at hw
    exact hkeeps q addOk event c hq hd hw

def handsBackWith (p : ℤ → EventTable → Bool) (s : State) (a : Action) : Bool :=
  match phpStep s a with
  | .ok (.yields s₁) => match jumpTarget s₁ with
    | .ok (⟨_, _, _, .invoke fd _ _⟩, _) => p fd s₁.rg
    | _ => false
  | _ => false

theorem exists_handsBack {p : ℤ → EventTable → Bool} (h : handsBackWith p s a = true) :
    ∃ x r fd event c, HandsBack s a x r ∧ x.switch = .invoke fd event c ∧ p fd r = true := by
  unfold handsBackWith at h
  split at h
  · next s₁ hy =>
    split at h
    · next id task buf fd event c stack hj =>
      exact ⟨⟨id, task, buf, .invoke fd event c⟩, s₁.rg, fd, event, c, .yields hy hj, rfl, h⟩
    · cases h
  · cases h

def keepsEvents (s : State) (a : Action) : Bool :=
  (ioRequest s a).all fun q => q.2 && s.epollfd.isSome &&
    (s.rg.aioEventFds q.1.fd).all fun ev => ev.functionName.isSome == q.1.functionName.isSome

theorem keepsEvents_of_test (h : keepsEvents s a = true) : KeepsEvents s a := by
  intro q addOk event c hq _ _
  simp only [keepsEvents, hq, Option.all_some, Bool.and_eq_true] at h
  refine ⟨by simpa using h.1, fun ev hev => ?_⟩
  have hname := h.2
  rw [hev, Option.all_some] at hname
  exact eq_of_beq hname

def dispatchRun : List Action := [createCall 1, readCall 3, .eventLoop callSite,
  .epollWait [⟨epollIn, 3⟩], .loopStep (.value 7)]

theorem event_kept_for_aio_invoke_read : ∃ s x r fd event c,
    runFrom step (initial 0 0) dispatchRun = .ok s ∧ HandsBack s (readCall 3) x r ∧
    x.switch = .invoke fd event c ∧ EventKept r fd event c := by
  obtain ⟨s, hrun, hs, hp⟩ := exists_reached_of keepsEvents (fun _ _ => keepsEvents_of_test)
    dispatchRun (fun s => handsBackWith (fun _ _ => true) s (readCall 3) &&
      keepsEvents s (readCall 3)) (by decide)
  obtain ⟨hback, hkeeps⟩ := Bool.and_eq_true_iff.mp hp
  obtain ⟨x, r, fd, event, c, hback, hx, _⟩ := exists_handsBack hback
  exact ⟨s, x, r, fd, event, c, hrun, hback, hx,
    event_kept_for_aio_invoke hs (keepsEvents_of_test hkeeps) hback hx⟩

def refusedRun : List Action := dispatchRun ++ [.closeFd 3,
  .socketRead callSite ⟨[.long 3, .long 10], 0, false⟩]

/-- `aio_invoke` reads an event that the refusal has freed. -/
theorem event_lost_by_refusal : ∃ s x r fd event c,
    runFrom step (initial 0 0) refusedRun = .ok s ∧ Reached (fun _ _ => True) s ∧
    HandsBack s yieldCall x r ∧ x.switch = .invoke fd event c ∧ ¬ EventKept r fd event c := by
  obtain ⟨s, hrun, hs, hp⟩ := exists_reached refusedRun
    (fun s => handsBackWith (fun fd r => (r.aioEventFds fd).isNone) s yieldCall) (by decide)
  obtain ⟨x, r, fd, event, c, hback, hx, hnone⟩ := exists_handsBack hp
  refine ⟨s, x, r, fd, event, c, hrun, hs, hback, hx, fun hk => ?_⟩
  obtain ⟨ev, hev, _⟩ := hk.slot
  rw [hev] at hnone
  cases hnone

end Phpco
