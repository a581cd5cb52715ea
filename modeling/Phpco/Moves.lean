import Phpco.TableSteps

/-!
# What a step does to the coroutines

The table stays well formed in every run.  Given that, each step is one of a few
moves: it leaves the coroutines alone, enters or leaves `event_loop`, switches
to a coroutine, or suspends or finishes the one that runs.
-/

namespace Phpco
open Except EventTable

theorem tableWf_idle {r : EventTable} (h : ∀ fd, r.aioEventFds fd = none)
    (hi : ∀ fd, r.interest fd = none) : TableWf r where
  slot := by intro fd ev hev; simp [h] at hev
  interest := by intro fd e he; simp [hi] at he

theorem ioRequest_events {s : State} {a : Action} {q : StoreArgs} {addOk : Bool}
    (h : ioRequest s a = some (q, addOk)) : q.events ≠ 0 := by
  cases a <;> simp only [ioRequest, Option.map_eq_some_iff, Option.bind_eq_some_iff] at h
  case socketAccept =>
    obtain ⟨zfd, _, h⟩ := h
    cases h
    exact (by decide : epollIn ||| epollRdhup ≠ 0)
  case socketRead =>
    obtain ⟨zfd, _, h⟩ := h
    split_ifs at h
    cases h
    exact (by decide : epollIn ≠ 0)
  case socketWrite =>
    obtain ⟨zfd, _, h⟩ := h
    split_ifs at h
    cases h
    exact (by decide : epollOut ≠ 0)
  case prepare =>
    split_ifs at h
    cases h
    exact (by decide : epollOut ≠ 0)
  case fetchAll =>
    split_ifs at h
    cases h
    exact (by decide : epollOut ≠ 0)
  case sleep =>
    split_ifs at h
    all_goals
      cases h
      exact (by decide : epollIn ≠ 0)
  all_goals cases h

theorem tableWf_step {s s' : State} {a : Action} (hr : TableWf s.rg) (h : step s a = .ok s') :
    TableWf s'.rg := by
  cases tableMove h with
  | same hrg _ =>
    rw [hrg]
    exact hr
  | init _ _ _ _ _ hrg =>
    rw [hrg]
    exact tableWf_idle (fun _ => rfl) (fun _ => rfl)
  | store q addOk r r' ret hq hsame _ _ hst hrg _ =>
    rw [hrg]
    exact (hr.congr hsame.slots hsame.interest).store (ioRequest_events hq) hst
  | invoke answer fd _ _ _ hrg _ _ =>
    rw [hrg]
    exact hr.invokeTable fd
  | socketClose site io closed retval fd _ _ _ hrg _ =>
    rw [hrg]
    split_ifs
    · exact (hr.dropInterest fd).free fd
    · exact hr.free fd
  | closeFd fd _ hrg _ =>
    rw [hrg]
    exact hr.dropInterest fd

theorem tableWf_of_reached {ok : State → Action → Prop} {s : State} (h : Reached ok s) :
    TableWf s.rg :=
  h.invariant (fun _ ⟨_, _, _, _, hs⟩ => hs ▸ tableWf_initial) fun _ _ _ hr _ hstep =>
    tableWf_step hr hstep

/-- Nothing that concerns a coroutine changes, but for waiters that are lost. -/
structure Quiet (s s' : State) : Prop where
  corog : s'.corog = s.corog
  checkPoint : s'.checkPoint = s.checkPoint
  jmpBufs : s'.jmpBufs = s.jmpBufs
  contexts : s'.contexts = s.contexts
  tasks : s'.tasks = s.tasks
  cidContextMap : s'.cidContextMap = s.cidContextMap
  cids : s'.cids = s.cids
  next : s.next ≤ s'.next
  log : ∃ vs : List Zval, s'.log = vs.map .returned ++ s.log
  waiter : ∀ fd c, s'.rg.waiter fd = some c → s.rg.waiter fd = some c

/-- The vm stack page of the outermost frame. -/
def basePage (vm : VmStack) : List ExecuteData → Ptr
  | f :: g :: frames => basePage (freeCallFrame vm f) (g :: frames)
  | _ => vm.stack

/-- The code whose frames these are goes on. -/
def KeepsFrames (eg eg' : ExecutorGlobals) : Prop :=
  eg.currentExecuteData ≠ [] → eg'.currentExecuteData ≠ [] ∧
    basePage eg'.vm eg'.currentExecuteData = basePage eg.vm eg.currentExecuteData

theorem KeepsFrames.refl (eg : ExecutorGlobals) : KeepsFrames eg eg := fun h => ⟨h, rfl⟩

theorem keepsFrames_enterCall (s : State) (site : CallSite) :
    KeepsFrames s.eg (enterCall s site).eg := by
  intro h
  obtain ⟨f, frames, hf⟩ := List.exists_cons_of_ne_nil h
  refine ⟨by simp [enterCall], ?_⟩
  simp only [enterCall, callFrame, hf, basePage, freeCallFrame_pushCallFrame]

theorem eg_leaveCall {s s₁ : State} {site : CallSite} {v : Zval}
    (h : s₁.eg = (enterCall s site).eg) : (leaveCall s₁ (callFrame s site) v).eg = s.eg := by
  simp only [leaveCall, h, enterCall, callFrame, freeCallFrame_pushCallFrame]

/-- An I/O call has registered or found its descriptor taken, and calls `coro_yield`. -/
structure Blocks (s : State) (fd : ℤ) (c : Ptr) (s₁ : State) : Prop where
  corog : s₁.corog = s.corog
  checkPoint : s₁.checkPoint = s.checkPoint
  jmpBufs : s₁.jmpBufs = s.jmpBufs
  tasks : s₁.tasks = s.tasks
  cidContextMap : s₁.cidContextMap = s.cidContextMap
  cids : s₁.cids = s.cids
  stack : s₁.stack = s.stack
  eg : ∃ site, s₁.eg = (enterCall s site).eg
  fresh : s.next ≤ c ∧ c < s₁.next
  contexts : s₁.contexts = Function.update s.contexts c (.saved (coroSave s₁))
  log : s₁.log = .suspended s.corog.currentCoro (.io fd) c :: s.log
  waiter : ∀ fd' c', s₁.rg.waiter fd' = some c' →
    fd' = fd ∧ c' = c ∨ s.rg.waiter fd' = some c'

/-- The loop `l` goes on as `l'`: it takes the next entry of its batch, or gets a new one. -/
def GoesOn (s : State) (l l' : EventLoop) : Prop :=
  l'.frame = l.frame ∧ (l.TakesNext l' ∨ ∃ batch, mayReturn s batch ∧ l'.phase = .batch batch s.rg)

inductive Move (s : State) (a : Action) (s' : State) : Prop
  | quiet : Quiet s s' → s'.stack = s.stack → KeepsFrames s.eg s'.eg → Move s a s'
  | enterLoop (site : CallSite) : a = .eventLoop site → phpRuns s → Quiet s s' →
      s'.stack = .eventLoop ⟨callFrame s site, .wait, 0⟩ :: s.stack → Move s a s'
  | loop (l l' : EventLoop) (stack : List CFrame) : Quiet s s' →
      s.stack = .eventLoop l :: stack → s'.stack = .eventLoop l' :: stack → GoesOn s l l' →
      s'.eg = s.eg → Move s a s'
  | leaveLoop (l : EventLoop) (stack : List CFrame) : Quiet s s' →
      s.stack = .eventLoop l :: stack → s'.stack = stack →
      s'.eg = ⟨freeCallFrame s.eg.vm l.frame.call, l.frame.caller⟩ → Move s a s'
  | invoke (l l' : EventLoop) (stack : List CFrame) (fd : ℤ) (ev : AioEvent) (c : Ptr) (v : Zval) :
      s.stack = .eventLoop l :: stack → GoesOn s l l' → dispatchFd s = some fd →
      s.rg.aioEventFds fd = some ev → ev.phpContext = some c →
      cCoroResume { s with rg := invokeTable s.rg fd, stack := .eventLoop l' :: stack } c (some v)
        (.io fd) (.invoke fd ev.addr c) = .ok s' → Move s a s'
  | create (site : CallSite) (slots : ℕ) (callback : Zval) : a = .create site slots callback →
      phpRuns s →
      coroutineCreate (enterCall s site) (callFrame s site) slots callback = .ok s' → Move s a s'
  | resume (site : CallSite) (arg : ℤ) (c : Ptr) : a = .resume site arg → phpRuns s →
      inContextMap (toInt arg) → s.cidContextMap (toInt arg) = some c →
      cCoroResume (newCheckPoint (enterCall s site)) c none (.yield (toInt arg))
        (.resume (callFrame s site) s.checkPoint c (coroSave (enterCall s site)) s.corog.require) =
        .ok s' → Move s a s'
  | yield (site : CallSite) (s₁ : State) : a = .yield site → phpRuns s →
      coroutineYield (enterCall s site) = .ok s₁ → coroYield s₁ = .ok s' → Move s a s'
  | block (fd : ℤ) (c : Ptr) (s₁ : State) : isIo a = true → phpRuns s →
      phpStep s a = .ok (.yields s₁) → Blocks s fd c s₁ → coroYield s₁ = .ok s' → Move s a s'
  | finish (x : Activation) (stack : List CFrame) (base : ExecuteData) (s₁ : State) :
      a = .finish → s.stack = .activation x :: stack → s.eg.currentExecuteData = [base] →
      coroClose { s with eg := ⟨s.eg.vm, []⟩, stack := stack } = .ok s₁ →
      returnFrom s₁ x.switch coroEnd = .ok s' → Move s a s'

theorem quiet_enterCall (s : State) (site : CallSite) : Quiet s (enterCall s site) :=
  ⟨rfl, rfl, rfl, rfl, rfl, rfl, rfl, Nat.le_succ _, ⟨[], rfl⟩, fun _ _ h => h⟩

theorem Quiet.leaveCall {s s₁ : State} (h : Quiet s s₁) (frame : InternalCall) (v : Zval) :
    Quiet s (leaveCall s₁ frame v) := by
  obtain ⟨vs, hlog⟩ := h.log
  exact ⟨h.corog, h.checkPoint, h.jmpBufs, h.contexts, h.tasks, h.cidContextMap, h.cids, h.next,
    ⟨v :: vs, by simp [Phpco.leaveCall, hlog]⟩, h.waiter⟩

theorem move_returned {s s₁ : State} {a : Action} {site : CallSite} {v : Zval} (hq : Quiet s s₁)
    (hstack : s₁.stack = s.stack) (heg : s₁.eg = (enterCall s site).eg) :
    Move s a (leaveCall s₁ (callFrame s site) v) := by
  refine .quiet (hq.leaveCall _ _) hstack ?_
  rw [eg_leaveCall heg]
  exact .refl _

theorem waiter_socketClose {r : EventTable} {fd fd' : ℤ} {c : Ptr} {closed : Bool}
    (h : (aioEventFree (if closed then r.dropInterest fd else r) fd).waiter fd' = some c) :
    r.waiter fd' = some c := by
  rw [waiter_aioEventFree] at h
  split_ifs at h
  · exact h
  · exact h

theorem SameSlots.waiter {r r' : EventTable} (h : SameSlots r r') (fd : ℤ) :
    r'.waiter fd = r.waiter fd := by
  simp only [EventTable.waiter, h.slots]

theorem move_io {s s' : State} {a : Action} {o : Outcome} (hr : TableWf s.rg) (ha : isIo a = true)
    (hphp : phpRuns s) (h : phpStep s a = .ok o) (hs : settle o = .ok s') : Move s a s' := by
  cases ioStep ha h with
  | refused site v ho =>
    subst ho
    cases hs
    exact move_returned (quiet_enterCall s site) rfl rfl
  | asked site r q addOk hq hsame hlt hst =>
    have hwf : TableWf r := hr.congr hsame.slots hsame.interest
    obtain ⟨rg, ret, hstore, ⟨hret, rfl⟩ | ⟨hret, rfl⟩⟩ := storeAndYield_cases hst
    · cases hs
      refine move_returned ⟨rfl, rfl, rfl, rfl, rfl, rfl, rfl, ?_, ⟨[], rfl⟩, ?_⟩ rfl rfl
      · exact Nat.le_add_right_of_le hlt.le
      · intro fd c hc
        obtain ⟨_, ⟨_, hw, rfl⟩ | ⟨rfl, _⟩ | ⟨rfl, _⟩⟩ := aioEventStore_cases hwf hstore
        · simp only at hc
          rw [waiter_setSlot_none hw, hsame.waiter] at hc
          exact hc
        · exact absurd hret (by decide)
        · exact absurd hret (by decide)
    · refine .block q.fd q.context _ ha hphp h ⟨rfl, rfl, rfl, rfl, rfl, rfl, rfl, ⟨site, rfl⟩,
        ⟨hlt.le, Nat.lt_add_of_pos_right (by decide)⟩, rfl, rfl, ?_⟩ hs
      · intro fd c hc
        obtain ⟨_, ⟨rfl, _⟩ | ⟨_, _, _, _, ev, _, _, rfl⟩ | ⟨_, _, rfl⟩⟩ :=
          aioEventStore_cases hwf hstore
        · exact absurd hret (by decide)
        · simp only [waiter_registerSlot] at hc
          split_ifs at hc with hfd
          · cases hc
            exact .inl ⟨hfd, rfl⟩
          · exact .inr (hsame.waiter fd ▸ hc)
        · exact .inr (hsame.waiter fd ▸ hc)

theorem move_php {s s' : State} {a : Action} {o : Outcome} (ha : isIo a = false)
    (hphp : phpRuns s) (h : phpStep s a = .ok o) (hs : settle o = .ok s') : Move s a s' := by
  cases phpStep_cases ha h with
  | call site =>
    cases hs
    exact .quiet (quiet_enterCall s site) rfl (keepsFrames_enterCall s site)
  | ret call caller rest hex =>
    cases hs
    refine .quiet ⟨rfl, rfl, rfl, rfl, rfl, rfl, rfl, le_rfl, ⟨[], rfl⟩, fun _ _ h => h⟩ rfl ?_
    intro _
    exact ⟨by simp, by rw [hex]; rfl⟩
  | finish x stack base s₁ s₂ hstack hex hc hret =>
    cases hs
    exact .finish x stack base s₁ rfl hstack hex hc hret
  | create site slots callback s₁ hc =>
    cases hs
    exact .create site slots callback rfl hphp hc
  | getCurrentCid site cid _ =>
    cases hs
    exact move_returned (quiet_enterCall s site) rfl rfl
  | yield site s₁ hy => exact .yield site s₁ rfl hphp hy hs
  | neverYielded site arg _ =>
    cases hs
    exact move_returned (quiet_enterCall s site) rfl rfl
  | resume site arg c s₁ hin hc hres =>
    cases hs
    exact .resume site arg c rfl hphp hin hc hres
  | socketSetTimeout site obj garbage timeout persistent =>
    cases hs
    exact move_returned ⟨rfl, rfl, rfl, rfl, rfl, rfl, rfl, Nat.le_add_right s.next 3, ⟨[], rfl⟩,
      fun _ _ h => h⟩ rfl rfl
  | socketClose site io closed retval fd _ _ =>
    cases hs
    exact move_returned ⟨rfl, rfl, rfl, rfl, rfl, rfl, rfl, Nat.le_succ _, ⟨[], rfl⟩,
      fun fd' c h => waiter_socketClose h⟩ rfl rfl
  | closeFd fd =>
    cases hs
    exact .quiet ⟨rfl, rfl, rfl, rfl, rfl, rfl, rfl, le_rfl, ⟨[], rfl⟩, fun _ _ h => h⟩ rfl (.refl _)
  | eventLoop site =>
    cases hs
    have hq := quiet_enterCall s site
    exact .enterLoop site rfl hphp ⟨hq.corog, hq.checkPoint, hq.jmpBufs, hq.contexts, hq.tasks,
      hq.cidContextMap, hq.cids, hq.next, hq.log, hq.waiter⟩ rfl

theorem move_loop {s s' : State} {a : Action} {l : EventLoop} {stack : List CFrame} {answer : Zval}
    (hs : s.stack = .eventLoop l :: stack) (h : LoopMove s l stack answer s') : Move s a s' := by
  obtain ⟨_, _, rfl⟩ | ⟨l', timeouts, hf, hnext, _, rfl⟩ | ⟨fd, phase, hd, hnext, hinv⟩ := h
  · exact .leaveLoop l stack ⟨rfl, rfl, rfl, rfl, rfl, rfl, rfl, le_rfl, ⟨[.null], rfl⟩,
      fun _ _ h => h⟩ hs rfl rfl
  · exact .loop l l' stack ⟨rfl, rfl, rfl, rfl, rfl, rfl, rfl, le_rfl, ⟨[], rfl⟩, fun _ _ h => h⟩
      hs rfl ⟨hf, .inl hnext⟩ rfl
  · obtain ⟨_, ⟨_, rfl⟩ | ⟨ev, c, hev, hc, hres⟩⟩ := aioInvoke_cases hinv
    · refine .loop l { l with phase := phase } stack ⟨rfl, rfl, rfl, rfl, rfl, rfl, rfl, le_rfl,
        ⟨[], rfl⟩, ?_⟩ hs rfl ⟨rfl, .inl hnext⟩ rfl
      intro fd' c h
      simp only [waiter_invokeTable] at h
      split_ifs at h
      exact h
    · exact .invoke l { l with phase := phase } stack fd ev c _ hs ⟨rfl, .inl hnext⟩ hd
        hev hc hres

theorem step_move {s s' : State} {a : Action} (hr : TableWf s.rg) (h : step s a = .ok s') :
    Move s a s' := by
  obtain ⟨now, clock, rfl, rfl⟩ | ⟨batch, l, stack, rfl, hs, _, hm, rfl⟩ |
    ⟨answer, l, stack, rfl, hs, hl⟩ | ⟨hphp, o, ho, hs⟩ := step_cases h
  · exact .quiet ⟨rfl, rfl, rfl, rfl, rfl, rfl, rfl, le_rfl, ⟨[], rfl⟩, fun _ _ h => h⟩ rfl (.refl _)
  · exact .loop l { l with phase := .batch batch s.rg } stack ⟨rfl, rfl, rfl, rfl, rfl, rfl, rfl,
      le_rfl, ⟨[], rfl⟩, fun _ _ h => h⟩ hs rfl ⟨rfl, .inr ⟨batch, hm, rfl⟩⟩ rfl
  · exact move_loop hs hl
  · cases ha : isIo a with
    | true => exact move_io hr ha hphp ho hs
    | false => exact move_php ha hphp ho hs

theorem log_returnFrom {s s' : State} {switch : Switch} {ret : ℤ} (hret : 0 ≤ ret)
    (h : returnFrom s switch ret = .ok s') :
    s'.log = s.log ∨ s'.log = .returned (.bool true) :: s.log := by
  cases switch with
  | create frame prevCheckpoint ctx required callback =>
    obtain ⟨buf, tasks, _, _, rfl⟩ := coroutineCreateTail_cases hret h
    exact .inr rfl
  | resume frame prevCheckpoint context ctx required =>
    obtain ⟨buf, _, rfl⟩ := coroutineResumeTail_cases h
    exact .inr rfl
  | invoke fd event context =>
    obtain ⟨_, rfl⟩ := aioInvokeTail_cases h
    exact .inl rfl

theorem log_coroYield {s s' : State} (h : coroYield s = .ok s') :
    s'.log = s.log ∨ s'.log = .returned (.bool true) :: s.log := by
  obtain ⟨x, stack, _, hret⟩ := coroYield_eq_ok.mp h
  exact log_returnFrom (s := { s with
    eg := ⟨s.corog.originVmStack, s.eg.currentExecuteData⟩
    stack := stack }) (by decide) hret

theorem returned_of_log {log log' : List Event} {v : Zval}
    (h : log' = log ∨ log' = .returned v :: log) : ∃ vs : List Zval, log' = vs.map .returned ++ log := by
  rcases h with rfl | rfl
  · exact ⟨[], rfl⟩
  · exact ⟨[v], rfl⟩

theorem suffix_of_returned {log log' : List Event} {v : Zval}
    (h : log' = log ∨ log' = .returned v :: log) : log <:+ log' := by
  obtain ⟨vs, hlog⟩ := returned_of_log h
  exact ⟨_, hlog.symm⟩

theorem log_coroutineCreate {s s' : State} {frame : InternalCall} {slots : ℕ} {callback : Zval}
    (h : coroutineCreate s frame slots callback = .ok s') : s.log <:+ s'.log := by
  have hi := ensureInit_log s
  obtain ⟨cid, cids, _, ⟨_, _, ht⟩ | ⟨_, hj⟩⟩ := coroutineCreate_cases h
  · obtain ⟨buf, tasks, _, _, rfl⟩ := coroutineCreateTail_cases (by decide) ht
    exact hi ▸ List.suffix_cons _ _
  · rw [(log_setjmp hj).1]
    exact hi ▸ List.suffix_cons _ _

theorem log_cCoroResume {s s' : State} {c : Ptr} {retval : Option Zval} {w : Wait} {switch : Switch}
    (h : cCoroResume s c retval w switch = .ok s') :
    ∃ t act result, s'.log = .switched t w c act result :: s.log := by
  obtain ⟨ctx, current, frames, result, _, _, _, _, hj⟩ := cCoroResume_cases h
  exact ⟨_, _, _, (log_setjmp hj).1⟩

theorem log_step {s s' : State} {a : Action} (hr : TableWf s.rg) (h : step s a = .ok s') :
    s.log <:+ s'.log := by
  have hquiet : Quiet s s' → s.log <:+ s'.log := by
    intro hq
    obtain ⟨vs, hlog⟩ := hq.log
    exact ⟨_, hlog.symm⟩
  cases step_move hr h with
  | quiet hq _ _ => exact hquiet hq
  | enterLoop _ _ _ hq _ => exact hquiet hq
  | loop _ _ _ hq _ _ _ _ => exact hquiet hq
  | leaveLoop _ _ hq _ _ _ => exact hquiet hq
  | invoke _ _ _ _ _ _ _ _ _ _ _ _ hres =>
    obtain ⟨_, _, _, hlog⟩ := log_cCoroResume hres
    exact hlog ▸ List.suffix_cons _ _
  | create site slots callback _ _ hc => exact log_coroutineCreate (s := enterCall s site) hc
  | resume _ _ _ _ _ _ _ hres =>
    obtain ⟨_, _, _, hlog⟩ := log_cCoroResume hres
    exact hlog ▸ List.suffix_cons _ _
  | yield site s₁ _ _ hy hc =>
    obtain ⟨t, task, _, _, _, rfl⟩ := coroutineYield_cases hy
    exact (List.suffix_cons _ s.log).trans (suffix_of_returned (log_coroYield hc))
  | block fd c s₁ _ _ _ hb hc =>
    have hs : s.log <:+ s₁.log := hb.log ▸ List.suffix_cons _ _
    exact hs.trans (suffix_of_returned (log_coroYield hc))
  | finish x stack base s₁ _ _ _ hc hret =>
    obtain ⟨t, task, retval, _, _, _, rfl⟩ := coroClose_eq_ok.mp hc
    exact (List.suffix_cons _ s.log).trans (suffix_of_returned (log_returnFrom (by decide) hret))

end Phpco
