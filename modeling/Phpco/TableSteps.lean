import Phpco.Steps

namespace Phpco
open Except EventTable

/-- The table and the addresses in use are the same before and after. -/
structure SameTable (s s' : State) : Prop where
  rg : s'.rg = s.rg
  epollfd : s'.epollfd = s.epollfd
  next : s'.next = s.next

theorem sameTable_returnFrom {s s' : State} {switch : Switch} {ret : ℤ} (hret : 0 ≤ ret)
    (h : returnFrom s switch ret = .ok s') : SameTable s s' := by
  obtain ⟨hu, _, hnext⟩ := unswitched_returnFrom hret h
  exact ⟨hu.rg, hu.epollfd, hnext⟩

theorem sameTable_coroYield {s s' : State} (h : coroYield s = .ok s') : SameTable s s' := by
  obtain ⟨hu, hnext⟩ := unswitched_coroYield h
  exact ⟨hu.rg, hu.epollfd, hnext⟩

theorem sameTable_coroClose {s s' : State} (h : coroClose s = .ok s') : SameTable s s' := by
  obtain ⟨t, task, retval, _, _, _, rfl⟩ := coroClose_eq_ok.mp h
  exact ⟨rfl, rfl, rfl⟩

theorem rg_coroutineCreate {s s' : State} {frame : InternalCall} {slots : ℕ} {callback : Zval}
    (h : coroutineCreate s frame slots callback = .ok s') :
    s'.rg = (ensureInit s).rg ∧ s'.epollfd = (ensureInit s).epollfd := by
  obtain ⟨cid, cids, _, ⟨_, _, ht⟩ | ⟨_, hj⟩⟩ := coroutineCreate_cases h
  · obtain ⟨buf, tasks, _, _, rfl⟩ := coroutineCreateTail_cases (by decide) ht
    exact ⟨rfl, rfl⟩
  · have hu := unswitched_setjmp hj
    exact ⟨hu.rg, hu.epollfd⟩

theorem rg_coroutineYield {s s' : State} (h : coroutineYield s = .ok s') :
    s'.rg = s.rg ∧ s'.epollfd = s.epollfd := by
  unfold coroutineYield at h
  obtain ⟨cid, _, h⟩ := bind_eq_ok.mp h
  obtain ⟨_, _, h⟩ := bind_eq_ok.mp h
  cases h
  exact ⟨rfl, rfl⟩

/-- The registration that an I/O call asks for, if it gets that far, and whether the
kernel accepts it. -/
def ioRequest (s : State) : Action → Option (StoreArgs × Bool)
  | .socketAccept site io => io.arguments.head?.map fun zfd =>
    (storeFunction (enterCall s site) (cConvertToFd zfd io.garbage) .accept
      (epollIn ||| epollRdhup) .socketAccept io.arguments, io.addOk)
  | .socketRead site io => io.arguments.head?.bind fun zfd =>
    if cConvertToFd zfd io.garbage < 0 then none
    else some (storeFunction (enterCall s site) (cConvertToFd zfd io.garbage) .normal epollIn
      .socketRead io.arguments, io.addOk)
  | .socketWrite site io => io.arguments.head?.bind fun zfd =>
    if cConvertToFd zfd io.garbage < 0 then none
    else some (storeFunction (enterCall s site) (cConvertToFd zfd io.garbage) .normal epollOut
      .socketWrite io.arguments, io.addOk)
  | .prepare site origin io =>
    if cConvertToFd origin io.garbage < 0 then none
    else some (storeObject (enterCall s site) (cConvertToFd origin io.garbage) origin .pdo .prepare
      io.arguments, io.addOk)
  | .fetchAll site origin io =>
    if cConvertToFd origin io.garbage < 0 then none
    else some (storeObject (enterCall s site) (cConvertToFd origin io.garbage) origin .pdoStatement
      .fetchAll io.arguments, io.addOk)
  | .sleep site timeout tfd clockOk addOk =>
    if timeout ≤ 0 then none
    else some (storeTimer (enterCall s site)
      (createTimerfd s.rg tfd (if clockOk then some s.clock else none) timeout).2.1, addOk)
  | _ => none

/-- The slots, the interest set and the record of the table. -/
structure SameSlots (r r' : EventTable) : Prop where
  slots : r'.aioEventFds = r.aioEventFds
  interest : r'.interest = r.interest
  log : r'.log = r.log

theorem SameSlots.refl (r : EventTable) : SameSlots r r := ⟨rfl, rfl, rfl⟩

theorem sameSlots_timers (r : EventTable) (tfd fd : ℤ) (clock value : Option Timespec)
    (interval : ℤ) :
    SameSlots r (timerfdSettime (createTimerfd r tfd clock interval).1 fd value) := by
  have hset : ∀ r', SameSlots r r' → SameSlots r (timerfdSettime r' fd value) := by
    intro r' h
    unfold timerfdSettime
    split
    · split_ifs
      · exact ⟨h.slots, h.interest, h.log⟩
      · exact h
    · exact h
  apply hset
  unfold createTimerfd
  split_ifs
  · exact .refl r
  · cases clock <;> exact ⟨rfl, rfl, rfl⟩

theorem storeAndYield_cases {s : State} {frame : InternalCall} {a : StoreArgs} {addOk : Bool}
    {o : Outcome} (h : storeAndYield s frame a addOk = .ok o) :
    ∃ rg ret, aioEventStore s.rg a (addOk && s.epollfd.isSome) (a.context + 1) = .ok (rg, ret) ∧
      ((ret < 0 ∧
          o = .returned { s with rg := rg, next := a.context + 2 } frame (.bool false)) ∨
       (0 ≤ ret ∧ o = .yields { s with
          rg := rg
          next := a.context + 2
          contexts := Function.update s.contexts a.context (.saved (coroSave s))
          log := .suspended s.corog.currentCoro (.io a.fd) a.context :: s.log })) := by
  unfold storeAndYield at h
  obtain ⟨⟨rg, ret⟩, hst, h⟩ := bind_eq_ok.mp h
  refine ⟨rg, ret, hst, ?_⟩
  by_cases hret : ret < 0
  · simp only [if_pos hret] at h
    cases h
    exact .inl ⟨hret, rfl⟩
  · simp only [if_neg hret] at h
    cases h
    exact .inr ⟨by omega, rfl⟩

/-- An I/O call is refused before it reaches the table, or asks for its registration. -/
inductive IoStep (s : State) (a : Action) (o : Outcome) : Prop
  | refused (site : CallSite) (v : Zval) :
      o = .returned (enterCall s site) (callFrame s site) v → IoStep s a o
  | asked (site : CallSite) (r : EventTable) (q : StoreArgs) (addOk : Bool) :
      ioRequest s a = some (q, addOk) → SameSlots s.rg r → s.next < q.context →
      storeAndYield { enterCall s site with rg := r } (callFrame s site) q addOk = .ok o →
      IoStep s a o

def isIo : Action → Bool
  | .socketAccept _ _ => true
  | .socketRead _ _ => true
  | .socketWrite _ _ => true
  | .prepare _ _ _ => true
  | .fetchAll _ _ _ => true
  | .sleep _ _ _ _ _ => true
  | _ => false

theorem isIo_of_ioRequest {s : State} {a : Action} {q : StoreArgs} {addOk : Bool}
    (h : ioRequest s a = some (q, addOk)) : isIo a = true := by
  cases a <;> first | rfl | cases h

theorem firstFd_eq_ok {io : IoArgs} {fd : ℤ} :
    firstFd io = .ok fd ↔ ∃ zfd, io.arguments.head? = some zfd ∧ cConvertToFd zfd io.garbage = fd := by
  simp only [firstFd, bind_eq_ok, deref_eq_ok, pure, Except.pure, Except.ok.injEq]

theorem IoStep.of_converted {s : State} {a : Action} {o : Outcome} {site : CallSite} {fd : ℤ}
    {q : StoreArgs} {addOk : Bool} (hq : ¬ fd < 0 → ioRequest s a = some (q, addOk))
    (hctx : s.next < q.context)
    (h : (if fd < 0 then .ok (.returned (enterCall s site) (callFrame s site) (.bool false))
      else storeAndYield (enterCall s site) (callFrame s site) q addOk) = .ok o) : IoStep s a o := by
  by_cases hneg : fd < 0
  · rw [if_pos hneg] at h
    cases h
    exact .refused site _ rfl
  · rw [if_neg hneg] at h
    exact .asked site s.rg _ _ (hq hneg) (.refl _) hctx h

theorem ioStep {s : State} {a : Action} {o : Outcome} (ha : isIo a = true)
    (h : phpStep s a = .ok o) : IoStep s a o := by
  cases a with
  | socketAccept site io =>
    obtain ⟨fd, hfd, h⟩ := bind_eq_ok.mp h
    obtain ⟨zfd, hz, rfl⟩ := firstFd_eq_ok.mp hfd
    exact .asked site s.rg _ _ (by rw [ioRequest, hz]; rfl) (.refl _) (Nat.lt_succ_self _) h
  | socketRead site io =>
    obtain ⟨fd, hfd, h⟩ := bind_eq_ok.mp h
    obtain ⟨zfd, hz, rfl⟩ := firstFd_eq_ok.mp hfd
    refine .of_converted (fun hneg => ?_) (Nat.lt_succ_self _) h
    rw [ioRequest, hz]
    exact if_neg hneg
  | socketWrite site io =>
    obtain ⟨fd, hfd, h⟩ := bind_eq_ok.mp h
    obtain ⟨zfd, hz, rfl⟩ := firstFd_eq_ok.mp hfd
    refine .of_converted (fun hneg => ?_) (Nat.lt_succ_self _) h
    rw [ioRequest, hz]
    exact if_neg hneg
  | prepare site origin io =>
    refine .of_converted (fun hneg => ?_) (Nat.lt_succ_self _) h
    exact if_neg hneg
  | fetchAll site origin io =>
    refine .of_converted (fun hneg => ?_) (Nat.lt_succ_self _) h
    exact if_neg hneg
  | sleep site timeout tfd clockOk addOk =>
    by_cases hle : timeout ≤ 0
    · simp only [phpStep, coroutineSleep, if_pos hle] at h
      cases h
      exact .refused site _ rfl
    · simp only [phpStep, coroutineSleep, if_neg hle] at h
      obtain ⟨_, _, h⟩ := bind_eq_ok.mp h
      exact .asked site _ _ _ (if_neg hle) (sameSlots_timers _ _ _ _ _ _)
        (Nat.lt_succ_of_lt (Nat.lt_succ_self _)) h
  | _ => simp [isIo] at ha

/-- What a step of `event_loop` does. -/
inductive LoopStep (s : State) (l : EventLoop) (stack : List CFrame) (answer : Zval) (s' : State) :
    Prop
  | leaves : l.phase = .wait → 1000 ≤ l.test →
      s' = leaveCall { s with stack := stack } l.frame .null → LoopStep s l stack answer s'
  | passBegins (since : EventTable) : l.phase = .batch [] since →
      s' = setPhase s l stack (.timeouts s.now s.timeouts.link.front none) →
      LoopStep s l stack answer s'
  | skips (e : EpollEvent) (events : List EpollEvent) (since : EventTable) :
      l.phase = .batch (e :: events) since → ¬ dispatched e →
      s' = setPhase s l stack (.batch events since) → LoopStep s l stack answer s'
  | dispatches (e : EpollEvent) (events : List EpollEvent) (since : EventTable) :
      l.phase = .batch (e :: events) since → dispatched e →
      aioInvoke (setPhase s l stack (.batch events since)) e.dataFd answer = .ok s' →
      LoopStep s l stack answer s'
  | passEnds (now : ℤ) (f : Option Ptr) : l.phase = .timeouts now none f →
      s' = { s with stack := .eventLoop { l with phase := .wait, test := l.test + 1 } :: stack } →
      LoopStep s l stack answer s'
  | passesOver (now : ℤ) (q : Ptr) (f : Option Ptr) (node : Node) (element : TimeoutElement) :
      l.phase = .timeouts now (some q) f → s.timeouts.link.nodes q = some node →
      s.timeouts.elements node.data = some element → now < element.lastTime + element.timeout →
      s' = setPhase s l stack (.timeouts now node.next (some q)) → LoopStep s l stack answer s'
  | fires (now : ℤ) (q : Ptr) (f : Option Ptr) (node : Node) (element : TimeoutElement) :
      l.phase = .timeouts now (some q) f → s.timeouts.link.nodes q = some node →
      s.timeouts.elements node.data = some element → element.lastTime + element.timeout ≤ now →
      aioInvoke (setPhase s l stack (.expired now q f)) element.fd answer = .ok s' →
      LoopStep s l stack answer s'
  | reaps (now : ℤ) (q : Ptr) (f : Option Ptr) (timeouts : Timeouts) (node : Node) :
      l.phase = .expired now q f → reapTimeout s q f = .ok timeouts →
      timeouts.link.nodes q = some node →
      s' = setPhase { s with timeouts := timeouts } l stack (.timeouts now node.next (some q)) →
      LoopStep s l stack answer s'

theorem eventLoopStep_cases {s s' : State} {l : EventLoop} {stack : List CFrame} {answer : Zval}
    (h : eventLoopStep s l stack answer = .ok s') : LoopStep s l stack answer s' := by
  unfold eventLoopStep at h
  cases hp : l.phase with
  | wait =>
    simp only [hp] at h
    split_ifs at h with htest
    cases h
    exact .leaves hp (by omega) rfl
  | batch events since =>
    cases events with
    | nil =>
      simp only [hp, Except.ok.injEq] at h
      exact .passBegins since hp h.symm
    | cons e events =>
      simp only [hp] at h
      by_cases hd : dispatched e
      · rw [if_pos hd] at h
        exact .dispatches e events since hp hd h
      · rw [if_neg hd, Except.ok.injEq] at h
        exact .skips e events since hp hd h.symm
  | timeouts now q f =>
    cases q with
    | none =>
      simp only [hp, Except.ok.injEq] at h
      exact .passEnds now f hp h.symm
    | some q =>
      simp only [hp] at h
      obtain ⟨node, hnode, h⟩ := bind_eq_ok.mp h
      obtain ⟨element, hel, h⟩ := bind_eq_ok.mp h
      rw [deref_eq_ok] at hnode hel
      by_cases hexp : element.lastTime + element.timeout ≤ now
      · rw [if_pos hexp] at h
        exact .fires now q f node element hp hnode hel hexp h
      · rw [if_neg hexp] at h
        cases h
        exact .passesOver now q f node element hp hnode hel (by omega) rfl
  | expired now q f =>
    simp only [hp] at h
    obtain ⟨timeouts, hreap, h⟩ := bind_eq_ok.mp h
    obtain ⟨node, hnode, h⟩ := bind_eq_ok.mp h
    cases h
    exact .reaps now q f timeouts node hp hreap (deref_eq_ok.mp hnode) rfl

/-- The descriptor on which the next step of the event loop invokes. -/
def dispatchFd (s : State) : Option ℤ :=
  match s.stack with
  | .eventLoop l :: _ =>
    match l.phase with
    | .batch (e :: _) _ => if dispatched e then some e.dataFd else none
    | .timeouts now (some q) _ =>
      ((s.timeouts.link.nodes q).bind fun node => s.timeouts.elements node.data).bind fun element =>
        if element.lastTime + element.timeout ≤ now then some element.fd else none
    | _ => none
  | _ => none

def EventLoop.TakesNext (l l' : EventLoop) : Prop :=
  ∀ events since, l'.phase = .batch events since → ∃ e, l.phase = .batch (e :: events) since

/-- A step of the event loop turns to the next entry or phase, or is an `aio_invoke`. -/
inductive LoopMove (s : State) (l : EventLoop) (stack : List CFrame) (answer : Zval) (s' : State) :
    Prop
  | left : l.phase = .wait → 1000 ≤ l.test → s' = leaveCall { s with stack := stack } l.frame .null →
      LoopMove s l stack answer s'
  | turned (l' : EventLoop) (timeouts : Timeouts) : l'.frame = l.frame → l.TakesNext l' →
      dispatchFd s = none →
      s' = { s with stack := .eventLoop l' :: stack, timeouts := timeouts } →
      LoopMove s l stack answer s'
  | invoked (fd : ℤ) (phase : LoopPhase) : dispatchFd s = some fd →
      l.TakesNext { l with phase := phase } →
      aioInvoke (setPhase s l stack phase) fd answer = .ok s' →
      LoopMove s l stack answer s'

theorem loopMove {s s' : State} {l : EventLoop} {stack : List CFrame} {answer : Zval}
    (hs : s.stack = .eventLoop l :: stack) (h : eventLoopStep s l stack answer = .ok s') :
    LoopMove s l stack answer s' := by
  cases eventLoopStep_cases h with
  | leaves hp htest hs' => exact .left hp htest hs'
  | passBegins since hp hs' =>
    exact .turned { l with phase := .timeouts s.now s.timeouts.link.front none } s.timeouts rfl
      (by rintro _ _ ⟨⟩) (by simp [dispatchFd, hs, hp]) hs'
  | skips e events since hp hd hs' =>
    exact .turned { l with phase := .batch events since } s.timeouts rfl
      (by rintro _ _ ⟨⟩; exact ⟨e, hp⟩) (by simp [dispatchFd, hs, hp, hd]) hs'
  | dispatches e events since hp hd hinv =>
    refine .invoked e.dataFd (.batch events since) (by simp [dispatchFd, hs, hp, hd]) ?_ hinv
    rintro _ _ ⟨⟩
    exact ⟨e, hp⟩
  | passEnds now f hp hs' =>
    exact .turned { l with phase := .wait, test := l.test + 1 } s.timeouts rfl
      (by rintro _ _ ⟨⟩) (by simp [dispatchFd, hs, hp]) hs'
  | passesOver now q f node element hp hnode hel hlt hs' =>
    have hexp : ¬ element.lastTime + element.timeout ≤ now := by omega
    exact .turned { l with phase := .timeouts now node.next (some q) } s.timeouts rfl
      (by rintro _ _ ⟨⟩) (by simp [dispatchFd, hs, hp, hnode, hel, hexp]) hs'
  | fires now q f node element hp hnode hel hexp hinv =>
    refine .invoked element.fd (.expired now q f) ?_ ?_ hinv
    · simp [dispatchFd, hs, hp, hnode, hel, hexp]
    · rintro _ _ ⟨⟩
  | reaps now q f timeouts node hp _ _ hs' =>
    exact .turned { l with phase := .timeouts now node.next (some q) } timeouts rfl
      (by rintro _ _ ⟨⟩) (by simp [dispatchFd, hs, hp]) hs'

/-- The clocks, a batch, the event loop, or PHP code. -/
theorem step_cases {s s' : State} {a : Action} (h : step s a = .ok s') :
    (∃ now clock, a = .tick now clock ∧ s' = { s with now := now, clock := clock }) ∨
    (∃ batch l stack, a = .epollWait batch ∧ s.stack = .eventLoop l :: stack ∧ l.phase = .wait ∧
      mayReturn s batch ∧ s' = setPhase s l stack (.batch batch s.rg)) ∨
    (∃ answer l stack, a = .loopStep answer ∧ s.stack = .eventLoop l :: stack ∧
      LoopMove s l stack answer s') ∨
    (phpRuns s ∧ ∃ o, phpStep s a = .ok o ∧ settle o = .ok s') := by
  have hphp : (match s.stack with
      | .eventLoop _ :: _ => (.error .notHere : Except Halt State)
      | _ => phpStep s a >>= settle) = .ok s' →
      phpRuns s ∧ ∃ o, phpStep s a = .ok o ∧ settle o = .ok s' := by
    intro h
    split at h
    · cases h
    · next hn => exact ⟨fun l stack => hn l stack, bind_eq_ok.mp h⟩
  cases a with
  | tick now clock =>
    obtain ⟨_, _, h⟩ := bind_eq_ok.mp h
    cases h
    exact .inl ⟨now, clock, rfl, rfl⟩
  | epollWait batch =>
    simp only [step] at h
    split at h
    · next frame test stack hs =>
      obtain ⟨_, hm, h⟩ := bind_eq_ok.mp h
      cases h
      exact .inr (.inl ⟨batch, ⟨frame, .wait, test⟩, stack, rfl, hs, rfl, (check_eq_ok.mp hm).2, rfl⟩)
    · cases h
  | loopStep answer =>
    simp only [step] at h
    split at h
    · next l stack hs => exact .inr (.inr (.inl ⟨answer, l, stack, rfl, hs, loopMove hs h⟩))
    · cases h
  | _ => exact .inr (.inr (.inr (hphp h)))

theorem phpRuns_of_stack {s : State} (h : s.stack = []) : phpRuns s := by
  intro l stack hs
  simp [h] at hs

theorem phpRuns_of_activation {s : State} {x : Activation} {stack : List CFrame}
    (h : s.stack = .activation x :: stack) : phpRuns s := by
  intro l rest hs
  simp [h] at hs

def isPhp : Action → Bool
  | .tick _ _ => false
  | .epollWait _ => false
  | .loopStep _ => false
  | _ => true

theorem php_step_cases {s s' : State} {a : Action} (ha : isPhp a = true)
    (h : step s a = .ok s') : phpRuns s ∧ ∃ o, phpStep s a = .ok o ∧ settle o = .ok s' := by
  obtain ⟨_, _, rfl, _⟩ | ⟨_, _, _, rfl, _⟩ | ⟨_, _, _, rfl, _⟩ | hphp := step_cases h
  · cases ha
  · cases ha
  · cases ha
  · exact hphp

theorem phpRuns_of_step {s s' : State} {a : Action} (ha : isPhp a = true)
    (h : step s a = .ok s') : phpRuns s := (php_step_cases ha h).1

theorem loop_step_cases {s s' : State} {answer : Zval} (h : step s (.loopStep answer) = .ok s') :
    ∃ l stack, s.stack = .eventLoop l :: stack ∧ LoopMove s l stack answer s' := by
  obtain ⟨_, _, ha, _⟩ | ⟨_, _, _, ha, _⟩ | ⟨_, l, stack, ha, hs, hl⟩ | ⟨_, o, ho, _⟩ := step_cases h
  · cases ha
  · cases ha
  · cases ha
    exact ⟨l, stack, hs, hl⟩
  · cases ho

theorem step_eq_phpStep {s : State} {a : Action} (hphp : phpRuns s) (ha : isPhp a = true) :
    step s a = phpStep s a >>= settle := by
  have hmatch : (match s.stack with
      | .eventLoop _ :: _ => (.error .notHere : Except Halt State)
      | _ => phpStep s a >>= settle) = phpStep s a >>= settle := by
    split
    · next l stack hs => exact absurd hs (hphp l stack)
    · rfl
  cases a with
  | tick now clock => cases ha
  | epollWait batch => cases ha
  | loopStep answer => cases ha
  | _ => exact hmatch

theorem runs_bind (x : Except Halt State) :
    ((x >>= fun s' => pure (Outcome.runs s')) >>= settle) = x := by
  cases x <;> rfl

/-- How a step changes the table and `RG.epollfd`. -/
inductive TableMove (s : State) (a : Action) (s' : State) : Prop
  | same : s'.rg = s.rg → s'.epollfd = s.epollfd → TableMove s a s'
  | init (site : CallSite) (slots : ℕ) (callback : Zval) : a = .create site slots callback →
      s.checkPoint = none →
      s'.rg = { s.rg with aioEventFds := fun _ => none, interest := fun _ => none } →
      TableMove s a s'
  | store (q : StoreArgs) (addOk : Bool) (r r' : EventTable) (ret : ℤ) :
      ioRequest s a = some (q, addOk) → SameSlots s.rg r → s.next < q.context →
      q.context < s'.next →
      aioEventStore r q (addOk && s.epollfd.isSome) (q.context + 1) = .ok (r', ret) →
      s'.rg = r' → s'.epollfd = s.epollfd → TableMove s a s'
  | invoke (answer : Zval) (fd : ℤ) : a = .loopStep answer → dispatchFd s = some fd → inTable fd →
      s'.rg = invokeTable s.rg fd → s'.epollfd = s.epollfd →
      (∀ c, s.rg.waiter fd = some c →
        ∃ t act result, s'.log = .switched t (.io fd) c act result :: s.log) →
      TableMove s a s'
  | socketClose (site : CallSite) (io : IoArgs) (closed : Bool) (retval : Zval) (fd : ℤ) :
      a = .socketClose site io closed retval → firstFd io = .ok fd → inTable fd →
      s'.rg = aioEventFree (if closed then s.rg.dropInterest fd else s.rg) fd →
      s'.epollfd = s.epollfd → TableMove s a s'
  | closeFd (fd : ℤ) : a = .closeFd fd → s'.rg = s.rg.dropInterest fd → s'.epollfd = s.epollfd →
      TableMove s a s'

theorem log_setjmp {s s' : State} {switch : Switch} (h : setjmp s switch = .ok s') :
    s'.log = s.log ∧ s'.next = s.next + 1 := by
  obtain ⟨buf, _, _, rfl⟩ := setjmp_eq_ok.mp h
  exact ⟨rfl, rfl⟩

theorem aioInvoke_cases {s s' : State} {fd : ℤ} {answer : Zval}
    (h : aioInvoke s fd answer = .ok s') :
    inTable fd ∧ ((s.rg.waiter fd = none ∧ s' = { s with rg := invokeTable s.rg fd }) ∨
      ∃ ev c, s.rg.aioEventFds fd = some ev ∧ ev.phpContext = some c ∧
        cCoroResume { s with rg := invokeTable s.rg fd } c (some (invokeResult ev answer)) (.io fd)
          (.invoke fd ev.addr c) = .ok s') := by
  unfold aioInvoke at h
  obtain ⟨_, hin, h⟩ := bind_eq_ok.mp h
  refine ⟨check_eq_ok.mp hin, ?_⟩
  cases hslot : s.rg.aioEventFds fd with
  | none =>
    simp only [hslot] at h
    cases h
    exact .inl ⟨by simp [waiter, hslot], by simp [invokeTable, hslot]⟩
  | some ev =>
    simp only [hslot] at h
    cases hc : ev.phpContext with
    | none =>
      simp only [hc] at h
      cases h
      exact .inl ⟨by simp [waiter, hslot, hc], rfl⟩
    | some c =>
      simp only [hc] at h
      exact .inr ⟨ev, c, rfl, hc, h⟩

/-- What `aio_invoke` does to the table, and that it resumes the waiter it took out. -/
theorem aioInvoke_table {s s' : State} {fd : ℤ} {answer : Zval}
    (h : aioInvoke s fd answer = .ok s') :
    inTable fd ∧ s'.rg = invokeTable s.rg fd ∧ s'.epollfd = s.epollfd ∧
      ∀ c, s.rg.waiter fd = some c →
        ∃ t act result, s'.log = .switched t (.io fd) c act result :: s.log := by
  obtain ⟨hin, ⟨hw, rfl⟩ | ⟨ev, c, hev, hc, hres⟩⟩ := aioInvoke_cases h
  · refine ⟨hin, rfl, rfl, fun c hc => ?_⟩
    rw [hw] at hc
    cases hc
  · have hu := unswitched_cCoroResume hres
    refine ⟨hin, hu.rg, hu.epollfd, fun c' hc' => ?_⟩
    have hcc : c' = c := by
      obtain ⟨ev', hev', hc'⟩ := waiter_eq_some.mp hc'
      rw [hev] at hev'
      cases hev'
      exact Option.some.inj (hc'.symm.trans hc)
    obtain ⟨ctx, current, frames, result, _, _, _, _, hj⟩ := cCoroResume_cases hres
    exact ⟨ctx.task, _, result, hcc ▸ (log_setjmp hj).1⟩

theorem tableMove_loop {s s' : State} {l : EventLoop} {stack : List CFrame} {answer : Zval}
    (h : LoopMove s l stack answer s') : TableMove s (.loopStep answer) s' := by
  obtain ⟨_, _, rfl⟩ | ⟨l', timeouts, _, _, _, rfl⟩ | ⟨fd, phase, hd, _, hinv⟩ := h
  · exact .same rfl rfl
  · exact .same rfl rfl
  · obtain ⟨hin, hrg, hfd, hlog⟩ := aioInvoke_table hinv
    exact .invoke answer fd rfl hd hin hrg hfd hlog

theorem dispatch_cases {s s' : State} {answer : Zval} {fd : ℤ} (hd : dispatchFd s = some fd)
    (h : step s (.loopStep answer) = .ok s') :
    ∃ l stack phase, s.stack = .eventLoop l :: stack ∧
      aioInvoke (setPhase s l stack phase) fd answer = .ok s' := by
  obtain ⟨l, stack, hs, hl⟩ := loop_step_cases h
  obtain ⟨hp, _, _⟩ | ⟨_, _, _, _, hnone, _⟩ | ⟨fd', phase, hd', _, hinv⟩ := hl
  · simp [dispatchFd, hs, hp] at hd
  · rw [hnone] at hd
    cases hd
  · obtain rfl : fd' = fd := Option.some.inj (hd'.symm.trans hd)
    exact ⟨l, stack, phase, hs, hinv⟩

theorem step_dispatch {s s' : State} {answer : Zval} {fd : ℤ} (hd : dispatchFd s = some fd)
    (h : step s (.loopStep answer) = .ok s') :
    s'.rg = invokeTable s.rg fd ∧ ∀ c, s.rg.waiter fd = some c →
      ∃ t act result, s'.log = .switched t (.io fd) c act result :: s.log := by
  obtain ⟨l, stack, phase, _, hinv⟩ := dispatch_cases hd h
  obtain ⟨_, hrg, _, hlog⟩ := aioInvoke_table hinv
  exact ⟨hrg, hlog⟩

/-- The step of the event loop that resumes `c` is an `aio_invoke` of its record. -/
theorem resume_of_switched {s s' : State} {answer : Zval} {τ : Option Ptr} {fd : ℤ} {c act : Ptr}
    {result : Option Zval} (h : step s (.loopStep answer) = .ok s')
    (hlog : s'.log = .switched τ (.io fd) c act result :: s.log) :
    dispatchFd s = some fd ∧ ∃ l stack phase ev, s.rg.aioEventFds fd = some ev ∧
      ev.phpContext = some c ∧ cCoroResume { setPhase s l stack phase with rg := invokeTable s.rg fd } c
        (some (invokeResult ev answer)) (.io fd) (.invoke fd ev.addr c) = .ok s' := by
  obtain ⟨l, stack, hs, hl⟩ := loop_step_cases h
  obtain ⟨_, _, rfl⟩ | ⟨l', timeouts, _, _, _, rfl⟩ | ⟨fd', phase, hd, _, hinv⟩ := hl
  · cases hlog
  · exact absurd hlog.symm (List.cons_ne_self _ _)
  · obtain ⟨_, ⟨_, rfl⟩ | ⟨ev, c', hev, hc', hres⟩⟩ := aioInvoke_cases hinv
    · exact absurd hlog.symm (List.cons_ne_self _ _)
    · obtain ⟨ctx, current, frames, result', _, _, _, _, hj⟩ := cCoroResume_cases hres
      have hlog' := (log_setjmp hj).1
      rw [hlog] at hlog'
      obtain ⟨rfl, rfl⟩ : fd = fd' ∧ c = c' := by
        simp only [resumed, List.cons.injEq, Event.switched.injEq, Wait.io.injEq] at hlog'
        exact ⟨hlog'.1.2.1, hlog'.1.2.2.1⟩
      exact ⟨hd, l, stack, phase, ev, hev, hc', hres⟩

theorem tableMove_io {s s' : State} {a : Action} {o : Outcome} (ha : isIo a = true)
    (h : phpStep s a = .ok o) (hs : settle o = .ok s') : TableMove s a s' := by
  cases ioStep ha h with
  | refused site v ho =>
    subst ho
    cases hs
    exact .same rfl rfl
  | asked site r q addOk hq hr hlt hst =>
    obtain ⟨rg, ret, hstore, ⟨_, rfl⟩ | ⟨_, rfl⟩⟩ := storeAndYield_cases hst
    · cases hs
      exact .store q addOk r rg ret hq hr hlt (by simp [leaveCall]) hstore rfl rfl
    · have hy := sameTable_coroYield hs
      exact .store q addOk r rg ret hq hr hlt (by rw [hy.next]; simp) hstore hy.rg hy.epollfd

/-- What a step of PHP code does that waits for no descriptor. -/
inductive PhpStep (s : State) : Action → Outcome → Prop
  | call (site : CallSite) : PhpStep s (.call site) (.runs (enterCall s site))
  | ret (call caller : ExecuteData) (rest : List ExecuteData) :
      s.eg.currentExecuteData = call :: caller :: rest →
      PhpStep s .ret (.runs { s with eg := ⟨freeCallFrame s.eg.vm call, caller :: rest⟩ })
  | finish (x : Activation) (stack : List CFrame) (base : ExecuteData) (s₁ s₂ : State) :
      s.stack = .activation x :: stack → s.eg.currentExecuteData = [base] →
      coroClose { s with eg := ⟨s.eg.vm, []⟩, stack := stack } = .ok s₁ →
      returnFrom s₁ x.switch coroEnd = .ok s₂ → PhpStep s .finish (.runs s₂)
  | create (site : CallSite) (slots : ℕ) (callback : Zval) (s₁ : State) :
      coroutineCreate (enterCall s site) (callFrame s site) slots callback = .ok s₁ →
      PhpStep s (.create site slots callback) (.runs s₁)
  | getCurrentCid (site : CallSite) (cid : ℤ) : getCurrentCid s = .ok cid →
      PhpStep s (.getCurrentCid site) (.returned (enterCall s site) (callFrame s site) (.long cid))
  | yield (site : CallSite) (s₁ : State) : coroutineYield (enterCall s site) = .ok s₁ →
      PhpStep s (.yield site) (.yields s₁)
  | neverYielded (site : CallSite) (arg : ℤ) : s.cidContextMap (toInt arg) = none →
      PhpStep s (.resume site arg) (.returned (enterCall s site) (callFrame s site) (.bool false))
  | resume (site : CallSite) (arg : ℤ) (c : Ptr) (s₁ : State) : inContextMap (toInt arg) →
      s.cidContextMap (toInt arg) = some c →
      cCoroResume (newCheckPoint (enterCall s site)) c none (.yield (toInt arg))
        (.resume (callFrame s site) s.checkPoint c (coroSave (enterCall s site)) s.corog.require) =
        .ok s₁ → PhpStep s (.resume site arg) (.runs s₁)
  | socketSetTimeout (site : CallSite) (obj : Zval) (garbage timeout : ℤ) (persistent : Bool) :
      PhpStep s (.socketSetTimeout site obj garbage timeout persistent)
        (.returned (socketSetTimeout (enterCall s site) obj garbage timeout persistent)
          (callFrame s site) (.bool true))
  | socketClose (site : CallSite) (io : IoArgs) (closed : Bool) (retval : Zval) (fd : ℤ) :
      firstFd io = .ok fd → inTable fd →
      PhpStep s (.socketClose site io closed retval) (.returned { enterCall s site with
        rg := aioEventFree (if closed then s.rg.dropInterest fd else s.rg) fd }
        (callFrame s site) retval)
  | closeFd (fd : ℤ) : PhpStep s (.closeFd fd) (.runs { s with rg := s.rg.dropInterest fd })
  | eventLoop (site : CallSite) : PhpStep s (.eventLoop site) (.runs { enterCall s site with
      stack := .eventLoop ⟨callFrame s site, .wait, 0⟩ :: s.stack })

theorem phpStep_cases {s : State} {a : Action} {o : Outcome} (ha : isIo a = false)
    (h : phpStep s a = .ok o) : PhpStep s a o := by
  cases a with
  | call site =>
    cases h
    exact .call site
  | ret =>
    simp only [phpStep] at h
    split at h
    · next call caller rest hex =>
      cases h
      exact .ret call caller rest hex
    · cases h
  | finish =>
    simp only [phpStep] at h
    split at h
    · next x stack base hstack hex =>
      obtain ⟨s₁, hc, h⟩ := bind_eq_ok.mp h
      obtain ⟨s₂, hret, h⟩ := bind_eq_ok.mp h
      cases h
      exact .finish x stack base s₁ s₂ hstack hex hc hret
    · cases h
  | create site slots callback =>
    obtain ⟨s₁, hc, h⟩ := bind_eq_ok.mp h
    cases h
    exact .create site slots callback s₁ hc
  | getCurrentCid site =>
    obtain ⟨cid, hcid, h⟩ := bind_eq_ok.mp h
    cases h
    exact .getCurrentCid site cid hcid
  | yield site =>
    obtain ⟨s₁, hy, h⟩ := bind_eq_ok.mp h
    cases h
    exact .yield site s₁ hy
  | resume site arg =>
    simp only [phpStep, coroutineResume] at h
    obtain ⟨_, hin, h⟩ := bind_eq_ok.mp h
    split at h
    · next hc =>
      cases h
      exact .neverYielded site arg hc
    · next c hc =>
      obtain ⟨s₁, hres, h⟩ := bind_eq_ok.mp h
      cases h
      exact .resume site arg c s₁ (check_eq_ok.mp hin) hc hres
  | socketSetTimeout site obj garbage timeout persistent =>
    cases h
    exact .socketSetTimeout site obj garbage timeout persistent
  | socketClose site io closed retval =>
    obtain ⟨s₁, hc, h⟩ := bind_eq_ok.mp h
    cases h
    obtain ⟨fd, hfd, hc⟩ := bind_eq_ok.mp hc
    obtain ⟨_, hin, hc⟩ := bind_eq_ok.mp hc
    cases hc
    exact .socketClose site io closed retval fd hfd (check_eq_ok.mp hin)
  | closeFd fd =>
    cases h
    exact .closeFd fd
  | eventLoop site =>
    cases h
    exact .eventLoop site
  | tick _ _ => cases h
  | epollWait _ => cases h
  | loopStep _ => cases h
  | _ => simp [isIo] at ha

theorem tableMove_php {s s' : State} {a : Action} {o : Outcome} (ha : isIo a = false)
    (h : phpStep s a = .ok o) (hs : settle o = .ok s') : TableMove s a s' := by
  cases phpStep_cases ha h with
  | finish x stack base s₁ s₂ _ _ hc hret =>
    cases hs
    have h₁ := sameTable_coroClose hc
    have h₂ := sameTable_returnFrom (by decide) hret
    exact .same (h₂.rg.trans h₁.rg) (h₂.epollfd.trans h₁.epollfd)
  | create site slots callback s₁ hc =>
    cases hs
    obtain ⟨hrg, hfd⟩ := rg_coroutineCreate hc
    by_cases hcp : s.checkPoint = none
    · have he : ensureInit (enterCall s site) = coroInit (enterCall s site) := if_pos hcp
      exact .init site slots callback rfl hcp (by rw [hrg, he]; rfl)
    · have he : ensureInit (enterCall s site) = enterCall s site := if_neg hcp
      exact .same (by rw [hrg, he]; rfl) (by rw [hfd, he]; rfl)
  | yield site s₁ hy =>
    obtain ⟨hrg, hfd⟩ := rg_coroutineYield hy
    have hc := sameTable_coroYield hs
    exact .same (hc.rg.trans hrg) (hc.epollfd.trans hfd)
  | resume site arg c s₁ _ _ hres =>
    cases hs
    have hu := unswitched_cCoroResume hres
    exact .same hu.rg hu.epollfd
  | socketClose site io closed retval fd hfd hin =>
    cases hs
    exact .socketClose site io closed retval fd rfl hfd hin rfl rfl
  | closeFd fd =>
    cases hs
    exact .closeFd fd rfl rfl rfl
  | _ =>
    -- the other calls leave the table alone
    cases hs
    exact .same rfl rfl

theorem tableMove {s s' : State} {a : Action} (h : step s a = .ok s') : TableMove s a s' := by
  obtain ⟨now, clock, rfl, rfl⟩ | ⟨batch, l, stack, rfl, _, _, _, rfl⟩ |
    ⟨answer, l, stack, rfl, _, hl⟩ | ⟨_, o, ho, hs⟩ := step_cases h
  · exact .same rfl rfl
  · exact .same rfl rfl
  · exact tableMove_loop hl
  · cases ha : isIo a with
    | true => exact tableMove_io ha ho hs
    | false => exact tableMove_php ha ho hs

end Phpco
