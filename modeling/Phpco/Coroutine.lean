import Phpco.CoroutineUtil
import Phpco.Transition

/-!
# The extension functions and the event loop

coroutine.c as one step function: the PHP code that runs calls functions and
extension functions in any order, `event_loop` goes through its passes, and the
kernel and the clocks answer as they like within what they promise.
-/

namespace Phpco

/-- What the kernel and the zvals behind an I/O call contribute: its arguments, what
an uninitialised `socket_fd` holds, and whether `EPOLL_CTL_ADD` is accepted. -/
structure IoArgs where
  arguments : List Zval
  garbage : ℤ
  addOk : Bool
  deriving DecidableEq, Repr

inductive Action
  | call (site : CallSite)
  | ret
  | finish
  | create (site : CallSite) (slots : ℕ) (callback : Zval)
  | getCurrentCid (site : CallSite)
  | yield (site : CallSite)
  | resume (site : CallSite) (cid : ℤ)
  | socketAccept (site : CallSite) (io : IoArgs)
  | socketRead (site : CallSite) (io : IoArgs)
  | socketWrite (site : CallSite) (io : IoArgs)
  | prepare (site : CallSite) (origin : Zval) (io : IoArgs)
  | fetchAll (site : CallSite) (origin : Zval) (io : IoArgs)
  | sleep (site : CallSite) (timeout tfd : ℤ) (clockOk addOk : Bool)
  | socketSetTimeout (site : CallSite) (obj : Zval) (garbage timeout : ℤ) (persistent : Bool)
  | socketClose (site : CallSite) (io : IoArgs) (closed : Bool) (retval : Zval)
  | closeFd (fd : ℤ)
  | eventLoop (site : CallSite)
  | tick (now : ℤ) (clock : Timespec)
  | epollWait (batch : List EpollEvent)
  | loopStep (answer : Zval)
  deriving DecidableEq, Repr

/-- How a step of PHP code goes on: the function returns, or it calls
`coro_yield`, or other PHP code runs. -/
inductive Outcome
  | returned (s : State) (frame : InternalCall) (v : Zval)
  | yields (s : State)
  | runs (s : State)

def newCheckPoint (s : State) : State :=
  { s with
    checkPoint := some s.next
    jmpBufs := Function.update s.jmpBufs s.next .unset
    next := s.next + 1 }

/-- The first `coroutine_create` calls `coro_init`. -/
def ensureInit (s : State) : State := if s.checkPoint = none then coroInit s else s

def coroutineCreate (s : State) (frame : InternalCall) (slots : ℕ) (callback : Zval) :
    Except Halt State := do
  let s := ensureInit s
  let prevCheckpoint := s.checkPoint
  let ctx := coroSave s
  let required := s.corog.require
  let (s, ret) ← cCoroCreate (newCheckPoint s) slots
    (.create frame prevCheckpoint ctx required callback)
  match ret with
  | none => return s
  | some ret => coroutineCreateTail s frame prevCheckpoint ctx required callback ret

def getCurrentCid (s : State) : Except Halt ℤ := do
  let t ← deref s.corog.currentCoro .nullDeref
  let task ← deref (s.tasks t) .useAfterFree
  return task.cid

def inContextMap (cid : ℤ) : Prop := 0 ≤ cid ∧ cid ≤ 32768

instance (cid : ℤ) : Decidable (inContextMap cid) := inferInstanceAs (Decidable (_ ∧ _))

/-- `coroutine::yield` up to `coro_yield`. -/
def coroutineYield (s : State) : Except Halt State := do
  let context := s.next
  let s := { s with
    contexts := Function.update s.contexts context (.saved (coroSave s))
    next := s.next + 1 }
  let cid ← getCurrentCid s
  check (inContextMap cid) .outOfBounds
  return { s with
    cidContextMap := Function.update s.cidContextMap cid (some context)
    log := .suspended s.corog.currentCoro (.yield cid) context :: s.log }

/-- `coroutine::resume`; the parameter is stored into an `int`. -/
def coroutineResume (s : State) (frame : InternalCall) (arg : ℤ) : Except Halt Outcome := do
  let cid := toInt arg
  check (inContextMap cid) .outOfBounds
  match s.cidContextMap cid with
  | none => return .returned s frame (.bool false)
  | some context =>
    let s' ← cCoroResume (newCheckPoint s) context none (.yield cid)
      (.resume frame s.checkPoint context (coroSave s) s.corog.require)
    return .runs s'

/-- From the `emalloc` of the context on: the registration `a`, and the suspension
if `_aio_event_store` returned `C_OK`. -/
def storeAndYield (s : State) (frame : InternalCall) (a : StoreArgs) (addOk : Bool) :
    Except Halt Outcome := do
  let (rg, ret) ← aioEventStore s.rg a (addOk && s.epollfd.isSome) (a.context + 1)
  let s := { s with rg := rg, next := a.context + 2 }
  if ret < 0 then return .returned s frame (.bool false)
  else return .yields { s with
    contexts := Function.update s.contexts a.context (.saved (coroSave s))
    log := .suspended s.corog.currentCoro (.io a.fd) a.context :: s.log }

def storeFunction (s : State) (fd : ℤ) (fdType : FdType) (events : Mask) (functionName : FuncName)
    (arguments : List Zval) : StoreArgs where
  fd := fd
  fdType := fdType
  context := s.next
  events := events
  timer := none
  object := none
  objectName := none
  functionName := some functionName
  arguments := some arguments
  argsCount := arguments.length

def storeObject (s : State) (fd : ℤ) (origin : Zval) (objectName : ObjName)
    (functionName : FuncName) (arguments : List Zval) : StoreArgs where
  fd := fd
  fdType := .normal
  context := s.next
  events := epollOut
  timer := none
  object := some origin
  objectName := some objectName
  functionName := some functionName
  arguments := some arguments
  argsCount := arguments.length

def firstFd (io : IoArgs) : Except Halt ℤ := do
  let zfd ← deref io.arguments.head? .uninitialized
  return cConvertToFd zfd io.garbage

/-- `coroutine::socket_accept`; the result of the conversion is not looked at. -/
def socketAccept (s : State) (frame : InternalCall) (io : IoArgs) : Except Halt Outcome := do
  let fd ← firstFd io
  storeAndYield s frame
    (storeFunction s fd .accept (epollIn ||| epollRdhup) .socketAccept io.arguments) io.addOk

def socketRead (s : State) (frame : InternalCall) (io : IoArgs) : Except Halt Outcome := do
  let fd ← firstFd io
  if fd < 0 then return .returned s frame (.bool false)
  else storeAndYield s frame (storeFunction s fd .normal epollIn .socketRead io.arguments) io.addOk

def socketWrite (s : State) (frame : InternalCall) (io : IoArgs) : Except Halt Outcome := do
  let fd ← firstFd io
  if fd < 0 then return .returned s frame (.bool false)
  else
    storeAndYield s frame (storeFunction s fd .normal epollOut .socketWrite io.arguments) io.addOk

/-- `Co\PDO::prepare` and `Co\PDOStatement::fetchAll`, on their property `origin`. -/
def callOrigin (s : State) (frame : InternalCall) (origin : Zval) (objectName : ObjName)
    (functionName : FuncName) (io : IoArgs) : Except Halt Outcome :=
  let fd := cConvertToFd origin io.garbage
  if fd < 0 then .ok (.returned s frame (.bool false))
  else
    storeAndYield s frame (storeObject s fd origin objectName functionName io.arguments) io.addOk

def prepare (s : State) (frame : InternalCall) (origin : Zval) (io : IoArgs) :
    Except Halt Outcome :=
  callOrigin s frame origin .pdo .prepare io

def fetchAll (s : State) (frame : InternalCall) (origin : Zval) (io : IoArgs) :
    Except Halt Outcome :=
  callOrigin s frame origin .pdoStatement .fetchAll io

/-- The registration of `coroutine::sleep`; `s.next` is its `itimerspec`. -/
def storeTimer (s : State) (fd : ℤ) : StoreArgs where
  fd := fd
  fdType := .timmer
  context := s.next + 1
  events := epollIn
  timer := some s.next
  object := none
  objectName := none
  functionName := none
  arguments := none
  argsCount := 0

/-- `timerfd_create` yields a descriptor that is not open. -/
def freshDescriptor (s : State) (tfd : ℤ) : Prop :=
  tfd < 0 ∨ s.rg.interest tfd = none ∧ s.rg.timerfds tfd = none

instance (s : State) (tfd : ℤ) : Decidable (freshDescriptor s tfd) :=
  inferInstanceAs (Decidable (_ ∨ _))

def coroutineSleep (s : State) (frame : InternalCall) (timeout tfd : ℤ) (clockOk addOk : Bool) :
    Except Halt Outcome :=
  if timeout ≤ 0 then .ok (.returned s frame (.bool true))
  else do
    check (freshDescriptor s tfd) .notHere
    let (rg, fd, value) := createTimerfd s.rg tfd (if clockOk then some s.clock else none) timeout
    let s := { s with rg := timerfdSettime rg fd value }
    storeAndYield s frame (storeTimer s fd) addOk

def socketSetTimeout (s : State) (obj : Zval) (garbage timeout : ℤ) (persistent : Bool) : State :=
  let element : TimeoutElement := ⟨cConvertToFd obj garbage, toInt timeout, s.now, persistent⟩
  { s with
    timeouts := s.timeouts.push element s.next (s.next + 1)
    next := s.next + 2 }

/-- `coroutine::socket_close` up to its return; `closed` says whether the PHP function it
calls first did close the descriptor. -/
def socketClose (s : State) (io : IoArgs) (closed : Bool) : Except Halt State := do
  let fd ← firstFd io
  check (inTable fd) .outOfBounds
  return { s with rg := aioEventFree (if closed then s.rg.dropInterest fd else s.rg) fd }

def phpStep (s : State) : Action → Except Halt Outcome
  | .call site => .ok (.runs (enterCall s site))
  | .ret =>
    match s.eg.currentExecuteData with
    | call :: caller :: rest =>
      .ok (.runs { s with eg := ⟨freeCallFrame s.eg.vm call, caller :: rest⟩ })
    | _ => .error .notHere
  | .finish =>
    match s.stack, s.eg.currentExecuteData with
    | .activation x :: stack, [_] => do
      let s ← coroClose { s with eg := ⟨s.eg.vm, []⟩, stack := stack }
      let s ← returnFrom s x.switch coroEnd
      return .runs s
    | _, _ => .error .notHere
  | .create site slots callback => do
    let s ← coroutineCreate (enterCall s site) (callFrame s site) slots callback
    return .runs s
  | .getCurrentCid site => do
    let cid ← getCurrentCid s
    return .returned (enterCall s site) (callFrame s site) (.long cid)
  | .yield site => do
    let s ← coroutineYield (enterCall s site)
    return .yields s
  | .resume site cid => coroutineResume (enterCall s site) (callFrame s site) cid
  | .socketAccept site io => socketAccept (enterCall s site) (callFrame s site) io
  | .socketRead site io => socketRead (enterCall s site) (callFrame s site) io
  | .socketWrite site io => socketWrite (enterCall s site) (callFrame s site) io
  | .prepare site origin io => prepare (enterCall s site) (callFrame s site) origin io
  | .fetchAll site origin io => fetchAll (enterCall s site) (callFrame s site) origin io
  | .sleep site timeout tfd clockOk addOk =>
    coroutineSleep (enterCall s site) (callFrame s site) timeout tfd clockOk addOk
  | .socketSetTimeout site obj garbage timeout persistent =>
    .ok (.returned (socketSetTimeout (enterCall s site) obj garbage timeout persistent)
      (callFrame s site) (.bool true))
  | .socketClose site io closed retval => do
    let s' ← socketClose (enterCall s site) io closed
    return .returned s' (callFrame s site) retval
  | .closeFd fd => .ok (.runs { s with rg := s.rg.dropInterest fd })
  | .eventLoop site =>
    let s' := enterCall s site
    .ok (.runs { s' with stack := .eventLoop ⟨callFrame s site, .wait, 0⟩ :: s'.stack })
  | .tick _ _ => .error .notHere
  | .epollWait _ => .error .notHere
  | .loopStep _ => .error .notHere

def settle : Outcome → Except Halt State
  | .returned s frame v => .ok (leaveCall s frame v)
  | .yields s => coroYield s
  | .runs s => .ok s

/-- `aio_invoke(RG.aio_event_fds[fd])` up to the switch, if there is one. -/
def aioInvoke (s : State) (fd : ℤ) (answer : Zval) : Except Halt State := do
  check (inTable fd) .outOfBounds
  match s.rg.aioEventFds fd with
  | none => return s
  | some ev =>
    let s := { s with rg := invokeTable s.rg fd }
    match ev.phpContext with
    | none => return s
    | some context =>
      cCoroResume s context (some (invokeResult ev answer)) (.io fd) (.invoke fd ev.addr context)

def Timespec.le (t t' : Timespec) : Prop :=
  t.tvSec < t'.tvSec ∨ t.tvSec = t'.tvSec ∧ t.tvNsec ≤ t'.tvNsec

instance (t t' : Timespec) : Decidable (t.le t') := inferInstanceAs (Decidable (_ ∨ _))

/-- An entry that `epoll_wait` may report: on a descriptor in the interest set, with
bits it was asked for or `EPOLLERR` or `EPOLLHUP`, and on a timer once it has expired. -/
def mayReport (s : State) (e : EpollEvent) : Prop :=
  (∃ i, s.rg.interest e.dataFd = some i ∧ i.dataFd = e.dataFd ∧ e.events ≠ 0 ∧
    e.events &&& ~~~(i.events ||| epollErr ||| epollHup) = 0) ∧
  ∀ timer, s.rg.timerfds e.dataFd = some timer → ∃ v, timer = some v ∧ v.le s.clock

instance (s : State) (e : EpollEvent) : Decidable (mayReport s e) :=
  @instDecidableAnd _ _
    (match h : s.rg.interest e.dataFd with
      | none => .isFalse (by simp)
      | some i => decidable_of_iff (i.dataFd = e.dataFd ∧ e.events ≠ 0 ∧
          e.events &&& ~~~(i.events ||| epollErr ||| epollHup) = 0) (by simp))
    (match h : s.rg.timerfds e.dataFd with
      | none => .isTrue (by simp)
      | some none => .isFalse (by simp)
      | some (some v) => decidable_of_iff (v.le s.clock) (by simp))

/-- A batch holds at most one entry for each descriptor. -/
def mayReturn (s : State) (batch : List EpollEvent) : Prop :=
  batch.length ≤ defaultMaxEvent ∧ (batch.map (·.dataFd)).Nodup ∧ ∀ e ∈ batch, mayReport s e

instance (s : State) (batch : List EpollEvent) : Decidable (mayReturn s batch) :=
  inferInstanceAs (Decidable (_ ∧ _ ∧ _))

def dispatched (e : EpollEvent) : Prop :=
  e.events &&& epollIn ≠ 0 ∨ e.events &&& epollOut ≠ 0

instance (e : EpollEvent) : Decidable (dispatched e) := inferInstanceAs (Decidable (_ ∨ _))

def setPhase (s : State) (l : EventLoop) (stack : List CFrame) (phase : LoopPhase) : State :=
  { s with stack := .eventLoop { l with phase := phase } :: stack }

/-- What the timeout pass does after it invoked an expired element. -/
def reapTimeout (s : State) (q : Ptr) (f : Option Ptr) : Except Halt Timeouts := do
  let node ← deref (s.timeouts.link.nodes q) .useAfterFree
  let element ← deref (s.timeouts.elements node.data) .useAfterFree
  if element.persistent then return { s.timeouts with
    elements := Function.update s.timeouts.elements node.data
      (some { element with lastTime := s.now }) }
  else
    let link ← removeNode s.timeouts.link q f
    return { s.timeouts with link := link }

/-- The next step of the `event_loop` on top of the C stack. -/
def eventLoopStep (s : State) (l : EventLoop) (stack : List CFrame) (answer : Zval) :
    Except Halt State :=
  match l.phase with
  | .wait =>
    if l.test < 1000 then .error .notHere
    else .ok (leaveCall { s with stack := stack } l.frame .null)
  | .batch [] _ => .ok (setPhase s l stack (.timeouts s.now s.timeouts.link.front none))
  | .batch (e :: events) since =>
    let s := setPhase s l stack (.batch events since)
    if dispatched e then aioInvoke s e.dataFd answer else .ok s
  | .timeouts _ none _ =>
    .ok { s with stack := .eventLoop { l with phase := .wait, test := l.test + 1 } :: stack }
  | .timeouts now (some q) f => do
    let node ← deref (s.timeouts.link.nodes q) .useAfterFree
    let element ← deref (s.timeouts.elements node.data) .useAfterFree
    if element.lastTime + element.timeout ≤ now then
      aioInvoke (setPhase s l stack (.expired now q f)) element.fd answer
    else return setPhase s l stack (.timeouts now node.next (some q))
  | .expired now q f => do
    let timeouts ← reapTimeout s q f
    -- q is read again, after it was freed if the element was not persistent
    let node ← deref (timeouts.link.nodes q) .useAfterFree
    return setPhase { s with timeouts := timeouts } l stack (.timeouts now node.next (some q))

/-- PHP code runs unless `event_loop` is on top of the C stack. -/
def phpRuns (s : State) : Prop := ∀ l stack, s.stack ≠ .eventLoop l :: stack

def step (s : State) (a : Action) : Except Halt State :=
  match a with
  | .tick now clock => do
    check (s.clock.le clock) .notHere
    return { s with now := now, clock := clock }
  | .epollWait batch =>
    match s.stack with
    | .eventLoop ⟨frame, .wait, test⟩ :: stack => do
      check (test < 1000 ∧ mayReturn s batch) .notHere
      return setPhase s ⟨frame, .wait, test⟩ stack (.batch batch s.rg)
    | _ => .error .notHere
  | .loopStep answer =>
    match s.stack with
    | .eventLoop l :: stack => eventLoopStep s l stack answer
    | _ => .error .notHere
  | a =>
    match s.stack with
    | .eventLoop _ :: _ => .error .notHere
    | _ => phpStep s a >>= settle

/-- A request before its first statement, in a script whose frame is the only one. -/
def initial (maxCoroNum stackSize : ℕ) : State where
  eg := ⟨⟨0, zendVmStackElements + zendCallFrameSlot, zendVmStackPageSize⟩,
    [⟨⟨0, zendVmStackElements, zendVmStackPageSize⟩, none, false⟩]⟩
  corog := ⟨0, maxCoroNum, stackSize, ⟨0, 0, 0⟩, none, none, false⟩
  checkPoint := none
  jmpBufs := fun _ => .unallocated
  contexts := fun _ => .free
  tasks := fun _ => none
  cidContextMap := fun _ => none
  cids := .initial
  epollfd := none
  rg := .initial
  timeouts := .initial
  stack := []
  next := 1
  now := 0
  clock := ⟨0, 0⟩
  log := []

/-- `max_coro_num` and `stack_size` are `uint32_t`, whatever they were set to before `coro_init`. -/
def Initial (s : State) : Prop :=
  ∃ maxCoroNum < 2 ^ 32, ∃ stackSize < 2 ^ 32, s = initial maxCoroNum stackSize

/-- The states of the runs whose steps meet `ok`. -/
abbrev Reached (ok : State → Action → Prop) : State → Prop :=
  Transition.Reachable step Initial ok

def callSite : CallSite := ⟨5, false⟩

def createCall (id : ℕ) : Action := .create callSite 8 (.value id)

def yieldCall : Action := .yield callSite

def readCall (fd : ℤ) : Action := .socketRead callSite ⟨[.stream (some fd), .long 10], 0, true⟩

def closeCall (fd : ℤ) : Action := .socketClose callSite ⟨[.stream (some fd)], 0, true⟩ true .null

def isOkAnd (p : State → Bool) : Except Halt State → Bool
  | .ok s => p s
  | .error _ => false

theorem exists_of_isOkAnd {p : State → Bool} {r : Except Halt State} (h : isOkAnd p r = true) :
    ∃ s', r = .ok s' ∧ p s' = true := by
  cases r with
  | error e => cases h
  | ok s' => exact ⟨s', rfl, h⟩

def yields : Except Halt Outcome → Bool
  | .ok (.yields _) => true
  | _ => false

theorem exists_of_yields {r : Except Halt Outcome} (h : yields r = true) :
    ∃ s₁, r = .ok (.yields s₁) := by
  cases r with
  | error e => cases h
  | ok o =>
    cases o with
    | yields s₁ => exact ⟨s₁, rfl⟩
    | returned s frame v => cases h
    | runs s => cases h

theorem exists_reached_of {ok : State → Action → Prop} (test : State → Action → Bool)
    (hok : ∀ s a, test s a = true → ok s a) (as : List Action) (p : State → Bool)
    (h : Transition.leadsTo step test p (initial 0 0) as = true) :
    ∃ s, Transition.runFrom step (initial 0 0) as = .ok s ∧ Reached ok s ∧ p s = true :=
  Transition.exists_reachable_of_leadsTo (.init ⟨0, by decide, 0, by decide, rfl⟩) hok h

theorem exists_reached (as : List Action) (p : State → Bool)
    (h : Transition.leadsTo step (fun _ _ => true) p (initial 0 0) as = true) :
    ∃ s, Transition.runFrom step (initial 0 0) as = .ok s ∧ Reached (fun _ _ => True) s ∧
      p s = true :=
  exists_reached_of _ (fun _ _ _ => trivial) as p h

end Phpco
