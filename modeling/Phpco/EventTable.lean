import Phpco.Engine

/-!
# The waiter table

coroutine_event.c and coroutine_timer.c: the `aio_event` slots of
`RG.aio_event_fds`, with the kernel objects behind them, the interest set of
`RG.epollfd` and the open timer descriptors.
-/

namespace Phpco

inductive FdType
  | accept
  | timmer
  | normal
  deriving DecidableEq, Repr

inductive FuncName
  | socketAccept
  | socketRead
  | socketWrite
  | prepare
  | fetchAll
  deriving DecidableEq, Repr

inductive ObjName
  | pdo
  | pdoStatement
  deriving DecidableEq, Repr

abbrev Mask := BitVec 32

def epollIn : Mask := 0x001
def epollOut : Mask := 0x004
def epollErr : Mask := 0x008
def epollHup : Mask := 0x010
def epollRdhup : Mask := 0x2000

/-- `struct epoll_event` with the `fd` member of its `data`. -/
structure EpollEvent where
  events : Mask
  dataFd : ℤ
  deriving DecidableEq, Repr

/-- `aio_event`; `addr` is the address `malloc` gave it. -/
structure AioEvent where
  addr : Ptr
  fd : ℤ
  phpContext : Option Ptr
  epEvent : EpollEvent
  fdType : Option FdType
  timer : Option Ptr
  object : Option Zval
  objectName : Option ObjName
  arguments : Option (List Zval)
  argsCount : ℕ
  functionName : Option FuncName
  deriving DecidableEq, Repr

/-- The arguments of `_aio_event_store`, of which `callback` is always `aio_invoke`. -/
structure StoreArgs where
  fd : ℤ
  fdType : FdType
  context : Ptr
  events : Mask
  timer : Option Ptr
  object : Option Zval
  objectName : Option ObjName
  functionName : Option FuncName
  arguments : Option (List Zval)
  argsCount : ℕ
  deriving DecidableEq, Repr

structure PhpCall where
  object : Option Zval
  function : FuncName
  arguments : List Zval
  deriving DecidableEq, Repr

structure Timespec where
  tvSec : ℤ
  tvNsec : ℤ
  deriving DecidableEq, Repr

/-- What happened to the table, for the record; the code does not read it. -/
inductive TableEvent
  | registered (a : StoreArgs)
  | invoked (fd : ℤ) (call : Option PhpCall) (context : Option Ptr)
  | freed (fd : ℤ) (timer : Ptr)
  | closed (fd : ℤ)
  deriving DecidableEq, Repr

/-- `RG.aio_event_fds` and the kernel: the interest set, and the open timer
descriptors with the expiry they are armed for. -/
structure EventTable where
  aioEventFds : ℤ → Option AioEvent
  interest : ℤ → Option EpollEvent
  timerfds : ℤ → Option (Option Timespec)
  log : List TableEvent

namespace EventTable

def initial : EventTable := ⟨fun _ => none, fun _ => none, fun _ => none, []⟩

/-- The coroutine context pending on a descriptor. -/
def waiter (r : EventTable) (fd : ℤ) : Option Ptr := (r.aioEventFds fd).bind (·.phpContext)

def setSlot (r : EventTable) (fd : ℤ) (ev : Option AioEvent) : EventTable :=
  { r with aioEventFds := Function.update r.aioEventFds fd ev }

/-- The descriptor leaves the interest set: `EPOLL_CTL_DEL`, or its last close. -/
def dropInterest (r : EventTable) (fd : ℤ) : EventTable :=
  { r with interest := Function.update r.interest fd none }

end EventTable

def inTable (fd : ℤ) : Prop := 0 ≤ fd ∧ fd < 102400

instance (fd : ℤ) : Decidable (inTable fd) := inferInstanceAs (Decidable (_ ∧ _))

/-- The record made on the first use of a slot. -/
def freshEvent (fd : ℤ) (addr : Ptr) : AioEvent where
  addr := addr
  fd := fd
  phpContext := none
  epEvent := ⟨0, fd⟩
  fdType := none
  timer := none
  object := none
  objectName := none
  arguments := none
  argsCount := 0
  functionName := none

/-- The assignments under `if(!ev->php_context)`. -/
def recordWaiter (ev : AioEvent) (a : StoreArgs) : AioEvent :=
  { ev with
    phpContext := some a.context
    object := a.object
    objectName := a.objectName
    functionName := a.functionName
    arguments := a.arguments
    argsCount := a.argsCount
    timer := a.timer
    fdType := some a.fdType }

/-- The second guard of `_aio_event_store`: a slot in use keeps its waiter. -/
def storeWaiter (r : EventTable) (ev : AioEvent) (a : StoreArgs) : EventTable :=
  if ev.phpContext = none then
    { r.setSlot a.fd (some (recordWaiter ev a)) with log := .registered a :: r.log }
  else r.setSlot a.fd (some ev)

/-- `_aio_event_store`.  `addOk` is the kernel's answer to `EPOLL_CTL_ADD`, which
fails in any case on a descriptor that is in the set already, and `addr` the
address `malloc` would give a new record. -/
def aioEventStore (r : EventTable) (a : StoreArgs) (addOk : Bool) (addr : Ptr) :
    Except Halt (EventTable × ℤ) :=
  if ¬ inTable a.fd then .error .outOfBounds
  else
    let ev := (r.aioEventFds a.fd).getD (freshEvent a.fd addr)
    if ev.epEvent.events = 0 then
      let ev := { ev with epEvent := { ev.epEvent with events := a.events } }
      if addOk ∧ r.interest a.fd = none then
        let r := { r with interest := Function.update r.interest a.fd (some ev.epEvent) }
        .ok (storeWaiter r ev a, cOk)
      else .ok (r.setSlot a.fd none, cErr)
    else .ok (storeWaiter r ev a, cOk)

/-- What `aio_event_free` does to the record. -/
def clearEvent (ev : AioEvent) : AioEvent :=
  { ev with
    phpContext := none
    argsCount := 0
    arguments := none
    epEvent := if ev.fdType = none then ev.epEvent else { ev.epEvent with events := 0 }
    timer := if ev.fdType = some .timmer then none else ev.timer
    fdType := none }

def aioEventFree (r : EventTable) (slot : ℤ) : EventTable :=
  match r.aioEventFds slot with
  | none => r
  | some ev =>
    match ev.fdType with
    | none => r.setSlot slot (some (clearEvent ev))
    | some .accept => (r.setSlot slot (some (clearEvent ev))).dropInterest ev.fd
    | some .normal => (r.setSlot slot (some (clearEvent ev))).dropInterest ev.fd
    | some .timmer =>
      { (r.setSlot slot (some (clearEvent ev))).dropInterest ev.fd with
        timerfds := Function.update r.timerfds ev.fd none
        log := (ev.timer.map (TableEvent.freed ev.fd)).toList ++ .closed ev.fd :: r.log }

/-- The PHP function `aio_invoke` calls for a record. -/
def invokeCall (ev : AioEvent) : Option PhpCall :=
  let arguments := (ev.arguments.getD []).take ev.argsCount
  match ev.object with
  | some _ =>
    match ev.objectName with
    | some .pdo =>
      if ev.functionName = some .prepare then some ⟨ev.object, .prepare, arguments⟩ else none
    | some .pdoStatement => ev.functionName.map fun f => ⟨ev.object, f, arguments⟩
    | none => none
  | none => ev.functionName.map fun f => ⟨none, f, arguments⟩

/-- `result`, given the `answer` of the PHP function if one is called. -/
def invokeResult (ev : AioEvent) (answer : Zval) : Zval :=
  match invokeCall ev with
  | none => .null
  | some call => if call.function = .prepare then .coPdoStatement answer else answer

/-- Everything `aio_invoke` does to the table: the call, and `aio_event_free`
before the context it took out is resumed. -/
def invokeTable (r : EventTable) (fd : ℤ) : EventTable :=
  match r.aioEventFds fd with
  | none => r
  | some ev =>
    let r := aioEventFree r fd
    { r with log := .invoked fd (invokeCall ev) ev.phpContext :: r.log }

/-- `create_timerfd`: the descriptor and the `it_value` written.  `tfd` and `clock`
are what `timerfd_create` and `clock_gettime` yield. -/
def createTimerfd (r : EventTable) (tfd : ℤ) (clock : Option Timespec) (interval : ℤ) :
    EventTable × ℤ × Option Timespec :=
  if tfd < 0 then (r, cErr, none)
  else
    let r := { r with timerfds := Function.update r.timerfds tfd (some none) }
    match clock with
    | none => (r, cErr, none)
    | some nw => (r, tfd, some ⟨(nw.tvSec + interval).bmod (2 ^ 64), 0⟩)

/-- `timerfd_settime` with `TFD_TIMER_ABSTIME`; an invalid value arms nothing. -/
def timerfdSettime (r : EventTable) (fd : ℤ) (value : Option Timespec) : EventTable :=
  match r.timerfds fd, value with
  | some _, some v =>
    if 0 ≤ v.tvSec ∧ 0 ≤ v.tvNsec ∧ v.tvNsec < 1000000000 then
      { r with timerfds := Function.update r.timerfds fd (some (some v)) }
    else r
  | _, _ => r

end Phpco
