import Phpco.Bounds

/-!
# Runs of the waiter table

The table under `_aio_event_store`, `aio_invoke` and `coroutine::socket_close`
in any order, with descriptors that nobody waits on closed at any time.
-/

namespace Phpco
open EventTable Transition

inductive TableOp
  | init
  | store (a : StoreArgs) (addOk : Bool) (addr : Ptr)
  | invoke (fd : ℤ)
  | socketClose (fd : ℤ) (closed : Bool)
  | close (fd : ℤ)
  | timers (timerfds : ℤ → Option (Option Timespec))

/-- `coroutine::socket_close` on the table; `closed` says whether the PHP function it
calls first did close the descriptor. -/
def socketCloseTable (r : EventTable) (fd : ℤ) (closed : Bool) : EventTable :=
  aioEventFree (if closed then r.dropInterest fd else r) fd

/-- `init` is what `coro_init` does, and `timers` what `create_timerfd` and the passing of time do
to the timers of the kernel. -/
def tableStep (r : EventTable) : TableOp → Except Halt EventTable
  | .init => .ok { r with aioEventFds := fun _ => none, interest := fun _ => none }
  | .store a addOk addr => (aioEventStore r a addOk addr).map Prod.fst
  | .invoke fd => if inTable fd then .ok (invokeTable r fd) else .error .outOfBounds
  | .socketClose fd closed =>
    if inTable fd then .ok (socketCloseTable r fd closed) else .error .outOfBounds
  | .close fd => .ok (r.dropInterest fd)
  | .timers timerfds => .ok { r with timerfds := timerfds }

/-- A registration has a mask to wait for, a pending descriptor is closed by
`coroutine::socket_close` only, and `coro_init` runs before anything is pending. -/
def TableOk (r : EventTable) : TableOp → Prop
  | .init => ∀ fd, r.waiter fd = none
  | .store a _ _ => a.events ≠ 0
  | .close fd => r.waiter fd = none
  | _ => True

abbrev TableReached : EventTable → Prop := Reachable tableStep (· = EventTable.initial) TableOk

/-- One of the six methods asks for the registration. -/
def Requested (q : StoreArgs) : Prop := ∃ s a addOk, ioRequest s a = some (q, addOk)

/-- Registrations are made by the six methods. -/
structure Called (r : EventTable) (op : TableOp) : Prop where
  ok : TableOk r op
  requested : ∀ a addOk addr, op = .store a addOk addr → Requested a

abbrev CalledReached : EventTable → Prop := Reachable tableStep (· = EventTable.initial) Called

/-- Only `coroutine::sleep` passes an `itimerspec`, with `FD_TYPE_TIMMER`. -/
theorem timmer_of_requested {q : StoreArgs} (h : Requested q) (ht : q.timer ≠ none) :
    q.fdType = .timmer := by
  obtain ⟨s, a, addOk, h⟩ := h
  have hnone : q.timer = none → q.fdType = .timmer := fun hn => absurd hn ht
  cases a <;> simp only [ioRequest, Option.map_eq_some_iff, Option.bind_eq_some_iff] at h
  case socketAccept =>
    obtain ⟨zfd, _, h⟩ := h
    cases h
    exact hnone rfl
  case socketRead =>
    obtain ⟨zfd, _, h⟩ := h
    split_ifs at h
    cases h
    exact hnone rfl
  case socketWrite =>
    obtain ⟨zfd, _, h⟩ := h
    split_ifs at h
    cases h
    exact hnone rfl
  case prepare =>
    split_ifs at h
    cases h
    exact hnone rfl
  case fetchAll =>
    split_ifs at h
    cases h
    exact hnone rfl
  case sleep =>
    split_ifs at h
    all_goals
      cases h
      rfl
  all_goals cases h

def recordsTimer (fd : ℤ) (t : Ptr) : TableEvent → Bool
  | .registered a => a.fd = fd ∧ a.timer = some t
  | _ => false

def recordsTimerFd (fd : ℤ) : TableEvent → Bool
  | .registered a => a.fd = fd ∧ a.fdType = .timmer
  | _ => false

def timersRecorded (log : List TableEvent) (fd : ℤ) (t : Ptr) : ℕ :=
  log.countP (recordsTimer fd t)

def timerFdsRecorded (log : List TableEvent) (fd : ℤ) : ℕ :=
  log.countP (recordsTimerFd fd)

def pendingTimer (r : EventTable) (fd : ℤ) : Option Ptr := (r.aioEventFds fd).bind (·.timer)

def pendingType (r : EventTable) (fd : ℤ) : Option FdType := (r.aioEventFds fd).bind (·.fdType)

/-- Every timer descriptor recorded so far was closed once, unless its registration still stands. -/
def FdAccounts (r : EventTable) : Prop :=
  ∀ fd, timerFdsRecorded r.log fd =
    r.log.count (.closed fd) + if pendingType r fd = some .timmer then 1 else 0

/-- The same of the timers, which `aio_event_free` frees in slots of their type only. -/
structure TimerAccounts (r : EventTable) : Prop where
  typed : ∀ fd, pendingTimer r fd ≠ none → pendingType r fd = some .timmer
  timers : ∀ fd t, timersRecorded r.log fd t =
    r.log.count (.freed fd t) + if pendingTimer r fd = some t then 1 else 0

theorem fdAccounts_initial : FdAccounts EventTable.initial := fun _ => rfl

theorem timerAccounts_initial : TimerAccounts EventTable.initial where
  typed := by intro fd h; exact absurd rfl h
  timers := by intro fd t; rfl

/-- What `aio_event_free` releases with the slot. -/
def released (r : EventTable) (fd : ℤ) : List TableEvent :=
  if pendingType r fd = some .timmer then
    ((pendingTimer r fd).map (TableEvent.freed fd)).toList ++ [.closed fd]
  else []

theorem log_aioEventFree {r : EventTable} (hr : TableWf r) (fd : ℤ) :
    (aioEventFree r fd).log = released r fd ++ r.log := by
  cases hslot : r.aioEventFds fd with
  | none => simp [aioEventFree, released, pendingType, hslot]
  | some ev =>
    have hfd := (hr.slot _ _ hslot).fd_eq
    cases ht : ev.fdType with
    | none => simp [aioEventFree, released, pendingType, hslot, ht]
    | some t => cases t <;> simp [aioEventFree, released, pendingType, pendingTimer, hslot, ht, hfd]

theorem pendingType_aioEventFree {r : EventTable} (hr : TableWf r) (fd fd' : ℤ) :
    pendingType (aioEventFree r fd) fd' = if fd' = fd then none else pendingType r fd' := by
  rcases aioEventFree_cases hr fd with ⟨hn, he⟩ | ⟨ev, _, hs, _⟩
  · rw [he]
    split_ifs with hfd
    · simp [pendingType, hfd, hn]
    · rfl
  · simp only [pendingType, hs]
    split_ifs with hfd
    · simp [hfd, clearEvent]
    · simp [hfd]

theorem pendingTimer_aioEventFree {r : EventTable} (hr : TableWf r) (ha : TimerAccounts r)
    (fd fd' : ℤ) :
    pendingTimer (aioEventFree r fd) fd' = if fd' = fd then none else pendingTimer r fd' := by
  have htyped := ha.typed fd
  rcases aioEventFree_cases hr fd with ⟨hn, he⟩ | ⟨ev, hev, hs, _⟩
  · rw [he]
    split_ifs with hfd
    · simp [pendingTimer, hfd, hn]
    · rfl
  · simp only [pendingTimer, pendingType, hev, Option.bind_some] at htyped
    simp only [pendingTimer, hs]
    split_ifs with hfd
    · subst hfd
      simp only [Function.update_self, Option.bind_some, clearEvent]
      split_ifs with ht
      · rfl
      · by_contra hne
        exact ht (htyped hne)
    · simp [hfd]

theorem FdAccounts.congr {r r' : EventTable} (ha : FdAccounts r)
    (hty : ∀ fd, pendingType r' fd = pendingType r fd) (hlog : r'.log = r.log) : FdAccounts r' := by
  intro fd
  rw [hty, hlog, ha fd]

theorem TimerAccounts.congr {r r' : EventTable} (ha : TimerAccounts r)
    (hti : ∀ fd, pendingTimer r' fd = pendingTimer r fd)
    (hty : ∀ fd, pendingType r' fd = pendingType r fd) (hlog : r'.log = r.log) :
    TimerAccounts r' where
  typed := by simpa only [hti, hty] using ha.typed
  timers := by simpa only [hti, hlog] using ha.timers

theorem FdAccounts.free {r : EventTable} (hr : TableWf r) (ha : FdAccounts r) (fd : ℤ) :
    FdAccounts (aioEventFree r fd) := by
  intro fd'
  have h := ha fd'
  have hrec : timerFdsRecorded (aioEventFree r fd).log fd' = timerFdsRecorded r.log fd' := by
    rw [log_aioEventFree hr, released]
    split_ifs
    · cases pendingTimer r fd <;> simp [timerFdsRecorded, recordsTimerFd]
    · rfl
  rw [hrec, h, pendingType_aioEventFree hr, log_aioEventFree hr, released]
  by_cases hfd : fd' = fd
  · subst hfd
    split_ifs <;> cases pendingTimer r fd' <;> simp_all [Nat.add_comm]
  · rw [if_neg hfd]
    split_ifs <;> cases pendingTimer r fd <;> simp_all [Ne.symm hfd]

theorem TimerAccounts.free {r : EventTable} (hr : TableWf r) (ha : TimerAccounts r) (fd : ℤ) :
    TimerAccounts (aioEventFree r fd) where
  typed := by
    intro fd'
    rw [pendingTimer_aioEventFree hr ha, pendingType_aioEventFree hr]
    split_ifs with hfd
    · exact fun h => absurd rfl h
    · exact ha.typed fd'
  timers := by
    intro fd' t
    have h := ha.timers fd' t
    have hrec : timersRecorded (aioEventFree r fd).log fd' t = timersRecorded r.log fd' t := by
      rw [log_aioEventFree hr, released]
      split_ifs
      · cases pendingTimer r fd <;> simp [timersRecorded, recordsTimer]
      · rfl
    rw [hrec, h, pendingTimer_aioEventFree hr ha, log_aioEventFree hr, released]
    by_cases hfd : fd' = fd
    · subst hfd
      have htyped := ha.typed fd'
      cases hp : pendingTimer r fd' with
      | none => split_ifs <;> simp_all
      | some t' =>
        rw [hp] at htyped
        rw [if_pos (htyped (by simp))]
        simp only [List.count_append, Option.map_some, Option.toList_some, List.count_singleton]
        by_cases htt : t' = t
        · simp [htt, Nat.add_comm]
        · simp [htt]
    · rw [if_neg hfd]
      split_ifs <;> cases pendingTimer r fd <;> simp [Ne.symm hfd]

theorem FdAccounts.invokeTable {r : EventTable} (hr : TableWf r) (ha : FdAccounts r) (fd : ℤ) :
    FdAccounts (invokeTable r fd) := by
  cases hslot : r.aioEventFds fd with
  | none => simpa [Phpco.invokeTable, hslot] using ha
  | some ev =>
    simp only [Phpco.invokeTable, hslot]
    exact ha.free hr fd

theorem TimerAccounts.invokeTable {r : EventTable} (hr : TableWf r) (ha : TimerAccounts r)
    (fd : ℤ) : TimerAccounts (invokeTable r fd) := by
  cases hslot : r.aioEventFds fd with
  | none => simpa [Phpco.invokeTable, hslot] using ha
  | some ev =>
    have hf := ha.free hr fd
    simp only [Phpco.invokeTable, hslot]
    exact ⟨hf.typed, hf.timers⟩

theorem pendingType_of_idle {r : EventTable} (hr : TableWf r) {fd : ℤ} (hw : r.waiter fd = none) :
    pendingType r fd = none := by
  cases hslot : r.aioEventFds fd with
  | none => simp [pendingType, hslot]
  | some ev =>
    have hc := waiter_eq_none.mp hw ev hslot
    have hn := (hr.slot _ _ hslot).fdType.not
    simpa [pendingType, hslot] using hn.mpr (by simpa using hc)

theorem TimerAccounts.of_idle {r : EventTable} (hr : TableWf r) (ha : TimerAccounts r) {fd : ℤ}
    (hw : r.waiter fd = none) : pendingTimer r fd = none := by
  by_contra hne
  have hty := ha.typed fd hne
  rw [pendingType_of_idle hr hw] at hty
  cases hty

theorem pendingType_setSlot_none {r : EventTable} (hr : TableWf r) {fd : ℤ}
    (hw : r.waiter fd = none) (fd' : ℤ) : pendingType (r.setSlot fd none) fd' = pendingType r fd' := by
  by_cases hfd : fd' = fd
  · subst hfd
    simpa [pendingType] using (pendingType_of_idle hr hw).symm
  · simp [pendingType, hfd]

theorem pendingType_registerSlot (r : EventTable) (ev : AioEvent) (a : StoreArgs) (fd : ℤ) :
    pendingType (registerSlot r ev a) fd = if fd = a.fd then some a.fdType else pendingType r fd := by
  split_ifs with hfd <;> simp [pendingType, registerSlot, recordWaiter, hfd]

theorem pendingTimer_registerSlot (r : EventTable) (ev : AioEvent) (a : StoreArgs) (fd : ℤ) :
    pendingTimer (registerSlot r ev a) fd = if fd = a.fd then a.timer else pendingTimer r fd := by
  split_ifs with hfd <;> simp [pendingTimer, registerSlot, recordWaiter, hfd]

theorem FdAccounts.store {r r' : EventTable} {a : StoreArgs} {addOk : Bool} {addr : Ptr} {ret : ℤ}
    (hr : TableWf r) (ha : FdAccounts r) (h : aioEventStore r a addOk addr = .ok (r', ret)) :
    FdAccounts r' := by
  obtain ⟨_, ⟨_, hw, rfl⟩ | ⟨_, hw, _, _, ev, _, _, rfl⟩ | ⟨_, _, rfl⟩⟩ := aioEventStore_cases hr h
  · exact ha.congr (pendingType_setSlot_none hr hw) rfl
  · have hp := pendingType_of_idle hr hw
    have hlog : (registerSlot r ev a).log = .registered a :: r.log := rfl
    intro fd
    have h := ha fd
    rw [pendingType_registerSlot, hlog]
    simp only [timerFdsRecorded, recordsTimerFd, List.countP_cons, List.count_cons] at h ⊢
    by_cases hfd : fd = a.fd
    · subst hfd
      simp_all
    · simp_all [Ne.symm hfd]
  · exact ha

theorem TimerAccounts.store {r r' : EventTable} {a : StoreArgs} {addOk : Bool} {addr : Ptr}
    {ret : ℤ} (hr : TableWf r) (ha : TimerAccounts r) (hty : a.timer ≠ none → a.fdType = .timmer)
    (h : aioEventStore r a addOk addr = .ok (r', ret)) : TimerAccounts r' := by
  obtain ⟨_, ⟨_, hw, rfl⟩ | ⟨_, hw, _, _, ev, _, _, rfl⟩ | ⟨_, _, rfl⟩⟩ := aioEventStore_cases hr h
  · have ht := ha.of_idle hr hw
    refine ha.congr (fun fd => ?_) (pendingType_setSlot_none hr hw) rfl
    by_cases hfd : fd = a.fd
    · subst hfd
      simpa [pendingTimer] using ht.symm
    · simp [pendingTimer, hfd]
  · have ht := ha.of_idle hr hw
    have hlog : (registerSlot r ev a).log = .registered a :: r.log := rfl
    refine ⟨fun fd => ?_, fun fd t => ?_⟩
    · rw [pendingTimer_registerSlot, pendingType_registerSlot]
      split_ifs
      · simpa using hty
      · exact ha.typed fd
    · have h := ha.timers fd t
      rw [pendingTimer_registerSlot, hlog]
      simp only [timersRecorded, recordsTimer, List.countP_cons, List.count_cons] at h ⊢
      by_cases hfd : fd = a.fd
      · subst hfd
        simp_all
      · simp_all [Ne.symm hfd]
  · exact ha

structure TableInv (r : EventTable) : Prop where
  wf : TableWf r
  watched : Watched r
  fds : FdAccounts r

theorem Watched.dropInterest {r : EventTable} (hw : Watched r) {fd : ℤ} (h : r.waiter fd = none) :
    Watched (r.dropInterest fd) := by
  intro fd' ev hev hc
  have hfd : fd' ≠ fd := by
    rintro rfl
    exact hc (waiter_eq_none.mp h ev hev)
  simpa [hfd] using hw fd' ev hev hc

/-- `coroutine::socket_close` looks at the slot alone, whether or not the descriptor is closed. -/
theorem pendingType_socketClosed (r : EventTable) (fd : ℤ) (closed : Bool) (fd' : ℤ) :
    pendingType (if closed then r.dropInterest fd else r) fd' = pendingType r fd' := by
  cases closed <;> rfl

theorem pendingTimer_socketClosed (r : EventTable) (fd : ℤ) (closed : Bool) (fd' : ℤ) :
    pendingTimer (if closed then r.dropInterest fd else r) fd' = pendingTimer r fd' := by
  cases closed <;> rfl

theorem log_socketClosed (r : EventTable) (fd : ℤ) (closed : Bool) :
    (if closed then r.dropInterest fd else r).log = r.log := by
  cases closed <;> rfl

theorem TableWf.socketClosed {r : EventTable} (hr : TableWf r) (fd : ℤ) (closed : Bool) :
    TableWf (if closed then r.dropInterest fd else r) := by
  split_ifs
  · exact hr.dropInterest fd
  · exact hr

theorem store_of_tableStep {r r' : EventTable} {a : StoreArgs} {addOk : Bool} {addr : Ptr}
    (h : tableStep r (.store a addOk addr) = .ok r') :
    ∃ ret, aioEventStore r a addOk addr = .ok (r', ret) := by
  simp only [tableStep] at h
  cases hs : aioEventStore r a addOk addr with
  | error e => simp [hs, Except.map] at h
  | ok p =>
    obtain ⟨r₁, ret⟩ := p
    simp only [hs, Except.map, Except.ok.injEq] at h
    exact ⟨ret, by rw [h]⟩

theorem tableInv_step {r r' : EventTable} {op : TableOp} (hi : TableInv r) (hok : TableOk r op)
    (h : tableStep r op = .ok r') : TableInv r' := by
  cases op with
  | init =>
    cases h
    refine ⟨tableWf_idle (fun _ => rfl) (fun _ => rfl), ?_, ?_⟩
    · intro fd ev hev
      cases hev
    · refine hi.fds.congr (fun fd => ?_) rfl
      rw [pendingType_of_idle hi.wf (hok fd)]
      rfl
  | store a addOk addr =>
    obtain ⟨ret, hs⟩ := store_of_tableStep h
    exact ⟨hi.wf.store hok hs, hi.watched.store hi.wf hs, hi.fds.store hi.wf hs⟩
  | invoke fd =>
    simp only [tableStep] at h
    split_ifs at h
    cases h
    exact ⟨hi.wf.invokeTable fd, hi.watched.invokeTable hi.wf fd, hi.fds.invokeTable hi.wf fd⟩
  | socketClose fd closed =>
    simp only [tableStep] at h
    split_ifs at h
    cases h
    have hwf := hi.wf.socketClosed fd closed
    have hfds := hi.fds.congr (pendingType_socketClosed r fd closed) (log_socketClosed r fd closed)
    exact ⟨hwf.free fd, hi.watched.free_dropInterest hi.wf fd closed, hfds.free hwf fd⟩
  | close fd =>
    cases h
    exact ⟨hi.wf.dropInterest fd, hi.watched.dropInterest hok, hi.fds.congr (fun _ => rfl) rfl⟩
  | timers timerfds =>
    cases h
    exact ⟨hi.wf.congr rfl rfl, hi.watched.congr rfl rfl, hi.fds.congr (fun _ => rfl) rfl⟩

theorem tableInv_of_reached {r : EventTable} (h : TableReached r) : TableInv r :=
  h.invariant (fun _ he => he ▸ ⟨tableWf_initial, watched_initial, fdAccounts_initial⟩)
    fun _ _ _ hi hok hs => tableInv_step hi hok hs

theorem tableReached_of_called {r : EventTable} (h : CalledReached r) : TableReached r :=
  h.mono fun _ _ _ _ _ hok _ => hok.ok

theorem timerAccounts_step {r r' : EventTable} {op : TableOp} (hr : TableWf r)
    (ha : TimerAccounts r) (hok : Called r op) (h : tableStep r op = .ok r') : TimerAccounts r' := by
  cases op with
  | init =>
    cases h
    refine ha.congr (fun fd => ?_) (fun fd => ?_) rfl
    · rw [ha.of_idle hr (hok.ok fd)]
      rfl
    · rw [pendingType_of_idle hr (hok.ok fd)]
      rfl
  | store a addOk addr =>
    obtain ⟨ret, hs⟩ := store_of_tableStep h
    exact ha.store hr (timmer_of_requested (hok.requested a addOk addr rfl)) hs
  | invoke fd =>
    simp only [tableStep] at h
    split_ifs at h
    cases h
    exact ha.invokeTable hr fd
  | socketClose fd closed =>
    simp only [tableStep] at h
    split_ifs at h
    cases h
    have hacc := ha.congr (pendingTimer_socketClosed r fd closed)
      (pendingType_socketClosed r fd closed) (log_socketClosed r fd closed)
    exact hacc.free (hr.socketClosed fd closed) fd
  | close fd =>
    cases h
    exact ha.congr (fun _ => rfl) (fun _ => rfl) rfl
  | timers timerfds =>
    cases h
    exact ha.congr (fun _ => rfl) (fun _ => rfl) rfl

theorem timerAccounts_of_called {r : EventTable} (h : CalledReached r) : TimerAccounts r :=
  h.invariant_of (fun _ he => he ▸ timerAccounts_initial) fun _ _ _ hreach ha hok hs =>
    timerAccounts_step (tableInv_of_reached (tableReached_of_called hreach)).wf ha hok hs

/-- PHP code closes a descriptor itself only if nobody waits for it. -/
def ClosesIdle (s : State) (a : Action) : Prop := ∀ fd, a = .closeFd fd → s.rg.waiter fd = none

/-- A step of the program is at most two operations on the table. -/
theorem called_step {s s' : State} {a : Action} (h : Reached ClosesIdle s)
    (hc : CalledReached s.rg) (hok : ClosesIdle s a) (hstep : step s a = .ok s') :
    CalledReached s'.rg := by
  have hother : ∀ {r : EventTable} {op : TableOp}, TableOk r op →
      (∀ a addOk addr, op ≠ .store a addOk addr) → Called r op :=
    fun hop hne => ⟨hop, fun a addOk addr heq => absurd heq (hne a addOk addr)⟩
  cases tableMove hstep with
  | same hrg _ => rwa [hrg]
  | init _ _ _ _ hn hrg =>
    have hw := waiting_of_reached h
    have hidle : TableOk s.rg .init := hw.idle (hw.uninit hn)
    rw [hrg]
    exact hc.next (hother hidle (by simp)) rfl
  | store q addOk r r' ret hq hsame _ _ hst hrg _ =>
    rw [hrg]
    have htimers : CalledReached r := by
      refine hc.next (a := .timers r.timerfds) (hother trivial (by simp)) ?_
      rw [tableStep, ← hsame.slots, ← hsame.interest, ← hsame.log]
    refine htimers.next (a := .store q (addOk && s.epollfd.isSome) (q.context + 1))
      ⟨ioRequest_events hq, ?_⟩ ?_
    · rintro _ _ _ ⟨⟩
      exact ⟨s, a, addOk, hq⟩
    · rw [tableStep, hst]
      rfl
  | invoke answer fd _ _ hin hrg _ _ =>
    rw [hrg]
    exact hc.next (a := .invoke fd) (hother trivial (by simp)) (if_pos hin)
  | socketClose site io closed retval fd _ _ hin hrg _ =>
    rw [hrg]
    exact hc.next (a := .socketClose fd closed) (hother trivial (by simp)) (if_pos hin)
  | closeFd fd ha hrg _ =>
    rw [hrg]
    exact hc.next (a := .close fd) (hother (hok fd ha) (by simp)) rfl

theorem called_of_reached {s : State} (h : Reached ClosesIdle s) : CalledReached s.rg := by
  refine h.invariant_of (I := fun s => CalledReached s.rg) ?_ fun s a s' hreach hc hok hstep =>
    called_step hreach hc hok hstep
  rintro s ⟨_, _, _, _, rfl⟩
  exact .init rfl

/-- The four ways to say that a wait is pending on an allocated slot. -/
structure SlotLaw (r : EventTable) (fd : ℤ) (ev : AioEvent) : Prop where
  events : ev.phpContext ≠ none ↔ ev.epEvent.events ≠ 0
  fdType : ev.phpContext ≠ none ↔ ∃ t, ev.fdType = some t
  interest : ev.phpContext ≠ none ↔ ∃ e, r.interest fd = some e
  mask : ∀ e, r.interest fd = some e → e.events = ev.epEvent.events
  fd_eq : ev.fd = fd
  dataFd_eq : ev.epEvent.dataFd = fd

theorem slotLaw {r : EventTable} (hi : TableInv r) {fd : ℤ} {ev : AioEvent}
    (hev : r.aioEventFds fd = some ev) : SlotLaw r fd ev := by
  have hwf := hi.wf.slot _ _ hev
  refine ⟨hwf.events.symm, ?_, ?_, ?_, hwf.fd_eq, hwf.dataFd_eq⟩
  · rw [← hwf.fdType, Option.ne_none_iff_exists']
  · constructor
    · intro hc
      exact ⟨_, hi.watched _ _ hev hc⟩
    · rintro ⟨e, he⟩
      obtain ⟨ev', hev', _, hc⟩ := hi.wf.interest _ _ he
      rw [hev] at hev'
      cases hev'
      exact hc
  · intro e he
    obtain ⟨ev', hev', hee, _⟩ := hi.wf.interest _ _ he
    rw [hev] at hev'
    cases hev'
    rw [hee]

/-- In every run the redundant state of a slot agrees, each timer descriptor recorded is closed
once, and it is the `aio_event_free` that ends its wait which releases it.  With the registrations
that the methods ask for each timer recorded is freed once too, and there are no others in the
program. -/
theorem table_consistent :
    (∀ r, TableReached r →
      (∀ fd ev, r.aioEventFds fd = some ev → SlotLaw r fd ev) ∧
      (∀ fd, timerFdsRecorded r.log fd =
        r.log.count (.closed fd) + if pendingType r fd = some .timmer then 1 else 0) ∧
      ∀ fd, (aioEventFree r fd).log = released r fd ++ r.log) ∧
    (∀ r, CalledReached r → ∀ fd t, timersRecorded r.log fd t =
      r.log.count (.freed fd t) + if pendingTimer r fd = some t then 1 else 0) ∧
    ∀ s, Reached ClosesIdle s → CalledReached s.rg := by
  refine ⟨fun r h => ?_, fun r h => (timerAccounts_of_called h).timers,
    fun s h => called_of_reached h⟩
  have hi := tableInv_of_reached h
  exact ⟨fun fd ev hev => slotLaw hi hev, hi.fds, log_aioEventFree hi.wf⟩

def sleepersRun : List Action :=
  [createCall 1, .sleep callSite 3 5 true true, createCall 2, .sleep callSite 4 6 true true,
    .eventLoop callSite, .tick 3000 ⟨3, 0⟩, .epollWait [⟨epollIn, 5⟩], .loopStep .null]

def isCloseFd : Action → Bool
  | .closeFd _ => true
  | _ => false

theorem table_consistent_sleep : ∃ s ev, runFrom step (initial 0 0) sleepersRun = .ok s ∧
    s.rg.aioEventFds 6 = some ev ∧ SlotLaw s.rg 6 ev ∧
    timersRecorded s.rg.log 5 10 = s.rg.log.count (.freed 5 10) ∧
    timersRecorded s.rg.log 6 20 = s.rg.log.count (.freed 6 20) + 1 ∧
    (aioEventFree s.rg 6).log = .freed 6 20 :: .closed 6 :: s.rg.log := by
  have hok : ∀ s a, (!isCloseFd a) = true → ClosesIdle s a := by
    rintro s a ha fd rfl
    cases ha
  obtain ⟨s, hrun, hs, hp⟩ := exists_reached_of _ hok sleepersRun
    (fun s => (s.rg.aioEventFds 6).isSome ∧ pendingTimer s.rg 5 = none ∧
      pendingTimer s.rg 6 = some 20 ∧ pendingType s.rg 6 = some .timmer) (by decide +kernel)
  obtain ⟨hslot, h5, h6, htype⟩ := of_decide_eq_true hp
  obtain ⟨ev, hev⟩ := Option.isSome_iff_exists.mp hslot
  obtain ⟨hlaw, htimers, hcalled⟩ := table_consistent
  have hreach : CalledReached s.rg := hcalled s hs
  obtain ⟨hslots, _, hfree⟩ := hlaw s.rg (tableReached_of_called hreach)
  refine ⟨s, ev, hrun, hev, hslots 6 ev hev, ?_, ?_, ?_⟩
  · simpa [h5] using htimers s.rg hreach 5 10
  · simpa [h6] using htimers s.rg hreach 6 20
  · simpa [released, h6, htype] using hfree 6

end Phpco
