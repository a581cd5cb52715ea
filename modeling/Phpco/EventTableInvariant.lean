import Phpco.EventTable
import Phpco.Transition

/-!
# The invariant of the waiter table

A slot is either idle or pending, and `php_context`, `ep_event->events` and
`fd_type` agree on which.  Each operation is first reduced to what it can do
(`aioEventStore_cases`, `aioEventFree_cases`), and everything else is derived
from that.
-/

namespace Phpco
open EventTable

structure SlotWf (fd : ℤ) (ev : AioEvent) : Prop where
  fd_eq : ev.fd = fd
  dataFd_eq : ev.epEvent.dataFd = fd
  events : ev.epEvent.events ≠ 0 ↔ ev.phpContext ≠ none
  fdType : ev.fdType ≠ none ↔ ev.phpContext ≠ none

/-- Holds whatever descriptors the PHP program closes behind the table's back. -/
structure TableWf (r : EventTable) : Prop where
  slot : ∀ fd ev, r.aioEventFds fd = some ev → SlotWf fd ev
  interest : ∀ fd e, r.interest fd = some e →
    ∃ ev, r.aioEventFds fd = some ev ∧ ev.epEvent = e ∧ ev.phpContext ≠ none

/-- Every pending descriptor is in the interest set. -/
def Watched (r : EventTable) : Prop :=
  ∀ fd ev, r.aioEventFds fd = some ev → ev.phpContext ≠ none → r.interest fd = some ev.epEvent

theorem tableWf_initial : TableWf EventTable.initial where
  slot := by intro fd ev h; cases h
  interest := by intro fd e h; cases h

theorem watched_initial : Watched EventTable.initial := by
  intro fd ev h
  cases h

namespace EventTable

@[simp] theorem aioEventFds_setSlot (r : EventTable) (fd : ℤ) (ev : Option AioEvent) :
    (r.setSlot fd ev).aioEventFds = Function.update r.aioEventFds fd ev := rfl

@[simp] theorem interest_setSlot (r : EventTable) (fd : ℤ) (ev : Option AioEvent) :
    (r.setSlot fd ev).interest = r.interest := rfl

@[simp] theorem log_setSlot (r : EventTable) (fd : ℤ) (ev : Option AioEvent) :
    (r.setSlot fd ev).log = r.log := rfl

@[simp] theorem aioEventFds_dropInterest (r : EventTable) (fd : ℤ) :
    (r.dropInterest fd).aioEventFds = r.aioEventFds := rfl

@[simp] theorem interest_dropInterest (r : EventTable) (fd : ℤ) :
    (r.dropInterest fd).interest = Function.update r.interest fd none := rfl

@[simp] theorem log_dropInterest (r : EventTable) (fd : ℤ) : (r.dropInterest fd).log = r.log := rfl

theorem setSlot_self {r : EventTable} {fd : ℤ} {ev : Option AioEvent} (h : r.aioEventFds fd = ev) :
    r.setSlot fd ev = r := by
  subst h
  simp [setSlot]

theorem waiter_eq_some {r : EventTable} {fd : ℤ} {c : Ptr} :
    r.waiter fd = some c ↔ ∃ ev, r.aioEventFds fd = some ev ∧ ev.phpContext = some c := by
  simp [waiter, Option.bind_eq_some_iff]

theorem waiter_eq_none {r : EventTable} {fd : ℤ} :
    r.waiter fd = none ↔ ∀ ev, r.aioEventFds fd = some ev → ev.phpContext = none := by
  simp [waiter, Option.bind_eq_none_iff]

end EventTable

theorem SlotWf.events_eq_zero {fd : ℤ} {ev : AioEvent} (h : SlotWf fd ev) :
    ev.epEvent.events = 0 ↔ ev.phpContext = none :=
  not_iff_not.mp h.events

/-- What no coroutine waits for is not in the interest set. -/
theorem TableWf.interest_of_idle {r : EventTable} {fd : ℤ} (hr : TableWf r)
    (hw : r.waiter fd = none) : r.interest fd = none := by
  by_contra hne
  obtain ⟨e, he⟩ := Option.ne_none_iff_exists'.mp hne
  obtain ⟨ev, hev, _, hctx⟩ := hr.interest _ _ he
  exact hctx (waiter_eq_none.mp hw ev hev)

def registerSlot (r : EventTable) (ev : AioEvent) (a : StoreArgs) : EventTable :=
  { r with
    aioEventFds := Function.update r.aioEventFds a.fd (some (recordWaiter ev a))
    interest := Function.update r.interest a.fd (some ev.epEvent)
    log := .registered a :: r.log }

/-- `_aio_event_store` fails on an idle slot and clears it, registers on an idle
slot, or leaves a pending slot and the rest of the table as they are. -/
theorem aioEventStore_cases {r r' : EventTable} {a : StoreArgs} {addOk : Bool} {addr : Ptr} {ret : ℤ}
    (hr : TableWf r) (h : aioEventStore r a addOk addr = .ok (r', ret)) :
    inTable a.fd ∧
    ((ret = cErr ∧ r.waiter a.fd = none ∧ r' = r.setSlot a.fd none) ∨
     (ret = cOk ∧ r.waiter a.fd = none ∧ addOk = true ∧ r.interest a.fd = none ∧
       ∃ ev, ev.fd = a.fd ∧ ev.epEvent = ⟨a.events, a.fd⟩ ∧ r' = registerSlot r ev a) ∨
     (ret = cOk ∧ r.waiter a.fd ≠ none ∧ r' = r)) := by
  unfold aioEventStore at h
  by_cases hin : inTable a.fd
  case neg => simp [hin] at h
  rw [if_neg (not_not.mpr hin)] at h
  refine ⟨hin, ?_⟩
  cases hslot : r.aioEventFds a.fd with
  | none =>
    have hw : r.waiter a.fd = none := by simp [waiter, hslot]
    simp only [hslot, Option.getD_none, freshEvent, if_true] at h
    by_cases hadd : addOk = true ∧ r.interest a.fd = none
    · rw [if_pos hadd] at h
      cases h
      refine .inr (.inl ⟨rfl, hw, hadd.1, hadd.2, ?_⟩)
      exact ⟨{ freshEvent a.fd addr with epEvent := ⟨a.events, a.fd⟩ }, rfl, rfl, rfl⟩
    · rw [if_neg hadd] at h
      cases h
      exact .inl ⟨rfl, hw, rfl⟩
  | some ev =>
    have hwf := hr.slot _ _ hslot
    simp only [hslot, Option.getD_some] at h
    by_cases hz : ev.epEvent.events = 0
    · have hctx : ev.phpContext = none := hwf.events_eq_zero.mp hz
      have hw : r.waiter a.fd = none := by simp [waiter, hslot, hctx]
      rw [if_pos hz] at h
      by_cases hadd : addOk = true ∧ r.interest a.fd = none
      · rw [if_pos hadd] at h
        cases h
        refine .inr (.inl ⟨rfl, hw, hadd.1, hadd.2, ?_⟩)
        refine ⟨{ ev with epEvent := { ev.epEvent with events := a.events } }, hwf.fd_eq, ?_, ?_⟩
        · rw [← hwf.dataFd_eq]
        · simp only [storeWaiter, hctx, if_true]
          rfl
      · rw [if_neg hadd] at h
        cases h
        exact .inl ⟨rfl, hw, rfl⟩
    · have hctx : ev.phpContext ≠ none := hwf.events.mp hz
      rw [if_neg hz] at h
      cases h
      refine .inr (.inr ⟨rfl, ?_, ?_⟩)
      · simpa [waiter, hslot] using hctx
      · rw [storeWaiter, if_neg hctx, setSlot_self hslot]

theorem slot_aioEventStore {r r' : EventTable} {q : StoreArgs} {addOk : Bool} {addr : Ptr}
    {ret : ℤ} (hr : TableWf r) (h : aioEventStore r q addOk addr = .ok (r', ret)) {fd : ℤ}
    (hne : fd ≠ q.fd) : r'.aioEventFds fd = r.aioEventFds fd := by
  rcases (aioEventStore_cases hr h).2 with ⟨_, _, rfl⟩ | ⟨_, _, _, _, ev, _, _, rfl⟩ | ⟨_, _, rfl⟩
  · exact Function.update_of_ne hne _ _
  · exact Function.update_of_ne hne _ _
  · rfl

theorem slotWf_recordWaiter {ev : AioEvent} {a : StoreArgs} (ha : a.events ≠ 0)
    (hfd : ev.fd = a.fd) (hev : ev.epEvent = ⟨a.events, a.fd⟩) :
    SlotWf a.fd (recordWaiter ev a) where
  fd_eq := hfd
  dataFd_eq := by simp [recordWaiter, hev]
  events := by simpa [recordWaiter, hev] using ha
  fdType := by simp [recordWaiter]

theorem TableWf.setSlot_none {r : EventTable} {fd : ℤ} (hr : TableWf r)
    (hw : r.waiter fd = none) : TableWf (r.setSlot fd none) where
  slot := by
    intro fd' ev h
    by_cases hfd : fd' = fd
    · simp [hfd] at h
    · exact hr.slot _ _ (by simpa [hfd] using h)
  interest := by
    intro fd' e h
    obtain ⟨ev, hev, he, hc⟩ := hr.interest _ _ h
    have hfd : fd' ≠ fd := by
      rintro rfl
      exact hc (waiter_eq_none.mp hw _ hev)
    exact ⟨ev, by simpa [hfd] using hev, he, hc⟩

theorem TableWf.registerSlot {r : EventTable} {ev : AioEvent} {a : StoreArgs} (hr : TableWf r)
    (ha : a.events ≠ 0) (hfd : ev.fd = a.fd) (hev : ev.epEvent = ⟨a.events, a.fd⟩) :
    TableWf (registerSlot r ev a) where
  slot := by
    intro fd ev' h
    by_cases hfd' : fd = a.fd
    · subst hfd'
      simp only [Phpco.registerSlot, Function.update_self, Option.some.injEq] at h
      exact h ▸ slotWf_recordWaiter ha hfd hev
    · exact hr.slot _ _ (by simpa [Phpco.registerSlot, hfd'] using h)
  interest := by
    intro fd e h
    by_cases hfd' : fd = a.fd
    · subst hfd'
      simp only [Phpco.registerSlot, Function.update_self, Option.some.injEq] at h
      exact ⟨recordWaiter ev a, by simp [Phpco.registerSlot], h, by simp [recordWaiter]⟩
    · obtain ⟨ev', hev', he, hc⟩ := hr.interest fd e (by simpa [Phpco.registerSlot, hfd'] using h)
      exact ⟨ev', by simpa [Phpco.registerSlot, hfd'] using hev', he, hc⟩

theorem TableWf.store {r r' : EventTable} {a : StoreArgs} {addOk : Bool} {addr : Ptr} {ret : ℤ}
    (hr : TableWf r) (ha : a.events ≠ 0) (h : aioEventStore r a addOk addr = .ok (r', ret)) :
    TableWf r' := by
  obtain ⟨_, ⟨_, hw, rfl⟩ | ⟨_, _, _, _, ev, hfd, hev, rfl⟩ | ⟨_, _, rfl⟩⟩ := aioEventStore_cases hr h
  · exact hr.setSlot_none hw
  · exact hr.registerSlot ha hfd hev
  · exact hr

theorem Watched.store {r r' : EventTable} {a : StoreArgs} {addOk : Bool} {addr : Ptr} {ret : ℤ}
    (hr : TableWf r) (hw : Watched r) (h : aioEventStore r a addOk addr = .ok (r', ret)) :
    Watched r' := by
  intro fd ev hev hc
  obtain ⟨_, ⟨_, _, rfl⟩ | ⟨_, _, _, _, ev', _, _, rfl⟩ | ⟨_, _, rfl⟩⟩ := aioEventStore_cases hr h
  · by_cases hfd : fd = a.fd
    · simp [hfd] at hev
    · exact hw fd ev (by simpa [hfd] using hev) hc
  · by_cases hfd : fd = a.fd
    · subst hfd
      simp only [registerSlot, Function.update_self, Option.some.injEq] at hev ⊢
      rw [← hev]
      rfl
    · simp only [registerSlot, Function.update_of_ne hfd] at hev ⊢
      exact hw fd ev hev hc
  · exact hw fd ev hev hc

@[simp] theorem phpContext_clearEvent (ev : AioEvent) : (clearEvent ev).phpContext = none := rfl

theorem slotWf_clearEvent {fd : ℤ} {ev : AioEvent} (h : SlotWf fd ev) :
    SlotWf fd (clearEvent ev) where
  fd_eq := h.fd_eq
  dataFd_eq := by
    simp only [clearEvent]
    split_ifs <;> exact h.dataFd_eq
  events := by
    have hf := h.fdType.not
    have he := h.events.not
    simp only [clearEvent]
    split_ifs with ht
    · simpa using (he.trans hf.symm).mpr (by simpa using ht)
    · simp
  fdType := by simp [clearEvent]

/-- `aio_event_free` rewrites its own slot, takes its descriptor out of the
interest set if it was pending, and touches nothing else the invariant reads. -/
theorem aioEventFree_cases {r : EventTable} (hr : TableWf r) (fd : ℤ) :
    (r.aioEventFds fd = none ∧ aioEventFree r fd = r) ∨
    ∃ ev, r.aioEventFds fd = some ev ∧
      (aioEventFree r fd).aioEventFds = Function.update r.aioEventFds fd (some (clearEvent ev)) ∧
      (aioEventFree r fd).interest = Function.update r.interest fd none := by
  cases hslot : r.aioEventFds fd with
  | none => exact .inl ⟨rfl, by simp [aioEventFree, hslot]⟩
  | some ev =>
    have hwf := hr.slot _ _ hslot
    refine .inr ⟨ev, rfl, ?_⟩
    cases ht : ev.fdType with
    | none =>
      have hctx : ev.phpContext = none := by
        by_contra hne
        exact hwf.fdType.mpr hne ht
      have hi : r.interest fd = none := hr.interest_of_idle (by simp [waiter, hslot, hctx])
      simp [aioEventFree, hslot, ht, ← hi]
    | some t => cases t <;> simp [aioEventFree, hslot, ht, hwf.fd_eq]

theorem TableWf.clear {r r' : EventTable} {fd : ℤ} {ev : AioEvent} (hr : TableWf r)
    (hev : r.aioEventFds fd = some ev)
    (hslots : r'.aioEventFds = Function.update r.aioEventFds fd (some (clearEvent ev)))
    (hi : r'.interest = Function.update r.interest fd none) : TableWf r' where
  slot := by
    intro fd' ev' h
    rw [hslots] at h
    by_cases hfd : fd' = fd
    · subst hfd
      simp only [Function.update_self, Option.some.injEq] at h
      exact h ▸ slotWf_clearEvent (hr.slot _ _ hev)
    · exact hr.slot _ _ (by simpa [hfd] using h)
  interest := by
    intro fd' e h
    rw [hi] at h
    have hfd : fd' ≠ fd := by
      rintro rfl
      simp at h
    obtain ⟨ev', hev', he, hc⟩ := hr.interest fd' e (by simpa [hfd] using h)
    exact ⟨ev', by rw [hslots]; simpa [hfd] using hev', he, hc⟩

theorem TableWf.free {r : EventTable} (hr : TableWf r) (fd : ℤ) : TableWf (aioEventFree r fd) := by
  rcases aioEventFree_cases hr fd with ⟨_, he⟩ | ⟨ev, hev, hslots, hi⟩
  · rw [he]
    exact hr
  · exact hr.clear hev hslots hi

theorem TableWf.dropInterest {r : EventTable} (hr : TableWf r) (fd : ℤ) :
    TableWf (r.dropInterest fd) where
  slot := hr.slot
  interest := by
    intro fd' e h
    have hfd : fd' ≠ fd := by
      rintro rfl
      simp at h
    exact hr.interest fd' e (by simpa [hfd] using h)

/-- Freeing repairs the one descriptor that was closed before. -/
theorem Watched.free_dropInterest {r : EventTable} (hr : TableWf r) (hw : Watched r) (fd : ℤ)
    (closed : Bool) : Watched (aioEventFree (if closed then r.dropInterest fd else r) fd) := by
  have hwf : TableWf (if closed then r.dropInterest fd else r) := by
    split_ifs
    · exact hr.dropInterest fd
    · exact hr
  have hslots : (if closed then r.dropInterest fd else r).aioEventFds = r.aioEventFds := by
    split_ifs <;> rfl
  have hint : ∀ fd' ≠ fd, (if closed then r.dropInterest fd else r).interest fd' = r.interest fd' := by
    intro fd' hne
    split_ifs
    · simp [hne]
    · rfl
  intro fd' ev' hev' hc
  rcases aioEventFree_cases hwf fd with ⟨hn, he⟩ | ⟨ev, hev, hs, hi⟩
  · rw [he, hslots] at hev'
    -- an empty slot waits for nothing
    have hfd : fd' ≠ fd := by
      rintro rfl
      rw [hslots, hev'] at hn
      cases hn
    rw [he, hint _ hfd]
    exact hw fd' ev' hev' hc
  · rw [hs, hslots] at hev'
    -- a freed slot is idle
    have hfd : fd' ≠ fd := by
      rintro rfl
      simp only [Function.update_self, Option.some.injEq] at hev'
      exact hc (hev' ▸ rfl)
    rw [hi, Function.update_of_ne hfd, hint _ hfd]
    exact hw fd' ev' (by simpa [hfd] using hev') hc

theorem Watched.free {r : EventTable} (hr : TableWf r) (hw : Watched r) (fd : ℤ) :
    Watched (aioEventFree r fd) := by
  simpa using hw.free_dropInterest hr fd false

theorem aioEventFds_invokeTable (r : EventTable) (fd : ℤ) :
    (invokeTable r fd).aioEventFds = (aioEventFree r fd).aioEventFds := by
  unfold invokeTable
  cases hslot : r.aioEventFds fd with
  | none => simp [aioEventFree, hslot]
  | some ev => rfl

theorem interest_invokeTable (r : EventTable) (fd : ℤ) :
    (invokeTable r fd).interest = (aioEventFree r fd).interest := by
  unfold invokeTable
  cases hslot : r.aioEventFds fd with
  | none => simp [aioEventFree, hslot]
  | some ev => rfl

theorem TableWf.congr {r r' : EventTable} (hr : TableWf r) (hs : r'.aioEventFds = r.aioEventFds)
    (hi : r'.interest = r.interest) : TableWf r' where
  slot := by rw [hs]; exact hr.slot
  interest := by rw [hs, hi]; exact hr.interest

theorem Watched.congr {r r' : EventTable} (hw : Watched r) (hs : r'.aioEventFds = r.aioEventFds)
    (hi : r'.interest = r.interest) : Watched r' := by
  unfold Watched
  rw [hs, hi]
  exact hw

theorem TableWf.invokeTable {r : EventTable} (hr : TableWf r) (fd : ℤ) :
    TableWf (invokeTable r fd) :=
  (hr.free fd).congr (aioEventFds_invokeTable r fd) (interest_invokeTable r fd)

theorem Watched.invokeTable {r : EventTable} (hr : TableWf r) (hw : Watched r) (fd : ℤ) :
    Watched (invokeTable r fd) :=
  (hw.free hr fd).congr (aioEventFds_invokeTable r fd) (interest_invokeTable r fd)

theorem slot_aioEventFree (r : EventTable) (fd fd' : ℤ) :
    (aioEventFree r fd).aioEventFds fd' =
      if fd' = fd then (r.aioEventFds fd).map clearEvent else r.aioEventFds fd' := by
  cases hslot : r.aioEventFds fd with
  | none =>
    have he : aioEventFree r fd = r := by simp [aioEventFree, hslot]
    rw [he]
    split_ifs with hfd
    · simp [hfd, hslot]
    · rfl
  | some ev =>
    have hs : (aioEventFree r fd).aioEventFds =
        Function.update r.aioEventFds fd (some (clearEvent ev)) := by
      cases ht : ev.fdType with
      | none => simp [aioEventFree, hslot, ht]
      | some t => cases t <;> simp [aioEventFree, hslot, ht]
    rw [hs, Function.update_apply, Option.map_some]

theorem waiter_aioEventFree (r : EventTable) (fd fd' : ℤ) :
    (aioEventFree r fd).waiter fd' = if fd' = fd then none else r.waiter fd' := by
  simp only [waiter, slot_aioEventFree]
  split_ifs
  · cases r.aioEventFds fd <;> rfl
  · rfl

theorem slot_of_pending_aioEventFree {r : EventTable} {fd fd' : ℤ} {ev : AioEvent} {c : Ptr}
    (hev : (aioEventFree r fd).aioEventFds fd' = some ev) (hc : ev.phpContext = some c) :
    r.aioEventFds fd' = some ev := by
  rw [slot_aioEventFree] at hev
  split_ifs at hev
  · obtain ⟨ev₀, _, rfl⟩ := Option.map_eq_some_iff.mp hev
    simp at hc
  · exact hev

def TableEvent.isRelease : TableEvent → Bool
  | .freed _ _ => true
  | .closed _ => true
  | _ => false

theorem log_aioEventFree_releases (r : EventTable) (fd : ℤ) :
    ∃ es, (aioEventFree r fd).log = es ++ r.log ∧ ∀ e ∈ es, e.isRelease = true := by
  unfold aioEventFree
  cases r.aioEventFds fd with
  | none => exact ⟨[], rfl, by simp⟩
  | some ev =>
    cases hty : ev.fdType with
    | none => exact ⟨[], by simp only [hty]; rfl, by simp⟩
    | some ty =>
      cases ty with
      | accept => exact ⟨[], by simp only [hty]; rfl, by simp⟩
      | normal => exact ⟨[], by simp only [hty]; rfl, by simp⟩
      | timmer =>
        refine ⟨(ev.timer.map (TableEvent.freed ev.fd)).toList ++ [.closed ev.fd], ?_, ?_⟩
        · simp only [hty, List.append_assoc, List.cons_append, List.nil_append]
        · cases ev.timer <;> simp [TableEvent.isRelease]

theorem mem_log_aioEventFree {r : EventTable} {fd : ℤ} {e : TableEvent} (he : e.isRelease = false)
    (h : e ∈ (aioEventFree r fd).log) : e ∈ r.log := by
  obtain ⟨es, hlog, hes⟩ := log_aioEventFree_releases r fd
  rw [hlog] at h
  rcases List.mem_append.mp h with h | h
  · simp [hes e h] at he
  · exact h

theorem waiter_invokeTable (r : EventTable) (fd fd' : ℤ) :
    (invokeTable r fd).waiter fd' = if fd' = fd then none else r.waiter fd' := by
  rw [← waiter_aioEventFree]
  simp only [waiter, aioEventFds_invokeTable]

@[simp] theorem waiter_dropInterest (r : EventTable) (fd fd' : ℤ) :
    (r.dropInterest fd).waiter fd' = r.waiter fd' := rfl

theorem waiter_setSlot_none {r : EventTable} {fd : ℤ} (h : r.waiter fd = none) (fd' : ℤ) :
    (r.setSlot fd none).waiter fd' = r.waiter fd' := by
  by_cases hfd : fd' = fd
  · subst hfd
    rw [h]
    simp [waiter]
  · simp [waiter, hfd]

theorem waiter_registerSlot (r : EventTable) (ev : AioEvent) (a : StoreArgs) (fd : ℤ) :
    (registerSlot r ev a).waiter fd = if fd = a.fd then some a.context else r.waiter fd := by
  split_ifs with hfd
  · simp [waiter, registerSlot, hfd, recordWaiter]
  · simp [waiter, registerSlot, hfd]

end Phpco
