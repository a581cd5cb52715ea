import Phpco.Bounds

/-!
# Registrations

An I/O call that suspends its coroutine has registered it, unless another
coroutine waited on the same descriptor: then `_aio_event_store` returns `C_OK`
without looking at the new context.
-/

namespace Phpco
open Except EventTable

/-- The slot of the request's descriptor holds the request, the kernel watches for it,
and the waiters there were are still there. -/
structure Recorded (s s₁ : State) (q : StoreArgs) : Prop where
  slot : ∃ ev, s₁.rg.aioEventFds q.fd = some ev ∧ ev.phpContext = some q.context ∧
    ev.epEvent = ⟨q.events, q.fd⟩ ∧ ev.fdType = some q.fdType ∧ ev.timer = q.timer ∧
    ev.object = q.object ∧ ev.objectName = q.objectName ∧ ev.functionName = q.functionName ∧
    ev.arguments = q.arguments ∧ ev.argsCount = q.argsCount
  interest : s₁.rg.interest q.fd = some ⟨q.events, q.fd⟩
  context : ∃ ctx, s₁.contexts q.context = .saved ctx ∧ ctx.task = s.corog.currentCoro
  kept : ∀ fd c, s.rg.waiter fd = some c → s₁.rg.waiter fd = some c

theorem recorded_registerSlot {s s₁ : State} {r : EventTable} {q : StoreArgs} {ev : AioEvent}
    {ctx : PhpContext} (hw : s.rg.waiter q.fd = none) (hev : ev.epEvent = ⟨q.events, q.fd⟩)
    (hsame : SameSlots s.rg r) (hrg : s₁.rg = registerSlot r ev q)
    (hctx : s₁.contexts q.context = .saved ctx) (htask : ctx.task = s.corog.currentCoro) :
    Recorded s s₁ q where
  slot := by
    refine ⟨recordWaiter ev q, ?_, rfl, hev, rfl, rfl, rfl, rfl, rfl, rfl, rfl⟩
    simp [hrg, registerSlot]
  interest := by
    rw [← hev]
    simp [hrg, registerSlot]
  context := ⟨ctx, hctx, htask⟩
  kept := by
    intro fd c hc
    have hne : fd ≠ q.fd := by
      rintro rfl
      simp [hw] at hc
    rw [hrg, waiter_registerSlot, if_neg hne, hsame.waiter]
    exact hc

/-- The slot keeps the context that waited there, which is not the new one. -/
theorem not_recorded_of_waiter {s s₁ : State} {q : StoreArgs} {c : Ptr}
    (hc : s.rg.waiter q.fd = some c) (hne : c ≠ q.context) (h : Recorded s s₁ q) : False := by
  obtain ⟨ev, hev, hctx, _⟩ := h.slot
  have hkept := h.kept q.fd c hc
  rw [waiter_eq_some.mpr ⟨ev, hev, hctx⟩] at hkept
  exact hne (Option.some.inj hkept).symm

/-- An I/O call that goes on to `coro_yield` is recorded exactly if nothing waited on
its descriptor. -/
theorem io_recorded_iff_not_waiting {s s₁ : State} {a : Action} (h : Reached (fun _ _ => True) s)
    (ha : isIo a = true) (hy : phpStep s a = .ok (.yields s₁)) :
    ∃ q addOk, ioRequest s a = some (q, addOk) ∧ (Recorded s s₁ q ↔ s.rg.waiter q.fd = none) := by
  cases ioStep ha hy with
  | refused site v ho => cases ho
  | asked site r q addOk hq hsame hlt hst =>
    refine ⟨q, addOk, hq, ?_, ?_⟩
    · intro hrec
      by_contra hw
      obtain ⟨c, hc⟩ := Option.ne_none_iff_exists'.mp hw
      have hfresh : c < s.next := (waiting_of_reached h).fresh q.fd c hc
      exact not_recorded_of_waiter hc (hfresh.trans hlt).ne hrec
    · intro hw
      obtain ⟨rg, ret, hstore, ⟨_, ho⟩ | ⟨hret, ho⟩⟩ := storeAndYield_cases hst
      · cases ho
      · cases ho
        have hwf : TableWf r := (tableWf_of_reached h).congr hsame.slots hsame.interest
        obtain ⟨_, ⟨rfl, _⟩ | ⟨_, _, _, _, ev, _, hev, rfl⟩ | ⟨_, hw', rfl⟩⟩ :=
          aioEventStore_cases hwf hstore
        · exact absurd hret (by decide)
        · exact recorded_registerSlot hw hev hsame rfl (Function.update_self ..) rfl
        · exact absurd ((hsame.waiter q.fd).trans hw) hw'

def firstReaderRun : List Action := [createCall 1]

theorem io_recorded_iff_not_waiting_read : ∃ s s₁ q addOk,
    Transition.runFrom step (initial 0 0) firstReaderRun = .ok s ∧
    phpStep s (readCall 3) = .ok (.yields s₁) ∧ ioRequest s (readCall 3) = some (q, addOk) ∧
    Recorded s s₁ q := by
  obtain ⟨s, hrun, hs, hp⟩ := exists_reached firstReaderRun
    (fun s => yields (phpStep s (readCall 3)) ∧
      (ioRequest s (readCall 3)).all fun q => s.rg.waiter q.1.fd = none) (by decide)
  simp only [Option.all_eq_true, decide_eq_true_eq] at hp
  obtain ⟨s₁, hy⟩ := exists_of_yields hp.1
  obtain ⟨q, addOk, hq, hiff⟩ := io_recorded_iff_not_waiting hs rfl hy
  exact ⟨s, s₁, q, addOk, hrun, hy, hq, hiff.mpr (hp.2 _ hq)⟩

def secondReaderRun : List Action :=
  [createCall 1, readCall 3, createCall 2]

/-- The second coroutine suspends, and the slot keeps the first one. -/
theorem second_reader_not_recorded : ∃ s s₁ q addOk,
    Transition.runFrom step (initial 0 0) secondReaderRun = .ok s ∧
    Reached (fun _ _ => True) s ∧ phpStep s (readCall 3) = .ok (.yields s₁) ∧
    ioRequest s (readCall 3) = some (q, addOk) ∧ ¬ Recorded s s₁ q := by
  obtain ⟨s, hrun, hs, hp⟩ := exists_reached secondReaderRun
    (fun s => yields (phpStep s (readCall 3)) ∧ (ioRequest s (readCall 3)).any fun q =>
      (s.rg.waiter q.1.fd).any (· ≠ q.1.context)) (by decide)
  simp only [Option.any_eq_true, decide_eq_true_eq] at hp
  obtain ⟨hy, ⟨q, addOk⟩, hq, c, hc, hne⟩ := hp
  obtain ⟨s₁, hy⟩ := exists_of_yields hy
  exact ⟨s, s₁, q, addOk, hrun, hs, hy, hq, not_recorded_of_waiter hc hne⟩

end Phpco
