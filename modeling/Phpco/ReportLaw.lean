import Phpco.CallLaw

/-!
# What `epoll_wait` reports

`event_loop` looks at two bits of an entry's mask.  A waiter whose descriptor is
reported with neither of them, as an error or a hang-up alone, stays where it is.
-/

namespace Phpco
open Except EventTable

/-- The entry that the batch on top of the C stack has reached. -/
def batchEntry (s : State) : Option EpollEvent :=
  match s.stack with
  | .eventLoop l :: _ =>
    match l.phase with
    | .batch (e :: _) _ => some e
    | _ => none
  | _ => none

theorem batchEntry_eq_some {s : State} {e : EpollEvent} (h : batchEntry s = some e) :
    ∃ l stack events since, s.stack = .eventLoop l :: stack ∧ l.phase = .batch (e :: events) since := by
  unfold batchEntry at h
  split at h
  case h_1 l stack hs =>
    split at h
    case h_1 e' events since hp =>
      cases h
      exact ⟨l, stack, events, since, hs, hp⟩
    case h_2 => cases h
  case h_2 => cases h

/-- The step from `s` to `s'` serves entry `e`: it makes one `aio_invoke` of the waiter on the
reported descriptor, the only one this waiter ever gets, and leaves all others alone. -/
structure EntryServed (s s' : State) (e : EpollEvent) : Prop where
  waiter : ∀ c, s.rg.waiter e.dataFd = some c →
    invocations s.rg.log c = 0 ∧ invocations s'.rg.log c = 1 ∧ s'.rg.waiter e.dataFd = none
  others : ∀ fd, fd ≠ e.dataFd → ∀ c, s.rg.waiter fd = some c →
    s'.rg.waiter fd = some c ∧ invocations s'.rg.log c = invocations s.rg.log c

theorem rg_of_not_dispatched {s s' : State} {e : EpollEvent} {answer : Zval}
    (he : batchEntry s = some e) (hd : ¬ dispatched e) (h : step s (.loopStep answer) = .ok s') :
    s'.rg = s.rg := by
  obtain ⟨l, stack, events, since, hs, hp⟩ := batchEntry_eq_some he
  simp only [step, hs, eventLoopStep, hp, if_neg hd] at h
  cases h
  rfl

theorem dispatchFd_of_dispatched {s : State} {e : EpollEvent} (he : batchEntry s = some e)
    (hd : dispatched e) : dispatchFd s = some e.dataFd := by
  obtain ⟨l, stack, events, since, hs, hp⟩ := batchEntry_eq_some he
  simp only [dispatchFd, hs, hp, if_pos hd]

theorem entryServed_of_dispatched {s s' : State} {e : EpollEvent} {answer : Zval} (hpend : Pending s)
    (he : batchEntry s = some e) (hd : dispatched e) (h : step s (.loopStep answer) = .ok s') :
    EntryServed s s' e := by
  obtain ⟨hrg, _⟩ := step_dispatch (dispatchFd_of_dispatched he hd) h
  refine ⟨?_, ?_⟩
  · intro c hc
    have hzero := hpend.pending _ c hc
    refine ⟨hzero, ?_, ?_⟩
    · rw [hrg, invocations_invokeTable, hzero, if_pos hc]
    · rw [hrg, waiter_invokeTable, if_pos rfl]
  · intro fd hfd c hc
    have hne : s.rg.waiter e.dataFd ≠ some c := fun hc' => hfd (hpend.distinct _ _ c hc hc')
    constructor
    · rw [hrg, waiter_invokeTable, if_neg hfd]
      exact hc
    · rw [hrg, invocations_invokeTable, if_neg hne]
      rfl

/-- The entry that a batch has reached is served exactly if it has one of the bits `EPOLLIN` and
`EPOLLOUT`, or nothing waits on its descriptor. -/
theorem entry_served_iff {s s' : State} {e : EpollEvent} {answer : Zval}
    (h : Reached (fun _ _ => True) s) (he : batchEntry s = some e)
    (hstep : step s (.loopStep answer) = .ok s') :
    EntryServed s s' e ↔ dispatched e ∨ s.rg.waiter e.dataFd = none := by
  have hpend := pending_of_reached h
  constructor
  · intro hserved
    by_contra! hnot
    obtain ⟨c, hc⟩ := Option.ne_none_iff_exists'.mp hnot.2
    have hgone := (hserved.waiter c hc).2.2
    rw [rg_of_not_dispatched he hnot.1 hstep, hc] at hgone
    cases hgone
  · intro hor
    by_cases hd : dispatched e
    · exact entryServed_of_dispatched hpend he hd hstep
    · have hnone := hor.resolve_left hd
      have hrg := rg_of_not_dispatched he hd hstep
      refine ⟨fun c hc => ?_, fun fd _ c hc => ?_⟩
      · rw [hnone] at hc
        cases hc
      · rw [hrg]
        exact ⟨hc, rfl⟩

def reportRun (events : Mask) : List Action :=
  [createCall 1, readCall 3, .eventLoop callSite, .epollWait [⟨events, 3⟩]]

theorem entry_served_iff_hangup : ∃ s s',
    Transition.runFrom step (initial 0 0) (reportRun (epollIn ||| epollHup)) = .ok s ∧
    step s (.loopStep (.value 7)) = .ok s' ∧ s.rg.waiter 3 ≠ none ∧
    EntryServed s s' ⟨epollIn ||| epollHup, 3⟩ := by
  obtain ⟨s, hrun, hs, hp⟩ := exists_reached (reportRun (epollIn ||| epollHup))
    (fun s => batchEntry s = some ⟨epollIn ||| epollHup, 3⟩ ∧ s.rg.waiter 3 ≠ none ∧
      (step s (.loopStep (.value 7))).isOk) (by decide)
  simp only [decide_eq_true_eq] at hp
  obtain ⟨he, hw, hstep⟩ := hp
  obtain ⟨s', hs'⟩ := exists_of_isOk hstep
  exact ⟨s, s', hrun, hs', hw, (entry_served_iff hs he hs').mpr (.inl (by decide))⟩

/-- The waiter stays registered, and nothing is invoked. -/
theorem error_report_not_served : ∃ s s',
    Transition.runFrom step (initial 0 0) (reportRun (epollErr ||| epollHup)) = .ok s ∧
    Reached (fun _ _ => True) s ∧ batchEntry s = some ⟨epollErr ||| epollHup, 3⟩ ∧
    step s (.loopStep .null) = .ok s' ∧ s'.rg.waiter 3 = s.rg.waiter 3 ∧
    ¬ EntryServed s s' ⟨epollErr ||| epollHup, 3⟩ := by
  obtain ⟨s, hrun, hs, hp⟩ := exists_reached (reportRun (epollErr ||| epollHup))
    (fun s => batchEntry s = some ⟨epollErr ||| epollHup, 3⟩ ∧ s.rg.waiter 3 ≠ none ∧
      (step s (.loopStep .null)).isOk) (by decide)
  simp only [decide_eq_true_eq] at hp
  obtain ⟨he, hw, hstep⟩ := hp
  obtain ⟨s', hs'⟩ := exists_of_isOk hstep
  have hrg := rg_of_not_dispatched he (by decide) hs'
  refine ⟨s, s', hrun, hs, he, hs', by rw [hrg], fun hserved => ?_⟩
  obtain ⟨c, hc⟩ := Option.ne_none_iff_exists'.mp hw
  have hgone := (hserved.waiter c hc).2.2
  rw [hrg] at hgone
  exact hw hgone

end Phpco
