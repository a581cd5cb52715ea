import Phpco.Bounds

/-!
# What becomes of a waiter

A context leaves its slot when `aio_invoke` resumes it, or when
`coroutine::socket_close` clears the slot under it.
-/

namespace Phpco
open Except EventTable

/-- Every waiter stays in its slot, but for one that the step resumes. -/
def KeepsWaiters (s s' : State) : Prop :=
  ∀ fd c, s.rg.waiter fd = some c → s'.rg.waiter fd = some c ∨
    ∃ t act result, s'.log = .switched t (.io fd) c act result :: s.log

/-- `coroutine::socket_close` of a descriptor that a coroutine waits on. -/
def ClosesWaiter (s : State) (a : Action) : Prop :=
  ∃ site io closed retval fd, a = .socketClose site io closed retval ∧ firstFd io = .ok fd ∧
    s.rg.waiter fd ≠ none

theorem step_socketClose {s s' : State} {site : CallSite} {io : IoArgs} {closed : Bool}
    {retval : Zval} {fd : ℤ} (h : step s (.socketClose site io closed retval) = .ok s')
    (hfd : firstFd io = .ok fd) :
    s'.rg.waiter fd = none ∧ s'.log = .returned retval :: s.log := by
  obtain ⟨_, o, ho, hs⟩ := php_step_cases rfl h
  obtain ⟨s₁, hc, ho⟩ := bind_eq_ok.mp ho
  cases ho
  cases hs
  obtain ⟨fd', hfd', hc⟩ := bind_eq_ok.mp hc
  obtain rfl : fd = fd' := Except.ok.inj (hfd.symm.trans hfd')
  obtain ⟨_, _, hc⟩ := bind_eq_ok.mp hc
  cases hc
  refine ⟨?_, rfl⟩
  simp only [leaveCall]
  rw [waiter_aioEventFree, if_pos rfl]

/-- A step that closes no waiter keeps all of them. -/
theorem keepsWaiters_step {s s' : State} {a : Action} (hr : TableWf s.rg) (hw : Waiting s)
    (ha : ¬ ClosesWaiter s a) (h : step s a = .ok s') : KeepsWaiters s s' := by
  intro fd c hc
  cases tableMove h with
  | same hrg _ => exact .inl (hrg ▸ hc)
  | init _ _ _ _ hn _ =>
    -- before `coro_init` nothing waits
    simp [hw.idle (hw.uninit hn) fd] at hc
  | store q addOk r r' ret _ hsame _ _ hst hrg _ =>
    have hc' : r.waiter fd = some c := (hsame.waiter fd).trans hc
    left
    rw [hrg]
    obtain ⟨_, ⟨_, hidle, rfl⟩ | ⟨_, hidle, _, _, ev, _, _, rfl⟩ | ⟨_, _, rfl⟩⟩ :=
      aioEventStore_cases (hr.congr hsame.slots hsame.interest) hst
    · rw [waiter_setSlot_none hidle, hc']
    · have hne : fd ≠ q.fd := by
        rintro rfl
        simp [hidle] at hc'
      rw [waiter_registerSlot, if_neg hne, hc']
    · exact hc'
  | invoke answer fd' _ _ _ hrg _ hlog =>
    by_cases hfd : fd = fd'
    · subst hfd
      exact .inr (hlog c hc)
    · rw [hrg, waiter_invokeTable, if_neg hfd]
      exact .inl hc
  | socketClose site io closed retval fd' ha' hfd' _ hrg _ =>
    have hfd : fd ≠ fd' := by
      rintro rfl
      exact ha ⟨site, io, closed, retval, fd, ha', hfd', by simp [hc]⟩
    rw [hrg, waiter_aioEventFree, if_neg hfd]
    split_ifs <;> exact .inl hc
  | closeFd fd' _ hrg _ =>
    rw [hrg]
    exact .inl hc

theorem not_keepsWaiters_of_closes {s s' : State} {a : Action} (ha : ClosesWaiter s a)
    (h : step s a = .ok s') : ¬ KeepsWaiters s s' := by
  obtain ⟨site, io, closed, retval, fd, rfl, hfd, hne⟩ := ha
  obtain ⟨hnone, hlog⟩ := step_socketClose h hfd
  obtain ⟨c, hc⟩ := Option.ne_none_iff_exists'.mp hne
  intro hk
  rcases hk fd c hc with hc' | ⟨t, act, result, hlog'⟩
  · simp [hnone] at hc'
  · simp [hlog] at hlog'

/-- Each context registered for a descriptor waits there, or was resumed from there. -/
def Accounted (s : State) : Prop :=
  ∀ q, .registered q ∈ s.rg.log → s.rg.waiter q.fd = some q.context ∨
    ∃ t act result, .switched t (.io q.fd) q.context act result ∈ s.log

theorem registered_invokeTable {r : EventTable} {fd : ℤ} {q : StoreArgs}
    (h : .registered q ∈ (invokeTable r fd).log) : .registered q ∈ r.log := by
  unfold invokeTable at h
  cases hslot : r.aioEventFds fd with
  | none => simpa [hslot] using h
  | some ev =>
    simp only [hslot, List.mem_cons, reduceCtorEq, false_or] at h
    exact mem_log_aioEventFree rfl h

/-- A step records at most the registration that then waits in its slot. -/
theorem registered_step {s s' : State} {a : Action} {q : StoreArgs} (hr : TableWf s.rg)
    (h : step s a = .ok s') (hq : .registered q ∈ s'.rg.log) :
    .registered q ∈ s.rg.log ∨ s'.rg.waiter q.fd = some q.context := by
  cases tableMove h with
  | same hrg _ => exact .inl (hrg ▸ hq)
  | init _ _ _ _ _ hrg =>
    rw [hrg] at hq
    exact .inl hq
  | store q' addOk r r' ret _ hsame _ _ hst hrg _ =>
    rw [hrg] at hq ⊢
    obtain ⟨_, ⟨_, _, rfl⟩ | ⟨_, _, _, _, ev, _, _, rfl⟩ | ⟨_, _, rfl⟩⟩ :=
      aioEventStore_cases (hr.congr hsame.slots hsame.interest) hst
    · exact .inl (hsame.log ▸ hq)
    · rcases List.mem_cons.mp hq with hq | hq
      · cases hq
        exact .inr (by simp [waiter_registerSlot])
      · exact .inl (hsame.log ▸ hq)
    · exact .inl (hsame.log ▸ hq)
  | invoke answer fd _ _ _ hrg _ _ =>
    rw [hrg] at hq
    exact .inl (registered_invokeTable hq)
  | socketClose site io closed retval fd _ _ _ hrg _ =>
    rw [hrg] at hq
    have hq' := mem_log_aioEventFree rfl hq
    split_ifs at hq' <;> exact .inl hq'
  | closeFd fd _ hrg _ =>
    rw [hrg] at hq
    exact .inl hq

theorem accounted_step {s s' : State} {a : Action} (hr : TableWf s.rg) (hacc : Accounted s)
    (hk : KeepsWaiters s s') (h : step s a = .ok s') : Accounted s' := by
  intro q hq
  rcases registered_step hr h hq with hq | hw
  · rcases hacc q hq with hw | ⟨t, act, result, hmem⟩
    · rcases hk q.fd q.context hw with hw | ⟨t, act, result, hlog⟩
      · exact .inl hw
      · exact .inr ⟨t, act, result, hlog ▸ List.mem_cons_self⟩
    · exact .inr ⟨t, act, result, (log_step hr h).subset hmem⟩
  · exact .inl hw

/-- A step loses a waiter exactly if it closes the descriptor under it, and in a run
without such steps every registered context waits in its slot until it is resumed. -/
theorem waiters_kept_iff {s : State} (hs : Reached (fun _ _ => True) s) :
    (∀ a s', step s a = .ok s' → (KeepsWaiters s s' ↔ ¬ ClosesWaiter s a)) ∧
      (Reached (fun s a => ¬ ClosesWaiter s a) s → Accounted s) := by
  constructor
  · intro a s' h
    have hr := tableWf_of_reached hs
    constructor
    · exact fun hk ha => not_keepsWaiters_of_closes ha h hk
    · exact fun ha => keepsWaiters_step hr (waiting_of_reached hs) ha h
  · intro hs
    refine hs.invariant_of (fun s h0 => ?_) fun s a s' hs hacc ha h => ?_
    · obtain ⟨_, _, _, _, rfl⟩ := h0
      intro q hq
      simp [initial, EventTable.initial] at hq
    · have hr := tableWf_of_reached hs
      exact accounted_step hr hacc (keepsWaiters_step hr (waiting_of_reached hs) ha h) h

def waitingRun : List Action := [createCall 1, readCall 3]

def isSocketClose : Action → Bool
  | .socketClose _ _ _ _ => true
  | _ => false

theorem waiters_kept_iff_other : ∃ s s',
    Transition.runFrom step (initial 0 0) waitingRun = .ok s ∧ step s (closeCall 4) = .ok s' ∧
    s.rg.waiter 3 ≠ none ∧ KeepsWaiters s s' ∧ Accounted s := by
  have hok : ∀ s a, (!isSocketClose a) = true → ¬ ClosesWaiter s a := by
    rintro s a ha ⟨site, io, closed, retval, fd, rfl, _⟩
    cases ha
  obtain ⟨s, hrun, hs, hp⟩ := exists_reached_of _ hok waitingRun
    (fun s => s.rg.waiter 3 ≠ none ∧ s.rg.waiter 4 = none ∧ (step s (closeCall 4)).isOk)
    (by decide)
  simp only [decide_eq_true_eq] at hp
  obtain ⟨h3, h4, hstep⟩ := hp
  obtain ⟨s', hs'⟩ := Except.exists_of_isOk hstep
  obtain ⟨hiff, hacc⟩ := waiters_kept_iff hs.weaken
  refine ⟨s, s', hrun, hs', h3, (hiff _ s' hs').mpr ?_, hacc hs⟩
  rintro ⟨site, io, closed, retval, fd, ⟨⟩, hfd, hne⟩
  cases hfd
  exact hne h4

/-- The coroutine is left in no slot. -/
theorem socket_close_loses_waiter : ∃ s s',
    Transition.runFrom step (initial 0 0) waitingRun = .ok s ∧ Reached (fun _ _ => True) s ∧
    step s (closeCall 3) = .ok s' ∧ ¬ KeepsWaiters s s' := by
  obtain ⟨s, hrun, hs, hp⟩ := exists_reached waitingRun
    (fun s => s.rg.waiter 3 ≠ none ∧ (step s (closeCall 3)).isOk) (by decide)
  simp only [decide_eq_true_eq] at hp
  obtain ⟨s', hs'⟩ := Except.exists_of_isOk hp.2
  exact ⟨s, s', hrun, hs, hs', not_keepsWaiters_of_closes ⟨_, _, _, _, 3, rfl, rfl, hp.1⟩ hs'⟩

end Phpco
