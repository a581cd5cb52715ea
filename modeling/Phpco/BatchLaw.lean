import Phpco.Bounds

/-!
# Batches

`event_loop` dispatches a batch by descriptor numbers.  A waiter that the batch
resumes waited already when `epoll_wait` returned, unless a descriptor was
waited for anew while its entry was still to be dispatched.
-/

namespace Phpco
open Except EventTable

def CFrame.loop? : CFrame → Option EventLoop
  | .activation _ => none
  | .eventLoop l => some l

def loops (stack : List CFrame) : List EventLoop := stack.filterMap CFrame.loop?

@[simp] theorem loops_cons_activation (x : Activation) (stack : List CFrame) :
    loops (.activation x :: stack) = loops stack := rfl

@[simp] theorem loops_cons_eventLoop (l : EventLoop) (stack : List CFrame) :
    loops (.eventLoop l :: stack) = l :: loops stack := rfl

theorem loops_subset_of_unwind {act : Ptr} {stack rest : List CFrame} {x : Activation}
    (h : unwind act stack = some (x, rest)) : loops rest ⊆ loops stack := by
  induction stack with
  | nil => simp [unwind] at h
  | cons f stack ih =>
    cases f with
    | eventLoop l => exact List.Subset.trans (ih h) (List.subset_cons_self _ _)
    | activation y =>
      by_cases hy : y.id = act
      · simp only [unwind, if_pos hy, Option.some.injEq, Prod.mk.injEq] at h
        obtain ⟨_, rfl⟩ := h
        exact List.Subset.refl _
      · simp only [unwind, if_neg hy] at h
        exact ih h

theorem loops_coroYield {s s' : State} (h : coroYield s = .ok s') :
    loops s'.stack ⊆ loops s.stack := by
  obtain ⟨x, rest, hj, hret⟩ := coroYield_eq_ok.mp h
  obtain ⟨buf, act, _, _, hu⟩ := jumpTarget_eq_ok.mp hj
  rw [(returnFrom_cases (by decide) hret).1]
  exact loops_subset_of_unwind hu

theorem loops_setjmp {s s' : State} {switch : Switch} (h : setjmp s switch = .ok s') :
    loops s'.stack = loops s.stack := by
  obtain ⟨buf, _, _, rfl⟩ := setjmp_eq_ok.mp h
  rfl

theorem loops_cCoroResume {s s' : State} {c : Ptr} {retval : Option Zval} {w : Wait}
    {switch : Switch} (h : cCoroResume s c retval w switch = .ok s') :
    loops s'.stack = loops s.stack := by
  obtain ⟨ctx, current, frames, result, _, _, _, _, hj⟩ := cCoroResume_cases h
  rw [loops_setjmp hj]
  rfl

theorem loops_coroutineCreate {s s' : State} {frame : InternalCall} {slots : ℕ} {callback : Zval}
    (h : coroutineCreate s frame slots callback = .ok s') : loops s'.stack = loops s.stack := by
  have hi := ensureInit_stack s
  obtain ⟨cid, cids, _, ⟨_, _, ht⟩ | ⟨_, hj⟩⟩ := coroutineCreate_cases h
  · obtain ⟨buf, tasks, _, _, rfl⟩ := coroutineCreateTail_cases (by decide) ht
    exact congrArg loops hi
  · rw [loops_setjmp hj]
    exact congrArg loops hi

/-- A step leaves each loop as it was, but for the innermost one, which may go on, and
for one that is entered. -/
theorem loops_step {s s' : State} {a : Action} (hr : TableWf s.rg) (h : step s a = .ok s')
    {l' : EventLoop} (hl' : l' ∈ loops s'.stack) :
    l' ∈ loops s.stack ∨ l'.phase = .wait ∨ ∃ l ∈ loops s.stack, GoesOn s l l' ∧
      ∀ fd c, s'.rg.waiter fd = some c → s.rg.waiter fd = some c := by
  cases step_move hr h with
  | quiet _ hs _ => exact .inl (hs ▸ hl')
  | enterLoop site _ _ _ hs =>
    rw [hs] at hl'
    rcases List.mem_cons.mp hl' with rfl | hl'
    · exact .inr (.inl rfl)
    · exact .inl hl'
  | loop l l₁ stack hq hs hs' hgo _ =>
    rw [hs'] at hl'
    rw [hs]
    rcases List.mem_cons.mp hl' with rfl | hl'
    · exact .inr (.inr ⟨l, List.mem_cons_self, hgo, hq.waiter⟩)
    · exact .inl (List.mem_cons_of_mem _ hl')
  | leaveLoop l stack _ hs hs' _ =>
    rw [hs'] at hl'
    rw [hs]
    exact .inl (List.mem_cons_of_mem _ hl')
  | invoke l l₁ stack fd ev c v hs hgo _ _ _ hres =>
    rw [loops_cCoroResume hres] at hl'
    rw [hs]
    rcases List.mem_cons.mp hl' with rfl | hl'
    · refine .inr (.inr ⟨l, List.mem_cons_self, hgo, fun fd' c' hc' => ?_⟩)
      -- the loop below gave up one waiter, the one it invokes
      rw [(unswitched_cCoroResume hres).rg] at hc'
      simp only [waiter_invokeTable] at hc'
      split_ifs at hc'
      exact hc'
    · exact .inl (List.mem_cons_of_mem _ hl')
  | create site slots callback _ _ hc =>
    rw [loops_coroutineCreate hc] at hl'
    exact .inl hl'
  | resume site arg c _ _ _ _ hres =>
    rw [loops_cCoroResume hres] at hl'
    exact .inl hl'
  | yield site s₁ _ _ hy hc =>
    obtain ⟨t, task, _, _, _, hs₁⟩ := coroutineYield_cases hy
    have hl := loops_coroYield hc hl'
    rw [hs₁] at hl
    exact .inl hl
  | block fd c s₁ _ _ _ hb hc =>
    have hl := loops_coroYield hc hl'
    rw [hb.stack] at hl
    exact .inl hl
  | finish x stack base s₁ _ hs _ hc hret =>
    obtain ⟨t, task, retval, _, _, _, rfl⟩ := coroClose_eq_ok.mp hc
    -- `coro_close` does not touch the C stack, the jump back leaves one activation
    rw [(returnFrom_cases (by decide) hret).1] at hl'
    rw [hs]
    exact .inl hl'

/-- `fd` has an entry in a batch that is not dispatched yet. -/
def Due (s : State) (fd : ℤ) : Prop :=
  ∃ l ∈ loops s.stack, ∃ events since, l.phase = .batch events since ∧
    ∃ e ∈ events, e.dataFd = fd ∧ dispatched e

/-- A step that waits anew for a descriptor whose entry is still to be dispatched. -/
def WaitsOnDue (s : State) (a : Action) : Prop :=
  ∃ q, ioRequest s a = some (q, true) ∧ s.rg.waiter q.fd = none ∧ Due s q.fd

/-- The entries `events` that are left of a batch were reported for waits in `since`, and
who waits for one of them now waited in `since`. -/
def BatchOk (s : State) (events : List EpollEvent) (since : EventTable) : Prop :=
  ∀ e ∈ events, dispatched e →
    (∃ ev, since.aioEventFds e.dataFd = some ev ∧ ev.epEvent.events &&& e.events ≠ 0) ∧
    ∀ c, s.rg.waiter e.dataFd = some c → since.waiter e.dataFd = some c

def BatchesOk (s : State) : Prop :=
  ∀ l ∈ loops s.stack, ∀ events since, l.phase = .batch events since → BatchOk s events since

theorem events_of_reported {i e : Mask} (h : e &&& ~~~(i ||| epollErr ||| epollHup) = 0)
    (hd : e &&& epollIn ≠ 0 ∨ e &&& epollOut ≠ 0) : i &&& e ≠ 0 := by
  have hbit : ∀ k, e.getLsbD k = true → epollErr.getLsbD k = false → epollHup.getLsbD k = false →
      i &&& e ≠ 0 := by
    intro k hk herr hhup hz
    have hlt : k < 32 := BitVec.lt_of_getLsbD hk
    have h₁ := congrArg (fun m => BitVec.getLsbD m k) h
    have h₂ := congrArg (fun m => BitVec.getLsbD m k) hz
    simp only [BitVec.getLsbD_and, BitVec.getLsbD_not, BitVec.getLsbD_or, hk, herr, hhup, hlt,
      Bool.or_false, Bool.true_and, decide_true, Bool.and_true] at h₁ h₂
    simp [h₂] at h₁
  rcases hd with hd | hd
  · refine hbit 0 ?_ (by decide) (by decide)
    by_contra hk
    rw [show epollIn = BitVec.twoPow 32 0 by decide, BitVec.and_twoPow, if_neg hk] at hd
    exact hd rfl
  · refine hbit 2 ?_ (by decide) (by decide)
    by_contra hk
    rw [show epollOut = BitVec.twoPow 32 2 by decide, BitVec.and_twoPow, if_neg hk] at hd
    exact hd rfl

theorem batchOk_of_mayReturn {s s' : State} {batch : List EpollEvent} (hr : TableWf s.rg)
    (hm : mayReturn s batch) (hwait : ∀ fd c, s'.rg.waiter fd = some c → s.rg.waiter fd = some c) :
    BatchOk s' batch s.rg := by
  intro e he hd
  obtain ⟨⟨i, hi, _, _, hmask⟩, _⟩ := hm.2.2 e he
  obtain ⟨ev, hev, rfl, _⟩ := hr.interest e.dataFd i hi
  exact ⟨⟨ev, hev, events_of_reported hmask hd⟩, hwait e.dataFd⟩

theorem BatchOk.mono {s s' : State} {events events' : List EpollEvent} {since : EventTable}
    (h : BatchOk s events since) (hsub : events' ⊆ events)
    (hwait : ∀ e ∈ events', dispatched e → ∀ c, s'.rg.waiter e.dataFd = some c →
      s.rg.waiter e.dataFd = some c) : BatchOk s' events' since := by
  intro e he hd
  obtain ⟨hev, hc⟩ := h e (hsub he) hd
  exact ⟨hev, fun c hc' => hc c (hwait e he hd c hc')⟩

theorem batchesOk_step {s s' : State} {a : Action} (hr : TableWf s.rg) (hb : BatchesOk s)
    (hok : ¬ WaitsOnDue s a) (h : step s a = .ok s') : BatchesOk s' := by
  -- only an I/O call begins a wait, and then not on a descriptor that is due
  have hwait : ∀ fd, Due s fd → ∀ c, s'.rg.waiter fd = some c → s.rg.waiter fd = some c := by
    intro fd hdue c hc
    rcases waiter_step hr h hc with hc | ⟨_, hn, _, _, q, hq, rfl, _⟩
    · exact hc
    · exact absurd ⟨q, hq, hn, hdue⟩ hok
  intro l' hl' events since hp
  rcases loops_step hr h hl' with hl | hphase | ⟨l, hl, ⟨_, hnext | ⟨batch, hm, hphase⟩⟩, hold⟩
  · exact (hb l' hl events since hp).mono (List.Subset.refl _) fun e he hd =>
      hwait e.dataFd ⟨l', hl, events, since, hp, e, he, rfl, hd⟩
  · rw [hphase] at hp
    cases hp
  · obtain ⟨e₀, hp₀⟩ := hnext events since hp
    exact (hb l hl _ since hp₀).mono (List.subset_cons_self _ _) fun e he hd =>
      hwait e.dataFd ⟨l, hl, _, since, hp₀, e, List.mem_cons_of_mem _ he, rfl, hd⟩
  · rw [hphase] at hp
    cases hp
    exact batchOk_of_mayReturn hr hm hold

/-- The waiter that the next entry of the batch resumes waited when `epoll_wait`
returned, and for something that the entry reports. -/
def DispatchLawful (s : State) : Prop :=
  ∀ l stack e events since, s.stack = .eventLoop l :: stack → l.phase = .batch (e :: events) since →
    dispatched e → ∀ c, s.rg.waiter e.dataFd = some c →
      ∃ ev, since.aioEventFds e.dataFd = some ev ∧ ev.phpContext = some c ∧
        ev.epEvent.events &&& e.events ≠ 0

theorem BatchesOk.dispatchLawful {s : State} (h : BatchesOk s) : DispatchLawful s := by
  intro l stack e events since hs hp hd c hc
  have hl : l ∈ loops s.stack := by
    rw [hs]
    exact List.mem_cons_self
  obtain ⟨⟨ev, hev, hmask⟩, hold⟩ := h l hl _ since hp e List.mem_cons_self hd
  obtain ⟨ev', hev', hctx⟩ := waiter_eq_some.mp (hold c hc)
  rw [hev] at hev'
  cases hev'
  exact ⟨ev, hev, hctx, hmask⟩

/-- In a run without waits for a descriptor that is still to be dispatched, every batch is
dispatched to waits that `epoll_wait` reported on. -/
theorem dispatch_lawful_of_no_wait_on_due {s : State}
    (h : Reached (fun s a => ¬ WaitsOnDue s a) s) : DispatchLawful s := by
  refine BatchesOk.dispatchLawful (h.invariant_of (fun s hs => ?_) fun s a s' hreach hb hok hstep =>
    batchesOk_step (tableWf_of_reached hreach) hb hok hstep)
  obtain ⟨_, _, _, _, rfl⟩ := hs
  intro l hl
  cases hl

def bothReadyRun : List Action := [createCall 1, readCall 3, createCall 2, readCall 4,
  .eventLoop callSite, .epollWait [⟨epollIn, 3⟩, ⟨epollIn, 4⟩]]

/-- The first one closes descriptor 4, and reads from a new stream that has this number. -/
def reopenedRun : List Action :=
  bothReadyRun ++ [.loopStep (.value 7), closeCall 4, readCall 4]

def resumesLater (s : State) : Bool :=
  match s.stack with
  | .eventLoop ⟨_, .batch (e :: _) since, _⟩ :: _ =>
    dispatched e ∧ s.rg.waiter e.dataFd ≠ none ∧ since.waiter e.dataFd ≠ s.rg.waiter e.dataFd
  | _ => false

theorem not_dispatchLawful {s : State} (h : resumesLater s = true) : ¬ DispatchLawful s := by
  intro hlaw
  unfold resumesLater at h
  split at h
  · next frame e events since test stack hs =>
    simp only [decide_eq_true_eq] at h
    obtain ⟨hd, hw, hne⟩ := h
    obtain ⟨c, hc⟩ := Option.ne_none_iff_exists'.mp hw
    obtain ⟨ev, hev, hctx, _⟩ := hlaw _ stack e events since hs rfl hd c hc
    exact hne ((waiter_eq_some.mpr ⟨ev, hev, hctx⟩).trans hc.symm)
  · cases h

theorem dispatch_lawful_of_no_wait_on_due_ready : ∃ s,
    Transition.runFrom step (initial 0 0) bothReadyRun = .ok s ∧ dispatchFd s = some 3 ∧
    s.rg.waiter 3 ≠ none ∧ DispatchLawful s := by
  have hok : ∀ s a, ((loops s.stack).isEmpty || !isIo a) = true → ¬ WaitsOnDue s a := by
    rintro s a htest ⟨q, hq, _, l, hmem, _⟩
    rcases Bool.or_eq_true_iff.mp htest with hl | ha
    · simp [List.isEmpty_iff.mp hl] at hmem
    · simp [isIo_of_ioRequest hq] at ha
  obtain ⟨s, hrun, hs, hp⟩ := exists_reached_of _ hok bothReadyRun
    (fun s => dispatchFd s = some 3 ∧ s.rg.waiter 3 ≠ none) (by decide)
  simp only [decide_eq_true_eq] at hp
  exact ⟨s, hrun, hp.1, hp.2, dispatch_lawful_of_no_wait_on_due hs⟩

/-- The coroutine is woken by the report on the stream that was closed. -/
theorem reopened_descriptor_dispatched : ∃ s,
    Transition.runFrom step (initial 0 0) reopenedRun = .ok s ∧ Reached (fun _ _ => True) s ∧
    dispatchFd s = some 4 ∧ ¬ DispatchLawful s := by
  obtain ⟨s, hrun, hs, hp⟩ := exists_reached reopenedRun
    (fun s => dispatchFd s = some 4 ∧ resumesLater s) (by decide)
  simp only [decide_eq_true_eq] at hp
  exact ⟨s, hrun, hs, hp.1, not_dispatchLawful hp.2⟩

end Phpco
