import Phpco.Bounds
import Phpco.IndexLaw

/-!
# One process, many requests

The C variables of the module live as long as the process, and the memory that `emalloc`
gives as long as a request.  Between two requests there is `PHP_RSHUTDOWN_FUNCTION` only,
and it resets none of the variables.
-/

namespace Phpco
open Except EventTable Transition

/-- `PHP_RSHUTDOWN_FUNCTION`: the buffer is freed, and `checkPoint` is left as it is. -/
def rshutdown (s : State) : Except Halt State :=
  match s.checkPoint with
  | none => .ok s
  | some buf => do
    check (s.jmpBufs buf ≠ .unallocated) .useAfterFree
    return { s with jmpBufs := Function.update s.jmpBufs buf .unallocated }

def scriptGlobals (page : Ptr) : ExecutorGlobals :=
  ⟨⟨page, zendVmStackElements + zendCallFrameSlot, zendVmStackPageSize⟩,
    [⟨⟨page, zendVmStackElements, zendVmStackPageSize⟩, none, false⟩]⟩

/-- The next request: nothing is left on the stacks and in the memory of the request. -/
def nextRequest (s : State) : State :=
  { s with
    eg := scriptGlobals s.next
    jmpBufs := fun _ => .unallocated
    contexts := fun _ => .free
    tasks := fun _ => none
    rg := { s.rg with log := [] }
    stack := []
    next := s.next + 1
    log := [] }

/-- The requests that a process has served, the last one first, and the state in which it
begins the next one. -/
inductive Served (maxCoroNum stackSize : ℕ) : List (List Action) → State → Prop
  | load : Served maxCoroNum stackSize [] (initial maxCoroNum stackSize)
  | next {served : List (List Action)} {request : List Action} {s s' s'' : State} :
      Served maxCoroNum stackSize served s → runFrom step s request = .ok s' →
      rshutdown s' = .ok s'' → Served maxCoroNum stackSize (request :: served) (nextRequest s'')

/-- What is around the module when a request begins: the address space, the clocks and the
timers that the kernel holds open. -/
structure Surroundings where
  page : Ptr
  now : ℤ
  clock : Timespec
  timerfds : ℤ → Option (Option Timespec)

/-- A request of a process that has just loaded the module. -/
def loaded (maxCoroNum stackSize : ℕ) (e : Surroundings) : State :=
  { initial maxCoroNum stackSize with
    eg := scriptGlobals e.page
    rg := { EventTable.initial with timerfds := e.timerfds }
    next := e.page + 1
    now := e.now
    clock := e.clock }

/-- The requests before this one make no difference to it. -/
def Fresh (maxCoroNum stackSize : ℕ) (s : State) : Prop :=
  ∃ e, s = loaded maxCoroNum stackSize e

/-- The calls that change a variable of the module for good. -/
def leavesTrace : Action → Bool
  | .create _ _ _ => true
  | .socketSetTimeout _ _ _ _ _ => true
  | _ => false

variable {maxCoroNum stackSize : ℕ}

/-- The variables of the module are as they were when it was loaded. -/
structure Untouched (maxCoroNum stackSize : ℕ) (s : State) : Prop where
  corog : s.corog = (initial maxCoroNum stackSize).corog
  checkPoint : s.checkPoint = none
  cidContextMap : s.cidContextMap = fun _ => none
  cids : s.cids = .initial
  epollfd : s.epollfd = none
  slots : s.rg.aioEventFds = fun _ => none
  interest : s.rg.interest = fun _ => none
  timeouts : s.timeouts = .initial

theorem Untouched.tableWf {s : State} (h : Untouched maxCoroNum stackSize s) : TableWf s.rg :=
  tableWf_idle (fun fd => by rw [h.slots]) (fun fd => by rw [h.interest])

theorem Untouched.table_step {s s' : State} {a : Action} (h : Untouched maxCoroNum stackSize s)
    (ha : leavesTrace a = false) (hstep : step s a = .ok s') :
    s'.rg.aioEventFds = (fun _ => none) ∧ s'.rg.interest = (fun _ => none) ∧ s'.epollfd = none := by
  have hfree : ∀ r : EventTable, r.aioEventFds = (fun _ => none) → ∀ fd, aioEventFree r fd = r := by
    intro r hr fd
    simp [aioEventFree, hr]
  have hdrop : ∀ fd, s.rg.dropInterest fd = s.rg := by
    intro fd
    have hi : Function.update s.rg.interest fd none = s.rg.interest := by
      funext fd'
      simp [h.interest, Function.update_apply]
    rw [EventTable.dropInterest, hi]
  cases tableMove hstep with
  | same hrg hfd =>
    rw [hrg, hfd]
    exact ⟨h.slots, h.interest, h.epollfd⟩
  | init _ _ _ hact _ _ =>
    rw [hact] at ha
    cases ha
  | store q addOk r r' ret _ hsame _ _ hst hrg hfd =>
    have hr := h.tableWf.congr hsame.slots hsame.interest
    rw [h.epollfd, Option.isSome_none, Bool.and_false] at hst
    have hslots : r.aioEventFds = fun _ => none := hsame.slots.trans h.slots
    rw [hrg, hfd]
    rcases (aioEventStore_cases hr hst).2 with ⟨_, _, rfl⟩ | ⟨_, _, hadd, _⟩ | ⟨_, hw, _⟩
    · refine ⟨?_, hsame.interest.trans h.interest, h.epollfd⟩
      funext fd
      simp [hslots, Function.update_apply]
    · cases hadd
    · simp [waiter, hslots] at hw
  | invoke _ fd _ _ _ hrg hfd _ =>
    have hinv : invokeTable s.rg fd = s.rg := by
      simp [invokeTable, h.slots]
    rw [hrg, hfd, hinv]
    exact ⟨h.slots, h.interest, h.epollfd⟩
  | socketClose _ _ closed _ fd _ _ _ hrg hfd =>
    have hrg' : s'.rg = s.rg := by
      rw [hrg]
      cases closed
      · exact hfree s.rg h.slots fd
      · exact (congrArg (aioEventFree · fd) (hdrop fd)).trans (hfree s.rg h.slots fd)
    rw [hrg', hfd]
    exact ⟨h.slots, h.interest, h.epollfd⟩
  | closeFd fd _ hrg hfd =>
    rw [hrg, hfd, hdrop]
    exact ⟨h.slots, h.interest, h.epollfd⟩

/-- Without `coroutine_create` there is nothing to yield from, to resume or to finish. -/
theorem Untouched.quiet_step {s s' : State} {a : Action} (h : Untouched maxCoroNum stackSize s)
    (ha : leavesTrace a = false) (hstep : step s a = .ok s') : Quiet s s' := by
  cases step_move h.tableWf hstep with
  | quiet hq _ _ => exact hq
  | enterLoop _ _ _ hq _ => exact hq
  | loop _ _ _ hq _ _ _ _ => exact hq
  | leaveLoop _ _ hq _ _ _ => exact hq
  | invoke _ _ _ _ _ _ _ _ _ _ hev _ _ =>
    rw [h.slots] at hev
    cases hev
  | create _ _ _ hact _ _ =>
    rw [hact] at ha
    cases ha
  | resume _ _ _ _ _ _ hm _ =>
    rw [h.cidContextMap] at hm
    cases hm
  | yield site s₁ _ _ hy _ =>
    obtain ⟨t, task, ht, _⟩ := coroutineYield_cases hy
    change s.corog.currentCoro = some t at ht
    rw [h.corog] at ht
    cases ht
  | block _ _ s₁ _ _ _ hb hc =>
    obtain ⟨_, _, _, _, hne, _⟩ := coroYield_cases hc
    rw [hb.checkPoint] at hne
    exact absurd h.checkPoint hne
  | finish x stack base s₁ _ _ _ hc _ =>
    obtain ⟨t, _, _, ht, _⟩ := coroClose_eq_ok.mp hc
    rw [h.corog] at ht
    cases ht

theorem untouched_step {s s' : State} {a : Action} (h : Untouched maxCoroNum stackSize s)
    (ha : leavesTrace a = false) (hstep : step s a = .ok s') : Untouched maxCoroNum stackSize s' := by
  have hq := h.quiet_step ha hstep
  obtain ⟨hslots, hinterest, hfd⟩ := h.table_step ha hstep
  have ht : s'.timeouts = .initial := by
    cases queueMove hstep with
    | same ht _ => exact ht.trans h.timeouts
    | push _ _ _ _ _ hact _ _ _ _ _ =>
      rw [hact] at ha
      cases ha
    | counts _ _ _ _ _ _ _ _ _ _ _ hnode _ _ _ _ =>
      rw [h.timeouts] at hnode
      cases hnode
  exact ⟨hq.corog.trans h.corog, hq.checkPoint.trans h.checkPoint,
    hq.cidContextMap.trans h.cidContextMap, hq.cids.trans h.cids, hfd, hslots, hinterest, ht⟩

theorem untouched_loaded (e : Surroundings) :
    Untouched maxCoroNum stackSize (loaded maxCoroNum stackSize e) :=
  ⟨rfl, rfl, rfl, rfl, rfl, rfl, rfl, rfl⟩

theorem Untouched.fresh {s : State} (h : Untouched maxCoroNum stackSize s) :
    Fresh maxCoroNum stackSize (nextRequest s) := by
  refine ⟨⟨s.next, s.now, s.clock, s.rg.timerfds⟩, ?_⟩
  have hrg : { s.rg with log := [] } = { EventTable.initial with timerfds := s.rg.timerfds } := by
    simp only [EventTable.initial, h.slots, h.interest]
  rw [nextRequest, hrg, h.corog, h.checkPoint, h.cidContextMap, h.cids, h.epollfd, h.timeouts]
  rfl

/-- `checkPoint` refers to a buffer, or a pass will look at a timeout. -/
def Touched (s : State) : Prop := s.checkPoint ≠ none ∨ s.timeouts.link.front ≠ none

/-- What holds in every request, whatever the ones before it left. -/
structure Sound (s : State) : Prop where
  table : TableWf s.rg
  bounded : Bounded s
  ends : s.timeouts.link.front = none → s.timeouts.link.rear = none

theorem sound_step {s s' : State} {a : Action} (h : Sound s) (hstep : step s a = .ok s') :
    Sound s' := by
  refine ⟨tableWf_step h.table hstep, (bounded_step h.table h.bounded hstep).1, ?_⟩
  cases queueMove hstep with
  | same ht _ =>
    rw [ht]
    exact h.ends
  | push site obj garbage timeout persistent _ _ _ _ _ ht =>
    intro hn
    rw [ht] at hn
    cases hempty : emptyqueue s.timeouts.link with
    | true =>
      have hfront := (pushqueue_of_empty (s.next + 2) (s.next + 1) hempty).1
      cases hn.symm.trans hfront
    | false =>
      have hfront := (pushqueue_of_nonempty (s.next + 2) (s.next + 1) hempty).1
      have hn' : s.timeouts.link.front = none := hfront.symm.trans hn
      rw [emptyqueue_iff.mpr ⟨hn', h.ends hn'⟩] at hempty
      cases hempty
  | counts _ _ _ _ _ _ _ _ _ _ _ _ _ _ _ ht =>
    rw [ht]
    exact h.ends

/-- No step takes a timeout out of the queue. -/
theorem front_step {s s' : State} {a : Action} (hstep : step s a = .ok s')
    (hf : s.timeouts.link.front ≠ none) : s'.timeouts.link.front ≠ none := by
  cases queueMove hstep with
  | same ht _ => rwa [ht]
  | push site obj garbage timeout persistent _ _ _ _ _ ht =>
    intro hn
    rw [ht] at hn
    cases hempty : emptyqueue s.timeouts.link with
    | true => exact hf (emptyqueue_iff.mp hempty).1
    | false =>
      have hfront := (pushqueue_of_nonempty (s.next + 2) (s.next + 1) hempty).1
      exact hf (hfront.symm.trans hn)
  | counts _ _ _ _ _ _ _ _ _ _ _ _ _ _ _ ht => rwa [ht]

theorem touched_step {s s' : State} {a : Action} (h : Sound s) (ht : Touched s)
    (hstep : step s a = .ok s') : Touched s' := by
  rcases ht with hcp | hf
  · left
    intro hn
    exact hcp ((bounded_step h.table h.bounded hstep).2.2 hn)
  · exact .inr (front_step hstep hf)

theorem touched_of_leavesTrace {s s' : State} {a : Action} (h : Sound s)
    (ha : leavesTrace a = true) (hstep : step s a = .ok s') : Touched s' := by
  cases a with
  | create site slots callback =>
    left
    have hb : Bounded (enterCall s site) :=
      h.bounded.mono rfl (List.Subset.refl _) (Nat.le_succ _) rfl
    exact (bounded_create hb (step_create hstep).2).2.2
  | socketSetTimeout site obj garbage timeout persistent =>
    right
    intro hn
    cases queueMove hstep with
    | same _ hact => cases hact
    | push _ _ _ _ _ _ _ _ _ _ ht =>
      have hends := (sound_step h hstep).ends hn
      rw [ht] at hends
      cases hempty : emptyqueue s.timeouts.link with
      | true => cases hends.symm.trans (pushqueue_of_empty (s.next + 2) (s.next + 1) hempty).2
      | false => cases hends.symm.trans (pushqueue_of_nonempty (s.next + 2) (s.next + 1) hempty).2
    | counts _ _ _ _ _ _ _ _ hact _ _ _ _ _ _ _ => cases hact
  | _ => cases ha

theorem rshutdown_cases {s s' : State} (h : rshutdown s = .ok s') :
    s' = s ∨ ∃ buf, s.checkPoint = some buf ∧ s.jmpBufs buf ≠ .unallocated ∧
      s' = { s with jmpBufs := Function.update s.jmpBufs buf .unallocated } := by
  unfold rshutdown at h
  cases hcp : s.checkPoint with
  | none =>
    rw [hcp] at h
    cases h
    exact .inl rfl
  | some buf =>
    simp only [hcp] at h
    obtain ⟨_, hb, h⟩ := bind_eq_ok.mp h
    cases h
    exact .inr ⟨buf, rfl, check_eq_ok.mp hb, rfl⟩

theorem sound_nextRequest {s s' : State} (h : Sound s) (hs : rshutdown s = .ok s') :
    Sound (nextRequest s') := by
  have hnext : Sound (nextRequest s) := by
    refine ⟨h.table.congr rfl rfl, ⟨?_, ?_, h.bounded.uninit⟩, h.ends⟩
    · exact fun b hb => (h.bounded.checkPoint b hb).trans (Nat.lt_succ_self _)
    · intro x hx
      cases hx
  rcases rshutdown_cases hs with rfl | ⟨buf, _, _, rfl⟩
  · exact hnext
  · exact hnext

theorem touched_nextRequest {s s' : State} (h : Touched s) (hs : rshutdown s = .ok s') :
    Touched (nextRequest s') := by
  rcases rshutdown_cases hs with rfl | ⟨buf, _, _, rfl⟩ <;> exact h

theorem fresh_initial : Fresh maxCoroNum stackSize (initial maxCoroNum stackSize) :=
  ⟨⟨0, 0, ⟨0, 0⟩, fun _ => none⟩, rfl⟩

theorem sound_of_served {served : List (List Action)} {s : State}
    (h : Served maxCoroNum stackSize served s) : Sound s := by
  induction h with
  | load =>
    refine ⟨tableWf_initial, ⟨?_, ?_, fun _ _ => rfl⟩, fun _ => rfl⟩
    · intro b hb
      cases hb
    · intro x hx
      cases hx
  | next _ hrun hs ih =>
    exact sound_nextRequest (runFrom_invariant (fun _ _ _ _ => sound_step) ih hrun) hs

/-- A request begins as the first one does if and only if none before it created a coroutine
or set a timeout. -/
theorem fresh_iff {served : List (List Action)} {s : State}
    (h : Served maxCoroNum stackSize served s) :
    Fresh maxCoroNum stackSize s ↔ ∀ request ∈ served, ∀ a ∈ request, leavesTrace a = false := by
  have hor : (Touched s ∧ ∃ request ∈ served, ∃ a ∈ request, leavesTrace a = true) ∨
      (Fresh maxCoroNum stackSize s ∧
        ∀ request ∈ served, ∀ a ∈ request, leavesTrace a = false) := by
    induction h with
    | load => exact .inr ⟨fresh_initial, nofun⟩
    | @next served request s s' s'' hserved hrun hs ih =>
      have hsound := sound_of_served hserved
      rcases ih with ⟨ht, r, hr, a, ha, htr⟩ | ⟨⟨e, rfl⟩, hnone⟩
      · left
        have hboth := runFrom_invariant (I := fun s => Sound s ∧ Touched s)
          (fun s a s' _ hs hstep => ⟨sound_step hs.1 hstep, touched_step hs.1 hs.2 hstep⟩)
          ⟨hsound, ht⟩ hrun
        exact ⟨touched_nextRequest hboth.2 hs, r, List.mem_cons_of_mem _ hr, a, ha, htr⟩
      · by_cases hex : ∃ a ∈ request, leavesTrace a = true
        · left
          obtain ⟨a, ha, htr⟩ := hex
          have ht := runFrom_established hrun ha hsound (fun _ _ _ => sound_step)
            (fun _ _ _ => touched_step) (fun _ _ hs => touched_of_leavesTrace hs htr)
          exact ⟨touched_nextRequest ht hs, request, List.mem_cons_self, a, ha, htr⟩
        · right
          simp only [not_exists, not_and, Bool.not_eq_true] at hex
          have hu := runFrom_invariant (I := Untouched maxCoroNum stackSize)
            (fun s a s' ha hs hstep => untouched_step hs (hex a ha) hstep) (untouched_loaded e) hrun
          have hfresh : Fresh maxCoroNum stackSize (nextRequest s'') := by
            rcases rshutdown_cases hs with rfl | ⟨buf, hcp, _⟩
            · exact hu.fresh
            · cases hu.checkPoint.symm.trans hcp
          refine ⟨hfresh, fun r hr => ?_⟩
          rcases List.mem_cons.mp hr with rfl | hr
          · exact hex
          · exact hnone r hr
  constructor
  · rintro ⟨e, rfl⟩
    rcases hor with ⟨ht, _⟩ | ⟨_, hnone⟩
    · rcases ht with ht | ht <;> exact absurd rfl ht
    · exact hnone
  · intro hnone
    rcases hor with ⟨_, r, hr, a, ha, htr⟩ | ⟨hfresh, _⟩
    · rw [hnone r hr a ha] at htr
      cases htr
    · exact hfresh

/-- A `jmp_buf` that `checkPoint` refers to, or will refer to again. -/
def InUse (s : State) (b : Ptr) : Prop :=
  s.checkPoint = some b ∨ ∃ x ∈ activations s.stack, x.outerCheckPoint = some b

theorem InUse.congr {s s' : State} {b : Ptr} (h : InUse s' b) (hcp : s'.checkPoint = s.checkPoint)
    (hsub : activations s'.stack ⊆ activations s.stack) : InUse s b := by
  rcases h with h | ⟨x, hx, h⟩
  · exact .inl (hcp.symm.trans h)
  · exact .inr ⟨x, hsub hx, h⟩

theorem InUse.popped {s s' : State} {x : Activation} {b : Ptr} (h : InUse s' b)
    (hx : x ∈ activations s.stack) (hsub : activations s'.stack ⊆ activations s.stack)
    (hcp : s'.checkPoint = x.outerCheckPoint ∨ s'.checkPoint = s.checkPoint) : InUse s b := by
  rcases h with h | ⟨y, hy, h⟩
  · rcases hcp with hcp | hcp
    · exact .inr ⟨x, hx, hcp.symm.trans h⟩
    · exact .inl (hcp.symm.trans h)
  · exact .inr ⟨y, hsub hy, h⟩

theorem inUse_step {s s' : State} {a : Action} (hr : TableWf s.rg) (h : step s a = .ok s')
    {b : Ptr} (hb : InUse s' b) : InUse s b ∨ s.next ≤ b := by
  have hquiet : Quiet s s' → activations s'.stack = activations s.stack →
      InUse s b ∨ s.next ≤ b := by
    intro hq hs
    exact .inl (hb.congr hq.checkPoint (by rw [hs]; exact List.Subset.refl _))
  cases step_move hr h with
  | quiet hq hs _ => exact hquiet hq (by rw [hs])
  | enterLoop _ _ _ hq hs => exact hquiet hq (by rw [hs]; rfl)
  | loop l l' stack hq hs hs' _ _ => exact hquiet hq (by rw [hs, hs']; rfl)
  | leaveLoop l stack hq hs hs' _ => exact hquiet hq (by rw [hs, hs']; rfl)
  | invoke l l' stack fd ev c v hs _ _ _ _ hres =>
    obtain ⟨ctx, current, frames, result, _, _, _, _, hj⟩ := cCoroResume_cases hres
    obtain ⟨buf, hbuf, _, rfl⟩ := setjmp_eq_ok.mp hj
    left
    rcases hb with hb | ⟨x, hx, hb⟩
    · exact .inl hb
    · rcases List.mem_cons.mp hx with rfl | hx
      · exact .inl (hbuf.trans hb)
      · exact .inr ⟨x, by rw [hs]; exact hx, hb⟩
  | create site slots callback _ _ hc =>
    have hinit : ∀ b, (ensureInit (enterCall s site)).checkPoint = some b →
        InUse s b ∨ s.next ≤ b := by
      intro b hb
      rcases ensureInit_cases (enterCall s site) with ⟨_, he⟩ | ⟨_, he⟩
      · rw [he] at hb
        exact .inl (.inl hb)
      · rw [he] at hb
        obtain rfl : s.next + 1 + 1 = b := Option.some.inj hb
        exact .inr (Nat.le_add_right _ 2)
    have hnext : s.next ≤ (ensureInit (enterCall s site)).next :=
      (Nat.le_succ s.next).trans (le_next_ensureInit (enterCall s site))
    have hstack : (ensureInit (enterCall s site)).stack = s.stack := ensureInit_stack _
    obtain ⟨cid, cids, _, ⟨_, _, ht⟩ | ⟨_, hj⟩⟩ := coroutineCreate_cases hc
    · obtain ⟨buf, tasks, _, _, rfl⟩ := coroutineCreateTail_cases (by decide) ht
      rcases hb with hb | ⟨x, hx, hb⟩
      · exact hinit b hb
      · change x ∈ activations (ensureInit (enterCall s site)).stack at hx
        rw [hstack] at hx
        exact .inl (.inr ⟨x, hx, hb⟩)
    · obtain ⟨buf, _, _, rfl⟩ := setjmp_eq_ok.mp hj
      rcases hb with hb | ⟨x, hx, hb⟩
      · obtain rfl : (ensureInit (enterCall s site)).next = b := Option.some.inj hb
        exact .inr hnext
      · rcases List.mem_cons.mp hx with rfl | hx
        · exact hinit b hb
        · change x ∈ activations (ensureInit (enterCall s site)).stack at hx
          rw [hstack] at hx
          exact .inl (.inr ⟨x, hx, hb⟩)
  | resume site arg c _ _ _ _ hres =>
    obtain ⟨ctx, current, frames, result, _, _, _, _, hj⟩ := cCoroResume_cases hres
    obtain ⟨buf, _, _, rfl⟩ := setjmp_eq_ok.mp hj
    rcases hb with hb | ⟨x, hx, hb⟩
    · obtain rfl : s.next + 1 = b := Option.some.inj hb
      exact .inr (Nat.le_succ _)
    · rcases List.mem_cons.mp hx with rfl | hx
      · exact .inl (.inl hb)
      · exact .inl (.inr ⟨x, hx, hb⟩)
  | yield site s₁ _ _ hy hc =>
    obtain ⟨t, task, _, _, _, rfl⟩ := coroutineYield_cases hy
    obtain ⟨x, hx, hsub, _, _, hcp⟩ := coroYield_cases hc
    exact .inl (hb.popped hx hsub hcp)
  | block fd c s₁ _ _ _ hbl hc =>
    obtain ⟨x, hx, hsub, _, _, hcp⟩ := coroYield_cases hc
    rw [hbl.stack] at hx hsub
    rw [hbl.checkPoint] at hcp
    exact .inl (hb.popped hx hsub hcp)
  | finish x stack base s₁ _ hs _ hc hret =>
    obtain ⟨t, task, retval, _, _, _, rfl⟩ := coroClose_eq_ok.mp hc
    obtain ⟨hstack, _, _, hcp⟩ := returnFrom_cases (by decide) hret
    have hsub : activations s'.stack ⊆ activations s.stack := by
      rw [hstack, hs]
      exact List.subset_cons_self _ _
    exact .inl (hb.popped (by rw [hs]; exact List.mem_cons_self) hsub hcp)

/-- What the module can get hold of was allocated from `base` on. -/
structure Own (base : Ptr) (s : State) : Prop where
  next : base ≤ s.next
  buffers : ∀ b, InUse s b → base ≤ b
  contexts : ∀ cid c, s.cidContextMap cid = some c → base ≤ c
  waiters : ∀ fd c, s.rg.waiter fd = some c → base ≤ c
  epollfd : ∀ p, s.epollfd = some p → base ≤ p
  elements : ∀ e x, s.timeouts.elements e = some x → base ≤ e

theorem own_loaded (e : Surroundings) :
    Own (loaded maxCoroNum stackSize e).next (loaded maxCoroNum stackSize e) := by
  refine ⟨le_rfl, ?_, nofun, nofun, nofun, nofun⟩
  rintro b (hb | ⟨x, hx, _⟩)
  · cases hb
  · cases hx

theorem own_step {base : Ptr} {s s' : State} {a : Action} (h : Sound s) (ho : Own base s)
    (hstep : step s a = .ok s') : Own base s' := by
  have hnext := (bounded_step h.table h.bounded hstep).2.1
  have hfresh : ∀ n : ℕ, base ≤ s.next + n := fun n => ho.next.trans (Nat.le_add_right _ n)
  refine ⟨ho.next.trans hnext, ?_, ?_, ?_, ?_, ?_⟩
  · intro b hb
    rcases inUse_step h.table hstep hb with hb | hle
    · exact ho.buffers b hb
    · exact ho.next.trans hle
  · intro cid c hc
    rcases cidContextMap_step h.table hstep with hmap | ⟨_, cid', _, _, hmap⟩
    · rw [hmap] at hc
      exact ho.contexts cid c hc
    · rw [hmap, Function.update_apply] at hc
      split_ifs at hc
      · cases hc
        exact hfresh 1
      · exact ho.contexts cid c hc
  · intro fd c hc
    rcases waiter_step h.table hstep hc with hc | ⟨_, _, _, hlt, _⟩
    · exact ho.waiters fd c hc
    · exact ho.next.trans hlt.le
  · intro p hp
    cases tableMove hstep with
    | same _ hfd => exact ho.epollfd p (hfd ▸ hp)
    | init site slots callback ha hcp _ =>
      subst ha
      have hfd := (rg_coroutineCreate (step_create hstep).2).2
      have he : ensureInit (enterCall s site) = coroInit (enterCall s site) := if_pos hcp
      rw [hfd, he] at hp
      obtain rfl : s.next + 1 = p := Option.some.inj hp
      exact hfresh 1
    | store _ _ _ _ _ _ _ _ _ _ _ hfd => exact ho.epollfd p (hfd ▸ hp)
    | invoke _ _ _ _ _ _ hfd _ => exact ho.epollfd p (hfd ▸ hp)
    | socketClose _ _ _ _ _ _ _ _ _ hfd => exact ho.epollfd p (hfd ▸ hp)
    | closeFd _ _ _ hfd => exact ho.epollfd p (hfd ▸ hp)
  · intro e x he
    cases queueMove hstep with
    | same ht _ => exact ho.elements e x (ht ▸ he)
    | push _ _ _ _ _ _ _ _ _ _ ht =>
      rw [ht] at he
      simp only [Timeouts.push, Function.update_apply] at he
      split_ifs at he with heq
      · rw [heq]
        exact hfresh 1
      · exact ho.elements e x he
    | counts _ _ _ _ _ _ node y _ _ _ _ hy _ _ ht =>
      rw [ht] at he
      simp only [Function.update_apply] at he
      split_ifs at he with heq
      · rw [heq]
        exact ho.elements _ y hy
      · exact ho.elements e x he

def isCreate : Action → Bool
  | .create _ _ _ => true
  | _ => false

structure Bare (s : State) : Prop where
  checkPoint : s.checkPoint = none
  currentCoro : s.corog.currentCoro = none

theorem bare_step {s s' : State} {a : Action} (h : Sound s) (hb : Bare s)
    (ha : isCreate a = false) (hstep : step s a = .ok s') : Bare s' := by
  have hquiet : Quiet s s' → Bare s' := by
    intro hq
    exact ⟨hq.checkPoint.trans hb.checkPoint, hq.corog ▸ hb.currentCoro⟩
  cases step_move h.table hstep with
  | quiet hq _ _ => exact hquiet hq
  | enterLoop _ _ _ hq _ => exact hquiet hq
  | loop _ _ _ hq _ _ _ _ => exact hquiet hq
  | leaveLoop _ _ hq _ _ _ => exact hquiet hq
  | invoke _ _ _ _ _ _ _ _ _ _ _ _ hres =>
    obtain ⟨ctx, current, frames, result, _, _, _, _, hj⟩ := cCoroResume_cases hres
    obtain ⟨buf, hbuf, _, _⟩ := setjmp_eq_ok.mp hj
    cases hb.checkPoint.symm.trans hbuf
  | create _ _ _ hact _ _ =>
    rw [hact] at ha
    cases ha
  | resume _ _ _ _ _ _ hm _ => cases (h.bounded.uninit hb.checkPoint _).symm.trans hm
  | yield site s₁ _ _ hy _ =>
    obtain ⟨t, task, ht, _⟩ := coroutineYield_cases hy
    cases hb.currentCoro.symm.trans ht
  | block _ _ s₁ _ _ _ hbl hc =>
    obtain ⟨_, _, _, _, hne, _⟩ := coroYield_cases hc
    rw [hbl.checkPoint] at hne
    exact absurd hb.checkPoint hne
  | finish x stack base s₁ _ _ _ hc _ =>
    obtain ⟨t, _, _, ht, _⟩ := coroClose_eq_ok.mp hc
    cases hb.currentCoro.symm.trans ht

/-- The vm stack to go back to, the epoll instance and the table are those of the request. -/
def InitialisedBy (s s' : State) (site : CallSite) : Prop :=
  s'.corog.originVmStack = (enterCall s site).eg.vm ∧ s'.epollfd = some (s.next + 1) ∧
    ∀ fd, s'.rg.aioEventFds fd = none ∧ s'.rg.interest fd = none

theorem initialisedBy_create {s s' : State} {site : CallSite} {slots : ℕ} {callback : Zval}
    (h : Bare s) (hstep : step s (.create site slots callback) = .ok s') :
    InitialisedBy s s' site := by
  have hc := (step_create hstep).2
  obtain ⟨hrg, hfd⟩ := rg_coroutineCreate hc
  have he : ensureInit (enterCall s site) = coroInit (enterCall s site) := if_pos h.checkPoint
  rw [he] at hrg hfd
  refine ⟨?_, hfd, fun fd => ?_⟩
  · obtain ⟨cid, cids, _, ⟨_, _, ht⟩ | ⟨_, hj⟩⟩ := coroutineCreate_cases hc
    · obtain ⟨buf, tasks, _, _, rfl⟩ := coroutineCreateTail_cases (by decide) ht
      exact congrArg (·.corog.originVmStack) he
    · obtain ⟨buf, _, _, rfl⟩ := setjmp_eq_ok.mp hj
      exact congrArg (·.corog.originVmStack) he
  · rw [hrg]
    exact ⟨rfl, rfl⟩

/-- A request is served as by a module just loaded if and only if none before it created a
coroutine or set a timeout.  Such a request only ever gets hold of what it allocated itself,
and its first `coroutine_create` initialises the module. -/
theorem requests_independent_iff {served : List (List Action)} {s : State}
    (h : Served maxCoroNum stackSize served s) :
    (Fresh maxCoroNum stackSize s ↔ ∀ request ∈ served, ∀ a ∈ request, leavesTrace a = false) ∧
    (Fresh maxCoroNum stackSize s → ∀ as s', runFrom step s as = .ok s' → Own s.next s' ∧
      ∀ site slots callback s'', (∀ a ∈ as, isCreate a = false) →
        step s' (.create site slots callback) = .ok s'' → InitialisedBy s' s'' site) := by
  have hsound := sound_of_served h
  refine ⟨fresh_iff h, ?_⟩
  rintro ⟨e, rfl⟩ as s' hrun
  constructor
  · have hboth := runFrom_invariant
      (I := fun s => Sound s ∧ Own (loaded maxCoroNum stackSize e).next s)
      (fun s a s' _ hs hstep => ⟨sound_step hs.1 hstep, own_step hs.1 hs.2 hstep⟩)
      ⟨hsound, own_loaded e⟩ hrun
    exact hboth.2
  · intro site slots callback s'' hnone hstep
    have hboth := runFrom_invariant (I := fun s => Sound s ∧ Bare s)
      (fun s a s' ha hs hstep =>
        ⟨sound_step hs.1 hstep, bare_step hs.1 hs.2 (hnone a ha) hstep⟩)
      ⟨hsound, rfl, rfl⟩ hrun
    exact initialisedBy_create hboth.2 hstep

def secondRequest (request : List Action) : Except Halt State := do
  let s ← runFrom step (initial 0 0) request
  let s ← rshutdown s
  return nextRequest s

theorem served_secondRequest {request : List Action} {s : State}
    (h : secondRequest request = .ok s) : Served 0 0 [request] s := by
  obtain ⟨s₁, hrun, h⟩ := bind_eq_ok.mp h
  obtain ⟨s₂, hs, h⟩ := bind_eq_ok.mp h
  cases h
  exact .next .load hrun hs

theorem requests_independent_iff_refused : ∃ s s', Served 0 0 [[.resume callSite 1]] s ∧
    Fresh 0 0 s ∧ runFrom step s [createCall 1] = .ok s' ∧ Own s.next s' ∧
    s'.checkPoint ≠ none := by
  have hrun : isOkAnd (fun s => isOkAnd (fun s' => s'.checkPoint.isSome)
      (runFrom step s [createCall 1])) (secondRequest [.resume callSite 1]) = true := by decide
  obtain ⟨s, hs, hrun⟩ := exists_of_isOkAnd hrun
  obtain ⟨s', hs', hcp⟩ := exists_of_isOkAnd hrun
  have hserved := served_secondRequest hs
  obtain ⟨hiff, hown⟩ := requests_independent_iff hserved
  have hfresh := hiff.mpr (by simp [leavesTrace])
  exact ⟨s, s', hserved, hfresh, hs', (hown hfresh _ s' hs').1, Option.isSome_iff_ne_none.mp hcp⟩

def createRequest : List Action := [createCall 1, .finish]

def cidRequest : List Action := [createCall 1, .getCurrentCid callSite]

def returnsCid (cid : ℤ) (s : State) : Bool := s.log.head? = some (.returned (.long cid))

/-- What is left of the first request: the second one gets another cid, and at its end the
buffer of the first one is freed again. -/
theorem second_request_differs : ∃ s, Served 0 0 [createRequest] s ∧ ¬ Fresh 0 0 s ∧
    rshutdown s = .error .useAfterFree ∧
    (∃ s', runFrom step s cidRequest = .ok s' ∧ returnsCid 2 s' = true) ∧
    ∃ s', runFrom step (initial 0 0) cidRequest = .ok s' ∧ returnsCid 1 s' = true := by
  have hsecond : isOkAnd (fun s => isOkAnd (returnsCid 2) (runFrom step s cidRequest) &&
      s.checkPoint.isSome && !(rshutdown s).isOk) (secondRequest createRequest) = true := by decide
  have hfirst : isOkAnd (returnsCid 1) (runFrom step (initial 0 0) cidRequest) = true := by decide
  obtain ⟨s, hs, hp⟩ := exists_of_isOkAnd hsecond
  simp only [Bool.and_eq_true, Bool.not_eq_true'] at hp
  obtain ⟨⟨hrun, hcp⟩, hbad⟩ := hp
  refine ⟨s, served_secondRequest hs, ?_, ?_, exists_of_isOkAnd hrun, exists_of_isOkAnd hfirst⟩
  · rintro ⟨e, rfl⟩
    cases hcp
  · obtain ⟨buf, hbuf⟩ := Option.isSome_iff_exists.mp hcp
    simp only [rshutdown, hbuf] at hbad ⊢
    unfold check at hbad ⊢
    split_ifs at hbad ⊢
    · cases hbad
    · rfl

end Phpco
