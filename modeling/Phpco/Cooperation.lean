import Phpco.Cooperative
import Phpco.CidLaw
import Phpco.LifeSteps
import Phpco.WaiterLaw

/-!
# The program as a scheduler

A request as a scheduler of cooperative tasks: the coroutines are the tasks, and
the keys they wait under are the descriptors and the cids.  The coroutines that
run are those of the activations on the C stack, and one waits under a key if
the context to be found there can still be switched to.
-/

namespace Phpco
open Except Transition EventTable

/-- What the run did, as far as a scheduler is concerned. -/
def State.record (s : State) : List (Coop.Event Ptr Wait) :=
  s.log.filterMap (Event.scheduling fun w _ => w)

def State.parked (s : State) (w : Wait) : Option Ptr :=
  (s.contextOf w).bind fun c => (s.scheduler.saved c).join

def finishedTasks : List Event → List Ptr
  | [] => []
  | .closed t _ _ _ :: log => t :: finishedTasks log
  | _ :: log => finishedTasks log

def State.cooperative (s : State) : Coop.State Ptr Wait where
  active := (activations s.stack).filterMap Activation.task
  parked := s.parked
  finished := finishedTasks s.log

@[simp] theorem finishedTasks_returned (vs : List Zval) (log : List Event) :
    finishedTasks (vs.map Event.returned ++ log) = finishedTasks log := by
  induction vs with
  | nil => rfl
  | cons v vs ih => exact ih

section

variable {s s' : State} {xs : List Activation} {w : Wait} {c t : Ptr}

theorem parked_eq_some : s.parked w = some t ↔
    ∃ c, s.contextOf w = some c ∧ s.scheduler.saved c = some (some t) := by
  simp only [State.parked, Option.bind_eq_some_iff, Option.join_eq_some_iff]

theorem parked_switched (h : Core xs s.scheduler) (hc : s.contextOf w = some c)
    (ht : s.scheduler.saved c = some (some t))
    (hkeys : ∀ w' ≠ w, s'.contextOf w' = s.contextOf w')
    (hkey : ∀ c', s'.contextOf w = some c' → c' = c)
    (hsaved : s'.scheduler.saved = Function.update s.scheduler.saved c none) :
    s'.parked = Function.update s.parked w none := by
  have hst := suspended_of_contextOf h hc ht
  funext w'
  apply Option.ext
  intro t'
  rw [parked_eq_some, hsaved]
  by_cases hw : w' = w
  · subst hw
    rw [Function.update_self]
    constructor
    · rintro ⟨c', hc', ht'⟩
      rw [hkey c' hc', Function.update_self] at ht'
      cases ht'
    · rintro ⟨⟩
  · rw [Function.update_of_ne hw, hkeys w' hw, parked_eq_some]
    -- the other keys lead to other contexts
    have hne : ∀ c', s.contextOf w' = some c' → c' ≠ c := by
      rintro c' hc' rfl
      have hst' := suspended_of_contextOf h hc' ht
      rw [hst] at hst'
      cases hst'
      exact hw rfl
    constructor
    · rintro ⟨c', hc', ht'⟩
      rw [Function.update_of_ne (hne c' hc')] at ht'
      exact ⟨c', hc', ht'⟩
    · rintro ⟨c', hc', ht'⟩
      exact ⟨c', hc', by rw [Function.update_of_ne (hne c' hc')]; exact ht'⟩

/-- A coroutine is saved in a new context, which is put under its key. -/
theorem parked_suspended (h : Core xs s.scheduler) (hfresh : s.next ≤ c)
    (hkeys : ∀ w' ≠ w, s'.contextOf w' = s.contextOf w') (hkey : s'.contextOf w = some c)
    (hsaved : s'.scheduler.saved = Function.update s.scheduler.saved c (some (some t))) :
    s'.parked = Function.update s.parked w (some t) := by
  funext w'
  apply Option.ext
  intro t'
  rw [parked_eq_some, hsaved]
  by_cases hw : w' = w
  · subst hw
    simp [hkey]
  · rw [Function.update_of_ne hw, hkeys w' hw, parked_eq_some]
    have hne : ∀ c', s.contextOf w' = some c' → c' ≠ c := fun c' hc' =>
      ((contextOf_lt h hc').trans_le hfresh).ne
    constructor
    · rintro ⟨c', hc', ht'⟩
      rw [Function.update_of_ne (hne c' hc')] at ht'
      exact ⟨c', hc', ht'⟩
    · rintro ⟨c', hc', ht'⟩
      exact ⟨c', hc', by rw [Function.update_of_ne (hne c' hc')]; exact ht'⟩

theorem parked_congr (hkeys : ∀ w, s'.contextOf w = s.contextOf w)
    (hsaved : s'.scheduler.saved = s.scheduler.saved) : s'.parked = s.parked := by
  funext w
  rw [State.parked, State.parked, hkeys, hsaved]

end

theorem Adds.record {s s' : State} {es : List Event} (h : Adds s s' es) :
    s'.record = es.filterMap (Event.scheduling fun w _ => w) ++ s.record :=
  h.scheduling _

theorem Adds.finishedTasks {s s' : State} {es : List Event} (h : Adds s s' es) :
    finishedTasks s'.log = finishedTasks (es ++ s.log) := by
  obtain ⟨vs, hlog⟩ := h
  rw [hlog, finishedTasks_returned]

/-- A waiter is lost by its resumption only. -/
theorem contextOf_keeps {s s' : State} {w : Wait} (hkeys : KeepsKeys s s') (hk : KeepsWaiters s s')
    (hno : ∀ fd t c act result, w = .io fd → s'.log ≠ .switched t w c act result :: s.log) :
    s'.contextOf w = s.contextOf w := by
  apply Option.ext
  intro c
  refine ⟨hkeys.contextOf w c, fun hc => ?_⟩
  cases w with
  | yield cid =>
    rw [State.contextOf, hkeys.cids]
    exact hc
  | io fd =>
    rcases hk fd c hc with hc' | ⟨t, act, result, hlog⟩
    · exact hc'
    · exact absurd hlog (hno fd t c act result rfl)

theorem Adds.contextOf {s s' : State} {es : List Event} (h : Adds s s' es) (hkeys : KeepsKeys s s')
    (hk : KeepsWaiters s s') (hes : ∀ t w c act result, .switched t w c act result ∉ es) (w : Wait) :
    s'.contextOf w = s.contextOf w :=
  contextOf_keeps hkeys hk fun _ t c act result _ => h.ne_switched hes t w c act result

theorem active_cons {s s' : State} {x : Activation} {t : Ptr}
    (hact : activations s.stack = x :: activations s'.stack) (hx : x.task = some t) :
    s.cooperative.active = t :: s'.cooperative.active := by
  simp only [State.cooperative, hact]
  exact List.filterMap_cons_some hx

theorem fresh_of_absent {s : State} {t : Ptr} (h : Coop.Run s.record s.cooperative)
    (ht : status s.log t = .absent) : s.cooperative.Fresh t := by
  refine (Coop.Run.follows h).fresh_iff.mpr ?_
  rw [State.record, phase_scheduling, ht]
  rfl

/-- Nobody else waits under the cid of a coroutine that runs. -/
theorem yield_idle {s : State} {t : Ptr} {cid : ℤ} {xs : List Activation} (h : Core xs s.scheduler)
    (hcid : cidOf s.log t = some cid) (hin : inContextMap cid)
    (hrun : ∀ w c, status s.log t ≠ .suspended w c) : s.parked (.yield cid) = none := by
  rw [Option.eq_none_iff_forall_ne_some]
  intro t' ht'
  obtain ⟨c, hc, hsaved⟩ := parked_eq_some.mp ht'
  have hst := suspended_of_contextOf h hc hsaved
  obtain ⟨_, hcid', _⟩ := h.yielded t' cid c hst
  have h0 := hin.1
  obtain rfl : t' = t := h.cidInj t' t cid hcid' hcid (by omega)
  exact hrun _ _ hst

/-- `event_loop` is called by the main program only, no I/O call names a descriptor that a
coroutine waits on already, and no such descriptor is closed by `coroutine::socket_close`. -/
structure Cooperates (s : State) (a : Action) : Prop where
  loop : ∀ site, a = .eventLoop site → activations s.stack = []
  idle : ∀ q addOk, ioRequest s a = some (q, addOk) → s.rg.waiter q.fd = none
  keeps : ¬ ClosesWaiter s a

/-- A call that suspends outside of all coroutines has no next state. -/
theorem atHome_of_step {s s' : State} {a : Action}
    (hloop : ∀ site, a = .eventLoop site → activations s.stack = [])
    (hstep : step s a = .ok s') : AtHome s a := by
  refine ⟨hloop, fun s₁ hy hnil => ?_⟩
  obtain ⟨hstack, _⟩ := jump_of_yields hy
  obtain ⟨_, _, rfl, _⟩ | ⟨_, _, _, rfl, _⟩ | ⟨_, _, _, rfl, _⟩ | ⟨_, o, ho, hs⟩ := step_cases hstep
  · cases hy
  · cases hy
  · cases hy
  · cases hy.symm.trans ho
    obtain ⟨x, hx, _⟩ := coroYield_cases hs
    rw [hstack, hnil] at hx
    cases hx

/-- `event_loop` is called by the main program only. -/
def MainLoops (s : State) (a : Action) : Prop :=
  ∀ site, a = .eventLoop site → activations s.stack = []

theorem hosted_of_mainLoops {s : State} (h : Reached MainLoops s) : Sched s ∧ Hosted s := by
  have hhome : Reached AtHome s := h.mono fun s a s' _ _ hok hstep => atHome_of_step hok hstep
  exact hosted_of_reached (fun _ _ => id) hhome

theorem finishesOwn_of_mainLoops {s : State} (h : Reached MainLoops s) : Reached FinishesOwn s := by
  refine h.mono fun s a s' _ hreach _ _ => ?_
  obtain ⟨hs, hh⟩ := hosted_of_mainLoops hreach
  exact hh.finishesOwn hs a

theorem matches_step {s s' : State} {a : Action} (h : Reached Cooperates s)
    (hrun : Coop.Run s.record s.cooperative) (hs : Sched s) (hh : Hosted s) (hok : Cooperates s a)
    (hstep : step s a = .ok s') :
    Matches Coop.Step (s.cooperative, s.record) (s'.cooperative, s'.record) := by
  have hr := tableWf_of_reached h
  have hk := keepsWaiters_step hr (waiting_of_reached h) hok.keeps hstep
  cases lifeStep hr hs (hh.finishesOwn hs a) hstep with
  | same hact hlog hsaved hkeys =>
    have hparked : s'.parked = s.parked := parked_congr (hlog.contextOf hkeys hk (by simp)) hsaved
    left
    apply Prod.ext
    · simp only [State.cooperative, hact, hparked, hlog.finishedTasks, List.nil_append]
    · exact hlog.record
  | starts x t cid retval hact hx habsent hlog hsaved hkeys =>
    have hparked : s'.parked = s.parked := parked_congr (hlog.contextOf hkeys hk (by simp)) hsaved
    refine .inr ⟨.spawn t, hlog.record, ?_⟩
    convert Coop.Step.spawn (fresh_of_absent hrun habsent) using 1
    simp only [State.cooperative, hparked, hlog.finishedTasks]
    congr 1
    exact active_cons hact hx
  | switches x t w c result hact hx hst hc hsaved hlog hsaved' hkeys =>
    have hparked : s'.parked = Function.update s.parked w none := by
      refine parked_switched hs.core hc hsaved (fun w' hw => ?_) (fun c' hc' => ?_) hsaved'
      · refine contextOf_keeps hkeys hk fun fd t' c' act result' _ heq => ?_
        cases hlog.symm.trans heq
        exact hw rfl
      · exact Option.some.inj ((hkeys.contextOf w c' hc').symm.trans hc)
    have hadds : Adds s s' [.switched (some t) w c x.id result] := ⟨[], hlog⟩
    refine .inr ⟨.wake t w, hadds.record, ?_⟩
    convert Coop.Step.wake (s := s.cooperative) (parked_eq_some.mpr ⟨c, hc, hsaved⟩) using 1
    simp only [State.cooperative, hparked, hadds.finishedTasks]
    congr 1
    exact active_cons hact hx
  | suspends x t w c hact hx hst hfresh hlog hsaved hput =>
    have hidle : ∀ fd, w = .io fd → s.rg.waiter fd = none := by
      intro fd hw
      obtain ⟨q, addOk, hq, rfl⟩ := hput.request fd hw
      exact hok.idle q addOk hq
    have hfree : s.parked w = none := by
      cases w with
      | io fd =>
        rw [State.parked, State.contextOf, hidle fd rfl]
        rfl
      | yield cid =>
        obtain ⟨hcid, hin⟩ := hput.cid cid rfl
        refine yield_idle hs.core hcid hin fun w' c' hst' => ?_
        cases hst.symm.trans hst'
    have hparked : s'.parked = Function.update s.parked w (some t) :=
      parked_suspended hs.core hfresh hput.others (hput.idle hidle) hsaved
    refine .inr ⟨.park t w, hlog.record, ?_⟩
    convert Coop.Step.park (s := s.cooperative) (active_cons hact hx) hfree using 1
    change Coop.State.mk s'.cooperative.active s'.parked (finishedTasks s'.log) = _
    rw [hparked, hlog.finishedTasks]
    rfl
  | finishes x t cid page retval hact hx hst hlog hsaved hkeys =>
    have hparked : s'.parked = s.parked := parked_congr (hlog.contextOf hkeys hk (by simp)) hsaved
    refine .inr ⟨.finish t, hlog.record, ?_⟩
    convert Coop.Step.finish (s := s.cooperative) (active_cons hact hx) using 1
    change Coop.State.mk s'.cooperative.active s'.parked (finishedTasks s'.log) = _
    rw [hparked, hlog.finishedTasks]
    rfl

theorem hosted_of_cooperates {s : State} (h : Reached Cooperates s) : Sched s ∧ Hosted s :=
  hosted_of_mainLoops (h.mono fun _ _ _ _ _ hok _ => hok.loop)

theorem simulates : Simulates step Initial Cooperates Coop.Step Coop.idle State.cooperative
    State.record where
  start := by
    rintro s ⟨maxCoroNum, _, stackSize, _, rfl⟩
    refine ⟨?_, rfl⟩
    have hparked : (initial maxCoroNum stackSize).parked = fun _ => none := by
      funext w
      cases w <;> rfl
    simp only [State.cooperative, hparked]
    rfl
  step := by
    intro s a s' h hrun hok hstep
    obtain ⟨hs, hh⟩ := hosted_of_cooperates h
    exact matches_step h hrun hs hh hok hstep

/-- An I/O call that has a registration to make asks for it. -/
theorem asked_of_request {s : State} {a : Action} {o : Outcome} {q : StoreArgs} {addOk : Bool}
    (hq : ioRequest s a = some (q, addOk)) (ho : phpStep s a = .ok o) :
    ∃ site r, SameSlots s.rg r ∧
      storeAndYield { enterCall s site with rg := r } (callFrame s site) q addOk = .ok o := by
  -- a method that looks at the descriptor finds it in order
  have hconverted : ∀ {fd : ℤ} {site : CallSite} {q' : StoreArgs} {addOk' : Bool},
      (if fd < 0 then none else some (q', addOk')) = some (q, addOk) →
      (if fd < 0 then .ok (.returned (enterCall s site) (callFrame s site) (.bool false))
        else storeAndYield (enterCall s site) (callFrame s site) q' addOk') = .ok o →
      ∃ site r, SameSlots s.rg r ∧
        storeAndYield { enterCall s site with rg := r } (callFrame s site) q addOk = .ok o := by
    intro fd site q' addOk' hq ho
    split_ifs at hq ho
    cases hq
    exact ⟨site, s.rg, .refl _, ho⟩
  cases a with
  | socketAccept site io =>
    obtain ⟨fd, hfd, ho⟩ := bind_eq_ok.mp ho
    obtain ⟨zfd, hz, rfl⟩ := firstFd_eq_ok.mp hfd
    rw [ioRequest, hz] at hq
    cases hq
    exact ⟨site, s.rg, .refl _, ho⟩
  | socketRead site io =>
    obtain ⟨fd, hfd, ho⟩ := bind_eq_ok.mp ho
    obtain ⟨zfd, hz, rfl⟩ := firstFd_eq_ok.mp hfd
    rw [ioRequest, hz] at hq
    exact hconverted hq ho
  | socketWrite site io =>
    obtain ⟨fd, hfd, ho⟩ := bind_eq_ok.mp ho
    obtain ⟨zfd, hz, rfl⟩ := firstFd_eq_ok.mp hfd
    rw [ioRequest, hz] at hq
    exact hconverted hq ho
  | prepare site origin io => exact hconverted hq ho
  | fetchAll site origin io => exact hconverted hq ho
  | sleep site timeout tfd clockOk addOk' =>
    by_cases hle : timeout ≤ 0
    · rw [ioRequest, if_pos hle] at hq
      cases hq
    · rw [ioRequest, if_neg hle] at hq
      simp only [phpStep, coroutineSleep, if_neg hle] at ho
      obtain ⟨_, _, ho⟩ := bind_eq_ok.mp ho
      cases hq
      exact ⟨site, _, sameSlots_timers _ _ _ _ _ _, ho⟩
  | _ => cases hq

/-- An I/O call on a descriptor that a coroutine waits on suspends the caller all the same. -/
theorem yields_of_busy {s : State} {a : Action} {o : Outcome} {q : StoreArgs} {addOk : Bool}
    (hr : TableWf s.rg) (hq : ioRequest s a = some (q, addOk)) (hbusy : s.rg.waiter q.fd ≠ none)
    (ho : phpStep s a = .ok o) : ∃ s₁, o = .yields s₁ := by
  obtain ⟨site, r, hsame, hst⟩ := asked_of_request hq ho
  obtain ⟨rg, ret, hstore, ⟨hret, ho⟩ | ⟨_, ho⟩⟩ := storeAndYield_cases hst
  · obtain ⟨_, ⟨_, hw, _⟩ | ⟨_, hw, _⟩ | ⟨rfl, _, _⟩⟩ :=
      aioEventStore_cases (hr.congr hsame.slots hsame.interest) hstore
    · exact absurd ((hsame.waiter q.fd).symm.trans hw) hbusy
    · exact absurd ((hsame.waiter q.fd).symm.trans hw) hbusy
    · exact absurd hret (by decide)
  · exact ⟨_, ho⟩

/-- A step that closes a descriptor under a waiter, or makes another coroutine wait there,
is none of a scheduler. -/
theorem cooperates_of_matches {s s' : State} {a : Action} (h : Reached Cooperates s)
    (hloop : ∀ site, a = .eventLoop site → activations s.stack = [])
    (hstep : step s a = .ok s')
    (hm : Matches Coop.Step (s.cooperative, s.record) (s'.cooperative, s'.record)) :
    Cooperates s a := by
  obtain ⟨hs, _⟩ := hosted_of_cooperates h
  have hr := tableWf_of_reached h
  have hparked : ∀ fd, s.rg.waiter fd ≠ none → s.parked (.io fd) ≠ none := by
    intro fd hne hnone
    obtain ⟨c, hc⟩ := Option.ne_none_iff_exists'.mp hne
    obtain ⟨t, ht, _⟩ := hs.core.waiters fd c hc
    have hsome : s.parked (.io fd) = some t := parked_eq_some.mpr ⟨c, hc, ht⟩
    cases hsome.symm.trans hnone
  refine ⟨hloop, fun q addOk hq => ?_, ?_⟩
  · by_contra hbusy
    have ha := isIo_of_ioRequest hq
    have hisPhp : isPhp a = true := by
      cases a <;> first | rfl | cases ha
    obtain ⟨hphp, o, ho, hset⟩ := php_step_cases hisPhp hstep
    obtain ⟨s₁, rfl⟩ := yields_of_busy hr hq hbusy ho
    obtain ⟨q', addOk', hq', hsus, _⟩ := suspends_block hr ha ho
    cases hq.symm.trans hq'
    obtain ⟨x, t, _, _, _, _, hlog, _⟩ := suspends_coroYield hs hphp hsus hset
    have hrec : s'.record = .park t (.io q.fd) :: s.record := hlog.record
    rcases hm with heq | ⟨e, he, hst⟩
    · exact absurd (hrec.symm.trans (congrArg Prod.snd heq)) (List.cons_ne_self _ _)
    · cases hrec.symm.trans he
      exact hparked q.fd hbusy hst.free_of_park
  · rintro ⟨site, io, closed, retval, fd, rfl, hfd, hne⟩
    obtain ⟨hnone, hlog⟩ := step_socketClose hstep hfd
    have hrec : s'.record = s.record := by
      rw [State.record, hlog]
      rfl
    have hgone : s'.parked (.io fd) = none := by
      rw [State.parked, State.contextOf, hnone]
      rfl
    rcases hm with heq | ⟨e, he, _⟩
    · have hsame : s'.parked = s.parked := congrArg (fun p => p.1.parked) heq
      rw [hsame] at hgone
      exact hparked fd hne hgone
    · exact absurd (hrec.symm.trans he) (List.cons_ne_self _ _).symm

theorem record_step {s s' : State} {a : Action} (hr : TableWf s.rg) (hs : Sched s)
    (hok : FinishesOwn s a) (h : step s a = .ok s') :
    s'.record = s.record ∨ ∃ e, s'.record = e :: s.record := by
  cases lifeStep hr hs hok h with
  | same _ hlog _ _ => exact .inl hlog.record
  | starts _ _ _ _ _ _ _ hlog _ _ => exact .inr ⟨_, hlog.record⟩
  | switches x t w c result _ _ _ _ _ hlog _ _ =>
    have hadds : Adds s s' [.switched (some t) w c x.id result] := ⟨[], hlog⟩
    exact .inr ⟨_, hadds.record⟩
  | suspends _ _ _ _ _ _ _ _ hlog _ _ => exact .inr ⟨_, hlog.record⟩
  | finishes _ _ _ _ _ _ _ _ hlog _ _ => exact .inr ⟨_, hlog.record⟩

/-- Every run that keeps to one coroutine for each descriptor is a run of a scheduler of
cooperative tasks, with the same record; and at the first step that does not, it stops being
one. -/
theorem cooperates_iff {s : State} (h : Reached Cooperates s) :
    Coop.Run s.record s.cooperative ∧
      ∀ a s', (∀ site, a = .eventLoop site → activations s.stack = []) → step s a = .ok s' →
        (Coop.Run s'.record s'.cooperative ↔ Cooperates s a) := by
  have hrun := simulates.trace h
  obtain ⟨hs, hh⟩ := hosted_of_cooperates h
  refine ⟨hrun, fun a s' hloop hstep => ⟨fun hrun' => ?_, fun hok => ?_⟩⟩
  · have hrec := record_step (tableWf_of_reached h) hs (hh.finishesOwn hs a) hstep
    apply cooperates_of_matches h hloop hstep
    exact Trace.matches_of_trace (fun _ _ _ _ ht ht' => ht.unique ht') (s.cooperative, s.record)
      (s'.cooperative, s'.record) hrun hrun' hrec
  · exact simulates.trace (h.next hok hstep)

def testMainLoops (s : State) : Action → Bool
  | .eventLoop _ => (activations s.stack).isEmpty
  | _ => true

theorem mainLoops_of_test (s : State) (a : Action) (h : testMainLoops s a = true) :
    MainLoops s a := by
  rintro site rfl
  exact List.isEmpty_iff.mp h

def testCooperates (s : State) (a : Action) : Bool :=
  match a with
  | .eventLoop _ => (activations s.stack).isEmpty
  | .socketClose _ io _ _ => match firstFd io with
    | .ok fd => s.rg.waiter fd = none
    | .error _ => true
  | a => match ioRequest s a with
    | some (q, _) => s.rg.waiter q.fd = none
    | none => true

theorem cooperates_of_test {s : State} {a : Action} (h : testCooperates s a = true) :
    Cooperates s a := by
  refine ⟨?_, fun q addOk hq => ?_, ?_⟩
  · rintro site rfl
    exact List.isEmpty_iff.mp h
  · have htest : (match ioRequest s a with
        | some (q, _) => decide (s.rg.waiter q.fd = none)
        | none => true) = true := by
      cases a <;> first | exact h | cases hq
    rw [hq] at htest
    exact of_decide_eq_true htest
  · rintro ⟨site, io, closed, retval, fd, rfl, hfd, hne⟩
    simp only [testCooperates, hfd] at h
    exact hne (of_decide_eq_true h)

theorem cooperates_iff_readers : ∃ s s₁ s₂,
    runFrom step (initial 0 0) (waitingRun ++ [createCall 2]) = .ok s ∧
    step s (readCall 4) = .ok s₁ ∧ Coop.Run s₁.record s₁.cooperative ∧
    step s (readCall 3) = .ok s₂ ∧ ¬ Coop.Run s₂.record s₂.cooperative := by
  have hok : ∀ s a, testCooperates s a = true → Cooperates s a := fun _ _ => cooperates_of_test
  obtain ⟨s, hrun, hs, hp⟩ := exists_reached_of _ hok (waitingRun ++ [createCall 2])
    (fun s => testCooperates s (readCall 4) ∧ (step s (readCall 4)).isOk ∧
      (step s (readCall 3)).isOk ∧ s.rg.waiter 3 ≠ none) (by decide)
  simp only [decide_eq_true_eq] at hp
  obtain ⟨htest, h4, h3, hbusy⟩ := hp
  obtain ⟨s₁, hs₁⟩ := exists_of_isOk h4
  obtain ⟨s₂, hs₂⟩ := exists_of_isOk h3
  obtain ⟨_, hnext⟩ := cooperates_iff hs
  refine ⟨s, s₁, s₂, hrun, hs₁, (hnext _ s₁ (by rintro site ⟨⟩) hs₁).mpr (hok s _ htest), hs₂, ?_⟩
  rw [hnext _ s₂ (by rintro site ⟨⟩) hs₂]
  intro hcoop
  exact hbusy (hcoop.idle _ _ rfl)

theorem status_present {s : State} {xs : List Activation} (h : Core xs s.scheduler) (t : Ptr) :
    ((status s.log t).phase (fun w _ => w) = .running ∨
      ∃ w, (status s.log t).phase (fun w _ => w) = .waiting w) ↔ cidOf s.log t ≠ none := by
  have hlive : cidOf s.log t = none ↔ status s.log t = .absent ∨ status s.log t = .closed :=
    h.live t
  rw [ne_eq, hlive]
  cases status s.log t <;> simp [Status.phase]

/-- In such runs each coroutine that was created runs in one activation, waits under one key
or is closed, and `coro_num` counts those that run or wait. -/
theorem each_in_one_place {s : State} (h : Reached (fun s a => Cooperates s a ∧ FreeCid s a) s) :
    ∃ ps : List (Wait × Ptr), Coop.Waiting s.cooperative ps ∧
      (s.cooperative.active ++ (ps.map Prod.snd ++ finishedTasks s.log)).Nodup ∧
      (Coop.spawned s.record).Perm
        (s.cooperative.active ++ (ps.map Prod.snd ++ finishedTasks s.log)) ∧
      s.corog.coroNum = s.cooperative.active.length + ps.length := by
  have hcoop : Reached Cooperates s := h.mono fun _ _ _ _ _ hok _ => hok.1
  obtain ⟨hs, _⟩ := hosted_of_cooperates hcoop
  have hc : Counted s := by
    apply counted_of_reached
    refine h.mono fun s a s' _ hreach hok hstep => ⟨?_, hok.2⟩
    obtain ⟨hs, hh⟩ := hosted_of_cooperates (hreach.mono fun _ _ _ _ _ hok _ => hok.1)
    exact hh.finishesOwn hs a
  have hrun := simulates.trace hcoop
  have hf := Coop.Run.follows hrun
  obtain ⟨ps, hw, hperm⟩ := Coop.Run.census hrun
  have hall := hf.census_nodup hw
  refine ⟨ps, hw, hall, hperm, ?_⟩
  have hlive : (liveTasks s.log).Perm (s.cooperative.active ++ ps.map Prod.snd) := by
    rw [← List.append_assoc] at hall
    refine (List.perm_ext_iff_of_nodup hc.nodup hall.of_append_left).mpr fun t => ?_
    rw [hc.mem, hf.mem_present hw, State.record, phase_scheduling]
    exact (status_present hs.core t).symm
  rw [hc.coroNum, hlive.length_eq, List.length_append, List.length_map]

def testFreeCid (s : State) : Action → Bool
  | .create _ _ _ => s.cids.cidmap.nrFree ≠ 0
  | _ => true

theorem each_in_one_place_three : ∃ s, runFrom step (initial 0 0)
      (waitingRun ++ [createCall 2, .finish, createCall 3]) = .ok s ∧
    s.cooperative.active.length = 1 ∧ s.rg.waiter 3 ≠ none ∧ (finishedTasks s.log).length = 1 ∧
    ∃ ps : List (Wait × Ptr), Coop.Waiting s.cooperative ps ∧
      (s.cooperative.active ++ (ps.map Prod.snd ++ finishedTasks s.log)).Nodup ∧
      (Coop.spawned s.record).Perm
        (s.cooperative.active ++ (ps.map Prod.snd ++ finishedTasks s.log)) ∧
      s.corog.coroNum = s.cooperative.active.length + ps.length := by
  have hok : ∀ s a, (testCooperates s a && testFreeCid s a) = true →
      Cooperates s a ∧ FreeCid s a := by
    intro s a h
    obtain ⟨hcoop, hfree⟩ := Bool.and_eq_true_iff.mp h
    refine ⟨cooperates_of_test hcoop, ?_⟩
    rintro site slots callback rfl
    exact of_decide_eq_true hfree
  obtain ⟨s, hrun, hs, hp⟩ := exists_reached_of _ hok
    (waitingRun ++ [createCall 2, .finish, createCall 3])
    (fun s => s.cooperative.active.length = 1 ∧ s.rg.waiter 3 ≠ none ∧
      (finishedTasks s.log).length = 1) (by decide)
  simp only [decide_eq_true_eq] at hp
  obtain ⟨hact, hw, hfin⟩ := hp
  exact ⟨s, hrun, hact, hw, hfin, each_in_one_place hs⟩

end Phpco
