import Phpco.BatchLaw
import Phpco.ReportLaw
import Phpco.TimeSteps

/-!
# Sleeping

`coroutine::sleep` waits for a timer that it arms for a whole second of
`CLOCK_MONOTONIC`.  A coroutine that slept was not resumed too early if the clock
read a whole second when it was armed, and nothing but its timer woke it.
-/

namespace Phpco
open Except EventTable Transition

theorem timerfds_aioEventFree {r : EventTable} (hr : TableWf r) {slot fd : ℤ} (hne : fd ≠ slot) :
    (aioEventFree r slot).timerfds fd = r.timerfds fd := by
  unfold aioEventFree
  cases hslot : r.aioEventFds slot with
  | none => rfl
  | some ev =>
    have hfd := (hr.slot slot ev hslot).fd_eq
    cases hty : ev.fdType with
    | none =>
      simp only [hty]
      rfl
    | some ty =>
      cases ty with
      | accept =>
        simp only [hty]
        rfl
      | normal =>
        simp only [hty]
        rfl
      | timmer =>
        simp only [hty, hfd]
        exact Function.update_of_ne hne _ _

theorem timerfds_invokeTable (r : EventTable) (fd : ℤ) :
    (invokeTable r fd).timerfds = (aioEventFree r fd).timerfds := by
  unfold invokeTable
  cases hslot : r.aioEventFds fd with
  | none => simp [aioEventFree, hslot]
  | some ev => rfl

theorem timerfds_storeAndYield {s s' : State} {frame : InternalCall} {q : StoreArgs} {addOk : Bool}
    {o : Outcome} (hr : TableWf s.rg) (h : storeAndYield s frame q addOk = .ok o)
    (hs : settle o = .ok s') :
    inTable q.fd ∧ s'.rg.timerfds = s.rg.timerfds ∧ q.context < s'.next := by
  obtain ⟨rg, ret, hstore, ho⟩ := storeAndYield_cases h
  obtain ⟨hin, hcase⟩ := aioEventStore_cases hr hstore
  have htimers : rg.timerfds = s.rg.timerfds := by
    obtain ⟨_, _, rfl⟩ | ⟨_, _, _, _, _, _, _, rfl⟩ | ⟨_, _, rfl⟩ := hcase
    · rfl
    · rfl
    · rfl
  refine ⟨hin, ?_⟩
  obtain ⟨_, rfl⟩ | ⟨_, rfl⟩ := ho
  · cases hs
    exact ⟨htimers, Nat.lt_add_of_pos_right (by decide)⟩
  · rw [(sameTable_coroYield hs).rg, (sameTable_coroYield hs).next]
    exact ⟨htimers, Nat.lt_add_of_pos_right (by decide)⟩

def armedValue (s : State) (t : ℤ) : Timespec := ⟨(s.clock.tvSec + t).bmod (2 ^ 64), 0⟩

/-- A `coroutine::sleep` that goes as far as the table has armed its timer, if the value is valid. -/
theorem sleep_cases {s s' : State} {site : CallSite} {t tfd : ℤ} {clockOk addOk : Bool}
    (hr : TableWf s.rg) (ht : 0 < t) (h : step s (.sleep site t tfd clockOk addOk) = .ok s') :
    s.rg.timerfds tfd = none ∧
    ioRequest s (.sleep site t tfd clockOk addOk) =
      some (storeTimer (enterCall s site) tfd, addOk) ∧
    s'.rg.timerfds = Function.update s.rg.timerfds tfd
      (some (if 0 ≤ (armedValue s t).tvSec then some (armedValue s t) else none)) ∧
    s.next + 2 < s'.next := by
  obtain ⟨_, o, ho, hs⟩ := php_step_cases rfl h
  simp only [phpStep, coroutineSleep, if_neg (not_le.mpr ht)] at ho
  obtain ⟨_, hfresh, ho⟩ := bind_eq_ok.mp ho
  have hfresh := check_eq_ok.mp hfresh
  have hsame := sameSlots_timers s.rg tfd (createTimerfd s.rg tfd
    (if clockOk then some s.clock else none) t).2.1 (if clockOk then some s.clock else none)
    (createTimerfd s.rg tfd (if clockOk then some s.clock else none) t).2.2 t
  obtain ⟨hin, htimers, hnext⟩ := timerfds_storeAndYield (hr.congr hsame.slots hsame.interest) ho hs
  -- without a descriptor or a clock the table would be asked for slot -1
  by_cases hneg : tfd < 0
  · simp [storeTimer, createTimerfd, hneg, inTable, cErr] at hin
  cases clockOk with
  | false => simp [storeTimer, createTimerfd, hneg, inTable, cErr] at hin
  | true =>
    refine ⟨(hfresh.resolve_left hneg).2, ?_, ?_, hnext⟩
    · simp only [ioRequest, if_neg (not_le.mpr ht), createTimerfd, if_neg hneg, if_true]
    · rw [htimers]
      simp only [createTimerfd, if_neg hneg, if_true, timerfdSettime, Function.update_self]
      change (if 0 ≤ (armedValue s t).tvSec ∧ 0 ≤ (armedValue s t).tvNsec ∧
        (armedValue s t).tvNsec < 1000000000 then _ else _ : EventTable).timerfds = _
      by_cases hsec : 0 ≤ (armedValue s t).tvSec
      · have hvalid : 0 ≤ (armedValue s t).tvSec ∧ 0 ≤ (armedValue s t).tvNsec ∧
            (armedValue s t).tvNsec < 1000000000 := ⟨hsec, le_rfl, show (0 : ℤ) < _ by decide⟩
        rw [if_pos hvalid, if_pos hsec]
        exact Function.update_idem _ _ _
      · rw [if_neg fun hvalid => hsec hvalid.1, if_neg hsec]
        rfl

theorem timerfds_io {s s' : State} {a : Action} {fd : ℤ} (hr : TableWf s.rg) (ha : isIo a = true)
    (h : step s a = .ok s') : s'.rg.timerfds fd = s.rg.timerfds fd ∨
      ∃ site t clockOk addOk, a = .sleep site t fd clockOk addOk ∧ 0 < t := by
  have hphp : isPhp a = true := by
    cases a <;> first | rfl | cases ha
  obtain ⟨_, o, ho, hs⟩ := php_step_cases hphp h
  have hstore : ∀ {frame : InternalCall} {q : StoreArgs} {addOk : Bool} (site : CallSite),
      storeAndYield (enterCall s site) frame q addOk = .ok o →
        s'.rg.timerfds fd = s.rg.timerfds fd := fun site ho =>
    congrFun (timerfds_storeAndYield (s := enterCall s site) hr ho hs).2.1 fd
  have hconverted : ∀ {n : ℤ} {frame : InternalCall} {q : StoreArgs} {addOk : Bool} (site : CallSite),
      (if n < 0 then .ok (.returned (enterCall s site) frame (.bool false))
        else storeAndYield (enterCall s site) frame q addOk) = .ok o →
        s'.rg.timerfds fd = s.rg.timerfds fd := by
    intro n frame q addOk site ho
    split_ifs at ho
    · cases ho
      cases hs
      rfl
    · exact hstore site ho
  cases a with
  | socketAccept site io =>
    obtain ⟨_, _, ho⟩ := bind_eq_ok.mp ho
    exact .inl (hstore site ho)
  | socketRead site io =>
    obtain ⟨_, _, ho⟩ := bind_eq_ok.mp ho
    exact .inl (hconverted site ho)
  | socketWrite site io =>
    obtain ⟨_, _, ho⟩ := bind_eq_ok.mp ho
    exact .inl (hconverted site ho)
  | prepare site origin io => exact .inl (hconverted site ho)
  | fetchAll site origin io => exact .inl (hconverted site ho)
  | sleep site t tfd clockOk addOk =>
    by_cases ht : 0 < t
    · by_cases hfd : fd = tfd
      · exact .inr ⟨site, t, clockOk, addOk, by rw [hfd], ht⟩
      · left
        rw [(sleep_cases hr ht h).2.2.1, Function.update_of_ne hfd]
    · simp only [phpStep, coroutineSleep, if_pos (not_lt.mp ht)] at ho
      cases ho
      cases hs
      exact .inl rfl
  | _ => cases ha

/-- A step leaves a timer as it is while something is pending on its descriptor. -/
theorem timerfds_step {s s' : State} {a : Action} {fd : ℤ} (hr : TableWf s.rg)
    (h : step s a = .ok s') : s'.rg.timerfds fd = s.rg.timerfds fd ∨ s'.rg.waiter fd = none ∨
      ∃ site t clockOk addOk, a = .sleep site t fd clockOk addOk ∧ 0 < t := by
  cases tableMove h with
  | same hrg _ => exact .inl (by rw [hrg])
  | init _ _ _ _ _ hrg => exact .inl (by rw [hrg])
  | store q addOk r r' ret hq _ _ _ _ _ _ =>
    exact (timerfds_io hr (isIo_of_ioRequest hq) h).imp id .inr
  | invoke answer fd' _ _ _ hrg _ _ =>
    rw [hrg]
    by_cases hfd : fd = fd'
    · exact .inr (.inl (by rw [waiter_invokeTable, if_pos hfd]))
    · exact .inl (by rw [timerfds_invokeTable, timerfds_aioEventFree hr hfd])
  | socketClose site io closed retval fd' _ _ _ hrg _ =>
    rw [hrg]
    by_cases hfd : fd = fd'
    · exact .inr (.inl (by rw [waiter_aioEventFree, if_pos hfd]))
    · left
      split_ifs
      · exact timerfds_aioEventFree (hr.dropInterest fd') hfd
      · exact timerfds_aioEventFree hr hfd
  | closeFd fd' _ hrg _ => exact .inl (by rw [hrg]; rfl)

theorem pendingSlot_step {s s' : State} {a : Action} {fd : ℤ} {ev : AioEvent} {c : Ptr}
    (hr : TableWf s.rg) (h : step s a = .ok s') (hev : s'.rg.aioEventFds fd = some ev)
    (hc : ev.phpContext = some c) : s.rg.aioEventFds fd = some ev ∨
      ∃ q addOk, ioRequest s a = some (q, addOk) ∧ q.fd = fd ∧ q.context = c ∧
        ev.fdType = some q.fdType ∧ s.next < c ∧ c < s'.next ∧ s.rg.waiter fd = none := by
  cases tableMove h with
  | same hrg _ => exact .inl (hrg ▸ hev)
  | init _ _ _ _ _ hrg => simp [hrg] at hev
  | store q addOk r r' ret hq hsame hlt hlt' hst hrg _ =>
    rw [hrg] at hev
    obtain ⟨_, ⟨_, hw, rfl⟩ | ⟨_, hw, _, _, ev', _, _, rfl⟩ | ⟨_, _, rfl⟩⟩ :=
      aioEventStore_cases (hr.congr hsame.slots hsame.interest) hst
    · by_cases hfd : fd = q.fd
      · simp [hfd] at hev
      · rw [aioEventFds_setSlot, Function.update_of_ne hfd, hsame.slots] at hev
        exact .inl hev
    · by_cases hfd : fd = q.fd
      · subst hfd
        simp only [registerSlot, Function.update_self, Option.some.injEq] at hev
        subst hev
        cases hc
        exact .inr ⟨q, addOk, hq, rfl, rfl, rfl, hlt, hlt', by rw [← hsame.waiter]; exact hw⟩
      · simp only [registerSlot, Function.update_of_ne hfd, hsame.slots] at hev
        exact .inl hev
    · exact .inl (hsame.slots ▸ hev)
  | invoke answer fd' _ _ _ hrg _ _ =>
    rw [hrg, aioEventFds_invokeTable] at hev
    exact .inl (slot_of_pending_aioEventFree hev hc)
  | socketClose site io closed retval fd' _ _ _ hrg _ =>
    rw [hrg] at hev
    have hev' := slot_of_pending_aioEventFree hev hc
    split_ifs at hev' <;> exact .inl hev'
  | closeFd fd' _ hrg _ =>
    rw [hrg] at hev
    exact .inl hev

abbrev Deadlines := Ptr → Option Timespec

/-- `coroutine::sleep(t)` is called: `t` seconds from now. -/
def noteSleep (g : Deadlines) (s : State) (a : Action) (_ : State) : Deadlines :=
  match a, ioRequest s a with
  | .sleep _ t _ _ _, some (q, _) =>
    Function.update g q.context (some ⟨s.clock.tvSec + t, s.clock.tvNsec⟩)
  | _, _ => g

/-- The clock reads a whole second, and the sum that `create_timerfd` forms is a `time_t`. -/
def OnTheSecond (s : State) (t : ℤ) : Prop :=
  s.clock.tvNsec = 0 ∧ s.clock.tvSec + t < 2 ^ 63

instance (s : State) (t : ℤ) : Decidable (OnTheSecond s t) := inferInstanceAs (Decidable (_ ∧ _))

/-- An expired timeout is set for the timer that a coroutine sleeps on. -/
def TimesOutSleep (s : State) (a : Action) : Prop :=
  (∃ answer, a = .loopStep answer) ∧
    (∃ l stack now q f, s.stack = .eventLoop l :: stack ∧ l.phase = .timeouts now q f) ∧
    ∃ fd ev, dispatchFd s = some fd ∧ s.rg.aioEventFds fd = some ev ∧ ev.fdType = some .timmer

/-- Sleeps begin on the second, with a timer on which no report is due, and no timeout ends
them. -/
def SleepsWell (s : State) (a : Action) : Prop :=
  (∀ site t tfd clockOk addOk, a = .sleep site t tfd clockOk addOk → 0 < t →
    OnTheSecond s t ∧ ¬ WaitsOnDue s a) ∧ ¬ TimesOutSleep s a

/-- A sleeping coroutine has a timer armed for its deadline, which a report on it has passed. -/
structure Asleep (s : State) (g : Deadlines) : Prop where
  armed : ∀ fd ev c d, s.rg.aioEventFds fd = some ev → ev.phpContext = some c → g c = some d →
    ev.fdType = some .timmer ∧ s.rg.timerfds fd = some (some d)
  fresh : ∀ c, s.next ≤ c → g c = none
  due : ∀ fd c d, Due s fd → s.rg.waiter fd = some c → g c = some d → d.le s.clock

theorem noteSleep_cases (g : Deadlines) (s : State) (a : Action) (s' : State) :
    noteSleep g s a s' = g ∨ ∃ site t tfd clockOk addOk fd,
      a = .sleep site t tfd clockOk addOk ∧ 0 < t ∧
      ioRequest s a = some (storeTimer (enterCall s site) fd, addOk) ∧
      noteSleep g s a s' =
        Function.update g (s.next + 2) (some ⟨s.clock.tvSec + t, s.clock.tvNsec⟩) := by
  cases a with
  | sleep site t tfd clockOk addOk =>
    by_cases ht : t ≤ 0
    · left
      simp only [noteSleep, ioRequest, if_pos ht]
    · right
      refine ⟨site, t, tfd, clockOk, addOk, _, rfl, not_le.mp ht, if_neg ht, ?_⟩
      simp only [noteSleep, ioRequest, if_neg ht]
      rfl
  | _ => exact .inl rfl

theorem asleep_initial (s : State) : Asleep s fun _ => none := by
  refine ⟨fun _ _ _ _ _ _ hd => ?_, fun _ _ => rfl, fun _ _ _ _ _ hd => ?_⟩
  · cases hd
  · cases hd

theorem noted_step {s s' : State} {a : Action} {g : Deadlines} {fd : ℤ} {ev : AioEvent} {c : Ptr}
    {d : Timespec} (hr : TableWf s.rg) (hw : Waiting s) (hg : ∀ c, s.next ≤ c → g c = none)
    (hstep : step s a = .ok s') (hev : s'.rg.aioEventFds fd = some ev)
    (hc : ev.phpContext = some c) (hd : noteSleep g s a s' c = some d) :
    (s.rg.aioEventFds fd = some ev ∧ g c = some d) ∨
      ∃ site t clockOk addOk, a = .sleep site t fd clockOk addOk ∧ 0 < t ∧
        ev.fdType = some .timmer ∧ s.rg.waiter fd = none ∧
        d = ⟨s.clock.tvSec + t, s.clock.tvNsec⟩ := by
  have hnote := noteSleep_cases g s a s'
  rcases pendingSlot_step hr hstep hev hc with hold | ⟨q, addOk, hq, rfl, rfl, hty, hlt, _, hidle⟩
  · left
    refine ⟨hold, ?_⟩
    have hlt := hw.fresh fd c (waiter_eq_some.mpr ⟨ev, hold, hc⟩)
    rcases hnote with hsame | ⟨_, _, _, _, _, _, _, _, _, hnew⟩
    · rw [← hsame]
      exact hd
    · rw [hnew, Function.update_of_ne (hlt.trans_le (Nat.le_add_right _ 2)).ne] at hd
      exact hd
  · right
    rcases hnote with hsame | ⟨site, t, tfd, clockOk, addOk', fd, ha, ht, hq', hnew⟩
    · rw [hsame, hg _ hlt.le] at hd
      cases hd
    · have hq := hq'.symm.trans hq
      rw [ha] at hstep hq'
      obtain ⟨_, hreq, _⟩ := sleep_cases hr ht hstep
      cases hreq.symm.trans hq'
      cases hq
      rw [hnew] at hd
      have hd : some _ = some d := (Function.update_self (s.next + 2) _ g).symm.trans hd
      cases hd
      exact ⟨site, t, clockOk, addOk, ha, ht, hty, hidle, rfl⟩

theorem armedValue_eq_iff {s : State} {t : ℤ} (hsec : 0 ≤ s.clock.tvSec) (ht : 0 < t) :
    armedValue s t = ⟨s.clock.tvSec + t, s.clock.tvNsec⟩ ↔ OnTheSecond s t := by
  have hmod : (s.clock.tvSec + t).bmod (2 ^ 64) = s.clock.tvSec + t ↔
      s.clock.tvSec + t < 2 ^ 63 := by
    rw [Int.bmod_eq_iff (by decide)]
    omega
  rw [armedValue, Timespec.mk.injEq, hmod, OnTheSecond]
  omega

theorem armed_iff_onTheSecond {s s' : State} {site : CallSite} {t tfd : ℤ} {clockOk addOk : Bool}
    (hr : TableWf s.rg) (hsec : 0 ≤ s.clock.tvSec) (ht : 0 < t)
    (h : step s (.sleep site t tfd clockOk addOk) = .ok s') :
    s'.rg.timerfds tfd = some (some ⟨s.clock.tvSec + t, s.clock.tvNsec⟩) ↔ OnTheSecond s t := by
  rw [(sleep_cases hr ht h).2.2.1, Function.update_self, ← armedValue_eq_iff hsec ht]
  constructor
  · intro heq
    split_ifs at heq
    · exact Option.some.inj (Option.some.inj heq)
    · cases Option.some.inj heq
  · intro heq
    have hpos : 0 ≤ (armedValue s t).tvSec := by
      rw [heq]
      show 0 ≤ s.clock.tvSec + t
      omega
    rw [if_pos hpos, heq]

theorem armed_step {s s' : State} {a : Action} {g : Deadlines} {fd : ℤ} {ev : AioEvent} {c : Ptr}
    {d : Timespec} (hr : TableWf s.rg) (hw : Waiting s) (hsec : 0 ≤ s.clock.tvSec) (h : Asleep s g)
    (hok : SleepsWell s a) (hstep : step s a = .ok s') (hev : s'.rg.aioEventFds fd = some ev)
    (hc : ev.phpContext = some c) (hd : noteSleep g s a s' c = some d) :
    ev.fdType = some .timmer ∧ s'.rg.timerfds fd = some (some d) := by
  rcases noted_step hr hw h.fresh hstep hev hc hd with
    ⟨hold, hgc⟩ | ⟨site, t, clockOk, addOk, ha, ht, hty, _, rfl⟩
  · obtain ⟨hty, htimer⟩ := h.armed fd ev c d hold hc hgc
    refine ⟨hty, ?_⟩
    have htimers : _ ∨ s'.rg.waiter fd = none ∨ _ := timerfds_step hr hstep
    rcases htimers with hsame | hnone | ⟨site, t, clockOk, addOk, ha, ht⟩
    · rw [hsame]
      exact htimer
    · rw [waiter_eq_some.mpr ⟨ev, hev, hc⟩] at hnone
      cases hnone
    · -- the kernel gives out no descriptor that is open
      rw [ha] at hstep
      rw [(sleep_cases hr ht hstep).1] at htimer
      cases htimer
  · refine ⟨hty, ?_⟩
    rw [ha] at hstep
    exact (armed_iff_onTheSecond hr hsec ht hstep).mpr (hok.1 site t fd clockOk addOk ha ht).1

theorem due_step {s s' : State} {a : Action} {g : Deadlines} {fd : ℤ} {c : Ptr} {d : Timespec}
    (hr : TableWf s.rg) (hw : Waiting s) (h : Asleep s g) (hok : SleepsWell s a)
    (hstep : step s a = .ok s') (hdue : Due s' fd) (hc : s'.rg.waiter fd = some c)
    (hd : noteSleep g s a s' c = some d) : d.le s'.clock := by
  apply Timespec.le_trans _ (clock_step hstep)
  obtain ⟨l', hl', events, since, hp, e, he, rfl, hdis⟩ := hdue
  obtain ⟨ev, hev, hctx⟩ := waiter_eq_some.mp hc
  -- what waited before has the deadline it had
  have hgc : s.rg.waiter e.dataFd = some c → g c = some d := by
    intro hold
    rcases noted_step hr hw h.fresh hstep hev hctx hd with
      ⟨_, hgc⟩ | ⟨_, _, _, _, _, _, _, hidle, _⟩
    · exact hgc
    · rw [hidle] at hold
      cases hold
  rcases loops_step hr hstep hl' with hl | hphase | ⟨l, hl, ⟨_, hnext | ⟨batch, hm, hphase⟩⟩, hold⟩
  · have hdue : Due s e.dataFd := ⟨l', hl, events, since, hp, e, he, rfl, hdis⟩
    rcases noted_step hr hw h.fresh hstep hev hctx hd with
      ⟨hold, hgc⟩ | ⟨site, t, clockOk, addOk, ha, ht, _, hidle, _⟩
    · exact h.due _ c d hdue (waiter_eq_some.mpr ⟨ev, hold, hctx⟩) hgc
    · rcases waiter_step hr hstep hc with hold | ⟨_, _, _, _, q, hq, hfd, _⟩
      · rw [hidle] at hold
        cases hold
      · apply absurd _ (hok.1 site t _ clockOk addOk ha ht).2
        exact ⟨q, hq, by rw [hfd]; exact hidle, by rw [hfd]; exact hdue⟩
  · rw [hphase] at hp
    cases hp
  · obtain ⟨e₀, hp₀⟩ := hnext events since hp
    have hwait := hold _ c hc
    exact h.due _ c d ⟨l, hl, _, since, hp₀, e, List.mem_cons_of_mem _ he, rfl, hdis⟩ hwait
      (hgc hwait)
  · rw [hphase] at hp
    cases hp
    have hwait := hold _ c hc
    obtain ⟨ev₀, hev₀, hctx₀⟩ := waiter_eq_some.mp hwait
    obtain ⟨v, hv, hle⟩ := (hm.2.2 e he).2 _ (h.armed _ ev₀ c d hev₀ hctx₀ (hgc hwait)).2
    cases hv
    exact hle

theorem asleep_step {s s' : State} {a : Action} {g : Deadlines} (hr : TableWf s.rg)
    (hb : Bounded s) (hw : Waiting s) (hsec : 0 ≤ s.clock.tvSec) (h : Asleep s g)
    (hok : SleepsWell s a) (hstep : step s a = .ok s') : Asleep s' (noteSleep g s a s') where
  armed fd ev c d hev hc hd := armed_step hr hw hsec h hok hstep hev hc hd
  fresh c hc := by
    have hnext := (bounded_step hr hb hstep).2.1
    rcases noteSleep_cases g s a s' with hsame | ⟨site, t, tfd, clockOk, addOk, fd, ha, ht, _, hnew⟩
    · rw [hsame]
      exact h.fresh c (hnext.trans hc)
    · have hlt : s.next + 2 < s'.next := (sleep_cases hr ht (ha ▸ hstep)).2.2.2
      rw [hnew, Function.update_of_ne (hlt.trans_le hc).ne']
      exact h.fresh c (hnext.trans hc)
  due fd c d hdue hc hd := due_step hr hw h hok hstep hdue hc hd

theorem asleep_of_noted {x : State × Deadlines}
    (h : Noted step Initial SleepsWell noteSleep (fun _ => none) x) : Asleep x.1 x.2 := by
  apply h.invariant_of (I := Asleep) (fun s _ => asleep_initial s)
  intro s g a s' hr hi hok hstep
  have hreach := hr.reachable
  exact asleep_step (tableWf_of_reached hreach) (bounded_of_reached hreach)
    (waiting_of_reached hreach) (clock_of_reached hreach) hi hok hstep

theorem due_or_timeouts {s : State} {fd : ℤ} (h : dispatchFd s = some fd) : Due s fd ∨
    ∃ l stack now q f, s.stack = .eventLoop l :: stack ∧ l.phase = .timeouts now q f := by
  unfold dispatchFd at h
  split at h
  case h_1 l stack hs =>
    split at h
    case h_1 e events since hp =>
      split_ifs at h with hd
      left
      refine ⟨l, by simp [hs], _, _, hp, e, List.mem_cons_self, Option.some.inj h, hd⟩
    case h_2 now q f hp => exact .inr ⟨l, stack, now, _, f, hs, hp⟩
    case h_3 => cases h
  case h_2 => cases h

/-- The deadline of every sleeping coroutine is what its timer is armed for, and the event loop
resumes none before its deadline.  A `coroutine::sleep` arms its timer for the right time exactly
if it is called on the second and its sum does not overflow. -/
theorem sleeps_long_enough {s : State} {g : Deadlines}
    (h : Noted step Initial SleepsWell noteSleep (fun _ => none) (s, g)) :
    (∀ fd c d, s.rg.waiter fd = some c → g c = some d → s.rg.timerfds fd = some (some d)) ∧
    (∀ answer s' τ fd c act result d, SleepsWell s (.loopStep answer) →
      step s (.loopStep answer) = .ok s' → s'.log = .switched τ (.io fd) c act result :: s.log →
      g c = some d → d.le s.clock) ∧
    ∀ site t tfd clockOk addOk s', 0 < t → step s (.sleep site t tfd clockOk addOk) = .ok s' →
      (s'.rg.timerfds tfd = some (some ⟨s.clock.tvSec + t, s.clock.tvNsec⟩) ↔ OnTheSecond s t) := by
  have hasleep := asleep_of_noted h
  refine ⟨?_, ?_, ?_⟩
  · intro fd c d hc hd
    obtain ⟨ev, hev, hctx⟩ := waiter_eq_some.mp hc
    exact (hasleep.armed fd ev c d hev hctx hd).2
  · intro answer s' τ fd c act result d hok hstep hlog hd
    obtain ⟨hdis, l, stack, phase, ev, hev, hctx, _⟩ := resume_of_switched hstep hlog
    rcases due_or_timeouts hdis with hdue | htimeouts
    · exact hasleep.due fd c d hdue (waiter_eq_some.mpr ⟨ev, hev, hctx⟩) hd
    · exact absurd ⟨⟨answer, rfl⟩, htimeouts, fd, ev, hdis, hev,
        (hasleep.armed fd ev c d hev hctx hd).1⟩ hok.2
  · intro site t tfd clockOk addOk s' ht hstep
    exact armed_iff_onTheSecond (tableWf_of_reached h.reachable) (clock_of_reached h.reachable) ht
      hstep

def sleepRun (t : ℤ) (begins ends : Timespec) : List Action :=
  [.tick 0 begins, createCall 1, .sleep callSite t 5 true true, .eventLoop callSite, .tick 0 ends,
    .epollWait [⟨epollIn, 5⟩]]

def resumesAt (d : Timespec) (x : State × Deadlines) : Bool :=
  isOkAnd (fun s' => match s'.log with
    | .switched _ (.io _) c _ _ :: log => decide (log = x.1.log ∧ x.2 c = some d)
    | _ => false) (step x.1 (.loopStep .null))

theorem exists_of_resumesAt {d : Timespec} {x : State × Deadlines} (h : resumesAt d x = true) :
    ∃ s' τ fd c act result, step x.1 (.loopStep .null) = .ok s' ∧
      s'.log = .switched τ (.io fd) c act result :: x.1.log ∧ x.2 c = some d := by
  obtain ⟨s', hs', hp⟩ := exists_of_isOkAnd h
  split at hp
  · next τ fd c act result log hlog =>
    obtain ⟨rfl, hd⟩ := of_decide_eq_true hp
    exact ⟨s', τ, fd, c, act, result, hs', hlog, hd⟩
  · cases hp

def sleepsWell (s : State) : Action → Bool
  | .sleep _ t _ _ _ => decide (OnTheSecond s t) && (loops s.stack).isEmpty
  | .loopStep _ => (batchEntry s).isSome
  | _ => true

theorem sleepsWell_of_test {s : State} {a : Action} (h : sleepsWell s a = true) :
    SleepsWell s a := by
  constructor
  · rintro site t tfd clockOk addOk rfl _
    obtain ⟨hsecond, hnil⟩ := Bool.and_eq_true_iff.mp h
    refine ⟨of_decide_eq_true hsecond, ?_⟩
    rintro ⟨q, _, _, l, hl, _⟩
    simp [List.isEmpty_iff.mp hnil] at hl
  · rintro ⟨⟨answer, rfl⟩, ⟨l, stack, now, q, f, hs, hp⟩, _⟩
    simp [sleepsWell, batchEntry, hs, hp] at h

theorem sleeps_long_enough_second : ∃ x s', runFrom (withHistory step noteSleep)
      (initial 0 0, fun _ => none) (sleepRun 2 ⟨5, 0⟩ ⟨7, 0⟩) = .ok x ∧
    step x.1 (.loopStep .null) = .ok s' ∧ (Timespec.mk 7 0).le x.1.clock ∧
    ∃ τ fd c act result, s'.log = .switched τ (.io fd) c act result :: x.1.log ∧
      x.2 c = some ⟨7, 0⟩ := by
  obtain ⟨x, hrun, hx, hp⟩ := exists_noted_of noteSleep (fun _ => none) sleepsWell
    (fun _ _ => sleepsWell_of_test) (sleepRun 2 ⟨5, 0⟩ ⟨7, 0⟩)
    (fun x => resumesAt ⟨7, 0⟩ x && sleepsWell x.1 (.loopStep .null)) (by decide)
  obtain ⟨hres, hok⟩ := Bool.and_eq_true_iff.mp hp
  obtain ⟨s', τ, fd, c, act, result, hs', hlog, hd⟩ := exists_of_resumesAt hres
  exact ⟨x, s', hrun, hs', (sleeps_long_enough hx).2.1 _ _ _ _ _ _ _ _ (sleepsWell_of_test hok) hs'
    hlog hd, τ, fd, c, act, result, hlog, hd⟩

/-- Half a second is lost. -/
theorem sleep_cut_short : ∃ x s', runFrom (withHistory step noteSleep)
      (initial 0 0, fun _ => none) (sleepRun 1 ⟨5, 500000000⟩ ⟨6, 0⟩) = .ok x ∧
    Noted step Initial (fun _ _ => True) noteSleep (fun _ => none) x ∧
    step x.1 (.loopStep .null) = .ok s' ∧
    ∃ τ fd c act result, s'.log = .switched τ (.io fd) c act result :: x.1.log ∧
      x.2 c = some ⟨6, 500000000⟩ ∧ ¬ (Timespec.mk 6 500000000).le x.1.clock := by
  obtain ⟨x, hrun, hx, hp⟩ := exists_noted_of noteSleep (fun _ => none) (fun _ _ => true) (fun _ _ _ => trivial)
    (sleepRun 1 ⟨5, 500000000⟩ ⟨6, 0⟩)
    (fun x => resumesAt ⟨6, 500000000⟩ x && decide (¬ (Timespec.mk 6 500000000).le x.1.clock))
    (by decide)
  obtain ⟨hres, hlate⟩ := Bool.and_eq_true_iff.mp hp
  obtain ⟨s', τ, fd, c, act, result, hs', hlog, hd⟩ := exists_of_resumesAt hres
  exact ⟨x, s', hrun, hx, hs', τ, fd, c, act, result, hlog, hd, of_decide_eq_true hlate⟩

end Phpco
