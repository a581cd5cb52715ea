import Phpco.LifeLaw
import Phpco.ReturnLaw
import Phpco.SleepLaw
import Phpco.WaiterLaw

/-!
# A coroutine that waits can be switched to

A coroutine that is found under a descriptor stays there, with the descriptor in the
interest set, until it is switched to or the descriptor is closed.  Whatever the
others have done so far, `event_loop` can still come to it.
-/

namespace Phpco
open Except EventTable Transition

variable {s s' : State} {a : Action} {t c : Ptr} {fd : ℤ}

/-- Each descriptor is watched for reading or for writing. -/
def Asks (r : EventTable) : Prop := ∀ fd e, r.interest fd = some e → dispatched e

theorem dispatched_request {q : StoreArgs} {addOk : Bool} (h : ioRequest s a = some (q, addOk)) :
    dispatched ⟨q.events, q.fd⟩ := by
  have hin : ∀ fd, dispatched ⟨epollIn, fd⟩ := fun _ => .inl (by decide : epollIn &&& epollIn ≠ 0)
  have hout : ∀ fd, dispatched ⟨epollOut, fd⟩ := fun _ =>
    .inr (by decide : epollOut &&& epollOut ≠ 0)
  cases a <;> simp only [ioRequest, Option.map_eq_some_iff, Option.bind_eq_some_iff] at h
  case socketAccept =>
    obtain ⟨zfd, _, h⟩ := h
    cases h
    exact .inl (by decide : (epollIn ||| epollRdhup) &&& epollIn ≠ 0)
  case socketRead =>
    obtain ⟨zfd, _, h⟩ := h
    split_ifs at h
    cases h
    exact hin _
  case socketWrite =>
    obtain ⟨zfd, _, h⟩ := h
    split_ifs at h
    cases h
    exact hout _
  case prepare =>
    split_ifs at h
    cases h
    exact hout _
  case fetchAll =>
    split_ifs at h
    cases h
    exact hout _
  case sleep =>
    split_ifs at h
    all_goals
      cases h
      exact hin _
  all_goals cases h

theorem interest_of_free {r : EventTable} (hr : TableWf r) {fd fd' : ℤ} (hne : fd' ≠ fd) :
    (aioEventFree r fd).interest fd' = r.interest fd' := by
  rcases aioEventFree_cases hr fd with ⟨_, he⟩ | ⟨ev, _, _, hi⟩
  · rw [he]
  · rw [hi, Function.update_of_ne hne]

theorem interest_mono_free {r : EventTable} (hr : TableWf r) {fd fd' : ℤ} {e : EpollEvent}
    (h : (aioEventFree r fd).interest fd' = some e) : r.interest fd' = some e := by
  rcases aioEventFree_cases hr fd with ⟨_, he⟩ | ⟨ev, _, _, hi⟩
  · rwa [he] at h
  · rw [hi] at h
    by_cases hfd : fd' = fd
    · rw [hfd, Function.update_self] at h
      cases h
    · rwa [Function.update_of_ne hfd] at h

theorem interest_mono_drop {r : EventTable} {fd fd' : ℤ} {e : EpollEvent}
    (h : (r.dropInterest fd).interest fd' = some e) : r.interest fd' = some e := by
  rw [interest_dropInterest] at h
  by_cases hfd : fd' = fd
  · rw [hfd, Function.update_self] at h
    cases h
  · rwa [Function.update_of_ne hfd] at h

theorem asks_step (hr : TableWf s.rg) (h : Asks s.rg) (hstep : step s a = .ok s') : Asks s'.rg := by
  intro fd e he
  cases tableMove hstep with
  | same hrg _ => exact h fd e (hrg ▸ he)
  | init _ _ _ _ _ hrg =>
    rw [hrg] at he
    cases he
  | store q addOk r r' ret hq hsame _ _ hst hrg _ =>
    rw [hrg] at he
    have hold : ∀ {fd e}, r.interest fd = some e → dispatched e := fun he =>
      h _ _ (hsame.interest ▸ he)
    obtain ⟨_, ⟨_, _, rfl⟩ | ⟨_, _, _, _, ev, _, hev, rfl⟩ | ⟨_, _, rfl⟩⟩ :=
      aioEventStore_cases (hr.congr hsame.slots hsame.interest) hst
    · exact hold he
    · simp only [registerSlot, Function.update_apply] at he
      split_ifs at he
      · cases he
        rw [hev]
        exact dispatched_request hq
      · exact hold he
    · exact hold he
  | invoke answer fd' _ _ _ hrg _ _ =>
    rw [hrg, interest_invokeTable] at he
    exact h fd e (interest_mono_free hr he)
  | socketClose site io closed retval fd' _ _ _ hrg _ =>
    rw [hrg] at he
    split_ifs at he
    · exact h fd e (interest_mono_drop (interest_mono_free (hr.dropInterest fd') he))
    · exact h fd e (interest_mono_free hr he)
  | closeFd fd' _ hrg _ =>
    rw [hrg] at he
    exact h fd e (interest_mono_drop he)

theorem asks_of_reached {ok : State → Action → Prop} (h : Reached ok s) : Asks s.rg := by
  refine h.invariant_of (I := fun s => Asks s.rg) ?_ fun s a s' hreach ha _ hstep =>
    asks_step (tableWf_of_reached hreach) ha hstep
  rintro s ⟨_, _, _, _, rfl⟩ fd e he
  cases he

/-- A context that was switched to is saved no more. -/
def Spent (s : State) : Prop :=
  ∀ τ w c act result, .switched τ w c act result ∈ s.log → s.scheduler.saved c = none ∧ c < s.next

theorem spent_step (hs : Sched s) (hnext : s.next ≤ s'.next) (h : LifeStep s a s') (hp : Spent s) :
    Spent s' := by
  have hkeep : ∀ {es}, Adds s s' es → (∀ τ w c act result, .switched τ w c act result ∉ es) →
      (∀ c < s.next, s.scheduler.saved c = none → s'.scheduler.saved c = none) → Spent s' := by
    rintro es ⟨vs, hlog⟩ hes hsaved τ w c act result hmem
    rw [hlog, List.mem_append, List.mem_append] at hmem
    rcases hmem with hmem | hmem | hmem
    · obtain ⟨v, _, hv⟩ := List.mem_map.mp hmem
      cases hv
    · exact absurd hmem (hes τ w c act result)
    · obtain ⟨hnone, hlt⟩ := hp τ w c act result hmem
      exact ⟨hsaved c hlt hnone, hlt.trans_le hnext⟩
  cases h with
  | same _ hlog hsaved _ => exact hkeep hlog (by simp) fun c _ hc => by rw [hsaved, hc]
  | starts x t cid retval _ _ _ hlog hsaved _ =>
    exact hkeep hlog (by simp) fun c _ hc => by rw [hsaved, hc]
  | switches x t w c result _ _ _ _ hc hlog hsaved _ =>
    intro τ w' c' act result' hmem
    rw [hlog] at hmem
    rw [hsaved]
    rcases List.mem_cons.mp hmem with heq | hmem
    · cases heq
      have hlt : c < s.next := hs.core.saved_lt_next (by simp [hc])
      exact ⟨Function.update_self .., hlt.trans_le hnext⟩
    · obtain ⟨hnone, hlt⟩ := hp τ w' c' act result' hmem
      have hne : c' ≠ c := by
        rintro rfl
        cases hnone.symm.trans hc
      exact ⟨(Function.update_of_ne hne _ _).trans hnone, hlt.trans_le hnext⟩
  | suspends x t w c _ _ _ hfresh hlog hsaved _ =>
    refine hkeep hlog (by simp) fun c' hlt hc' => ?_
    rw [hsaved, Function.update_of_ne (hlt.trans_le hfresh).ne, hc']
  | finishes x t cid page retval _ _ _ hlog hsaved _ =>
    exact hkeep hlog (by simp) fun c _ hc => by rw [hsaved, hc]

theorem spent_of_reached (h : Reached FinishesOwn s) : Spent s := by
  refine h.invariant_of ?_ fun s a s' hreach hp hok hstep => ?_
  · rintro s ⟨_, _, _, _, rfl⟩ τ w c act result hmem
    cases hmem
  · have hnext := (bounded_step (tableWf_of_reached hreach) (bounded_of_reached hreach) hstep).2.1
    exact spent_step (sched_of_reached (fun _ _ => id) hreach) hnext
      (lifeStep_of_reached (fun _ _ => id) hreach hok hstep) hp

/-- The coroutine `t` waits for `fd` in the context `c`, where it is found; the descriptor is in
the interest set, and if it is a timer it is set. -/
structure Wakeable (t : Ptr) (fd : ℤ) (c : Ptr) (s : State) : Prop where
  waiting : status s.log t = .suspended (.io fd) c
  found : s.rg.waiter fd = some c
  watched : s.rg.interest fd ≠ none
  armed : s.rg.timerfds fd ≠ some none

/-- The coroutine `t` was switched to from there. -/
def Woken (t : Ptr) (w : Wait) (c : Ptr) (s : State) : Prop :=
  ∃ act result, .switched (some t) w c act result ∈ s.log

def ClosesFd (fd : ℤ) : Action → Prop
  | .closeFd fd' => fd' = fd
  | .socketClose _ io _ _ => firstFd io = .ok fd
  | _ => False

/-- A step leaves a suspended coroutine and its context alone, or switches to it. -/
theorem life_cases {w : Wait} (h : LifeStep s a s') (hk : Kept s)
    (hst : status s.log t = .suspended w c) :
    (status s'.log t = .suspended w c ∧
      ∀ τ w' act result, s'.log ≠ .switched τ w' c act result :: s.log) ∨
    ∃ act result, s'.log = .switched (some t) w c act result :: s.log := by
  cases h with
  | same _ hlog _ _ =>
    exact .inl ⟨by rw [hlog.status]; exact hst, fun τ w' => hlog.ne_switched (by simp) τ w' c⟩
  | starts x t' cid retval _ _ hst' hlog _ _ =>
    have htt : t ≠ t' := by
      rintro rfl
      cases hst.symm.trans hst'
    refine .inl ⟨?_, fun τ w' => hlog.ne_switched (by simp) τ w' c⟩
    rw [hlog.status]
    exact (Function.update_of_ne htt _ _).trans hst
  | switches x t' w' c' result _ _ hst' _ hc' hlog _ _ =>
    by_cases htt : t = t'
    · subst htt
      cases hst.symm.trans hst'
      exact .inr ⟨_, _, hlog⟩
    · left
      rw [hlog]
      refine ⟨(Function.update_of_ne htt _ _).trans hst, fun τ w'' act result' heq => ?_⟩
      cases (List.cons.inj heq).1
      cases (hk t w c hst).symm.trans hc'
      exact htt rfl
  | suspends x t' w' c' _ _ hst' _ hlog _ _ =>
    have htt : t ≠ t' := by
      rintro rfl
      cases hst.symm.trans hst'
    refine .inl ⟨?_, fun τ w' => hlog.ne_switched (by simp) τ w' c⟩
    rw [hlog.status]
    exact (Function.update_of_ne htt _ _).trans hst
  | finishes x t' cid page retval _ _ hst' hlog _ _ =>
    have htt : t ≠ t' := by
      rintro rfl
      cases hst.symm.trans hst'
    refine .inl ⟨?_, fun τ w' => hlog.ne_switched (by simp) τ w' c⟩
    rw [hlog.status]
    exact (Function.update_of_ne htt _ _).trans hst

/-- Its slot stays as it is, unless the step switches to its context. -/
theorem Wakeable.slot (h : Wakeable t fd c s) (hreach : Reached Careful s) (hclose : ¬ ClosesFd fd a)
    (hstep : step s a = .ok s') :
    (s'.rg.waiter fd = some c ∧ s'.rg.interest fd = s.rg.interest fd) ∨
      ∃ τ act result, s'.log = .switched τ (.io fd) c act result :: s.log := by
  have hr := tableWf_of_reached hreach
  have hw := h.found
  cases tableMove hstep with
  | same hrg _ =>
    rw [hrg]
    exact .inl ⟨hw, rfl⟩
  | init _ _ _ _ hn _ =>
    have hwaiting := waiting_of_reached hreach
    cases (hwaiting.idle (hwaiting.uninit hn) fd).symm.trans hw
  | store q addOk r r' ret _ hsame _ _ hst hrg _ =>
    rw [← hsame.waiter fd] at hw
    have hne : r.waiter q.fd = none → fd ≠ q.fd := by
      rintro hidle rfl
      cases hidle.symm.trans hw
    rw [hrg, ← hsame.interest]
    obtain ⟨_, ⟨_, hidle, rfl⟩ | ⟨_, hidle, _, _, ev, _, _, rfl⟩ | ⟨_, _, rfl⟩⟩ :=
      aioEventStore_cases (hr.congr hsame.slots hsame.interest) hst
    · exact .inl ⟨by rw [waiter_setSlot_none hidle, hw], rfl⟩
    · refine .inl ⟨?_, Function.update_of_ne (hne hidle) _ _⟩
      rw [waiter_registerSlot, if_neg (hne hidle), hw]
    · exact .inl ⟨hw, rfl⟩
  | invoke answer fd' _ _ _ hrg _ hlog =>
    by_cases hfd : fd = fd'
    · subst hfd
      exact .inr (hlog c hw)
    · rw [hrg, waiter_invokeTable, if_neg hfd, interest_invokeTable, interest_of_free hr hfd]
      exact .inl ⟨hw, rfl⟩
  | socketClose site io closed retval fd' ha hfd' _ hrg _ =>
    have hne : fd ≠ fd' := by
      rintro rfl
      rw [ha] at hclose
      exact hclose hfd'
    rw [hrg, waiter_aioEventFree, if_neg hne]
    split_ifs
    · rw [interest_of_free (hr.dropInterest fd') hne, interest_dropInterest,
        Function.update_of_ne hne]
      exact .inl ⟨hw, rfl⟩
    · rw [interest_of_free hr hne]
      exact .inl ⟨hw, rfl⟩
  | closeFd fd' ha hrg _ =>
    have hne : fd ≠ fd' := by
      rintro rfl
      rw [ha] at hclose
      exact hclose rfl
    rw [hrg, interest_dropInterest, Function.update_of_ne hne]
    exact .inl ⟨hw, rfl⟩

theorem Wakeable.timer (h : Wakeable t fd c s) (hreach : Reached Careful s)
    (hstep : step s a = .ok s') (hw : s'.rg.waiter fd ≠ none) :
    s'.rg.timerfds fd = s.rg.timerfds fd := by
  have htimers : s'.rg.timerfds fd = s.rg.timerfds fd ∨ s'.rg.waiter fd = none ∨ _ :=
    timerfds_step (tableWf_of_reached hreach) hstep
  rcases htimers with hsame | hnone | ⟨site, timeout, clockOk, addOk, rfl, hpos⟩
  · exact hsame
  · exact absurd hnone hw
  · -- the kernel gives no descriptor that is open
    have ho : Offered s (.sleep site timeout fd clockOk addOk) := by
      by_contra hnot
      rw [step_of_not_offered hnot] at hstep
      cases hstep
    obtain ⟨g, hn⟩ := (safe_of_reached hreach).named
    obtain ⟨ev, hev, _⟩ := waiter_eq_some.mp h.found
    have hin : inTable fd := hn.inTable fd (hn.slot fd (by simp [hev]))
    rcases ho.2 hpos with hneg | ⟨hnone, _⟩
    · exact absurd hin.1 (Int.not_le.mpr hneg)
    · exact absurd hnone h.watched

/-- A coroutine that can be woken stays so until it is, unless its descriptor is closed. -/
theorem wakeable_step (hreach : Reached Careful s) (h : Wakeable t fd c s)
    (hclose : ¬ ClosesFd fd a) (hstep : step s a = .ok s') : Wakeable t fd c s' ∨ Woken t (.io fd) c s' := by
  have hsafe := safe_of_reached hreach
  have hlife := lifeStep (tableWf_of_reached hreach) hsafe.sched
    (hsafe.hosted.finishesOwn hsafe.sched a) hstep
  have hkept := kept_of_reached (finishesOwn_of_careful hreach)
  rcases life_cases hlife hkept h.waiting with ⟨hst, hne⟩ | ⟨act, result, hlog⟩
  · left
    rcases h.slot hreach hclose hstep with ⟨hfound, hint⟩ | ⟨τ, act, result, hlog⟩
    · refine ⟨hst, hfound, hint ▸ h.watched, ?_⟩
      rw [h.timer hreach hstep (by simp [hfound])]
      exact h.armed
    · exact absurd hlog (hne τ _ act result)
  · right
    exact ⟨act, result, hlog ▸ List.mem_cons_self⟩

theorem Timespec.le_total (v v' : Timespec) : v.le v' ∨ v'.le v := by
  unfold Timespec.le
  omega

theorem exists_clock (h : s.rg.timerfds fd ≠ some none) : ∃ clock, s.clock.le clock ∧
    ∀ timer, s.rg.timerfds fd = some timer → ∃ v, timer = some v ∧ v.le clock := by
  rcases htimer : s.rg.timerfds fd with _ | _ | v
  · exact ⟨s.clock, s.clock.le_refl, by simp⟩
  · exact absurd htimer h
  · rcases s.clock.le_total v with hle | hle
    · exact ⟨v, hle, by rintro _ ⟨⟩; exact ⟨v, rfl, v.le_refl⟩⟩
    · exact ⟨s.clock, s.clock.le_refl, by rintro _ ⟨⟩; exact ⟨v, rfl, hle⟩⟩

theorem mask_within (x y z : Mask) : x &&& ~~~(x ||| y ||| z) = 0 := by
  ext i
  simp only [BitVec.getElem_and, BitVec.getElem_not, BitVec.getElem_or]
  cases x[i] <;> simp

/-- What the descriptor is watched for may be reported. -/
theorem mayReport_of_watched (hr : TableWf s.rg) (ha : Asks s.rg) {e : EpollEvent}
    (he : s.rg.interest fd = some e)
    (htimer : ∀ timer, s.rg.timerfds fd = some timer → ∃ v, timer = some v ∧ v.le s.clock) :
    e.dataFd = fd ∧ dispatched e ∧ mayReport s e := by
  obtain ⟨ev, hev, rfl, _⟩ := hr.interest fd e he
  have hfd := (hr.slot fd ev hev).dataFd_eq
  have hd := ha fd _ he
  have hne : ev.epEvent.events ≠ 0 := by
    intro hz
    rw [dispatched, hz] at hd
    simp at hd
  exact ⟨hfd, hd, ⟨ev.epEvent, hfd ▸ he, rfl, hne, mask_within _ _ _⟩, hfd ▸ htimer⟩

theorem switched_of_aioInvoke {answer : Zval} (h : aioInvoke s fd answer = .ok s')
    (hw : s.rg.waiter fd = some c) :
    ∃ τ act result, s'.log = .switched τ (.io fd) c act result :: s.log := by
  obtain ⟨_, ⟨hidle, _⟩ | ⟨ev, c', hev, hc', hres⟩⟩ := aioInvoke_cases h
  · cases hidle.symm.trans hw
  · cases (waiter_eq_some.mpr ⟨ev, hev, hc'⟩).symm.trans hw
    obtain ⟨τ, act, result, hlog⟩ := log_cCoroResume hres
    exact ⟨τ, act, result, hlog⟩

/-- `event_loop` comes to an entry of its batch on which a coroutine can be woken. -/
theorem woken_of_entry (hreach : Reached Careful s) (h : Wakeable t fd c s) {l : EventLoop}
    {stack : List CFrame} {e : EpollEvent} {events : List EpollEvent} {since : EventTable}
    (hs : s.stack = .eventLoop l :: stack) (hp : l.phase = .batch (e :: events) since)
    (hfd : e.dataFd = fd) (hd : dispatched e) :
    ∃ s', step s (.loopStep .null) = .ok s' ∧ Woken t (.io fd) c s' := by
  have hsafe := safe_of_reached hreach
  have hr := tableWf_of_reached hreach
  have ho : Offered s (.loopStep .null) := ⟨l, stack, hs, fun hwait => by cases hp.symm.trans hwait⟩
  obtain ⟨s', hstep⟩ := step_of_offered hsafe hr (careful_of_goesBack s (.inl rfl)) ho
  refine ⟨s', hstep, ?_⟩
  have hlife := lifeStep hr hsafe.sched (hsafe.hosted.finishesOwn hsafe.sched _) hstep
  rcases life_cases hlife (kept_of_reached (finishesOwn_of_careful hreach)) h.waiting with
    ⟨_, hne⟩ | ⟨act, result, hlog⟩
  · exfalso
    simp only [step, hs, eventLoopStep, hp, if_pos hd, hfd] at hstep
    obtain ⟨τ, act, result, hlog⟩ := switched_of_aioInvoke hstep h.found
    exact hne τ _ act result hlog
  · exact ⟨act, result, hlog ▸ List.mem_cons_self⟩

/-- The steps of a careful run that do not close the descriptor. -/
def KeepsOpen (fd : ℤ) (s : State) (a : Action) : Prop := Careful s a ∧ ¬ ClosesFd fd a

/-- The steps of a careful run in which nothing new is begun. -/
def WindsDown (s : State) (a : Action) : Prop := Careful s a ∧ windsDown a = true

theorem windsDown_of_goesBack (s : State) (ha : goesBack a = true ∨ isTick a = true) :
    WindsDown s a := by
  refine ⟨careful_of_goesBack s ha, ?_⟩
  cases a <;> first | rfl | (rcases ha with ha | ha <;> cases ha)

theorem WindsDown.keepsOpen (h : WindsDown s a) : KeepsOpen fd s a := by
  refine ⟨h.1, ?_⟩
  have ha := h.2
  cases a <;> first | exact id | cases ha

theorem exists_woken_from_wait (hreach : Reached Careful s) (h : Wakeable t fd c s) {l : EventLoop}
    {stack : List CFrame} (hs : s.stack = .eventLoop l :: stack) (hp : l.phase = .wait)
    (htest : l.test < 1000) :
    ∃ s', Reachable step (fun u => u = s) WindsDown s' ∧ Woken t (.io fd) c s' := by
  have hgo : ∀ {u u' a}, Reached Careful u → Reachable step (fun v => v = s) WindsDown u →
      goesBack a = true ∨ isTick a = true → step u a = .ok u' →
        Reached Careful u' ∧ Reachable step (fun v => v = s) WindsDown u' :=
    fun hu hrun ha hstep => ⟨hu.next (careful_of_goesBack _ ha) hstep,
      hrun.next (windsDown_of_goesBack _ ha) hstep⟩
  obtain ⟨e, he⟩ := Option.ne_none_iff_exists'.mp h.watched
  obtain ⟨clock, hclock, htimer⟩ := exists_clock h.armed
  let s₁ : State := { s with now := s.now, clock := clock }
  have htick : step s (.tick s.now clock) = .ok s₁ := by
    simp only [step, check, if_pos hclock, bind, Except.bind]
    rfl
  obtain ⟨hreach₁, hrun₁⟩ := hgo hreach (.init rfl) (.inr rfl) htick
  have h₁ : Wakeable t fd c s₁ := ⟨h.waiting, h.found, h.watched, h.armed⟩
  obtain ⟨hfd, hd, hreport⟩ := mayReport_of_watched (s := s₁) (tableWf_of_reached hreach₁)
    (asks_of_reached hreach₁) he htimer
  have hbatch : mayReturn s₁ [e] := by
    refine ⟨(by decide : 1 ≤ defaultMaxEvent), by simp, ?_⟩
    simpa using hreport
  obtain ⟨s₂, hwait⟩ := step_of_offered (safe_of_reached hreach₁) (tableWf_of_reached hreach₁)
    (careful_of_goesBack s₁ (.inl (rfl : goesBack (.epollWait [e]) = true)))
    ⟨⟨l, stack, hs, hp, htest⟩, hbatch⟩
  obtain ⟨hreach₂, hrun₂⟩ := hgo hreach₁ hrun₁ (.inl rfl) hwait
  obtain ⟨l', stack', _, _, _, _, rfl⟩ := epollWait_cases hwait
  have h₂ : Wakeable t fd c (setPhase s₁ l' stack' (.batch [e] s₁.rg)) :=
    ⟨h.waiting, h.found, h.watched, h.armed⟩
  obtain ⟨s', hstep, hwoken⟩ := woken_of_entry hreach₂ h₂ rfl rfl hfd hd
  exact ⟨s', (hgo hreach₂ hrun₂ (.inl rfl) hstep).2, hwoken⟩

theorem exists_woken_from_main (hreach : Reached Careful s) (h : Wakeable t fd c s)
    (hstack : s.stack = []) :
    ∃ s', Reachable step (fun u => u = s) WindsDown s' ∧ Woken t (.io fd) c s' := by
  let frame := callFrame s callSite
  let s₁ : State := { enterCall s callSite with stack := .eventLoop ⟨frame, .wait, 0⟩ :: s.stack }
  have hstep : step s (.eventLoop callSite) = .ok s₁ := by
    rw [step_eq_phpStep (phpRuns_of_stack hstack) rfl]
    rfl
  have hok : WindsDown s (.eventLoop callSite) := by
    refine ⟨careful_of_test s _ ?_, rfl⟩
    rw [testCareful, hstack]
    rfl
  have hrun : Reachable step (fun u => u = s) WindsDown s := .init rfl
  have h₁ : Wakeable t fd c s₁ := ⟨h.waiting, h.found, h.watched, h.armed⟩
  obtain ⟨s', hwoken⟩ := exists_woken_from_wait (hreach.next hok.1 hstep) h₁ rfl rfl
    (Nat.succ_pos 999)
  exact ⟨s', (hrun.next hok hstep).trans hwoken.1, hwoken.2⟩

theorem wakeable_run (hreach : Reached Careful s) (h : Wakeable t fd c s)
    (hs' : Reachable step (fun u => u = s) (KeepsOpen fd) s') :
    Wakeable t fd c s' ∨ Woken t (.io fd) c s' := by
  have hI : Reached Careful s' ∧ (Wakeable t fd c s' ∨ Woken t (.io fd) c s') := by
    refine hs'.invariant
      (I := fun u => Reached Careful u ∧ (Wakeable t fd c u ∨ Woken t (.io fd) c u)) ?_ ?_
    · rintro u rfl
      exact ⟨hreach, .inl h⟩
    · rintro u a u' ⟨hu, hw | ⟨act, result, hmem⟩⟩ hok hstep
      · exact ⟨hu.next hok.1 hstep, wakeable_step hu hw hok.2 hstep⟩
      · have hlog := log_step (tableWf_of_reached hu) hstep
        exact ⟨hu.next hok.1 hstep, .inr ⟨act, result, hlog.subset hmem⟩⟩
  exact hI.2

/-- The coroutines that run return, and the main program calls `event_loop`. -/
theorem exists_woken (hreach : Reached Careful s) (h : Wakeable t fd c s) :
    ∃ s', Reachable step (fun u => u = s) WindsDown s' ∧ Woken t (.io fd) c s' := by
  obtain ⟨s₁, hback, hstack⟩ := exists_main hreach
  have hrun : Reachable step (fun u => u = s) WindsDown s₁ :=
    hback.mono fun u a _ _ _ ha _ => windsDown_of_goesBack u (.inl ha)
  rcases wakeable_run hreach h (hrun.mono fun _ _ _ _ _ hok _ => hok.keepsOpen) with hw | hwoken
  · have hreach₁ := hreach.trans (hrun.mono fun _ _ _ _ _ hok _ => hok.1)
    obtain ⟨s', hrun', hwoken⟩ := exists_woken_from_main hreach₁ hw hstack
    exact ⟨s', hrun.trans hrun', hwoken⟩
  · exact ⟨s₁, hrun, hwoken⟩

/-- In every careful run a coroutine that waits and can be woken was not yet woken; whatever
happens, it can be woken until it is, unless its descriptor is closed; and wherever the run is
by then, winding it down is enough to come to it. -/
theorem wakeable_until_woken (hreach : Reached Careful s) (h : Wakeable t fd c s) :
    ¬ Woken t (.io fd) c s ∧
    (∀ s', Reachable step (fun u => u = s) (KeepsOpen fd) s' →
      Wakeable t fd c s' ∨ Woken t (.io fd) c s') ∧
    ∃ s', Reachable step (fun u => u = s) WindsDown s' ∧ Woken t (.io fd) c s' := by
  refine ⟨?_, fun s' => wakeable_run hreach h, exists_woken hreach h⟩
  rintro ⟨act, result, hmem⟩
  have hown := finishesOwn_of_careful hreach
  obtain ⟨hnone, _⟩ := spent_of_reached hown _ _ _ _ _ hmem
  cases hnone.symm.trans (kept_of_reached hown t _ c h.waiting)

def busyRun : List Action := [createCall 1, readCall 3, createCall 2, createCall 3, .call callSite]

theorem wakeable_until_woken_busy : ∃ s s', runFrom step (initial 0 0) busyRun = .ok s ∧
    (activations s.stack).length = 2 ∧ ¬ Woken 5 (.io 3) 10 s ∧
    Reachable step (fun u => u = s) WindsDown s' ∧ Woken 5 (.io 3) 10 s' := by
  obtain ⟨s, hrun, hs, hp⟩ := exists_reached_of _ careful_of_test busyRun
    (fun s => (activations s.stack).length = 2 ∧ status s.log 5 = .suspended (.io 3) 10 ∧
      s.rg.waiter 3 = some 10 ∧ s.rg.interest 3 ≠ none ∧ s.rg.timerfds 3 = none) (by decide +kernel)
  obtain ⟨hdepth, hst, hfound, hwatched, htimer⟩ := of_decide_eq_true hp
  have hw : Wakeable 5 3 10 s := ⟨hst, hfound, hwatched, by simp [htimer]⟩
  obtain ⟨hnot, _, s', hback, hwoken⟩ := wakeable_until_woken hs hw
  exact ⟨s, s', hrun, hdepth, hnot, hback, hwoken⟩

end Phpco
