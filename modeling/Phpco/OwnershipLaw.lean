import Phpco.Owners

/-!
# Each coroutine owns its own

`coro_close` releases whatever the registers refer to.  That is what belongs to
the coroutine that finishes, and it is released once, as long as the frame of
each callback fits on the page of its coroutine and each coroutine gets a cid.
-/

namespace Phpco
open Except Transition

/-- The body of the coroutine `t`, created with `cid` and `retval`, executes with its own
`coro_task`, page and return value, and `get_current_cid` returns its cid. -/
structure Executes (s : State) (x : Activation) (t : Ptr) (cid : ℤ) (retval : Ptr) : Prop where
  running : status s.log t = .running x.id
  born : born s.log t = some (cid, retval)
  range : 1 ≤ cid ∧ cid ≤ 32768
  currentCoro : s.corog.currentCoro = some t
  page : basePage s.eg.vm s.eg.currentExecuteData = t
  slot : s.corog.allocatedReturnValuePtr = some retval
  getCurrentCid : ∀ site, ∃ s', step s (.getCurrentCid site) = .ok s' ∧
    s'.log = .returned (.long cid) :: s.log

/-- Whichever coroutine executes owns the registers, no two coroutines share a cid, a page or
a return value, and what was released was its owner's, once. -/
structure OwnershipLaw (s : State) : Prop where
  executes : ∀ x rest, s.stack = .activation x :: rest → ∃ t cid retval, Executes s x t cid retval
  cidDistinct : ∀ t t' cid, cidOf s.log t = some cid → cidOf s.log t' = some cid → t = t'
  retvalDistinct : ∀ t t' cid cid' retval, born s.log t = some (cid, retval) →
    born s.log t' = some (cid', retval) → t = t'
  released : ∀ t cid page retval, .closed t cid page retval ∈ s.log →
    page = t ∧ born s.log t = some (cid, retval)
  once : ∀ t, born s.log t ≠ none →
    closings s.log t = if status s.log t = .closed then 1 else 0
  cids : ∀ n : ℕ, s.cids.held n = true ↔ ∃ t, cidOf s.log t = some ((n : ℤ) + 1)
  pages : ∀ p, s.tasks p ≠ none ↔ cidOf s.log p ≠ none

/-- What a step releases: at its end the cid, the page and the return value of the coroutine
that executes, and at any other step nothing. -/
inductive Releases (s : State) (a : Action) (s' : State) : Prop
  | own (x : Activation) (rest : List CFrame) (t : Ptr) (cid : ℤ) (retval : Ptr)
      (vs : List Zval) : a = .finish → s.stack = .activation x :: rest →
      Executes s x t cid retval →
      (∀ n : ℕ, s'.cids.held n = true ↔ s.cids.held n = true ∧ (n : ℤ) + 1 ≠ cid) →
      (∀ p, s'.tasks p ≠ none ↔ s.tasks p ≠ none ∧ p ≠ t) →
      s'.log = vs.map .returned ++ .closed t cid t retval :: s.log → Releases s a s'
  | nothing : a ≠ .finish → (∀ n, s.cids.held n = true → s'.cids.held n = true) →
      (∀ p, s.tasks p ≠ none → s'.tasks p ≠ none) →
      (∀ t, closings s'.log t = closings s.log t) → Releases s a s'

abbrev InRoom (s : State) (a : Action) : Prop := Orderly s a ∧ HasRoom s a

theorem scheduled_of_inRoom {s : State} (h : Reached InRoom s) :
    Sched s ∧ Hosted s ∧ Ledger s ∧ Counted s := by
  have hwell : ∀ {s}, Reached InRoom s → Sched s ∧ Hosted s := by
    intro s h
    have hnested : Reached WellNested s := h.mono fun s a s' _ _ hok hstep =>
      hok.1.wellNested hstep
    exact hosted_of_reached (fun _ _ => And.left) hnested
  obtain ⟨hs, hh⟩ := hwell h
  refine ⟨hs, hh, ?_, ?_⟩
  · refine h.invariant_of (fun _ => ledger_initial) fun s a s' hreach hl hok hstep => ?_
    obtain ⟨hs, hh⟩ := hwell hreach
    exact ledger_step (tableWf_of_reached hreach) hs hh hl hok.1
      (fun site slots callback ha => (hok.2 site slots callback ha).2) hstep
  · apply counted_of_reached
    refine h.mono fun s a s' _ hreach hok _ => ?_
    obtain ⟨hs, hh⟩ := hwell hreach
    exact ⟨hh.finishesOwn hs a, fun site slots callback ha => (hok.2 site slots callback ha).1⟩

theorem step_getCurrentCid {s : State} {t : Ptr} {task : CoroTask} (hphp : phpRuns s)
    (hcur : s.corog.currentCoro = some t) (htask : s.tasks t = some task) (site : CallSite) :
    ∃ s', step s (.getCurrentCid site) = .ok s' ∧
      s'.log = .returned (.long task.cid) :: s.log := by
  refine ⟨leaveCall (enterCall s site) (callFrame s site) (.long task.cid), ?_, rfl⟩
  rw [step_eq_phpStep hphp rfl]
  simp only [phpStep, getCurrentCid, hcur, htask, deref, bind, Except.bind, pure, Except.pure]
  rfl

theorem Ledger.executes {s : State} {x : Activation} {rest : List CFrame} (h : Ledger s)
    (hs : Sched s) (hh : Hosted s) (hc : Counted s) (hstack : s.stack = .activation x :: rest) :
    ∃ t cid retval, Executes s x t cid retval := by
  have hrun := h.owned.running x rest hstack
  obtain ⟨cid, retval, hborn, hslot⟩ := hrun.slot
  have hpage := hrun.page
  generalize hbase : basePage s.eg.vm s.eg.currentExecuteData = t at hborn hpage
  have hcore := hs.core
  rw [hstack] at hcore
  have htask : x.task = some t := (hh.current hstack hs.links).symm.trans hpage
  have hstatus := hcore.status_head htask
  -- a coroutine that runs is not closed, and has the cid it was created with
  have hlive : cidOf s.log t ≠ none := by
    intro hn
    rcases (hcore.live t).mp hn with ha | ha
    · simp [hstatus] at ha
    · simp [hstatus] at ha
  obtain ⟨cid', hcid⟩ := Option.ne_none_iff_exists'.mp hlive
  obtain ⟨retval', hborn'⟩ := h.recorded.named t cid' hcid
  obtain ⟨rfl, rfl⟩ : cid = cid' ∧ retval = retval' := by
    simpa using hborn.symm.trans hborn'
  obtain ⟨task, htasks, rfl⟩ := Option.map_eq_some_iff.mp (hs.tasks t cid hcid)
  refine ⟨t, task.cid, retval, hstatus, hborn, ?_, hpage, hbase, hslot,
    step_getCurrentCid (phpRuns_of_activation hstack) hpage htasks⟩
  rcases hcore.cidHeld t _ hcid with hm | ⟨n, hn, hm, _⟩
  · exact absurd (hm ▸ hcid) (hc.numbered t)
  · omega

theorem ownershipLaw_of_reached {s : State} (h : Reached InRoom s) : OwnershipLaw s := by
  obtain ⟨hs, hh, hl, hc⟩ := scheduled_of_inRoom h
  have hnumbered : ∀ t cid, cidOf s.log t = some cid → cid ≠ -1 := fun t cid hcid hm =>
    hc.numbered t (hm ▸ hcid)
  constructor
  case executes => exact fun x rest hstack => hl.executes hs hh hc hstack
  case cidDistinct =>
    intro t t' cid ht ht'
    exact hs.core.cidInj t t' cid ht ht' (hnumbered t cid ht)
  case retvalDistinct => exact hl.recorded.distinct
  case released => exact hl.recorded.closed
  case once =>
    intro t hborn
    have hlive : cidOf s.log t = none ↔ status s.log t = .absent ∨ status s.log t = .closed :=
      hs.core.live t
    have hcreated : status s.log t ≠ .absent := fun ha => hborn (born_of_absent s.log ha)
    rw [hl.recorded.once t]
    simp only [hlive, hborn, hcreated, ne_eq, not_false_eq_true, true_and, false_or]
  case cids =>
    intro n
    refine ⟨hl.cids n, ?_⟩
    rintro ⟨t, hcid⟩
    rcases hs.core.cidHeld t _ hcid with hm | ⟨m, _, hm, hheld⟩
    · exact absurd hm (hnumbered t _ hcid)
    · obtain rfl : n = m := by omega
      exact hheld
  case pages =>
    intro p
    refine ⟨hl.pages p, fun hlive hnone => ?_⟩
    obtain ⟨cid, hcid⟩ := Option.ne_none_iff_exists'.mp hlive
    have htask := hs.tasks p cid hcid
    rw [hnone] at htask
    cases htask

theorem releases_step {s s' : State} {a : Action} (h : Reached InRoom s) (hok : Orderly s a)
    (hstep : step s a = .ok s') : Releases s a s' := by
  obtain ⟨hs, hh, hl, hc⟩ := scheduled_of_inRoom h
  cases disposal_step (tableWf_of_reached h) hok.2.2 hstep with
  | keeps hfin hk =>
    refine .nothing hfin (fun n hn => ?_) (fun p hp => ?_) hk.lives.closings
    · rw [hk.cids]
      exact hn
    · exact mt (hk.tasks.eq_none_iff p).mp hp
  | starts site slots callback t cid retval ha hst =>
    obtain ⟨act, hlog⟩ := hst.log
    refine .nothing (by simp [ha]) (fun n hn => ?_) (fun p hp => ?_) fun t' => by rw [hlog]; rfl
    · rcases allocCidmap_cases hst.alloc with ⟨_, hheld⟩ | ⟨k, _, _, _, _, hheld, _⟩
      · rw [hheld]
        exact hn
      · rw [hheld, hn, ite_self]
    · rw [hst.tasks]
      by_cases hpt : p = t
      · simp [hpt]
      · rwa [Function.update_of_ne hpt]
  | finishes x rest base t task retval ha hstack hex hf =>
    obtain ⟨hpage, hcid, hborn, _⟩ := hl.finishes hs hh hstack hex hf
    obtain ⟨t', cid, retval', hexec⟩ := hl.executes hs hh hc hstack
    obtain rfl : t = t' := Option.some.inj (hf.currentCoro.symm.trans hexec.currentCoro)
    obtain ⟨rfl, rfl⟩ : task.cid = cid ∧ retval = retval' := by
      simpa using hborn.symm.trans hexec.born
    obtain ⟨vs, hlog⟩ := hf.log
    rw [hpage] at hlog
    refine .own x rest t task.cid retval vs ha hstack hexec (fun n => ?_) (fun p => ?_) hlog
    · rw [hf.cids]
      exact held_freeCidmap_of_cidHeld (hs.core.cidHeld t _ hcid) n
    · rw [ne_eq, hf.tasks p, hpage, not_or]
      exact and_comm

/-- Without room for it the new coroutine has no cid, or it does not own the page that it
runs on. -/
theorem not_ownershipLaw_of_no_room {s s' : State} {a : Action} (hok : Orderly s a)
    (hroom : ¬ HasRoom s a) (hstep : step s a = .ok s') : ¬ OwnershipLaw s' := by
  intro hlaw
  apply hroom
  rintro site slots callback rfl
  obtain ⟨_, hc⟩ := step_create hstep
  obtain ⟨t, cid, retval, hst⟩ := starts_create (hok.2.2 site slots callback rfl) hc
  obtain ⟨x, hstack⟩ := hst.stack
  obtain ⟨t', cid', retval', hexec⟩ := hlaw.executes x s.stack hstack
  obtain rfl : t = t' := Option.some.inj (hst.currentCoro.symm.trans hexec.currentCoro)
  refine ⟨fun hfull => ?_, hst.page.mp hexec.page⟩
  have halloc := hst.alloc
  rw [allocCidmap, if_pos hfull] at halloc
  have hcid : -1 = cid := congrArg Prod.fst (Option.some.inj halloc)
  obtain ⟨act, hlog⟩ := hst.log
  have hborn := hexec.born
  rw [hlog, born, Function.update_self] at hborn
  have hcid' : cid = cid' := congrArg Prod.fst (Option.some.inj hborn)
  have hrange := hexec.range.1
  omega

/-- In every run in which `event_loop` is called by the main program, each `coroutine::resume`
names a coroutine that is suspended in `coroutine::yield` and no `coroutine_create` is refused,
each coroutine owns what it executes with, and it releases its own at its end, once, as long as
each `coroutine_create` finds a free cid and a frame that fits on the page.  At the first one
that does not, the law breaks. -/
theorem owns_its_own_iff_room {s : State} (h : Reached InRoom s) :
    OwnershipLaw s ∧ ∀ a s', Orderly s a → step s a = .ok s' →
      Releases s a s' ∧ (OwnershipLaw s' ↔ HasRoom s a) := by
  refine ⟨ownershipLaw_of_reached h, fun a s' hok hstep => ?_⟩
  refine ⟨releases_step h hok hstep, fun hlaw => ?_, fun hroom => ?_⟩
  · by_contra hroom
    exact not_ownershipLaw_of_no_room hok hroom hstep hlaw
  · exact ownershipLaw_of_reached (h.next ⟨hok, hroom⟩ hstep)

def testInRoom (s : State) (a : Action) : Bool :=
  testWellNested s a && match a with
    | .create _ slots _ => ¬ LimitReached s ∧ s.cids.cidmap.nrFree ≠ 0 ∧ FrameFits s slots
    | _ => true

theorem inRoom_of_test {s : State} {a : Action} (h : testInRoom s a = true) : InRoom s a := by
  obtain ⟨hw, hm⟩ := Bool.and_eq_true_iff.mp h
  obtain ⟨hhome, hresume⟩ := wellNested_of_test hw
  refine ⟨⟨hhome.1, hresume, ?_⟩, ?_⟩
  · rintro site slots callback rfl
    exact (of_decide_eq_true hm).1
  · rintro site slots callback rfl
    exact (of_decide_eq_true hm).2

theorem owns_its_own_iff_room_nested : ∃ s s',
    runFrom step (initial 0 0) (nestedRun ++ [resumeCall 2]) = .ok s ∧
    (activations s.stack).length = 2 ∧ OwnershipLaw s ∧ step s .finish = .ok s' ∧
    Releases s .finish s' ∧ OwnershipLaw s' := by
  have hok : ∀ s a, testInRoom s a = true → InRoom s a := fun _ _ => inRoom_of_test
  obtain ⟨s, hrun, hs, hp⟩ := exists_reached_of _ hok (nestedRun ++ [resumeCall 2])
    (fun s => (activations s.stack).length = 2 ∧ testInRoom s .finish ∧ (step s .finish).isOk)
    (by decide)
  simp only [decide_eq_true_eq] at hp
  obtain ⟨hdepth, htest, hstep⟩ := hp
  obtain ⟨s', hs'⟩ := exists_of_isOk hstep
  obtain ⟨hlaw, hnext⟩ := owns_its_own_iff_room hs
  obtain ⟨hrel, hiff⟩ := hnext .finish s' (hok s _ htest).1 hs'
  exact ⟨s, s', hrun, hdepth, hlaw, hs', hrel, hiff.mpr (hok s _ htest).2⟩

def wideCreate : Action := .create callSite 600 (.value 1)

def testOrderly (s : State) (a : Action) : Bool :=
  testWellNested s a && match a with
    | .create _ _ _ => ¬ LimitReached s
    | _ => true

theorem orderly_of_test {s : State} {a : Action} (h : testOrderly s a = true) : Orderly s a := by
  obtain ⟨hw, hm⟩ := Bool.and_eq_true_iff.mp h
  obtain ⟨hhome, hresume⟩ := wellNested_of_test hw
  refine ⟨hhome.1, hresume, ?_⟩
  rintro site slots callback rfl
  exact of_decide_eq_true hm

/-- A page that was freed for another one, on which the `coro_task` of its owner stays. -/
def freesOther (s : State) : Event → Bool
  | .closed t _ page _ => page ≠ t ∧ (s.tasks t).isSome
  | _ => false

/-- The callback runs on another page, and that is the one `coro_close` frees: the page of
the coroutine stays. -/
theorem own_page_not_released : ∃ s s', runFrom step (initial 0 0) [wideCreate] = .ok s ∧
    Reached Orderly s ∧ Orderly s .finish ∧ ¬ OwnershipLaw s ∧ step s .finish = .ok s' ∧
    ∃ t cid page retval, .closed t cid page retval ∈ s'.log ∧ page ≠ t ∧ s'.tasks t ≠ none := by
  have hok : ∀ s a, testOrderly s a = true → Orderly s a := fun _ _ => orderly_of_test
  obtain ⟨s, hrun, hs, hp⟩ := exists_reached_of _ hok [wideCreate]
    (fun s => activations s.stack ≠ [] ∧ testOrderly s .finish ∧
      s.corog.currentCoro ≠ some (basePage s.eg.vm s.eg.currentExecuteData) ∧
      isOkAnd (fun s' => s'.log.any (freesOther s')) (step s .finish)) (by decide)
  simp only [decide_eq_true_eq] at hp
  obtain ⟨hne, htest, hpage, hstep⟩ := hp
  obtain ⟨s', hs', hfrees⟩ := exists_of_isOkAnd hstep
  refine ⟨s, s', hrun, hs, hok s _ htest, fun hlaw => ?_, hs', ?_⟩
  · obtain ⟨x, rest, hstack⟩ := activation_of_ne_nil (phpRuns_of_step rfl hs') hne
    obtain ⟨t, cid, retval, hexec⟩ := hlaw.executes x rest hstack
    apply hpage
    rw [hexec.page]
    exact hexec.currentCoro
  · obtain ⟨e, he, hfreed⟩ := List.any_eq_true.mp hfrees
    cases e with
    | closed t cid page retval =>
      obtain ⟨hpt, htask⟩ := of_decide_eq_true hfreed
      exact ⟨t, cid, page, retval, he, hpt, Option.isSome_iff_ne_none.mp htask⟩
    | _ => cases hfreed

end Phpco
