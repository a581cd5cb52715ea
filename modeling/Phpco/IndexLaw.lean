import Phpco.InBounds
import Phpco.ReportLaw
import Phpco.TimeoutPasses

/-!
# Which indices are checked

The calls that index `RG.aio_event_fds` or `cid_context_map` get the index from their
arguments.  Some of them test it for being negative and none of them for being too large, so
what keeps a run within the tables is that its arguments name entries.
-/

namespace Phpco
open Except EventTable Transition

/-- The descriptor behind a value, if there is one. -/
def descriptor : Zval → Option ℤ
  | .stream cast => cast
  | .socket bsdSocket => some bsdSocket
  | .long n => some n
  | .pdo cast => cast
  | .pdoStatement cast => cast
  | _ => none

def slotOf (zfd : Zval) : Option ℤ := (descriptor zfd).filter fun fd => inTable fd

/-- The value that a call hands to `c_convert_to_fd`, and what `socket_fd` holds there. -/
def converted : Action → Option (Zval × ℤ)
  | .socketAccept _ io => io.arguments.head?.map fun zfd => (zfd, io.garbage)
  | .socketRead _ io => io.arguments.head?.map fun zfd => (zfd, io.garbage)
  | .socketWrite _ io => io.arguments.head?.map fun zfd => (zfd, io.garbage)
  | .prepare _ origin io => some (origin, io.garbage)
  | .fetchAll _ origin io => some (origin, io.garbage)
  | .socketSetTimeout _ obj garbage _ _ => some (obj, garbage)
  | .socketClose _ io _ _ => io.arguments.head?.map fun zfd => (zfd, io.garbage)
  | _ => none

/-- The slot that the arguments of a call name; `coroutine::sleep` is given that of its timer. -/
def namedFd : Action → Option ℤ
  | .sleep _ _ tfd clockOk _ => if clockOk ∧ inTable tfd then some tfd else none
  | a => (converted a).bind fun x => slotOf x.1

/-- The entry of `cid_context_map` that a call names; `coroutine::yield` names the caller's. -/
def namedCid (s : State) : Action → Option ℤ
  | .yield _ => (getCurrentCid s).toOption.filter fun cid => inContextMap cid
  | .resume _ cid => if inContextMap cid then some cid else none
  | _ => none

def usesIndex : Action → Bool
  | .socketAccept _ _ => true
  | .socketRead _ _ => true
  | .socketWrite _ _ => true
  | .prepare _ _ _ => true
  | .fetchAll _ _ _ => true
  | .sleep _ timeout _ _ _ => 0 < timeout
  | .socketSetTimeout _ _ _ _ _ => true
  | .socketClose _ _ _ _ => true
  | .yield _ => true
  | .resume _ _ => true
  | _ => false

def testsFd : Action → Bool
  | .socketRead _ _ => true
  | .socketWrite _ _ => true
  | .prepare _ _ _ => true
  | .fetchAll _ _ _ => true
  | _ => false

/-- The call tests what `c_convert_to_fd` yields, and finds it negative. -/
def FindsNegative (a : Action) : Prop :=
  ∃ zfd garbage, converted a = some (zfd, garbage) ∧ testsFd a = true ∧
    cConvertToFd zfd garbage < 0

/-- The call returns `FALSE` and leaves the tables as they are. -/
def ReturnsFalse (s : State) (a : Action) : Prop :=
  ∃ s', step s a = .ok s' ∧ s'.log = .returned (.bool false) :: s.log ∧ s'.rg = s.rg ∧
    s'.cidContextMap = s.cidContextMap ∧ s'.timeouts = s.timeouts

/-- The call uses the index that its arguments name, and is refused if they name none. -/
structure IndexLawful (s : State) (a : Action) : Prop where
  slot : ∀ fd, slotIndex s a = some fd → namedFd a = some fd
  entry : ∀ cid, entryIndex s a = some cid → namedCid s a = some cid
  refused : namedFd a = none → namedCid s a = none → ReturnsFalse s a
  inBounds : InBounds (step s a)
  others : ∀ s', step s a = .ok s' →
    (∀ fd, namedFd a ≠ some fd → s'.rg.aioEventFds fd = s.rg.aioEventFds fd) ∧
    ∀ cid, namedCid s a ≠ some cid → s'.cidContextMap cid = s.cidContextMap cid

/-- The arguments of the call name an index, or the call finds out that they do not. -/
def IndexOk (s : State) (a : Action) : Prop :=
  usesIndex a = true → (namedFd a).isSome = true ∨ (namedCid s a).isSome = true ∨ FindsNegative a

theorem slotOf_eq_some {zfd : Zval} {fd : ℤ} :
    slotOf zfd = some fd ↔ descriptor zfd = some fd ∧ inTable fd := by
  simp [slotOf]

theorem inTable_of_namedFd {a : Action} {fd : ℤ} (h : namedFd a = some fd) : inTable fd := by
  have hbind : ((converted a).bind fun x => slotOf x.1) = some fd → inTable fd := by
    intro h
    obtain ⟨x, _, hx⟩ := Option.bind_eq_some_iff.mp h
    exact (slotOf_eq_some.mp hx).2
  cases a with
  | sleep site timeout tfd clockOk addOk =>
    simp only [namedFd] at h
    split_ifs at h with hin
    cases h
    exact hin.2
  | _ => exact hbind h

theorem inContextMap_of_namedCid {s : State} {a : Action} {cid : ℤ}
    (h : namedCid s a = some cid) : inContextMap cid := by
  cases a with
  | yield site =>
    simp only [namedCid, Option.filter_eq_some_iff, decide_eq_true_eq] at h
    exact h.2
  | resume site arg =>
    simp only [namedCid] at h
    split_ifs at h with hin
    cases h
    exact hin
  | _ => cases h

theorem cConvertToFd_of_slotOf {zfd : Zval} {fd : ℤ} (h : slotOf zfd = some fd) (garbage : ℤ) :
    cConvertToFd zfd garbage = fd := by
  obtain ⟨hd, hin⟩ := slotOf_eq_some.mp h
  cases zfd with
  | stream cast =>
    simp only [descriptor] at hd
    subst hd
    exact if_neg (not_lt.mpr hin.1)
  | long n =>
    cases hd
    -- what is in the table fits an `int`
    have hn : toInt fd = fd := by
      unfold inTable at hin
      rw [toInt, Int.bmod_eq_of_le] <;> omega
    simp only [cConvertToFd, hn]
    exact if_neg (not_lt.mpr hin.1)
  | socket bsdSocket =>
    cases hd
    rfl
  | pdo cast =>
    simp only [descriptor] at hd
    subst hd
    rfl
  | pdoStatement cast =>
    simp only [descriptor] at hd
    subst hd
    rfl
  | _ => cases hd

theorem slotIndex_of_converted {s : State} {a : Action} {zfd : Zval} {garbage : ℤ}
    (h : converted a = some (zfd, garbage)) :
    slotIndex s a = if testsFd a = true ∧ cConvertToFd zfd garbage < 0 then none
      else some (cConvertToFd zfd garbage) := by
  have hhead : ∀ io : IoArgs, (io.arguments.head?.map fun zfd => (zfd, io.garbage)) =
      some (zfd, garbage) → io.arguments.head? = some zfd ∧ io.garbage = garbage := by
    intro io hio
    obtain ⟨z, hz, he⟩ := Option.map_eq_some_iff.mp hio
    cases he
    exact ⟨hz, rfl⟩
  cases a with
  | socketAccept site io =>
    -- `socket_accept` and `socket_close` use the result without a test
    obtain ⟨hz, rfl⟩ := hhead io h
    simp [slotIndex, ioRequest, hz, testsFd, storeFunction]
  | socketRead site io =>
    obtain ⟨hz, rfl⟩ := hhead io h
    simp only [slotIndex, ioRequest, hz, testsFd, Option.bind_some, true_and]
    split_ifs <;> rfl
  | socketWrite site io =>
    obtain ⟨hz, rfl⟩ := hhead io h
    simp only [slotIndex, ioRequest, hz, testsFd, Option.bind_some, true_and]
    split_ifs <;> rfl
  | prepare site origin io =>
    cases h
    simp only [slotIndex, ioRequest, testsFd, true_and]
    split_ifs <;> rfl
  | fetchAll site origin io =>
    cases h
    simp only [slotIndex, ioRequest, testsFd, true_and]
    split_ifs <;> rfl
  | socketSetTimeout site obj garbage' timeout persistent =>
    cases h
    simp [slotIndex, testsFd]
  | socketClose site io closed retval =>
    obtain ⟨hz, rfl⟩ := hhead io h
    simp [slotIndex, hz, testsFd]
  | _ => cases h

/-- The index of `coroutine::sleep` is the descriptor of its timer, or the error that
`create_timerfd` yields instead. -/
theorem slotIndex_sleep {s : State} {site : CallSite} {timeout tfd : ℤ} {clockOk addOk : Bool}
    (h : 0 < timeout) : slotIndex s (.sleep site timeout tfd clockOk addOk) =
      some (if 0 ≤ tfd ∧ clockOk = true then tfd else cErr) := by
  simp only [slotIndex, ioRequest, if_neg (not_le.mpr h), Option.map_some, storeTimer, createTimerfd]
  by_cases hneg : tfd < 0
  · rw [if_pos hneg, if_neg (by omega)]
  · cases clockOk <;> simp [hneg]

theorem namedFd_of_converted {a : Action} {zfd : Zval} {garbage : ℤ}
    (h : converted a = some (zfd, garbage)) : namedFd a = slotOf zfd := by
  cases a with
  | sleep _ _ _ _ _ => cases h
  | _ =>
    simp only [namedFd, h]
    rfl

/-- What a call uses as an index is the descriptor that it was given. -/
theorem namedFd_of_slotIndex {s : State} {a : Action} {fd : ℤ} (ha : usesIndex a = true)
    (hok : IndexOk s a) (h : slotIndex s a = some fd) : namedFd a = some fd := by
  cases hc : converted a with
  | some x =>
    obtain ⟨zfd, garbage⟩ := x
    rw [slotIndex_of_converted hc] at h
    split_ifs at h with hneg
    cases h
    have hcid : namedCid s a = none := by
      cases a <;> first | rfl | cases hc
    rcases hok ha with hn | hn | ⟨_, _, hc', ht⟩
    · rw [namedFd_of_converted hc] at hn ⊢
      obtain ⟨fd, hfd⟩ := Option.isSome_iff_exists.mp hn
      rw [hfd, cConvertToFd_of_slotOf hfd]
    · rw [hcid] at hn
      cases hn
    · cases hc.symm.trans hc'
      exact absurd ht hneg
  | none =>
    cases a with
    | sleep site timeout tfd clockOk addOk =>
      -- a sleep that could not create its timer would store under the error code
      rw [slotIndex_sleep (of_decide_eq_true ha)] at h
      rcases hok ha with hn | hn | ⟨_, _, hc', _⟩
      · simp only [namedFd] at hn ⊢
        split_ifs at hn ⊢ with hin
        · rwa [if_pos ⟨hin.2.1, hin.1⟩] at h
        · cases hn
      · cases hn
      · cases hc'
    | socketAccept site io =>
      simp only [converted, Option.map_eq_none_iff] at hc
      simp [slotIndex, ioRequest, hc] at h
    | socketRead site io =>
      simp only [converted, Option.map_eq_none_iff] at hc
      simp [slotIndex, ioRequest, hc] at h
    | socketWrite site io =>
      simp only [converted, Option.map_eq_none_iff] at hc
      simp [slotIndex, ioRequest, hc] at h
    | socketClose site io closed retval =>
      simp only [converted, Option.map_eq_none_iff] at hc
      simp [slotIndex, hc] at h
    | prepare _ _ _ => cases hc
    | fetchAll _ _ _ => cases hc
    | socketSetTimeout _ _ _ _ _ => cases hc
    | yield _ => cases h
    | resume _ _ => cases h
    | _ => cases ha

theorem namedCid_of_entryIndex {s : State} {a : Action} {cid : ℤ} (hok : IndexOk s a)
    (h : entryIndex s a = some cid) : namedCid s a = some cid := by
  cases a with
  | yield site =>
    rcases hok rfl with hn | hn | ⟨_, _, hc, _⟩
    · cases hn
    · obtain ⟨cid', hcid⟩ := Option.isSome_iff_exists.mp hn
      have hcid' := hcid
      simp only [namedCid, Option.filter_eq_some_iff] at hcid'
      cases hcid'.1.symm.trans h
      exact hcid
    · cases hc
  | resume site arg =>
    cases h
    rcases hok rfl with hn | hn | ⟨_, _, hc, _⟩
    · cases hn
    · simp only [namedCid] at hn ⊢
      split_ifs at hn ⊢ with hin
      · -- the argument is cut to an `int`, and an index of the map is one
        have harg : toInt arg = arg := by
          unfold inContextMap at hin
          rw [toInt, Int.bmod_eq_of_le] <;> omega
        rw [harg]
      · cases hn
    · cases hc
  | _ => cases h

theorem returnsFalse_of_findsNegative {s : State} {a : Action} (hphp : phpRuns s)
    (h : FindsNegative a) : ReturnsFalse s a := by
  obtain ⟨zfd, garbage, hc, ht, hneg⟩ := h
  have hsettle : ∀ site, phpStep s a = .ok (.returned (enterCall s site) (callFrame s site)
      (.bool false)) → isPhp a = true → ReturnsFalse s a := by
    intro site hstep ha
    refine ⟨leaveCall (enterCall s site) (callFrame s site) (.bool false), ?_, rfl, rfl, rfl, rfl⟩
    rw [step_eq_phpStep hphp ha, hstep]
    rfl
  have hfirst : ∀ io : IoArgs, (io.arguments.head?.map fun zfd => (zfd, io.garbage)) =
      some (zfd, garbage) → firstFd io = .ok (cConvertToFd zfd garbage) := by
    intro io hio
    obtain ⟨z, hz, he⟩ := Option.map_eq_some_iff.mp hio
    cases he
    exact firstFd_eq_ok.mpr ⟨zfd, hz, rfl⟩
  cases a with
  | socketRead site io =>
    apply hsettle site _ rfl
    simp only [phpStep, socketRead, hfirst io hc]
    exact if_pos hneg
  | socketWrite site io =>
    apply hsettle site _ rfl
    simp only [phpStep, socketWrite, hfirst io hc]
    exact if_pos hneg
  | prepare site origin io =>
    cases hc
    apply hsettle site _ rfl
    exact if_pos hneg
  | fetchAll site origin io =>
    cases hc
    apply hsettle site _ rfl
    exact if_pos hneg
  | _ => cases ht

/-- A call that goes through without an index has tested its descriptor. -/
theorem findsNegative_of_no_index {s s' : State} {a : Action} (ha : usesIndex a = true)
    (h : step s a = .ok s') (hslot : slotIndex s a = none) (hentry : entryIndex s a = none) :
    FindsNegative a := by
  cases hc : converted a with
  | some x =>
    obtain ⟨zfd, garbage⟩ := x
    rw [slotIndex_of_converted hc] at hslot
    split_ifs at hslot with hneg
    exact ⟨zfd, garbage, hc, hneg.1, hneg.2⟩
  | none =>
    -- without a first argument there is nothing to convert
    have hfirst : ∀ io : IoArgs, (io.arguments.head?.map fun zfd => (zfd, io.garbage)) = none →
        firstFd io = .error .uninitialized := by
      intro io hio
      simp only [firstFd, Option.map_eq_none_iff.mp hio]
      rfl
    have hphp : isPhp a = true → ∃ o, phpStep s a = .ok o := by
      intro hphp
      obtain ⟨_, o, ho, _⟩ := php_step_cases hphp h
      exact ⟨o, ho⟩
    cases a with
    | socketAccept site io =>
      obtain ⟨o, ho⟩ := hphp rfl
      simp only [phpStep, socketAccept, hfirst io hc] at ho
      cases ho
    | socketRead site io =>
      obtain ⟨o, ho⟩ := hphp rfl
      simp only [phpStep, socketRead, hfirst io hc] at ho
      cases ho
    | socketWrite site io =>
      obtain ⟨o, ho⟩ := hphp rfl
      simp only [phpStep, socketWrite, hfirst io hc] at ho
      cases ho
    | socketClose site io closed retval =>
      obtain ⟨o, ho⟩ := hphp rfl
      simp only [phpStep, socketClose, hfirst io hc] at ho
      cases ho
    | sleep site timeout tfd clockOk addOk =>
      rw [slotIndex_sleep (of_decide_eq_true ha)] at hslot
      cases hslot
    | yield site =>
      obtain ⟨o, ho⟩ := hphp rfl
      obtain ⟨s₁, hy, _⟩ := bind_eq_ok.mp ho
      obtain ⟨cid, hcid, _⟩ := bind_eq_ok.mp hy
      have hcid : getCurrentCid s = .ok cid := hcid
      simp only [entryIndex, hcid] at hentry
      cases hentry
    | resume site arg => cases hentry
    | prepare _ _ _ => cases hc
    | fetchAll _ _ _ => cases hc
    | socketSetTimeout _ _ _ _ _ => cases hc
    | _ => cases ha

theorem slot_step {s s' : State} {a : Action} (hr : TableWf s.rg) (h : step s a = .ok s')
    {fd : ℤ} (hfd : slotIndex s a ≠ some fd) (ha : usesIndex a = true) :
    s'.rg.aioEventFds fd = s.rg.aioEventFds fd := by
  cases tableMove h with
  | same hrg _ => rw [hrg]
  | init _ _ _ hact _ _ =>
    rw [hact] at ha
    cases ha
  | store q addOk r r' ret hq hsame _ _ hst hrg _ =>
    have hne : fd ≠ q.fd := by
      rintro rfl
      exact hfd (slotIndex_of_ioRequest hq)
    rw [hrg, slot_aioEventStore (hr.congr hsame.slots hsame.interest) hst hne, hsame.slots]
  | invoke _ _ hact _ _ _ _ _ =>
    rw [hact] at ha
    cases ha
  | socketClose site io closed retval fd' hact hfirst _ hrg _ =>
    obtain ⟨zfd, hz, rfl⟩ := firstFd_eq_ok.mp hfirst
    have hne : fd ≠ cConvertToFd zfd io.garbage := by
      rintro rfl
      apply hfd
      simp [hact, slotIndex, hz]
    rw [hrg, slot_aioEventFree, if_neg hne]
    cases closed <;> rfl
  | closeFd _ hact _ _ =>
    rw [hact] at ha
    cases ha

theorem cidContextMap_step {s s' : State} {a : Action} (hr : TableWf s.rg)
    (h : step s a = .ok s') : s'.cidContextMap = s.cidContextMap ∨
      ∃ site cid, a = .yield site ∧ getCurrentCid s = .ok cid ∧
        s'.cidContextMap = Function.update s.cidContextMap cid (some (s.next + 1)) := by
  cases step_move hr h with
  | quiet hq _ _ => exact .inl hq.cidContextMap
  | enterLoop _ _ _ hq _ => exact .inl hq.cidContextMap
  | loop _ _ _ hq _ _ _ _ => exact .inl hq.cidContextMap
  | leaveLoop _ _ hq _ _ _ => exact .inl hq.cidContextMap
  | invoke _ _ _ _ _ _ _ _ _ _ _ _ hres =>
    have hmap := (unswitched_cCoroResume hres).cidContextMap
    exact .inl hmap
  | create site slots callback _ _ hc =>
    have hi := ensureInit_cidContextMap (enterCall s site)
    obtain ⟨cid, cids, _, ⟨_, _, ht⟩ | ⟨_, hj⟩⟩ := coroutineCreate_cases hc
    · obtain ⟨buf, tasks, _, _, rfl⟩ := coroutineCreateTail_cases (by decide) ht
      exact .inl hi
    · obtain ⟨buf, _, _, rfl⟩ := setjmp_eq_ok.mp hj
      exact .inl hi
  | resume _ _ _ _ _ _ _ hres =>
    have hmap := (unswitched_cCoroResume hres).cidContextMap
    exact .inl hmap
  | yield site s₁ ha _ hy hc =>
    obtain ⟨t, task, ht, htask, _, rfl⟩ := coroutineYield_cases hy
    refine .inr ⟨site, task.cid, ha, ?_, (unswitched_coroYield hc).1.cidContextMap⟩
    simp only [getCurrentCid, bind_eq_ok, deref_eq_ok]
    exact ⟨t, ht, task, htask, rfl⟩
  | block _ _ _ _ _ _ hb hc =>
    exact .inl ((unswitched_coroYield hc).1.cidContextMap.trans hb.cidContextMap)
  | finish x stack base s₁ _ _ _ hc hret =>
    obtain ⟨t, task, retval, _, _, _, rfl⟩ := coroClose_eq_ok.mp hc
    exact .inl (unswitched_returnFrom (by decide) hret).1.cidContextMap

theorem step_not_here {s : State} {a : Action} {l : EventLoop} {stack : List CFrame}
    (hs : s.stack = .eventLoop l :: stack) (ha : isPhp a = true) : step s a = .error .notHere := by
  cases a with
  | tick now clock => cases ha
  | epollWait batch => cases ha
  | loopStep answer => cases ha
  | _ => simp only [step, hs]

/-- A step whose index has an entry stays within the tables. -/
theorem inBounds_step {s : State} {a : Action}
    (hfd : ∀ fd, slotIndex s a = some fd → inTable fd)
    (hcid : ∀ cid, entryIndex s a = some cid → inContextMap cid) : InBounds (step s a) := by
  cases hkind : isPhp a with
  | true =>
    by_cases hphp : phpRuns s
    · rw [step_eq_phpStep hphp hkind]
      apply bind_ne_error _ fun o _ => inBounds_settle o
      cases ha : isIo a with
      | true => exact inBounds_io ha hfd
      | false => exact inBounds_php ha hfd hcid
    · simp only [phpRuns, not_forall, not_not] at hphp
      obtain ⟨l, stack, hs⟩ := hphp
      rw [step_not_here hs hkind]
      exact inBounds_error (by decide)
  | false =>
    cases a with
    | tick now clock =>
      apply bind_ne_error (inBounds_check_of_ne (by decide))
      exact fun _ _ => inBounds_ok _
    | epollWait batch =>
      simp only [step]
      split
      · apply bind_ne_error (inBounds_check_of_ne (by decide))
        exact fun _ _ => inBounds_ok _
      · exact inBounds_error (by decide)
    | loopStep answer =>
      simp only [step]
      split
      · next l stack hs => exact inBounds_eventLoopStep hs hfd
      · exact inBounds_error (by decide)
    | _ => cases hkind

theorem indexLawful_iff {s : State} {a : Action} (hr : TableWf s.rg) (hphp : phpRuns s)
    (ha : usesIndex a = true) : IndexLawful s a ↔ IndexOk s a := by
  constructor
  · intro h _
    cases hfd : namedFd a with
    | some fd => exact .inl rfl
    | none =>
      cases hcid : namedCid s a with
      | some cid => exact .inr (.inl rfl)
      | none =>
        obtain ⟨s', hstep, _⟩ := h.refused hfd hcid
        refine .inr (.inr (findsNegative_of_no_index ha hstep ?_ ?_))
        · apply Option.eq_none_iff_forall_ne_some.mpr
          intro fd hs
          cases hfd.symm.trans (h.slot fd hs)
        · apply Option.eq_none_iff_forall_ne_some.mpr
          intro cid he
          cases hcid.symm.trans (h.entry cid he)
  · intro hok
    have hslot : ∀ fd, slotIndex s a = some fd → namedFd a = some fd :=
      fun fd hfd => namedFd_of_slotIndex ha hok hfd
    have hentry : ∀ cid, entryIndex s a = some cid → namedCid s a = some cid :=
      fun cid hcid => namedCid_of_entryIndex hok hcid
    refine ⟨hslot, hentry, fun hfd hcid => ?_, ?_, fun s' hstep => ⟨fun fd hfd => ?_, fun cid hc => ?_⟩⟩
    · rcases hok ha with hn | hn | hneg
      · rw [hfd] at hn
        cases hn
      · rw [hcid] at hn
        cases hn
      · exact returnsFalse_of_findsNegative hphp hneg
    · apply inBounds_step
      · exact fun fd h => inTable_of_namedFd (hslot fd h)
      · exact fun cid h => inContextMap_of_namedCid (hentry cid h)
    · exact slot_step hr hstep (fun h => hfd (hslot fd h)) ha
    · rcases cidContextMap_step hr hstep with hmap | ⟨site, cid', rfl, hcid', hmap⟩
      · rw [hmap]
      · rw [hmap]
        apply Function.update_of_ne
        rintro rfl
        apply hc
        apply hentry
        rw [entryIndex, hcid']
        rfl

/-- The descriptors that the calls have named so far. -/
def noteNamed (g : List ℤ) (_ : State) (a : Action) (_ : State) : List ℤ :=
  (namedFd a).toList ++ g

/-- What `event_loop` may index the table with was named by a call. -/
structure Named (s : State) (g : List ℤ) : Prop where
  inTable : ∀ fd ∈ g, inTable fd
  slot : ∀ fd, s.rg.aioEventFds fd ≠ none → fd ∈ g
  batch : ∀ l ∈ loops s.stack, ∀ events since, l.phase = .batch events since →
    ∀ e ∈ events, e.dataFd ∈ g
  element : ∀ p element, s.timeouts.elements p = some element → element.fd ∈ g

theorem named_initial {s : State} (h : Initial s) : Named s [] := by
  obtain ⟨_, _, _, _, rfl⟩ := h
  refine ⟨?_, ?_, ?_, ?_⟩
  · intro fd h
    cases h
  · intro fd h
    exact absurd rfl h
  · intro l h
    cases h
  · intro p element h
    cases h

theorem usesIndex_of_ioRequest {s : State} {a : Action} {q : StoreArgs} {addOk : Bool}
    (h : ioRequest s a = some (q, addOk)) : usesIndex a = true := by
  cases a with
  | sleep site timeout tfd clockOk addOk =>
    by_cases hle : timeout ≤ 0
    · simp [ioRequest, hle] at h
    · exact decide_eq_true (not_le.mp hle)
  | _ => first | rfl | cases h

/-- A slot that comes into use is the one that a call indexes. -/
theorem slot_of_step {s s' : State} {a : Action} (hr : TableWf s.rg) (h : step s a = .ok s')
    {fd : ℤ} (hfd : s'.rg.aioEventFds fd ≠ none) :
    s.rg.aioEventFds fd ≠ none ∨ usesIndex a = true ∧ slotIndex s a = some fd := by
  cases ha : usesIndex a with
  | true =>
    by_cases hs : slotIndex s a = some fd
    · exact .inr ⟨rfl, hs⟩
    · rw [slot_step hr h hs ha] at hfd
      exact .inl hfd
  | false =>
    left
    cases tableMove h with
    | same hrg _ => rwa [hrg] at hfd
    | init _ _ _ _ _ hrg =>
      rw [hrg] at hfd
      exact absurd rfl hfd
    | store q addOk r r' ret hq _ _ _ _ _ _ =>
      rw [usesIndex_of_ioRequest hq] at ha
      cases ha
    | invoke answer fd' _ _ _ hrg _ _ =>
      rw [hrg, aioEventFds_invokeTable, slot_aioEventFree] at hfd
      split_ifs at hfd with heq
      · rw [heq]
        intro hn
        rw [hn] at hfd
        exact hfd rfl
      · exact hfd
    | socketClose _ _ _ _ _ hact _ _ _ _ =>
      rw [hact] at ha
      cases ha
    | closeFd _ _ hrg _ => rwa [hrg] at hfd

theorem named_step {s s' : State} {g : List ℤ} {a : Action} (hr : TableWf s.rg)
    (hn : Named s g) (hok : IndexOk s a) (h : step s a = .ok s') :
    Named s' (noteNamed g s a s') := by
  have hkeep : ∀ fd ∈ g, fd ∈ noteNamed g s a s' := fun fd hfd => List.mem_append_right _ hfd
  have hnew : ∀ fd, usesIndex a = true → slotIndex s a = some fd → fd ∈ noteNamed g s a s' := by
    intro fd ha hs
    apply List.mem_append_left
    rw [namedFd_of_slotIndex ha hok hs]
    exact List.mem_singleton_self fd
  refine ⟨?_, ?_, ?_, ?_⟩
  · intro fd hfd
    rcases List.mem_append.mp hfd with hfd | hfd
    · exact inTable_of_namedFd (Option.mem_toList.mp hfd)
    · exact hn.inTable fd hfd
  · intro fd hfd
    rcases slot_of_step hr h hfd with hold | ⟨ha, hs⟩
    · exact hkeep fd (hn.slot fd hold)
    · exact hnew fd ha hs
  · intro l' hl' events since hp e he
    apply hkeep
    rcases loops_step hr h hl' with hl | hwait | ⟨l, hl, ⟨_, hnext | ⟨batch, hm, hphase⟩⟩, _⟩
    · exact hn.batch l' hl events since hp e he
    · rw [hwait] at hp
      cases hp
    · obtain ⟨e₀, hp₀⟩ := hnext events since hp
      exact hn.batch l hl _ since hp₀ e (List.mem_cons_of_mem _ he)
    · rw [hphase] at hp
      cases hp
      -- the kernel reports on descriptors that were added to the interest set
      obtain ⟨⟨i, hi, _, _, _⟩, _⟩ := hm.2.2 e he
      obtain ⟨ev, hev, _, _⟩ := hr.interest e.dataFd i hi
      apply hn.slot
      rw [hev]
      exact Option.some_ne_none _
  · intro p element hp
    cases queueMove h with
    | same ht _ =>
      rw [ht] at hp
      exact hkeep _ (hn.element p element hp)
    | push site obj garbage timeout persistent ha _ _ _ _ ht =>
      rw [ht] at hp
      simp only [Timeouts.push, Function.update_apply] at hp
      split_ifs at hp
      · cases hp
        apply hnew <;> rw [ha] <;> rfl
      · exact hkeep _ (hn.element p element hp)
    | counts _ _ _ _ _ _ node x _ _ _ _ hx _ _ ht =>
      rw [ht] at hp
      simp only [Function.update_apply] at hp
      apply hkeep
      split_ifs at hp
      · cases hp
        exact hn.element _ x hx
      · exact hn.element p element hp

theorem Named.mem_of_dispatchFd {s : State} {g : List ℤ} (hn : Named s g) {fd : ℤ}
    (h : dispatchFd s = some fd) : fd ∈ g := by
  unfold dispatchFd at h
  split at h
  · next l stack hs =>
    have hl : l ∈ loops s.stack := by
      rw [hs]
      exact List.mem_cons_self
    split at h
    · next e events since hp =>
      split_ifs at h
      cases h
      exact hn.batch l hl _ since hp e List.mem_cons_self
    · obtain ⟨element, hel, h⟩ := Option.bind_eq_some_iff.mp h
      obtain ⟨node, _, hel⟩ := Option.bind_eq_some_iff.mp hel
      split_ifs at h
      cases h
      exact hn.element _ element hel
    · cases h
  · cases h

theorem named_of_noted {x : State × List ℤ} (h : Noted step Initial IndexOk noteNamed [] x) :
    Named x.1 x.2 := by
  apply Noted.invariant_of (I := Named) _ _ h
  · exact fun s hs => named_initial hs
  · intro s g a s' hr hn hok hstep
    exact named_step (tableWf_of_reached hr.reachable) hn hok hstep

/-- In a run whose calls all name an index or find out that they do not, a call is lawful if
and only if it does so too, what `event_loop` indexes the table with was named by a call, and
no such step leaves the tables. -/
theorem indices_lawful_iff_named (x : State × List ℤ)
    (h : Noted step Initial IndexOk noteNamed [] x) :
    (∀ a, usesIndex a = true → phpRuns x.1 → (IndexLawful x.1 a ↔ IndexOk x.1 a)) ∧
    (∀ fd, dispatchFd x.1 = some fd → fd ∈ x.2 ∧ inTable fd) ∧
    ∀ a, IndexOk x.1 a → step x.1 a ≠ .error .outOfBounds := by
  have hn := named_of_noted h
  refine ⟨?_, ?_, ?_⟩
  · intro a ha hphp
    exact indexLawful_iff (tableWf_of_reached h.reachable) hphp ha
  · intro fd hfd
    have hmem := hn.mem_of_dispatchFd hfd
    exact ⟨hmem, hn.inTable fd hmem⟩
  · intro a hok
    apply inBounds_step
    · intro fd hfd
      cases ha : usesIndex a with
      | true => exact inTable_of_namedFd (namedFd_of_slotIndex ha hok hfd)
      | false =>
        cases a with
        | loopStep answer => exact hn.inTable fd (hn.mem_of_dispatchFd hfd)
        | sleep site timeout tfd clockOk addOk =>
          simp [slotIndex, ioRequest, not_lt.mp (of_decide_eq_false ha)] at hfd
        | socketSetTimeout _ _ _ _ _ => cases ha
        | _ => first | cases hfd | cases ha
    · exact fun cid hcid => inContextMap_of_namedCid (namedCid_of_entryIndex hok hcid)

def readReadyRun : List Action :=
  [createCall 1, readCall 3, .eventLoop callSite, .epollWait [⟨epollIn, 3⟩]]

theorem indices_lawful_iff_named_ready : ∃ x,
    Transition.runFrom (withHistory step noteNamed) (initial 0 0, []) readReadyRun = .ok x ∧
    dispatchFd x.1 = some 3 ∧ 3 ∈ x.2 ∧
    ∀ answer, step x.1 (.loopStep answer) ≠ .error .outOfBounds := by
  have hok : ∀ s a, (!usesIndex a || (namedFd a).isSome) = true → IndexOk s a := by
    intro s a htest ha
    rw [ha] at htest
    exact .inl htest
  obtain ⟨x, hrun, hx, hp⟩ := exists_noted_of noteNamed [] _ hok readReadyRun
    (fun x => dispatchFd x.1 = some 3) (by decide)
  obtain ⟨_, hnamed, hin⟩ := indices_lawful_iff_named x hx
  have hd := of_decide_eq_true hp
  exact ⟨x, hrun, hd, (hnamed 3 hd).1, fun answer => hin _ nofun⟩

def acceptFalse : Action := .socketAccept callSite ⟨[.bool false], 0, true⟩

/-- The table is indexed with the error that `c_convert_to_fd` returned. -/
theorem error_used_as_index : ∃ s,
    Transition.runFrom step (initial 0 0) [createCall 1] = .ok s ∧ Reached (fun _ _ => True) s ∧
    phpRuns s ∧ step s acceptFalse = .error .outOfBounds ∧ ¬ IndexLawful s acceptFalse := by
  obtain ⟨s, hrun, hs, hp⟩ := exists_reached [createCall 1]
    (fun s => s.stack.all fun f => (loops [f]).isEmpty) (by decide)
  have hphp : phpRuns s := by
    intro l stack hstack
    rw [hstack] at hp
    cases hp
  refine ⟨s, hrun, hs, hphp, ?_, fun hlaw => ?_⟩
  · rw [step_eq_phpStep hphp rfl]
    rfl
  · have hnamed := hlaw.slot (-1) rfl
    cases hnamed

end Phpco
