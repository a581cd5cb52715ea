import Phpco.LifeSteps

/-!
# The life of each coroutine

In every run in which a coroutine that finishes is the current one, each coroutine
is created once, and while it runs it is suspended in a new context and switched to
from this very context, any number of times, before it is closed once.  A coroutine
whose context is not to be found under its key is never switched to again.
-/

namespace Phpco
open Except Transition

def State.lives (s : State) : List (Coop.Event Ptr (Wait × Ptr)) :=
  s.log.filterMap (Event.scheduling Prod.mk)

theorem Adds.lives {s s' : State} {es : List Event} (h : Adds s s' es) :
    s'.lives = es.filterMap (Event.scheduling Prod.mk) ++ s.lives :=
  h.scheduling _

theorem lives_other {es es' : List (Coop.Event Ptr (Wait × Ptr))} {e : Coop.Event Ptr (Wait × Ptr)}
    {t : Ptr} (h : es' = e :: es) (ht : t ≠ e.task) :
    (es'.filter fun e => e.task = t) = es.filter fun e => e.task = t := by
  rw [h]
  exact List.filter_cons_of_neg (by simpa using ht.symm)

/-- The event that a step adds to the life of a coroutine is one that may happen to it. -/
theorem lives_step {s s' : State} {a : Action} (h : LifeStep s a s') (hl : Coop.Lives s.lives) :
    Coop.Lives s'.lives := by
  have hone : ∀ e, e.Allowed (Coop.phase s.lives) → s'.lives = e :: s.lives → Coop.Lives s'.lives := by
    intro e he heq
    rw [heq]
    exact hl.cons he
  have hphase : ∀ t, Coop.phase s.lives t = (status s.log t).phase Prod.mk := phase_scheduling _ _
  cases h with
  | same _ hlog _ _ =>
    rw [hlog.lives]
    exact hl
  | starts x t cid retval _ _ habsent hlog _ _ =>
    refine hone (.spawn t) ?_ hlog.lives
    rw [Coop.Event.Allowed, hphase, habsent]
    rfl
  | switches x t w c result _ _ hst _ _ hlog _ _ =>
    have hadds : Adds s s' [.switched (some t) w c x.id result] := ⟨[], hlog⟩
    refine hone (.wake t (w, c)) ?_ hadds.lives
    rw [Coop.Event.Allowed, hphase, hst]
    rfl
  | suspends x t w c _ _ hst _ hlog _ _ =>
    refine hone (.park t (w, c)) ?_ hlog.lives
    rw [Coop.Event.Allowed, hphase, hst]
    rfl
  | finishes x t cid page retval _ _ hst hlog _ _ =>
    refine hone (.finish t) ?_ hlog.lives
    rw [Coop.Event.Allowed, hphase, hst]
    rfl

theorem lifeStep_of_reached {ok : State → Action → Prop} (hok : ∀ s a, ok s a → FinishesOwn s a)
    {s s' : State} {a : Action} (h : Reached ok s) (ha : ok s a) (hstep : step s a = .ok s') :
    LifeStep s a s' :=
  lifeStep (tableWf_of_reached h) (sched_of_reached hok h) (hok s a ha) hstep

/-- Each coroutine has lived one life, and its status is where it is in it: what suspends
it and what it is switched to from is the same context of the same key. -/
theorem one_life {s : State} (h : Reached FinishesOwn s) (t : Ptr) :
    Coop.Life t (s.lives.filter fun e => e.task = t) ((status s.log t).phase Prod.mk) := by
  have hl : Coop.Lives s.lives := by
    refine h.invariant_of (I := fun s => Coop.Lives s.lives) ?_ fun s a s' hreach hl hok hstep =>
      lives_step (lifeStep_of_reached (fun _ _ => id) hreach hok hstep) hl
    rintro s ⟨maxCoroNum, _, stackSize, _, rfl⟩
    exact .nil
  rw [← phase_scheduling]
  exact hl.life t

def testFinishesOwn (s : State) : Action → Bool
  | .finish => match s.stack with
    | .activation x :: _ => s.corog.currentCoro = x.task ∧
      (x.task = some s.eg.vm.stack ∨ (s.tasks s.eg.vm.stack).isNone)
    | _ => true
  | _ => true

theorem finishesOwn_of_test (s : State) (a : Action) (h : testFinishesOwn s a = true) :
    FinishesOwn s a := by
  rintro rfl x stack base hstack _
  simpa [testFinishesOwn, hstack] using h

theorem one_life_resumed : ∃ s, runFrom step (initial 0 0) resumedRun = .ok s ∧
    (s.lives.filter fun e => e.task = 5).length = 4 ∧
    Coop.Life 5 (s.lives.filter fun e => e.task = 5) .done := by
  obtain ⟨s, hrun, hs, hp⟩ := exists_reached_of _ finishesOwn_of_test resumedRun
    (fun s => (s.lives.filter fun e => e.task = 5).length = 4 ∧ status s.log 5 = .closed) (by decide)
  simp only [decide_eq_true_eq] at hp
  obtain ⟨hlength, hclosed⟩ := hp
  have hlife := one_life hs 5
  rw [hclosed] at hlife
  exact ⟨s, hrun, hlength, hlife⟩

/-- Each suspended coroutine is saved in its context. -/
def Kept (s : State) : Prop :=
  ∀ t w c, status s.log t = .suspended w c → s.scheduler.saved c = some (some t)

theorem kept_step {s s' : State} {a : Action} (hs : Sched s) (h : LifeStep s a s') (hk : Kept s) :
    Kept s' := by
  intro t w c hst
  cases h with
  | same _ hlog hsaved _ =>
    rw [hlog.status] at hst
    rw [hsaved]
    exact hk t w c hst
  | starts x t' cid retval _ _ _ hlog hsaved _ =>
    rw [hlog.status, List.singleton_append, status_created] at hst
    rw [hsaved]
    by_cases htt : t = t'
    · simp [htt] at hst
    · rw [Function.update_of_ne htt] at hst
      exact hk t w c hst
  | switches x t' w' c' result _ _ _ _ hsaved hlog hsaved' _ =>
    rw [hlog, status_switched] at hst
    by_cases htt : t = t'
    · simp [htt] at hst
    · rw [Function.update_of_ne htt] at hst
      have hkept := hk t w c hst
      have hne : c ≠ c' := by
        rintro rfl
        cases hkept.symm.trans hsaved
        exact htt rfl
      rw [hsaved', Function.update_of_ne hne]
      exact hkept
  | suspends x t' w' c' _ _ _ hfresh hlog hsaved _ =>
    rw [hlog.status, List.singleton_append, status_suspended] at hst
    rw [hsaved]
    by_cases htt : t = t'
    · rw [htt, Function.update_self] at hst
      cases hst
      rw [htt, Function.update_self]
    · rw [Function.update_of_ne htt] at hst
      have hkept := hk t w c hst
      have hlt : c < s.next := hs.core.saved_lt_next (by simp [hkept])
      rw [Function.update_of_ne (hlt.trans_le hfresh).ne]
      exact hkept
  | finishes x t' cid page retval _ _ _ hlog hsaved _ =>
    rw [hlog.status, List.singleton_append, status_closed] at hst
    rw [hsaved]
    by_cases htt : t = t'
    · simp [htt] at hst
    · rw [Function.update_of_ne htt] at hst
      exact hk t w c hst

theorem kept_of_reached {s : State} (h : Reached FinishesOwn s) : Kept s := by
  refine h.invariant_of ?_ fun s a s' hreach hk hok hstep =>
    kept_step (sched_of_reached (fun _ _ => id) hreach)
      (lifeStep_of_reached (fun _ _ => id) hreach hok hstep) hk
  rintro s ⟨maxCoroNum, _, stackSize, _, rfl⟩ t w c hst
  cases hst

/-- The coroutine is suspended in a context that is not to be found under its key. -/
def Lost (t : Ptr) (w : Wait) (c : Ptr) (s : State) : Prop :=
  status s.log t = .suspended w c ∧ s.contextOf w ≠ some c

/-- No step finds the context again, and what happens happens to other coroutines. -/
theorem lost_step {s s' : State} {a : Action} {t : Ptr} {w : Wait} {c : Ptr} (hs : Sched s)
    (hk : Kept s) (h : LifeStep s a s') (hl : Lost t w c s) :
    Lost t w c s' ∧ cidOf s'.log t = cidOf s.log t ∧
      (s'.lives.filter fun e => e.task = t) = s.lives.filter fun e => e.task = t := by
  obtain ⟨hst, hne⟩ := hl
  have hkeys : KeepsKeys s s' → s'.contextOf w ≠ some c := fun hkeys hc =>
    hne (hkeys.contextOf w c hc)
  cases h with
  | same _ hlog _ hkeep =>
    rw [Lost, hlog.status, hlog.cidOf, hlog.lives]
    exact ⟨⟨hst, hkeys hkeep⟩, rfl, rfl⟩
  | starts x t' cid retval _ _ hst' hlog _ hkeep =>
    have htt : t ≠ t' := by
      rintro rfl
      cases hst.symm.trans hst'
    rw [Lost, hlog.status, hlog.cidOf]
    refine ⟨⟨?_, hkeys hkeep⟩, ?_, ?_⟩
    · exact (Function.update_of_ne htt _ _).trans hst
    · exact Function.update_of_ne htt _ _
    · exact lives_other hlog.lives htt
  | switches x t' w' c' result _ _ hst' hfound _ hlog _ hkeep =>
    have hadds : Adds s s' [.switched (some t') w' c' x.id result] := ⟨[], hlog⟩
    have htt : t ≠ t' := by
      rintro rfl
      cases hst.symm.trans hst'
      exact hne hfound
    rw [Lost, hadds.status, hadds.cidOf]
    refine ⟨⟨?_, hkeys hkeep⟩, rfl, ?_⟩
    · exact (Function.update_of_ne htt _ _).trans hst
    · exact lives_other hadds.lives htt
  | suspends x t' w' c' _ _ hst' hfresh hlog _ hput =>
    have htt : t ≠ t' := by
      rintro rfl
      cases hst.symm.trans hst'
    rw [Lost, hlog.status, hlog.cidOf]
    refine ⟨⟨?_, fun hc => ?_⟩, rfl, ?_⟩
    · exact (Function.update_of_ne htt _ _).trans hst
    · by_cases hw : w = w'
      · subst hw
        -- the context put under the key is a new one
        rcases hput.busy c hc with rfl | hc'
        · have hlt : c < s.next := hs.core.saved_lt_next (by simp [hk t w c hst])
          exact absurd hfresh (Nat.not_le.mpr hlt)
        · exact hne hc'
      · rw [hput.others w hw] at hc
        exact hne hc
    · exact lives_other hlog.lives htt
  | finishes x t' cid page retval _ _ hst' hlog _ hkeep =>
    have htt : t ≠ t' := by
      rintro rfl
      cases hst.symm.trans hst'
    rw [Lost, hlog.status, hlog.cidOf]
    refine ⟨⟨?_, hkeys hkeep⟩, ?_, ?_⟩
    · exact (Function.update_of_ne htt _ _).trans hst
    · exact Function.update_of_ne htt _ _
    · exact lives_other hlog.lives htt

/-- A coroutine that is suspended is found under its key and saved there; or it waits for a
descriptor, and whatever happens from now on it stays suspended, is not switched to, and keeps
its cid. -/
theorem found_or_lost {s : State} (h : Reached FinishesOwn s) {t : Ptr} {w : Wait} {c : Ptr}
    (ht : status s.log t = .suspended w c) :
    (s.contextOf w = some c ∧ s.scheduler.saved c = some (some t)) ∨
      (∃ fd, w = .io fd) ∧ ∀ s', Reachable step (fun u => u = s) FinishesOwn s' →
        status s'.log t = .suspended w c ∧ cidOf s'.log t = cidOf s.log t ∧
          (s'.lives.filter fun e => e.task = t) = s.lives.filter fun e => e.task = t := by
  have hk := kept_of_reached h
  have hs : Sched s := sched_of_reached (fun _ _ => id) h
  by_cases hfound : s.contextOf w = some c
  · exact .inl ⟨hfound, hk t w c ht⟩
  · right
    constructor
    · cases w with
      | io fd => exact ⟨fd, rfl⟩
      | yield cid =>
        -- whoever yields is put under its cid
        obtain ⟨_, _, hentry⟩ := hs.core.yielded t cid c ht
        have hok := hs.core.entries cid
        rw [hentry] at hok
        exact absurd hok.1 hfound
    · intro s' hs'
      have hI : Reached FinishesOwn s' ∧ Lost t w c s' ∧ cidOf s'.log t = cidOf s.log t ∧
          (s'.lives.filter fun e => e.task = t) = s.lives.filter fun e => e.task = t := by
        refine hs'.invariant_of (I := fun u => Reached FinishesOwn u ∧ Lost t w c u ∧
          cidOf u.log t = cidOf s.log t ∧ (u.lives.filter fun e => e.task = t) =
            s.lives.filter fun e => e.task = t) ?_ fun u a u' _ hI hok hstep => ?_
        · rintro u rfl
          exact ⟨h, ⟨ht, hfound⟩, rfl, rfl⟩
        · obtain ⟨hu, hlost, hcid, hlives⟩ := hI
          obtain ⟨hlost', hcid', hlives'⟩ := lost_step (sched_of_reached (fun _ _ => id) hu)
            (kept_of_reached hu) (lifeStep_of_reached (fun _ _ => id) hu hok hstep) hlost
          exact ⟨hu.next hok hstep, hlost', hcid'.trans hcid, hlives'.trans hlives⟩
      exact ⟨hI.2.1.1, hI.2.2⟩

theorem found_or_lost_second_reader : ∃ s, runFrom step (initial 0 0)
      [createCall 1, readCall 3, createCall 2, readCall 3] = .ok s ∧
    ∀ s', Reachable step (fun u => u = s) FinishesOwn s' →
      status s'.log 14 = .suspended (.io 3) 19 ∧ cidOf s'.log 14 = some 2 := by
  obtain ⟨s, hrun, hs, hp⟩ := exists_reached_of _ finishesOwn_of_test
    [createCall 1, readCall 3, createCall 2, readCall 3]
    (fun s => status s.log 14 = .suspended (.io 3) 19 ∧ s.rg.waiter 3 = some 10 ∧
      cidOf s.log 14 = some 2) (by decide)
  simp only [decide_eq_true_eq] at hp
  obtain ⟨hst, hwaiter, hcid⟩ := hp
  refine ⟨s, hrun, fun s' hs' => ?_⟩
  rcases found_or_lost hs hst with ⟨hfound, _⟩ | ⟨_, hlost⟩
  · rw [State.contextOf, hwaiter] at hfound
    cases hfound
  · obtain ⟨hst', hcid', _⟩ := hlost s' hs'
    exact ⟨hst', hcid'.trans hcid⟩

end Phpco
