import Phpco.CheckPoints
import Phpco.Moves

namespace Phpco
open Except EventTable

theorem activations_subset_of_unwind {act : Ptr} {stack rest : List CFrame} {x : Activation}
    (h : unwind act stack = some (x, rest)) :
    x ∈ activations stack ∧ activations rest ⊆ activations stack := by
  obtain ⟨_, popped, hstack⟩ := activations_unwind h
  rw [hstack]
  refine ⟨List.mem_append_right _ List.mem_cons_self, fun y hy => ?_⟩
  exact List.mem_append_right _ (List.mem_cons_of_mem _ hy)

theorem returnFrom_cases {s s' : State} {x : Activation} {ret : ℤ} (hret : 0 ≤ ret)
    (h : returnFrom s x.switch ret = .ok s') :
    s'.stack = s.stack ∧ s'.next = s.next ∧ s'.cidContextMap = s.cidContextMap ∧
      (s'.checkPoint = x.outerCheckPoint ∨ s'.checkPoint = s.checkPoint) := by
  cases hsw : x.switch with
  | create frame prevCheckpoint ctx required callback =>
    rw [hsw] at h
    obtain ⟨buf, tasks, _, _, rfl⟩ := coroutineCreateTail_cases hret h
    exact ⟨rfl, rfl, rfl, .inl (by rw [Activation.outerCheckPoint, hsw]; rfl)⟩
  | resume frame prevCheckpoint context ctx required =>
    rw [hsw] at h
    obtain ⟨buf, _, rfl⟩ := coroutineResumeTail_cases h
    exact ⟨rfl, rfl, rfl, .inl (by rw [Activation.outerCheckPoint, hsw]; rfl)⟩
  | invoke fd event context =>
    rw [hsw] at h
    obtain ⟨_, rfl⟩ := aioInvokeTail_cases h
    exact ⟨rfl, rfl, rfl, .inr rfl⟩

theorem coroYield_cases {s s' : State} (h : coroYield s = .ok s') :
    ∃ x ∈ activations s.stack, activations s'.stack ⊆ activations s.stack ∧ s'.next = s.next ∧
      s.checkPoint ≠ none ∧
      (s'.checkPoint = x.outerCheckPoint ∨ s'.checkPoint = s.checkPoint) := by
  obtain ⟨x, rest, hj, hret⟩ := coroYield_eq_ok.mp h
  obtain ⟨buf, act, hcp, _, hu⟩ := jumpTarget_eq_ok.mp hj
  obtain ⟨hstack, hnext, _, hcp'⟩ := returnFrom_cases (by decide) hret
  obtain ⟨hx, hsub⟩ := activations_subset_of_unwind hu
  exact ⟨x, hx, by rw [hstack]; exact hsub, hnext, by simp [hcp], hcp'⟩

/-- A step keeps `checkPoint` and the buffers to go back to within the addresses handed out. -/
structure Bounded (s : State) : Prop where
  checkPoint : ∀ b, s.checkPoint = some b → b < s.next
  outer : ∀ x ∈ activations s.stack, ∃ b, x.outerCheckPoint = some b ∧ b < s.next
  uninit : s.checkPoint = none → ∀ cid, s.cidContextMap cid = none

namespace Bounded

theorem mono {s s' : State} (h : Bounded s) (hcp : s'.checkPoint = s.checkPoint)
    (hstack : activations s'.stack ⊆ activations s.stack) (hnext : s.next ≤ s'.next)
    (hmap : s'.cidContextMap = s.cidContextMap) : Bounded s' where
  checkPoint b hb := (h.checkPoint b (hcp ▸ hb)).trans_le hnext
  outer x hx := by
    obtain ⟨b, hb, hlt⟩ := h.outer x (hstack hx)
    exact ⟨b, hb, hlt.trans_le hnext⟩
  uninit := by
    rw [hcp, hmap]
    exact h.uninit

theorem pop {s s' : State} {x : Activation} (h : Bounded s) (hx : x ∈ activations s.stack)
    (hstack : activations s'.stack ⊆ activations s.stack) (hnext : s.next ≤ s'.next)
    (hcp : s'.checkPoint = x.outerCheckPoint ∨ s'.checkPoint = s.checkPoint ∧ s.checkPoint ≠ none) :
    Bounded s' ∧ s'.checkPoint ≠ none := by
  obtain ⟨b, hb, hlt⟩ := h.outer x hx
  have hcp' : ∃ b', s'.checkPoint = some b' ∧ b' < s.next := by
    rcases hcp with hcp | ⟨hcp, hne⟩
    · exact ⟨b, hcp.trans hb, hlt⟩
    · obtain ⟨b', hb'⟩ := Option.ne_none_iff_exists'.mp hne
      exact ⟨b', hcp.trans hb', h.checkPoint b' hb'⟩
  obtain ⟨b', hb', hlt'⟩ := hcp'
  refine ⟨⟨fun c hc => ?_, fun y hy => ?_, fun hn => ?_⟩, by simp [hb']⟩
  · obtain rfl : b' = c := Option.some.inj (hb'.symm.trans hc)
    exact hlt'.trans_le hnext
  · obtain ⟨c, hc, hltc⟩ := h.outer y (hstack hy)
    exact ⟨c, hc, hltc.trans_le hnext⟩
  · simp [hb'] at hn

theorem push {s s' : State} {y : Activation} {buf b : Ptr} (h : Bounded s)
    (hstack : activations s'.stack = y :: activations s.stack) (hnext : s.next ≤ s'.next)
    (hcp : s'.checkPoint = some buf) (hbuf : buf < s'.next) (hout : y.outerCheckPoint = some b)
    (hb : b < s'.next) : Bounded s' where
  checkPoint c hc := by
    obtain rfl : buf = c := Option.some.inj (hcp.symm.trans hc)
    exact hbuf
  outer x hx := by
    rw [hstack] at hx
    rcases List.mem_cons.mp hx with rfl | hx
    · exact ⟨b, hout, hb⟩
    · obtain ⟨c, hc, hlt⟩ := h.outer x hx
      exact ⟨c, hc, hlt.trans_le hnext⟩
  uninit hn := by simp [hcp] at hn

end Bounded

theorem Bounded.ensureInit {s : State} (h : Bounded s) : Bounded (ensureInit s) := by
  rcases ensureInit_cases s with ⟨_, he⟩ | ⟨_, he⟩
  · rw [he]
    exact h
  · rw [he]
    refine ⟨fun b hb => ?_, fun x hx => ?_, fun hn => by simp [coroInit] at hn⟩
    · obtain rfl : s.next + 1 = b := Option.some.inj hb
      exact Nat.lt_succ_self _
    · obtain ⟨b, hb, hlt⟩ := h.outer x hx
      exact ⟨b, hb, hlt.trans_le (Nat.le_add_right _ 2)⟩

theorem bounded_create {s s' : State} {frame : InternalCall} {slots : ℕ} {callback : Zval}
    (h : Bounded s) (hc : coroutineCreate s frame slots callback = .ok s') :
    Bounded s' ∧ s.next ≤ s'.next ∧ s'.checkPoint ≠ none := by
  have hi := h.ensureInit
  have hne := checkPoint_ensureInit s
  have hnext := le_next_ensureInit s
  obtain ⟨b, hb⟩ := Option.ne_none_iff_exists'.mp hne
  have hlt := hi.checkPoint b hb
  obtain ⟨cid, cids, _, ⟨_, _, ht⟩ | ⟨_, hj⟩⟩ := coroutineCreate_cases hc
  · obtain ⟨buf, tasks, _, _, rfl⟩ := coroutineCreateTail_cases (by decide) ht
    exact ⟨hi.mono rfl (List.Subset.refl _) (Nat.le_succ _) rfl, hnext.trans (Nat.le_succ _), hne⟩
  · obtain ⟨buf, hbuf, _, rfl⟩ := setjmp_eq_ok.mp hj
    have hle : (Phpco.ensureInit s).next ≤ (Phpco.ensureInit s).next + 5 := Nat.le_add_right _ 5
    refine ⟨hi.push rfl hle hbuf ?_ hb (hlt.trans_le hle), hnext.trans hle, ?_⟩
    · obtain rfl : (Phpco.ensureInit s).next = buf := Option.some.inj hbuf
      exact Nat.lt_add_of_pos_right (n := (Phpco.ensureInit s).next) (k := 5) (by decide)
    · simp [startTask, newCheckPoint]

theorem step_create {s s' : State} {site : CallSite} {slots : ℕ} {callback : Zval}
    (h : step s (.create site slots callback) = .ok s') :
    phpRuns s ∧ coroutineCreate (enterCall s site) (callFrame s site) slots callback = .ok s' := by
  obtain ⟨hphp, o, ho, hs⟩ := php_step_cases rfl h
  obtain ⟨s₁, hc, ho⟩ := bind_eq_ok.mp ho
  cases ho
  cases hs
  exact ⟨hphp, hc⟩

theorem bounded_step {s s' : State} {a : Action} (hr : TableWf s.rg) (hb : Bounded s)
    (h : step s a = .ok s') :
    Bounded s' ∧ s.next ≤ s'.next ∧ (s'.checkPoint = none → s.checkPoint = none) := by
  have hquiet : Quiet s s' → activations s'.stack = activations s.stack →
      Bounded s' ∧ s.next ≤ s'.next ∧ (s'.checkPoint = none → s.checkPoint = none) :=
    fun hq hs => ⟨hb.mono hq.checkPoint (hs ▸ List.Subset.refl _) hq.next hq.cidContextMap, hq.next,
      fun hn => hq.checkPoint ▸ hn⟩
  cases step_move hr h with
  | quiet hq hs _ => exact hquiet hq (by rw [hs])
  | enterLoop _ _ _ hq hs => exact hquiet hq (by rw [hs]; rfl)
  | loop l l' stack hq hs hs' _ _ => exact hquiet hq (by rw [hs, hs']; rfl)
  | leaveLoop l stack hq hs hs' _ => exact hquiet hq (by rw [hs, hs']; rfl)
  | invoke l l' stack fd ev c v hs _ _ _ _ hres =>
    obtain ⟨ctx, current, frames, result, _, _, _, _, hj⟩ := cCoroResume_cases hres
    obtain ⟨buf, hbuf, _, rfl⟩ := setjmp_eq_ok.mp hj
    have hlt := (hb.checkPoint buf hbuf).trans (Nat.lt_succ_self _)
    refine ⟨hb.push (by rw [hs]; rfl) (Nat.le_succ _) hbuf hlt rfl hlt, Nat.le_succ _, fun hn => ?_⟩
    exact hn
  | create site slots callback ha hphp hc =>
    obtain ⟨h', hle, hne⟩ := bounded_create (s := enterCall s site)
      (hb.mono rfl (List.Subset.refl _) (Nat.le_succ _) rfl) hc
    exact ⟨h', (Nat.le_succ _).trans hle, fun hn => absurd hn hne⟩
  | resume site arg c ha hphp hin hm hres =>
    obtain ⟨ctx, current, frames, result, _, _, _, _, hj⟩ := cCoroResume_cases hres
    obtain ⟨buf, hbuf, _, rfl⟩ := setjmp_eq_ok.mp hj
    -- a context with a cid was saved by a coroutine, so `coro_init` has run
    have hne : s.checkPoint ≠ none := fun hn => by simp [hb.uninit hn] at hm
    obtain ⟨b, hcp⟩ := Option.ne_none_iff_exists'.mp hne
    have hle : s.next ≤ s.next + 3 := Nat.le_add_right _ 3
    refine ⟨hb.push rfl hle hbuf ?_ hcp ((hb.checkPoint b hcp).trans_le hle), hle, fun hn => ?_⟩
    · obtain rfl : s.next + 1 = buf := Option.some.inj hbuf
      exact Nat.lt_add_of_pos_right (n := s.next + 1) (k := 2) (by decide)
    · simp [resumed, newCheckPoint] at hn
  | yield site s₁ ha hphp hy hc =>
    obtain ⟨t, task, _, _, _, rfl⟩ := coroutineYield_cases hy
    obtain ⟨x, hx, hsub, hnext, hne, hcp⟩ := coroYield_cases hc
    have hle : s.next ≤ s'.next := hnext ▸ Nat.le_add_right s.next 2
    obtain ⟨h', hne'⟩ := hb.pop hx hsub hle (hcp.imp id fun h => ⟨h, hne⟩)
    exact ⟨h', hle, fun hn => absurd hn hne'⟩
  | block fd c s₁ ha hphp _ hbl hc =>
    obtain ⟨x, hx, hsub, hnext, hne, hcp⟩ := coroYield_cases hc
    rw [hbl.stack] at hx hsub
    rw [hbl.checkPoint] at hne hcp
    have hle : s.next ≤ s'.next := hnext ▸ (hbl.fresh.1.trans hbl.fresh.2.le)
    obtain ⟨h', hne'⟩ := hb.pop hx hsub hle (hcp.imp id fun h => ⟨h, hne⟩)
    exact ⟨h', hle, fun hn => absurd hn hne'⟩
  | finish x stack base s₁ ha hs hex hc hret =>
    obtain ⟨t, task, retval, _, _, _, rfl⟩ := coroClose_eq_ok.mp hc
    obtain ⟨hstack, hnext, hmap, hcp⟩ := returnFrom_cases (by decide) hret
    have hsub : activations s'.stack ⊆ activations s.stack := by
      rw [hstack, hs]
      exact List.subset_cons_self _ _
    -- the jump back restores the caller's buffer, or there was none to restore
    rcases hcp with hcp | hcp
    · obtain ⟨h', hne'⟩ := hb.pop (by rw [hs]; exact List.mem_cons_self) hsub hnext.ge (.inl hcp)
      exact ⟨h', hnext.ge, fun hn => absurd hn hne'⟩
    · exact ⟨hb.mono hcp hsub hnext.ge hmap, hnext.ge, fun hn => hcp ▸ hn⟩

theorem bounded_of_reached {ok : State → Action → Prop} {s : State} (h : Reached ok s) :
    Bounded s := by
  refine h.invariant_of (fun s hs => ?_) fun s a s' hreach hb _ hstep =>
    (bounded_step (tableWf_of_reached hreach) hb hstep).1
  obtain ⟨_, _, _, _, rfl⟩ := hs
  exact ⟨fun b hb => by simp [initial] at hb, fun x hx => by simp [initial] at hx, fun _ _ => rfl⟩

/-- Waiting contexts were handed out already, and nothing waits without an epoll instance. -/
structure Waiting (s : State) : Prop where
  fresh : ∀ fd c, s.rg.waiter fd = some c → c < s.next
  idle : s.epollfd = none → ∀ fd, s.rg.waiter fd = none
  uninit : s.checkPoint = none → s.epollfd = none

/-- A step registers at most the context of the I/O call it makes. -/
theorem waiter_step {s s' : State} {a : Action} {fd : ℤ} {c : Ptr} (hr : TableWf s.rg)
    (h : step s a = .ok s') (hc : s'.rg.waiter fd = some c) :
    s.rg.waiter fd = some c ∨ (s.epollfd ≠ none ∧ s.rg.waiter fd = none ∧
      c < s'.next ∧ s.next < c ∧ ∃ q, ioRequest s a = some (q, true) ∧ q.fd = fd ∧
        q.context = c) := by
  cases tableMove h with
  | same hrg _ => exact .inl (hrg ▸ hc)
  | init _ _ _ _ _ hrg => simp [hrg, waiter] at hc
  | store q addOk r r' ret hq hsame hlt hltn hst hrg _ =>
    rw [hrg] at hc
    obtain ⟨_, ⟨_, hw, rfl⟩ | ⟨_, hw, hadd, _, ev, _, _, rfl⟩ | ⟨_, _, rfl⟩⟩ :=
      aioEventStore_cases (hr.congr hsame.slots hsame.interest) hst
    · rw [waiter_setSlot_none hw, hsame.waiter] at hc
      exact .inl hc
    · rw [waiter_registerSlot] at hc
      split_ifs at hc with hfd
      · cases hc
        obtain ⟨rfl, hfd'⟩ := Bool.and_eq_true_iff.mp hadd
        refine .inr ⟨?_, by rw [hfd, ← hsame.waiter]; exact hw, hltn, hlt, q, hq, hfd.symm, rfl⟩
        intro hn
        simp [hn] at hfd'
      · exact .inl (hsame.waiter fd ▸ hc)
    · exact .inl (hsame.waiter fd ▸ hc)
  | invoke answer fd' _ _ _ hrg _ _ =>
    rw [hrg, waiter_invokeTable] at hc
    split_ifs at hc
    exact .inl hc
  | socketClose site io closed retval fd' _ _ _ hrg _ =>
    rw [hrg] at hc
    exact .inl (waiter_socketClose hc)
  | closeFd fd' _ hrg _ =>
    rw [hrg] at hc
    exact .inl hc

theorem epollfd_step {s s' : State} {a : Action} (hb : Bounded s) (h : step s a = .ok s') :
    s'.epollfd = s.epollfd ∨ s'.epollfd ≠ none ∧ s'.checkPoint ≠ none := by
  cases tableMove h with
  | same _ hfd => exact .inl hfd
  | init site slots callback ha _ _ =>
    subst ha
    obtain ⟨_, hc⟩ := step_create h
    obtain ⟨_, _, hne⟩ := bounded_create (s := enterCall s site)
      (hb.mono rfl (List.Subset.refl _) (Nat.le_succ _) rfl) hc
    rw [(rg_coroutineCreate hc).2]
    rcases ensureInit_cases (enterCall s site) with ⟨_, he⟩ | ⟨_, he⟩
    · exact .inl (by rw [he]; rfl)
    · exact .inr ⟨by simp [he, coroInit], hne⟩
  | store _ _ _ _ _ _ _ _ _ _ _ hfd => exact .inl hfd
  | invoke _ _ _ _ _ _ hfd _ => exact .inl hfd
  | socketClose _ _ _ _ _ _ _ _ _ hfd => exact .inl hfd
  | closeFd _ _ _ hfd => exact .inl hfd

theorem waiting_step {s s' : State} {a : Action} (hr : TableWf s.rg) (hb : Bounded s)
    (hw : Waiting s) (h : step s a = .ok s') : Waiting s' := by
  obtain ⟨_, hnext, hcp⟩ := bounded_step hr hb h
  have hwait : ∀ fd c, s'.rg.waiter fd = some c →
      s.rg.waiter fd = some c ∨ s.epollfd ≠ none ∧ c < s'.next := fun fd c hc =>
    (waiter_step hr h hc).imp id fun ⟨h₁, _, h₂, _⟩ => ⟨h₁, h₂⟩
  refine ⟨fun fd c hc => ?_, fun hn fd => ?_, fun hn => ?_⟩
  · rcases hwait fd c hc with hc | ⟨_, hlt⟩
    · exact (hw.fresh fd c hc).trans_le hnext
    · exact hlt
  · have hn' : s.epollfd = none := by
      rcases epollfd_step hb h with hfd | ⟨hne, _⟩
      · exact hfd ▸ hn
      · exact absurd hn hne
    by_contra hne
    obtain ⟨c, hc⟩ := Option.ne_none_iff_exists'.mp hne
    rcases hwait fd c hc with hc | ⟨hne', _⟩
    · simp [hw.idle hn' fd] at hc
    · exact hne' hn'
  · rcases epollfd_step hb h with hfd | ⟨_, hne⟩
    · rw [hfd]
      exact hw.uninit (hcp hn)
    · exact absurd hn hne

theorem waiting_of_reached {ok : State → Action → Prop} {s : State} (h : Reached ok s) :
    Waiting s := by
  refine h.invariant_of (fun s hs => ?_) fun s a s' hreach hw _ hstep =>
    waiting_step (tableWf_of_reached hreach) (bounded_of_reached hreach) hw hstep
  obtain ⟨_, _, _, _, rfl⟩ := hs
  exact ⟨fun fd c hc => by simp [initial, EventTable.initial, waiter] at hc, fun _ _ => rfl,
    fun _ => rfl⟩

end Phpco
