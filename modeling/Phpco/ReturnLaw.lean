import Mathlib.Algebra.GroupWithZero.Nat
import Mathlib.Data.Prod.Lex
import Phpco.SafetyLaw
import Phpco.Termination

/-!
# `event_loop` returns

In a careful run the main program gets back control if only the coroutines that are
switched to return and finish: `event_loop` calls `epoll_wait` 1000 times at most, and
what it does between two calls is bounded by the batch and by the timeout queue.
-/

namespace Phpco
open Except LinkedList Transition

/-- PHP code returns from its functions and coroutines finish, and `event_loop` goes on. -/
def goesBack : Action → Bool
  | .ret => true
  | .finish => true
  | .epollWait _ => true
  | .loopStep _ => true
  | _ => false

def isTick : Action → Bool
  | .tick _ _ => true
  | _ => false

/-- Moreover time passes, the main program calls `event_loop`, and someone resumes a coroutine. -/
def windsDown : Action → Bool
  | .tick _ _ => true
  | .eventLoop _ => true
  | .resume _ _ => true
  | a => goesBack a

variable {s s' : State} {a : Action} {ns : List (Ptr × Ptr)} {g : Examined}

def nodesLeft (ns : List (Ptr × Ptr)) : Option Ptr → ℕ
  | none => 0
  | some q => ns.length - (ns.map Prod.fst).idxOf q

def roundSteps (ns : List (Ptr × Ptr)) : ℕ := defaultMaxEvent + 2 * ns.length + 3

def EventLoop.stepsLeft (ns : List (Ptr × Ptr)) (l : EventLoop) : ℕ :=
  match l.phase with
  | .wait => (1000 - l.test) * roundSteps ns + 1
  | .batch events _ => (1000 - (l.test + 1)) * roundSteps ns + events.length + 2 * ns.length + 3
  | .timeouts _ q _ => (1000 - (l.test + 1)) * roundSteps ns + 2 * nodesLeft ns q + 2
  | .expired _ q _ => (1000 - (l.test + 1)) * roundSteps ns + 2 * nodesLeft ns (some q) + 1

def loopSteps (ns : List (Ptr × Ptr)) (stack : List CFrame) : ℕ :=
  ((loops stack).map (EventLoop.stepsLeft ns)).sum

/-- The steps of `event_loop`, then the activations, then the frames of the PHP code. -/
def rank (ns : List (Ptr × Ptr)) (s : State) : ℕ ×ₗ ℕ ×ₗ ℕ :=
  toLex (loopSteps ns s.stack,
    toLex ((activations s.stack).length, s.eg.currentExecuteData.length))

theorem nodesLeft_append (seen rest : List (Ptr × Ptr))
    (h : ((seen ++ rest).map Prod.fst).Nodup) :
    nodesLeft (seen ++ rest) (rest.head?.map Prod.fst) = rest.length := by
  cases rest with
  | nil => rfl
  | cons n rest =>
    have hnot : n.1 ∉ seen.map Prod.fst := by
      rw [List.map_append, List.nodup_append] at h
      intro hmem
      exact h.2.2 n.1 hmem n.1 (by simp) rfl
    simp only [nodesLeft, List.head?_cons, Option.map_some, List.map_append, List.map_cons]
    rw [List.idxOf_append_of_notMem hnot, List.idxOf_cons_self, List.length_append, List.length_map]
    omega

@[simp] theorem loopSteps_cons_activation (x : Activation) (stack : List CFrame) :
    loopSteps ns (.activation x :: stack) = loopSteps ns stack := rfl

@[simp] theorem loopSteps_cons_eventLoop (l : EventLoop) (stack : List CFrame) :
    loopSteps ns (.eventLoop l :: stack) = l.stepsLeft ns + loopSteps ns stack := by
  simp [loopSteps]

/-- A round fits between two calls of `epoll_wait`. -/
theorem stepsLeft_batch_lt {l : EventLoop} {batch : List EpollEvent} {since : EventTable}
    (hp : l.phase = .wait) (htest : l.test < 1000) (hlen : batch.length ≤ defaultMaxEvent) :
    EventLoop.stepsLeft ns { l with phase := .batch batch since } < l.stepsLeft ns := by
  have hround : (1000 - l.test) * roundSteps ns =
      (1000 - (l.test + 1)) * roundSteps ns + roundSteps ns := by
    rw [← Nat.succ_mul]
    congr 1
    omega
  simp only [EventLoop.stepsLeft, hp, hround]
  rw [roundSteps]
  omega

theorem nodesLeft_next (h : Walk s ns g) {seen rest : List (Ptr × Ptr)} {n : Ptr × Ptr} {node : Node}
    (hns : ns = seen ++ n :: rest) (hnode : s.timeouts.link.nodes n.1 = some node) :
    nodesLeft ns (some n.1) = nodesLeft ns node.next + 1 := by
  subst hns
  have hnodup := h.path.nodup
  obtain ⟨_, hnext⟩ := h.path.cell_eq (cells_of_nodes hnode)
  have hhere := nodesLeft_append seen (n :: rest) hnodup
  have hthere := nodesLeft_append (seen ++ [n]) rest (by simpa using hnodup)
  rw [List.append_assoc, List.singleton_append, ← hnext] at hthere
  rw [hthere]
  exact hhere

/-- Each step of the loop leaves it less to do, or it has returned. -/
theorem loopSteps_loopStep (h : Walk s ns g) {l : EventLoop} {stack : List CFrame} {answer : Zval}
    (hs : s.stack = .eventLoop l :: stack) (hstep : LoopStep s l stack answer s') :
    loopSteps ns s'.stack < loopSteps ns s.stack := by
  have hat := h.passes l stack (by rw [hs])
  -- an invocation puts an activation on top of the loop
  have hinvoke : ∀ {u : State} {l' : EventLoop} {fd : ℤ}, u.stack = .eventLoop l' :: stack →
      aioInvoke u fd answer = .ok s' → l'.stepsLeft ns < l.stepsLeft ns →
        loopSteps ns s'.stack < loopSteps ns s.stack := by
    intro u l' fd hu hinv hlt
    rw [hs, loopSteps_cons_eventLoop]
    rcases stack_aioInvoke hinv with hs' | ⟨x, hs'⟩
    · rw [hs', hu, loopSteps_cons_eventLoop]
      omega
    · rw [hs', hu, loopSteps_cons_activation, loopSteps_cons_eventLoop]
      omega
  have hturn : ∀ {l' : EventLoop}, s'.stack = .eventLoop l' :: stack →
      l'.stepsLeft ns < l.stepsLeft ns → loopSteps ns s'.stack < loopSteps ns s.stack := by
    intro l' hs' hlt
    rw [hs, hs', loopSteps_cons_eventLoop, loopSteps_cons_eventLoop]
    omega
  cases hstep with
  | leaves hp _ hs' =>
    rw [hs, hs', loopSteps_cons_eventLoop]
    have hpos : 0 < l.stepsLeft ns := by
      rw [EventLoop.stepsLeft, hp]
      exact Nat.succ_pos _
    exact Nat.lt_add_of_pos_left hpos
  | passBegins since hp hs' =>
    apply hturn (congrArg State.stack hs')
    have hfront : nodesLeft ns s.timeouts.link.front = ns.length := by
      rw [h.path.front_eq]
      exact nodesLeft_append [] ns h.path.nodup
    simp only [EventLoop.stepsLeft, hp, hfront, List.length_nil]
    omega
  | skips e events since hp _ hs' =>
    apply hturn (congrArg State.stack hs')
    simp only [EventLoop.stepsLeft, hp, List.length_cons]
    omega
  | dispatches e events since hp _ hinv =>
    apply hinvoke rfl hinv
    simp only [EventLoop.stepsLeft, hp, List.length_cons]
    omega
  | passEnds now f hp hs' =>
    apply hturn (congrArg State.stack hs')
    simp only [EventLoop.stepsLeft, hp, nodesLeft]
    omega
  | passesOver now q f node element hp hnode _ _ hs' =>
    rw [hp] at hat
    obtain ⟨seen, n, rest, hns, rfl, _⟩ := passAt_timeouts_some hat
    apply hturn (congrArg State.stack hs')
    simp only [EventLoop.stepsLeft, hp, nodesLeft_next h hns hnode]
    omega
  | fires now q f node element hp _ _ _ hinv =>
    apply hinvoke rfl hinv
    simp only [EventLoop.stepsLeft, hp]
    omega
  | reaps now q f timeouts node hp hreap hnode hs' =>
    rw [hp] at hat
    obtain ⟨seen, n, rest, hns, rfl, _⟩ := hat
    obtain ⟨_, _, _, _, _, rfl⟩ := reapTimeout_cases hreap hnode
    apply hturn (congrArg State.stack hs')
    simp only [EventLoop.stepsLeft, hp, nodesLeft_next h hns hnode]
    omega

theorem rank_lt_of_loopSteps (h : loopSteps ns s'.stack < loopSteps ns s.stack) :
    rank ns s' < rank ns s :=
  Prod.Lex.toLex_lt_toLex.mpr (.inl h)

/-- A coroutine that finishes, or a function that returns. -/
theorem rank_lt_of_returns (hloops : loops s'.stack = loops s.stack)
    (h : (activations s'.stack).length < (activations s.stack).length ∨
      (activations s'.stack).length = (activations s.stack).length ∧
        s'.eg.currentExecuteData.length < s.eg.currentExecuteData.length) :
    rank ns s' < rank ns s := by
  refine Prod.Lex.toLex_lt_toLex.mpr (.inr ⟨?_, Prod.Lex.toLex_lt_toLex.mpr h⟩)
  simp only [loopSteps, hloops]

theorem epollWait_cases {batch : List EpollEvent} (h : step s (.epollWait batch) = .ok s') :
    ∃ l stack, s.stack = .eventLoop l :: stack ∧ l.phase = .wait ∧ l.test < 1000 ∧
      mayReturn s batch ∧ s' = setPhase s l stack (.batch batch s.rg) := by
  simp only [step] at h
  split at h
  · next frame test stack hs =>
    obtain ⟨_, hcheck, h⟩ := bind_eq_ok.mp h
    cases h
    obtain ⟨htest, hbatch⟩ := check_eq_ok.mp hcheck
    exact ⟨_, stack, hs, rfl, htest, hbatch, rfl⟩
  · cases h

theorem rank_goesBack (h : Walk s ns g) (ha : goesBack a = true) (hstep : step s a = .ok s') :
    rank ns s' < rank ns s := by
  cases a with
  | ret =>
    rw [step_eq_phpStep (phpRuns_of_step rfl hstep) rfl] at hstep
    obtain ⟨o, ho, hset⟩ := bind_eq_ok.mp hstep
    cases phpStep_cases rfl ho with
    | ret call caller rest hex =>
      cases hset
      exact rank_lt_of_returns rfl (.inr ⟨rfl, by simp [hex]⟩)
  | finish =>
    rw [step_eq_phpStep (phpRuns_of_step rfl hstep) rfl] at hstep
    obtain ⟨o, ho, hset⟩ := bind_eq_ok.mp hstep
    cases phpStep_cases rfl ho with
    | finish x stack base s₁ s₂ hstack _ hc hret =>
      cases hset
      obtain ⟨_, _, _, _, _, _, hs₁⟩ := coroClose_eq_ok.mp hc
      have hs' : s'.stack = stack := by
        rw [(returnFrom_cases (by decide) hret).1, hs₁]
      exact rank_lt_of_returns (by rw [hs', hstack]; rfl) (.inl (by simp [hs', hstack]))
  | epollWait batch =>
    obtain ⟨l, stack, hs, hp, htest, hbatch, rfl⟩ := epollWait_cases hstep
    apply rank_lt_of_loopSteps
    rw [hs]
    simp only [setPhase, loopSteps_cons_eventLoop]
    exact Nat.add_lt_add_right (stepsLeft_batch_lt hp htest hbatch.1) _
  | loopStep answer =>
    simp only [step] at hstep
    split at hstep
    · next l stack hs => exact rank_lt_of_loopSteps (loopSteps_loopStep h hs (eventLoopStep_cases hstep))
    · cases hstep
  | _ => cases ha

theorem careful_of_goesBack (s : State) (ha : goesBack a = true ∨ isTick a = true) :
    Careful s a := by
  have hnone : needsCoroutine a = false ∧ usesIndex a = false := by
    cases a with
    | ret => exact ⟨rfl, rfl⟩
    | finish => exact ⟨rfl, rfl⟩
    | epollWait batch => exact ⟨rfl, rfl⟩
    | loopStep answer => exact ⟨rfl, rfl⟩
    | tick now clock => exact ⟨rfl, rfl⟩
    | _ => rcases ha with ha | ha <;> cases ha
  obtain ⟨hneeds, hindex⟩ := hnone
  constructor
  case room =>
    refine ⟨⟨?_, ?_, ?_⟩, ?_⟩
    · rintro site rfl
      rcases ha with ha | ha <;> cases ha
    · rintro site arg rfl
      rcases ha with ha | ha <;> cases ha
    · rintro site slots callback rfl
      rcases ha with ha | ha <;> cases ha
    · rintro site slots callback rfl
      rcases ha with ha | ha <;> cases ha
  case inside =>
    intro h
    rw [hneeds] at h
    cases h
  case index =>
    intro h
    rw [hindex] at h
    cases h
  case events =>
    intro q addOk event c hq
    rw [needsCoroutine_of_isIo (isIo_of_ioRequest hq)] at hneeds
    cases hneeds
  case unused =>
    rintro site rfl
    cases hneeds
  case persistent =>
    rintro site obj garbage timeout persistent rfl
    cases hindex

/-- While the queue is the list `ns`, the steps of these kinds bring the rank down. -/
theorem descends (ns : List (Ptr × Ptr)) : Descends step (fun a => isTick a = true)
    (fun a => goesBack a = true) (fun s => Reached Careful s ∧ ∃ g, Walk s ns g) (rank ns) where
  keeps := by
    rintro s a s' ⟨hreach, g, hw⟩ ha hstep
    refine ⟨hreach.next (careful_of_goesBack s ha.symm) hstep, ?_⟩
    obtain ⟨ns', hw', rfl | ⟨hset, _⟩⟩ := walk_step hreach hw hstep
    · exact ⟨_, hw'⟩
    · cases a with
      | socketSetTimeout _ _ _ _ _ => rcases ha with ha | ha <;> cases ha
      | _ => cases hset
  idle := by
    rintro s a s' _ ha hstep
    cases a with
    | tick now clock =>
      obtain ⟨_, _, h⟩ := bind_eq_ok.mp hstep
      cases h
      rfl
    | _ => cases ha
  falls := by
    rintro s a s' ⟨_, g, hw⟩ ha hstep
    exact rank_goesBack hw ha hstep

/-- While the main program is not in control, there is such a step. -/
theorem exists_goesBack (hreach : Reached Careful s) (hne : s.stack ≠ []) :
    ∃ a s', goesBack a = true ∧ step s a = .ok s' := by
  have h := safe_of_reached hreach
  have hgo : ∀ a, goesBack a = true → Offered s a → ∃ a s', goesBack a = true ∧ step s a = .ok s' := by
    intro a ha ho
    obtain ⟨s', hstep⟩ := step_of_offered h (tableWf_of_reached hreach)
      (careful_of_goesBack s (.inl ha)) ho
    exact ⟨a, s', ha, hstep⟩
  obtain ⟨f, stack, hs⟩ := List.exists_cons_of_ne_nil hne
  cases f with
  | activation x =>
    have hphp : phpRuns s := by
      intro l below hl
      rw [hs] at hl
      cases hl
    have hin : activations s.stack ≠ [] := by simp [hs]
    rcases hex : s.eg.currentExecuteData with _ | ⟨call, _ | ⟨caller, frames⟩⟩
    · exact absurd hex (h.framed.running hphp)
    · exact hgo .finish rfl ⟨hphp, hin, by simp [hex]⟩
    · exact hgo .ret rfl ⟨hphp, by simp [hex]⟩
  | eventLoop l =>
    by_cases hwait : l.phase = .wait ∧ l.test < 1000
    · -- `epoll_wait` may time out
      have hbatch : mayReturn s [] := ⟨Nat.zero_le _, List.nodup_nil, by simp⟩
      exact hgo (.epollWait []) rfl ⟨⟨l, stack, hs, hwait.1, hwait.2⟩, hbatch⟩
    · refine hgo (.loopStep .null) rfl ⟨l, stack, hs, fun hp => ?_⟩
      exact Nat.not_lt.mp fun htest => hwait ⟨hp, htest⟩

theorem ends_of_reached (hreach : Reached Careful s) :
    Ends step (fun a => isTick a = true) (fun a => goesBack a = true) s := by
  obtain ⟨ns, g, hw⟩ := (safe_of_reached hreach).walk
  exact (descends ns).ends ⟨hreach, g, hw⟩

theorem exists_main (hreach : Reached Careful s) :
    ∃ s', Reachable step (fun u => u = s) (fun _ a => goesBack a = true) s' ∧ s'.stack = [] := by
  obtain ⟨s', hrun, _, hs'⟩ := (ends_of_reached hreach).exists_final hreach
    (fun s a s' h _ ha hstep => h.next (careful_of_goesBack s (.inl ha)) hstep)
    (fun s h hne => exists_goesBack h hne)
  exact ⟨s', hrun, hs'⟩

/-- From every state of a careful run, whatever is reported and whatever time it is: the steps
in which coroutines only return and finish and `event_loop` goes on come to an end, there is one
as long as the main program is not in control, and so it gets back control. -/
theorem main_regains_control (hreach : Reached Careful s) :
    Ends step (fun a => isTick a = true) (fun a => goesBack a = true) s ∧
    (s.stack ≠ [] → ∃ a s', goesBack a = true ∧ step s a = .ok s') ∧
    ∃ s', Reachable step (fun u => u = s) (fun _ a => goesBack a = true) s' ∧ s'.stack = [] :=
  ⟨ends_of_reached hreach, exists_goesBack hreach, exists_main hreach⟩

theorem main_regains_control_invoked : ∃ s s', runFrom step (initial 0 0) carefulRun = .ok s ∧
    s.stack.length = 2 ∧ Reachable step (fun u => u = s) (fun _ a => goesBack a = true) s' ∧
    s'.stack = [] := by
  obtain ⟨s, hrun, hs, hp⟩ := exists_reached_of _ careful_of_test carefulRun
    (fun s => s.stack.length = 2) (by decide +kernel)
  obtain ⟨_, _, s', hback, hstack⟩ := main_regains_control hs
  exact ⟨s, s', hrun, of_decide_eq_true hp, hback, hstack⟩

end Phpco
