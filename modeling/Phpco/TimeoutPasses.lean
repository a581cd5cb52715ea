import Phpco.StackSteps
import Phpco.TimeoutQueue

/-!
# Passes over the timeout queue

Each `event_loop` on the C stack may be in the middle of a pass.  In every run
the links from `front` stay as they are once there are any, so that a pass
examines one reachable element after the other.
-/

namespace Phpco
open Except LinkedList Transition

/-- The elements examined by the current or last pass of the loops, by their height on the
C stack. -/
abbrev Examined := ℕ → List Ptr

def noteExamined (g : Examined) (s : State) (a : Action) : Examined :=
  match a, s.stack with
  | .loopStep _, .eventLoop l :: below =>
    match l.phase with
    | .batch [] _ => Function.update g below.length []
    | .timeouts _ (some q) _ =>
      match s.timeouts.link.nodes q with
      | some node => Function.update g below.length (g below.length ++ [node.data])
      | none => g
    | _ => g
  | _, _ => g

/-- Where a pass is in the queue `ns`, after it examined `examined`. -/
def PassAt (ns : List (Ptr × Ptr)) (examined : List Ptr) : LoopPhase → Prop
  | .timeouts _ q f => ∃ seen rest, ns = seen ++ rest ∧ q = rest.head?.map Prod.fst ∧
      f = seen.getLast?.map Prod.fst ∧ examined = seen.map Prod.snd
  | .expired _ q f => ∃ seen n rest, ns = seen ++ n :: rest ∧ q = n.1 ∧
      f = seen.getLast?.map Prod.fst ∧ examined = seen.map Prod.snd ++ [n.2]
  | _ => True

theorem passAt_timeouts_some {ns : List (Ptr × Ptr)} {examined : List Ptr} {now : ℤ} {q : Ptr}
    {f : Option Ptr} (h : PassAt ns examined (.timeouts now (some q) f)) :
    ∃ seen n rest, ns = seen ++ n :: rest ∧ q = n.1 ∧ f = seen.getLast?.map Prod.fst ∧
      examined = seen.map Prod.snd := by
  obtain ⟨seen, rest, hns, hq, hf, hex⟩ := h
  cases rest with
  | nil => cases hq
  | cons n rest => exact ⟨seen, n, rest, hns, Option.some.inj hq, hf, hex⟩

/-- The queue from `front` on is `ns`, and the passes over it are at its nodes. -/
structure Walk (s : State) (ns : List (Ptr × Ptr)) (g : Examined) : Prop where
  path : Path (cells s.timeouts.link) s.timeouts.link.front ns none
  rear : ns = [] → s.timeouts.link.rear = none
  fresh : ∀ a, s.timeouts.link.nodes a ≠ none → a < s.next
  freshElements : ∀ a, s.timeouts.elements a ≠ none → a < s.next
  elements : ∀ n ∈ ns, s.timeouts.elements n.2 ≠ none
  passes : ∀ l below, .eventLoop l :: below <:+ s.stack → PassAt ns (g below.length) l.phase
  onTop : ∀ l below now q f, .eventLoop l :: below <:+ s.stack → l.phase = .timeouts now q f →
    s.stack = .eventLoop l :: below

theorem walk_initial {s : State} (h : Initial s) (g : Examined) : Walk s [] g := by
  obtain ⟨_, _, _, _, rfl⟩ := h
  refine ⟨rfl, fun _ => rfl, by simp [initial, Timeouts.initial, initqueue],
    by simp [initial, Timeouts.initial], by simp, ?_, ?_⟩
  · intro l below hs
    simp [initial] at hs
  · intro l below now q f hs
    simp [initial] at hs

theorem Walk.emptyqueue_iff {s : State} {ns : List (Ptr × Ptr)} {g : Examined} (h : Walk s ns g) :
    emptyqueue s.timeouts.link = true ↔ ns = [] := by
  rw [Phpco.emptyqueue_iff]
  constructor
  · rintro ⟨hf, _⟩
    cases ns with
    | nil => rfl
    | cons n ns =>
      have hp := h.path.1
      rw [hf] at hp
      cases hp
  · rintro rfl
    exact ⟨h.path, h.rear rfl⟩

/-- A removal frees the node, and the pass reads it again. -/
theorem reapTimeout_cases {s : State} {q : Ptr} {f : Option Ptr} {timeouts : Timeouts}
    {node' : Node} (h : reapTimeout s q f = .ok timeouts)
    (hnode' : timeouts.link.nodes q = some node') :
    ∃ node element, s.timeouts.link.nodes q = some node ∧
      s.timeouts.elements node.data = some element ∧ element.persistent = true ∧
      timeouts = { s.timeouts with
        elements := Function.update s.timeouts.elements node.data
          (some { element with lastTime := s.now }) } := by
  unfold reapTimeout at h
  obtain ⟨node, hnode, h⟩ := bind_eq_ok.mp h
  obtain ⟨element, hel, h⟩ := bind_eq_ok.mp h
  rw [deref_eq_ok] at hnode hel
  cases hpers : element.persistent with
  | true =>
    rw [hpers, if_pos rfl] at h
    cases h
    exact ⟨node, element, hnode, hel, hpers, by rw [hpers]⟩
  | false =>
    rw [hpers, if_neg (by decide)] at h
    obtain ⟨link, hrem, h⟩ := bind_eq_ok.mp h
    cases h
    cases (nodes_removeNode hrem).symm.trans hnode'

/-- How a step changes the queue: an element is pushed, or one that expired is counted afresh. -/
inductive QueueMove (s : State) (a : Action) (s' : State) : Prop
  | same : s'.timeouts = s.timeouts → isSetTimeout a = false → QueueMove s a s'
  | push (site : CallSite) (obj : Zval) (garbage timeout : ℤ) (persistent : Bool) :
      a = .socketSetTimeout site obj garbage timeout persistent → phpRuns s →
      s'.stack = s.stack → s'.next = s.next + 3 → s'.now = s.now →
      s'.timeouts = s.timeouts.push ⟨cConvertToFd obj garbage, toInt timeout, s.now, persistent⟩
        (s.next + 1) (s.next + 2) → QueueMove s a s'
  | counts (answer : Zval) (l : EventLoop) (below : List CFrame) (now : ℤ) (q : Ptr)
      (f : Option Ptr) (node : Node) (element : TimeoutElement) : a = .loopStep answer →
      s.stack = .eventLoop l :: below → l.phase = .expired now q f →
      s.timeouts.link.nodes q = some node → s.timeouts.elements node.data = some element →
      element.persistent = true → s'.now = s.now → s'.timeouts = { s.timeouts with
        elements := Function.update s.timeouts.elements node.data
          (some { element with lastTime := s.now }) } → QueueMove s a s'

theorem queueMove {s s' : State} {a : Action} (h : step s a = .ok s') : QueueMove s a s' := by
  cases timeMove h with
  | same hsame =>
    refine .same hsame.timeouts ?_
    cases a with
    | socketSetTimeout site obj garbage timeout persistent =>
      -- the queue has one more node
      rw [step_eq_phpStep (phpRuns_of_step rfl h) rfl] at h
      cases h
      have hsize := congrArg (fun t => t.link.size) hsame.timeouts
      change (pushqueue s.timeouts.link _ _).size = s.timeouts.link.size at hsize
      rw [size_pushqueue] at hsize
      omega
    | _ => rfl
  | tick now clock ha _ hs =>
    subst hs
    exact .same rfl (by rw [ha]; rfl)
  | push site obj garbage timeout persistent ha hphp hs =>
    subst hs
    exact .push site obj garbage timeout persistent ha hphp rfl rfl rfl rfl
  | reap answer l stack now q f timeouts node ha hs hp hreap hnode hs' =>
    obtain ⟨node', element, hnode', hel, hpers, rfl⟩ := reapTimeout_cases hreap hnode
    subst hs'
    exact .counts answer l stack now q f node' element ha hs hp hnode' hel hpers rfl rfl

structure SameQueue (t t' : Timeouts) : Prop where
  link : t'.link = t.link
  elements : ∀ e, ∃ lastTime, t'.elements e =
    (t.elements e).map fun x => { x with lastTime := lastTime }

theorem SameQueue.refl (t : Timeouts) : SameQueue t t := by
  refine ⟨rfl, fun e => ?_⟩
  cases he : t.elements e with
  | none => exact ⟨0, rfl⟩
  | some x => exact ⟨x.lastTime, rfl⟩

theorem sameQueue_counts {t : Timeouts} {e : Ptr} {x : TimeoutElement}
    (h : t.elements e = some x) (now : ℤ) :
    SameQueue t { t with
      elements := Function.update t.elements e (some { x with lastTime := now }) } := by
  refine ⟨rfl, fun e' => ?_⟩
  by_cases he : e' = e
  · exact ⟨now, by simp [he, h]⟩
  · obtain ⟨lastTime, hsame⟩ := (SameQueue.refl t).elements e'
    exact ⟨lastTime, by simpa [he] using hsame⟩

theorem SameQueue.elements_ne_none {t t' : Timeouts} (h : SameQueue t t') (e : Ptr) :
    t'.elements e ≠ none ↔ t.elements e ≠ none := by
  obtain ⟨lastTime, he⟩ := h.elements e
  simp [he]

theorem sameQueue_step {s s' : State} {a : Action} (h : step s a = .ok s')
    (ha : isSetTimeout a = false) : SameQueue s.timeouts s'.timeouts := by
  cases queueMove h with
  | same ht _ =>
    rw [ht]
    exact .refl _
  | push _ _ _ _ _ ha' =>
    rw [ha'] at ha
    cases ha
  | counts _ _ _ _ _ _ node element _ _ _ _ hel _ _ ht =>
    rw [ht]
    exact sameQueue_counts hel s.now

theorem noteExamined_of_ne {g : Examined} {s : State} {a : Action}
    (ha : ∀ answer, a ≠ .loopStep answer) : noteExamined g s a = g := by
  cases a with
  | loopStep answer => exact absurd rfl (ha answer)
  | _ => rfl

/-- Only the loop on top examines elements. -/
theorem noteExamined_below {g : Examined} {s : State} {l : EventLoop} {below : List CFrame}
    (hs : s.stack = .eventLoop l :: below) (a : Action) {d : ℕ} (hd : d < below.length) :
    noteExamined g s a d = g d := by
  have hne : d ≠ below.length := by omega
  obtain ⟨frame, phase, test⟩ := l
  unfold noteExamined
  rw [hs]
  cases a with
  | loopStep answer =>
    cases phase with
    | wait => rfl
    | batch events since =>
      cases events with
      | nil => exact Function.update_of_ne hne _ _
      | cons e events => rfl
    | timeouts now q f =>
      cases q with
      | none => rfl
      | some q =>
        cases hq : s.timeouts.link.nodes q with
        | none => simp [hq]
        | some node => simp [hq, hne]
    | expired now q f => rfl
  | _ => rfl

theorem length_lt_of_suffix {l : EventLoop} {below rest : List CFrame}
    (h : .eventLoop l :: below <:+ rest) : below.length < rest.length := by
  have hlen := h.length_le
  rw [List.length_cons] at hlen
  omega

theorem passAt_step {s s' : State} {a : Action} {l l' : EventLoop} {below : List CFrame}
    {ns : List (Ptr × Ptr)} {g : Examined} (h : Walk s ns g) (hs : s.stack = .eventLoop l :: below)
    (hp : PhaseStep s a l l' s') :
    PassAt ns (noteExamined g s a below.length) l'.phase := by
  have hat := h.passes l below (by rw [hs])
  cases hp with
  | reported batch _ _ _ hl' =>
    rw [hl']
    trivial
  | takes answer e events since _ _ hl' =>
    rw [hl']
    trivial
  | passBegins answer since ha hl hl' =>
    rw [hl']
    refine ⟨[], ns, rfl, h.path.front_eq, rfl, ?_⟩
    simp [noteExamined, ha, hs, hl]
  | passEnds answer now f _ _ hl' =>
    rw [hl']
    trivial
  | passesOver answer now q f node element ha hl hnode hel _ hl' =>
    rw [hl] at hat
    rw [hl']
    obtain ⟨seen, n, rest, rfl, rfl, hf, hex⟩ := passAt_timeouts_some hat
    obtain ⟨hdata, hnext⟩ := h.path.cell_eq (cells_of_nodes hnode)
    refine ⟨seen ++ [n], rest, by simp, hnext, by simp, ?_⟩
    simp [noteExamined, ha, hs, hl, hnode, hex, hdata]
  | fires answer now q f node element ha hl hnode hel _ hl' =>
    rw [hl] at hat
    rw [hl']
    obtain ⟨seen, n, rest, rfl, rfl, hf, hex⟩ := passAt_timeouts_some hat
    obtain ⟨hdata, _⟩ := h.path.cell_eq (cells_of_nodes hnode)
    refine ⟨seen, n, rest, rfl, rfl, hf, ?_⟩
    simp [noteExamined, ha, hs, hl, hnode, hex, hdata]
  | reaps answer now q f timeouts node ha hl hreap hnode _ hl' =>
    rw [hl] at hat
    rw [hl']
    obtain ⟨seen, n, rest, rfl, rfl, hf, hex⟩ := hat
    obtain ⟨_, _, _, _, _, rfl⟩ := reapTimeout_cases hreap hnode
    obtain ⟨_, hnext⟩ := h.path.cell_eq (cells_of_nodes hnode)
    refine ⟨seen ++ [n], rest, by simp, hnext, by simp, ?_⟩
    simp [noteExamined, ha, hs, hl, hex]

theorem passes_step {ok : State → Action → Prop} {s s' : State} {a : Action}
    {ns : List (Ptr × Ptr)} {g : Examined} (hreach : Reached ok s) (h : Walk s ns g)
    (hstep : step s a = .ok s') {l : EventLoop} {below : List CFrame}
    (hl : .eventLoop l :: below <:+ s'.stack) :
    PassAt ns (noteExamined g s a below.length) l.phase ∧
      ∀ now q f, l.phase = .timeouts now q f → s'.stack = .eventLoop l :: below := by
  cases stackMove hreach hstep with
  | same ha hs =>
    rw [hs] at hl ⊢
    rw [noteExamined_of_ne ha]
    exact ⟨h.passes l below hl, fun now q f => h.onTop l below now q f hl⟩
  | push x ha hphp hs =>
    rw [hs] at hl
    rcases List.suffix_cons_iff.mp hl with heq | hl
    · cases heq
    · rw [noteExamined_of_ne ha]
      refine ⟨h.passes l below hl, fun now q f hp => ?_⟩
      exact absurd (h.onTop l below now q f hl hp) (hphp l below)
  | enter l' ha hphp hp' hs =>
    rw [hs] at hl
    rw [noteExamined_of_ne ha]
    rcases List.suffix_cons_iff.mp hl with heq | hl
    · cases heq
      rw [hp']
      exact ⟨trivial, by simp⟩
    · refine ⟨h.passes l below hl, fun now q f hp => ?_⟩
      exact absurd (h.onTop l below now q f hl hp) (hphp l below)
  | pop x ha hs =>
    have hl₀ : .eventLoop l :: below <:+ s.stack := hs ▸ hl.trans (List.suffix_cons _ _)
    rw [noteExamined_of_ne ha]
    refine ⟨h.passes l below hl₀, fun now q f hp => ?_⟩
    cases hs.symm.trans (h.onTop l below now q f hl₀ hp)
  | loop l₀ l' below₀ hs hp hs' =>
    have hbelow : .eventLoop l :: below <:+ below₀ →
        PassAt ns (noteExamined g s a below.length) l.phase ∧
          ∀ now q f, l.phase = .timeouts now q f → s'.stack = .eventLoop l :: below := by
      intro hl₀
      have hlt := length_lt_of_suffix hl₀
      have hl₁ : .eventLoop l :: below <:+ s.stack := hs ▸ hl₀.trans (List.suffix_cons _ _)
      rw [noteExamined_below hs a hlt]
      refine ⟨h.passes l below hl₁, fun now q f hphase => ?_⟩
      have heq := h.onTop l below now q f hl₁ hphase
      rw [hs] at heq
      cases heq
      exact absurd hlt (lt_irrefl _)
    have htop : PassAt ns (noteExamined g s a below₀.length) l'.phase := passAt_step h hs hp
    rcases hs' with hs' | ⟨hphase, x, hs'⟩
    · rw [hs'] at hl
      rcases List.suffix_cons_iff.mp hl with heq | hl
      · cases heq
        exact ⟨htop, fun _ _ _ _ => hs'⟩
      · exact hbelow hl
    · rw [hs'] at hl
      rcases List.suffix_cons_iff.mp hl with heq | hl
      · cases heq
      · rcases List.suffix_cons_iff.mp hl with heq | hl
        · cases heq
          exact ⟨htop, fun now q f hp' => absurd hp' (hphase now q f)⟩
        · exact hbelow hl
  | leave l₀ hs hp =>
    have hl₀ : .eventLoop l :: below <:+ s.stack := hs ▸ hl.trans (List.suffix_cons _ _)
    rw [noteExamined_below hs a (length_lt_of_suffix hl)]
    refine ⟨h.passes l below hl₀, fun now q f hphase => ?_⟩
    have heq := h.onTop l below now q f hl₀ hphase
    rw [hs] at heq
    cases heq
    exact absurd (length_lt_of_suffix hl) (lt_irrefl _)

theorem PassAt.of_nil {examined : List Ptr} {phase : LoopPhase} (h : PassAt [] examined phase)
    (hp : ∀ now q f, phase ≠ .timeouts now q f) (ns : List (Ptr × Ptr)) :
    PassAt ns examined phase := by
  cases phase with
  | wait => trivial
  | batch events since => trivial
  | timeouts now q f => exact absurd rfl (hp now q f)
  | expired now q f =>
    obtain ⟨seen, n, rest, hns, _⟩ := h
    simp at hns

theorem Walk.kept {s s' : State} {ns : List (Ptr × Ptr)} {g g' : Examined} (h : Walk s ns g)
    (hsame : SameQueue s.timeouts s'.timeouts) (hnext : s.next ≤ s'.next)
    (hpasses : ∀ l below, .eventLoop l :: below <:+ s'.stack → PassAt ns (g' below.length) l.phase ∧
      ∀ now q f, l.phase = .timeouts now q f → s'.stack = .eventLoop l :: below) :
    Walk s' ns g' where
  path := by
    rw [hsame.link]
    exact h.path
  rear := by
    rw [hsame.link]
    exact h.rear
  fresh := by
    rw [hsame.link]
    exact fun n hn => (h.fresh n hn).trans_le hnext
  freshElements e he := (h.freshElements e ((hsame.elements_ne_none e).mp he)).trans_le hnext
  elements n hn := (hsame.elements_ne_none n.2).mpr (h.elements n hn)
  passes l below hl := (hpasses l below hl).1
  onTop l below now q f hl := (hpasses l below hl).2 now q f

/-- The reachable nodes stay, but for the first push. -/
theorem walk_step {ok : State → Action → Prop} {s s' : State} {a : Action}
    {ns : List (Ptr × Ptr)} {g : Examined} (hreach : Reached ok s) (h : Walk s ns g)
    (hstep : step s a = .ok s') :
    ∃ ns', Walk s' ns' (noteExamined g s a) ∧
      (ns' = ns ∨ isSetTimeout a = true ∧ ns = [] ∧ ns' = [(s.next + 2, s.next + 1)]) := by
  have hpasses : ∀ l below, .eventLoop l :: below <:+ s'.stack →
      PassAt ns (noteExamined g s a below.length) l.phase ∧
        ∀ now q f, l.phase = .timeouts now q f → s'.stack = .eventLoop l :: below :=
    fun l below hl => passes_step hreach h hstep hl
  have hnext := (bounded_step (tableWf_of_reached hreach) (bounded_of_reached hreach) hstep).2.1
  cases queueMove hstep with
  | same _ ha => exact ⟨ns, h.kept (sameQueue_step hstep ha) hnext hpasses, .inl rfl⟩
  | counts answer _ _ _ _ _ _ _ ha =>
    have hsame : SameQueue s.timeouts s'.timeouts := sameQueue_step hstep (by rw [ha]; rfl)
    exact ⟨ns, h.kept hsame hnext hpasses, .inl rfl⟩
  | push site obj garbage timeout persistent ha hphp hstack hnext' _ ht =>
    have hlink : s'.timeouts.link = pushqueue s.timeouts.link (s.next + 2) (s.next + 1) := by
      rw [ht]
      rfl
    have hlt : ∀ n, n < s.next → n < s'.next := fun n hn => hn.trans_le hnext
    have hfresh : ∀ n, s'.timeouts.link.nodes n ≠ none → n < s'.next := by
      intro n hn
      rw [hlink, nodes_pushqueue] at hn
      by_cases hnq : n = s.next + 2
      · rw [hnq, hnext']
        exact Nat.lt_succ_self _
      · rw [Function.update_of_ne hnq] at hn
        exact hlt n (h.fresh n hn)
    have hels : ∀ e, s'.timeouts.elements e ≠ none ↔
        s.timeouts.elements e ≠ none ∨ e = s.next + 1 := by
      intro e
      rw [ht]
      show Function.update s.timeouts.elements (s.next + 1) _ e ≠ none ↔ _
      by_cases hes : e = s.next + 1
      · simp [hes]
      · rw [Function.update_of_ne hes]
        simp [hes]
    have hfreshEls : ∀ e, s'.timeouts.elements e ≠ none → e < s'.next := by
      intro e he
      rcases (hels e).mp he with he | he
      · exact hlt e (h.freshElements e he)
      · rw [he, hnext']
        exact Nat.lt_add_of_pos_right (n := s.next + 1) (k := 2) (by decide)
    have hphase : ∀ l below, .eventLoop l :: below <:+ s'.stack → ∀ now q f,
        l.phase ≠ .timeouts now q f := by
      intro l below hl now q f hp
      have htop := (hpasses l below hl).2 now q f hp
      rw [hstack] at htop
      exact hphp l below htop
    have honTop : ∀ l below now q f, .eventLoop l :: below <:+ s'.stack →
        l.phase = .timeouts now q f → s'.stack = .eventLoop l :: below :=
      fun l below now q f hl hp => absurd hp (hphase l below hl now q f)
    by_cases hempty : emptyqueue s.timeouts.link = true
    · obtain rfl := h.emptyqueue_iff.mp hempty
      obtain ⟨hfront, hrear⟩ := pushqueue_of_empty (s.next + 2) (s.next + 1) hempty
      refine ⟨_, ⟨?_, by simp, hfresh, hfreshEls, ?_, fun l below hl => ?_, honTop⟩,
        .inr ⟨by rw [ha]; rfl, rfl, rfl⟩⟩
      · rw [hlink, hfront, cells_pushqueue]
        exact queue_singleton.path
      · intro n hn
        rw [List.mem_singleton.mp hn]
        exact (hels _).mpr (.inr rfl)
      · exact (hpasses l below hl).1.of_nil (hphase l below hl) _
    · have hne : ns ≠ [] := fun hnil => hempty (h.emptyqueue_iff.mpr hnil)
      have hnone : s.timeouts.link.nodes (s.next + 2) = none := by
        by_contra hsome
        exact absurd (h.fresh _ hsome) (Nat.not_lt.mpr (Nat.le_add_right _ 2))
      refine ⟨ns, ⟨?_, fun hnil => absurd hnil hne, hfresh, hfreshEls,
        fun n hn => (hels _).mpr (.inl (h.elements n hn)), fun l below hl => (hpasses l below hl).1,
        honTop⟩, .inl rfl⟩
      rw [hlink]
      exact path_pushqueue _ h.path (Bool.eq_false_iff.mpr hempty) hnone

end Phpco
