import Phpco.Simulation
import Mathlib.Data.List.Nodup
import Mathlib.Data.List.Perm.Basic

/-!
# Cooperative tasks

What a scheduler of cooperative tasks is for.  Tasks run one inside the other,
and only the innermost one goes on: it may spawn or wake another task, which then
runs inside it, park itself under a key that nobody waits under, or finish.
Nothing is said about what the keys are.
-/

namespace Coop
open Transition

variable {τ κ : Type*}

inductive Event (τ κ : Type*)
  | spawn (t : τ)
  | park (t : τ) (k : κ)
  | wake (t : τ) (k : κ)
  | finish (t : τ)

def Event.task : Event τ κ → τ
  | .spawn t => t
  | .park t _ => t
  | .wake t _ => t
  | .finish t => t

/-- The tasks that run, the innermost one first, the one that waits under each key,
and those that are over. -/
structure State (τ κ : Type*) where
  active : List τ
  parked : κ → Option τ
  finished : List τ

def idle : State τ κ := ⟨[], fun _ => none, []⟩

structure State.Fresh (s : State τ κ) (t : τ) : Prop where
  active : t ∉ s.active
  parked : ∀ k, s.parked k ≠ some t
  finished : t ∉ s.finished

inductive Phase (κ : Type*)
  | absent
  | running
  | waiting (k : κ)
  | done
  deriving DecidableEq

/-- Each task is where `φ` says, and nowhere else. -/
structure Follows (φ : τ → Phase κ) (s : State τ κ) : Prop where
  active : ∀ t, t ∈ s.active ↔ φ t = .running
  parked : ∀ k t, s.parked k = some t ↔ φ t = .waiting k
  finished : ∀ t, t ∈ s.finished ↔ φ t = .done
  activeNodup : s.active.Nodup
  finishedNodup : s.finished.Nodup

namespace Follows

variable {φ : τ → Phase κ} {s : State τ κ} {t : τ} {rest : List τ}

theorem fresh_iff (h : Follows φ s) : s.Fresh t ↔ φ t = .absent := by
  constructor
  · rintro ⟨ha, hp, hf⟩
    rw [h.active] at ha
    rw [h.finished] at hf
    cases hφ : φ t with
    | absent => rfl
    | running => exact absurd hφ ha
    | waiting k => exact absurd ((h.parked k t).mpr hφ) (hp k)
    | done => exact absurd hφ hf
  · intro hφ
    exact ⟨by simp [h.active, hφ], fun k => by simp [h.parked, hφ], by simp [h.finished, hφ]⟩

theorem head (h : Follows φ s) (hs : s.active = t :: rest) :
    φ t = .running ∧ t ∉ rest ∧ rest.Nodup ∧ ∀ t' ≠ t, t' ∈ rest ↔ φ t' = .running := by
  have hnd := h.activeNodup
  rw [hs, List.nodup_cons] at hnd
  refine ⟨?_, hnd.1, hnd.2, fun t' htt => ?_⟩
  · rw [← h.active, hs]
    exact List.mem_cons_self
  · rw [← h.active, hs, List.mem_cons]
    simp [htt]

end Follows

variable [DecidableEq κ]

inductive Step : State τ κ → Event τ κ → State τ κ → Prop
  | spawn {s : State τ κ} {t : τ} : s.Fresh t → Step s (.spawn t) { s with active := t :: s.active }
  | park {s : State τ κ} {t : τ} {rest : List τ} {k : κ} : s.active = t :: rest →
      s.parked k = none → Step s (.park t k)
        { s with active := rest, parked := Function.update s.parked k (some t) }
  | wake {s : State τ κ} {t : τ} {k : κ} : s.parked k = some t → Step s (.wake t k)
      { s with active := t :: s.active, parked := Function.update s.parked k none }
  | finish {s : State τ κ} {t : τ} {rest : List τ} : s.active = t :: rest → Step s (.finish t)
      { s with active := rest, finished := t :: s.finished }

abbrev Run (es : List (Event τ κ)) (s : State τ κ) : Prop := Trace Step idle es s

/-- What happens leaves no choice of the next state. -/
theorem Step.unique {s u u' : State τ κ} {e : Event τ κ} (h : Step s e u) (h' : Step s e u') :
    u = u' := by
  cases h with
  | spawn _ =>
    cases h'
    rfl
  | park hs _ =>
    cases h' with
    | park hs' _ =>
      cases hs.symm.trans hs'
      rfl
  | wake _ =>
    cases h'
    rfl
  | finish hs =>
    cases h' with
    | finish hs' =>
      cases hs.symm.trans hs'
      rfl

/-- A task parks under a key that is free. -/
theorem Step.free_of_park {s s' : State τ κ} {t : τ} {k : κ} (h : Step s (.park t k) s') :
    s.parked k = none := by
  cases h with
  | park _ hk => exact hk

variable [DecidableEq τ]

def Event.apply (φ : τ → Phase κ) : Event τ κ → τ → Phase κ
  | .spawn t => Function.update φ t .running
  | .park t k => Function.update φ t (.waiting k)
  | .wake t _ => Function.update φ t .running
  | .finish t => Function.update φ t .done

def phase : List (Event τ κ) → τ → Phase κ
  | [] => fun _ => .absent
  | e :: es => e.apply (phase es)

section

variable {φ : τ → Phase κ} {s s' : State τ κ} {t : τ} {k : κ} {rest : List τ} {e : Event τ κ}

omit [DecidableEq κ] in
theorem Follows.spawn (h : Follows φ s) (ht : s.Fresh t) :
    Follows (Event.apply φ (.spawn t)) { s with active := t :: s.active } := by
  have hφ := h.fresh_iff.mp ht
  constructor
  case active =>
    intro t'
    by_cases htt : t' = t <;> simp [Event.apply, htt, h.active]
  case parked =>
    intro k t'
    by_cases htt : t' = t <;> simp [Event.apply, htt, h.parked, hφ]
  case finished =>
    intro t'
    by_cases htt : t' = t <;> simp [Event.apply, htt, h.finished, hφ]
  case activeNodup => exact List.nodup_cons.mpr ⟨ht.active, h.activeNodup⟩
  case finishedNodup => exact h.finishedNodup

theorem Follows.park (h : Follows φ s) (hs : s.active = t :: rest) (hk : s.parked k = none) :
    Follows (Event.apply φ (.park t k))
      { s with active := rest, parked := Function.update s.parked k (some t) } := by
  obtain ⟨hφ, hnot, hnd, hrest⟩ := h.head hs
  constructor
  case active =>
    intro t'
    by_cases htt : t' = t
    · simp [Event.apply, htt, hnot]
    · simp [Event.apply, htt, hrest]
  case parked =>
    intro k' t'
    -- nobody waits under the key so far
    have hfree : φ t' ≠ .waiting k := by
      rw [ne_eq, ← h.parked, hk]
      simp
    by_cases htt : t' = t
    · by_cases hkk : k' = k
      · simp [Event.apply, htt, hkk]
      · simp [Event.apply, htt, hkk, h.parked, hφ, Ne.symm hkk]
    · by_cases hkk : k' = k
      · simp [Event.apply, htt, hkk, hfree, Ne.symm htt]
      · simp [Event.apply, htt, hkk, h.parked]
  case finished =>
    intro t'
    by_cases htt : t' = t <;> simp [Event.apply, htt, h.finished, hφ]
  case activeNodup => exact hnd
  case finishedNodup => exact h.finishedNodup

theorem Follows.wake (h : Follows φ s) (hk : s.parked k = some t) :
    Follows (Event.apply φ (.wake t k))
      { s with active := t :: s.active, parked := Function.update s.parked k none } := by
  have hφ := (h.parked k t).mp hk
  constructor
  case active =>
    intro t'
    by_cases htt : t' = t <;> simp [Event.apply, htt, h.active]
  case parked =>
    intro k' t'
    have hother : t' ≠ t → φ t' ≠ .waiting k := by
      rw [ne_eq (φ t'), ← h.parked, hk]
      intro hne heq
      exact hne (Option.some.inj heq).symm
    by_cases htt : t' = t
    · by_cases hkk : k' = k
      · simp [Event.apply, htt, hkk]
      · simp [Event.apply, htt, hkk, h.parked, hφ, Ne.symm hkk]
    · by_cases hkk : k' = k
      · simp [Event.apply, htt, hkk, hother htt]
      · simp [Event.apply, htt, hkk, h.parked]
  case finished =>
    intro t'
    by_cases htt : t' = t <;> simp [Event.apply, htt, h.finished, hφ]
  case activeNodup =>
    refine List.nodup_cons.mpr ⟨?_, h.activeNodup⟩
    rw [h.active, hφ]
    simp
  case finishedNodup => exact h.finishedNodup

omit [DecidableEq κ] in
theorem Follows.finish (h : Follows φ s) (hs : s.active = t :: rest) :
    Follows (Event.apply φ (.finish t))
      { s with active := rest, finished := t :: s.finished } := by
  obtain ⟨hφ, hnot, hnd, hrest⟩ := h.head hs
  constructor
  case active =>
    intro t'
    by_cases htt : t' = t
    · simp [Event.apply, htt, hnot]
    · simp [Event.apply, htt, hrest]
  case parked =>
    intro k t'
    by_cases htt : t' = t <;> simp [Event.apply, htt, h.parked, hφ]
  case finished =>
    intro t'
    by_cases htt : t' = t <;> simp [Event.apply, htt, h.finished]
  case activeNodup => exact hnd
  case finishedNodup =>
    refine List.nodup_cons.mpr ⟨?_, h.finishedNodup⟩
    rw [h.finished, hφ]
    simp

theorem Step.follows (h : Step s e s') (hs : Follows φ s) : Follows (e.apply φ) s' := by
  cases h with
  | spawn ht => exact hs.spawn ht
  | park hact hk => exact hs.park hact hk
  | wake hk => exact hs.wake hk
  | finish hact => exact hs.finish hact

end

variable {es : List (Event τ κ)} {s : State τ κ}

theorem Run.follows (h : Run es s) : Follows (phase es) s := by
  refine h.invariant (I := fun es s => Follows (phase es) s) ?_ fun _ _ _ _ hs hstep =>
    hstep.follows hs
  constructor <;> simp [idle, phase]

/-- The events of the task `t`, and where it is after them: it is spawned once, parks and is
woken under the same key any number of times, and finishes at most once, while it runs. -/
inductive Life (t : τ) : List (Event τ κ) → Phase κ → Prop
  | absent : Life t [] .absent
  | spawn : Life t [.spawn t] .running
  | park {es : List (Event τ κ)} {k : κ} : Life t es .running →
      Life t (.park t k :: es) (.waiting k)
  | wake {es : List (Event τ κ)} {k : κ} : Life t es (.waiting k) →
      Life t (.wake t k :: es) .running
  | finish {es : List (Event τ κ)} : Life t es .running → Life t (.finish t :: es) .done

def Event.Allowed (φ : τ → Phase κ) : Event τ κ → Prop
  | .spawn t => φ t = .absent
  | .park t _ => φ t = .running
  | .wake t k => φ t = .waiting k
  | .finish t => φ t = .running

inductive Lives : List (Event τ κ) → Prop
  | nil : Lives []
  | cons {es : List (Event τ κ)} {e : Event τ κ} : Lives es → e.Allowed (phase es) →
      Lives (e :: es)

omit [DecidableEq κ] in
theorem Event.apply_of_ne {φ : τ → Phase κ} {e : Event τ κ} {t : τ} (h : e.task ≠ t) :
    e.apply φ t = φ t := by
  cases e <;> exact Function.update_of_ne (Ne.symm h) _ _

omit [DecidableEq κ] in
/-- One event more of the task. -/
theorem Life.allowed {φ : τ → Phase κ} {e : Event τ κ} (h : Life e.task es (φ e.task))
    (he : e.Allowed φ) : Life e.task (e :: es) (e.apply φ e.task) := by
  cases e with
  | spawn t =>
    rw [show φ (Event.task (.spawn t)) = .absent from he] at h
    cases h
    simpa [Event.apply, Event.task] using Life.spawn
  | park t k =>
    rw [show φ (Event.task (.park t k)) = .running from he] at h
    simpa [Event.apply, Event.task] using h.park
  | wake t k =>
    rw [show φ (Event.task (.wake t k)) = .waiting k from he] at h
    simpa [Event.apply, Event.task] using h.wake
  | finish t =>
    rw [show φ (Event.task (.finish t)) = .running from he] at h
    simpa [Event.apply, Event.task] using h.finish

omit [DecidableEq κ] in
theorem Lives.life (h : Lives es) (t : τ) :
    Life t (es.filter fun e => e.task = t) (phase es t) := by
  induction h with
  | nil => exact .absent
  | @cons es e _ he ih =>
    by_cases ht : e.task = t
    · subst ht
      rw [List.filter_cons_of_pos (by simp)]
      exact ih.allowed he
    · rw [List.filter_cons_of_neg (by simpa using ht), phase, Event.apply_of_ne ht]
      exact ih

def spawned : List (Event τ κ) → List τ
  | [] => []
  | .spawn t :: es => t :: spawned es
  | _ :: es => spawned es

structure Waiting (s : State τ κ) (ps : List (κ × τ)) : Prop where
  nodup : ps.Nodup
  mem : ∀ k t, (k, t) ∈ ps ↔ s.parked k = some t

omit [DecidableEq τ] in
theorem Waiting.park {t : τ} {k : κ} {ps : List (κ × τ)} (h : Waiting s ps)
    (hk : s.parked k = none) (active finished : List τ) :
    Waiting ⟨active, Function.update s.parked k (some t), finished⟩ ((k, t) :: ps) where
  nodup := by
    refine List.nodup_cons.mpr ⟨?_, h.nodup⟩
    rw [h.mem, hk]
    simp
  mem := by
    intro k' t'
    by_cases hkk : k' = k
    · simp [hkk, h.mem, hk, eq_comm]
    · simp [hkk, h.mem]

theorem Waiting.wake {t : τ} {k : κ} {ps : List (κ × τ)} (h : Waiting s ps)
    (hk : s.parked k = some t) (active finished : List τ) :
    Waiting ⟨active, Function.update s.parked k none, finished⟩ (ps.erase (k, t)) where
  nodup := h.nodup.erase _
  mem := by
    intro k' t'
    rw [h.nodup.mem_erase_iff, h.mem]
    by_cases hkk : k' = k
    · simp only [hkk, hk, Function.update_self, ne_eq, Prod.mk.injEq, true_and, Option.some.injEq,
        reduceCtorEq, iff_false, not_and]
      exact fun h => Ne.symm h
    · simp [hkk]

/-- Every task spawned runs, waits or is over, and no other task does. -/
theorem Run.census (h : Run es s) : ∃ ps, Waiting s ps ∧
    (spawned es).Perm (s.active ++ (ps.map Prod.snd ++ s.finished)) := by
  refine h.invariant (I := fun es s => ∃ ps, Waiting s ps ∧
    (spawned es).Perm (s.active ++ (ps.map Prod.snd ++ s.finished))) ?_ ?_
  · exact ⟨[], ⟨.nil, by simp [idle]⟩, .refl _⟩
  · rintro es s e s' ⟨ps, hw, hp⟩ hstep
    cases hstep with
    | spawn _ => exact ⟨ps, ⟨hw.nodup, hw.mem⟩, hp.cons _⟩
    | park hact hk =>
      refine ⟨_, hw.park hk _ _, ?_⟩
      rw [hact] at hp
      exact hp.trans List.perm_middle.symm
    | @wake t k hk =>
      refine ⟨_, hw.wake hk _ _, hp.trans ?_⟩
      have hmem := ((List.perm_cons_erase ((hw.mem k t).mpr hk)).map Prod.snd).append_right s.finished
      exact (hmem.append_left s.active).trans List.perm_middle
    | finish hact =>
      refine ⟨ps, ⟨hw.nodup, hw.mem⟩, ?_⟩
      rw [hact] at hp
      refine hp.trans ?_
      simp only [← List.append_assoc]
      exact List.perm_middle.symm

section

variable {φ : τ → Phase κ} {ps : List (κ × τ)}

omit [DecidableEq κ] [DecidableEq τ] in
theorem Follows.mem_present (h : Follows φ s) (hw : Waiting s ps) (t : τ) :
    t ∈ s.active ++ ps.map Prod.snd ↔ φ t = .running ∨ ∃ k, φ t = .waiting k := by
  simp only [List.mem_append, h.active, List.mem_map, Prod.exists, exists_eq_right, hw.mem, h.parked]

omit [DecidableEq κ] [DecidableEq τ] in
theorem Follows.census_nodup (h : Follows φ s) (hw : Waiting s ps) :
    (s.active ++ (ps.map Prod.snd ++ s.finished)).Nodup := by
  -- the last event of a task has left it in one of the three places
  have hwaits : ∀ t ∈ ps.map Prod.snd, ∃ k, φ t = .waiting k := by
    intro t ht
    obtain ⟨⟨k, t'⟩, hkt, rfl⟩ := List.mem_map.mp ht
    exact ⟨k, (h.parked k t').mp ((hw.mem k t').mp hkt)⟩
  refine List.nodup_append.mpr ⟨h.activeNodup, List.nodup_append.mpr ⟨?_, h.finishedNodup, ?_⟩, ?_⟩
  · refine List.Nodup.map_on ?_ hw.nodup
    rintro ⟨k, t⟩ hkt ⟨k', t'⟩ hkt' rfl
    rw [hw.mem, h.parked] at hkt hkt'
    cases hkt.symm.trans hkt'
    rfl
  · rintro t ht t' ht' rfl
    obtain ⟨k, hk⟩ := hwaits t ht
    rw [h.finished] at ht'
    cases hk.symm.trans ht'
  · rintro t ht t' ht' rfl
    rw [h.active] at ht
    rcases List.mem_append.mp ht' with ht' | ht'
    · obtain ⟨k, hk⟩ := hwaits t ht'
      cases hk.symm.trans ht
    · rw [h.finished] at ht'
      cases ht.symm.trans ht'

end

end Coop
