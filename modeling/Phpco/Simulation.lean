import Phpco.Transition

/-!
# Labelled systems and simulation

A labelled system is a relation `Step s e s'`, and a run of it is recorded by its
labels, newest first.  A partial step function simulates into such a system when
each of its steps is one labelled step of what its states stand for, or changes
neither that nor the record.
-/

namespace Transition

variable {S L : Type*}

/-- The runs from `s₀`, with their labels. -/
inductive Trace (Step : S → L → S → Prop) (s₀ : S) : List L → S → Prop
  | nil : Trace Step s₀ [] s₀
  | cons {es : List L} {s s' : S} {e : L} : Trace Step s₀ es s → Step s e s' →
      Trace Step s₀ (e :: es) s'

namespace Trace

variable {Step : S → L → S → Prop} {s₀ : S} {es : List L} {s s' : S}

theorem invariant {I : List L → S → Prop} (h0 : I [] s₀)
    (hs : ∀ es s e s', I es s → Step s e s' → I (e :: es) s') (h : Trace Step s₀ es s) : I es s := by
  induction h with
  | nil => exact h0
  | cons _ hstep ih => exact hs _ _ _ _ ih hstep

theorem unique (hdet : ∀ s e t t', Step s e t → Step s e t' → t = t') (h : Trace Step s₀ es s)
    (h' : Trace Step s₀ es s') : s = s' := by
  induction h generalizing s' with
  | nil =>
    cases h'
    rfl
  | cons _ hstep ih =>
    cases h' with
    | cons h' hstep' =>
      obtain rfl := ih h'
      exact hdet _ _ _ _ hstep hstep'

end Trace

variable {σ α ε : Type*}

/-- What a step does to an abstract state and to the record that goes with it. -/
def Matches (Step : S → L → S → Prop) (p p' : S × List L) : Prop :=
  p' = p ∨ ∃ e, p'.2 = e :: p.2 ∧ Step p.1 e p'.1

/-- `abs` is what a state stands for, and `record` what its run did so far. -/
structure Simulates (step : σ → α → Except ε σ) (init : σ → Prop) (ok : σ → α → Prop)
    (Step : S → L → S → Prop) (s₀ : S) (abs : σ → S) (record : σ → List L) : Prop where
  start : ∀ s, init s → abs s = s₀ ∧ record s = []
  step : ∀ s a s', Reachable step init ok s → Trace Step s₀ (record s) (abs s) → ok s a →
    step s a = .ok s' → Matches Step (abs s, record s) (abs s', record s')

variable {step : σ → α → Except ε σ} {init : σ → Prop} {ok : σ → α → Prop}
  {Step : S → L → S → Prop} {s₀ : S} {abs : σ → S} {record : σ → List L}

theorem Trace.of_matches {p p' : S × List L} (h : Trace Step s₀ p.2 p.1) (hm : Matches Step p p') :
    Trace Step s₀ p'.2 p'.1 := by
  rcases hm with rfl | ⟨e, he, hstep⟩
  · exact h
  · rw [he]
    exact h.cons hstep

/-- Every run is one of the labelled system, with the same record. -/
theorem Simulates.trace (h : Simulates step init ok Step s₀ abs record) {s : σ}
    (hs : Reachable step init ok s) : Trace Step s₀ (record s) (abs s) := by
  induction hs with
  | init h0 =>
    obtain ⟨habs, hrec⟩ := h.start _ h0
    rw [habs, hrec]
    exact .nil
  | next hs hok hstep ih => exact Trace.of_matches ih (h.step _ _ _ hs ih hok hstep)

/-- Where the record determines the state, a step that goes on being one of the labelled
system is matched by it. -/
theorem Trace.matches_of_trace (hdet : ∀ s e t t', Step s e t → Step s e t' → t = t')
    (p p' : S × List L) (h : Trace Step s₀ p.2 p.1) (h' : Trace Step s₀ p'.2 p'.1)
    (hrec : p'.2 = p.2 ∨ ∃ e, p'.2 = e :: p.2) : Matches Step p p' := by
  rcases hrec with hrec | ⟨e, hrec⟩
  · rw [hrec] at h'
    exact .inl (Prod.ext (h'.unique hdet h) hrec)
  · rw [hrec] at h'
    cases h' with
    | cons h' hstep =>
      obtain rfl := h'.unique hdet h
      exact .inr ⟨e, hrec, hstep⟩

end Transition
