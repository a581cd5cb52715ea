import Mathlib.Order.WellFounded
import Phpco.Transition

/-!
# Runs that end

A run makes only finitely many steps if each of them brings a rank down.  Some
steps may be idle: they leave the rank as it is, and any number of them may come
between the others.
-/

namespace Transition

variable {σ α ε ρ : Type*} {step : σ → α → Except ε σ} {idle ok : α → Prop} {s : σ}

/-- Whatever is chosen from `s` on, only finitely many choices meet `ok`. -/
inductive Ends (step : σ → α → Except ε σ) (idle ok : α → Prop) : σ → Prop
  | intro {s : σ} : (∀ as s₁ a s', (∀ b ∈ as, idle b) → runFrom step s as = .ok s₁ → ok a →
      step s₁ a = .ok s' → Ends step idle ok s') → Ends step idle ok s

/-- In the states with `I`, each step that is not idle brings the rank down. -/
structure Descends [LT ρ] (step : σ → α → Except ε σ) (idle ok : α → Prop) (I : σ → Prop)
    (rank : σ → ρ) : Prop where
  keeps : ∀ s a s', I s → idle a ∨ ok a → step s a = .ok s' → I s'
  idle : ∀ s a s', I s → idle a → step s a = .ok s' → rank s' = rank s
  falls : ∀ s a s', I s → ok a → step s a = .ok s' → rank s' < rank s

namespace Descends

variable [LT ρ] {I : σ → Prop} {rank : σ → ρ}

theorem run_idle (h : Descends step idle ok I rank) {s₁ : σ} {as : List α} (hs : I s)
    (has : ∀ a ∈ as, idle a) (hr : runFrom step s as = .ok s₁) : I s₁ ∧ rank s₁ = rank s := by
  apply runFrom_invariant (I := fun s' => I s' ∧ rank s' = rank s) _ ⟨hs, rfl⟩ hr
  rintro s' a s'' ha ⟨hI, hrank⟩ hstep
  exact ⟨h.keeps s' a s'' hI (.inl (has a ha)) hstep, (h.idle s' a s'' hI (has a ha) hstep).trans hrank⟩

/-- The rank is well founded, so that it comes down only so often. -/
theorem ends [WellFoundedLT ρ] (h : Descends step idle ok I rank) (hs : I s) :
    Ends step idle ok s := by
  generalize hr : rank s = r
  induction r using WellFoundedLT.induction generalizing s with
  | ind r ih =>
    constructor
    intro as s₁ a s' has hrun ha hstep
    obtain ⟨hI, hrank⟩ := h.run_idle hs has hrun
    refine ih (rank s') ?_ (h.keeps s₁ a s' hI (.inr ha) hstep) rfl
    rw [← hr, ← hrank]
    exact h.falls s₁ a s' hI ha hstep

end Descends

theorem Reachable.trans {ok : σ → α → Prop} {init : σ → Prop} {s₁ s₂ : σ}
    (h : Reachable step init ok s₁) (h' : Reachable step (fun u => u = s₁) ok s₂) :
    Reachable step init ok s₂ := by
  induction h' with
  | init heq =>
    subst heq
    exact h
  | next _ hok hstep ih => exact ih.next hok hstep

/-- If a step can be made until the state is final, some run gets there. -/
theorem Ends.exists_final (h : Ends step idle ok s) {I final : σ → Prop} (hs : I s)
    (hkeeps : ∀ s a s', I s → ¬ final s → ok a → step s a = .ok s' → I s')
    (hgo : ∀ s, I s → ¬ final s → ∃ a s', ok a ∧ step s a = .ok s') :
    ∃ s', Reachable step (fun u => u = s) (fun _ a => ok a) s' ∧ I s' ∧ final s' := by
  induction h with
  | @intro s _ ih =>
    by_cases hf : final s
    · exact ⟨s, .init rfl, hs, hf⟩
    · obtain ⟨a, s₁, ha, hstep⟩ := hgo s hs hf
      obtain ⟨s', hrun, hs', hf'⟩ :=
        ih [] s a s₁ (by simp) rfl ha hstep (hkeeps s a s₁ hs hf ha hstep)
      have hstart : Reachable step (fun u => u = s) (fun _ a => ok a) s := .init rfl
      exact ⟨s', (hstart.next ha hstep).trans hrun, hs', hf'⟩

end Transition
