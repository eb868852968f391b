import Chat.Lib.Transition

/-! Forward simulation: what every step of one system keeps by some run of another, every run
of the one keeps by a run of the other. -/
namespace Transition

variable {σ ε α β : Type*} {step : σ → ε → σ → Prop}

/-- The simulation rule. The relation may speak of both histories. -/
theorem Run.simulate {s₀ s : σ} {es : List ε} (spec : α → β → α → Prop) (a₀ : α)
    (R : List ε → σ → List β → α → Prop) (h₀ : R [] s₀ [] a₀)
    (hs : ∀ es s e s' ls a, Run step s₀ es s → Run spec a₀ ls a → R es s ls a → step s e s' →
      ∃ ls' a', Run spec a ls' a' ∧ R (es ++ [e]) s' (ls ++ ls') a')
    (h : Run step s₀ es s) : ∃ ls a, Run spec a₀ ls a ∧ R es s ls a := by
  induction h with
  | nil => exact ⟨[], a₀, .nil, h₀⟩
  | snoc hrun hstep ih =>
    obtain ⟨ls, a, hspec, hR⟩ := ih
    obtain ⟨ls', a', hmatch, hR'⟩ := hs _ _ _ _ ls a hrun hspec hR hstep
    exact ⟨ls ++ ls', a', hspec.trans hmatch, hR'⟩

end Transition
