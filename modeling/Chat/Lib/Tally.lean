import Mathlib.Data.Finset.Card

/-! How many of unboundedly many threads satisfy a predicate, where finitely many do. -/
namespace Counting

variable {τ γ : Type*} {P : γ → Bool} {f : τ → γ}

/-- Exactly `n` threads are in a position that satisfies `P`. -/
def Tally (P : γ → Bool) (f : τ → γ) (n : ℕ) : Prop :=
  ∃ S : Finset τ, (∀ t, t ∈ S ↔ P (f t) = true) ∧ S.card = n

theorem Tally.zero (h : ∀ t, P (f t) = false) : Tally P f 0 := ⟨∅, by simp [h], rfl⟩

theorem Tally.eq_zero {n : ℕ} (h : Tally P f n) (hf : ∀ t, P (f t) = false) : n = 0 := by
  obtain ⟨S, hS, rfl⟩ := h
  exact Finset.card_eq_zero.mpr (Finset.eq_empty_of_forall_notMem fun t ht => by
    simpa [hf t] using (hS t).mp ht)

theorem Tally.pos {n : ℕ} (h : Tally P f n) {t : τ} (ht : P (f t) = true) : 0 < n := by
  obtain ⟨S, hS, rfl⟩ := h
  exact Finset.card_pos.mpr ⟨t, (hS t).mpr ht⟩

/-- Where only `t` may satisfy the predicate, the tally is 1 or 0. -/
theorem Tally.eq_toNat {n : ℕ} (h : Tally P f n) {t : τ} (hf : ∀ u, P (f u) = true → u = t) :
    n = (P (f t)).toNat := by
  obtain ⟨S, hS, rfl⟩ := h
  cases ht : P (f t) with
  | true =>
    have hone : S = {t} := Finset.eq_singleton_iff_unique_mem.mpr
      ⟨(hS t).mpr ht, fun u hu => hf u ((hS u).mp hu)⟩
    rw [hone, Finset.card_singleton, Bool.toNat_true]
  | false =>
    refine Tally.eq_zero ⟨S, hS, rfl⟩ fun u => ?_
    by_contra hu
    rw [Bool.not_eq_false] at hu
    rw [hf u hu, ht] at hu
    cases hu

/-- One thread moves: the tally loses its old position and gains its new one. -/
theorem Tally.move [DecidableEq τ] {n : ℕ} (h : Tally P f n) (t : τ) (c : γ) :
    ∃ m, Tally P (Function.update f t c) m ∧ m + (P (f t)).toNat = n + (P c).toNat := by
  obtain ⟨S, hS, rfl⟩ := h
  have hother : ∀ u, u ≠ t → (u ∈ S ↔ P (Function.update f t c u) = true) := fun u hu => by
    simp [hu, hS u]
  have herase : ∀ u, u ∈ S.erase t ↔ u ≠ t ∧ P (Function.update f t c u) = true := fun u => by
    rw [Finset.mem_erase]
    exact and_congr_right (hother u)
  have hcard : (S.erase t).card + (P (f t)).toNat = S.card := by
    by_cases ht : P (f t) = true
    · have hmem := (hS t).mpr ht
      have hpos := Finset.card_pos.mpr ⟨t, hmem⟩
      rw [Finset.card_erase_of_mem hmem, ht, Bool.toNat_true]
      omega
    · rw [Finset.erase_eq_of_notMem fun hmem => ht ((hS t).mp hmem)]
      simp [ht]
  cases hc : P c with
  | true =>
    refine ⟨(insert t (S.erase t)).card, ⟨_, fun u => ?_, rfl⟩, ?_⟩
    · by_cases hu : u = t
      · subst hu
        simp [hc]
      · rw [Finset.mem_insert, herase u]
        simp [hu]
    · rw [Finset.card_insert_of_notMem (Finset.notMem_erase t S), Bool.toNat_true]
      omega
  | false =>
    refine ⟨(S.erase t).card, ⟨_, fun u => ?_, rfl⟩, ?_⟩
    · rw [herase u]
      by_cases hu : u = t
      · subst hu
        simp [hc]
      · simp [hu]
    · rw [Bool.toNat_false]
      omega

end Counting
