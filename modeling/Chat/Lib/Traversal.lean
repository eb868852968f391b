import Mathlib.Data.Finset.Max

/-! In-order traversal of a finite set by an iterator. The iterator stands on a member or,
as `none`, past the last one; the members already passed are exactly those below it. -/
namespace Traversal

variable {α : Type*} [LinearOrder α]

def first (s : Finset α) : Option α := s.min

/-- The iterator after `a`: the least member above it. -/
def after (s : Finset α) (a : α) : Option α := (s.filter (a < ·)).min

/-- The iterator has gone past `b`. -/
def Passed (b : α) : Option α → Prop
  | none => True
  | some a => b < a

instance (b : α) : DecidablePred (Passed b)
  | none => inferInstanceAs (Decidable True)
  | some a => inferInstanceAs (Decidable (b < a))

@[simp] theorem passed_none (b : α) : Passed b none := trivial

@[simp] theorem passed_some (a b : α) : Passed b (some a) ↔ b < a := .rfl

theorem mem_of_first {s : Finset α} {a : α} (h : first s = some a) : a ∈ s :=
  Finset.mem_of_min h

theorem mem_of_after {s : Finset α} {a b : α} (h : after s a = some b) : b ∈ s :=
  (Finset.mem_filter.mp (Finset.mem_of_min h)).1

/-- Nothing has been passed at the start. -/
theorem not_passed_first {s : Finset α} {b : α} (hb : b ∈ s) : ¬ Passed b (first s) := by
  cases hfirst : first s with
  | none => exact absurd hb (by simp [Finset.min_eq_top.mp hfirst])
  | some a => exact not_lt.mpr (Finset.min_le_of_eq hb hfirst)

/-- One increment passes exactly the member the iterator stood on. -/
theorem passed_after_iff {s : Finset α} {a b : α} (hb : b ∈ s) : Passed b (after s a) ↔ b ≤ a := by
  have habove : a < b → b ∈ s.filter (a < ·) := fun hab => Finset.mem_filter.mpr ⟨hb, hab⟩
  cases hafter : after s a with
  | none =>
    have hempty : s.filter (a < ·) = ∅ := Finset.min_eq_top.mp hafter
    simp only [passed_none, true_iff]
    by_contra hab
    simpa [hempty] using habove (not_le.mp hab)
  | some c =>
    have hac : a < c := (Finset.mem_filter.mp (Finset.mem_of_min hafter)).2
    constructor
    · intro hbc
      by_contra hab
      exact absurd hbc (not_lt.mpr (Finset.min_le_of_eq (habove (not_le.mp hab)) hafter))
    · exact fun hba => hba.trans_lt hac

/-- How many members the iterator has not gone past. -/
def ahead (s : Finset α) : Option α → ℕ
  | none => 0
  | some a => (s.filter (a ≤ ·)).card

theorem ahead_le (s : Finset α) (it : Option α) : ahead s it ≤ s.card := by
  cases it with
  | none => exact Nat.zero_le _
  | some a => exact Finset.card_filter_le _ _

/-- One increment leaves one member less. -/
theorem ahead_after {s : Finset α} {a : α} (ha : a ∈ s) : ahead s (after s a) + 1 = ahead s (some a) := by
  have hsplit : s.filter (a ≤ ·) = insert a (s.filter (a < ·)) := by
    ext b
    simp only [Finset.mem_filter, Finset.mem_insert, le_iff_eq_or_lt]
    constructor
    · rintro ⟨hb, rfl | hab⟩
      · exact .inl rfl
      · exact .inr ⟨hb, hab⟩
    · rintro (rfl | ⟨hb, hab⟩)
      · exact ⟨ha, .inl rfl⟩
      · exact ⟨hb, .inr hab⟩
  have hrest : ahead s (after s a) = (s.filter (a < ·)).card := by
    cases hafter : after s a with
    | none => simp [ahead, Finset.min_eq_top.mp hafter]
    | some b =>
      have hab : a < b := (Finset.mem_filter.mp (Finset.mem_of_min hafter)).2
      refine congrArg Finset.card (Finset.filter_congr fun c hc => ⟨hab.trans_le, fun hac => ?_⟩)
      exact Finset.min_le_of_eq (Finset.mem_filter.mpr ⟨hc, hac⟩) hafter
  rw [hrest, ahead, hsplit, Finset.card_insert_of_notMem (by simp)]

/-- Induction along a traversal, from its end back. -/
theorem traverse {s : Finset α} {P : Option α → Prop} (hnone : P none)
    (hstep : ∀ a ∈ s, P (after s a) → P (some a)) {it : Option α} (hit : ∀ a, it = some a → a ∈ s) :
    P it := by
  cases it with
  | none => exact hnone
  | some a =>
    -- the members still ahead get fewer
    induction hn : (s.filter (a < ·)).card using Nat.strong_induction_on generalizing a with
    | _ n ih =>
      refine hstep a (hit a rfl) ?_
      cases hafter : after s a with
      | none => exact hnone
      | some b =>
        have hb := Finset.mem_filter.mp (Finset.mem_of_min hafter)
        have hlt : (s.filter (b < ·)).card < n := by
          rw [← hn]
          refine Finset.card_lt_card (Finset.ssubset_iff_of_subset (fun c hc => ?_) |>.mpr ⟨b, ?_, ?_⟩)
          · obtain ⟨hcs, hbc⟩ := Finset.mem_filter.mp hc
            exact Finset.mem_filter.mpr ⟨hcs, hb.2.trans hbc⟩
          · exact Finset.mem_filter.mpr hb
          · simp
        exact ih _ hlt b (fun c hc => Option.some.inj hc ▸ hb.1) rfl

end Traversal
