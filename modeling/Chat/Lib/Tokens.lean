import Mathlib.Data.List.Basic
import Mathlib.Data.List.Count
import Mathlib.Data.List.TakeWhile

/-! Tokens of a list at a separator, as repeated stream extraction up to a delimiter
yields them: the separator is dropped and a trailing empty token is never produced. -/
namespace Tokens

variable {α : Type*} [DecidableEq α]

/-- One extraction: the token before the first separator and what follows the separator.
It fails only when no element is left. -/
def getline (c : α) : List α → Option (List α × List α)
  | [] => none
  | x :: xs => some ((x :: xs).takeWhile (· ≠ c), ((x :: xs).dropWhile (· ≠ c)).tail)

/-- All tokens, in order. -/
def tokens (c : α) : List α → List (List α)
  | [] => []
  | x :: xs =>
    if x = c then [] :: tokens c xs
    else match tokens c xs with
      | [] => [[x]]
      | t :: ts => (x :: t) :: ts

@[simp] theorem tokens_nil (c : α) : tokens c [] = [] := rfl

@[simp] theorem tokens_sep (c : α) (xs : List α) : tokens c (c :: xs) = [] :: tokens c xs := by
  simp [tokens]

/-- A token followed by its separator comes off the front. -/
theorem tokens_append_sep {c : α} {xs : List α} (h : c ∉ xs) (ys : List α) :
    tokens c (xs ++ c :: ys) = xs :: tokens c ys := by
  induction xs with
  | nil => simp
  | cons x xs ih =>
    obtain ⟨hx, hxs⟩ := List.ne_and_not_mem_of_not_mem_cons h
    simp [tokens, Ne.symm hx, ih hxs]

/-- Without a separator the whole list is one token. -/
theorem tokens_of_notMem {c : α} {xs : List α} (h : c ∉ xs) (hne : xs ≠ []) :
    tokens c xs = [xs] := by
  induction xs with
  | nil => exact absurd rfl hne
  | cons x xs ih =>
    obtain ⟨hx, hxs⟩ := List.ne_and_not_mem_of_not_mem_cons h
    by_cases hnil : xs = []
    · subst hnil
      simp [tokens, Ne.symm hx]
    · simp [tokens, Ne.symm hx, ih hxs hnil]

/-- The tokens are those of the extraction loop. -/
theorem tokens_eq_getline (c : α) (xs : List α) :
    tokens c xs = match getline c xs with
      | none => []
      | some (t, rest) => t :: tokens c rest := by
  cases xs with
  | nil => rfl
  | cons x xs =>
    by_cases hc : c ∈ x :: xs
    · obtain ⟨pre, post, heq, hpre⟩ := List.eq_append_cons_of_mem hc
      have hall : ∀ a ∈ pre, decide (a ≠ c) = true := fun a ha =>
        decide_eq_true fun hac => hpre (hac ▸ ha)
      rw [getline, heq, tokens_append_sep hpre, List.takeWhile_append_of_pos hall,
        List.dropWhile_append_of_pos hall]
      simp
    · have hall : ∀ a ∈ x :: xs, decide (a ≠ c) = true := fun a ha =>
        decide_eq_true fun hac => hc (hac ▸ ha)
      rw [getline, tokens_of_notMem hc (by simp), List.takeWhile_eq_self_iff.mpr hall,
        List.dropWhile_eq_nil_iff.mpr hall]
      rfl

theorem tokens_ne_nil {c : α} {xs : List α} (h : xs ≠ []) : tokens c xs ≠ [] := by
  cases xs with
  | nil => exact absurd rfl h
  | cons x xs =>
    unfold tokens
    split
    · simp
    · split <;> simp

/-- Tokens are made of the list's own elements, the separator excepted. -/
theorem mem_of_mem_tokens {c : α} {xs t : List α} (ht : t ∈ tokens c xs) {a : α} (ha : a ∈ t) :
    a ∈ xs ∧ a ≠ c := by
  induction xs generalizing t with
  | nil => simp at ht
  | cons x xs ih =>
    by_cases hx : x = c
    · subst hx
      rcases List.mem_cons.mp (by simpa using ht) with rfl | ht
      · simp at ha
      · exact ⟨List.mem_cons_of_mem _ (ih ht ha).1, (ih ht ha).2⟩
    · cases hts : tokens c xs with
      | nil =>
        obtain rfl : t = [x] := by simpa [tokens, hx, hts] using ht
        obtain rfl : a = x := by simpa using ha
        exact ⟨by simp, hx⟩
      | cons u us =>
        rcases List.mem_cons.mp (by simpa [tokens, hx, hts] using ht) with rfl | ht
        · rcases List.mem_cons.mp ha with rfl | ha
          · exact ⟨by simp, hx⟩
          · have hu := @ih u (by simp [hts]) ha
            exact ⟨List.mem_cons_of_mem _ hu.1, hu.2⟩
        · have hu := @ih t (by simp [hts, ht]) ha
          exact ⟨List.mem_cons_of_mem _ hu.1, hu.2⟩

theorem sep_notMem {c : α} {xs t : List α} (ht : t ∈ tokens c xs) : c ∉ t :=
  fun hc => (mem_of_mem_tokens ht hc).2 rfl

/-- A nonempty list has one token more than it has separators before its last element. -/
theorem length_tokens {c : α} {xs : List α} (h : xs ≠ []) :
    (tokens c xs).length = xs.dropLast.count c + 1 := by
  induction xs with
  | nil => exact absurd rfl h
  | cons x xs ih =>
    by_cases hnil : xs = []
    · subst hnil
      by_cases hx : x = c <;> simp [tokens, hx]
    · rw [List.dropLast_cons_of_ne_nil hnil, List.count_cons]
      have hlen := ih hnil
      by_cases hx : x = c
      · simp [tokens, hx, hlen]
      · cases hts : tokens c xs with
        | nil => exact absurd hts (tokens_ne_nil hnil)
        | cons t ts =>
          rw [hts] at hlen
          simpa [tokens, hx, hts] using hlen

/-- The first token is exactly what precedes the first separator. -/
theorem head_tokens_eq_iff {c : α} {xs t : List α} (hc : c ∉ t) (hne : xs ≠ []) :
    (tokens c xs).head? = some t ↔ xs = t ∨ (t ++ [c]) <+: xs := by
  by_cases hcx : c ∈ xs
  · obtain ⟨pre, post, rfl, hpre⟩ := List.eq_append_cons_of_mem hcx
    rw [tokens_append_sep hpre, List.head?_cons, Option.some_inj]
    constructor
    · rintro rfl
      exact .inr ⟨post, by simp⟩
    · rintro (rfl | ⟨rest, h⟩)
      · exact absurd (by simp) hc
      · have h₁ := tokens_append_sep hc rest
        rw [List.append_assoc, List.singleton_append] at h
        rw [h, tokens_append_sep hpre] at h₁
        exact (List.cons.inj h₁).1
  · rw [tokens_of_notMem hcx hne, List.head?_cons, Option.some_inj]
    constructor
    · exact .inl
    · rintro (h | h)
      · exact h
      · exact absurd (h.subset (by simp)) hcx

omit [DecidableEq α] in
private theorem intercalate_cons_head (c x : α) (t : List α) (ts : List (List α)) :
    [c].intercalate ((x :: t) :: ts) = x :: [c].intercalate (t :: ts) := by
  cases ts with
  | nil => simp
  | cons u us => simp [List.intercalate_cons_cons]

/-- Joining the tokens gives the list back, except for a separator that is its last element. -/
theorem intercalate_tokens (c : α) (xs : List α) :
    [c].intercalate (tokens c xs) ++ (if xs.getLast? = some c then [c] else []) = xs := by
  induction xs with
  | nil => simp
  | cons x xs ih =>
    by_cases hnil : xs = []
    · subst hnil
      by_cases hx : x = c <;> simp [tokens, hx]
    · obtain ⟨t, ts, hts⟩ := List.exists_cons_of_ne_nil (tokens_ne_nil (c := c) hnil)
      obtain ⟨y, ys, rfl⟩ := List.exists_cons_of_ne_nil hnil
      rw [hts] at ih
      rw [List.getLast?_cons_cons]
      by_cases hx : x = c
      · subst hx
        rw [tokens_sep, hts, List.intercalate_cons_cons]
        simpa using ih
      · have hcons : tokens c (x :: y :: ys) = (x :: t) :: ts := by
          rw [tokens, if_neg hx, hts]
        rw [hcons, intercalate_cons_head, List.cons_append, ih]

end Tokens
