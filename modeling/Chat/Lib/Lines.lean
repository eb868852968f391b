import Mathlib.Data.List.Basic

/-! Cutting a list into lines of bounded length: a line ends at its first terminator,
after `k` elements, or where the list ends. -/
namespace Lines

variable {α : Type*} [DecidableEq α]

/-- The first line of at most `k` elements, its terminator included. -/
def takeLine (nl : α) : ℕ → List α → List α
  | 0, _ => []
  | _ + 1, [] => []
  | k + 1, x :: xs => if x = nl then [x] else x :: takeLine nl k xs

def dropLine (nl : α) (k : ℕ) (xs : List α) : List α :=
  xs.drop (takeLine nl k xs).length

/-- What is left after `n` lines. -/
def rest (nl : α) (k : ℕ) (xs : List α) : ℕ → List α
  | 0 => xs
  | n + 1 => dropLine nl k (rest nl k xs n)

/-- The `n`-th line, counted from zero. -/
def line (nl : α) (k : ℕ) (xs : List α) (n : ℕ) : List α :=
  takeLine nl k (rest nl k xs n)

@[simp] theorem takeLine_zero (nl : α) (xs : List α) : takeLine nl 0 xs = [] := rfl

@[simp] theorem takeLine_nil (nl : α) (k : ℕ) : takeLine nl k [] = [] := by
  cases k <;> rfl

theorem takeLine_append_dropLine (nl : α) (k : ℕ) (xs : List α) :
    takeLine nl k xs ++ dropLine nl k xs = xs := by
  suffices takeLine nl k xs <+: xs from List.prefix_iff_eq_append.mp this
  induction k generalizing xs with
  | zero => simp
  | succ k ih =>
    cases xs with
    | nil => simp
    | cons x xs =>
      by_cases hx : x = nl
      · simp [takeLine, hx]
      · simpa [takeLine, hx] using ih xs

theorem length_takeLine_le (nl : α) (k : ℕ) (xs : List α) : (takeLine nl k xs).length ≤ k := by
  induction k generalizing xs with
  | zero => simp
  | succ k ih =>
    cases xs with
    | nil => simp
    | cons x xs =>
      by_cases hx : x = nl
      · simp [takeLine, hx]
      · simpa [takeLine, hx] using ih xs

theorem takeLine_ne_nil {nl : α} {k : ℕ} {xs : List α} (hk : 0 < k) (h : xs ≠ []) :
    takeLine nl k xs ≠ [] := by
  obtain ⟨k, rfl⟩ : ∃ j, k = j + 1 := ⟨k - 1, by omega⟩
  cases xs with
  | nil => exact absurd rfl h
  | cons x xs => by_cases hx : x = nl <;> simp [takeLine, hx]

theorem mem_of_mem_takeLine {nl : α} {k : ℕ} {xs : List α} {a : α}
    (h : a ∈ takeLine nl k xs) : a ∈ xs := by
  rw [← takeLine_append_dropLine nl k xs]
  exact List.mem_append_left _ h

theorem mem_of_mem_rest {nl : α} {k : ℕ} {xs : List α} {a : α} :
    ∀ {n : ℕ}, a ∈ rest nl k xs n → a ∈ xs
  | 0, h => h
  | _ + 1, h => mem_of_mem_rest (List.mem_of_mem_drop h)

theorem rest_ne_nil_of_succ {nl : α} {k : ℕ} {xs : List α} {n : ℕ}
    (h : rest nl k xs (n + 1) ≠ []) : rest nl k xs n ≠ [] := fun h0 => by
  simp [rest, h0, dropLine] at h

theorem rest_ne_nil_of_le {nl : α} {k : ℕ} {xs : List α} {m n : ℕ} (hmn : m ≤ n)
    (h : rest nl k xs n ≠ []) : rest nl k xs m ≠ [] := by
  induction hmn with
  | refl => exact h
  | step _ ih => exact ih (rest_ne_nil_of_succ h)

/-- The lines can be counted from any rest on. -/
theorem rest_add (nl : α) (k : ℕ) (xs : List α) (m n : ℕ) :
    rest nl k xs (m + n) = rest nl k (rest nl k xs m) n := by
  induction n with
  | zero => rfl
  | succ n ih => exact congrArg (dropLine nl k) ih

theorem line_add (nl : α) (k : ℕ) (xs : List α) (m n : ℕ) :
    line nl k xs (m + n) = line nl k (rest nl k xs m) n :=
  congrArg (takeLine nl k) (rest_add nl k xs m n)

/-- What is left gets shorter with each line. -/
theorem length_rest_lt {nl : α} {k : ℕ} {xs : List α} {m n : ℕ} (hk : 0 < k) (h : m < n)
    (hne : rest nl k xs m ≠ []) : (rest nl k xs n).length < (rest nl k xs m).length := by
  induction h with
  | refl =>
    have hline : 0 < (takeLine nl k (rest nl k xs m)).length :=
      List.length_pos_of_ne_nil (takeLine_ne_nil hk hne)
    have hpos := List.length_pos_of_ne_nil hne
    rw [Nat.succ_eq_add_one, rest, dropLine, List.length_drop]
    omega
  | step _ ih =>
    rw [rest, dropLine, List.length_drop]
    omega

/-- What is left tells how many lines have been taken. -/
theorem rest_injective {nl : α} {k : ℕ} {xs : List α} {m n : ℕ} (hk : 0 < k)
    (h : rest nl k xs m = rest nl k xs n) (hne : rest nl k xs n ≠ []) : m = n := by
  rcases Nat.lt_trichotomy m n with hlt | heq | hlt
  · have hlen := length_rest_lt hk hlt (h ▸ hne)
    rw [h] at hlen
    exact absurd hlen (Nat.lt_irrefl _)
  · exact heq
  · have hlen := length_rest_lt hk hlt hne
    rw [h] at hlen
    exact absurd hlen (Nat.lt_irrefl _)

/-- A line that fits, terminator included, comes off whole. -/
theorem takeLine_terminated {nl : α} {k : ℕ} {xs : List α} (h : nl ∉ xs) (hk : xs.length < k)
    (ys : List α) : takeLine nl k (xs ++ nl :: ys) = xs ++ [nl] := by
  induction xs generalizing k with
  | nil =>
    obtain ⟨k, rfl⟩ : ∃ j, k = j + 1 := ⟨k - 1, by simp at hk; omega⟩
    simp [takeLine]
  | cons x xs ih =>
    obtain ⟨hx, hxs⟩ := List.ne_and_not_mem_of_not_mem_cons h
    obtain ⟨k, rfl⟩ : ∃ j, k = j + 1 := ⟨k - 1, by simp at hk; omega⟩
    simp [takeLine, Ne.symm hx, ih hxs (by simpa using hk)]

theorem dropLine_terminated {nl : α} {k : ℕ} {xs : List α} (h : nl ∉ xs) (hk : xs.length < k)
    (ys : List α) : dropLine nl k (xs ++ nl :: ys) = ys := by
  rw [dropLine, takeLine_terminated h hk]
  simp

/-- The lines taken so far and what is left make up the list: nothing is skipped and nothing
is taken twice. -/
theorem lines_append_rest (nl : α) (k : ℕ) (xs : List α) (n : ℕ) :
    (List.range n).flatMap (line nl k xs) ++ rest nl k xs n = xs := by
  induction n with
  | zero => simp [rest]
  | succ n ih =>
    have hcut := takeLine_append_dropLine nl k (rest nl k xs n)
    calc
      (List.range (n + 1)).flatMap (line nl k xs) ++ rest nl k xs (n + 1) =
          (List.range n).flatMap (line nl k xs) ++
            (takeLine nl k (rest nl k xs n) ++ dropLine nl k (rest nl k xs n)) := by
        simp [List.range_succ, line, rest]
      _ = xs := by rw [hcut, ih]

/-- A line that is read whole: it fits, and its only terminator is at its end. -/
def Whole (nl : α) (k : ℕ) (l : List α) : Prop :=
  ∃ xs, l = xs ++ [nl] ∧ nl ∉ xs ∧ l.length ≤ k

omit [DecidableEq α] in
/-- A beginning of a whole line that could be a line itself is all of it. -/
theorem Whole.eq_of_prefix {nl : α} {k : ℕ} {l l' : List α} (h : Whole nl k l) (hl : l' <+: l)
    (hend : nl ∈ l' ∨ l'.length = k ∨ l' = l) : l' = l := by
  obtain ⟨xs, rfl, hnl, hk⟩ := h
  rcases hend with hmem | hlen | heq
  · rcases List.prefix_concat_iff.mp hl with heq | hpre
    · exact heq
    · exact absurd (hpre.subset hmem) hnl
  · exact hl.eq_of_length (by have := hl.length_le; omega)
  · exact heq

/-- `l` comes off as the lines `ps`, whatever follows it. -/
structure Cut (nl : α) (k : ℕ) (l : List α) (ps : List (List α)) : Prop where
  rest : ∀ ys, rest nl k (l ++ ys) ps.length = ys
  line : ∀ ys j p, ps[j]? = some p → line nl k (l ++ ys) j = p

theorem Cut.nil (nl : α) (k : ℕ) : Cut nl k [] [] where
  rest _ := rfl
  line _ _ _ h := by simp at h

theorem Whole.cut {nl : α} {k : ℕ} {l : List α} (h : Whole nl k l) : Cut nl k l [l] := by
  obtain ⟨xs, rfl, hnl, hk⟩ := h
  have hfit : xs.length < k := by
    rw [List.length_append, List.length_singleton] at hk
    omega
  refine ⟨fun ys => ?_, fun ys j p hp => ?_⟩
  · simpa [Lines.rest] using dropLine_terminated hnl hfit ys
  · obtain ⟨rfl, rfl⟩ : j = 0 ∧ xs ++ [nl] = p := by simpa [List.getElem?_cons] using hp
    simpa [Lines.line, Lines.rest] using takeLine_terminated hnl hfit ys

/-- A line whose terminator lies beyond the bound is cut there. -/
theorem takeLine_long {nl : α} {k : ℕ} {xs : List α} (h : nl ∉ xs) (hk : k ≤ xs.length)
    (ys : List α) : takeLine nl k (xs ++ ys) = xs.take k := by
  induction xs generalizing k with
  | nil => simp at hk; simp [hk]
  | cons x xs ih =>
    obtain ⟨hx, hxs⟩ := List.ne_and_not_mem_of_not_mem_cons h
    cases k with
    | zero => rfl
    | succ k => simp [takeLine, Ne.symm hx, ih hxs (by simpa using hk)]

/-- A line that is too long, but fits in two, comes off in two pieces. -/
theorem cut_long {nl : α} {k : ℕ} {xs : List α} (h : nl ∉ xs) (hk : k ≤ xs.length)
    (hlt : xs.length < 2 * k) :
    Cut nl k (xs ++ [nl]) [(xs ++ [nl]).take k, (xs ++ [nl]).drop k] := by
  have htake : (xs ++ [nl]).take k = xs.take k := List.take_append_of_le_length hk
  have hdrop : (xs ++ [nl]).drop k = xs.drop k ++ [nl] := List.drop_append_of_le_length hk
  have hfirst : ∀ ys, takeLine nl k (xs ++ [nl] ++ ys) = xs.take k := fun ys => by
    rw [List.append_assoc]
    exact takeLine_long h hk _
  have hrest : ∀ ys, dropLine nl k (xs ++ [nl] ++ ys) = xs.drop k ++ nl :: ys := fun ys => by
    rw [dropLine, hfirst, List.length_take_of_le hk, List.append_assoc,
      List.drop_append_of_le_length hk]
    rfl
  have hnl : nl ∉ xs.drop k := fun hmem => h (List.mem_of_mem_drop hmem)
  have hfit : (xs.drop k).length < k := by
    rw [List.length_drop]
    omega
  rw [htake, hdrop]
  refine ⟨fun ys => ?_, fun ys j p hp => ?_⟩
  · rw [List.length_cons, List.length_singleton, Lines.rest, Lines.rest, Lines.rest, hrest]
    exact dropLine_terminated hnl hfit ys
  · match j with
    | 0 =>
      obtain rfl : xs.take k = p := by simpa using hp
      exact hfirst ys
    | 1 =>
      obtain rfl : xs.drop k ++ [nl] = p := by simpa using hp
      rw [Lines.line, Lines.rest, Lines.rest, hrest]
      exact takeLine_terminated hnl hfit ys
    | j + 2 => simp at hp

theorem Cut.append {nl : α} {k : ℕ} {l l' : List α} {ps ps' : List (List α)} (h : Cut nl k l ps)
    (h' : Cut nl k l' ps') : Cut nl k (l ++ l') (ps ++ ps') where
  rest ys := by rw [List.length_append, rest_add, List.append_assoc, h.rest, h'.rest]
  line ys j p hp := by
    rw [List.append_assoc]
    by_cases hj : j < ps.length
    · rw [List.getElem?_append_left hj] at hp
      exact h.line _ j p hp
    · rw [List.getElem?_append_right (by omega)] at hp
      obtain ⟨m, rfl⟩ : ∃ m, j = ps.length + m := ⟨j - ps.length, by omega⟩
      rw [line_add, h.rest]
      exact h'.line ys m p (by simpa using hp)

theorem Cut.flatten {β : Type*} {nl : α} {k : ℕ} {l : β → List α} {ps : β → List (List α)}
    {xs : List β} (h : ∀ x ∈ xs, Cut nl k (l x) (ps x)) :
    Cut nl k (xs.map l).flatten (xs.flatMap ps) := by
  induction xs with
  | nil => exact .nil nl k
  | cons x xs ih =>
    have hrest := ih fun y hy => h y (List.mem_cons_of_mem _ hy)
    simpa using (h x List.mem_cons_self).append hrest

/-- Whole lines written one after the other come off one by one, whatever follows them. -/
theorem cut_flatten {nl : α} {k : ℕ} {ls : List (List α)} (h : ∀ l ∈ ls, Whole nl k l) :
    Cut nl k ls.flatten ls := by
  simpa using @Cut.flatten α _ _ nl k id (fun l => [l]) ls fun l hl => (h l hl).cut

theorem rest_flatten {nl : α} {k : ℕ} {ls : List (List α)} (h : ∀ l ∈ ls, Whole nl k l)
    (ys : List α) {n : ℕ} (hn : n ≤ ls.length) :
    rest nl k (ls.flatten ++ ys) n = (ls.drop n).flatten ++ ys := by
  have hcut : Cut nl k (ls.take n).flatten (ls.take n) :=
    cut_flatten fun l hl => h l (List.mem_of_mem_take hl)
  have hrest := hcut.rest ((ls.drop n).flatten ++ ys)
  rwa [List.length_take_of_le hn, ← List.append_assoc, ← List.flatten_append,
    List.take_append_drop] at hrest

theorem line_flatten {nl : α} {k : ℕ} {ls : List (List α)} (h : ∀ l ∈ ls, Whole nl k l)
    (ys : List α) {n : ℕ} {l : List α} (hl : ls[n]? = some l) :
    line nl k (ls.flatten ++ ys) n = l :=
  (cut_flatten h).line ys n l hl

end Lines
