import Chat.Lib.Tokens

/-! Extraction from an input stream up to a delimiter, with the state bits that the loop over
it ends by. -/

/-- A stream with `rest` still to be extracted. -/
structure Istream (α : Type*) where
  rest : List α
  eofbit : Bool := false
  failbit : Bool := false

namespace Istream
open Tokens

variable {α : Type*} [DecidableEq α]

def good (s : Istream α) : Bool := !s.eofbit && !s.failbit

/-- Stores elements until it has extracted the delimiter, which is not stored, or meets the end. -/
def extract (c : α) : List α → Istream α × List α
  | [] => ({ rest := [], eofbit := true }, [])
  | x :: xs =>
    if x = c then ({ rest := xs }, [])
    else
      let (s, token) := extract c xs
      (s, x :: token)

/-- One call. It fails where it extracts nothing; on a stream that is not good it does not try,
and the token keeps its value. -/
def getline (c : α) (s : Istream α) (token : List α) : Istream α × List α :=
  if s.good then
    let (s', token) := extract c s.rest
    ({ s' with failbit := s'.rest.length = s.rest.length }, token)
  else ({ s with failbit := true }, token)

theorem extract_length_le (c : α) (xs : List α) : (extract c xs).1.rest.length ≤ xs.length := by
  induction xs with
  | nil => simp [extract]
  | cons x xs ih =>
    by_cases hx : x = c
    · simp [extract, hx]
    · simp only [extract, hx, if_false, List.length_cons]
      omega

/-- A call that does not fail leaves less to extract. -/
theorem getline_length_lt {c : α} {s : Istream α} {token : List α}
    (h : (getline c s token).1.failbit = false) :
    (getline c s token).1.rest.length < s.rest.length := by
  unfold getline at h ⊢
  by_cases hgood : s.good
  · have hle := extract_length_le c s.rest
    simp only [hgood, if_true, decide_eq_false_iff_not] at h ⊢
    omega
  · simp [hgood] at h

/-- `while (getline(s, token, c)) result.push_back(token)`. -/
def getlines (c : α) (s : Istream α) (token : List α) (result : List (List α)) : List (List α) :=
  if (getline c s token).1.failbit then result
  else
    getlines c (getline c s token).1 (getline c s token).2
      (result ++ [(getline c s token).2])
termination_by s.rest.length
decreasing_by exact getline_length_lt (by simp_all)

theorem extract_append_sep {c : α} {xs : List α} (h : c ∉ xs) (ys : List α) :
    extract c (xs ++ c :: ys) = ({ rest := ys }, xs) := by
  induction xs with
  | nil => simp [extract]
  | cons x xs ih =>
    obtain ⟨hx, hxs⟩ := List.ne_and_not_mem_of_not_mem_cons h
    simp [extract, Ne.symm hx, ih hxs]

theorem extract_of_notMem {c : α} {xs : List α} (h : c ∉ xs) :
    extract c xs = ({ rest := [], eofbit := true }, xs) := by
  induction xs with
  | nil => rfl
  | cons x xs ih =>
    obtain ⟨hx, hxs⟩ := List.ne_and_not_mem_of_not_mem_cons h
    simp [extract, Ne.symm hx, ih hxs]

/-- A delimiter leaves the stream good, also when it is the last element. -/
theorem getline_append_sep {c : α} {xs : List α} (h : c ∉ xs) (ys token : List α) :
    getline c { rest := xs ++ c :: ys } token = ({ rest := ys }, xs) := by
  have hlen : ¬ ys.length = xs.length + (ys.length + 1) := by omega
  simp only [getline, good, extract_append_sep h]
  simp [hlen]

/-- The token that the end of the stream ends; the next call finds the stream not good. -/
theorem getline_of_notMem {c : α} {xs : List α} (h : c ∉ xs) (hne : xs ≠ []) (token : List α) :
    getline c { rest := xs } token = ({ rest := [], eofbit := true }, xs) := by
  have hpos : 0 < xs.length := List.length_pos_of_ne_nil hne
  simp only [getline, good, extract_of_notMem h]
  simp [hpos.ne]

theorem getlines_of_not_good (c : α) {s : Istream α} (h : s.good = false) (token : List α)
    (result : List (List α)) : getlines c s token result = result := by
  rw [getlines]
  simp [getline, h]

/-- The loop appends the tokens of what the stream holds. -/
theorem getlines_eq_tokens (c : α) (xs token : List α) (result : List (List α)) :
    getlines c { rest := xs } token result = result ++ tokens c xs := by
  induction hn : xs.length using Nat.strong_induction_on generalizing xs token result with
  | _ n ih =>
    by_cases hc : c ∈ xs
    · obtain ⟨pre, post, rfl, hpre⟩ := List.eq_append_cons_of_mem hc
      have hlt : post.length < n := by
        simp only [List.length_append, List.length_cons] at hn
        omega
      rw [getlines, getline_append_sep hpre, tokens_append_sep hpre]
      simpa using ih post.length hlt post pre (result ++ [pre]) rfl
    · by_cases hnil : xs = []
      · subst hnil
        rw [getlines]
        simp [getline, good, extract]
      · rw [getlines, getline_of_notMem hc hnil, tokens_of_notMem hc hnil]
        simpa using getlines_of_not_good c rfl xs (result ++ [xs])

end Istream
