import Chat.Message
import Chat.Lib.Decimal

/-! The port of an argument: `std::stoi`, and `std::to_string` on the way to `getaddrinfo`. -/
namespace Chat
open Decimal

/-- `isspace` in the C locale. -/
def isspace (b : UInt8) : Bool := b = 32 || 9 ≤ b && b ≤ 13

def minus : UInt8 := 45
def plus : UInt8 := 43

/-- The sign in front of a numeral, and what comes after it. -/
def takeSign (s : Bytes) : Bytes × Bytes :=
  if s.head? = some minus ∨ s.head? = some plus then (s.take 1, s.drop 1) else ([], s)

/-- `strtol` in base ten, before it is cut to the range of a `long`; `none` where there is no number. -/
def strtol (s : Bytes) : Option ℤ :=
  let (sign, s) := takeSign (s.dropWhile isspace)
  let ds := s.takeWhile isDigit
  if ds = [] then none else some (if sign = [minus] then -value ds else value ds)

inductive StoiError
  | invalidArgument
  | outOfRange
  deriving DecidableEq

/-- The range of an `int`. -/
def InRange (n : ℤ) : Prop := -2147483648 ≤ n ∧ n ≤ 2147483647

instance (n : ℤ) : Decidable (InRange n) := inferInstanceAs (Decidable (_ ∧ _))

/-- `std::stoi`; what `strtol` cuts off is out of range in any case. -/
def stoi (s : Bytes) : Except StoiError ℤ :=
  match strtol s with
  | none => .error .invalidArgument
  | some n => if InRange n then .ok n else .error .outOfRange

/-- `std::to_string` of an `int`. -/
def stdToString (n : ℤ) : Bytes :=
  if n < 0 then minus :: numeral n.natAbs else numeral n.natAbs

/-- `s` begins with a numeral for `n`, after white space and before anything but a digit. -/
def Denotes (s : Bytes) (n : ℤ) : Prop :=
  ∃ ws sign ds rest, s = ws ++ (sign ++ (ds ++ rest)) ∧ (∀ b ∈ ws, isspace b = true) ∧
    (sign = [] ∨ sign = [plus] ∨ sign = [minus]) ∧ ds ≠ [] ∧ (∀ b ∈ ds, isDigit b = true) ∧
    (∀ b ∈ rest.head?, isDigit b = false) ∧ n = if sign = [minus] then -(value ds : ℤ) else value ds

private theorem isDigit_plain {b : UInt8} (h : isDigit b = true) :
    isspace b = false ∧ b ≠ minus ∧ b ≠ plus := by
  have hb : 48 ≤ b.toNat ∧ b.toNat ≤ 57 := by simpa [isDigit, UInt8.le_iff_toNat_le] using h
  have hne : ∀ {c : UInt8}, c.toNat < 48 → b ≠ c := fun hc heq => by
    rw [heq] at hb
    omega
  refine ⟨?_, hne (by decide), hne (by decide)⟩
  simp only [isspace, Bool.or_eq_false_iff, decide_eq_false_iff_not, Bool.and_eq_false_iff,
    UInt8.le_iff_toNat_le]
  refine ⟨hne (by decide), .inr ?_⟩
  have hthirteen : (13 : UInt8).toNat = 13 := rfl
  omega

private theorem takeWhile_append_rest {p : UInt8 → Bool} {xs ys : Bytes} (hxs : ∀ b ∈ xs, p b = true)
    (hys : ∀ b ∈ ys.head?, p b = false) :
    (xs ++ ys).takeWhile p = xs ∧ (xs ++ ys).dropWhile p = ys := by
  rw [List.takeWhile_append_of_pos hxs, List.dropWhile_append_of_pos hxs]
  cases ys with
  | nil => simp
  | cons y ys =>
    have hy := hys y rfl
    simp [hy]

private theorem head?_dropWhile {p : UInt8 → Bool} (xs : Bytes) :
    ∀ b ∈ (xs.dropWhile p).head?, p b = false := by
  intro b hb
  have hne := List.head?_dropWhile_not p xs
  rw [Option.mem_def.mp hb] at hne
  simpa using hne

private theorem takeSign_spec (s : Bytes) : s = (takeSign s).1 ++ (takeSign s).2 ∧
    ((takeSign s).1 = [] ∨ (takeSign s).1 = [plus] ∨ (takeSign s).1 = [minus]) := by
  unfold takeSign
  cases s with
  | nil => simp
  | cons b s =>
    by_cases hminus : b = minus
    · simp [hminus]
    · by_cases hplus : b = plus <;> simp [hminus, hplus]

private theorem takeSign_append {sign s : Bytes} (hsign : sign = [] ∨ sign = [plus] ∨ sign = [minus])
    (hs : ∀ b ∈ s.head?, b ≠ minus ∧ b ≠ plus) : takeSign (sign ++ s) = (sign, s) := by
  rcases hsign with rfl | rfl | rfl
  · have hno : ¬ (s.head? = some minus ∨ s.head? = some plus) := by
      rintro (hb | hb)
      · exact (hs _ hb).1 rfl
      · exact (hs _ hb).2 rfl
    rw [List.nil_append, takeSign, if_neg hno]
  · simp [takeSign]
  · simp [takeSign]

/-- `strtol` reads just the numerals. -/
theorem strtol_eq_some_iff {s : Bytes} {n : ℤ} : strtol s = some n ↔ Denotes s n := by
  constructor
  · intro h
    obtain ⟨hsplit, hsign⟩ := takeSign_spec (s.dropWhile isspace)
    simp only [strtol] at h
    split at h
    · cases h
    next hne =>
    refine ⟨s.takeWhile isspace, _, _, (takeSign (s.dropWhile isspace)).2.dropWhile isDigit, ?_,
      fun b hb => List.mem_takeWhile_imp hb, hsign, hne, fun b hb => List.mem_takeWhile_imp hb,
      head?_dropWhile _, (Option.some.inj h).symm⟩
    rw [List.takeWhile_append_dropWhile, ← hsplit, List.takeWhile_append_dropWhile]
  · rintro ⟨ws, sign, ds, rest, rfl, hws, hsign, hne, hds, hrest, rfl⟩
    obtain ⟨d, ds', rfl⟩ := List.exists_cons_of_ne_nil hne
    obtain ⟨hspace, hplain⟩ := isDigit_plain (hds d List.mem_cons_self)
    have hskip : ∀ b ∈ (sign ++ (d :: ds' ++ rest)).head?, isspace b = false := by
      rcases hsign with rfl | rfl | rfl
      · simpa using hspace
      · simp only [List.singleton_append, List.head?_cons, Option.mem_some_iff, forall_eq']
        decide
      · simp only [List.singleton_append, List.head?_cons, Option.mem_some_iff, forall_eq']
        decide
    rw [strtol, (takeWhile_append_rest hws hskip).2, takeSign_append hsign (by simpa using hplain)]
    simp only [(takeWhile_append_rest hds hrest).1, if_neg hne]

theorem Denotes.unique {s : Bytes} {n m : ℤ} (hn : Denotes s n) (hm : Denotes s m) : n = m := by
  rw [← strtol_eq_some_iff] at hn hm
  exact Option.some.inj (hn.symm.trans hm)

/-- What `std::stoi` accepts. -/
theorem stoi_eq_ok_iff {s : Bytes} {n : ℤ} : stoi s = .ok n ↔ Denotes s n ∧ InRange n := by
  unfold stoi
  rw [← strtol_eq_some_iff]
  cases strtol s with
  | none => simp
  | some m =>
    rw [Option.some.injEq]
    dsimp only
    split
    · next hm => exact ⟨fun h => Except.ok.inj h ▸ ⟨rfl, hm⟩, fun h => by rw [h.1]⟩
    · next hm => exact ⟨nofun, fun h => absurd (h.1 ▸ h.2) hm⟩

/-- The numeral of a number denotes it. -/
theorem denotes_stdToString (n : ℤ) : Denotes (stdToString n) n := by
  have hdigits : ∀ b ∈ numeral n.natAbs, isDigit b = true := fun b hb => isDigit_of_mem_numeral hb
  unfold stdToString
  by_cases hn : n < 0
  · refine ⟨[], [minus], numeral n.natAbs, [], by simp [hn], nofun, by simp, numeral_ne_nil _, hdigits,
      by simp, ?_⟩
    rw [if_pos rfl, value_numeral]
    omega
  · refine ⟨[], [], numeral n.natAbs, [], by simp [hn], nofun, by simp, numeral_ne_nil _, hdigits,
      by simp, ?_⟩
    rw [if_neg (by simp), value_numeral]
    omega

/-- A port that is read back is the same. -/
theorem stoi_stdToString {n : ℤ} (h : InRange n) : stoi (stdToString n) = .ok n :=
  stoi_eq_ok_iff.mpr ⟨denotes_stdToString n, h⟩

/-- Two ports have the same name just if they are the same. -/
theorem stdToString_inj {n m : ℤ} : stdToString n = stdToString m ↔ n = m := by
  refine ⟨fun h => ?_, fun h => h ▸ rfl⟩
  exact (h ▸ denotes_stdToString n : Denotes (stdToString m) n).unique (denotes_stdToString m)

end Chat
