import Mathlib.Data.Nat.Digits.Defs

/-! Decimal numerals in ASCII: the number that a row of digits stands for, and the one numeral of a
number that is written without leading zeros. -/
namespace Decimal

def isDigit (b : UInt8) : Bool := 48 ≤ b && b ≤ 57

def digit (d : ℕ) : UInt8 := UInt8.ofNat (48 + d)

/-- The number that some digits stand for. -/
def value (ds : List UInt8) : ℕ := ds.foldl (fun n b => 10 * n + (b.toNat - 48)) 0

/-- The numeral of a number. -/
def numeral (n : ℕ) : List UInt8 :=
  if n = 0 then [digit 0] else (Nat.digits 10 n).reverse.map digit

theorem toNat_digit {d : ℕ} (h : d < 10) : (digit d).toNat = 48 + d := by
  rw [digit, UInt8.toNat_ofNat']
  omega

theorem isDigit_digit {d : ℕ} (h : d < 10) : isDigit (digit d) = true := by
  have hd := toNat_digit h
  simp only [isDigit, Bool.and_eq_true, decide_eq_true_eq, UInt8.le_iff_toNat_le]
  rw [hd, show (48 : UInt8).toNat = 48 from rfl, show (57 : UInt8).toNat = 57 from rfl]
  omega

theorem value_append_digit (ds : List UInt8) {d : ℕ} (h : d < 10) :
    value (ds ++ [digit d]) = 10 * value ds + d := by
  rw [value, List.foldl_append, List.foldl_cons, List.foldl_nil, toNat_digit h, ← value]
  omega

private theorem value_digits {ds : List ℕ} (h : ∀ d ∈ ds, d < 10) :
    value (ds.reverse.map digit) = Nat.ofDigits 10 ds := by
  induction ds with
  | nil => rfl
  | cons d ds ih =>
    obtain ⟨hd, hds⟩ := List.forall_mem_cons.mp h
    rw [List.reverse_cons, List.map_append, List.map_singleton, value_append_digit _ hd, ih hds,
      Nat.ofDigits_cons]
    omega

@[simp] theorem value_numeral (n : ℕ) : value (numeral n) = n := by
  unfold numeral
  split
  · next hn => simp [hn, value, toNat_digit]
  · rw [value_digits fun d hd => Nat.digits_lt_base (by omega) hd, Nat.ofDigits_digits]

theorem isDigit_of_mem_numeral {n : ℕ} {b : UInt8} (h : b ∈ numeral n) : isDigit b = true := by
  unfold numeral at h
  split at h
  · rw [List.mem_singleton.mp h]
    exact isDigit_digit (by omega)
  · obtain ⟨d, hd, rfl⟩ := List.mem_map.mp h
    exact isDigit_digit (Nat.digits_lt_base (by omega) (List.mem_reverse.mp hd))

theorem numeral_ne_nil (n : ℕ) : numeral n ≠ [] := by
  unfold numeral
  split
  · simp
  · next hn => simpa using Nat.digits_ne_nil_iff_ne_zero.mpr hn

end Decimal
