import Mathlib.Data.List.TakeWhile

/-! Byte strings, the `Message` record and the protocol's tags. -/
namespace Chat

abbrev Bytes := List UInt8

/-- A string literal of the source; all of them are ASCII. -/
def str (s : String) : Bytes := s.toList.map fun c => c.toNat.toUInt8

def newline : UInt8 := 10
def colon : UInt8 := 58

/-- The C string at the start of a buffer: the bytes before the first NUL. -/
def cString (s : Bytes) : Bytes := s.takeWhile (· ≠ 0)

def strlen (s : Bytes) : ℕ := (cString s).length

/-- `Message::MAX_LEN`: an encoded message has at most this many characters, the trailing
newline included and a NUL terminator not. -/
def maxLen : ℕ := 255

structure Message where
  tag : Bytes := []
  data : Bytes := []
  deriving DecidableEq, Repr

def tagErr : Bytes := str "err"
def tagOk : Bytes := str "ok"
def tagSlogin : Bytes := str "slogin"
def tagRlogin : Bytes := str "rlogin"
def tagJoin : Bytes := str "join"
def tagLeave : Bytes := str "leave"
def tagSendall : Bytes := str "sendall"
def tagQuit : Bytes := str "quit"
def tagDelivery : Bytes := str "delivery"

/-- Cuts the string at its first newline. -/
def removeNewline (s : Bytes) : Bytes := s.takeWhile (· ≠ newline)

theorem cString_eq_self {s : Bytes} (h : 0 ∉ s) : cString s = s :=
  List.takeWhile_eq_self_iff.mpr fun _ hb => decide_eq_true fun h0 => h (h0 ▸ hb)

theorem zero_notMem_cString (s : Bytes) : 0 ∉ cString s := fun h => by
  simpa using List.mem_takeWhile_imp h

theorem mem_of_mem_cString {s : Bytes} {b : UInt8} (h : b ∈ cString s) : b ∈ s :=
  (List.takeWhile_prefix _).subset h

/-- What follows the terminator is not part of the C string. -/
theorem cString_append_terminator (s t : Bytes) : cString (s ++ 0 :: t) = cString s := by
  induction s with
  | nil => rfl
  | cons b s ih =>
    unfold cString at ih ⊢
    by_cases hb : b = 0
    · simp [hb]
    · simpa [hb] using ih

theorem strlen_eq_length {s : Bytes} (h : 0 ∉ s) : strlen s = s.length := by
  rw [strlen, cString_eq_self h]

theorem removeNewline_eq_self {s : Bytes} (h : newline ∉ s) : removeNewline s = s :=
  List.takeWhile_eq_self_iff.mpr fun _ hb => decide_eq_true fun h0 => h (h0 ▸ hb)

theorem newline_notMem_removeNewline (s : Bytes) : newline ∉ removeNewline s := fun h => by
  simpa using List.mem_takeWhile_imp h

theorem mem_of_mem_removeNewline {s : Bytes} {b : UInt8} (h : b ∈ removeNewline s) : b ∈ s :=
  (List.takeWhile_prefix _).subset h

/-- Stripping is idempotent, so a name stripped by an earlier broadcast stays as it is. -/
@[simp] theorem removeNewline_removeNewline (s : Bytes) :
    removeNewline (removeNewline s) = removeNewline s :=
  removeNewline_eq_self (newline_notMem_removeNewline s)

@[simp] theorem removeNewline_append_newline {s : Bytes} (h : newline ∉ s) :
    removeNewline (s ++ [newline]) = s := by
  have hall : ∀ b ∈ s, decide (b ≠ newline) = true :=
    fun b hb => decide_eq_true fun h0 => h (h0 ▸ hb)
  rw [removeNewline, List.takeWhile_append_of_pos hall]
  simp

end Chat
