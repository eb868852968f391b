import Chat.Receiver
import Chat.Lib.Istream

/-! The two loops that cut a string at its colons, with the types the source gives them: the
stream loop of `divide_data` and the index loop of the receiver. -/
namespace Chat
open Lines Tokens

namespace Connection

/-- The vector that the loop of `divide_data` fills. -/
def dividedData (data : Bytes) : List Bytes :=
  Istream.getlines colon { rest := data } [] []

theorem dividedData_eq_tokens (data : Bytes) : dividedData data = tokens colon data :=
  Istream.getlines_eq_tokens colon data [] []

/-- `divide_data` reads the tag from the first piece; without one the subscript is out of range. -/
theorem divideData_eq (tag data : Bytes) :
    divideData ⟨tag, data⟩ =
      (subscript (dividedData data) 0).map fun first => (dividedData data, ⟨first, data⟩) := by
  rw [dividedData_eq_tokens]
  simp only [divideData]
  cases subscript (tokens colon data) 0 <;> rfl

end Connection

namespace Receiver

/-- The size as an `int`: the value equal to it modulo `2 ^ 32`. -/
def dataLength (data : Bytes) : ℤ := (data.length : ℤ).bmod (2 ^ 32)

/-- An `int` passed for a `size_t`. -/
def sizeT (i : ℤ) : ℕ := (i % 2 ^ 64).toNat

def npos : ℕ := 2 ^ 64 - 1

/-- `substr`: at most `n` characters; `none` is the exception thrown where the position is beyond
the end. -/
def substr (s : Bytes) (pos n : ℕ) : Option Bytes :=
  if pos ≤ s.length then some ((s.drop pos).take (min n (s.length - pos))) else none

/-- The local variables of the loop. -/
structure Pieces where
  prevColonPos : ℤ := 0
  dataStorage : List Bytes := []

/-- One pass; `i` is below `data_length`, so adding one to it does not overflow. -/
def scan (data : Bytes) (s : Pieces) (i : ℕ) : Option Pieces :=
  if data.getD i 0 = colon then do
    let dataPiece ← substr data (sizeT s.prevColonPos) (sizeT (i - s.prevColonPos))
    pure { prevColonPos := i + 1, dataStorage := s.dataStorage ++ [dataPiece] }
  else pure s

/-- The last piece is stored if it is not empty. -/
def handleLast (data : Bytes) (s : Pieces) : Option (List Bytes) :=
  if s.prevColonPos < dataLength data then do
    let lastPiece ← substr data (sizeT s.prevColonPos) npos
    pure (s.dataStorage ++ [lastPiece])
  else pure s.dataStorage

/-- The pieces as the code collects them; `none` is an exception. -/
def dataStorage (data : Bytes) : Option (List Bytes) :=
  (List.range (dataLength data).toNat).foldlM (scan data) {} >>= handleLast data

theorem dataLength_eq {data : Bytes} (h : data.length < 2 ^ 31) : dataLength data = data.length := by
  unfold dataLength
  apply Int.bmod_eq_of_le <;> omega

theorem sizeT_natCast {n : ℕ} (h : n < 2 ^ 64) : sizeT n = n := by
  unfold sizeT
  omega

theorem substr_eq {s : Bytes} {pos n : ℕ} (h : pos + n ≤ s.length) :
    substr s pos n = some ((s.drop pos).take n) := by
  have hn : min n (s.length - pos) = n := by omega
  rw [substr, if_pos (by omega), hn]

theorem substr_npos {s : Bytes} {pos : ℕ} (h : pos ≤ s.length) (hlen : s.length < 2 ^ 64) :
    substr s pos npos = some (s.drop pos) := by
  have hn : min npos (s.length - pos) = (s.drop pos).length := by
    rw [List.length_drop, npos]
    omega
  rw [substr, if_pos h, hn, List.take_length]

variable {data : Bytes}

/-- At a colon the positions convert to the sizes they are, and no exception is thrown. -/
theorem scan_colon (hlen : data.length < 2 ^ 31) {i prev : ℕ} (hi : i < data.length)
    (hc : data[i] = colon) (hprev : prev ≤ i) (storage : List Bytes) :
    scan data ⟨prev, storage⟩ i =
      some ⟨(i + 1 : ℕ), storage ++ [(data.drop prev).take (i - prev)]⟩ := by
  have hget : data.getD i 0 = colon := by simpa [hi] using hc
  have hpos : sizeT (prev : ℤ) = prev := sizeT_natCast (by omega)
  have hcount : sizeT ((i : ℤ) - (prev : ℤ)) = i - prev := by
    rw [← Int.ofNat_sub hprev]
    exact sizeT_natCast (by omega)
  have hpiece := substr_eq (show prev + (i - prev) ≤ data.length by omega)
  rw [scan, if_pos hget]
  simp [hpos, hcount, hpiece]

theorem scan_other {i : ℕ} (hi : i < data.length) (hc : data[i] ≠ colon) (s : Pieces) :
    scan data s i = some s := by
  have hget : data.getD i 0 ≠ colon := by simpa [hi] using hc
  exact if_neg hget

/-- The passes over `cs`, which begins at position `i`, are those of the loop over characters. -/
private theorem scan_range (hlen : data.length < 2 ^ 31) {cs : Bytes} {i prev : ℕ}
    (hcs : data.drop i = cs) (hprev : prev ≤ i) (storage : List Bytes) :
    (List.range' i cs.length).foldlM (scan data) ⟨prev, storage⟩ =
      some ⟨(splitLoop data cs i prev storage).1, (splitLoop data cs i prev storage).2⟩ := by
  induction cs generalizing i prev storage with
  | nil => rfl
  | cons c cs ih =>
    have hi : i < data.length := by
      have hpos := congrArg List.length hcs
      rw [List.length_drop, List.length_cons] at hpos
      omega
    rw [List.drop_eq_getElem_cons hi] at hcs
    obtain ⟨hchar, hrest⟩ := List.cons.inj hcs
    rw [List.length_cons, List.range'_succ, List.foldlM_cons]
    by_cases hc : c = colon
    · rw [scan_colon hlen hi (hchar.trans hc) hprev, splitLoop, if_pos hc]
      exact ih hrest le_rfl _
    · rw [scan_other hi (by rwa [hchar]), splitLoop, if_neg hc]
      exact ih hrest (by omega) storage

theorem handleLast_eq (hlen : data.length < 2 ^ 31) (prev : ℕ) (storage : List Bytes) :
    handleLast data ⟨prev, storage⟩ =
      some (if prev < data.length then storage ++ [data.drop prev] else storage) := by
  have hlength := dataLength_eq hlen
  by_cases hlast : prev < data.length
  · have hpos : sizeT (prev : ℤ) = prev := sizeT_natCast (by omega)
    have hpiece := substr_npos hlast.le (by omega : data.length < 2 ^ 64)
    simp [handleLast, hlength, hlast, hpos, hpiece]
  · simp [handleLast, hlength, hlast]

/-- No exception is thrown, and the pieces are those of the loop over characters. -/
theorem dataStorage_eq_split (hlen : data.length < 2 ^ 31) : dataStorage data = some (split data) := by
  have hloop := @scan_range data hlen data 0 0 List.drop_zero le_rfl []
  have hrange : (dataLength data).toNat = data.length := by
    rw [dataLength_eq hlen, Int.toNat_natCast]
  rw [← List.range_eq_range', Nat.cast_zero] at hloop
  rw [dataStorage, hrange, hloop, Option.bind_eq_bind, Option.bind_some, handleLast_eq hlen, split]

private theorem bmod_neg {n : ℕ} (hlo : 2 ^ 31 ≤ n) (hhi : n < 2 ^ 32) :
    (n : ℤ).bmod (2 ^ 32) < 0 := by
  have hdvd : ((2 ^ 32 : ℕ) : ℤ) ∣ (n : ℤ).bmod (2 ^ 32) - n := Int.dvd_bmod_sub_self
  have hlt : (n : ℤ).bmod (2 ^ 32) < ((2 ^ 32 : ℕ) + 1) / 2 := Int.bmod_lt (by omega)
  push_cast at hdvd hlt ⊢
  omega

theorem dataStorage_of_neg (h : dataLength data < 0) : dataStorage data = some [] := by
  have hpos : ¬ (0 : ℤ) < dataLength data := by omega
  have hlast : handleLast data {} = some [] := if_neg hpos
  have hrange : (dataLength data).toNat = 0 := by omega
  rw [dataStorage, hrange, List.range_zero, List.foldlM_nil, pure_bind, hlast]

/-- From `2 ^ 31` characters on, `data_length` is negative and nothing is stored. -/
theorem dataStorage_long (hlo : 2 ^ 31 ≤ data.length) (hhi : data.length < 2 ^ 32) :
    dataStorage data = some [] :=
  dataStorage_of_neg (bmod_neg hlo hhi)

end Receiver

private theorem length_le_intercalate (t : Bytes) (ts : List Bytes) :
    t.length ≤ ([colon].intercalate (t :: ts)).length := by
  cases ts with
  | nil => simp
  | cons u us =>
    simp only [List.intercalate_cons_cons, List.length_append]
    omega

theorem decode_length_le {l : Bytes} {m : Message} (h : decode l = some m) :
    m.data.length ≤ l.length := by
  have hcut : (cString l).length ≤ l.length := (List.takeWhile_prefix _).length_le
  have hjoin := congrArg List.length (intercalate_tokens colon (cString l))
  rw [List.length_append] at hjoin
  unfold decode fields at h
  cases hf : tokens colon (cString l) with
  | nil => simp [hf] at h
  | cons tag rest =>
    cases rest with
    | nil => simp [hf] at h
    | cons data more =>
      rw [hf, List.intercalate_cons_cons, List.length_append] at hjoin
      by_cases htag : tag = tagDelivery
      · match more with
        | [] | [_] => simp [hf, htag] at h
        | sender :: text :: more =>
          obtain rfl : ⟨tag, data ++ [colon] ++ sender ++ [colon] ++ text⟩ = m := by
            simpa [hf, htag] using h
          have htext := length_le_intercalate text more
          simp only [List.intercalate_cons_cons, List.length_append] at hjoin ⊢
          omega
      · obtain rfl : ⟨tag, data⟩ = m := by simpa [hf, htag] using h
        have hdata := length_le_intercalate data more
        simp only
        omega

/-- What a line brings is short enough, so the receiver's pieces are those of the loop over
characters. -/
theorem Receiver.dataStorage_received {conn conn' : Connection} {buffer : Bytes} {msg m : Message}
    (hb : conn.mFdbuf.broken = false) (hs : conn.mFdbuf.stream ≠ [])
    (hrec : conn.receive buffer msg = .ok (true, m, conn')) :
    dataStorage m.data = some (split m.data) := by
  obtain ⟨-, -, hdecode⟩ := Connection.receive_takes hb hrec
  have hlength := decode_length_le (hdecode hs)
  have hline : conn.mFdbuf.nextLine.length ≤ lineMax := length_takeLine_le _ _ _
  have hmax : lineMax < 2 ^ 31 := by norm_num [lineMax, maxLen]
  exact dataStorage_eq_split (by omega)

/-- Below `2 ^ 31` characters the index loop and the stream loop cut alike, and of the string
only a colon at its very end is not in the pieces. -/
theorem splitters_agree {s : Bytes} (hlen : s.length < 2 ^ 31) :
    ∃ pieces, Receiver.dataStorage s = some pieces ∧ Connection.dividedData s = pieces ∧
      (∀ tag, Connection.divideData ⟨tag, s⟩ =
        (Connection.subscript pieces 0).map fun first => (pieces, ⟨first, s⟩)) ∧
      [colon].intercalate pieces ++ (if s.getLast? = some colon then [colon] else []) = s := by
  have hindex : Receiver.dataStorage s = some (tokens colon s) := by
    rw [Receiver.dataStorage_eq_split hlen, Receiver.split_eq_tokens]
  have hstream := Connection.dividedData_eq_tokens s
  refine ⟨tokens colon s, hindex, hstream, fun tag => ?_, intercalate_tokens colon s⟩
  rw [Connection.divideData_eq, hstream]

theorem splitters_agree_trailing :
    (str ":a::b:").length < 2 ^ 31 ∧
      Receiver.dataStorage (str ":a::b:") = some [[], str "a", [], str "b"] ∧
      ∃ pieces, Receiver.dataStorage (str ":a::b:") = some pieces ∧
        Connection.dividedData (str ":a::b:") = pieces ∧
        (∀ tag, Connection.divideData ⟨tag, str ":a::b:"⟩ =
          (Connection.subscript pieces 0).map fun first => (pieces, ⟨first, str ":a::b:"⟩)) ∧
        [colon].intercalate pieces ++
          (if (str ":a::b:").getLast? = some colon then [colon] else []) = str ":a::b:" :=
  ⟨by simp [str], by decide +kernel, splitters_agree (by simp [str])⟩

/-- The bound is needed. -/
theorem splitters_differ {s : Bytes} (hlo : 2 ^ 31 ≤ s.length) (hhi : s.length < 2 ^ 32) :
    Receiver.dataStorage s ≠ some (Connection.dividedData s) := by
  have hne : s ≠ [] := List.ne_nil_of_length_pos (by omega)
  rw [Receiver.dataStorage_long hlo hhi, Connection.dividedData_eq_tokens]
  exact fun h => tokens_ne_nil hne (Option.some.inj h).symm

end Chat
