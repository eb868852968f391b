import Chat.Stream
import Mathlib.Tactic.IntervalCases

/-! What `receive` makes of a line, against a reference decoder of lines. -/
namespace Chat
open Lines Tokens

/-- The fields of a line: an embedded NUL ends it, and a trailing empty field is dropped. -/
def fields (l : Bytes) : List Bytes := tokens colon (cString l)

/-- The reference decoder. A `delivery` line with two or three fields is outside its domain. -/
def decode (l : Bytes) : Option Message :=
  match fields l with
  | tag :: data :: more =>
    if tag = tagDelivery then
      match more with
      | sender :: text :: _ => some ⟨tag, data ++ [colon] ++ sender ++ [colon] ++ text⟩
      | _ => none
    else some ⟨tag, data⟩
  | _ => none

/-- A `delivery` line that has a second field has four. -/
def DeliveryComplete (l : Bytes) : Prop :=
  (fields l).head? = some tagDelivery → (fields l).length < 2 ∨ 4 ≤ (fields l).length

instance : DecidablePred DeliveryComplete := fun _ => inferInstanceAs (Decidable (_ → _))

/-- The fields that `receive` subscripts are there. -/
def FieldsOk (l : Bytes) : Prop := fields l ≠ [] ∧ DeliveryComplete l

theorem fieldsOk_of_decode {l : Bytes} {m : Message} (h : decode l = some m) : FieldsOk l := by
  unfold decode at h
  unfold FieldsOk DeliveryComplete
  cases hf : fields l with
  | nil => simp [hf] at h
  | cons tag more =>
    refine ⟨List.cons_ne_nil _ _, fun hhead => ?_⟩
    obtain rfl : tag = tagDelivery := Option.some.inj hhead
    match more with
    | [] => exact .inl (by simp)
    | [_] | [_, _] => simp [hf] at h
    | _ :: _ :: _ :: more => exact .inr (by simp)

namespace Connection

private theorem not_add_two_lt_two (n : ℕ) : ¬ n + 1 + 1 < 2 := by omega

theorem unpack_ok {l : Bytes} (h : FieldsOk l) (conn : Connection) (msg : Message) :
    ∃ ok m r, unpack conn { msg with data := cString l } =
        .ok (ok, m, { conn with mLastResult := r }) ∧
      match decode l with
      | none => ok = false ∧ (fields l).length < 2 ∧ r = .invalidMsg
      | some m' => ok = true ∧ 2 ≤ (fields l).length ∧ m = m' ∧ r = .success := by
  obtain ⟨hne, hdel⟩ := h
  unfold decode unpack divideData
  rw [show tokens colon (cString l) = fields l from rfl]
  cases hf : fields l with
  | nil => exact absurd hf hne
  | cons tag more =>
    rw [DeliveryComplete, hf] at hdel
    cases more with
    | nil => exact ⟨false, ⟨tag, cString l⟩, .invalidMsg, rfl, by simp⟩
    | cons data more =>
      by_cases htag : tag = tagDelivery
      · have hlen : 2 ≤ more.length := by simpa [htag, not_add_two_lt_two] using hdel
        match more, hlen with
        | sender :: text :: _, _ =>
          refine ⟨true, ⟨tag, data ++ [colon] ++ sender ++ [colon] ++ text⟩, .success, ?_,
            by simp [htag]⟩
          simp [subscript, htag, pure, Except.pure, bind, Except.bind]
      · refine ⟨true, ⟨tag, data⟩, .success, ?_, by simp [htag]⟩
        simp [subscript, htag, pure, Except.pure, bind, Except.bind]

theorem unpack_error {l : Bytes} (h : ¬ FieldsOk l) (conn : Connection) (msg : Message) :
    unpack conn { msg with data := cString l } = .error .subscript := by
  unfold unpack divideData
  rw [show tokens colon (cString l) = fields l from rfl]
  cases hf : fields l with
  | nil => rfl
  | cons tag more =>
    have hdel : ¬ DeliveryComplete l := fun hd => h ⟨by simp [hf], hd⟩
    rw [DeliveryComplete, hf, Classical.not_imp, not_or] at hdel
    obtain ⟨hhead, hlo, hhi⟩ := hdel
    obtain rfl : tag = tagDelivery := Option.some.inj hhead
    rw [List.length_cons] at hlo hhi
    have hone : 1 ≤ more.length := by omega
    have hthree : more.length < 3 := by omega
    match more, hone, hthree with
    | [_], _, _ => simp [subscript, pure, Except.pure, bind, Except.bind]
    | [_, _], _, _ => simp [subscript, pure, Except.pure, bind, Except.bind]

/-- Whatever the reads do, `receive` either reports their failure or unpacks some line: the one
it read, or at end of file what the buffer held before. -/
theorem receive_cases (conn : Connection) (buffer : Bytes) (msg : Message) :
    (∃ rp, receive conn buffer msg =
      .ok (false, msg, { conn with mFdbuf := rp, mLastResult := .eofOrError })) ∨
    ∃ l rp, receive conn buffer msg =
      unpack { conn with mFdbuf := rp } { msg with data := cString l } := by
  unfold receive
  cases hr : rioReadlineb conn.mFdbuf buffer maxLen with
  | mk d p =>
    by_cases hd : d < 0
    · exact .inl ⟨p.2, by simp [hd]⟩
    · exact .inr ⟨p.1, p.2, by simp [hd]⟩

/-- The only fault of `receive` is a subscript out of range. -/
theorem receive_fault {conn : Connection} {buffer : Bytes} {msg : Message} {f : Fault}
    (h : receive conn buffer msg = .error f) : f = .subscript := by
  rcases receive_cases conn buffer msg with ⟨rp, hr⟩ | ⟨l, rp, hr⟩
  · rw [hr] at h
    cases h
  · rw [hr] at h
    by_cases hok : FieldsOk l
    · obtain ⟨ok, m, r, hun, -⟩ := unpack_ok hok { conn with mFdbuf := rp } msg
      rw [hun] at h
      cases h
    · rw [unpack_error hok] at h
      exact (Except.error.inj h).symm

/-- A message that `receive` accepts is the decoding of some line. -/
theorem receive_accepts {conn conn' : Connection} {buffer : Bytes} {msg m : Message}
    (h : receive conn buffer msg = .ok (true, m, conn')) :
    ∃ l, decode l = some m := by
  rcases receive_cases conn buffer msg with ⟨rp, hr⟩ | ⟨l, rp, hr⟩
  · rw [hr] at h
    cases h
  · rw [hr] at h
    by_cases hok : FieldsOk l
    · obtain ⟨ok, m', r, hun, hdec⟩ := unpack_ok hok { conn with mFdbuf := rp } msg
      rw [hun] at h
      obtain ⟨rfl, rfl, -⟩ : ok = true ∧ m' = m ∧ _ = conn' := by simpa using h
      cases hd : decode l with
      | none =>
        rw [hd] at hdec
        exact absurd hdec.1 (by decide)
      | some m'' =>
        rw [hd] at hdec
        exact ⟨l, hd.trans (congrArg some hdec.2.2.1.symm)⟩
    · rw [unpack_error hok] at h
      cases h

/-- `receive` leaves the descriptor and its writing side as they were. -/
theorem receive_frame {conn conn' : Connection} {buffer : Bytes} {msg m : Message} {ok : Bool}
    (h : receive conn buffer msg = .ok (ok, m, conn')) :
    conn'.mFd = conn.mFd ∧ conn'.wire = conn.wire ∧ conn'.closes = conn.closes := by
  rcases receive_cases conn buffer msg with ⟨rp, hr⟩ | ⟨l, rp, hr⟩
  · rw [hr] at h
    obtain ⟨-, -, rfl⟩ : false = ok ∧ msg = m ∧ _ = conn' := by simpa using h
    exact ⟨rfl, rfl, rfl⟩
  · rw [hr] at h
    by_cases hok : FieldsOk l
    · obtain ⟨ok', m', r, hun, -⟩ := unpack_ok hok { conn with mFdbuf := rp } msg
      rw [hun] at h
      obtain ⟨-, -, rfl⟩ : ok' = ok ∧ m' = m ∧ _ = conn' := by simpa using h
      exact ⟨rfl, rfl, rfl⟩
    · rw [unpack_error hok] at h
      cases h

/-- A call that fails to read a line looks at no field. -/
theorem receive_fails {conn : Connection} (h : conn.mFdbuf.LineFails) (buffer : Bytes)
    (msg : Message) :
    ∃ rp, receive conn buffer msg =
      .ok (false, msg, { conn with mFdbuf := rp, mLastResult := .eofOrError }) := by
  rcases rioReadlineb_spec conn.mFdbuf buffer with ⟨-, buf, rp, hr⟩ | ⟨hno, -⟩
  · exact ⟨rp, by simp [receive, hr]⟩
  · exact absurd h hno

/-- A call that reads something unpacks exactly the next line; the buffer's old content does
not matter. -/
theorem receive_line {conn : Connection} (hf : ¬ conn.mFdbuf.LineFails)
    (hs : conn.mFdbuf.stream ≠ []) (buffer : Bytes) (msg : Message) :
    ∃ rp, rp.stream = dropLine newline lineMax conn.mFdbuf.stream ∧
      rp.broken = conn.mFdbuf.broken ∧
      receive conn buffer msg = unpack { conn with mFdbuf := rp }
        { msg with data := cString conn.mFdbuf.nextLine } := by
  rcases rioReadlineb_spec conn.mFdbuf buffer with ⟨h, -⟩ | ⟨-, rp, hst, hb, -, hr⟩
  · exact absurd h hf
  · have hl : conn.mFdbuf.nextLine ≠ [] := takeLine_ne_nil (by decide) hs
    have hlen : ¬ ((conn.mFdbuf.nextLine.length : ℤ) < 0) := by omega
    refine ⟨rp, hst, hb, ?_⟩
    simp [receive, hr hl, hlen, cString_append_terminator]

/-- A call at end of file unpacks what the buffer held before. -/
theorem receive_eof {conn : Connection} (hs : conn.mFdbuf.stream = [])
    (hb : conn.mFdbuf.broken = false) (buffer : Bytes) (msg : Message) :
    ∃ rp, rp.stream = dropLine newline lineMax conn.mFdbuf.stream ∧ rp.broken = false ∧
      receive conn buffer msg = unpack { conn with mFdbuf := rp }
        { msg with data := cString buffer } := by
  have hline : conn.mFdbuf.nextLine = [] := by rw [Rio.nextLine, hs, takeLine_nil]
  rcases rioReadlineb_spec conn.mFdbuf buffer with ⟨hfails, -⟩ | ⟨-, rp, hst, hbr, heof, -⟩
  · exact absurd (hb.symm.trans hfails.1) Bool.noConfusion
  · exact ⟨rp, hst, hbr.trans hb, by simp [receive, heof hline]⟩

theorem unpack_mFdbuf {conn conn' : Connection} {l : Bytes} {msg m : Message} {ok : Bool}
    (h : unpack conn { msg with data := cString l } = .ok (ok, m, conn')) :
    conn'.mFdbuf = conn.mFdbuf := by
  by_cases hok : FieldsOk l
  · obtain ⟨ok', m', r, hun, -⟩ := unpack_ok hok conn msg
    rw [hun] at h
    cases h
    rfl
  · rw [unpack_error hok] at h
    cases h

/-- Where reads do not fail, a call that returns has taken the next line, and says what the line
decodes to unless there was nothing left to read. -/
theorem receive_takes {conn conn' : Connection} {buffer : Bytes} {msg m : Message} {ok : Bool}
    (hb : conn.mFdbuf.broken = false) (h : receive conn buffer msg = .ok (ok, m, conn')) :
    conn'.mFdbuf.stream = dropLine newline lineMax conn.mFdbuf.stream ∧
      conn'.mFdbuf.broken = false ∧
      (conn.mFdbuf.stream ≠ [] → decode conn.mFdbuf.nextLine = if ok then some m else none) := by
  by_cases hs : conn.mFdbuf.stream = []
  · obtain ⟨rp, hst, hbr, hrec⟩ := receive_eof hs hb buffer msg
    rw [hrec] at h
    have hsame := unpack_mFdbuf h
    rw [hsame]
    exact ⟨hst, hbr, fun hne => absurd hs hne⟩
  · have hf : ¬ conn.mFdbuf.LineFails := fun hfails => by simpa [hb] using hfails.1
    obtain ⟨rp, hst, hbr, hrec⟩ := receive_line hf hs buffer msg
    rw [hrec] at h
    have hsame := unpack_mFdbuf h
    rw [hsame]
    refine ⟨hst, hbr.trans hb, fun _ => ?_⟩
    have hok : FieldsOk conn.mFdbuf.nextLine := by
      by_contra hbad
      rw [unpack_error hbad] at h
      cases h
    obtain ⟨ok', m', r, hun, hdec⟩ := unpack_ok hok { conn with mFdbuf := rp } msg
    rw [hun] at h
    obtain ⟨rfl, rfl, -⟩ : ok' = ok ∧ m' = m ∧ _ = conn' := by simpa using h
    cases hd : decode conn.mFdbuf.nextLine with
    | none =>
      rw [hd] at hdec
      simp [hdec.1]
    | some m'' =>
      rw [hd] at hdec
      simp [hdec.1, hdec.2.2.1]

/-- The connection before the `n`-th of successive calls, each with its own stale buffer. -/
def receiveN (conn : Connection) (buffer : ℕ → Bytes) (msg : ℕ → Message) :
    ℕ → Except Fault Connection
  | 0 => .ok conn
  | n + 1 => do
    let conn ← receiveN conn buffer msg n
    let (_, _, conn) ← receive conn (buffer n) (msg n)
    pure conn

/-- Each call that returns takes one line, whatever comes of it. -/
theorem receiveN_takes {conn conn' : Connection} {buffer : ℕ → Bytes} {msg₀ : ℕ → Message} {k : ℕ}
    (hb : conn.mFdbuf.broken = false) (h : receiveN conn buffer msg₀ k = .ok conn') :
    conn'.mFdbuf.stream = rest newline lineMax conn.mFdbuf.stream k ∧
      conn'.mFdbuf.broken = false := by
  induction k generalizing conn' with
  | zero =>
    obtain rfl : conn = conn' := Except.ok.inj h
    exact ⟨rfl, hb⟩
  | succ k ih =>
    obtain ⟨conn₁, hrun, h⟩ := ok_of_bind h
    obtain ⟨⟨ok, m, conn₂⟩, hrec, h⟩ := ok_of_bind h
    obtain rfl : conn₂ = conn' := Except.ok.inj h
    obtain ⟨hst, hbroken⟩ := ih hrun
    obtain ⟨hst', hbroken', -⟩ := receive_takes hbroken hrec
    exact ⟨by rw [hst', hst, rest], hbroken'⟩

theorem fieldsOk_of_nulFree {l : Bytes} (hnul : 0 ∉ l) (hl : l ≠ []) (hdel : DeliveryComplete l) :
    FieldsOk l :=
  ⟨by simpa [fields, cString_eq_self hnul] using tokens_ne_nil hl, hdel⟩

private theorem fieldsOk_line {s : Bytes} (hnul : 0 ∉ s) {k : ℕ}
    (hunread : rest newline lineMax s k ≠ []) (hdel : DeliveryComplete (line newline lineMax s k)) :
    FieldsOk (line newline lineMax s k) := by
  have hnul' : 0 ∉ line newline lineMax s k := fun h =>
    hnul (mem_of_mem_rest (mem_of_mem_takeLine h))
  exact fieldsOk_of_nulFree hnul' (takeLine_ne_nil (by decide) hunread) hdel

/-- One call on a reader whose reads do not fail takes the next line and gives what it
decodes to. -/
theorem receive_decodes {conn : Connection} (hb : conn.mFdbuf.broken = false)
    (hs : conn.mFdbuf.stream ≠ []) (hok : FieldsOk conn.mFdbuf.nextLine) (buffer : Bytes)
    (msg : Message) :
    ∃ ok m conn', receive conn buffer msg = .ok (ok, m, conn') ∧
      conn'.mFdbuf.stream = dropLine newline lineMax conn.mFdbuf.stream ∧
      conn'.mFdbuf.broken = false ∧
      match decode conn.mFdbuf.nextLine with
      | none => ok = false ∧ conn'.mLastResult = .invalidMsg
      | some m' => ok = true ∧ m = m' ∧ conn'.mLastResult = .success := by
  have hf : ¬ conn.mFdbuf.LineFails := fun h => by simpa [hb] using h.1
  obtain ⟨rp, hst, hbr, hrec⟩ := receive_line hf hs buffer msg
  obtain ⟨ok, m, r, hun, hdec⟩ := unpack_ok hok { conn with mFdbuf := rp } msg
  refine ⟨ok, m, _, hrec.trans hun, hst, hbr.trans hb, ?_⟩
  cases hd : decode conn.mFdbuf.nextLine with
  | none =>
    rw [hd] at hdec
    exact ⟨hdec.1, hdec.2.2⟩
  | some m' =>
    rw [hd] at hdec
    exact ⟨hdec.1, hdec.2.2⟩

theorem receiveN_stream (fd : Int) {reads : List ReadResult} (writes : List WriteResult)
    (buffer : ℕ → Bytes) (msg : ℕ → Message) (hread : failing reads = false)
    (hnul : 0 ∉ incoming reads) (k : ℕ)
    (hunread : rest newline lineMax (incoming reads) k ≠ [])
    (hdel : ∀ j < k, DeliveryComplete (line newline lineMax (incoming reads) j)) :
    ∃ conn, receiveN (ofFd fd reads writes) buffer msg k = .ok conn ∧
      conn.mFdbuf.stream = rest newline lineMax (incoming reads) k ∧
      conn.mFdbuf.broken = false := by
  induction k with
  | zero => exact ⟨_, rfl, rfl, hread⟩
  | succ k ih =>
    have hne := rest_ne_nil_of_succ hunread
    obtain ⟨conn, hrun, hst, hb⟩ := ih hne fun j hj => hdel j (by omega)
    have hline : conn.mFdbuf.nextLine = line newline lineMax (incoming reads) k := by
      rw [Rio.nextLine, hst, line]
    have hok : FieldsOk conn.mFdbuf.nextLine := hline ▸ fieldsOk_line hnul hne (hdel k (by omega))
    obtain ⟨ok, m, conn', hrec, hst', hb', -⟩ :=
      receive_decodes hb (by rw [hst]; exact hne) hok (buffer k) (msg k)
    refine ⟨conn', ?_, by rw [hst', hst, rest], hb'⟩
    simp [receiveN, hrun, hrec, bind, Except.bind, pure, Except.pure]

/-- Successive calls decode successive lines of the byte stream, however it was segmented. -/
theorem receive_decodes_stream (fd : Int) (reads : List ReadResult) (writes : List WriteResult)
    (buffer : ℕ → Bytes) (msg : ℕ → Message) (hread : failing reads = false)
    (hnul : 0 ∉ incoming reads) (k : ℕ)
    (hunread : rest newline lineMax (incoming reads) k ≠ [])
    (hdel : ∀ j ≤ k, DeliveryComplete (line newline lineMax (incoming reads) j)) :
    ∃ conn ok m conn', receiveN (ofFd fd reads writes) buffer msg k = .ok conn ∧
      receive conn (buffer k) (msg k) = .ok (ok, m, conn') ∧
      (List.range (k + 1)).flatMap (line newline lineMax (incoming reads)) ++
        conn'.mFdbuf.stream = incoming reads ∧
      match decode (line newline lineMax (incoming reads) k) with
      | none => ok = false ∧ conn'.mLastResult = .invalidMsg
      | some m' => ok = true ∧ m = m' ∧ conn'.mLastResult = .success := by
  obtain ⟨conn, hrun, hst, hb⟩ := receiveN_stream fd writes buffer msg hread hnul k hunread
    fun j hj => hdel j (by omega)
  have hline : conn.mFdbuf.nextLine = line newline lineMax (incoming reads) k := by
    rw [Rio.nextLine, hst, line]
  have hok : FieldsOk conn.mFdbuf.nextLine := hline ▸ fieldsOk_line hnul hunread (hdel k le_rfl)
  obtain ⟨ok, m, conn', hrec, hst', -, hdec⟩ :=
    receive_decodes hb (by rw [hst]; exact hunread) hok (buffer k) (msg k)
  rw [hline] at hdec
  have hrest : conn'.mFdbuf.stream = rest newline lineMax (incoming reads) (k + 1) := by
    rw [hst', hst, rest]
  exact ⟨conn, ok, m, conn', hrun, hrec, by rw [hrest, lines_append_rest], hdec⟩

/-- Two requests split over three reads, one of them interrupted. -/
def splitReads : List ReadResult :=
  [.data ⟨str "join:lob", by decide⟩, .eintr, .data ⟨str "by\nlea", by decide⟩,
    .data ⟨str "ve:bye\n", by decide⟩]

theorem receive_decodes_stream_leave :
    ∃ conn conn', receiveN (ofFd 4 splitReads []) (fun _ => []) (fun _ => {}) 1 = .ok conn ∧
      receive conn [] {} = .ok (true, ⟨tagLeave, str "bye\n"⟩, conn') := by
  obtain ⟨conn, ok, m, conn', hrun, hrec, -, hdec⟩ :=
    receive_decodes_stream 4 splitReads [] (fun _ => []) (fun _ => {}) rfl (by decide) 1
      (by decide) (fun j hj => by interval_cases j <;> decide)
  have hd : decode (line newline lineMax (incoming splitReads) 1) =
      some ⟨tagLeave, str "bye\n"⟩ := by decide
  rw [hd] at hdec
  obtain ⟨rfl, rfl, -⟩ := hdec
  exact ⟨conn, conn', hrun, hrec⟩

end Connection
end Chat
