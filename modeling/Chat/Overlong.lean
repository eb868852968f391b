import Chat.Receiver

/-! What a receiver client makes of deliveries that may be too long for `receive`. -/
namespace Chat
open Lines

/-- A receiver client goes on after the line: its `receive` gets a message, and no error. -/
def Harmless (l : Bytes) : Prop := ∃ m, decode l = some m ∧ m.tag ≠ tagErr

theorem harmless_iff {l : Bytes} : Harmless l ↔ (decode l).any (·.tag ≠ tagErr) = true := by
  unfold Harmless
  cases decode l <;> simp

instance : DecidablePred Harmless := fun _ => decidable_of_iff' _ harmless_iff

namespace Message

variable {msg : Message}

/-- The lines that `receive` makes of a message whose line takes at most two reads. -/
def pieces (msg : Message) : List Bytes :=
  if (Connection.encode msg).length ≤ lineMax then [Connection.encode msg]
  else [(Connection.encode msg).take lineMax, (Connection.encode msg).drop lineMax]

theorem OneLine.cut (h : msg.OneLine) (hlen : (Connection.encode msg).length ≤ 2 * lineMax) :
    Cut newline lineMax (Connection.encode msg) msg.pieces := by
  obtain ⟨xs, hxs, hnl⟩ := h.line
  unfold pieces
  split
  · next hshort => exact Whole.cut ⟨xs, hxs, hnl, hshort⟩
  · next hlong =>
    rw [hxs, List.length_append, List.length_singleton] at hlong hlen
    rw [hxs]
    exact cut_long hnl (by omega) (by omega)

/-- `send` takes the message and `receive` does not take its line whole, so that it gets two. -/
def Overlong (msg : Message) : Prop :=
  strlen msg.data ≤ maxLen ∧ lineMax < (Connection.encode msg).length

/-- A receiver client goes on after the message if it is too long for `receive`. -/
def Passable (msg : Message) : Prop :=
  msg.Overlong → Harmless ((Connection.encode msg).take lineMax) ∧
    Harmless ((Connection.encode msg).drop lineMax)

instance : DecidablePred Passable := fun _ =>
  inferInstanceAs (Decidable (_ ∧ _ → Harmless _ ∧ Harmless _))

theorem passable_iff (hwhole : Harmless (Connection.encode msg)) (hdata : strlen msg.data ≤ maxLen) :
    msg.Passable ↔ ∀ l ∈ msg.pieces, Harmless l := by
  unfold Passable Overlong pieces
  split
  · next hle => simp [hwhole, Nat.not_lt.mpr hle]
  · next hlong => simp [hdata, Nat.not_le.mp hlong]

end Message

/-- What `send` takes of a delivery is cut in two at most. -/
theorem cut_delivery {roomName sender text : Bytes} (hline : (delivery roomName sender text).OneLine)
    (hdata : strlen (delivery roomName sender text).data ≤ maxLen) :
    Cut newline lineMax (Connection.encode (delivery roomName sender text))
      (delivery roomName sender text).pieces := by
  have hmax : maxLen = 255 ∧ lineMax = 254 := ⟨rfl, rfl⟩
  have htag : tagDelivery.length = 8 := rfl
  refine hline.cut ?_
  rw [strlen_eq_length hline.noNul] at hdata
  rw [encode_delivery]
  simp only [List.length_append, List.length_singleton, htag]
  omega

namespace Receiver

/-- At some iteration the client takes the line of `msg`, which has `more` behind it, prints `text` for
it and goes on. -/
def Prints (conn : Connection) (username roomName : Bytes) (buffer : ℕ → Bytes) (msg : Message)
    (more text : Bytes) : Prop :=
  ∃ n c c', main conn username roomName buffer n = .ok c ∧
    c.conn.mFdbuf.stream = Connection.encode msg ++ more ∧
    main conn username roomName buffer (n + 1) = .ok c' ∧ c'.exit = none ∧ c'.stdout = c.stdout ++ text

variable {conn : Connection} {username roomName : Bytes} {buffer : ℕ → Bytes} {c c' c₀ : Client} {n : ℕ}

/-- An iteration after which the client goes on has taken a harmless line. -/
theorem body_goes_on {buffer : Bytes} (hb : c.conn.mFdbuf.broken = false) (h : body buffer c = .ok c')
    (hlive : c'.exit = none) :
    c'.conn.mFdbuf.stream = dropLine newline lineMax c.conn.mFdbuf.stream ∧
      c'.conn.mFdbuf.broken = false ∧
      (c.conn.mFdbuf.stream ≠ [] → Harmless c.conn.mFdbuf.nextLine) := by
  obtain ⟨⟨got, c₁⟩, hrec, h⟩ := ok_of_bind h
  obtain ⟨ok, m, conn₁, hreceive, rfl, rfl⟩ := Client.receive_ok hrec
  obtain ⟨hst, hbroken, hdecode⟩ := Connection.receive_takes hb hreceive
  cases ok with
  | false =>
    obtain rfl := Except.ok.inj h
    simp [Client.fail] at hlive
  | true =>
    by_cases herr : m.tag = tagErr
    · simp only [herr, if_true] at h
      obtain rfl := Except.ok.inj h
      simp [Client.fail] at hlive
    · have hconn : c'.conn = conn₁ := by
        simp only [herr, if_true, if_false] at h
        split at h
        · obtain rfl := Except.ok.inj h
          exact (print_frame _ _).1
        · obtain rfl := Except.ok.inj h
          rfl
      rw [hconn]
      exact ⟨hst, hbroken, fun hne => ⟨m, hdecode hne, herr⟩⟩

/-- A harmless line is taken, and the client goes on. -/
theorem body_harmless (hb : c.conn.mFdbuf.broken = false) (hne : c.conn.mFdbuf.stream ≠ [])
    (hharmless : Harmless c.conn.mFdbuf.nextLine) (buffer : Bytes) :
    ∃ c', body buffer c = .ok c' ∧ c'.exit = c.exit := by
  obtain ⟨m, hdecode, herr⟩ := hharmless
  obtain ⟨ok, m', conn₁, hrec, -, -, hdec⟩ :=
    Connection.receive_decodes hb hne (fieldsOk_of_decode hdecode) buffer {}
  rw [hdecode] at hdec
  obtain ⟨rfl, rfl, -⟩ := hdec
  have hbody : body buffer c = .ok (if m'.tag = tagDelivery then
      print { c with conn := conn₁ } m'.data else { c with conn := conn₁ }) := by
    simp only [body, Client.receive, hrec, bind, Except.bind, pure, Except.pure, if_true, herr, if_false]
    split <;> rfl
  refine ⟨_, hbody, ?_⟩
  split
  · exact (print_frame _ _).2
  · rfl

/-- A client that goes on after an iteration was going on before. -/
theorem main_goes_on (h : main conn username roomName buffer (n + 1) = .ok c') (hlive : c'.exit = none) :
    ∃ c, main conn username roomName buffer n = .ok c ∧ c.exit = none ∧ body (buffer (n + 2)) c = .ok c' := by
  rw [main_succ] at h
  obtain ⟨c, hmain, h⟩ := ok_of_bind h
  cases hexit : c.exit with
  | none => exact ⟨c, hmain, hexit, by simpa [hexit] using h⟩
  | some status =>
    obtain rfl : c = c' := by simpa [hexit, pure, Except.pure] using h
    cases hexit.symm.trans hlive

/-- A client that has ended stays as it is. -/
theorem main_stays (h : main conn username roomName buffer n = .ok c) (hended : c.exit ≠ none) (m : ℕ) :
    main conn username roomName buffer (n + m) = .ok c := by
  induction m with
  | zero => exact h
  | succ m ih =>
    rw [← Nat.add_assoc, main_succ, ih]
    cases hexit : c.exit with
    | none => exact absurd hexit hended
    | some status => simp [bind, Except.bind, pure, Except.pure, hexit]

/-- A client that goes on has taken one line for each iteration, and all of them are harmless. -/
theorem main_takes (hb : conn.mFdbuf.broken = false) (h : main conn username roomName buffer n = .ok c)
    (hlive : c.exit = none) :
    c.conn.mFdbuf.stream = rest newline lineMax conn.mFdbuf.stream (2 + n) ∧
      c.conn.mFdbuf.broken = false ∧
      ∀ j < n, rest newline lineMax conn.mFdbuf.stream (2 + j) ≠ [] →
        Harmless (line newline lineMax conn.mFdbuf.stream (2 + j)) := by
  induction n generalizing c with
  | zero =>
    obtain ⟨hst, hbroken⟩ := (main_zero h hlive).2 hb
    exact ⟨hst, hbroken, fun j hj => absurd hj (Nat.not_lt_zero j)⟩
  | succ n ih =>
    obtain ⟨c₁, hmain, hexit, hbody⟩ := main_goes_on h hlive
    obtain ⟨hst, hbroken, hharmless⟩ := ih hmain hexit
    obtain ⟨hst', hbroken', hlast⟩ := body_goes_on hbroken hbody hlive
    refine ⟨hst'.trans (by rw [hst]; rfl), hbroken', fun j hj hne => ?_⟩
    rcases Nat.lt_succ_iff_lt_or_eq.mp hj with hlt | rfl
    · exact hharmless j hlt hne
    · rw [Rio.nextLine, hst] at hlast
      exact hlast hne

/-- While the lines that come are harmless, the client goes on. -/
theorem main_harmless (h : main conn username roomName buffer 0 = .ok c₀) (hlive : c₀.exit = none)
    (hb : conn.mFdbuf.broken = false)
    (hharmless : ∀ j < n, rest newline lineMax conn.mFdbuf.stream (2 + j) ≠ [] ∧
      Harmless (line newline lineMax conn.mFdbuf.stream (2 + j))) :
    ∃ c, main conn username roomName buffer n = .ok c ∧ c.exit = none := by
  induction n with
  | zero => exact ⟨c₀, h, hlive⟩
  | succ n ih =>
    obtain ⟨c, hmain, hexit⟩ := ih fun j hj => hharmless j (by omega)
    obtain ⟨hst, hbroken, -⟩ := main_takes hb hmain hexit
    obtain ⟨hne, hline⟩ := hharmless n (Nat.lt_succ_self n)
    obtain ⟨c', hbody, hsame⟩ :=
      body_harmless hbroken (by rwa [hst]) (by rwa [Rio.nextLine, hst]) (buffer (n + 2))
    refine ⟨c', ?_, hsame.trans hexit⟩
    rw [main_succ, hmain]
    simpa [bind, Except.bind, hexit] using hbody

/-- The client comes to what follows some messages just if it goes on after the lines that `receive`
makes of them. -/
theorem main_reaches_iff (h : main conn username roomName buffer 0 = .ok c₀) (hlive : c₀.exit = none)
    (hb : conn.mFdbuf.broken = false) {msgs : List Message} {more : Bytes}
    (hst : rest newline lineMax conn.mFdbuf.stream 2 = lines msgs ++ more) (hne : more ≠ [])
    (hcut : ∀ msg ∈ msgs, Cut newline lineMax (Connection.encode msg) msg.pieces) :
    (∃ n c, main conn username roomName buffer n = .ok c ∧ c.exit = none ∧
      c.conn.mFdbuf.stream = more) ↔ ∀ msg ∈ msgs, ∀ l ∈ msg.pieces, Harmless l := by
  have hall : Cut newline lineMax (lines msgs) (msgs.flatMap Message.pieces) := Cut.flatten hcut
  have hend : rest newline lineMax conn.mFdbuf.stream (2 + (msgs.flatMap Message.pieces).length) =
      more := by
    rw [rest_add, hst, hall.rest]
  have hline : ∀ j p, (msgs.flatMap Message.pieces)[j]? = some p →
      line newline lineMax conn.mFdbuf.stream (2 + j) = p := fun j p hp => by
    rw [line_add, hst, hall.line more j p hp]
  have hleft : ∀ j < (msgs.flatMap Message.pieces).length,
      rest newline lineMax conn.mFdbuf.stream (2 + j) ≠ [] := fun j hj =>
    rest_ne_nil_of_le (Nat.add_le_add_left hj.le 2) (hend ▸ hne)
  constructor
  · rintro ⟨n, c, hmain, hexit, hstream⟩ msg hmsg l hl
    obtain ⟨hst', -, hharmless⟩ := main_takes hb hmain hexit
    have hn : 2 + n = 2 + (msgs.flatMap Message.pieces).length :=
      rest_injective (show 0 < lineMax by decide) (by rw [← hst', hstream, hend]) (by rwa [hend])
    obtain ⟨j, hj, rfl⟩ := List.mem_iff_getElem.mp (List.mem_flatMap.mpr ⟨msg, hmsg, hl⟩)
    have hthis := hharmless j (by omega) (hleft j hj)
    rwa [hline j _ (List.getElem?_eq_getElem hj)] at hthis
  · intro hharmless
    obtain ⟨c, hmain, hexit⟩ := main_harmless h hlive hb fun j hj => by
      refine ⟨hleft j hj, ?_⟩
      rw [hline j _ (List.getElem?_eq_getElem hj)]
      obtain ⟨msg, hmsg, hl⟩ := List.mem_flatMap.mp (List.getElem_mem hj)
      exact hharmless msg hmsg _ hl
    exact ⟨_, c, hmain, hexit, (main_takes hb hmain hexit).1.trans hend⟩

/-- A client that prints a message when it comes to it prints it just if it comes to it. -/
theorem prints_iff {msg : Message} {more text : Bytes} (hb : conn.mFdbuf.broken = false)
    (hbody : ∀ c : Client, c.conn.mFdbuf.broken = false →
      c.conn.mFdbuf.stream = Connection.encode msg ++ more → ∀ buffer, ∃ c', body buffer c = .ok c' ∧
        c'.exit = c.exit ∧ c'.stdout = c.stdout ++ text) :
    Prints conn username roomName buffer msg more text ↔
      ∃ n c, main conn username roomName buffer n = .ok c ∧ c.exit = none ∧
        c.conn.mFdbuf.stream = Connection.encode msg ++ more := by
  constructor
  · rintro ⟨n, c, c', hmain, hstream, hnext, hlive, -⟩
    obtain ⟨c₁, hmain', hexit, -⟩ := main_goes_on hnext hlive
    obtain rfl : c = c₁ := Except.ok.inj (hmain.symm.trans hmain')
    exact ⟨n, c, hmain, hexit, hstream⟩
  · rintro ⟨n, c, hmain, hexit, hstream⟩
    obtain ⟨c', hnext, hsame, hstdout⟩ :=
      hbody c (main_takes hb hmain hexit).2.1 hstream (buffer (n + 2))
    refine ⟨n, c, c', hmain, hstream, ?_, hsame.trans hexit, hstdout⟩
    rw [main_succ, hmain]
    simpa [bind, Except.bind, hexit] using hnext

end Receiver
end Chat
