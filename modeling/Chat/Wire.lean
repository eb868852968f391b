import Chat.Connection

/-! What sending a message does to the wire. -/
namespace Chat

namespace Wire

/-- What `send` does to the wire, and its result. -/
def send (wire : Wire) (msg : Message) : Bool × Wire :=
  if strlen msg.data > maxLen then (false, wire)
  else
    let (ok, writes, out) := writeLoop wire.writes (cString (Connection.encode msg))
    (ok, ⟨writes, wire.written ++ out⟩)

/-- The wire after several messages, and the results of sending them. -/
def sendAll (wire : Wire) : List Message → List Bool × Wire
  | [] => ([], wire)
  | msg :: msgs =>
    let (sent, wire) := wire.send msg
    let (sents, wire) := wire.sendAll msgs
    (sent :: sents, wire)

theorem sendAll_append (wire : Wire) (msgs msgs' : List Message) :
    wire.sendAll (msgs ++ msgs') = ((wire.sendAll msgs).1 ++ ((wire.sendAll msgs).2.sendAll msgs').1,
      ((wire.sendAll msgs).2.sendAll msgs').2) := by
  induction msgs generalizing wire with
  | nil => rfl
  | cons msg msgs ih => simp [sendAll, ih]

/-- The writes take `n` bytes before one of them fails for good. -/
def takes : List WriteResult → ℕ → Bool
  | _, 0 => true
  | [], _ + 1 => true
  | .wrote k :: ws, n + 1 => takes ws (n + 1 - k)
  | .failed true :: ws, n + 1 => takes ws (n + 1)
  | .failed false :: _, _ + 1 => false

theorem takes_nil (n : ℕ) : takes [] n = true := by
  cases n <;> rfl

theorem writeLoop_takes (ws : List WriteResult) (bs : Bytes) :
    (writeLoop ws bs).1 = takes ws bs.length := by
  induction ws generalizing bs with
  | nil => cases bs <;> rfl
  | cons w ws ih =>
    cases bs with
    | nil => rfl
    | cons b bs =>
      cases w with
      | wrote n => simpa [writeLoop, takes] using ih ((b :: bs).drop n)
      | failed eintr =>
        cases eintr with
        | true => simpa [writeLoop, takes] using ih (b :: bs)
        | false => rfl

/-- A loop that completes has written everything. -/
theorem writeLoop_whole {ws : List WriteResult} {bs : Bytes} (h : takes ws bs.length = true) :
    (writeLoop ws bs).2.2 = bs := by
  induction ws generalizing bs with
  | nil => cases bs <;> rfl
  | cons w ws ih =>
    cases bs with
    | nil => rfl
    | cons b bs =>
      cases w with
      | wrote n =>
        have hrest := @ih ((b :: bs).drop n) (by simpa [takes] using h)
        simp only [writeLoop, hrest]
        exact List.take_append_drop _ _
      | failed eintr =>
        cases eintr with
        | true => exact @ih (b :: bs) h
        | false => simp [takes] at h

theorem writeLoop_nothing {ws : List WriteResult} {bs : Bytes} (hbs : bs ≠ []) :
    (writeLoop ws bs).2.2 = [] ↔ takes ws 1 = false := by
  induction ws with
  | nil => cases bs <;> simp_all [writeLoop, takes]
  | cons w ws ih =>
    cases bs with
    | nil => exact absurd rfl hbs
    | cons b bs =>
      cases w with
      | wrote n =>
        have hone : 1 - (n : ℕ) = 0 := by
          have hpos := n.pos
          omega
        simp [writeLoop, takes, hone, n.pos.ne']
      | failed eintr =>
        cases eintr with
        | true => exact ih
        | false => simp [writeLoop, takes]

/-- No `write` fails for good. -/
def Healthy (wire : Wire) : Prop := .failed false ∉ wire.writes

private theorem writeLoop_healthy {ws : List WriteResult} (h : .failed false ∉ ws) (bs : Bytes) :
    ∃ ws', .failed false ∉ ws' ∧ writeLoop ws bs = (true, ws', bs) := by
  induction ws generalizing bs with
  | nil => cases bs <;> exact ⟨[], h, rfl⟩
  | cons w ws ih =>
    have hws : .failed false ∉ ws := fun hmem => h (List.mem_cons_of_mem _ hmem)
    cases bs with
    | nil => exact ⟨w :: ws, h, rfl⟩
    | cons b bs =>
      cases w with
      | wrote n =>
        obtain ⟨ws', hws', hloop⟩ := ih hws ((b :: bs).drop n)
        exact ⟨ws', hws', by simp [writeLoop, hloop]⟩
      | failed eintr =>
        cases eintr with
        | true =>
          obtain ⟨ws', hws', hloop⟩ := ih hws (b :: bs)
          exact ⟨ws', hws', by simp [writeLoop, hloop]⟩
        | false => exact absurd List.mem_cons_self h

/-- On a wire that does not fail, a message within the limit goes out whole. -/
theorem send_healthy {wire : Wire} (h : wire.Healthy) {msg : Message}
    (hfit : strlen msg.data ≤ maxLen) :
    (wire.send msg).1 = true ∧ (wire.send msg).2.Healthy ∧
      (wire.send msg).2.written = wire.written ++ cString (Connection.encode msg) := by
  obtain ⟨ws', hws', hloop⟩ := writeLoop_healthy h (cString (Connection.encode msg))
  have hlong : ¬ strlen msg.data > maxLen := by omega
  simp [send, hlong, hloop, Healthy, hws']

/-- A message that `send` takes has gone out up to its first NUL. -/
theorem send_whole {wire : Wire} {msg : Message} (h : (wire.send msg).1 = true) :
    (wire.send msg).2.written = wire.written ++ cString (Connection.encode msg) := by
  unfold send at h ⊢
  by_cases hlong : strlen msg.data > maxLen
  · simp [hlong] at h
  · simp only [hlong, if_false] at h ⊢
    rw [writeLoop_takes] at h
    rw [writeLoop_whole h]

/-- A wire that does not fail keeps what it carries, whatever is sent next. -/
theorem send_grows {wire : Wire} (h : wire.Healthy) (msg : Message) :
    (wire.send msg).2.Healthy ∧ wire.written <+: (wire.send msg).2.written := by
  by_cases hlong : strlen msg.data > maxLen
  · simpa [send, hlong] using h
  · obtain ⟨-, hhealthy, hwritten⟩ := send_healthy h (Nat.le_of_not_lt hlong)
    rw [hwritten]
    exact ⟨hhealthy, List.prefix_append _ _⟩

theorem sendAll_grows {wire : Wire} (h : wire.Healthy) (msgs : List Message) :
    (wire.sendAll msgs).2.Healthy ∧ wire.written <+: (wire.sendAll msgs).2.written := by
  induction msgs generalizing wire with
  | nil => exact ⟨h, List.prefix_rfl⟩
  | cons msg msgs ih =>
    obtain ⟨hsent, hfirst⟩ := send_grows h msg
    obtain ⟨hall, hrest⟩ := ih hsent
    exact ⟨hall, hfirst.trans hrest⟩

end Wire

theorem Connection.send_wire (conn : Connection) (msg : Message) :
    ∃ r, conn.send msg =
      ((conn.wire.send msg).1, { conn with wire := (conn.wire.send msg).2, mLastResult := r }) := by
  unfold Connection.send Wire.send
  by_cases hlong : strlen msg.data > maxLen
  · exact ⟨.invalidMsg, by simp [hlong]⟩
  · have htake : (encode msg).take (strlen (encode msg)) = cString (encode msg) := by
      exact (List.prefix_iff_eq_take.mp (List.takeWhile_prefix _)).symm
    simp only [hlong, if_false, rioWriten, htake]
    cases hw : writeLoop conn.wire.writes (cString (encode msg)) with
    | mk ok p =>
      cases ok with
      | true => exact ⟨.success, by simp⟩
      | false => exact ⟨.eofOrError, by simp⟩

end Chat
