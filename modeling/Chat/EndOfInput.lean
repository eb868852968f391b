import Chat.CommandLine

/-! The sender client's loop once its input is used up. -/
namespace Chat

/-- What the server answers a request with. -/
structure Reply (resp : Message) : Prop where
  tag : resp.tag = tagOk ∨ resp.tag = tagErr
  fits : resp.Fits

theorem Reply.ne_delivery {resp : Message} (h : Reply resp) : resp.tag ≠ tagDelivery := by
  rcases h.tag with htag | htag <;> rw [htag] <;> decide

namespace Sender

/-- A line that the loop does not survive: a quit, or one whose message cannot be sent. -/
def Stops (line : Bytes) : Prop :=
  command line = .quit ∨ maxLen < strlen (command line).message.data

instance : DecidablePred Stops := fun _ => inferInstanceAs (Decidable (_ ∨ _))

/-- What `getline` gives in the iterations from the first on, at the end of the input too. -/
def lineAt (stdin : List Bytes) (k : ℕ) : Bytes := (stdin.drop k).headD []

/-- The messages of the first `n` iterations. -/
def messages (stdin : List Bytes) (n : ℕ) : List Message :=
  (List.range n).map fun k => (command (lineAt stdin k)).message

/-- A client at its loop that can send, and has the first `n` replies of the server to come. -/
structure Served (replies : ℕ → Message) (n : ℕ) (c : Client) : Prop where
  live : c.exit = none
  healthy : c.conn.wire.Healthy
  stream : ∃ more, c.conn.mFdbuf.stream = lines ((List.range n).map replies) ++ more

/-- Within `n` iterations the loop ends, with one message at most for each line of input. -/
def Ends (stdin : List Bytes) (replies : ℕ → Message) (n : ℕ) : Prop :=
  ∀ c buffer, c.stdin = stdin → Served replies n c →
    ∃ c' k, c.loop body buffer n = .ok c' ∧ c'.exit ≠ none ∧ k ≤ stdin.length ∧
      c'.conn.wire = (c.conn.wire.sendAll (messages stdin k)).2

theorem lineAt_of_length_le {stdin : List Bytes} {k : ℕ} (h : stdin.length ≤ k) :
    lineAt stdin k = [] := by
  rw [lineAt, List.drop_eq_nil_of_le h]
  rfl

theorem lineAt_mem {stdin : List Bytes} {k : ℕ} (h : k < stdin.length) : lineAt stdin k ∈ stdin := by
  rw [lineAt, List.drop_eq_getElem_cons h]
  exact List.getElem_mem h

/-- The empty line that a used-up input gives is a chat text. -/
theorem not_stops_nil : ¬ Stops [] := by decide

variable {c c' : Client} {buffer : Bytes}

private theorem replies_drop (replies : ℕ → Message) {k m : ℕ} (hk : k < m) :
    ((List.range m).map replies).drop k = replies k :: ((List.range m).map replies).drop (k + 1) := by
  rw [List.drop_eq_getElem_cons (by simpa using hk)]
  simp

private theorem loop_succ {body : Bytes → Client → Except Fault Client} {buffer : ℕ → Bytes} {n : ℕ}
    (h : c.loop body buffer n = .ok c') (hlive : c'.exit = none) :
    c.loop body buffer (n + 1) = body (buffer n) c' := by
  rw [Client.loop, h]
  simp [Bind.bind, Except.bind, hlive]

private theorem messages_succ (stdin : List Bytes) (n : ℕ) :
    messages stdin (n + 1) = messages stdin n ++ [(command (lineAt stdin n)).message] := by
  rw [messages, List.range_succ, List.map_append]
  rfl

/-- A line that stops the loop does so with its own iteration. -/
theorem body_stops (hlive : c.exit = none) (hwire : c.conn.wire.Healthy) {resp : Message}
    (hresp : Reply resp) {more : Bytes} (hst : c.conn.mFdbuf.stream = Connection.encode resp ++ more)
    (h : Stops c.getline.1) : ∃ c', body buffer c = .ok c' ∧ c'.exit ≠ none := by
  by_cases hdata : strlen (command c.getline.1).message.data ≤ maxLen
  · obtain ⟨c', hbody, -, -, -, -, hexit⟩ :=
      @body_replied c buffer hlive hdata hwire resp hresp.fits hresp.ne_delivery more hst
    refine ⟨c', hbody, ?_⟩
    rw [hexit, if_pos (h.resolve_right (Nat.not_lt.mpr hdata))]
    exact Option.some_ne_none 0
  · have hconn : c.getline.2.conn = c.conn := by rw [c.getline_eq]
    have hcall : c.getline.2.call buffer (command c.getline.1).message (command c.getline.1).notSent
        (command c.getline.1).notReceived = .ok (none, { c.getline.2 with
          conn := { c.conn with mLastResult := .invalidMsg } }.fail (command c.getline.1).notSent) := by
      rw [Client.call, hconn, Connection.send, if_pos (Nat.not_le.mp hdata)]
      rfl
    have hbody : body buffer c = .ok ({ c.getline.2 with
        conn := { c.conn with mLastResult := .invalidMsg } }.fail (command c.getline.1).notSent) := by
      simp only [body, hcall]
      rfl
    exact ⟨_, hbody, Option.some_ne_none 1⟩

/-- The loop goes on as long as no line stops it. -/
theorem loop_goes_on {replies : ℕ → Message} (hreplies : ∀ k, Reply (replies k)) {m : ℕ}
    (hserved : Served replies m c) {buffer : ℕ → Bytes} {n : ℕ} (hn : n ≤ m)
    (hlines : ∀ k < n, ¬ Stops (lineAt c.stdin k)) :
    ∃ c', c.loop body buffer n = .ok c' ∧ c'.exit = none ∧ c'.stdin = c.stdin.drop n ∧
      c'.conn.wire.Healthy ∧ c'.conn.wire = (c.conn.wire.sendAll (messages c.stdin n)).2 ∧
      ∃ more, c'.conn.mFdbuf.stream = lines (((List.range m).map replies).drop n) ++ more := by
  induction n with
  | zero => exact ⟨c, rfl, hserved.live, rfl, hserved.healthy, rfl, hserved.stream⟩
  | succ n ih =>
    obtain ⟨c₁, hloop, hlive, hstdin, hhealthy, hwire, more, hst⟩ :=
      ih (by omega) fun k hk => hlines k (by omega)
    have hline : c₁.getline.1 = lineAt c.stdin n := by
      rw [c₁.getline_eq, hstdin]
      rfl
    obtain ⟨hquit, hdata⟩ := not_or.mp (hline ▸ hlines n (by omega))
    rw [replies_drop replies hn, lines_cons, List.append_assoc] at hst
    obtain ⟨c', hbody, hrest, hhealthy', -, hmore, hexit⟩ :=
      @body_replied c₁ (buffer n) hlive (Nat.not_lt.mp hdata) hhealthy _ (hreplies n).fits
        (hreplies n).ne_delivery _ hst
    obtain ⟨-, hsent, -⟩ := body_sends hlive hbody
    refine ⟨c', (loop_succ hloop hlive).trans hbody, by rw [hexit, if_neg hquit], ?_, hhealthy', ?_, more,
      hmore⟩
    · rw [hrest, c₁.getline_eq, hstdin, List.tail_drop]
    · rw [hsent, hwire, hline, messages_succ, Wire.sendAll_append]
      rfl

/-- Some server and network have the client come to its loop with `n` replies to come. -/
theorem exists_served {replies : ℕ → Message} (hreplies : ∀ k, Reply (replies k)) (stdin : List Bytes)
    (n : ℕ) : ∃ c : Client, c.stdin = stdin ∧ Served replies n c := by
  have hchunk : ∀ k, Connection.encode (replies k) ≠ [] ∧
      (Connection.encode (replies k)).length ≤ rioBufsize := fun k => by
    have hlength := (hreplies k).fits.length
    have hsize : lineMax ≤ rioBufsize := by decide
    refine ⟨?_, by omega⟩
    rw [Message.encode_eq]
    simp
  have hstream : ∀ ks : List ℕ, incoming (ks.map fun k =>
      .data ⟨Connection.encode (replies k), hchunk k⟩) = lines (ks.map replies) := by
    intro ks
    induction ks with
    | nil => rfl
    | cons k ks ih => simpa [incoming] using ih
  refine ⟨{
    conn := .ofFd 3 ((List.range n).map fun k => .data ⟨Connection.encode (replies k), hchunk k⟩) []
    stdin }, rfl, rfl, List.not_mem_nil, [], ?_⟩
  simpa [Connection.ofFd, Rio.stream] using hstream (List.range n)

/-- Without a line that stops it the loop reads on at the end of its input. -/
private theorem not_ends {replies : ℕ → Message} (hreplies : ∀ k, Reply (replies k)) {stdin : List Bytes}
    (hno : ∀ l ∈ stdin, ¬ Stops l) (n : ℕ) : ¬ Ends stdin replies n := by
  intro hends
  obtain ⟨c, rfl, hserved⟩ := exists_served hreplies stdin n
  obtain ⟨c', -, hloop, hend, -⟩ := hends c (fun _ => []) rfl hserved
  have hlines : ∀ k < n, ¬ Stops (lineAt c.stdin k) := by
    intro k _
    by_cases hk : k < c.stdin.length
    · exact hno _ (lineAt_mem hk)
    · rw [lineAt_of_length_le (Nat.not_lt.mp hk)]
      exact not_stops_nil
  obtain ⟨c₁, hloop₁, hlive, -⟩ := @loop_goes_on c _ hreplies n hserved (fun _ => []) n le_rfl hlines
  obtain rfl : c' = c₁ := Except.ok.inj (hloop.symm.trans hloop₁)
  exact hend hlive

/-- A server that accepts everything. -/
private def accepting (_ : ℕ) : Message := ⟨tagOk, str "done"⟩

private theorem accepting_reply (k : ℕ) : Reply (accepting k) :=
  ⟨.inl rfl, show Message.Fits ⟨tagOk, str "done"⟩ by decide⟩

end Sender
end Chat
