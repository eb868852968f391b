import Chat.SenderSteps

/-! Which request the sender client makes of a line of input. -/
namespace Chat

/-- `find` gives the place of the first of all occurrences. -/
theorem find_eq_some {s pat : Bytes} {n : ℕ} (h : find s pat = some n) :
    (∃ pre, pre.length = n ∧ s = pre ++ pat ++ s.drop (n + pat.length)) ∧
      ∀ pre post, s = pre ++ pat ++ post → n ≤ pre.length := by
  have htails : ∀ k (hk : k < s.tails.length), s.tails[k] = s.drop k := fun k hk => by simp
  obtain ⟨hlt, hfound, hbefore⟩ := List.findIdx?_eq_some_iff_getElem.mp h
  rw [htails n hlt, List.isPrefixOf_iff_prefix] at hfound
  obtain ⟨post, hpost⟩ := hfound
  have hn : n ≤ s.length := by simpa [Nat.lt_succ_iff] using hlt
  refine ⟨⟨s.take n, List.length_take_of_le hn, ?_⟩, fun pre post hs => ?_⟩
  · have hdrop : post = s.drop (n + pat.length) := by
      rw [← List.drop_drop, ← hpost, List.drop_left]
    rw [List.append_assoc, ← hdrop, hpost, List.take_append_drop]
  · by_contra hpre
    have hpre := hbefore pre.length (by omega)
    rw [htails, hs, List.append_assoc, List.drop_left] at hpre
    exact hpre (List.isPrefixOf_iff_prefix.mpr (List.prefix_append _ _))

namespace Sender

/-- The request that a line of input stands for: a join if it has the word for it anywhere, of what
follows the first one, and else the first of the others whose word it has. -/
inductive Selects (line : Bytes) : Command → Prop
  | join {pre roomName} : line = pre ++ str "/join " ++ roomName →
      (∀ pre' post, line = pre' ++ str "/join " ++ post → pre.length ≤ pre'.length) →
      Selects line (.join roomName)
  | leave : ¬ str "/join " <:+: line → str "/leave" <:+: line → Selects line .leave
  | quit : ¬ str "/join " <:+: line → ¬ str "/leave" <:+: line → str "/quit" <:+: line →
      Selects line .quit
  | sendall : ¬ str "/join " <:+: line → ¬ str "/leave" <:+: line → ¬ str "/quit" <:+: line →
      Selects line (.sendall line)

variable {line : Bytes}

theorem command_selects (line : Bytes) : Selects line (command line) := by
  unfold command
  cases hjoin : find line (str "/join ") with
  | some pos =>
    obtain ⟨⟨pre, rfl, hline⟩, hfirst⟩ := find_eq_some hjoin
    exact .join hline hfirst
  | none =>
    rw [find_eq_none_iff] at hjoin
    have hhas : ∀ pat, (find line pat).isSome = true ↔ pat <:+: line := fun pat => by
      rw [Option.isSome_iff_ne_none, ne_eq, find_eq_none_iff, not_not]
    simp only [hhas]
    split
    · next hleave => exact .leave hjoin hleave
    · next hleave =>
      split
      · next hquit => exact .quit hjoin hleave hquit
      · next hquit => exact .sendall hjoin hleave hquit

/-- A line selects one command. -/
theorem Selects.unique {cmd cmd' : Command} (h : Selects line cmd) (h' : Selects line cmd') :
    cmd = cmd' := by
  have hword : ∀ {pre post : Bytes}, line = pre ++ str "/join " ++ post → str "/join " <:+: line :=
    fun {pre post} hline => ⟨pre, post, hline.symm⟩
  cases h with
  | @join pre roomName hline hfirst =>
    cases h' with
    | @join pre' roomName' hline' hfirst' =>
      have hlen : pre.length = pre'.length :=
        Nat.le_antisymm (hfirst pre' roomName' hline') (hfirst' pre roomName hline)
      have hsame : pre ++ (str "/join " ++ roomName) = pre' ++ (str "/join " ++ roomName') := by
        rw [← List.append_assoc, ← List.append_assoc, ← hline, hline']
      have hrest := (List.append_inj hsame hlen).2
      rw [List.append_cancel_left hrest]
    | leave hno | quit hno | sendall hno => exact absurd (hword hline) hno
  | leave hjoin hleave =>
    cases h' with
    | join hline => exact absurd (hword hline) hjoin
    | leave => rfl
    | quit _ hno | sendall _ hno => exact absurd hleave hno
  | quit hjoin hleave hquit =>
    cases h' with
    | join hline => exact absurd (hword hline) hjoin
    | leave _ hhas => exact absurd hhas hleave
    | quit => rfl
    | sendall _ _ hno => exact absurd hquit hno
  | sendall hjoin hleave hquit =>
    cases h' with
    | join hline => exact absurd (hword hline) hjoin
    | leave _ hhas => exact absurd hhas hleave
    | quit _ _ hhas => exact absurd hhas hquit
    | sendall => rfl

theorem selects_iff {cmd : Command} : Selects line cmd ↔ cmd = command line :=
  ⟨fun h => h.unique (command_selects line), fun h => h ▸ command_selects line⟩

variable {c c' : Client} {buffer : Bytes}

/-- A request that is not too long goes out, and its response is awaited. -/
theorem body_replied (hlive : c.exit = none)
    (hdata : strlen (command c.getline.1).message.data ≤ maxLen) (hwire : c.conn.wire.Healthy)
    {resp : Message} (hresp : resp.Fits) (htag : resp.tag ≠ tagDelivery) {more : Bytes}
    (hst : c.conn.mFdbuf.stream = Connection.encode resp ++ more) :
    ∃ c', body buffer c = .ok c' ∧ c'.stdin = c.getline.2.stdin ∧ c'.conn.wire.Healthy ∧
      c'.conn.wire.written =
        c.conn.wire.written ++ cString (Connection.encode (command c.getline.1).message) ∧
      c'.conn.mFdbuf.stream = more ∧
      c'.exit = if command c.getline.1 = .quit then some 0 else none := by
  have hconn : c.getline.2.conn = c.conn := by rw [c.getline_eq]
  have hexit : c.getline.2.exit = c.exit := by rw [c.getline_eq]
  generalize hcmd : command c.getline.1 = cmd at hdata
  obtain ⟨r, hsend⟩ := c.conn.send_wire cmd.message
  obtain ⟨hsent, hhealthy, hwritten⟩ := Wire.send_healthy hwire hdata
  obtain ⟨conn, hrec, hmore, -⟩ := @Message.Fits.receive _ hresp htag
    { c.conn with wire := (c.conn.wire.send cmd.message).2, mLastResult := r } _ hst buffer {}
  have hwire' : conn.wire = (c.conn.wire.send cmd.message).2 := (Connection.receive_frame hrec).2.1
  have hcall : c.getline.2.call buffer cmd.message cmd.notSent cmd.notReceived =
      .ok (some resp.received, { c.getline.2 with conn }) := by
    rw [Client.call, hconn, hsend, hsent]
    simp [Client.receive, hrec, Bind.bind, Except.bind, pure, Except.pure]
  have hbody : body buffer c = .ok (finish cmd resp.received { c.getline.2 with conn }) := by
    simp only [body, hcmd, hcall, Bind.bind, Except.bind]
    rfl
  obtain ⟨hsame, hstdin, hend⟩ := finish_frame cmd resp.received { c.getline.2 with conn }
  refine ⟨_, hbody, hstdin, ?_⟩
  rw [hsame, hend, hwire']
  exact ⟨hhealthy, hwritten, hmore, by rw [hexit, hlive]⟩

/-- An iteration reads one line and sends the one message for it. -/
theorem body_sends (hlive : c.exit = none) (h : body buffer c = .ok c') :
    c'.stdin = c.getline.2.stdin ∧
      c'.conn.wire = (c.conn.wire.send (command c.getline.1).message).2 ∧
      (c'.exit = some 1 ∨ c'.exit = if command c.getline.1 = .quit then some 0 else none) := by
  have hconn : c.getline.2.conn = c.conn := by rw [c.getline_eq]
  have hexit : c.getline.2.exit = c.exit := by rw [c.getline_eq]
  generalize hcmd : command c.getline.1 = cmd
  simp only [body, hcmd] at h
  obtain ⟨⟨got, c₁⟩, hcall, h⟩ := ok_of_bind h
  obtain ⟨hstdin, hwire, hend⟩ := Client.call_wire hcall
  rw [hconn] at hwire
  cases got with
  | none =>
    obtain rfl : c₁ = c' := Except.ok.inj h
    exact ⟨hstdin, hwire, .inl hend⟩
  | some resp =>
    obtain rfl : finish cmd resp c₁ = c' := Except.ok.inj h
    obtain ⟨hsame, hkeep, hfinish⟩ := finish_frame cmd resp c₁
    rw [hsame, hkeep, hfinish]
    exact ⟨hstdin, hwire, .inr (by rw [hend, ← hlive, ← hexit]; rfl)⟩

/-- The message of a line without a NUL has none. -/
theorem Selects.nul {cmd : Command} (h : Selects line cmd) (hline : 0 ∉ line) :
    0 ∉ Connection.encode cmd.message := by
  cases h with
  | @join pre roomName hwords =>
    refine Message.nul_encode (show 0 ∉ tagJoin by decide) fun hmem => hline ?_
    rw [hwords]
    exact List.mem_append_right _ hmem
  | leave | quit => decide
  | sendall => exact Message.nul_encode (show 0 ∉ tagSendall by decide) hline

/-- For every line the client sends, on a connection whose writes do not fail, the one message of the
command that the line selects, up to its first NUL, or nothing if it is too long for `send`; it goes
on, unless that is a quit or the connection fails. -/
theorem line_sends_one {rest : List Bytes} (hstdin : c.stdin = line :: rest) (hlive : c.exit = none)
    (hwire : c.conn.wire.Healthy) :
    ∃ cmd, (∀ cmd', Selects line cmd' ↔ cmd' = cmd) ∧
      (0 ∉ line → cString (Connection.encode cmd.message) = Connection.encode cmd.message) ∧
      (∀ buffer c', body buffer c = .ok c' → c'.stdin = rest ∧ c'.conn.wire.Healthy ∧
        c'.conn.wire.written = c.conn.wire.written ++ (if strlen cmd.message.data ≤ maxLen then
          cString (Connection.encode cmd.message) else []) ∧
        (c'.exit = some 1 ∨ c'.exit = if cmd = .quit then some 0 else none)) ∧
      (strlen cmd.message.data ≤ maxLen → ∀ buffer resp more, resp.Fits → resp.tag ≠ tagDelivery →
        c.conn.mFdbuf.stream = Connection.encode resp ++ more →
        ∃ c', body buffer c = .ok c' ∧ c'.exit = if cmd = .quit then some 0 else none) := by
  have hline : c.getline = (line, { c with stdin := rest }) := by
    rw [c.getline_eq, hstdin]
    rfl
  refine ⟨command line, fun _ => selects_iff,
    fun hnul => cString_eq_self ((command_selects line).nul hnul), fun buffer c' hbody => ?_,
    fun hdata buffer resp more hresp htag hst => ?_⟩
  · have hsends := body_sends hlive hbody
    simp only [hline] at hsends
    obtain ⟨hrest, hsent, hexit⟩ := hsends
    refine ⟨hrest, ?_, ?_, hexit⟩
    · rw [hsent]
      exact (Wire.send_grows hwire _).1
    · rw [hsent]
      split
      · next hdata => exact (Wire.send_healthy hwire hdata).2.2
      · next hlong => simp [Wire.send, Nat.not_le.mp hlong]
  · have hreplied := @body_replied c buffer hlive (by rwa [hline]) hwire resp hresp htag more hst
    simp only [hline] at hreplied
    obtain ⟨c', hbody, -, -, -, -, hexit⟩ := hreplied
    exact ⟨c', hbody, hexit⟩

/-- A client that has logged in, with a line to read and a response on its stream. -/
private def typing (line : Bytes) : Client :=
  { conn := .ofFd 3 [.data ⟨str "ok:done\n", by decide⟩] [], stdin := [line] }

theorem line_sends_one_text : Selects (str "hi all") (.sendall (str "hi all")) ∧
    ∃ c', body [] (typing (str "hi all")) = .ok c' ∧
      c'.conn.wire.written = str "sendall:hi all\n" ∧ c'.exit = none := by
  have hline : Selects (str "hi all") (.sendall (str "hi all")) :=
    .sendall (by decide) (by decide) (by decide)
  obtain ⟨cmd, hselects, -, hsends, hgoes⟩ :=
    @line_sends_one (str "hi all") (typing (str "hi all")) [] rfl rfl List.not_mem_nil
  obtain rfl := (hselects _).mp hline
  obtain ⟨c', hbody, hexit⟩ := hgoes (by decide) [] ⟨tagOk, str "done"⟩ [] (by decide) (by decide) rfl
  obtain ⟨-, -, hwritten, -⟩ := hsends [] c' hbody
  exact ⟨hline, c', hbody, hwritten, hexit⟩

/-- A chat text that mentions a command, and one command after another. -/
theorem command_word_inside :
    (body [] (typing (str "type /quit to leave"))).map (fun c => (c.conn.wire.written, c.exit)) =
      .ok (str "quit:bye\n", some 0) ∧
    (body [] (typing (str "/leave /join cafe"))).map (fun c => (c.conn.wire.written, c.exit)) =
      .ok (str "join:cafe\n", none) :=
  ⟨rfl, rfl⟩

end Sender
end Chat
