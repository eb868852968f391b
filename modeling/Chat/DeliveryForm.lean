import Chat.Frames
import Chat.Greeting
import Chat.Receiver

/-! The form of the messages in the queues: the receiving client splits a delivery into the room, the
sender and the text just if no field has a separator of its own. -/
namespace Chat
open Transition Tokens

/-- A line with the tag of a delivery, and a separator after that tag's own before any newline. -/
def Forged (l : Bytes) : Prop :=
  ∃ piece more, fields l = tagDelivery :: piece :: more ∧ newline ∉ piece

theorem decode_colonFree {l : Bytes} {m : Message} (h : decode l = some m)
    (htag : m.tag ≠ tagDelivery) : colon ∉ m.data := by
  have hfield : ∀ f ∈ fields l, colon ∉ f := fun f hf => sep_notMem hf
  unfold decode at h
  generalize fields l = fs at h hfield
  match fs, h with
  | tag :: data :: more, h =>
    simp only at h
    split at h
    · next hdelivery =>
      match more, h with
      | sender :: text :: _, h =>
        obtain rfl := Option.some.inj h
        exact absurd hdelivery htag
    · obtain rfl := Option.some.inj h
      exact hfield data (by simp)

/-- A separator is left of a text just if no newline comes before it. -/
private theorem colon_mem_removeNewline {piece : Bytes} (h : colon ∉ piece) (more : Bytes) :
    colon ∈ removeNewline (piece ++ colon :: more) ↔ newline ∉ piece := by
  constructor
  · intro hcolon hnewline
    obtain ⟨pre, post, rfl, hpre⟩ := List.eq_append_cons_of_mem hnewline
    have hcut : removeNewline (pre ++ newline :: post ++ colon :: more) = pre := by
      have hall : ∀ b ∈ pre, decide (b ≠ newline) = true :=
        fun b hb => decide_eq_true fun h0 => hpre (h0 ▸ hb)
      rw [removeNewline, List.append_assoc, List.takeWhile_append_of_pos hall]
      simp
    rw [hcut] at hcolon
    exact h (List.mem_append_left _ hcolon)
  · intro hnone
    have hall : ∀ b ∈ piece, decide (b ≠ newline) = true :=
      fun b hb => decide_eq_true fun h0 => hnone (h0 ▸ hb)
    have hne : colon ≠ newline := by decide
    rw [removeNewline, List.takeWhile_append_of_pos hall]
    simp [hne]

/-- What is broadcast for a line has a separator just if the line is forged. -/
theorem forged_iff {l : Bytes} {m : Message} (h : decode l = some m) :
    Forged l ↔ colon ∈ removeNewline m.data := by
  have hfree := decode_colonFree h
  have hfield : ∀ f ∈ fields l, colon ∉ f := fun f hf => sep_notMem hf
  unfold Forged
  unfold decode at h
  generalize fields l = fs at h hfield
  match fs, h with
  | tag :: piece :: more, h =>
    have hpiece := hfield piece (by simp)
    simp only at h
    split at h
    · next hdelivery =>
      subst hdelivery
      match more, h with
      | sender :: text :: more, h =>
        obtain rfl := Option.some.inj h
        have hcolon := colon_mem_removeNewline hpiece (sender ++ [colon] ++ text)
        simp only [List.append_assoc, List.cons_append, List.nil_append] at hcolon ⊢
        rw [hcolon]
        simp
    · next hdelivery =>
      obtain rfl := Option.some.inj h
      have hnone : colon ∉ removeNewline piece := fun hc =>
        hfree hdelivery (mem_of_mem_removeNewline hc)
      simp [hdelivery, hnone]

/-- The data is the three fields with a separator between them, and the receiving client's split
gives them back. -/
structure Message.WellFormed (msg : Message) (room sender text : Bytes) : Prop where
  tag : msg.tag = tagDelivery
  data : msg.data = room ++ [colon] ++ sender ++ [colon] ++ text
  separators : msg.data.count colon = 2
  noNewline : newline ∉ msg.data
  noNul : 0 ∉ msg.data
  split : (decode (Connection.encode msg)).map (fun m => Receiver.split m.data) =
    some [room, sender, text ++ [newline]]

/-- A delivery is made of the names and the text as they are without their newlines. -/
private theorem delivery_stripped (roomName sender text : Bytes) :
    delivery (removeNewline roomName ++ [newline]) (removeNewline sender ++ [newline])
      (removeNewline text ++ [newline]) = delivery roomName sender text := by
  simp only [delivery, removeNewline_append_newline (newline_notMem_removeNewline _)]

private theorem plain_removeNewline {s : Bytes} (hnul : 0 ∉ s) (hcolon : colon ∉ removeNewline s) :
    Plain (removeNewline s) where
  noColon := hcolon
  noNewline := newline_notMem_removeNewline s
  noNul h := hnul (mem_of_mem_removeNewline h)

theorem delivery_wellFormed_iff {roomName sender text : Bytes} (hroom : 0 ∉ roomName)
    (hsender : 0 ∉ sender) (htext : 0 ∉ text) (croom : colon ∉ roomName) (csender : colon ∉ sender) :
    (delivery roomName sender text).WellFormed (removeNewline roomName) (removeNewline sender)
      (removeNewline text) ↔ colon ∉ removeNewline text := by
  have hproom := plain_removeNewline hroom fun h => croom (mem_of_mem_removeNewline h)
  have hpsender := plain_removeNewline hsender fun h => csender (mem_of_mem_removeNewline h)
  have hcount : (delivery roomName sender text).data.count colon =
      2 + (removeNewline text).count colon := by
    have hr := List.count_eq_zero_of_not_mem hproom.noColon
    have hs := List.count_eq_zero_of_not_mem hpsender.noColon
    simp only [delivery, List.count_append, hr, hs, List.count_singleton_self]
  constructor
  · intro h hcolon
    have htwo := h.separators
    have hpos := List.count_pos_iff.mpr hcolon
    omega
  · intro hcolon
    have hptext := plain_removeNewline htext hcolon
    have hnone := List.count_eq_zero_of_not_mem hcolon
    have hnewline : newline ≠ colon := by decide
    have hnul : (0 : UInt8) ≠ colon := by decide
    have hdecode := decode_delivery hproom hpsender hptext
    rw [delivery_stripped] at hdecode
    refine ⟨rfl, rfl, by omega, ?_, ?_, ?_⟩
    · simp [delivery, hproom.noNewline, hpsender.noNewline, hptext.noNewline, hnewline]
    · simp [delivery, hproom.noNul, hpsender.noNul, hptext.noNul, hnul]
    · rw [hdecode, Option.map_some, Receiver.split_eq_tokens,
        tokens_delivery hproom.noColon hpsender.noColon hcolon]

namespace Thread

/-- Only a message with the tag of a delivery has separators in its data, and no session is let in
with one. -/
def Split (t : Thread) : Prop :=
  (t.msg.tag ≠ tagDelivery → colon ∉ t.msg.data) ∧
    (t.pc = .loginReply true ∨ t.pc = .newUser → t.msg.tag ≠ tagDelivery)

private theorem Split.other {t t' : Thread} (h : t.Split) (hmsg : t'.msg = t.msg)
    (hpc : t'.pc ≠ .loginReply true ∧ t'.pc ≠ .newUser) : t'.Split :=
  ⟨hmsg ▸ h.1, fun h => h.elim (fun h => absurd h hpc.1) fun h => absurd h hpc.2⟩

private theorem unwelcome_of_idle {pc : Pc} (h : pc.idle = true) :
    pc ≠ .loginReply true ∧ pc ≠ .newUser := by
  constructor <;> rintro rfl <;> cases h

theorem Step.split {i : Sid} {σ : Shared} {t t' : Thread} {a : Action} (h : Step i σ t a t')
    (ht : t.Split) : t'.Split := by
  cases h with
  | inner h => cases h <;> exact ht.other rfl ⟨nofun, nofun⟩
  | accept => exact ⟨fun _ => List.not_mem_nil, by simp⟩
  | loginFail hpc => exact ht.other rfl ⟨nofun, nofun⟩
  | @loginOk buffer msg conn hpc hrec =>
    obtain ⟨l, hl⟩ := Connection.receive_accepts hrec
    refine ⟨decode_colonFree hl, fun h htag => ?_⟩
    have hother : ¬ (tagDelivery = tagSlogin ∨ tagDelivery = tagRlogin) := by decide
    have hmsg : msg.tag = tagDelivery := htag
    simp [hmsg, hother] at h
  | @loginReply accepted _ _ _ hpc =>
    cases accepted with
    | true => exact ⟨ht.1, fun _ => ht.2 (.inl hpc)⟩
    | false => exact ht.other rfl ⟨nofun, nofun⟩
  | @receiveOk buffer msg conn hpc hrec =>
    obtain ⟨l, hl⟩ := Connection.receive_accepts hrec
    have hpc' := unwelcome_of_idle (dispatch_idle t.role t.room msg.tag)
    exact ⟨decode_colonFree hl, fun h => h.elim (fun h => absurd h hpc'.1) fun h => absurd h hpc'.2⟩
  | newSender | deliver => exact ht.other rfl (unwelcome_of_idle (loopHead_idle _))
  | removeRelease => exact ht.other rfl (unwelcome_of_idle (removed_idle _))
  | memberExists => exact ht.other rfl (unwelcome_of_idle (exists_idle _ _))
  | @reply resp resume => exact ht.other rfl (unwelcome_of_idle (resumed_idle _ resume))
  | @dequeueEnd res => exact ht.other rfl (unwelcome_of_idle (dequeued_idle t res))
  | newReceiver | receiveFail | addRelease | loopEnd | close => exact ht.other rfl ⟨nofun, nofun⟩
  | subscript | nullRoom | emptyQueue => exact ht

end Thread

namespace Server

variable {es : List Event} {s : Server}

/-- No name of a room or a user has a separator in it. -/
theorem names_colonFree (hrun : Run Server.Step {} es s) :
    (∀ n r, s.shared.mRooms n = some r → colon ∉ n) ∧ ∀ u, colon ∉ (s.shared.user u).username := by
  refine named (fun n => colon ∉ n) List.not_mem_nil (fun {es s} h i hpc => ?_) hrun
  have hsplit := @thread_invariant Thread.Split ⟨fun _ => List.not_mem_nil, by simp⟩
    Thread.Step.split _ _ h i
  rcases hpc with hpc | hpc
  · exact hsplit.1 (hsplit.2 (.inr hpc))
  · have hok := ok h i
    obtain ⟨htag, -⟩ : (s.thread i).msg.tag = tagJoin ∧
        ((s.thread i).role = .receiver → (s.thread i).room = none) := by
      simpa [Thread.Ok, hpc] using hok
    exact hsplit.1 (by rw [htag]; decide)

theorem receive_decoded (hrun : Run Server.Step {} es s) {i : Sid} {n : ℕ} {m : Message}
    (h : ⟨i, n, .receive (some m)⟩ ∈ es) : ∃ l, decode l = some m := by
  obtain ⟨pre, post, rfl⟩ := List.append_of_mem h
  obtain ⟨s₁, s₂, -, hs, -⟩ := hrun.splitAt
  obtain ⟨hacts, -⟩ : s₁.Acts i (.receive (some m)) s₂ ∧ n = (s₂.thread i).serial := hs.acts
  have hstep := hacts.step
  generalize s₂.thread i = t at hstep
  cases hstep with
  | inner h => cases h
  | receiveOk _ hrec => exact Connection.receive_accepts hrec

/-- A session broadcasts under the name of its login. -/
theorem broadcast_login (hrun : Run Server.Step {} es s) {i : Sid} {n : ℕ} {r : RoomId}
    {sender text : Bytes} (h : ⟨i, n, .broadcast r sender text⟩ ∈ es) :
    ∃ login, ⟨i, 0, .login (some login)⟩ ∈ es ∧ (s.shared.user i).username = login.data := by
  obtain ⟨pre, post, rfl⟩ := List.append_of_mem h
  obtain ⟨s₁, s₂, h₁, hs, -⟩ := hrun.splitAt
  obtain ⟨hacts, -⟩ : s₁.Acts i (.broadcast r sender text) s₂ ∧ n = (s₂.thread i).serial := hs.acts
  obtain ⟨hpc, -⟩ := hacts.step.broadcast_of
  obtain ⟨login, hlogin, hnew, -⟩ :=
    (greeted h₁ i).entered (by rw [hpc]; rfl) (.inl (by simp [hpc]))
  exact ⟨login, List.mem_append_left _ hlogin,
    (newUser_username hrun (List.mem_append_left _ hnew)).2⟩

/-- A receiver and a sender in one room, where the sender's client then sends `line`. -/
private def told (line : String) : List Sched :=
  .client 0 "rlogin:bob\njoin:lobby\n" :: Sched.steps 0 11 ++
    .client 1 ("slogin:eve\njoin:lobby\n" ++ line) :: Sched.steps 1 20

end Server
end Chat
