import Chat.Codec
import Chat.Outbox

/-! Which of the messages in the queues fit into a frame of the protocol. -/
namespace Chat
open Transition Tokens

theorem decode_nulFree {l : Bytes} {m : Message} (h : decode l = some m) : 0 ∉ m.data := by
  have hfield : ∀ f ∈ fields l, 0 ∉ f := fun f hf h0 =>
    zero_notMem_cString l (mem_of_mem_tokens hf h0).1
  unfold decode at h
  generalize fields l = fs at h hfield
  match fs, h with
  | tag :: data :: more, h =>
    simp only at h
    split at h
    · match more, h with
      | sender :: text :: _, h =>
        obtain rfl := Option.some.inj h
        have hdata := hfield data (by simp)
        have hsender := hfield sender (by simp)
        have htext := hfield text (by simp)
        simp [hdata, hsender, htext, colon]
    · obtain rfl := Option.some.inj h
      exact hfield data (by simp)

namespace Server

variable {es : List Event} {s s' : Server}

/-- No name and no text that the server keeps has a NUL in it. -/
structure Clean (s : Server) : Prop where
  msg : ∀ i, 0 ∉ (s.thread i).msg.data
  registry : ∀ n r, s.shared.mRooms n = some r → 0 ∉ n
  username : ∀ u, 0 ∉ (s.shared.user u).username

private theorem clean_msg {i : Sid} {σ : Shared} {t t' : Thread} {a : Action}
    (h : Thread.Step i σ t a t') (ht : 0 ∉ t.msg.data) : 0 ∉ t'.msg.data := by
  cases h with
  | inner h => cases h <;> exact ht
  | accept => simp
  | loginOk _ hrec | receiveOk _ hrec =>
    obtain ⟨l, hl⟩ := Connection.receive_accepts hrec
    exact decode_nulFree hl
  | _ => exact ht

/-- The registered names and the users' names are data of messages that sessions had at hand when
they made the room or the user. -/
theorem named (P : Bytes → Prop) (h₀ : P [])
    (hdata : ∀ {es s}, Run Server.Step {} es s → ∀ i,
      (s.thread i).pc = .newUser ∨ (s.thread i).pc = .findOrCreateRoom .body → P (s.thread i).msg.data)
    (hrun : Run Server.Step {} es s) :
    (∀ n r, s.shared.mRooms n = some r → P n) ∧ ∀ u, P (s.shared.user u).username := by
  refine hrun.invariant (fun _ s => (∀ n r, s.shared.mRooms n = some r → P n) ∧
    ∀ u, P (s.shared.user u).username) ⟨by simp, fun _ => h₀⟩ ?_
  intro es s e s' hrun ⟨hregistry, husername⟩ hs
  obtain ⟨i, k, a⟩ := e
  obtain ⟨hacts, -⟩ : s.Acts i a s' ∧ k = (s'.thread i).serial := hs.acts
  constructor
  · intro n r hn
    rcases hacts.effect.registry with ⟨hm, -, -⟩ | ⟨m, q, rfl, -, hm, -⟩
    · exact hregistry n r (hm ▸ hn)
    · by_cases hnm : n = m
      · obtain ⟨hpc, hname, -⟩ := hacts.step.find_of
        rw [hnm, hname]
        exact hdata hrun i (.inr hpc)
      · rw [hm, Function.update_of_ne hnm] at hn
        exact hregistry n r hn
  · intro u
    by_cases hnew : ∃ username, a = .newUser username ∧ u = i
    · obtain ⟨username, rfl, rfl⟩ := hnew
      obtain ⟨hpc, hname⟩ := hacts.step.newUser_data
      rw [hacts.effect.newUser_name, hname]
      exact hdata hrun u (.inl hpc)
    · rw [hacts.effect.username fun username ha hu => hnew ⟨username, ha, hu⟩]
      exact husername u

theorem clean (hrun : Run Server.Step {} es s) : Clean s := by
  have hmsg : ∀ {es s}, Run Server.Step {} es s → ∀ i, 0 ∉ (s.thread i).msg.data :=
    fun h i => @thread_invariant (fun t => 0 ∉ t.msg.data) (by simp) clean_msg _ _ h i
  obtain ⟨hregistry, husername⟩ :=
    named (fun n => 0 ∉ n) List.not_mem_nil (fun h i _ => hmsg h i) hrun
  exact ⟨hmsg hrun, hregistry, husername⟩

/-- No text that is broadcast has a NUL in it. -/
theorem broadcast_clean (hrun : Run Server.Step {} es s) {i : Sid} {n : ℕ} {r : RoomId}
    {sender text : Bytes} (h : ⟨i, n, .broadcast r sender text⟩ ∈ es) : 0 ∉ text := by
  obtain ⟨pre, post, rfl⟩ := List.append_of_mem h
  obtain ⟨s₁, s₂, h₁, hs, -⟩ := hrun.splitAt
  obtain ⟨hacts, -⟩ : s₁.Acts i (.broadcast r sender text) s₂ ∧ n = (s₂.thread i).serial := hs.acts
  obtain ⟨-, -, -, rfl, -⟩ := hacts.step.broadcast_of
  exact (clean h₁).msg i

end Server

/-- The message goes out as one frame: `send` takes it and puts its whole encoding on a wire
that does not fail, and the encoding is within the protocol's limit. -/
def Transmittable (msg : Message) : Prop :=
  (∀ conn : Connection, conn.wire.Healthy → ∃ conn', conn.send msg = (true, conn') ∧
    conn'.wire.written = conn.wire.written ++ Connection.encode msg) ∧
  (Connection.encode msg).length ≤ maxLen

private theorem length_delivery (roomName sender text : Bytes) :
    (delivery roomName sender text).data.length = (removeNewline roomName).length +
      (removeNewline sender).length + (removeNewline text).length + 2 := by
  simp only [delivery, List.length_append, List.length_singleton]
  omega

theorem transmittable_iff {roomName sender text : Bytes} (hroom : 0 ∉ roomName)
    (hsender : 0 ∉ sender) (htext : 0 ∉ text) :
    Transmittable (delivery roomName sender text) ↔ (removeNewline roomName).length +
      (removeNewline sender).length + (removeNewline text).length ≤ 243 := by
  have hdata : 0 ∉ (delivery roomName sender text).data := by
    have hroom' : 0 ∉ removeNewline roomName := fun h => hroom (mem_of_mem_removeNewline h)
    have hsender' : 0 ∉ removeNewline sender := fun h => hsender (mem_of_mem_removeNewline h)
    have htext' : 0 ∉ removeNewline text := fun h => htext (mem_of_mem_removeNewline h)
    simp [delivery, hroom', hsender', htext', colon]
  have hlength : (Connection.encode (delivery roomName sender text)).length =
      (removeNewline roomName).length + (removeNewline sender).length +
        (removeNewline text).length + 12 := by
    have htag : tagDelivery.length = 8 := rfl
    rw [encode_delivery]
    simp only [List.length_append, List.length_singleton, length_delivery, htag]
    omega
  have hmax : maxLen = 255 := rfl
  constructor
  · rintro ⟨-, hle⟩
    omega
  · intro hle
    refine ⟨fun conn hconn => ?_, by omega⟩
    have hfit : strlen (delivery roomName sender text).data ≤ maxLen := by
      rw [strlen_eq_length hdata, length_delivery]
      omega
    have hwhole : cString (Connection.encode (delivery roomName sender text)) =
        Connection.encode (delivery roomName sender text) := by
      refine cString_eq_self ?_
      have htag : (0 : UInt8) ∉ tagDelivery := by decide
      simp [encode_delivery, hdata, htag, colon, newline]
    obtain ⟨hsent, -, hwritten⟩ := Wire.send_healthy hconn hfit
    obtain ⟨res, hsend⟩ := conn.send_wire (delivery roomName sender text)
    exact ⟨_, by rw [hsend, hsent], by rw [hwritten, hwhole]⟩

namespace Server

variable {es : List Event} {s : Server}

/-- A message in a queue comes from a broadcast, and goes out as one frame just if the room's
name, the sender's and the text have no more than 243 characters between them. -/
theorem queued_transmittable_iff (hrun : Run Server.Step {} es s) {u : Sid} {msg : Message}
    (hmsg : msg ∈ (s.shared.user u).mqueue.mMessages) :
    ∃ i n r sender text roomName, ⟨i, n, .queue u (.push msg)⟩ ∈ es ∧
      ⟨i, n, .broadcast r sender text⟩ ∈ es ∧ s.shared.mRooms roomName = some r ∧
      msg = delivery roomName sender text ∧
      (Transmittable msg ↔ (removeNewline roomName).length + (removeNewline sender).length +
        (removeNewline text).length ≤ 243) := by
  obtain ⟨p, hp, rfl⟩ := exists_post hrun (List.mem_append_right _ hmsg)
  obtain ⟨r, text, roomName, hcast, hname, hdelivery⟩ := post_origin hrun hp
  have hclean := clean hrun
  refine ⟨p.session, p.serial, r, _, text, roomName, mem_posts hp, hcast, hname, hdelivery, ?_⟩
  rw [hdelivery]
  exact transmittable_iff (hclean.registry _ _ hname) (hclean.username _)
    (broadcast_clean hrun hcast)

/-- The bytes of a name or text of 85 characters. -/
def wide (b : UInt8) : Bytes := List.replicate 85 b

def wideReads : List ReadResult :=
  [.data ⟨str "rlogin:bob\njoin:" ++ wide 114 ++ [newline], by decide +kernel⟩]

/-- A receiver, and a sender whose name, room and first text have 85 characters each. -/
def wideLobby : List Sched :=
  .accept 0 4 wideReads [] :: Sched.steps 0 11 ++
  .accept 1 5 [.data ⟨str "slogin:" ++ wide 117 ++ str "\njoin:" ++ wide 114 ++ str "\nsendall:" ++
    wide 116 ++ str "\nsendall:hi\n", by decide +kernel⟩] [] :: Sched.steps 1 35

set_option maxRecDepth 4000 in
theorem queued_not_transmittable : ∃ es s msg, Run Server.Step {} es s ∧
    ⟨1, 2, .reply sendallOk true⟩ ∈ es ∧ msg ∈ (s.shared.user 0).mqueue.mMessages ∧
    ¬ Transmittable msg := by
  obtain ⟨⟨es, s⟩, h⟩ :=
    Option.isSome_iff_exists.mp (show (outcome wideLobby).isSome = true by decide +kernel)
  have hreply : (outcome wideLobby).bind (fun p => p.1[35]?) = some ⟨1, 2, .reply sendallOk true⟩ := rfl
  have hlengths : (outcome wideLobby).map (fun p => (p.2.shared.user 0).mqueue.mMessages.map fun m =>
      (Connection.encode m).length) = some [267, 184] := by decide +kernel
  rw [h] at hreply hlengths
  have hqueue : ((s.shared.user 0).mqueue.mMessages.map fun m => (Connection.encode m).length) =
      [267, 184] := Option.some.inj hlengths
  have hlong : 267 ∈ (s.shared.user 0).mqueue.mMessages.map fun m => (Connection.encode m).length := by
    rw [hqueue]
    exact List.mem_cons_self
  obtain ⟨msg, hmsg, hlength⟩ := List.mem_map.mp hlong
  refine ⟨es, s, msg, run_of_outcome h, List.mem_of_getElem? hreply, hmsg, fun hfits => ?_⟩
  have hmax : maxLen = 255 := rfl
  have hle := hfits.2
  omega

theorem queued_transmittable_iff_wideLobby : ∃ es s msg, Run Server.Step {} es s ∧
    msg ∈ (s.shared.user 0).mqueue.mMessages ∧ (Connection.encode msg).length = 184 ∧
    Transmittable msg := by
  obtain ⟨⟨es, s⟩, h⟩ :=
    Option.isSome_iff_exists.mp (show (outcome wideLobby).isSome = true by decide +kernel)
  have hlengths : (outcome wideLobby).map (fun p => (p.2.shared.user 0).mqueue.mMessages.map fun m =>
      (Connection.encode m).length) = some [267, 184] := by decide +kernel
  rw [h] at hlengths
  have hqueue : ((s.shared.user 0).mqueue.mMessages.map fun m => (Connection.encode m).length) =
      [267, 184] := Option.some.inj hlengths
  have hmem : 184 ∈ (s.shared.user 0).mqueue.mMessages.map fun m => (Connection.encode m).length := by
    rw [hqueue]
    decide
  obtain ⟨msg, hmsg, hlength⟩ := List.mem_map.mp hmem
  have hrun := run_of_outcome h
  obtain ⟨-, -, -, sender, text, roomName, -, -, -, rfl, hiff⟩ := queued_transmittable_iff hrun hmsg
  refine ⟨es, s, _, hrun, hmsg, hlength, hiff.mpr ?_⟩
  rw [encode_delivery] at hlength
  simp only [delivery, List.length_append] at hlength
  omega

end Server
end Chat
