import Chat.BroadcastFrame
import Chat.Departure

/-! The two implementations of a sender's session, in `server.cpp` and in `sev.cpp`, each on its own
with the rooms. -/
namespace Chat

/-- A call that a session makes on the rooms or on one of them. -/
inductive RoomCall
  | findOrCreateRoom (roomName : Bytes)
  | addMember (r : RoomId) (user : Sid)
  | removeMember (r : RoomId) (user : Sid)
  | broadcastMessage (r : RoomId) (sender text : Bytes)
  deriving DecidableEq

/-- The rooms with the local `room` pointer of a session, and what the session has called and sent. -/
structure Session where
  shared : Shared
  room : Option RoomId := none
  calls : List RoomCall := []
  sent : List Message := []

namespace Session

/-- A call through the local `room` pointer. -/
def deref {α : Type} (s : Session) (k : RoomId → α) : Except Fault α :=
  match s.room with
  | some r => .ok (k r)
  | none => .error .nullRoom

def send (s : Session) (msg : Message) : Session := { s with sent := s.sent ++ [msg] }

/-- `room = server->find_or_create_room(room_name)`. -/
def findOrCreateRoom (s : Session) (roomName : Bytes) : Session :=
  let s := { s with calls := s.calls ++ [RoomCall.findOrCreateRoom roomName] }
  match s.shared.mRooms roomName with
  | some r => { s with room := some r }
  | none =>
    let r := s.shared.nRooms
    { s with
      room := some r
      shared := { s.shared with
        mRooms := Function.update s.shared.mRooms roomName (some r)
        nRooms := r + 1 }.setRoom r ⟨roomName, none, ∅⟩ }

def addMember (s : Session) (user : Sid) (r : RoomId) : Session := { s with
  calls := s.calls ++ [.addMember r user]
  shared := s.shared.setRoom r { s.shared.room r with
    members := insert user (s.shared.room r).members } }

def removeMember (s : Session) (user : Sid) (r : RoomId) : Session := { s with
  calls := s.calls ++ [.removeMember r user]
  shared := s.shared.setRoom r { s.shared.room r with
    members := (s.shared.room r).members.erase user } }

def memberExists (s : Session) (user : Sid) (r : RoomId) : Bool := user ∈ (s.shared.room r).members

def broadcastMessage (s : Session) (user : Sid) (sender text : Bytes) (r : RoomId) : Session := { s with
  calls := s.calls ++ [.broadcastMessage r sender text]
  shared := BroadcastCall.delivered ⟨user, r, sender, text⟩ (s.shared.room r).members s.shared }

/-- `while (conn->is_open())` around a body that tells whether it goes on, over what `receive` gives. The
second result is the number of messages received when the loop has ended. -/
def loop (isOpen : Bool) (body : Session → Option Message → Except Fault (Session × Bool))
    (s : Session) : List (Option Message) → Except Fault (Session × Option ℕ)
  | [] => .ok (s, if isOpen then none else some 0)
  | received :: ms =>
    if isOpen then do
      let (s, goesOn) ← body s received
      if goesOn then do
        let (s, stop) ← loop isOpen body s ms
        pure (s, stop.map (· + 1))
      else pure (s, some 1)
    else .ok (s, some 0)

end Session

namespace Server
open Session

/-- One turn of the loop of `Server::chat_with_sender` in `server.cpp`. -/
def chatWithSender (user : Sid) (s : Session) : Option Message → Except Fault (Session × Bool)
  | none => pure (s.send receiveError, false)
  | some msg =>
    if msg.tag = tagQuit then pure (s.send quitOk, false)
    else if msg.tag = tagJoin then do
      let s ← if s.room.isSome then s.deref (s.removeMember user) else pure s
      let s := s.findOrCreateRoom msg.data
      let s ← s.deref (s.addMember user)
      pure (s.send joinOk, true)
    else if msg.tag = tagLeave then do
      if ← s.deref (s.memberExists user) then
        let s ← s.deref (s.removeMember user)
        pure (s.send leaveOk, true)
      else pure (s.send leaveError, true)
    else do
      -- `room == nullptr ||` keeps the call from a null pointer
      let outside ← if s.room.isNone then pure true else s.deref fun r => !s.memberExists user r
      if outside then pure (s.send sendallError, true)
      else
        let s ← s.deref (s.broadcastMessage user (s.shared.user user).username msg.data)
        pure (s.send sendallOk, true)

/-- One turn of the loop of `Server::com_sender` in `sev.cpp`. -/
def comSender (user : Sid) (s : Session) : Option Message → Except Fault (Session × Bool)
  | none => pure (s.send ⟨tagErr, str "failed to receive message"⟩, false)
  | some message =>
    if message.tag = tagJoin then
      if s.room.isNone then do
        let s := s.findOrCreateRoom message.data
        let s ← s.deref (s.addMember user)
        pure (s.send ⟨tagOk, str "succeeded in joining room"⟩, true)
      else do
        let s ← s.deref (s.removeMember user)
        let s := s.findOrCreateRoom message.data
        let s ← s.deref (s.addMember user)
        pure (s.send ⟨tagOk, str "succeeded in joining new room"⟩, true)
    else if message.tag = tagQuit then pure (s.send { message with data := str "bye" }, false)
    else if message.tag = tagLeave then do
      if ← s.deref (s.memberExists user) then
        let s ← s.deref (s.removeMember user)
        pure (s.send ⟨tagOk, str "succeeded in leaving room"⟩, true)
      else pure (s.send ⟨tagErr, str "tried to leave room when not within one"⟩, true)
    else if s.room.isNone then pure (s.send ⟨tagErr, str "not within a room"⟩, true)
    else do
      let s ← s.deref (s.broadcastMessage user (s.shared.user user).username message.data)
      pure (s.send ⟨tagOk, str "message sent"⟩, true)

end Server

namespace Session
open Server

variable {user : Sid} {s s' s₁ s₂ s₁' s₂' : Session} {r : RoomId} {pre ms : List (Option Message)}
  {m : Option Message} {msg : Message}

/-- The sessions have nothing different that tells them what to call next. -/
structure Alike (user : Sid) (s₁ s₂ : Session) : Prop where
  room : s₁.room = s₂.room
  mRooms : s₁.shared.mRooms = s₂.shared.mRooms
  nRooms : s₁.shared.nRooms = s₂.shared.nRooms
  members : ∀ r, (s₁.shared.room r).members = (s₂.shared.room r).members
  username : (s₁.shared.user user).username = (s₂.shared.user user).username

namespace Alike

theorem refl (s : Session) : s.Alike user s := ⟨rfl, rfl, rfl, fun _ => rfl, rfl⟩

theorem symm (h : s₁.Alike user s₂) : s₂.Alike user s₁ :=
  ⟨h.room.symm, h.mRooms.symm, h.nRooms.symm, fun r => (h.members r).symm, h.username.symm⟩

theorem trans (h : s.Alike user s₁) (h' : s₁.Alike user s₂) : s.Alike user s₂ :=
  ⟨h.room.trans h'.room, h.mRooms.trans h'.mRooms, h.nRooms.trans h'.nRooms,
    fun r => (h.members r).trans (h'.members r), h.username.trans h'.username⟩

theorem send (h : s₁.Alike user s₂) (resp₁ resp₂ : Message) :
    (s₁.send resp₁).Alike user (s₂.send resp₂) :=
  ⟨h.room, h.mRooms, h.nRooms, h.members, h.username⟩

theorem addMember (h : s₁.Alike user s₂) (r : RoomId) :
    (s₁.addMember user r).Alike user (s₂.addMember user r) where
  room := h.room
  mRooms := h.mRooms
  nRooms := h.nRooms
  members q := by
    by_cases hq : q = r <;> simp [Session.addMember, Shared.setRoom, hq, h.members]
  username := h.username

theorem removeMember (h : s₁.Alike user s₂) (r : RoomId) :
    (s₁.removeMember user r).Alike user (s₂.removeMember user r) where
  room := h.room
  mRooms := h.mRooms
  nRooms := h.nRooms
  members q := by
    by_cases hq : q = r <;> simp [Session.removeMember, Shared.setRoom, hq, h.members]
  username := h.username

theorem findOrCreateRoom (h : s₁.Alike user s₂) (roomName : Bytes) :
    (s₁.findOrCreateRoom roomName).Alike user (s₂.findOrCreateRoom roomName) := by
  unfold Session.findOrCreateRoom
  dsimp only
  rw [h.mRooms, h.nRooms]
  cases s₂.shared.mRooms roomName with
  | some r => exact ⟨rfl, h.mRooms, h.nRooms, h.members, h.username⟩
  | none =>
    refine ⟨rfl, rfl, rfl, fun q => ?_, h.username⟩
    by_cases hq : q = s₂.shared.nRooms <;> simp [Shared.setRoom, hq, h.members]

/-- A broadcast changes nothing that tells the session what to call next. -/
theorem broadcastMessage (s : Session) (user : Sid) (sender text : Bytes) (r : RoomId) :
    (s.broadcastMessage user sender text r).Alike user s where
  room := rfl
  mRooms := rfl
  nRooms := rfl
  members q := by
    by_cases hq : q = r <;> simp [Session.broadcastMessage, BroadcastCall.delivered, hq]
  username := by
    simp only [Session.broadcastMessage, BroadcastCall.delivered]
    split <;> rfl

end Alike

/-- A session joins the room of a name, and leaves the one that it points to. -/
def enter (s : Session) (user : Sid) (roomName : Bytes) : Session :=
  let s := match s.room with
    | some r => s.removeMember user r
    | none => s
  (s.findOrCreateRoom roomName).addMember user ((s.shared.mRooms roomName).getD s.shared.nRooms)

/-- A session leaves a room if its user is in it. -/
def depart (s : Session) (user : Sid) (r : RoomId) : Session :=
  if s.memberExists user r then s.removeMember user r else s

theorem findOrCreateRoom_room (s : Session) (roomName : Bytes) :
    (s.findOrCreateRoom roomName).room =
      some ((s.shared.mRooms roomName).getD s.shared.nRooms) := by
  unfold findOrCreateRoom
  dsimp only
  cases s.shared.mRooms roomName <;> rfl

theorem findOrCreateRoom_sent (s : Session) (roomName : Bytes) :
    (s.findOrCreateRoom roomName).sent = s.sent := by
  unfold findOrCreateRoom
  dsimp only
  cases s.shared.mRooms roomName <;> rfl

theorem deref_some {α : Type} (h : s.room = some r) (k : RoomId → α) : s.deref k = .ok (k r) := by
  rw [deref, h]

end Session

namespace Server
open Session

variable {user : Sid} {s : Session} {r : RoomId} {msg : Message}

theorem chatWithSender_join (h : msg.tag = tagJoin) :
    chatWithSender user s (some msg) = .ok ((s.enter user msg.data).send joinOk, true) := by
  have hquit : tagJoin ≠ tagQuit := by decide
  cases hroom : s.room with
  | none =>
    have hpointer := findOrCreateRoom_room s msg.data
    simp [chatWithSender, h, hquit, hroom, enter, deref_some hpointer, Bind.bind, Except.bind, pure,
      Except.pure]
  | some r =>
    have hpointer := findOrCreateRoom_room (s.removeMember user r) msg.data
    simp [chatWithSender, h, hquit, hroom, enter, deref_some hroom, deref_some hpointer, Bind.bind,
      Except.bind, pure, Except.pure]

theorem comSender_join (h : msg.tag = tagJoin) : ∃ resp,
    comSender user s (some msg) = .ok ((s.enter user msg.data).send resp, true) := by
  cases hroom : s.room with
  | none =>
    have hpointer := findOrCreateRoom_room s msg.data
    simp [comSender, h, hroom, enter, deref_some hpointer, Bind.bind, Except.bind, pure,
      Except.pure]
  | some r =>
    have hpointer := findOrCreateRoom_room (s.removeMember user r) msg.data
    simp [comSender, h, hroom, enter, deref_some hroom, deref_some hpointer, Bind.bind,
      Except.bind, pure, Except.pure]

theorem chatWithSender_leave (h : msg.tag = tagLeave) (hroom : s.room = some r) :
    chatWithSender user s (some msg) =
      .ok ((s.depart user r).send (if s.memberExists user r then leaveOk else leaveError), true) := by
  have hquit : tagLeave ≠ tagQuit := by decide
  have hjoin : tagLeave ≠ tagJoin := by decide
  cases hfound : s.memberExists user r <;>
    simp [chatWithSender, h, hquit, hjoin, deref_some hroom, hfound, depart, Bind.bind, Except.bind, pure,
      Except.pure]

/-- A leave before the first join goes through the null pointer. -/
theorem chatWithSender_null (h : msg.tag = tagLeave) (hroom : s.room = none) :
    chatWithSender user s (some msg) = .error .nullRoom := by
  have hquit : tagLeave ≠ tagQuit := by decide
  have hjoin : tagLeave ≠ tagJoin := by decide
  simp [chatWithSender, h, hquit, hjoin, deref, hroom, Bind.bind, Except.bind]

theorem comSender_leave (h : msg.tag = tagLeave) (hroom : s.room = some r) : ∃ resp,
    comSender user s (some msg) = .ok ((s.depart user r).send resp, true) := by
  have hquit : tagLeave ≠ tagQuit := by decide
  have hjoin : tagLeave ≠ tagJoin := by decide
  cases hfound : s.memberExists user r <;>
    simp [comSender, h, hquit, hjoin, deref_some hroom, hfound, depart, Bind.bind, Except.bind, pure,
      Except.pure]

/-- A message for the branch of a sendall. -/
def Stray (msg : Message) : Prop := msg.tag ≠ tagJoin ∧ msg.tag ≠ tagLeave ∧ msg.tag ≠ tagQuit

theorem chatWithSender_stray (h : Stray msg) : chatWithSender user s (some msg) =
    .ok (match s.room with
      | some r => if s.memberExists user r then
          (s.broadcastMessage user (s.shared.user user).username msg.data r).send sendallOk
        else s.send sendallError
      | none => s.send sendallError, true) := by
  obtain ⟨hjoin, hleave, hquit⟩ := h
  cases hroom : s.room with
  | none => simp [chatWithSender, hquit, hjoin, hleave, hroom, Bind.bind, Except.bind, pure, Except.pure]
  | some r =>
    cases hfound : s.memberExists user r <;>
      simp [chatWithSender, hquit, hjoin, hleave, hroom, deref_some hroom, hfound, Bind.bind, Except.bind,
        pure, Except.pure]

/-- `sev.cpp` does not ask for the membership here. -/
theorem comSender_stray (h : Stray msg) : ∃ resp, comSender user s (some msg) =
    .ok ((match s.room with
      | some r => s.broadcastMessage user (s.shared.user user).username msg.data r
      | none => s).send resp, true) := by
  obtain ⟨hjoin, hleave, hquit⟩ := h
  cases hroom : s.room with
  | none => simp [comSender, hquit, hjoin, hleave, hroom, pure, Except.pure]
  | some r =>
    simp [comSender, hquit, hjoin, hleave, hroom, deref_some hroom, Bind.bind, Except.bind, pure,
      Except.pure]

/-- A quit or a failure, with which the loop ends. -/
def ends : Option Message → Bool
  | none => true
  | some msg => msg.tag = tagQuit

theorem ends_both {m : Option Message} (h : ends m = true) (s₁ s₂ : Session) :
    ∃ resp₁ resp₂, chatWithSender user s₁ m = .ok (s₁.send resp₁, false) ∧
      comSender user s₂ m = .ok (s₂.send resp₂, false) := by
  cases m with
  | none => exact ⟨_, _, rfl, rfl⟩
  | some msg =>
    have htag : msg.tag = tagQuit := of_decide_eq_true h
    have hjoin : tagQuit ≠ tagJoin := by decide
    exact ⟨quitOk, { msg with data := str "bye" }, by simp [chatWithSender, htag, pure, Except.pure],
      by simp [comSender, htag, hjoin, pure, Except.pure]⟩

/-- The user has left its room and has not joined again. -/
def Away (ms : List (Option Message)) : Prop := joined ms = true ∧ seated ms = false

/-- Both sessions have processed the same messages. -/
structure Together (user : Sid) (ms : List (Option Message)) (s₁ s₂ : Session) : Prop where
  alike : s₁.Alike user s₂
  pointer : joined ms = s₁.room.isSome
  member : ∀ r, s₁.room = some r → s₁.memberExists user r = seated ms
  calls : s₁.calls = s₂.calls ∨ s₁.calls.length < s₂.calls.length

end Server

namespace Session
open Server

variable {user : Sid} {s₁ s₂ : Session} {r : RoomId} {roomName : Bytes}

/-- What `enter` calls. -/
def enterCalls (s : Session) (user : Sid) (roomName : Bytes) : List RoomCall :=
  s.room.toList.map (.removeMember · user) ++ [.findOrCreateRoom roomName,
    .addMember ((s.shared.mRooms roomName).getD s.shared.nRooms) user]

theorem findOrCreateRoom_calls (s : Session) (roomName : Bytes) :
    (s.findOrCreateRoom roomName).calls = s.calls ++ [.findOrCreateRoom roomName] := by
  unfold Session.findOrCreateRoom
  dsimp only
  cases s.shared.mRooms roomName <;> rfl

theorem enter_calls (s : Session) (user : Sid) (roomName : Bytes) :
    (s.enter user roomName).calls = s.calls ++ s.enterCalls user roomName := by
  unfold enter enterCalls
  cases s.room with
  | none => simp [addMember, findOrCreateRoom_calls]
  | some r => simp [addMember, removeMember, findOrCreateRoom_calls, Shared.setRoom]

theorem Alike.enterCalls (h : s₁.Alike user s₂) (roomName : Bytes) :
    s₁.enterCalls user roomName = s₂.enterCalls user roomName := by
  rw [Session.enterCalls, Session.enterCalls, h.room, h.mRooms, h.nRooms]

theorem Alike.enter (h : s₁.Alike user s₂) (roomName : Bytes) :
    (s₁.enter user roomName).Alike user (s₂.enter user roomName) := by
  unfold Session.enter
  rw [h.room]
  cases s₂.room with
  | none =>
    dsimp only
    rw [h.mRooms, h.nRooms]
    exact (h.findOrCreateRoom roomName).addMember _
  | some r =>
    have hmoved := h.removeMember r
    dsimp only
    rw [hmoved.mRooms, hmoved.nRooms]
    exact (hmoved.findOrCreateRoom roomName).addMember _

/-- The pointer of a session that has joined is to a room that has its user. -/
theorem enter_inside (s : Session) (user : Sid) (roomName : Bytes) :
    ∃ r, (s.enter user roomName).room = some r ∧ (s.enter user roomName).memberExists user r = true := by
  unfold enter
  refine ⟨_, findOrCreateRoom_room _ _, ?_⟩
  simp [addMember, memberExists, Shared.setRoom]

theorem Alike.memberExists (h : s₁.Alike user s₂) (r : RoomId) :
    s₁.memberExists user r = s₂.memberExists user r := by
  simp only [Session.memberExists, h.members r]

theorem Alike.depart (h : s₁.Alike user s₂) (r : RoomId) :
    (s₁.depart user r).Alike user (s₂.depart user r) := by
  unfold Session.depart
  rw [h.memberExists r]
  split
  · exact h.removeMember r
  · exact h

theorem depart_calls (s : Session) (user : Sid) (r : RoomId) :
    (s.depart user r).calls = s.calls ++ if s.memberExists user r then [.removeMember r user] else [] := by
  unfold depart
  split
  · rfl
  · rw [List.append_nil]

theorem depart_outside (s : Session) (user : Sid) (r : RoomId) :
    (s.depart user r).room = s.room ∧ (s.depart user r).memberExists user r = false := by
  unfold depart
  split
  · exact ⟨rfl, by simp [removeMember, memberExists, Shared.setRoom]⟩
  · next hout => exact ⟨rfl, by simpa using hout⟩

end Session

namespace Server
open Session

variable {user : Sid} {s₁ s₂ s₁' s₂' : Session} {ms ms' : List (Option Message)} {m : Option Message}
  {msg : Message}

/-- The same calls in both sessions keep them as far apart as they are. -/
private theorem Together.called (h : Together user ms s₁ s₂) (halike : s₁'.Alike user s₂')
    {cs : List RoomCall} (h₁ : s₁'.calls = s₁.calls ++ cs) (h₂ : s₂'.calls = s₂.calls ++ cs)
    (hpointer : joined ms' = s₁'.room.isSome)
    (hmember : ∀ r, s₁'.room = some r → s₁'.memberExists user r = seated ms') :
    Together user ms' s₁' s₂' ∧ (s₁'.calls = s₂'.calls ↔ s₁.calls = s₂.calls) := by
  rw [h₁, h₂, List.append_left_inj]
  refine ⟨⟨halike, hpointer, hmember, ?_⟩, Iff.rfl⟩
  rw [h₁, h₂, List.append_left_inj, List.length_append, List.length_append]
  exact h.calls.imp_right fun hlt => Nat.add_lt_add_right hlt _

private theorem Together.join (h : Together user ms s₁ s₂) (htag : msg.tag = tagJoin) :
    ∃ s₁' s₂', chatWithSender user s₁ (some msg) = .ok (s₁', true) ∧
      comSender user s₂ (some msg) = .ok (s₂', true) ∧ Together user (ms ++ [some msg]) s₁' s₂' ∧
      (s₁'.calls = s₂'.calls ↔ s₁.calls = s₂.calls) := by
  obtain ⟨resp, h₂⟩ := @comSender_join user s₂ msg htag
  obtain ⟨r, hroom, hinside⟩ := enter_inside s₁ user msg.data
  have hjoined : joined (ms ++ [some msg]) = true := by simp [joined, isTag, htag]
  have hseated : seated (ms ++ [some msg]) = true := by simp [isTag, htag]
  refine ⟨_, _, chatWithSender_join htag, h₂, h.called ((h.alike.enter msg.data).send joinOk resp)
    (enter_calls s₁ user msg.data) ?_ ?_ fun q hq => ?_⟩
  · rw [h.alike.enterCalls]
    exact enter_calls s₂ user msg.data
  · rw [hjoined]
    exact (congrArg Option.isSome hroom).symm
  · obtain rfl : r = q := Option.some.inj (hroom.symm.trans hq)
    rw [hseated]
    exact hinside

private theorem Together.leave (h : Together user ms s₁ s₂) (htag : msg.tag = tagLeave)
    (hjoined : joined ms = true) :
    ∃ s₁' s₂', chatWithSender user s₁ (some msg) = .ok (s₁', true) ∧
      comSender user s₂ (some msg) = .ok (s₂', true) ∧ Together user (ms ++ [some msg]) s₁' s₂' ∧
      (s₁'.calls = s₂'.calls ↔ s₁.calls = s₂.calls) := by
  obtain ⟨r, hroom⟩ := Option.isSome_iff_exists.mp (h.pointer ▸ hjoined)
  obtain ⟨resp, h₂⟩ := @comSender_leave user s₂ r msg htag (h.alike.room ▸ hroom)
  obtain ⟨hkeep, hout⟩ := depart_outside s₁ user r
  have hjoin : tagLeave ≠ tagJoin := by decide
  have hseated : seated (ms ++ [some msg]) = false := by simp [isTag, htag, hjoin]
  refine ⟨_, _, chatWithSender_leave htag hroom, h₂, h.called ((h.alike.depart r).send _ resp)
    (depart_calls s₁ user r) ?_ ?_ fun q hq => ?_⟩
  · rw [h.alike.memberExists]
    exact depart_calls s₂ user r
  · rw [joined_append, hjoined, Bool.true_or, send, hkeep, hroom]
    rfl
  · obtain rfl : r = q := Option.some.inj (hroom.symm.trans (hkeep.symm.trans hq))
    rw [hseated]
    exact hout

/-- Only `sev.cpp` broadcasts for a user that is away. -/
private theorem Together.stray (h : Together user ms s₁ s₂) (hmsg : Stray msg) :
    ∃ s₁' s₂', chatWithSender user s₁ (some msg) = .ok (s₁', true) ∧
      comSender user s₂ (some msg) = .ok (s₂', true) ∧ Together user (ms ++ [some msg]) s₁' s₂' ∧
      (s₁'.calls = s₂'.calls ↔ s₁.calls = s₂.calls ∧ ¬ Away ms) := by
  obtain ⟨resp, h₂⟩ := @comSender_stray user s₂ msg hmsg
  have hjoined : joined (ms ++ [some msg]) = joined ms := by simp [joined, isTag, hmsg.1]
  have hseated : seated (ms ++ [some msg]) = seated ms := by simp [isTag, hmsg.1, hmsg.2.1]
  refine ⟨_, _, chatWithSender_stray hmsg, h₂, ?_⟩
  rw [← h.alike.room]
  cases hroom : s₁.room with
  | none =>
    have hnever : joined ms = false := by rw [h.pointer, hroom]; rfl
    obtain ⟨htogether, hcalls⟩ := @Together.called user s₁ s₂
      (s₁.send sendallError) (s₂.send resp) ms (ms ++ [some msg]) h (h.alike.send sendallError resp) [] (List.append_nil _).symm (List.append_nil _).symm
      (hjoined.trans h.pointer) fun q hq => (h.member q hq).trans hseated.symm
    refine ⟨htogether, hcalls.trans (iff_self_and.mpr fun _ haway => ?_)⟩
    simp [haway.1] at hnever
  | some r =>
    dsimp only
    have hmember := h.member r hroom
    have hbroadcast : ∀ s : Session, (s.broadcastMessage user (s.shared.user user).username msg.data r).Alike
        user s := fun s => .broadcastMessage ..
    cases hin : seated ms with
    | true =>
      have halike := ((hbroadcast s₁).trans h.alike).trans (hbroadcast s₂).symm
      rw [if_pos (hmember.trans hin)]
      have hstays : ∀ q, s₁.room = some q → ((s₁.broadcastMessage user (s₁.shared.user user).username
          msg.data r).send sendallOk).memberExists user q = seated (ms ++ [some msg]) := fun q hq => by
        rw [hseated, ← h.member q hq]
        exact (hbroadcast s₁).memberExists q
      obtain ⟨htogether, hcalls⟩ := @Together.called user s₁ s₂ _ _ ms (ms ++ [some msg]) h
        (halike.send sendallOk resp) [.broadcastMessage r (s₁.shared.user user).username msg.data] rfl
        (by rw [h.alike.username]; rfl) (hjoined.trans h.pointer) hstays
      refine ⟨htogether, hcalls.trans (iff_self_and.mpr fun _ haway => ?_)⟩
      simp [haway.2] at hin
    | false =>
      have haway : Away ms := ⟨by rw [h.pointer, hroom]; rfl, hin⟩
      have hout : ¬ s₁.memberExists user r = true := by simp [hmember, hin]
      rw [if_neg hout]
      have hmore : s₁.calls.length < (s₂.calls ++
          [RoomCall.broadcastMessage r (s₂.shared.user user).username msg.data]).length := by
        rw [List.length_append, List.length_singleton]
        rcases h.calls with heq | hlt
        · rw [heq]
          exact Nat.lt_succ_self _
        · exact Nat.lt_succ_of_lt hlt
      refine ⟨⟨(h.alike.trans (hbroadcast s₂).symm).send sendallError resp, hjoined.trans h.pointer,
        fun q hq => (h.member q hq).trans hseated.symm, .inr hmore⟩,
        fun heq => absurd (congrArg List.length heq) (ne_of_lt hmore), fun hno => absurd haway hno.2⟩

/-- Both sessions go on with a message that is no end, and part ways at a stray one for a user that is
away. -/
theorem Together.step (h : Together user ms s₁ s₂) (hend : ends m = false)
    (hleave : isTag tagLeave m = true → joined ms = true) :
    ∃ s₁' s₂', chatWithSender user s₁ m = .ok (s₁', true) ∧ comSender user s₂ m = .ok (s₂', true) ∧
      Together user (ms ++ [m]) s₁' s₂' ∧
      (s₁'.calls = s₂'.calls ↔ s₁.calls = s₂.calls ∧
        ∀ msg, m = some msg → Stray msg → ¬ Away ms) := by
  cases m with
  | none => cases hend
  | some msg =>
    have hquit : msg.tag ≠ tagQuit := of_decide_eq_false hend
    by_cases hjoin : msg.tag = tagJoin
    · obtain ⟨s₁', s₂', h₁, h₂, htogether, hcalls⟩ := h.join hjoin
      refine ⟨s₁', s₂', h₁, h₂, htogether, hcalls.trans (iff_self_and.mpr fun _ m' hm hstray => ?_)⟩
      obtain rfl := Option.some.inj hm
      exact absurd hjoin hstray.1
    by_cases hleft : msg.tag = tagLeave
    · obtain ⟨s₁', s₂', h₁, h₂, htogether, hcalls⟩ := h.leave hleft (hleave (by simp [isTag, hleft]))
      refine ⟨s₁', s₂', h₁, h₂, htogether, hcalls.trans (iff_self_and.mpr fun _ m' hm hstray => ?_)⟩
      obtain rfl := Option.some.inj hm
      exact absurd hleft hstray.2.1
    · have hstray : Stray msg := ⟨hjoin, hleft, hquit⟩
      obtain ⟨s₁', s₂', h₁, h₂, htogether, hcalls⟩ := h.stray hstray
      refine ⟨s₁', s₂', h₁, h₂, htogether, hcalls.trans (and_congr_right fun _ => ?_)⟩
      exact ⟨fun haway m' _ _ => haway, fun hall => hall msg rfl hstray⟩

/-- The loop gets to the message after the messages `pre`. -/
def Processed (isOpen : Bool) (script pre : List (Option Message)) (msg : Message) : Prop :=
  isOpen = true ∧ (∀ m ∈ pre, ends m = false) ∧ ∃ post, script = pre ++ some msg :: post

theorem processed_cons {script pre : List (Option Message)} :
    Processed true (m :: script) pre msg ↔ pre = [] ∧ m = some msg ∨
      ends m = false ∧ ∃ pre', pre = m :: pre' ∧ Processed true script pre' msg := by
  constructor
  · rintro ⟨-, hpre, post, hscript⟩
    cases pre with
    | nil => exact .inl ⟨rfl, (List.cons.inj hscript).1⟩
    | cons m' pre' =>
      obtain ⟨rfl, hrest⟩ := List.cons.inj hscript
      exact .inr ⟨hpre m List.mem_cons_self, pre', rfl, rfl,
        fun m hm => hpre m (List.mem_cons_of_mem _ hm), post, hrest⟩
  · rintro (⟨rfl, rfl⟩ | ⟨hend, pre', rfl, -, hpre, post, rfl⟩)
    · exact ⟨rfl, by simp, script, rfl⟩
    · exact ⟨rfl, List.forall_mem_cons.mpr ⟨hend, hpre⟩, post, rfl⟩

theorem loops_agree {script : List (Option Message)} (h : Together user ms s₁ s₂)
    (hleaves : leavesFirst (ms ++ script) = false) :
    ∃ r₁ r₂ stop, loop true (chatWithSender user) s₁ script = .ok (r₁, stop) ∧
      loop true (comSender user) s₂ script = .ok (r₂, stop) ∧
      (r₁.calls = r₂.calls ↔ s₁.calls = s₂.calls ∧
        ∀ pre msg, Processed true script pre msg → Stray msg → ¬ Away (ms ++ pre)) := by
  induction script generalizing ms s₁ s₂ with
  | nil =>
    refine ⟨s₁, s₂, none, rfl, rfl, iff_self_and.mpr fun _ pre msg hmsg => ?_⟩
    obtain ⟨-, -, post, hscript⟩ := hmsg
    simp at hscript
  | cons m script ih =>
    cases hend : ends m with
    | true =>
      obtain ⟨resp₁, resp₂, h₁, h₂⟩ := @ends_both user m hend s₁ s₂
      refine ⟨s₁.send resp₁, s₂.send resp₂, some 1, by rw [loop, h₁]; rfl, by rw [loop, h₂]; rfl,
        iff_self_and.mpr fun _ pre msg hmsg hstray => ?_⟩
      rcases processed_cons.mp hmsg with ⟨-, rfl⟩ | ⟨hgoes, -⟩
      · exact absurd (of_decide_eq_true hend) hstray.2.2
      · simp [hend] at hgoes
    | false =>
      have hleave : isTag tagLeave m = true → joined ms = true := fun hm => by
        by_contra hno
        rw [leavesFirst_append, leavesFirst, hm] at hleaves
        simp [hno] at hleaves
      obtain ⟨s₁', s₂', h₁, h₂, htogether, hcalls⟩ := h.step hend hleave
      obtain ⟨r₁, r₂, stop, hr₁, hr₂, hall⟩ := ih htogether (by simpa using hleaves)
      refine ⟨r₁, r₂, stop.map (· + 1), by rw [loop, h₁]; simp [hr₁, Bind.bind, Except.bind]; rfl,
        by rw [loop, h₂]; simp [hr₂, Bind.bind, Except.bind]; rfl, hall.trans ?_⟩
      rw [hcalls, and_assoc]
      refine and_congr_right fun _ => ?_
      constructor
      · rintro ⟨hnow, hlater⟩ pre msg hmsg hstray
        rcases processed_cons.mp hmsg with ⟨rfl, rfl⟩ | ⟨-, pre', rfl, hrest⟩
        · simpa using hnow msg rfl hstray
        · simpa using hlater pre' msg hrest hstray
      · intro hpre
        constructor
        · rintro msg rfl hstray
          simpa using hpre [] msg (processed_cons.mpr (.inl ⟨rfl, rfl⟩)) hstray
        · intro pre msg hmsg hstray
          simpa using hpre (m :: pre) msg (processed_cons.mpr (.inr ⟨hend, pre, rfl, hmsg⟩)) hstray

/-- The two implementations stop at the same message, and make the same calls just if no message but a
join, a leave or a quit is processed while the user has left its room and not joined again. -/
theorem implementations_agree_iff (isOpen : Bool) (user : Sid) (σ : Shared)
    {script : List (Option Message)} (hleaves : leavesFirst script = false) :
    ∃ s₁ stop₁ s₂ stop₂, loop isOpen (chatWithSender user) { shared := σ } script = .ok (s₁, stop₁) ∧
      loop isOpen (comSender user) { shared := σ } script = .ok (s₂, stop₂) ∧
      (s₁.calls = s₂.calls ∧ stop₁ = stop₂ ↔
        ∀ pre msg, Processed isOpen script pre msg → Stray msg → ¬ Away pre) := by
  cases isOpen with
  | true =>
    have hstart : Together user [] { shared := σ } { shared := σ } := ⟨.refl _, rfl, nofun, .inl rfl⟩
    obtain ⟨s₁, s₂, stop, h₁, h₂, hcalls⟩ := loops_agree hstart hleaves
    refine ⟨s₁, stop, s₂, stop, h₁, h₂, ?_⟩
    simpa using hcalls
  | false =>
    have hclosed : ∀ body, loop false body { shared := σ } script = .ok ({ shared := σ }, some 0) :=
      fun body => by cases script <;> rfl
    exact ⟨_, _, _, _, hclosed _, hclosed _, fun _ pre msg hmsg => absurd hmsg.1 Bool.false_ne_true,
      fun _ => ⟨rfl, rfl⟩⟩

/-- A user that goes on talking after it has left. -/
private def wanderer : List (Option Message) :=
  [some ⟨tagJoin, str "lobby\n"⟩, some ⟨tagLeave, str "bye\n"⟩, some ⟨tagSendall, str "hi\n"⟩]

theorem implementations_agree_iff_wanderer : ∃ s₁ stop₁ s₂ stop₂,
    loop true (chatWithSender 0) { shared := {} } wanderer = .ok (s₁, stop₁) ∧
    loop true (comSender 0) { shared := {} } wanderer = .ok (s₂, stop₂) ∧
    ¬ (s₁.calls = s₂.calls ∧ stop₁ = stop₂) := by
  obtain ⟨s₁, stop₁, s₂, stop₂, h₁, h₂, hagree⟩ :=
    @implementations_agree_iff true 0 {} wanderer (by decide)
  refine ⟨s₁, stop₁, s₂, stop₂, h₁, h₂, fun hsame => ?_⟩
  have hprocessed : Processed true wanderer
      [some ⟨tagJoin, str "lobby\n"⟩, some ⟨tagLeave, str "bye\n"⟩] ⟨tagSendall, str "hi\n"⟩ :=
    ⟨rfl, by decide, [], rfl⟩
  exact hagree.mp hsame _ _ hprocessed (by unfold Stray; decide) (by unfold Away; decide)

end Server
end Chat
