import Chat.MessageQueue
import Chat.Lib.Traversal

/-! The objects that the server's threads share: users, rooms and the room registry. -/
namespace Chat

/-- The address of a session: of its thread, its connection and its `User`, which are created
together. Addresses are arbitrary, and no session object is freed. -/
abbrev Sid := ℕ

abbrev RoomId := ℕ

structure User where
  username : Bytes := []
  mqueue : MessageQueue Sid Message := {}

/-- `members` is a `std::set` of pointers, traversed in the order of their addresses. -/
structure Room where
  roomName : Bytes := []
  lock : Option Sid := none
  members : Finset Sid := ∅

/-- The message that a broadcast makes from names and text without their newlines. -/
def delivery (roomName sender text : Bytes) : Message :=
  ⟨tagDelivery, removeNewline roomName ++ [colon] ++ removeNewline sender ++ [colon] ++
    removeNewline text⟩

/-- The mutexes that `Guard`s lock: the server's, a room's, and those of the queues. -/
inductive Lock
  | registry
  | room (r : RoomId)
  | queue (u : Sid)
  deriving DecidableEq

/-- `new Room` returns the address `nRooms`. -/
structure Shared where
  mLock : Option Sid := none
  mRooms : Bytes → Option RoomId := fun _ => none
  nRooms : ℕ := 0
  room : RoomId → Room := fun _ => {}
  user : Sid → User := fun _ => {}

/-- What a thread does in one step. `login` and `receive` carry the message received, or
`none` for a failure; `reply` and `deliver` tell whether `send` returned true. -/
inductive Action
  | accept (conn : Connection)
  | login (received : Option Message)
  | loginReply (resp : Message) (sent : Bool)
  | newUser (username : Bytes)
  | receive (received : Option Message)
  | reply (resp : Message) (sent : Bool)
  | lock (l : Lock)
  | unlock (l : Lock)
  | findOrCreateRoom (roomName : Bytes) (r : RoomId)
  | insert (r : RoomId)
  | erase (r : RoomId)
  | memberExists (r : RoomId) (found : Bool)
  | broadcast (r : RoomId) (sender text : Bytes)
  | begin (r : RoomId)
  | visit (r : RoomId) (u : Sid) (msg : Option Message)
  | queue (u : Sid) (a : QueueAction Message)
  | deliver (msg : Message) (sent : Bool)
  | close
  | fault (f : Fault)

namespace Shared

def owner (σ : Shared) : Lock → Option Sid
  | .registry => σ.mLock
  | .room r => (σ.room r).lock
  | .queue u => (σ.user u).mqueue.mLock

def setRoom (σ : Shared) (r : RoomId) (room : Room) : Shared :=
  { σ with room := Function.update σ.room r room }

def setUser (σ : Shared) (u : Sid) (user : User) : Shared :=
  { σ with user := Function.update σ.user u user }

def setOwner (σ : Shared) (l : Lock) (o : Option Sid) : Shared :=
  match l with
  | .registry => { σ with mLock := o }
  | .room r => σ.setRoom r { σ.room r with lock := o }
  | .queue u => σ.setUser u { σ.user u with mqueue := { (σ.user u).mqueue with mLock := o } }

/-- The effect on the shared objects of an action of thread `i`; `none` where it has to wait. -/
def apply (σ : Shared) (i : Sid) : Action → Option Shared
  | .lock l => if (σ.owner l).isNone then some (σ.setOwner l (some i)) else none
  | .unlock l => some (σ.setOwner l none)
  | .newUser username => some (σ.setUser i ⟨username, {}⟩)
  | .findOrCreateRoom roomName r =>
    match σ.mRooms roomName with
    | some _ => some σ
    | none => some ({ σ with
        mRooms := Function.update σ.mRooms roomName (some r)
        nRooms := σ.nRooms + 1 }.setRoom r ⟨roomName, none, ∅⟩)
  | .insert r => some (σ.setRoom r { σ.room r with members := insert i (σ.room r).members })
  | .erase r => some (σ.setRoom r { σ.room r with members := (σ.room r).members.erase i })
  | .broadcast r _ _ =>
    if (σ.room r).lock.isNone then some (σ.setOwner (.room r) (some i)) else none
  | .visit r _ (some _) =>
    some (σ.setRoom r { σ.room r with roomName := removeNewline (σ.room r).roomName })
  | .queue u a => do
    let mqueue ← (σ.user u).mqueue.apply i a
    some (σ.setUser u { σ.user u with mqueue })
  | _ => some σ

end Shared
end Chat
