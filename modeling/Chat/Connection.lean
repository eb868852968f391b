import Chat.Csapp
import Chat.Lib.Tokens

/-! `connection.cpp`: one message sent or received over a descriptor. -/
namespace Chat
open Tokens

/-- Behaviour the language leaves undefined; an execution of the model stops there. The race of
`member_exists`, which takes no lock, is not among it: the lookup counts as one step. -/
inductive Fault
  | subscript
  | nullRoom
  | emptyQueue
  deriving DecidableEq, Repr

/-- A program that returns has returned from its first part. -/
theorem ok_of_bind {α β : Type} {x : Except Fault α} {f : α → Except Fault β} {b : β}
    (h : x >>= f = .ok b) : ∃ a, x = .ok a ∧ f a = .ok b := by
  cases x with
  | error f => cases h
  | ok a => exact ⟨a, rfl, h⟩

/-- `Connection::Result`. -/
inductive Result
  | success
  | eofOrError
  | invalidMsg
  | maxMsgSize
  deriving DecidableEq, Repr

/-- A connection with its descriptor's two sides; `closes` counts the `close` calls made on
the descriptor. -/
structure Connection where
  mFd : Int := -1
  mFdbuf : Rio := {}
  mLastResult : Result := .success
  wire : Wire := {}
  closes : ℕ := 0

namespace Connection

/-- The constructor from an open descriptor. -/
def ofFd (fd : Int) (reads : List ReadResult) (writes : List WriteResult) : Connection :=
  { mFd := fd, mFdbuf := ⟨[], reads⟩, wire := ⟨writes, []⟩ }

def isOpen (conn : Connection) : Bool := 0 ≤ conn.mFd

/-- The descriptor field keeps its value. -/
def close (conn : Connection) : Connection :=
  if conn.isOpen then { conn with closes := conn.closes + 1 } else conn

/-- The string that `send` builds. -/
def encode (msg : Message) : Bytes :=
  if msg.tag = tagQuit ∨ msg.tag = tagLeave then msg.tag ++ [colon] ++ str "bye" ++ [newline]
  else msg.tag ++ [colon] ++ msg.data ++ [newline]

def send (conn : Connection) (msg : Message) : Bool × Connection :=
  if strlen msg.data > maxLen then (false, { conn with mLastResult := .invalidMsg })
  else
    let msgStr := encode msg
    let (size, wire) := rioWriten conn.wire msgStr (strlen msgStr)
    if size < 0 then (false, { conn with wire, mLastResult := .eofOrError })
    else if size ≠ strlen msgStr then (false, { conn with wire, mLastResult := .invalidMsg })
    else (true, { conn with wire, mLastResult := .success })

theorem send_frame {conn conn' : Connection} {msg : Message} {sent : Bool}
    (h : conn.send msg = (sent, conn')) :
    conn'.mFd = conn.mFd ∧ conn'.mFdbuf = conn.mFdbuf ∧ conn'.closes = conn.closes := by
  unfold send at h
  split at h
  · cases h
    exact ⟨rfl, rfl, rfl⟩
  · dsimp only at h
    split at h
    · cases h
      exact ⟨rfl, rfl, rfl⟩
    · split at h <;> cases h <;> exact ⟨rfl, rfl, rfl⟩

def subscript (result : List Bytes) (i : ℕ) : Except Fault Bytes :=
  match result[i]? with
  | some s => .ok s
  | none => .error .subscript

def divideData (msg : Message) : Except Fault (List Bytes × Message) := do
  let result := tokens colon msg.data
  let tag ← subscript result 0
  pure (result, { msg with tag })

/-- The part of `receive` after the line has been read into `msg.data`. -/
def unpack (conn : Connection) (msg : Message) : Except Fault (Bool × Message × Connection) := do
  let (result, msg) ← divideData msg
  if result.length < 2 then
    pure (false, msg, { conn with mLastResult := .invalidMsg })
  else if msg.tag = tagDelivery then
    let room ← subscript result 1
    let sender ← subscript result 2
    let text ← subscript result 3
    pure (true, { msg with data := room ++ [colon] ++ sender ++ [colon] ++ text },
      { conn with mLastResult := .success })
  else
    let data ← subscript result 1
    pure (true, { msg with data }, { conn with mLastResult := .success })

/-- `receive`, with what its uninitialised local `buffer` happens to hold. The message is an
in-out parameter. -/
def receive (conn : Connection) (buffer : Bytes) (msg : Message) :
    Except Fault (Bool × Message × Connection) :=
  let (dSize, buffer, mFdbuf) := rioReadlineb conn.mFdbuf buffer maxLen
  if dSize < 0 then .ok (false, msg, { conn with mFdbuf, mLastResult := .eofOrError })
  else unpack { conn with mFdbuf } { msg with data := cString buffer }

end Connection
end Chat
