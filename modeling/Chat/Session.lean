import Chat.Steps
import Chat.Effects

/-! What the code of a session guarantees about its own variables, whatever the other threads
do. -/
namespace Chat
open Transition

namespace Pc

/-- Before the session has its `User`. -/
def early : Pc → Bool
  | .unborn | .login | .loginReply _ | .newUser => true
  | _ => false

/-- In the branch for a message that was received. -/
def handling : Pc → Bool
  | .removeMember _ | .findOrCreateRoom _ | .addMember _ | .memberExists | .broadcast _ => true
  | _ => false

/-- Where the branches of a session begin and end: it holds no lock there. -/
def idle : Pc → Bool
  | .receive | .removeMember .acquire | .findOrCreateRoom .acquire | .memberExists
  | .broadcast .acquire | .reply _ _ | .dequeue .wait | .deliver _ | .close | .done => true
  | _ => false

/-- Where a receiver has made its one call of `add_member`, or never will. -/
def settled : Pc → Bool
  | .addMember (.release _) | .reply _ _ | .dequeue _ | .deliver _ | .close | .done => true
  | _ => false

end Pc

/-- The branches of `dispatch`. -/
inductive Dispatch (role : Role) (room : Option RoomId) (tag : Bytes) : Pc → Prop
  | quit : role = .sender → tag = tagQuit → Dispatch role room tag (.reply quitOk .close)
  | rejoin : role = .sender → tag = tagJoin → room ≠ none →
      Dispatch role room tag (.removeMember .acquire)
  | join : role = .sender → tag = tagJoin → room = none →
      Dispatch role room tag (.findOrCreateRoom .acquire)
  | leave : role = .sender → tag = tagLeave → Dispatch role room tag .memberExists
  | sendall : role = .sender → tag ≠ tagQuit → tag ≠ tagJoin → tag ≠ tagLeave → room ≠ none →
      Dispatch role room tag .memberExists
  | outside : role = .sender → tag ≠ tagQuit → tag ≠ tagJoin → tag ≠ tagLeave → room = none →
      Dispatch role room tag (.reply sendallError .loop)
  | firstJoin : role = .receiver → tag = tagJoin →
      Dispatch role room tag (.findOrCreateRoom .acquire)
  | notJoin : role = .receiver → tag ≠ tagJoin → Dispatch role room tag (.reply firstNotJoin .ret)

theorem dispatch_cases (role : Role) (room : Option RoomId) (tag : Bytes) :
    Dispatch role room tag (dispatch role room tag) := by
  cases role with
  | receiver =>
    by_cases hjoin : tag = tagJoin
    · simpa [dispatch, hjoin] using @Dispatch.firstJoin _ room tag rfl hjoin
    · simpa [dispatch, hjoin] using @Dispatch.notJoin _ room tag rfl hjoin
  | sender =>
    simp only [dispatch]
    by_cases hquit : tag = tagQuit
    · rw [if_pos hquit]
      exact .quit rfl hquit
    by_cases hjoin : tag = tagJoin
    · rw [if_neg hquit, if_pos hjoin]
      cases room with
      | none => exact .join rfl hjoin rfl
      | some r => exact .rejoin rfl hjoin (Option.some_ne_none r)
    rw [if_neg hquit, if_neg hjoin]
    by_cases hleave : tag = tagLeave
    · rw [if_pos hleave]
      exact .leave rfl hleave
    rw [if_neg hleave]
    cases room with
    | none => exact .outside rfl hquit hjoin hleave rfl
    | some r => exact .sendall rfl hquit hjoin hleave (Option.some_ne_none r)

namespace Thread

def Ok (t : Thread) : Prop :=
  match t.pc with
  | .unborn | .login | .loginReply _ | .newUser => t.room = none ∧ t.serial = 0
  | .receive => t.role = .receiver → t.room = none
  | .findOrCreateRoom _ => t.msg.tag = tagJoin ∧ (t.role = .receiver → t.room = none)
  | .addMember _ => t.msg.tag = tagJoin ∧ t.room ≠ none
  | .removeMember _ => t.role = .sender ∧ t.room ≠ none
  | .memberExists => t.role = .sender ∧ (t.room = none → t.msg.tag = tagLeave)
  | .broadcast _ => t.role = .sender ∧ t.room ≠ none
  | .reply resp resume =>
    (resp = joinOk → t.room ≠ none) ∧ (t.role = .receiver → resume = .loop → t.room ≠ none)
  | .dequeue _ | .deliver _ => t.role = .receiver ∧ t.room ≠ none
  | .close | .done => True

theorem loopHead_cases (t : Thread) :
    t.loopHead = .close ∨ t.role = .sender ∧ t.loopHead = .receive ∨
      t.role = .receiver ∧ t.loopHead = .dequeue .wait := by
  unfold loopHead
  cases t.conn.isOpen <;> cases t.role <;> simp

/-- What holds at each place that the head of the loop may lead to. -/
theorem loopHead_of {P : Pc → Prop} (t : Thread) (hclose : P .close) (hreceive : P .receive)
    (hdequeue : P (.dequeue .wait)) : P t.loopHead := by
  rcases t.loopHead_cases with hpc | ⟨-, hpc⟩ | ⟨-, hpc⟩
  · rwa [hpc]
  · rwa [hpc]
  · rwa [hpc]

theorem resumed_of {P : Pc → Prop} (t : Thread) (resume : Resume) (hhead : P t.loopHead)
    (hclose : P .close) (hdone : P .done) :
    P (match resume with
      | .loop => t.loopHead
      | .close => .close
      | .ret => .done) := by
  cases resume with
  | loop => exact hhead
  | close => exact hclose
  | ret => exact hdone

theorem dequeued_of {P : Pc → Prop} (t : Thread) (res : Option Message) (hhead : P t.loopHead)
    (herr : P (.reply receiveError .close)) (hdeliver : ∀ msg, P (.deliver msg)) :
    P (match res with
      | none => t.loopHead
      | some msg => if msg.tag = tagErr then .reply receiveError .close else .deliver msg) := by
  cases res with
  | none => exact hhead
  | some msg =>
    dsimp only
    split
    · exact herr
    · exact hdeliver msg

/-- The head of the loop is fit for a sender and for a receiver that has a room. -/
private theorem ok_loopHead {t t' : Thread} (hpc : t'.pc = t.loopHead) (hrole : t'.role = t.role)
    (h : t'.role = .receiver → t'.room ≠ none) : t'.Ok := by
  unfold Ok
  rw [hpc]
  rcases t.loopHead_cases with hhead | ⟨hsender, hhead⟩ | ⟨hreceiver, hhead⟩
  · simp [hhead]
  · simp [hhead, hrole, hsender]
  · have hrec : t'.role = .receiver := hrole.trans hreceiver
    simpa [hhead, hrec] using h hrec

private theorem ok_dispatch {t : Thread} (h : t.role = .receiver → t.room = none)
    (hpc : Dispatch t.role t.room t.msg.tag t.pc) : t.Ok := by
  unfold Ok
  generalize hp : t.pc = pc at hpc
  cases hpc with
  | quit hrole htag => exact ⟨fun hr => absurd hr (by decide), fun hr => by simp [hrole] at hr⟩
  | rejoin hrole htag hroom => exact ⟨hrole, hroom⟩
  | join hrole htag hroom => exact ⟨htag, fun _ => hroom⟩
  | leave hrole htag => exact ⟨hrole, fun _ => htag⟩
  | sendall hrole _ _ _ hroom => exact ⟨hrole, fun hr => absurd hr hroom⟩
  | outside hrole => exact ⟨fun hr => absurd hr (by decide), fun hr => by simp [hrole] at hr⟩
  | firstJoin hrole htag => exact ⟨htag, h⟩
  | notJoin hrole => exact ⟨fun hr => absurd hr (by decide), fun _ hl => by cases hl⟩

variable {i : Sid} {σ : Shared} {t t' : Thread} {a : Action}

theorem Step.ok (h : Step i σ t a t') (ht : t.Ok) : t'.Ok := by
  cases h with
  | inner h =>
    cases h with
    | removeAcquire hpc | removeBody hpc | findAcquire hpc | findBody hpc | addAcquire hpc
    | addBody hpc | broadcastAcquire hpc | broadcastStart hpc | visitOther hpc | visitSame hpc
    | enqueue hpc | enqueueEnd hpc | dequeue hpc => simpa [Ok, hpc] using ht
    | findRelease hpc =>
      obtain ⟨htag, -⟩ : t.msg.tag = tagJoin ∧ (t.role = .receiver → t.room = none) := by
        simpa [Ok, hpc] using ht
      exact ⟨htag, Option.some_ne_none _⟩
  | accept => exact ⟨rfl, rfl⟩
  | loginFail hpc | loginOk hpc => simpa [Ok, hpc] using ht
  | @loginReply accepted _ _ _ hpc =>
    cases accepted with
    | true => simpa [Ok, hpc] using ht
    | false => trivial
  | newSender hpc => exact ok_loopHead rfl rfl fun hr => by cases hr
  | newReceiver hpc =>
    obtain ⟨hroom, -⟩ : t.room = none ∧ t.serial = 0 := by simpa [Ok, hpc] using ht
    exact fun _ => hroom
  | receiveFail hpc =>
    refine ⟨fun hr => absurd hr (by decide), fun hr hl => ?_⟩
    have hrole : t.role = .receiver := hr
    simp [hrole] at hl
  | receiveOk hpc =>
    have hroom : t.role = .receiver → t.room = none := by simpa [Ok, hpc] using ht
    exact ok_dispatch hroom (dispatch_cases _ _ _)
  | removeRelease hpc hr =>
    obtain ⟨hrole, -⟩ : t.role = .sender ∧ t.room ≠ none := by simpa [Ok, hpc] using ht
    by_cases hjoin : t.msg.tag = tagJoin
    · simp [Ok, hjoin, hrole]
    · simp [Ok, hjoin, hr]
  | addRelease hpc hr | loopEnd hpc hr => simp [Ok, hr]
  | @memberExists r found hpc hr =>
    have hrole : t.role = .sender := by simpa [Ok, hpc, hr] using ht
    unfold Ok
    by_cases hleave : t.msg.tag = tagLeave <;> cases found <;> simp [hleave, hr, hrole]
  | @reply resp resume sent conn hpc =>
    obtain ⟨-, hroom⟩ : (resp = joinOk → t.room ≠ none) ∧
        (t.role = .receiver → resume = .loop → t.room ≠ none) := by simpa only [Ok, hpc] using ht
    cases resume with
    | loop => exact ok_loopHead rfl rfl fun hr => hroom hr rfl
    | close | ret => trivial
  | @dequeueEnd res hpc =>
    have hroom : t.role = .receiver ∧ t.room ≠ none := by simpa [Ok, hpc] using ht
    cases res with
    | none => exact ok_loopHead rfl rfl fun _ => hroom.2
    | some msg =>
      by_cases htag : msg.tag = tagErr
      · simp [Ok, htag, hroom.2]
      · simpa [Ok, htag] using hroom
  | deliver hpc =>
    have hroom : t.role = .receiver ∧ t.room ≠ none := by simpa [Ok, hpc] using ht
    exact ok_loopHead rfl rfl fun _ => hroom.2
  | close => trivial
  | subscript | nullRoom | emptyQueue => exact ht

@[simp] theorem loopHead_idle (t : Thread) : t.loopHead.idle = true :=
  @loopHead_of (·.idle = true) t rfl rfl rfl

@[simp] theorem dispatch_idle (role : Role) (room : Option RoomId) (tag : Bytes) :
    (dispatch role room tag).idle = true := by
  have hcases := dispatch_cases role room tag
  generalize dispatch role room tag = pc at hcases ⊢
  cases hcases <;> rfl

theorem removed_idle (msg : Message) :
    (if msg.tag = tagJoin then Pc.findOrCreateRoom .acquire else .reply leaveOk .loop).idle =
      true := by
  split <;> rfl

theorem exists_idle (msg : Message) (found : Bool) :
    (if msg.tag = tagLeave then
        if found then Pc.removeMember .acquire else .reply leaveError .loop
      else if found then .broadcast .acquire else .reply sendallError .loop).idle = true := by
  cases found <;> split <;> rfl

theorem resumed_idle (t : Thread) (resume : Resume) :
    (match resume with
      | .loop => t.loopHead
      | .close => .close
      | .ret => .done).idle = true :=
  @resumed_of (·.idle = true) t resume (loopHead_idle t) rfl rfl

theorem dequeued_idle (t : Thread) (res : Option Message) :
    (match res with
      | none => t.loopHead
      | some msg => if msg.tag = tagErr then .reply receiveError .close else .deliver msg).idle =
      true :=
  @dequeued_of (·.idle = true) t res (loopHead_idle t) rfl fun _ => rfl

/-- A thread comes to any other position by an `Inner` step only. -/
theorem Step.shape (h : Step i σ t a t') :
    t'.pc.idle = true ∨ t.pc.early = true ∧ t'.pc.early = true ∨ Inner i σ t a t' ∨
      t' = t ∧ ∃ f, a = .fault f := by
  cases h with
  | inner h => exact .inr (.inr (.inl h))
  | accept _ _ _ hpc | loginFail hpc | loginOk hpc => exact .inr (.inl ⟨by rw [hpc]; rfl, rfl⟩)
  | @loginReply accepted _ _ _ hpc =>
    cases accepted with
    | true => exact .inr (.inl ⟨by rw [hpc]; rfl, rfl⟩)
    | false => exact .inl rfl
  | newSender | deliver => exact .inl (loopHead_idle _)
  | receiveOk => exact .inl (dispatch_idle _ _ _)
  | removeRelease => exact .inl (removed_idle _)
  | memberExists => exact .inl (exists_idle _ _)
  | @reply resp resume => exact .inl (resumed_idle _ resume)
  | @dequeueEnd res => exact .inl (dequeued_idle t res)
  | newReceiver | receiveFail | addRelease | loopEnd | close => exact .inl rfl
  | subscript | nullRoom | emptyQueue => exact .inr (.inr (.inr ⟨rfl, _, rfl⟩))

theorem early_of_idle {pc : Pc} (h : pc.idle = true) : pc.early = false := by
  cases pc <;> first | rfl | cases h

/-- Once a session has its user it keeps its role. -/
theorem Step.role_eq (h : Step i σ t a t') (ht : t.pc.early = false) :
    t'.pc.early = false ∧ t'.role = t.role := by
  constructor
  · rcases h.shape with hidle | ⟨hearly, -⟩ | hinner | ⟨rfl, -⟩
    · exact early_of_idle hidle
    · simp [ht] at hearly
    · cases hinner <;> rfl
    · exact ht
  · cases h with
    | inner h => cases h <;> rfl
    | accept _ _ _ hpc | newSender hpc | newReceiver hpc => simp [hpc, Pc.early] at ht
    | _ => rfl

/-- Every action on a room goes through the local pointer. -/
theorem Step.room_of (h : Step i σ t a t') {r : RoomId} (ha : a.room = some r) :
    t.room = some r := by
  cases h with
  | inner h =>
    cases h with
    | removeAcquire _ hr | removeBody _ hr | addAcquire _ hr | addBody _ hr
    | broadcastAcquire _ hr | broadcastStart _ hr | visitOther _ hr | visitSame _ hr =>
      exact hr.trans ha
    | _ => cases ha
  | removeRelease _ hr | addRelease _ hr | memberExists _ hr | loopEnd _ hr => exact hr.trans ha
  | _ => cases ha

theorem Step.room_cases (h : Step i σ t a t') (ht : t.Ok) :
    t'.room = t.room ∨
      ∃ r, t.pc = .findOrCreateRoom (.release r) ∧ t'.room = some r ∧ t'.pc = .addMember .acquire := by
  cases h with
  | inner h =>
    cases h with
    | @findRelease r hpc => exact .inr ⟨r, hpc, rfl, rfl⟩
    | _ => exact .inl rfl
  | accept _ _ _ hpc =>
    obtain ⟨hroom, -⟩ : t.room = none ∧ t.serial = 0 := by simpa [Ok, hpc] using ht
    exact .inl hroom.symm
  | _ => exact .inl rfl

theorem Step.serial_cases (h : Step i σ t a t') (ht : t.Ok) :
    (∃ m, a = .receive m ∧ t.pc = .receive ∧ t'.serial = t.serial + 1) ∨
      (∀ m, a ≠ .receive m) ∧ t'.serial = t.serial := by
  cases h with
  | inner h => cases h <;> exact .inr ⟨nofun, rfl⟩
  | accept _ _ _ hpc =>
    obtain ⟨-, hserial⟩ : t.room = none ∧ t.serial = 0 := by simpa [Ok, hpc] using ht
    exact .inr ⟨nofun, hserial.symm⟩
  | receiveFail hpc => exact .inl ⟨none, rfl, hpc, rfl⟩
  | receiveOk hpc => exact .inl ⟨_, rfl, hpc, rfl⟩
  | _ => exact .inr ⟨nofun, rfl⟩

private theorem loopHead_settled {t : Thread} (hrole : t.role = .receiver) :
    t.loopHead.settled = true := by
  rcases t.loopHead_cases with hpc | ⟨hr, -⟩ | ⟨-, hpc⟩
  · rw [hpc]
    rfl
  · simp [hr] at hrole
  · rw [hpc]
    rfl

/-- A receiver stays settled, and keeps its room. -/
theorem Step.settled (h : Step i σ t a t') (hrole : t.role = .receiver)
    (ht : t.pc.settled = true) : t'.pc.settled = true ∧ t'.room = t.room := by
  cases h with
  | inner h => cases h <;> simp_all [Pc.settled]
  | addRelease | close => exact ⟨rfl, rfl⟩
  | @reply resp resume =>
    cases resume with
    | loop => exact ⟨loopHead_settled hrole, rfl⟩
    | _ => exact ⟨rfl, rfl⟩
  | @dequeueEnd res =>
    cases res with
    | none => exact ⟨loopHead_settled hrole, rfl⟩
    | some msg => by_cases htag : msg.tag = tagErr <;> simp [htag, Pc.settled]
  | deliver => exact ⟨loopHead_settled hrole, rfl⟩
  | subscript | nullRoom | emptyQueue => exact ⟨ht, rfl⟩
  | _ => simp_all [Pc.settled]

theorem Step.newUser_of {n : Bytes} (h : Step i σ t (.newUser n) t') : t.pc.early = true := by
  cases h with
  | inner h => cases h
  | newSender hpc | newReceiver hpc => rw [hpc]; rfl

theorem Step.newUser_data {n : Bytes} (h : Step i σ t (.newUser n) t') :
    t.pc = .newUser ∧ n = t.msg.data := by
  cases h with
  | inner h => cases h
  | newSender hpc | newReceiver hpc => exact ⟨hpc, rfl⟩

theorem Step.find_of {n : Bytes} {r : RoomId} (h : Step i σ t (.findOrCreateRoom n r) t') :
    t.pc = .findOrCreateRoom .body ∧ n = t.msg.data ∧ r = (σ.mRooms n).getD σ.nRooms := by
  cases h with
  | inner h =>
    cases h with
    | findBody hpc hr => exact ⟨hpc, rfl, hr.symm⟩

theorem Step.found_of (h : Step i σ t a t') {r : RoomId}
    (hpc' : t'.pc = .findOrCreateRoom (.release r)) :
    t' = t ∨ a = .findOrCreateRoom t'.msg.data r := by
  rcases h.shape with hidle | ⟨-, hearly⟩ | hinner | ⟨heq, -⟩
  · simp [hpc', Pc.idle] at hidle
  · simp [hpc', Pc.early] at hearly
  · cases hinner <;> cases hpc'
    exact .inr rfl
  · exact .inl heq

theorem Step.adding_of (h : Step i σ t a t') {pc : Guarded Unit} (hpc' : t'.pc = .addMember pc) :
    t'.msg = t.msg ∧ ((∃ r, t.pc = .findOrCreateRoom (.release r) ∧ t'.room = some r) ∨
      (∃ pc, t.pc = .addMember pc) ∧ t'.room = t.room) := by
  rcases h.shape with hidle | ⟨-, hearly⟩ | hinner | ⟨rfl, -⟩
  · simp [hpc', Pc.idle] at hidle
  · simp [hpc', Pc.early] at hearly
  · cases hinner with
    | findRelease hpc => exact ⟨rfl, .inl ⟨_, hpc, rfl⟩⟩
    | addAcquire hpc | addBody hpc => exact ⟨rfl, .inr ⟨⟨_, hpc⟩, rfl⟩⟩
    | _ => cases hpc'
  · exact ⟨rfl, .inr ⟨⟨pc, hpc'⟩, rfl⟩⟩

end Thread
/-- One step of the server, seen from the thread that takes it. -/
structure Server.Acts (s : Server) (i : Sid) (a : Action) (s' : Server) : Prop where
  step : Thread.Step i s.shared (s.thread i) a (s'.thread i)
  effect : Shared.Effect s.shared i a s'.shared
  frame : ∀ k, k ≠ i → s'.thread k = s.thread k
  alive : s.fault = none
  fault : s'.fault = a.faulted i

theorem Server.Step.acts {s s' : Server} {e : Event} (h : s.Step e s') :
    s.Acts e.session e.action s' ∧ e.serial = (s'.thread e.session).serial := by
  obtain ⟨i, a, t, σ, halive, ht, happly, rfl, rfl⟩ := h.move
  exact ⟨⟨by simpa using ht, Shared.effect_of_apply happly,
    fun k hk => Function.update_of_ne hk _ _, halive, rfl⟩, by simp⟩

end Chat
