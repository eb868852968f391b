import Chat.Sev

/-! A thread that runs with no other thread in between does for a message what one turn of the loop of
`chat_with_sender` does. -/
namespace Chat
open Transition Traversal Session

/-- The calls on the rooms that an action is the body of. -/
def Action.called (i : Sid) : Action → List RoomCall
  | .findOrCreateRoom roomName _ => [.findOrCreateRoom roomName]
  | .insert r => [.addMember r i]
  | .erase r => [.removeMember r i]
  | .broadcast r sender text => [.broadcastMessage r sender text]
  | _ => []

/-- Thread `i` alone takes steps with these actions. -/
inductive Solo (i : Sid) : Shared → Thread → List Action → Shared → Thread → Prop
  | refl {σ t} : Solo i σ t [] σ t
  | step {σ t a t₁ σ₁ as σ' t'} : t.next i σ {} = some (a, t₁) → σ.apply i a = some σ₁ →
      (∀ f, a ≠ .fault f) → Solo i σ₁ t₁ as σ' t' → Solo i σ t (a :: as) σ' t'

namespace Solo

variable {i : Sid} {σ σ₁ σ' : Shared} {t t₁ t' : Thread} {a : Action} {as as' : List Action} {r : RoomId}

theorem trans (h : Solo i σ t as σ₁ t₁) (h' : Solo i σ₁ t₁ as' σ' t') :
    Solo i σ t (as ++ as') σ' t' := by
  induction h with
  | refl => exact h'
  | step hnext happly hfault _ ih => exact .step hnext happly hfault (ih h')

/-- These are steps of the server. -/
theorem run {s : Server} (h : Solo i s.shared (s.thread i) as σ' t') (halive : s.fault = none) :
    ∃ es s', Run Server.Step s es s' ∧ (∀ e ∈ es, e.session = i) ∧ es.map Event.action = as ∧
      s'.shared = σ' ∧ s'.thread = Function.update s.thread i t' ∧ s'.fault = none := by
  generalize hσ : s.shared = σ at h
  generalize ht : s.thread i = t at h
  induction h generalizing s with
  | refl =>
    obtain rfl := ht
    exact ⟨[], s, .nil, by simp, rfl, hσ, (Function.update_eq_self i s.thread).symm, halive⟩
  | @step σ t a t₁ σ₁ as σ' t' hnext happly hfault _ ih =>
    obtain rfl := ht
    obtain rfl := hσ
    have hstep : s.Step ⟨i, t₁.serial, a⟩ ⟨σ₁, Function.update s.thread i t₁, none⟩ := by
      refine ⟨.run i {}, ?_⟩
      simp only [Server.next, halive, hnext, happly, Option.bind_eq_bind, Option.bind_some]
    obtain ⟨es, s', hrun, hsession, hactions, hshared, hthread, hend⟩ :=
      @ih ⟨σ₁, Function.update s.thread i t₁, none⟩ rfl rfl (Function.update_self ..)
    refine ⟨_, s', .cons hstep hrun, ?_, congrArg (a :: ·) hactions, hshared, ?_, hend⟩
    · simpa using hsession
    · rw [hthread, Function.update_idem]

/-- A function that holds a lock for all of its body. -/
theorem guarded {l : Lock} {t₂ t₃ : Thread} {σ₂ : Shared} (h₁ : t.next i σ {} = some (.lock l, t₁))
    (hfree : σ.owner l = none) (h₂ : t₁.next i (σ.setOwner l (some i)) {} = some (a, t₂))
    (ha : (σ.setOwner l (some i)).apply i a = some σ₂) (hfault : ∀ f, a ≠ .fault f)
    (h₃ : t₂.next i σ₂ {} = some (.unlock l, t₃)) :
    Solo i σ t [.lock l, a, .unlock l] (σ₂.setOwner l none) t₃ := by
  refine .step h₁ ?_ (fun _ => Action.noConfusion) (.step h₂ ha hfault
    (.step h₃ rfl (fun _ => Action.noConfusion) .refl))
  simp [Shared.apply, hfree]

variable {s : Session}

theorem removeMember (hpc : t.pc = .removeMember .acquire) (hroom : t.room = some r)
    (hfree : (s.shared.room r).lock = none) :
    Solo i s.shared t [.lock (.room r), .erase r, .unlock (.room r)] (s.removeMember i r).shared
      { t with pc := if t.msg.tag = tagJoin then .findOrCreateRoom .acquire else .reply leaveOk .loop } := by
  have hshared : (s.removeMember i r).shared = ((s.shared.setOwner (.room r) (some i)).setRoom r
      { (s.shared.setOwner (.room r) (some i)).room r with
        members := ((s.shared.setOwner (.room r) (some i)).room r).members.erase i }).setOwner
          (.room r) none := by
    simp [Session.removeMember, Shared.setOwner, Shared.setRoom, hfree]
  rw [hshared]
  refine @guarded i s.shared t { t with pc := .removeMember .body } (.erase r) (.room r)
    { t with pc := .removeMember (.release ()) } _ _ ?_ hfree ?_ rfl (fun _ => Action.noConfusion) ?_ <;>
    simp [Thread.next, Thread.deref, hpc, hroom]

theorem addMember (hpc : t.pc = .addMember .acquire) (hroom : t.room = some r)
    (hfree : (s.shared.room r).lock = none) :
    Solo i s.shared t [.lock (.room r), .insert r, .unlock (.room r)] (s.addMember i r).shared
      { t with pc := .reply joinOk .loop } := by
  have hshared : (s.addMember i r).shared = ((s.shared.setOwner (.room r) (some i)).setRoom r
      { (s.shared.setOwner (.room r) (some i)).room r with
        members := insert i ((s.shared.setOwner (.room r) (some i)).room r).members }).setOwner
          (.room r) none := by
    simp [Session.addMember, Shared.setOwner, Shared.setRoom, hfree]
  rw [hshared]
  refine @guarded i s.shared t { t with pc := .addMember .body } (.insert r) (.room r)
    { t with pc := .addMember (.release ()) } _ _ ?_ hfree ?_ rfl (fun _ => Action.noConfusion) ?_ <;>
    simp [Thread.next, Thread.deref, hpc, hroom]

theorem findOrCreateRoom (hpc : t.pc = .findOrCreateRoom .acquire) (hfree : s.shared.mLock = none) :
    let r := (s.shared.mRooms t.msg.data).getD s.shared.nRooms
    Solo i s.shared t [.lock .registry, .findOrCreateRoom t.msg.data r, .unlock .registry]
      (s.findOrCreateRoom t.msg.data).shared { t with room := some r, pc := .addMember .acquire } := by
  intro r
  have hfound : ∃ σ, (s.shared.setOwner .registry (some i)).apply i (.findOrCreateRoom t.msg.data r) =
      some σ ∧ σ.setOwner .registry none = (s.findOrCreateRoom t.msg.data).shared := by
    cases hname : s.shared.mRooms t.msg.data with
    | some q =>
      have hfound : (s.findOrCreateRoom t.msg.data).shared = s.shared := by
        simp [Session.findOrCreateRoom, hname]
      have hsame : { s.shared with mLock := none } = s.shared := by rw [← hfree]
      rw [hfound]
      refine ⟨s.shared.setOwner .registry (some i), ?_, hsame⟩
      simp [Shared.apply, Shared.setOwner, hname]
    | none =>
      refine ⟨_, by simp [Shared.apply, Shared.setOwner, hname]; rfl, ?_⟩
      simp [Session.findOrCreateRoom, Shared.setOwner, Shared.setRoom, hfree, hname, r]
  obtain ⟨σ, happly, hshared⟩ := hfound
  rw [← hshared]
  refine @guarded i s.shared t { t with pc := .findOrCreateRoom .body } _ .registry
    { t with pc := .findOrCreateRoom (.release r) } _ _ ?_ hfree ?_ happly (fun _ => Action.noConfusion) ?_ <;>
    simp [Thread.next, hpc, r, Shared.setOwner]

/-- What a step of a broadcast after its first one is not. -/
private theorem next_later {c : BroadcastCall} {pc : BroadcastPc} (hpc : pc ≠ .acquire) :
    (c.next σ pc).1.called i = [] ∧ (c.next σ pc).2 ≠ some .acquire := by
  cases pc with
  | acquire => exact absurd rfl hpc
  | start => exact ⟨rfl, by simp [BroadcastCall.next]⟩
  | loop it =>
    cases it with
    | none => exact ⟨rfl, by simp [BroadcastCall.next]⟩
    | some u =>
      by_cases hname : (σ.user u).username = c.sender <;>
        exact ⟨by simp [BroadcastCall.next, hname, Action.called], by simp [BroadcastCall.next, hname]⟩
  | enqueue u msg pc =>
    cases pc <;> exact ⟨rfl, by simp [BroadcastCall.next, EnqueuePc.next]⟩

private theorem next_plain (c : BroadcastCall) (σ : Shared) (pc : BroadcastPc) :
    (∀ f, (c.next σ pc).1 ≠ .fault f) ∧ ∀ n, (c.next σ pc).1 ≠ .newUser n := by
  cases pc with
  | acquire | start => exact ⟨fun _ => Action.noConfusion, fun _ => Action.noConfusion⟩
  | loop it =>
    cases it with
    | none => exact ⟨fun _ => Action.noConfusion, fun _ => Action.noConfusion⟩
    | some u => by_cases hname : (σ.user u).username = c.sender <;> simp [BroadcastCall.next, hname]
  | enqueue u msg pc => cases pc <;> exact ⟨fun _ => Action.noConfusion, fun _ => Action.noConfusion⟩

/-- Where a session is in a call of `broadcast_message`, or after it. -/
private def castPc : Option BroadcastPc → Pc
  | some pc => .broadcast pc
  | none => .reply sendallOk .loop

/-- The steps of a call of `broadcast_message` are steps of the thread. -/
private theorem broadcastRuns {c : BroadcastCall} {pc : Option BroadcastPc} (h : c.Runs σ pc σ')
    (hc : c = ⟨i, r, (σ.user i).username, t.msg.data⟩) (hroom : t.room = some r) (hpc : t.pc = castPc pc) :
    ∃ as, Solo i σ t as σ' { t with pc := .reply sendallOk .loop } ∧
      (pc ≠ some .acquire → as.flatMap (Action.called i) = []) ∧
      (pc = some .acquire → as.flatMap (Action.called i) =
        [.broadcastMessage r (σ.user i).username t.msg.data]) := by
  induction h generalizing t with
  | ret =>
    refine ⟨[], ?_, fun _ => rfl, fun h => by cases h⟩
    rw [← show t.pc = .reply sendallOk .loop from hpc]
    exact .refl
  | @step σ pc σ₁ pc' σ' hstep _ ih =>
    obtain ⟨hfault, hnew⟩ := next_plain c σ pc
    obtain ⟨σ₂, happly, hmoved⟩ := Option.map_eq_some_iff.mp hstep
    obtain ⟨rfl, rfl⟩ := Prod.mk.inj hmoved
    have hactor : c.actor = i := by rw [hc]
    rw [hactor] at happly
    have hname : (σ₂.user i).username = (σ.user i).username :=
      (Shared.effect_of_apply happly).username fun n ha => absurd ha (hnew n)
    have hnext := @Thread.next_broadcast t pc r hpc hroom i σ {}
    rw [← hc] at hnext
    have hafter : t.next i σ {} = some ((c.next σ pc).1, { t with pc := castPc (c.next σ pc).2 }) := by
      rw [hnext]
      cases (c.next σ pc).2 <;> rfl
    obtain ⟨as, hsolo, hlater, -⟩ :=
      @ih { t with pc := castPc (c.next σ pc).2 } (by rw [hname]; exact hc) hroom rfl
    refine ⟨_, .step hafter happly hfault hsolo, fun hne => ?_, fun heq => ?_⟩
    · obtain ⟨hquiet, hpos⟩ := @next_later i σ c pc fun h => hne (h ▸ rfl)
      rw [List.flatMap_cons, hquiet, hlater hpos, List.nil_append]
    · obtain rfl := Option.some.inj heq
      rw [List.flatMap_cons, hlater (by simp [BroadcastCall.next]), hc]
      rfl

private theorem enter_sent (s : Session) (user : Sid) (roomName : Bytes) :
    (s.enter user roomName).sent = s.sent := by
  unfold enter
  cases s.room with
  | none => exact findOrCreateRoom_sent s roomName
  | some r => exact findOrCreateRoom_sent (s.removeMember user r) roomName

private theorem depart_sent (s : Session) (user : Sid) (r : RoomId) : (s.depart user r).sent = s.sent := by
  unfold depart
  split <;> rfl

/-- A thread that finds or makes a room goes on to join it. -/
private theorem joins (hfree : ∀ l, s.shared.owner l = none) (hpc : t.pc = .findOrCreateRoom .acquire) :
    ∃ as, Solo i s.shared t as
        ((s.findOrCreateRoom t.msg.data).addMember i
          ((s.shared.mRooms t.msg.data).getD s.shared.nRooms)).shared
        { t with
          room := some ((s.shared.mRooms t.msg.data).getD s.shared.nRooms)
          pc := .reply joinOk .loop } ∧
      as.flatMap (Action.called i) = [.findOrCreateRoom t.msg.data,
        .addMember ((s.shared.mRooms t.msg.data).getD s.shared.nRooms) i] := by
  have hlock : ((s.findOrCreateRoom t.msg.data).shared.room
      ((s.shared.mRooms t.msg.data).getD s.shared.nRooms)).lock = none := by
    cases hname : s.shared.mRooms t.msg.data with
    | some q =>
      have hold : (s.shared.room q).lock = none := hfree (.room q)
      simpa [Session.findOrCreateRoom, hname] using hold
    | none => simp [Session.findOrCreateRoom, hname, Shared.setRoom]
  have hfind := @findOrCreateRoom i t s hpc (hfree .registry)
  have hadd := @addMember i { t with
    room := some ((s.shared.mRooms t.msg.data).getD s.shared.nRooms), pc := .addMember .acquire } _
    (s.findOrCreateRoom t.msg.data) rfl rfl hlock
  exact ⟨_, hfind.trans hadd, rfl⟩

/-- A reply that the branch begins with. -/
private theorem atReply {resp : Message} {resume : Resume} (hroom : t.room = s.room)
    (hreply : t.pc = .reply resp resume) :
    Solo i s.shared t [] s.shared { t with room := s.room, pc := .reply resp resume } := by
  rw [← hroom, ← hreply]
  exact .refl

private theorem refused (hpc : t.pc = .memberExists) (hroom : t.room = some r)
    (hleave : t.msg.tag ≠ tagLeave) (hfound : s.memberExists i r = false) :
    Solo i s.shared t [.memberExists r false] s.shared { t with pc := .reply sendallError .loop } := by
  have hout : i ∉ (s.shared.room r).members := of_decide_eq_false hfound
  have hfirst : t.next i s.shared {} =
      some (.memberExists r false, { t with pc := .reply sendallError .loop }) := by
    simp [Thread.next, Thread.deref, hpc, hroom, hleave, hout]
  exact .step hfirst rfl (fun _ => Action.noConfusion) .refl

section Branches

variable (hfree : ∀ l, s.shared.owner l = none) (hroom : t.room = s.room)
  (hpc : t.pc = dispatch .sender t.room t.msg.tag)
include hfree hroom hpc

private theorem join (htag : t.msg.tag = tagJoin) : ∃ as,
    Solo i s.shared t as (s.enter i t.msg.data).shared
      { t with room := (s.enter i t.msg.data).room, pc := .reply joinOk .loop } ∧
    as.flatMap (Action.called i) = s.enterCalls i t.msg.data := by
  have hquit : tagJoin ≠ tagQuit := by decide
  have hpointer := findOrCreateRoom_room s t.msg.data
  cases hr : s.room with
  | none =>
    have hfind : t.pc = .findOrCreateRoom .acquire := by simp [hpc, dispatch, htag, hquit, hroom, hr]
    obtain ⟨as, hsolo, hcalls⟩ := @joins i t s hfree hfind
    refine ⟨as, ?_, by rw [hcalls, enterCalls, hr]; rfl⟩
    simpa [enter, hr, Session.addMember, hpointer] using hsolo
  | some r =>
    have hleave : t.pc = .removeMember .acquire := by simp [hpc, dispatch, htag, hquit, hroom, hr]
    have hlock : (s.shared.room r).lock = none := hfree (.room r)
    have hsolo := @removeMember i t r s hleave (hroom.trans hr) hlock
    have hfree' : ∀ l, (s.removeMember i r).shared.owner l = none := fun l => by
      rw [← hfree l]
      cases l with
      | room q => by_cases hq : q = r <;> simp [Session.removeMember, Shared.owner, Shared.setRoom, hq]
      | registry | queue => rfl
    obtain ⟨as, hsolo', hcalls⟩ := @joins i { t with pc := .findOrCreateRoom .acquire }
      (s.removeMember i r) hfree' rfl
    rw [if_pos htag] at hsolo
    refine ⟨[.lock (.room r), .erase r, .unlock (.room r)] ++ as, ?_, ?_⟩
    · have hpointer := findOrCreateRoom_room (s.removeMember i r) t.msg.data
      simpa [enter, hr, Session.addMember, hpointer] using hsolo.trans hsolo'
    · rw [List.flatMap_append, hcalls, enterCalls, hr]
      rfl

private theorem leave {r : RoomId} (htag : t.msg.tag = tagLeave) (hr : s.room = some r) : ∃ as,
    Solo i s.shared t as (s.depart i r).shared { t with
      pc := .reply (if s.memberExists i r then leaveOk else leaveError) .loop } ∧
    as.flatMap (Action.called i) = if s.memberExists i r then [.removeMember r i] else [] := by
  have hquit : tagLeave ≠ tagQuit := by decide
  have hjoin : tagLeave ≠ tagJoin := by decide
  have hask : t.pc = .memberExists := by simp [hpc, dispatch, htag, hquit, hjoin]
  have hlock : (s.shared.room r).lock = none := hfree (.room r)
  cases hfound : s.memberExists i r with
  | true =>
    have hin : i ∈ (s.shared.room r).members := of_decide_eq_true hfound
    have hfirst : t.next i s.shared {} =
        some (.memberExists r true, { t with pc := .removeMember .acquire }) := by
      simp [Thread.next, Thread.deref, hask, hroom, hr, htag, hin]
    have hsolo := @removeMember i { t with pc := .removeMember .acquire } r s rfl (hroom.trans hr) hlock
    refine ⟨[.memberExists r true, .lock (.room r), .erase r, .unlock (.room r)],
      .step hfirst rfl (fun _ => Action.noConfusion) ?_, rfl⟩
    simpa [depart, hfound, htag, hjoin] using hsolo
  | false =>
    have hout : i ∉ (s.shared.room r).members := of_decide_eq_false hfound
    have hfirst : t.next i s.shared {} =
        some (.memberExists r false, { t with pc := .reply leaveError .loop }) := by
      simp [Thread.next, Thread.deref, hask, hroom, hr, htag, hout]
    refine ⟨[.memberExists r false], .step hfirst rfl (fun _ => Action.noConfusion) ?_, rfl⟩
    rw [depart, hfound]
    exact refl

private theorem sendall {r : RoomId} (hmsg : Server.Stray t.msg) (hr : s.room = some r)
    (hfound : s.memberExists i r = true) : ∃ as,
    Solo i s.shared t as (s.broadcastMessage i (s.shared.user i).username t.msg.data r).shared
      { t with pc := .reply sendallOk .loop } ∧
    as.flatMap (Action.called i) = [.broadcastMessage r (s.shared.user i).username t.msg.data] := by
  obtain ⟨hjoin, hleave, hquit⟩ := hmsg
  have hask : t.pc = .memberExists := by simp [hpc, dispatch, hquit, hjoin, hleave, hroom, hr]
  have hin : i ∈ (s.shared.room r).members := of_decide_eq_true hfound
  have hfirst : t.next i s.shared {} =
      some (.memberExists r true, { t with pc := .broadcast .acquire }) := by
    simp [Thread.next, Thread.deref, hask, hroom, hr, hleave, hin]
  have hcall : BroadcastCall.Free ⟨i, r, (s.shared.user i).username, t.msg.data⟩ s.shared :=
    ⟨hfree (.room r), fun u _ => hfree (.queue u)⟩
  obtain ⟨σ, hruns⟩ := hcall.runs
  obtain ⟨-, rfl⟩ := hruns.call
  obtain ⟨as, hsolo, -, hcalls⟩ := @broadcastRuns i _ _ { t with pc := .broadcast .acquire } r _ _ hruns
    rfl (hroom.trans hr) rfl
  exact ⟨.memberExists r true :: as, .step hfirst rfl (fun _ => Action.noConfusion) hsolo, hcalls rfl⟩

/-- What one turn of the loop does for a message, the steps of the thread do from the branch for the
message to its reply. -/
theorem chatWithSender {s' : Session} {goesOn : Bool}
    (h : Server.chatWithSender i s (some t.msg) = .ok (s', goesOn)) :
    ∃ as resp, Solo i s.shared t as s'.shared
        { t with room := s'.room, pc := .reply resp (if goesOn then .loop else .close) } ∧
      s'.calls = s.calls ++ as.flatMap (Action.called i) ∧ s'.sent = s.sent ++ [resp] := by
  by_cases hquit : t.msg.tag = tagQuit
  · obtain ⟨rfl, rfl⟩ : s.send quitOk = s' ∧ false = goesOn := by
      simpa [Server.chatWithSender, hquit, pure, Except.pure] using h
    exact ⟨[], quitOk, atReply hroom (by simp [hpc, dispatch, hquit]), (List.append_nil _).symm, rfl⟩
  by_cases hjoin : t.msg.tag = tagJoin
  · rw [Server.chatWithSender_join hjoin] at h
    obtain ⟨rfl, rfl⟩ := Prod.mk.inj (Except.ok.inj h)
    obtain ⟨as, hsolo, hcalls⟩ := join hfree hroom hpc hjoin
    exact ⟨as, joinOk, hsolo, hcalls ▸ enter_calls s i t.msg.data,
      congrArg (· ++ [joinOk]) (enter_sent s i t.msg.data)⟩
  by_cases hleave : t.msg.tag = tagLeave
  · cases hr : s.room with
    | none =>
      rw [Server.chatWithSender_null hleave hr] at h
      cases h
    | some r =>
      rw [Server.chatWithSender_leave hleave hr] at h
      obtain ⟨rfl, rfl⟩ := Prod.mk.inj (Except.ok.inj h)
      obtain ⟨as, hsolo, hcalls⟩ := leave hfree hroom hpc hleave hr
      refine ⟨as, _, ?_, hcalls ▸ depart_calls s i r, congrArg (· ++ [_]) (depart_sent s i r)⟩
      rw [send, (depart_outside s i r).1, ← hroom]
      exact hsolo
  · have hmsg : Server.Stray t.msg := ⟨hjoin, hleave, hquit⟩
    rw [Server.chatWithSender_stray hmsg] at h
    cases hr : s.room with
    | none =>
      rw [hr] at h
      obtain ⟨rfl, rfl⟩ := Prod.mk.inj (Except.ok.inj h)
      exact ⟨[], sendallError, atReply hroom (by simp [hpc, dispatch, hquit, hjoin, hleave, hroom, hr]),
        (List.append_nil _).symm, rfl⟩
    | some r =>
      have hpointer := hroom.trans hr
      rw [hr] at h
      cases hfound : s.memberExists i r with
      | true =>
        simp only [hfound, if_true] at h
        obtain ⟨rfl, rfl⟩ := Prod.mk.inj (Except.ok.inj h)
        obtain ⟨as, hsolo, hcalls⟩ := sendall hfree hroom hpc hmsg hr hfound
        refine ⟨as, sendallOk, ?_, by rw [hcalls]; rfl, rfl⟩
        rw [send, broadcastMessage, hr, ← hpointer]
        exact hsolo
      | false =>
        simp only [hfound, Bool.false_eq_true, if_false] at h
        obtain ⟨rfl, rfl⟩ := Prod.mk.inj (Except.ok.inj h)
        have hask : t.pc = .memberExists := by simp [hpc, dispatch, hquit, hjoin, hleave, hpointer]
        refine ⟨[.memberExists r false], sendallError, ?_, (List.append_nil _).symm, rfl⟩
        rw [send, ← hroom]
        exact refused hask hpointer hleave hfound

end Branches

end Solo

/-- A server whose thread `i` has taken up a message, with no lock taken, can come to the state that one
turn of the loop leaves, by steps of that thread and with the same calls. -/
theorem Server.turn {s : Server} {i : Sid} (halive : s.fault = none)
    (hfree : ∀ l, s.shared.owner l = none)
    (hpc : (s.thread i).pc = dispatch .sender (s.thread i).room (s.thread i).msg.tag) {s₁ : Session}
    {goesOn : Bool} (h : chatWithSender i { shared := s.shared, room := (s.thread i).room }
      (some (s.thread i).msg) = .ok (s₁, goesOn)) :
    ∃ es s' resp, Run Server.Step s es s' ∧ (∀ e ∈ es, e.session = i) ∧
      s₁.calls = es.flatMap (fun e => e.action.called i) ∧ s₁.sent = [resp] ∧ s'.shared = s₁.shared ∧
      s'.thread = Function.update s.thread i { s.thread i with
        room := s₁.room
        pc := .reply resp (if goesOn then .loop else .close) } := by
  obtain ⟨as, resp, hsolo, hcalls, hsent⟩ :=
    @Solo.chatWithSender i (s.thread i) { shared := s.shared, room := (s.thread i).room } hfree rfl hpc s₁
      goesOn h
  obtain ⟨es, s', hrun, hsession, hactions, hshared, hthread, -⟩ := hsolo.run halive
  refine ⟨es, s', resp, hrun, hsession, ?_, hsent, hshared, hthread⟩
  rw [hcalls, ← hactions, List.flatMap_map]
  rfl

end Chat
