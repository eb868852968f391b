import Chat.Server
import Chat.Decoder

/-! What one step of the server can do: the inversion of `Server.next`, case by case. -/
namespace Chat
open Traversal Transition

/-- The calls that go through the local `room` pointer. -/
def Pc.derefs : Pc → Bool
  | .removeMember _ | .addMember _ | .memberExists | .broadcast _ => true
  | _ => false

/-- The steps of thread `i` between the point where a function starts on its lock and the
point where it gives the last one back. -/
inductive Thread.Inner (i : Sid) (σ : Shared) (t : Thread) : Action → Thread → Prop
  | removeAcquire {r} : t.pc = .removeMember .acquire → t.room = some r →
      Inner i σ t (.lock (.room r)) { t with pc := .removeMember .body }
  | removeBody {r} : t.pc = .removeMember .body → t.room = some r →
      Inner i σ t (.erase r) { t with pc := .removeMember (.release ()) }
  | findAcquire : t.pc = .findOrCreateRoom .acquire →
      Inner i σ t (.lock .registry) { t with pc := .findOrCreateRoom .body }
  | findBody {r} : t.pc = .findOrCreateRoom .body → (σ.mRooms t.msg.data).getD σ.nRooms = r →
      Inner i σ t (.findOrCreateRoom t.msg.data r) { t with pc := .findOrCreateRoom (.release r) }
  | findRelease {r} : t.pc = .findOrCreateRoom (.release r) →
      Inner i σ t (.unlock .registry) { t with room := some r, pc := .addMember .acquire }
  | addAcquire {r} : t.pc = .addMember .acquire → t.room = some r →
      Inner i σ t (.lock (.room r)) { t with pc := .addMember .body }
  | addBody {r} : t.pc = .addMember .body → t.room = some r →
      Inner i σ t (.insert r) { t with pc := .addMember (.release ()) }
  | broadcastAcquire {r} : t.pc = .broadcast .acquire → t.room = some r →
      Inner i σ t (.broadcast r (σ.user i).username t.msg.data) { t with pc := .broadcast .start }
  | broadcastStart {r} : t.pc = .broadcast .start → t.room = some r →
      Inner i σ t (.begin r) { t with pc := .broadcast (.loop (first (σ.room r).members)) }
  | visitOther {r} {u : Sid} : t.pc = .broadcast (.loop (some u)) → t.room = some r →
      (σ.user u).username ≠ (σ.user i).username →
      Inner i σ t
        (.visit r u (some (delivery (σ.room r).roomName (σ.user i).username t.msg.data)))
        { t with pc := .broadcast (.enqueue u
          (delivery (σ.room r).roomName (σ.user i).username t.msg.data) .lock) }
  | visitSame {r} {u : Sid} : t.pc = .broadcast (.loop (some u)) → t.room = some r →
      (σ.user u).username = (σ.user i).username →
      Inner i σ t (.visit r u none)
        { t with pc := .broadcast (.loop (after (σ.room r).members u)) }
  | enqueue {r u msg pc a pc'} : t.pc = .broadcast (.enqueue u msg pc) → t.room = some r →
      pc.next msg = (a, some pc') →
      Inner i σ t (.queue u a) { t with pc := .broadcast (.enqueue u msg pc') }
  | enqueueEnd {r u msg} : t.pc = .broadcast (.enqueue u msg .unlock) → t.room = some r →
      Inner i σ t (.queue u .unlock)
        { t with pc := .broadcast (.loop (after (σ.room r).members u)) }
  | dequeue {pc timedOut a pc'} : t.pc = .dequeue pc →
      pc.next (σ.user i).mqueue timedOut = .ok (a, some pc') →
      Inner i σ t (.queue i a) { t with pc := .dequeue pc' }

/-- One step of thread `i` from `t`, by position. -/
inductive Thread.Step (i : Sid) (σ : Shared) (t : Thread) : Action → Thread → Prop
  | inner {a t'} : Thread.Inner i σ t a t' → Step i σ t a t'
  | accept (fd : ℕ) (reads : List ReadResult) (writes : List WriteResult) : t.pc = .unborn →
      Step i σ t (.accept (.ofFd fd reads writes)) { conn := .ofFd fd reads writes, pc := .login }
  | loginFail {buffer msg conn} : t.pc = .login →
      t.conn.receive buffer {} = .ok (false, msg, conn) →
      Step i σ t (.login none) { t with conn, pc := .loginReply false }
  | loginOk {buffer msg conn} : t.pc = .login →
      t.conn.receive buffer {} = .ok (true, msg, conn) →
      Step i σ t (.login (some msg)) { t with
        conn, msg, pc := .loginReply (msg.tag = tagSlogin ∨ msg.tag = tagRlogin) }
  | loginReply {accepted resp sent conn} : t.pc = .loginReply accepted →
      t.conn.send resp = (sent, conn) →
      resp = (if accepted then loginSuccess t.msg.tag else loginError) →
      Step i σ t (.loginReply resp sent) { t with
        conn, pc := if accepted then .newUser else .done }
  | newSender : t.pc = .newUser → t.msg.tag = tagSlogin →
      Step i σ t (.newUser t.msg.data) { t with
        role := .sender, pc := { t with role := .sender }.loopHead }
  | newReceiver : t.pc = .newUser → t.msg.tag ≠ tagSlogin →
      Step i σ t (.newUser t.msg.data) { t with role := .receiver, pc := .receive }
  | receiveFail {buffer msg conn} : t.pc = .receive →
      t.conn.receive buffer {} = .ok (false, msg, conn) →
      Step i σ t (.receive none) { t with
        conn, serial := t.serial + 1
        pc := .reply receiveError (if t.role = .sender then .close else .ret) }
  | receiveOk {buffer msg conn} : t.pc = .receive →
      t.conn.receive buffer {} = .ok (true, msg, conn) →
      Step i σ t (.receive (some msg)) { t with
        conn, msg, serial := t.serial + 1, pc := dispatch t.role t.room msg.tag }
  | removeRelease {r} : t.pc = .removeMember (.release ()) → t.room = some r →
      Step i σ t (.unlock (.room r)) { t with
        pc := if t.msg.tag = tagJoin then .findOrCreateRoom .acquire else .reply leaveOk .loop }
  | addRelease {r} : t.pc = .addMember (.release ()) → t.room = some r →
      Step i σ t (.unlock (.room r)) { t with pc := .reply joinOk .loop }
  | memberExists {r} {found : Bool} : t.pc = .memberExists → t.room = some r →
      (found = true ↔ i ∈ (σ.room r).members) →
      Step i σ t (.memberExists r found) { t with
        pc := if t.msg.tag = tagLeave then
            if found then .removeMember .acquire else .reply leaveError .loop
          else if found then .broadcast .acquire else .reply sendallError .loop }
  | loopEnd {r} : t.pc = .broadcast (.loop none) → t.room = some r →
      Step i σ t (.unlock (.room r)) { t with pc := .reply sendallOk .loop }
  | reply {resp resume sent conn} : t.pc = .reply resp resume → t.conn.send resp = (sent, conn) →
      Step i σ t (.reply resp sent) { t with
        conn
        pc := match resume with
          | .loop => { t with conn }.loopHead
          | .close => .close
          | .ret => .done }
  | dequeueEnd {res} : t.pc = .dequeue (.ret res) →
      Step i σ t (.queue i (.ret res)) { t with
        pc := match res with
          | none => t.loopHead
          | some msg => if msg.tag = tagErr then .reply receiveError .close else .deliver msg }
  | deliver {msg sent conn} : t.pc = .deliver msg → t.conn.send msg = (sent, conn) →
      Step i σ t (.deliver msg sent) { t with conn, pc := { t with conn }.loopHead }
  | close : t.pc = .close → Step i σ t .close { t with conn := t.conn.close, pc := .done }
  | subscript : t.pc = .login ∨ t.pc = .receive → Step i σ t (.fault .subscript) t
  | nullRoom : t.pc.derefs = true → t.room = none → Step i σ t (.fault .nullRoom) t
  | emptyQueue : t.pc = .dequeue .pop → (σ.user i).mqueue.mMessages = [] →
      Step i σ t (.fault .emptyQueue) t

namespace Thread

private theorem deref_step {i : Sid} {σ : Shared} {t t' : Thread} {a : Action}
    {k : RoomId → Action × Thread} (hpc : t.pc.derefs = true)
    (hk : ∀ r, t.room = some r → Step i σ t (k r).1 (k r).2)
    (h : some (t.deref k) = some (a, t')) : Step i σ t a t' := by
  cases hr : t.room with
  | none =>
    obtain ⟨rfl, rfl⟩ : Action.fault .nullRoom = a ∧ t = t' := by simpa [deref, hr] using h
    exact .nullRoom hpc hr
  | some r =>
    have hkr : k r = (a, t') := by simpa [deref, hr] using h
    simpa [hkr] using hk r hr

private theorem receive_step {i : Sid} {σ : Shared} {t t' : Thread} {a : Action} {c : Choice}
    (hpc : t.pc = .receive) (h : t.next i σ c = some (a, t')) : Step i σ t a t' := by
  simp only [next, hpc] at h
  split at h
  · next f hrec =>
    obtain ⟨rfl, rfl⟩ : Action.fault f = a ∧ t = t' := by simpa using h
    obtain rfl := Connection.receive_fault hrec
    exact .subscript (.inr hpc)
  · next msg conn hrec =>
    cases h
    cases hrole : t.role with
    | sender => simpa [hrole] using Step.receiveFail hpc hrec
    | receiver => simpa [hrole] using Step.receiveFail hpc hrec
  · next msg conn hrec =>
    cases h
    exact .receiveOk hpc hrec

private theorem login_step {i : Sid} {σ : Shared} {t t' : Thread} {a : Action} {c : Choice}
    (hpc : t.pc = .login) (h : t.next i σ c = some (a, t')) : Step i σ t a t' := by
  simp only [next, hpc] at h
  split at h
  · next f hrec =>
    obtain ⟨rfl, rfl⟩ : Action.fault f = a ∧ t = t' := by simpa using h
    obtain rfl := Connection.receive_fault hrec
    exact .subscript (.inl hpc)
  · next msg conn hrec =>
    cases h
    exact .loginFail hpc hrec
  · next msg conn hrec =>
    cases h
    exact .loginOk hpc hrec

private theorem newUser_step {i : Sid} {σ : Shared} {t t' : Thread} {a : Action} {c : Choice}
    (hpc : t.pc = .newUser) (h : t.next i σ c = some (a, t')) : Step i σ t a t' := by
  simp only [next, hpc] at h
  by_cases htag : t.msg.tag = tagSlogin
  · obtain ⟨rfl, rfl⟩ := Prod.mk.inj (Option.some.inj h)
    simpa [htag, loopHead] using Step.newSender hpc htag
  · obtain ⟨rfl, rfl⟩ := Prod.mk.inj (Option.some.inj h)
    simpa [htag] using Step.newReceiver hpc htag

private theorem guarded_step {i : Sid} {σ : Shared} {t t' : Thread} {a : Action} {c : Choice}
    (hpc : (∃ pc, t.pc = .removeMember pc) ∨ (∃ pc, t.pc = .findOrCreateRoom pc) ∨
      ∃ pc, t.pc = .addMember pc)
    (h : t.next i σ c = some (a, t')) : Step i σ t a t' := by
  rcases hpc with ⟨pc, hpc⟩ | ⟨pc, hpc⟩ | ⟨pc, hpc⟩
  · cases pc with
    | acquire =>
      exact deref_step (by rw [hpc]; rfl) (fun _ hr => .inner (.removeAcquire hpc hr)) (by simpa [next, hpc] using h)
    | body =>
      exact deref_step (by rw [hpc]; rfl) (fun _ hr => .inner (.removeBody hpc hr)) (by simpa [next, hpc] using h)
    | release _ =>
      exact deref_step (by rw [hpc]; rfl) (fun _ => .removeRelease hpc)
        (by simpa [next, hpc] using h)
  · cases pc with
    | acquire =>
      obtain ⟨rfl, rfl⟩ := by simpa [next, hpc] using h
      exact .inner (.findAcquire hpc)
    | body =>
      obtain ⟨rfl, rfl⟩ := by simpa [next, hpc] using h
      exact .inner (.findBody hpc rfl)
    | release r =>
      obtain ⟨rfl, rfl⟩ := by simpa [next, hpc] using h
      exact .inner (.findRelease hpc)
  · cases pc with
    | acquire =>
      exact deref_step (by rw [hpc]; rfl) (fun _ hr => .inner (.addAcquire hpc hr)) (by simpa [next, hpc] using h)
    | body =>
      exact deref_step (by rw [hpc]; rfl) (fun _ hr => .inner (.addBody hpc hr)) (by simpa [next, hpc] using h)
    | release _ =>
      exact deref_step (by rw [hpc]; rfl) (fun _ => .addRelease hpc) (by simpa [next, hpc] using h)

private theorem broadcast_step {i : Sid} {σ : Shared} {t t' : Thread} {a : Action} {c : Choice}
    {pc : BroadcastPc} (hpc : t.pc = .broadcast pc) (h : t.next i σ c = some (a, t')) :
    Step i σ t a t' := by
  have hderef : t.pc.derefs = true := by rw [hpc]; rfl
  cases pc with
  | acquire =>
    exact deref_step hderef (fun _ hr => .inner (.broadcastAcquire hpc hr)) (by simpa [next, hpc] using h)
  | start => exact deref_step hderef (fun _ hr => .inner (.broadcastStart hpc hr)) (by simpa [next, hpc] using h)
  | loop it =>
    cases it with
    | none => exact deref_step hderef (fun _ => .loopEnd hpc) (by simpa [next, hpc] using h)
    | some u =>
      by_cases hname : (σ.user u).username ≠ (σ.user i).username
      · exact deref_step hderef (fun _ hr => .inner (.visitOther hpc hr hname))
          (by simpa [next, hpc, hname] using h)
      · rw [not_ne_iff] at hname
        exact deref_step hderef (fun _ hr => .inner (.visitSame hpc hr hname))
          (by simpa [next, hpc, hname] using h)
  | enqueue u msg pc =>
    cases pc with
    | unlock =>
      exact deref_step hderef (fun _ hr => .inner (.enqueueEnd hpc hr))
        (by simpa [next, hpc, EnqueuePc.next] using h)
    | lock =>
      exact deref_step hderef (fun _ hr => .inner (.enqueue hpc hr rfl))
        (by simpa [next, hpc, EnqueuePc.next] using h)
    | push =>
      exact deref_step hderef (fun _ hr => .inner (.enqueue hpc hr rfl))
        (by simpa [next, hpc, EnqueuePc.next] using h)
    | post =>
      exact deref_step hderef (fun _ hr => .inner (.enqueue hpc hr rfl))
        (by simpa [next, hpc, EnqueuePc.next] using h)

private theorem dequeue_step {i : Sid} {σ : Shared} {t t' : Thread} {a : Action} {c : Choice}
    {pc : DequeuePc Message} (hpc : t.pc = .dequeue pc) (h : t.next i σ c = some (a, t')) :
    Step i σ t a t' := by
  cases pc with
  | wait =>
    cases htimed : c.timedOut with
    | true =>
      obtain ⟨rfl, rfl⟩ := by simpa [next, hpc, DequeuePc.next, htimed] using h
      exact .inner (.dequeue hpc (show DequeuePc.next _ true _ = _ from rfl))
    | false =>
      obtain ⟨rfl, rfl⟩ := by simpa [next, hpc, DequeuePc.next, htimed] using h
      exact .inner (.dequeue hpc (show DequeuePc.next _ false _ = _ from rfl))
  | lock sem =>
    obtain ⟨rfl, rfl⟩ := by simpa [next, hpc, DequeuePc.next] using h
    exact .inner (.dequeue hpc (show DequeuePc.next _ false _ = _ from rfl))
  | pop =>
    cases hq : (σ.user i).mqueue.mMessages with
    | nil =>
      obtain ⟨rfl, rfl⟩ := by simpa [next, hpc, DequeuePc.next, hq] using h
      exact .emptyQueue hpc hq
    | cons msg rest =>
      obtain ⟨rfl, rfl⟩ := by simpa [next, hpc, DequeuePc.next, hq] using h
      exact .inner (.dequeue hpc (show DequeuePc.next _ false _ = _ by simp [DequeuePc.next, hq]))
  | ret msg =>
    cases msg with
    | none =>
      obtain ⟨rfl, rfl⟩ := by simpa [next, hpc] using h
      exact .dequeueEnd hpc
    | some msg =>
      obtain ⟨rfl, rfl⟩ := by simpa [next, hpc] using h
      exact .dequeueEnd hpc

/-- Every step of the code of a thread is one of these. -/
theorem step_of_next {i : Sid} {σ : Shared} {t t' : Thread} {a : Action} {c : Choice}
    (h : t.next i σ c = some (a, t')) : Step i σ t a t' := by
  cases hpc : t.pc with
  | unborn => simp [next, hpc] at h
  | login => exact login_step hpc h
  | loginReply accepted =>
    obtain ⟨rfl, rfl⟩ := by simpa [next, hpc] using h
    exact .loginReply hpc rfl rfl
  | newUser => exact newUser_step hpc h
  | receive => exact receive_step hpc h
  | removeMember pc => exact guarded_step (.inl ⟨pc, hpc⟩) h
  | findOrCreateRoom pc => exact guarded_step (.inr (.inl ⟨pc, hpc⟩)) h
  | addMember pc => exact guarded_step (.inr (.inr ⟨pc, hpc⟩)) h
  | memberExists =>
    refine deref_step (by rw [hpc]; rfl) (fun r hr => ?_) (by simpa [next, hpc] using h)
    have hfound : decide (i ∈ (σ.room r).members) = true ↔ i ∈ (σ.room r).members :=
      decide_eq_true_iff
    simpa using Step.memberExists hpc hr hfound
  | broadcast pc => exact broadcast_step hpc h
  | reply resp resume =>
    obtain ⟨rfl, rfl⟩ := by simpa [next, hpc] using h
    exact .reply hpc rfl
  | dequeue pc => exact dequeue_step hpc h
  | deliver msg =>
    obtain ⟨rfl, rfl⟩ := by simpa [next, hpc] using h
    exact .deliver hpc rfl
  | close =>
    obtain ⟨rfl, rfl⟩ := by simpa [next, hpc] using h
    exact .close hpc
  | done => simp [next, hpc] at h

end Thread
/-- The fault that ends the server, if the action is one. -/
def Action.faulted (i : Sid) : Action → Option (Sid × Fault)
  | .fault f => some (i, f)
  | _ => none

namespace Server

/-- Every step of the server is one step of one thread with its effect on the shared objects. -/
theorem Step.move {s s' : Server} {e : Event} (h : s.Step e s') :
    ∃ i a t σ, s.fault = none ∧ Thread.Step i s.shared (s.thread i) a t ∧
      s.shared.apply i a = some σ ∧ e = ⟨i, t.serial, a⟩ ∧
      s' = ⟨σ, Function.update s.thread i t, a.faulted i⟩ := by
  obtain ⟨c, hc⟩ := h
  cases hfault : s.fault with
  | some f => cases c <;> simp [next, hfault] at hc
  | none =>
    cases c with
    | accept i fd reads writes =>
      cases hpc : (s.thread i).pc with
      | unborn =>
        obtain ⟨rfl, rfl⟩ := by simpa [next, hfault, hpc] using hc
        exact ⟨i, _, _, _, rfl, .accept fd reads writes hpc, rfl, rfl, by simp [Action.faulted]⟩
      | _ => simp [next, hfault, hpc] at hc
    | run i c =>
      cases hnext : (s.thread i).next i s.shared c with
      | none => simp [next, hfault, hnext] at hc
      | some p =>
        cases happly : s.shared.apply i p.1 with
        | none => simp [next, hfault, hnext, happly] at hc
        | some σ =>
          obtain ⟨rfl, rfl⟩ := by simpa [next, hfault, hnext, happly] using hc
          refine ⟨i, p.1, p.2, σ, rfl, Thread.step_of_next hnext, happly, rfl, ?_⟩
          cases p.1 <;> rfl

/-- The run of a fixed schedule. -/
def outcome (cs : List Sched) : Option (List Event × Server) := execute next {} cs

theorem run_of_outcome {cs : List Sched} {es : List Event} {s : Server}
    (h : outcome cs = some (es, s)) : Run Step {} es s :=
  run_of_execute (fun _ c _ _ hc => ⟨c, hc⟩) h

end Server
end Chat
