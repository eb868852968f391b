import Chat.Broadcast
import Chat.History

/-! The log equation of a room: what is enqueued for a member is, in order, what has been
broadcast since it joined, less what the broadcast in progress still owes it. -/
namespace Chat
open Transition Traversal

/-- One call of `broadcast_message`: the session, the number of its message, the arguments. -/
structure Broadcast where
  session : Sid
  serial : ℕ
  sender : Bytes
  text : Bytes
  deriving DecidableEq

/-- One message enqueued, with the session and the number of the message that it is for. -/
structure Post where
  session : Sid
  serial : ℕ
  msg : Message
  deriving DecidableEq

/-- The broadcasts in room `r`, in the order in which they took its lock. -/
def broadcasts (r : RoomId) (es : List Event) : List Broadcast :=
  es.filterMap fun e => match e.action with
    | .broadcast q sender text => if q = r then some ⟨e.session, e.serial, sender, text⟩ else none
    | _ => none

/-- All that was ever enqueued for user `u`. -/
def posts (u : Sid) (es : List Event) : List Post :=
  es.filterMap fun e => match e.action with
    | .queue v (.push msg) => if v = u then some ⟨e.session, e.serial, msg⟩ else none
    | _ => none

/-- What a member named `username` of the room `roomName` is to get of some broadcasts. -/
def expected (roomName username : Bytes) (bs : List Broadcast) : List Post :=
  (bs.filter (·.sender ≠ username)).map fun b =>
    ⟨b.session, b.serial, delivery roomName b.sender b.text⟩

@[simp] theorem posts_append (u : Sid) (es es' : List Event) :
    posts u (es ++ es') = posts u es ++ posts u es' :=
  List.filterMap_append

@[simp] theorem broadcasts_append (r : RoomId) (es es' : List Event) :
    broadcasts r (es ++ es') = broadcasts r es ++ broadcasts r es' :=
  List.filterMap_append

@[simp] theorem expected_append (roomName username : Bytes) (bs bs' : List Broadcast) :
    expected roomName username (bs ++ bs') =
      expected roomName username bs ++ expected roomName username bs' := by
  simp [expected]

namespace Thread

/-- The broadcast that the thread is in has not yet pushed for user `u`. -/
def owes (u : Sid) (t : Thread) : Bool :=
  match t.pc with
  | .broadcast .start => true
  | .broadcast (.loop it) => ¬ Passed u it
  | .broadcast (.enqueue v _ pc) => v < u ∨ v = u ∧ (pc = .lock ∨ pc = .push)
  | _ => false

/-- What thread `i` is still to enqueue for user `u`. -/
def due (roomName : Bytes) (name : Sid → Bytes) (i u : Sid) (t : Thread) : List Post :=
  if t.owes u = true ∧ name i ≠ name u then
    [⟨i, t.serial, delivery roomName (name i) t.msg.data⟩]
  else []

theorem due_eq_nil {roomName : Bytes} {name : Sid → Bytes} {i u : Sid} {t : Thread}
    (h : t.owes u = false) : t.due roomName name i u = [] := by
  simp [due, h]

theorem due_congr {roomName : Bytes} {name : Sid → Bytes} {i u : Sid} {t t' : Thread}
    (howes : name i ≠ name u → t'.owes u = t.owes u) (hserial : t'.serial = t.serial)
    (hmsg : t'.msg = t.msg) : t'.due roomName name i u = t.due roomName name i u := by
  by_cases hname : name i = name u
  · simp [due, hname]
  · simp [due, howes hname, hserial, hmsg]

variable {i : Sid} {σ : Shared} {t t' : Thread} {a : Action}

theorem owes_idle {u : Sid} {t : Thread} (h : t.pc.idle = true) : t.owes u = false := by
  unfold owes
  generalize t.pc = pc at h
  cases pc with
  | broadcast pc => cases pc <;> first | rfl | cases h
  | _ => rfl

/-- One step inside a room's guard: what is enqueued for a member is no longer due. -/
private theorem Step.due_step (h : Step i σ t a t') {u : Sid} {r : RoomId} {n : Bytes}
    (hin : t.pc.inRoom = true) (hr : t.room = some r) (hu : u ∈ (σ.room r).members)
    (hn : removeNewline (σ.room r).roomName = removeNewline n)
    (hmsg : ∀ v msg pc, t.pc = .broadcast (.enqueue v msg pc) →
      msg = delivery (σ.room r).roomName (σ.user i).username t.msg.data ∧
        (σ.user v).username ≠ (σ.user i).username) :
    posts u [⟨i, t'.serial, a⟩] ++ t'.due n (fun v => (σ.user v).username) i u =
      t.due n (fun v => (σ.user v).username) i u := by
  have keep (hposts : posts u [⟨i, t'.serial, a⟩] = [])
      (howes : (σ.user i).username ≠ (σ.user u).username → t'.owes u = t.owes u)
      (hserial : t'.serial = t.serial) (hdata : t'.msg = t.msg) :
      posts u [⟨i, t'.serial, a⟩] ++ t'.due n (fun v => (σ.user v).username) i u =
        t.due n (fun v => (σ.user v).username) i u := by
    rw [hposts, List.nil_append]
    exact due_congr howes hserial hdata
  cases h with
  | inner h =>
    cases h with
    | removeBody hpc | addBody hpc => exact keep rfl (fun _ => by simp [owes, hpc]) rfl rfl
    | @broadcastStart q hpc hq =>
      obtain rfl : q = r := by simpa [hq] using hr
      refine keep rfl (fun _ => ?_) rfl rfl
      simpa [owes, hpc] using not_passed_first hu
    | @visitOther q v hpc hq =>
      refine keep rfl (fun _ => ?_) rfl rfl
      simp only [owes, hpc, passed_some, true_or, and_true, decide_eq_decide]
      exact (not_lt.trans le_iff_lt_or_eq).symm
    | @visitSame q v hpc hq hname =>
      obtain rfl : q = r := by simpa [hq] using hr
      refine keep rfl (fun hne => ?_) rfl rfl
      have huv : u ≠ v := fun huv => hne (by rw [huv, hname])
      simp only [owes, hpc, passed_after_iff hu, passed_some, decide_eq_decide]
      exact not_congr ⟨fun hle => lt_of_le_of_ne hle huv, le_of_lt⟩
    | @enqueue q v msg pc a pc' hpc hq hnext =>
      obtain ⟨hcontent, hname⟩ := hmsg v msg pc hpc
      cases pc with
      | lock =>
        cases hnext
        exact keep rfl (fun _ => by simp [owes, hpc]) rfl rfl
      | push =>
        cases hnext
        by_cases hv : v = u
        · subst hv
          simp [posts, due, owes, hpc, hname.symm, hcontent, delivery_congr hn]
        · exact keep (by simp [posts, hv]) (fun _ => by simp [owes, hpc, hv]) rfl rfl
      | post =>
        cases hnext
        exact keep rfl (fun _ => by simp [owes, hpc]) rfl rfl
      | unlock => cases hnext
    | @enqueueEnd q v msg hpc hq =>
      obtain rfl : q = r := by simpa [hq] using hr
      refine keep rfl (fun _ => ?_) rfl rfl
      simp [owes, hpc, passed_after_iff hu]
    | removeAcquire hpc | findAcquire hpc | findBody hpc | findRelease hpc | addAcquire hpc
    | broadcastAcquire hpc | dequeue hpc => simp [hpc, Pc.inRoom] at hin
  | removeRelease hpc =>
    refine keep rfl (fun _ => ?_) rfl rfl
    rw [owes_idle (removed_idle _)]
    simp [owes, hpc]
  | addRelease hpc => exact keep rfl (fun _ => by simp [owes, hpc]) rfl rfl
  | loopEnd hpc => exact keep rfl (fun _ => by simp [owes, hpc]) rfl rfl
  | subscript | nullRoom | emptyQueue => rfl
  | accept _ _ _ hpc | loginFail hpc | loginOk hpc | loginReply hpc | newSender hpc
  | newReceiver hpc | receiveFail hpc | receiveOk hpc | memberExists hpc | reply hpc
  | dequeueEnd hpc | deliver hpc | close hpc => simp [hpc, Pc.inRoom] at hin

theorem inRoom_of_owes {u : Sid} (h : t.owes u = true) : t.pc.inRoom = true := by
  unfold owes at h
  generalize t.pc = pc at h
  cases pc with
  | broadcast pc => cases pc <;> first | rfl | cases h
  | _ => cases h

/-- The guard on a room is on the same room to its end. -/
theorem Step.room_eq (h : Step i σ t a t') (hok : t.Ok) (hin : t.pc.inRoom = true) :
    t'.room = t.room := by
  rcases h.room_cases hok with hsame | ⟨r, hpc, -⟩
  · exact hsame
  · simp [hpc, Pc.inRoom] at hin

theorem Step.broadcast_of {r : RoomId} {sender text : Bytes}
    (h : Step i σ t (.broadcast r sender text) t') :
    t.pc = .broadcast .acquire ∧ t.room = some r ∧ sender = (σ.user i).username ∧
      text = t.msg.data ∧ t' = { t with pc := .broadcast .start } := by
  cases h with
  | inner h =>
    cases h with
    | broadcastAcquire hpc hr => exact ⟨hpc, hr, rfl, rfl, rfl⟩

theorem Step.insert_of {r : RoomId} (h : Step i σ t (.insert r) t') :
    t.pc = .addMember .body ∧ t.room = some r ∧ t' = { t with pc := .addMember (.release ()) } := by
  cases h with
  | inner h =>
    cases h with
    | addBody hpc hr => exact ⟨hpc, hr, rfl⟩

theorem Step.push_of {u : Sid} {msg : Message} (h : Step i σ t (.queue u (.push msg)) t') :
    t.pc = .broadcast (.enqueue u msg .push) := by
  cases h with
  | inner h =>
    cases h with
    | @enqueue r v m pc a pc' hpc hr hnext =>
      cases pc <;> cases hnext
      exact hpc
    | @dequeue pc timedOut a pc' hpc hnext =>
      cases pc with
      | wait => cases timedOut <;> cases hnext
      | lock | ret => cases hnext
      | pop => cases hq : (σ.user i).mqueue.mMessages <;> simp [DequeuePc.next, hq] at hnext

/-- A receiver that is not settled is in no room. -/
theorem Ok.unsettled (h : t.Ok) (hrole : t.role = .receiver) (hpc : t.pc.settled = false) :
    t.room = none ∨ t.pc.absent = true := by
  unfold Ok at h
  generalize hp : t.pc = pc at h hpc
  cases pc with
  | receive => exact .inl (h hrole)
  | addMember pc =>
    cases pc with
    | release => cases hpc
    | acquire | body => exact .inr rfl
  | removeMember | memberExists | broadcast => simp [hrole] at h
  | reply | dequeue | deliver | close | done => cases hpc
  | _ => exact .inr rfl

end Thread

namespace Server

variable {s s' : Server} {e : Event} {es es' : List Event} {r : RoomId} {u : Sid}

/-- Only the holder of its room's lock enqueues for a user. -/
theorem push_holds (hrun : Run Server.Step {} es s) {i : Sid} {t : Thread} {msg : Message}
    (ht : Thread.Step i s.shared (s.thread i) (.queue u (.push msg)) t) :
    ∃ q, .room q ∈ (s.thread i).holds i ∧ u ∈ (s.shared.room q).members := by
  have hpc := ht.push_of
  have hok : (s.thread i).role = .sender ∧ (s.thread i).room ≠ none := by
    simpa [Thread.Ok, hpc] using ok hrun i
  obtain ⟨q, hq⟩ := Option.ne_none_iff_exists'.mp hok.2
  exact ⟨q, ⟨by rw [hpc]; rfl, hq⟩, (broadcasting hrun i).member u q (by rw [hpc]; rfl) hq⟩

/-- What the holder of the lock of room `r` is still to enqueue for user `u`. -/
def pending (s : Server) (r : RoomId) (roomName : Bytes) (u : Sid) : List Post :=
  match s.shared.owner (.room r) with
  | some i => (s.thread i).due roomName (fun v => (s.shared.user v).username) i u
  | none => []

private theorem pending_of_holds (hrun : Run Server.Step {} es s) {i : Sid}
    (hi : .room r ∈ (s.thread i).holds i) (roomName : Bytes) :
    s.pending r roomName u =
      (s.thread i).due roomName (fun v => (s.shared.user v).username) i u := by
  have howner : s.shared.owner (.room r) = some i := (locks_agree hrun (.room r) i).mpr hi
  simp [pending, howner]

theorem pending_eq_nil (hrun : Run Server.Step {} es s)
    (h : ∀ i, .room r ∈ (s.thread i).holds i → (s.thread i).owes u = false) (roomName : Bytes) :
    s.pending r roomName u = [] := by
  cases howner : s.shared.owner (.room r) with
  | none => simp [pending, howner]
  | some i =>
    have hi := (locks_agree hrun (.room r) i).mp howner
    rw [pending_of_holds hrun hi]
    exact Thread.due_eq_nil (h i hi)

private theorem due_names {roomName : Bytes} {name name' : Sid → Bytes} {i u : Sid} {t : Thread}
    (hi : name' i = name i) (hu : name' u = name u) :
    t.due roomName name' i u = t.due roomName name i u := by
  simp [Thread.due, hi, hu]

variable {i : Sid} {a : Action} {n : Bytes}

private theorem late_of_inRoom {pc : Pc} (h : pc.inRoom = true) : pc.early = false := by
  cases pc <;> first | rfl | cases h

/-- A step of the lock's holder. -/
private theorem pending_step_holder (hrun : Run Server.Step {} es s) (hrun' : Run Server.Step {} es' s')
    (hs : s.Acts i a s') (hu : u ∈ (s.shared.room r).members) (hn : s.shared.mRooms n = some r)
    (hi : .room r ∈ (s.thread i).holds i) :
    posts u [⟨i, (s'.thread i).serial, a⟩] ++ s'.pending r n u = s.pending r n u := by
  obtain ⟨hin, hr⟩ := hi
  have hdue := hs.step.due_step hin hr hu ((registered hrun).registry.roomName n r hn)
    fun v msg pc hpc => (broadcasting hrun i).message v msg pc r hpc hr
  have hlate : (s.thread i).pc.early = false := late_of_inRoom hin
  have hpending : s'.pending r n u =
      (s'.thread i).due n (fun v => (s.shared.user v).username) i u := by
    by_cases howes : (s'.thread i).owes u = true
    · have hi' : .room r ∈ (s'.thread i).holds i :=
        ⟨Thread.inRoom_of_owes howes, (hs.step.room_eq (ok hrun i) hin).trans hr⟩
      rw [pending_of_holds hrun' hi']
      exact due_names (username_step hs.step hs.effect hlate)
        (username_step hs.step hs.effect (not_early_of_member hrun hu))
    · rw [Bool.not_eq_true] at howes
      rw [Thread.due_eq_nil howes]
      refine pending_eq_nil hrun' (fun k hk => ?_) n
      by_cases hki : k = i
      · rwa [hki]
      · rw [hs.frame k hki] at hk
        exact absurd ((locks_agree hrun).exclusive hk ⟨hin, hr⟩) hki
  rw [hpending, hdue, pending_of_holds hrun ⟨hin, hr⟩]

private theorem posts_other (hrun : Run Server.Step {} es s) (hs : s.Acts i a s')
    (hu : u ∈ (s.shared.room r).members) (hi : .room r ∉ (s.thread i).holds i) (k : ℕ) :
    posts u [⟨i, k, a⟩] = [] := by
  cases a with
  | queue v b =>
    cases b with
    | push msg =>
      by_cases hv : v = u
      · subst hv
        obtain ⟨q, hq, hmem⟩ := push_holds hrun hs.step
        have hroom := (membership hrun v).pointer q hmem
        obtain rfl : q = r := by simpa [hroom] using (membership hrun v).pointer r hu
        exact absurd hq hi
      · simp [posts, hv]
    | _ => rfl
  | _ => rfl

/-- A thread that takes the lock owes nothing, or the broadcast that it takes it for. -/
private theorem pending_step_taker (hrun : Run Server.Step {} es s) (hrun' : Run Server.Step {} es' s')
    (hs : s.Acts i a s') (hu : u ∈ (s.shared.room r).members)
    (hi : .room r ∉ (s.thread i).holds i) (hi' : .room r ∈ (s'.thread i).holds i) :
    s'.pending r n u = s.pending r n u ++
      expected n (s.shared.user u).username (broadcasts r [⟨i, (s'.thread i).serial, a⟩]) := by
  have hfree : s.pending r n u = [] := by
    refine pending_eq_nil hrun (fun k hk => ?_) n
    have hki : k ≠ i := fun hki => hi (hki ▸ hk)
    rw [← hs.frame k hki] at hk
    exact absurd ((locks_agree hrun').exclusive hk hi') hki
  have hacq : a.acquires = some (.room r) := by
    rcases hs.step.handles with ⟨l, hl, hholds⟩ | ⟨l, -, -, hholds⟩ | ⟨-, -, hholds⟩
    · rw [hholds] at hi'
      rw [hl, hi'.resolve_right hi]
    · rw [hholds] at hi'
      exact absurd hi'.1 hi
    · exact absurd (hholds ▸ hi') hi
  rw [hfree, List.nil_append, pending_of_holds hrun' hi']
  cases a with
  | lock l =>
    refine Thread.due_eq_nil ?_
    obtain rfl : l = .room r := by simpa [Action.acquires] using hacq
    have hstep := hs.step
    generalize s'.thread i = t' at hstep
    cases hstep with
    | inner h => cases h <;> rfl
  | broadcast q sender text =>
    obtain rfl : q = r := by simpa [Action.acquires] using hacq
    obtain ⟨hpc, -, rfl, rfl, ht'⟩ := hs.step.broadcast_of
    have hi : (s'.shared.user i).username = (s.shared.user i).username :=
      username_step hs.step hs.effect (by rw [hpc]; rfl)
    have hname := username_step hs.step hs.effect (not_early_of_member hrun hu)
    by_cases hne : (s.shared.user i).username = (s.shared.user u).username <;>
      simp [Thread.due, Thread.owes, expected, broadcasts, ht', hi, hname, hne]
  | queue v b => cases b <;> simp [Action.acquires] at hacq
  | _ => cases hacq

/-- A step of a thread that neither holds the lock nor takes it. -/
private theorem pending_step_other (hrun : Run Server.Step {} es s) (hrun' : Run Server.Step {} es' s')
    (hs : s.Acts i a s') (hu : u ∈ (s.shared.room r).members)
    (hi : .room r ∉ (s.thread i).holds i) (hi' : .room r ∉ (s'.thread i).holds i) :
    s'.pending r n u = s.pending r n u := by
  have hsame : ∀ k, .room r ∈ (s'.thread k).holds k ↔ .room r ∈ (s.thread k).holds k := fun k => by
    by_cases hki : k = i
    · subst hki
      exact iff_of_false hi' hi
    · rw [hs.frame k hki]
  cases howner : s.shared.owner (.room r) with
  | none =>
    have hnobody : ∀ k, .room r ∉ (s.thread k).holds k := fun k hk => by
      simpa [howner] using (locks_agree hrun (.room r) k).mpr hk
    rw [pending_eq_nil hrun (fun k hk => absurd hk (hnobody k)),
      pending_eq_nil hrun' (fun k hk => absurd ((hsame k).mp hk) (hnobody k))]
  | some k =>
    have hk := (locks_agree hrun (.room r) k).mp howner
    have hki : k ≠ i := fun hki => hi (hki ▸ hk)
    rw [pending_of_holds hrun hk, pending_of_holds hrun' ((hsame k).mpr hk), hs.frame k hki]
    exact due_names (username_step hs.step hs.effect (late_of_inRoom hk.1))
      (username_step hs.step hs.effect (not_early_of_member hrun hu))

/-- What a step enqueues for a member and leaves due is what was due and what it begins. -/
theorem pending_step (hrun : Run Server.Step {} es s) (hs : s.Step e s')
    (hu : u ∈ (s.shared.room r).members) (hn : s.shared.mRooms n = some r) :
    posts u [e] ++ s'.pending r n u =
      s.pending r n u ++ expected n (s.shared.user u).username (broadcasts r [e]) := by
  obtain ⟨i, serial, a⟩ := e
  have hrun' := hrun.snoc hs
  obtain ⟨hacts, rfl⟩ : s.Acts i a s' ∧ serial = (s'.thread i).serial := hs.acts
  by_cases hi : .room r ∈ (s.thread i).holds i
  · have hnone : broadcasts r [⟨i, (s'.thread i).serial, a⟩] = [] := by
      cases a with
      | broadcast q sender text =>
        have hpc := hacts.step.broadcast_of.1
        simp [hpc, Pc.inRoom] at hi
      | _ => rfl
    rw [hnone, pending_step_holder hrun hrun' hacts hu hn hi]
    simp [expected]
  · rw [posts_other hrun hacts hu hi, List.nil_append]
    by_cases hi' : .room r ∈ (s'.thread i).holds i
    · exact pending_step_taker hrun hrun' hacts hu hi hi'
    · have hnone : broadcasts r [⟨i, (s'.thread i).serial, a⟩] = [] := by
        cases a with
        | broadcast q sender text =>
          obtain ⟨-, hq, -, -, ht'⟩ := hacts.step.broadcast_of
          have hne : q ≠ r := fun hqr => hi' ⟨by rw [ht']; rfl, by rw [ht']; exact hqr ▸ hq⟩
          simp [broadcasts, hne]
        | _ => rfl
      rw [hnone, pending_step_other hrun hrun' hacts hu hi hi']
      simp [expected]

/-- Receiver `u` has joined room `r` under the name `n`. -/
structure Joined (s : Server) (u : Sid) (n : Bytes) (r : RoomId) : Prop where
  role : (s.thread u).role = .receiver
  settled : (s.thread u).pc.settled = true
  room : (s.thread u).room = some r
  registered : s.shared.mRooms n = some r

theorem Joined.member (h : Joined s u n r) (hrun : Run Server.Step {} es s) :
    u ∈ (s.shared.room r).members :=
  (membership hrun u).present (.inr (.inr ⟨h.role, h.settled⟩)) r h.room

theorem late_of_settled {pc : Pc} (h : pc.settled = true) : pc.early = false := by
  cases pc <;> first | rfl | cases h

theorem settled_step (hs : s.Step e s') (hrole : (s.thread u).role = .receiver)
    (hpc : (s.thread u).pc.settled = true) :
    (s'.thread u).pc.settled = true ∧ (s'.thread u).room = (s.thread u).room := by
  obtain ⟨hacts, -⟩ := hs.acts
  by_cases hu : u = e.session
  · subst hu
    exact hacts.step.settled hrole hpc
  · rw [hacts.frame u hu]
    exact ⟨hpc, rfl⟩

theorem Joined.step (h : Joined s u n r) (hs : s.Step e s') :
    Joined s' u n r ∧ (s'.shared.user u).username = (s.shared.user u).username := by
  obtain ⟨hacts, -⟩ := hs.acts
  obtain ⟨hsettled, hroom⟩ := settled_step hs h.role h.settled
  have hlate := late_of_settled h.settled
  exact ⟨⟨(early_step hs hlate).2.trans h.role, hsettled, hroom.trans h.room,
    hacts.effect.mRooms_mono h.registered⟩, username_step hacts.step hacts.effect hlate⟩

/-- The log equation from any state in which the receiver has joined. -/
theorem Joined.log (h : Joined s u n r) (hrun : Run Server.Step {} es s)
    (hpost : Run Server.Step s es' s') :
    Joined s' u n r ∧ (s'.shared.user u).username = (s.shared.user u).username ∧
      posts u es' ++ s'.pending r n u =
        s.pending r n u ++ expected n (s.shared.user u).username (broadcasts r es') := by
  refine hpost.invariant (fun es' s' => Joined s' u n r ∧
    (s'.shared.user u).username = (s.shared.user u).username ∧
      posts u es' ++ s'.pending r n u =
        s.pending r n u ++ expected n (s.shared.user u).username (broadcasts r es')) ?_ ?_
  · exact ⟨h, rfl, by simp [posts, broadcasts, expected]⟩
  intro es' s₁ e s₂ hpre ⟨hjoined, hname, hlog⟩ hs
  obtain ⟨hjoined', hname'⟩ := hjoined.step hs
  have hreach := hrun.trans hpre
  have hstep := pending_step hreach hs (hjoined.member hreach) hjoined.registered
  refine ⟨hjoined', hname'.trans hname, ?_⟩
  rw [posts_append, broadcasts_append, expected_append, List.append_assoc, hstep,
    ← List.append_assoc, hlog, hname, List.append_assoc]

/-- Nothing is enqueued for a session's user before the session joins a room. -/
theorem posts_before_join (hrun : Run Server.Step {} es s) (u : Sid)
    (hu : (s.thread u).pc.early = true ∨
      (s.thread u).role = .receiver ∧ (s.thread u).pc.settled = false) : posts u es = [] := by
  refine hrun.invariant (fun es s => ∀ u, ((s.thread u).pc.early = true ∨
    (s.thread u).role = .receiver ∧ (s.thread u).pc.settled = false) → posts u es = []) ?_ ?_ u hu
  · exact fun _ _ => rfl
  intro es s e s' hrun ih hs u hu
  have hu₀ : (s.thread u).pc.early = true ∨
      (s.thread u).role = .receiver ∧ (s.thread u).pc.settled = false := by
    by_cases hearly : (s.thread u).pc.early = true
    · exact .inl hearly
    · rw [Bool.not_eq_true] at hearly
      obtain ⟨hearly', hrole⟩ := early_step hs hearly
      obtain ⟨hreceiver, hunsettled⟩ := hu.resolve_left (by simp [hearly'])
      refine .inr ⟨hrole.symm.trans hreceiver, ?_⟩
      by_contra hsettled
      rw [Bool.not_eq_false] at hsettled
      simp [(settled_step hs (hrole.symm.trans hreceiver) hsettled).1] at hunsettled
  have hmember : ∀ q, u ∉ (s.shared.room q).members := fun q hq => by
    rcases hu₀ with hearly | ⟨hrole, hpc⟩
    · simp [not_early_of_member hrun hq] at hearly
    · rcases (ok hrun u).unsettled hrole hpc with hroom | habsent
      · simp [(membership hrun u).pointer q hq] at hroom
      · exact (membership hrun u).absent habsent q hq
  have hposts : posts u [e] = [] := by
    obtain ⟨i, k, a⟩ := e
    cases a with
    | queue v b =>
      cases b with
      | push msg =>
        by_cases hv : v = u
        · subst hv
          obtain ⟨q, -, hq⟩ := push_holds hrun hs.acts.1.step
          exact absurd hq (hmember q)
        · simp [posts, hv]
      | _ => rfl
    | _ => rfl
  rw [posts_append, ih u hu₀, hposts, List.append_nil]

/-- What a session broadcasts is the data of the message that it is handling. -/
theorem broadcast_received (hrun : Run Server.Step {} es s) {n : ℕ} {sender text : Bytes}
    (h : ⟨i, n, .broadcast r sender text⟩ ∈ es) :
    ∃ m, ⟨i, n, .receive (some m)⟩ ∈ es ∧ text = m.data := by
  obtain ⟨pre, post, rfl⟩ := List.append_of_mem h
  obtain ⟨s₁, s₂, h₁, hs, -⟩ := hrun.splitAt
  obtain ⟨hacts, hserial⟩ : s₁.Acts i (.broadcast r sender text) s₂ ∧ n = (s₂.thread i).serial :=
    hs.acts
  obtain ⟨hpc, -, -, htext, ht⟩ := hacts.step.broadcast_of
  have hmem := handled h₁ i (by rw [hpc]; rfl)
  have hn : (s₁.thread i).serial = n := by rw [hserial, ht]
  rw [hn] at hmem
  exact ⟨_, List.mem_append_left _ hmem, htext⟩

theorem role_run (hrun : Run Server.Step s es s') (hu : (s.thread u).pc.early = false) :
    (s'.thread u).role = (s.thread u).role := by
  refine (hrun.preserved (fun s' => (s'.thread u).pc.early = false ∧
    (s'.thread u).role = (s.thread u).role) ⟨hu, rfl⟩ ?_).2
  rintro s₁ e s₂ ⟨hlate, hrole⟩ hs
  obtain ⟨hlate', hrole'⟩ := early_step hs hlate
  exact ⟨hlate', hrole'.trans hrole⟩

/-- The state in which a receiver has just joined. -/
theorem join_split {pre post : List Event} {k : ℕ}
    (hrun : Run Server.Step {} (pre ++ ⟨u, k, .insert r⟩ :: post) s)
    (hrole : (s.thread u).role = .receiver) :
    ∃ n s₁, Run Server.Step {} (pre ++ [⟨u, k, .insert r⟩]) s₁ ∧ Run Server.Step s₁ post s ∧
      Joined s₁ u n r ∧ posts u pre = [] ∧ s₁.pending r n u = [] ∧
      ⟨u, k, .receive (some ⟨tagJoin, n⟩)⟩ ∈ pre := by
  obtain ⟨s₀, s₁, h₀, hs, hpost⟩ := hrun.splitAt
  obtain ⟨hacts, hserial⟩ : s₀.Acts u (.insert r) s₁ ∧ k = (s₁.thread u).serial := hs.acts
  obtain ⟨hpc, hroom, ht'⟩ := hacts.step.insert_of
  have hrole₀ : (s₀.thread u).role = .receiver := by
    have hlate : (s₀.thread u).pc.early = false := by rw [hpc]; rfl
    exact (role_run (.cons hs hpost) hlate).symm.trans hrole
  have htag : (s₀.thread u).msg.tag = tagJoin := by
    have hok : (s₀.thread u).msg.tag = tagJoin ∧ (s₀.thread u).room ≠ none := by
      simpa [Thread.Ok, hpc] using ok h₀ u
    exact hok.1
  have hreg := ((registered h₀).pointers u).joining _ r hpc hroom
  have hjoined : Joined s₁ u (s₀.thread u).msg.data r :=
    ⟨by rw [ht']; exact hrole₀, by rw [ht']; rfl, by rw [ht']; exact hroom,
      hacts.effect.mRooms_mono hreg⟩
  have h₁ := h₀.snoc hs
  refine ⟨(s₀.thread u).msg.data, s₁, h₁, hpost, hjoined, ?_, ?_, ?_⟩
  · exact posts_before_join h₀ u (.inr ⟨hrole₀, by rw [hpc]; rfl⟩)
  · refine pending_eq_nil h₁ (fun i hi => ?_) _
    have hu : .room r ∈ (s₁.thread u).holds u := ⟨by rw [ht']; rfl, hjoined.room⟩
    rw [(locks_agree h₁).exclusive hi hu, ht']
    rfl
  · have hmem := handled h₀ u (by rw [hpc]; rfl)
    have hk : k = (s₀.thread u).serial := by rw [hserial, ht']
    rw [hk, ← htag]
    exact hmem

/-- No session is inside the guard of a broadcast in room `r`. -/
def BroadcastFree (s : Server) (r : RoomId) : Prop :=
  ∀ i pc, (s.thread i).pc = .broadcast pc → (s.thread i).room = some r → pc = .acquire

theorem pending_of_free (hrun : Run Server.Step {} es s) (hfree : s.BroadcastFree r) :
    s.pending r n u = [] := by
  refine pending_eq_nil hrun (fun i hi => ?_) n
  by_contra howes
  cases hpc : (s.thread i).pc with
  | broadcast pc =>
    obtain rfl := hfree i pc hpc hi.2
    simp [Thread.owes, hpc] at howes
  | _ => simp [Thread.owes, hpc] at howes

private theorem posts_eq_expected {pre post : List Event} {k : ℕ}
    (hrun : Run Server.Step {} (pre ++ ⟨u, k, .insert r⟩ :: post) s)
    (hrole : (s.thread u).role = .receiver) (hfree : s.BroadcastFree r) :
    ∃ n, s.shared.mRooms n = some r ∧ ⟨u, k, .receive (some ⟨tagJoin, n⟩)⟩ ∈ pre ∧
      posts u (pre ++ ⟨u, k, .insert r⟩ :: post) =
        expected n (s.shared.user u).username (broadcasts r post) := by
  obtain ⟨n, s₁, h₁, hpost, hjoined, hbefore, hnone, hjoin⟩ := join_split hrun hrole
  obtain ⟨hjoined', hname, hlog⟩ := hjoined.log h₁ hpost
  refine ⟨n, hjoined'.registered, hjoin, ?_⟩
  rw [hnone, pending_of_free hrun hfree, List.append_nil, List.nil_append] at hlog
  rw [← List.singleton_append, posts_append, posts_append, hbefore, hlog, hname]
  rfl

/-- What is expected of broadcasts that are all by others. -/
private theorem expected_of_others {username : Bytes} {bs : List Broadcast}
    (h : ∀ b ∈ bs, b.sender ≠ username) (roomName : Bytes) :
    expected roomName username bs =
      bs.map fun b => ⟨b.session, b.serial, delivery roomName b.sender b.text⟩ := by
  have hall : bs.filter (·.sender ≠ username) = bs :=
    List.filter_eq_self.mpr fun b hb => decide_eq_true (h b hb)
  rw [expected, hall]

/-- While no broadcast is in progress in a room, what was ever enqueued for a receiver that
joined it is what was broadcast there since, by others; and of two receivers with names of
their own the later one has a suffix of what the earlier one has. -/
theorem posts_eq_broadcasts {pre post : List Event} {k : ℕ}
    (hrun : Run Server.Step {} (pre ++ ⟨u, k, .insert r⟩ :: post) s)
    (hrole : (s.thread u).role = .receiver) (hfree : s.BroadcastFree r) :
    ∃ n, (∀ m, s.shared.mRooms m = some r ↔ m = n) ∧
      ⟨u, k, .receive (some ⟨tagJoin, n⟩)⟩ ∈ pre ∧
      posts u (pre ++ ⟨u, k, .insert r⟩ :: post) =
        expected n (s.shared.user u).username (broadcasts r post) ∧
      ∀ v j pre' post', pre = pre' ++ ⟨v, j, .insert r⟩ :: post' →
        (s.thread v).role = .receiver →
        (∀ b ∈ broadcasts r (pre ++ post), b.sender ≠ (s.shared.user u).username ∧
          b.sender ≠ (s.shared.user v).username) →
        posts u (pre ++ ⟨u, k, .insert r⟩ :: post) <:+
          posts v (pre ++ ⟨u, k, .insert r⟩ :: post) := by
  obtain ⟨n, hn, hjoin, hposts⟩ := posts_eq_expected hrun hrole hfree
  have hinj := (registered hrun).registry.injective
  refine ⟨n, fun m => ⟨fun hm => hinj m n r hm hn, fun hm => hm ▸ hn⟩, hjoin, hposts, ?_⟩
  rintro v j pre' post' rfl hrole' hothers
  rw [List.append_assoc, List.cons_append] at hrun hothers hposts ⊢
  obtain ⟨m, hm, -, hposts'⟩ := posts_eq_expected hrun hrole' hfree
  obtain rfl := hinj m n r hm hn
  have hskip : ∀ v j l, broadcasts r (⟨v, j, .insert r⟩ :: l) = broadcasts r l := fun _ _ _ => rfl
  have hlater : ∀ b ∈ broadcasts r post, b ∈ broadcasts r (pre' ++ ⟨v, j, .insert r⟩ :: (post' ++ post)) :=
    fun b hb => by simp [hskip, hb]
  have hboth : ∀ b ∈ broadcasts r (post' ++ ⟨u, k, .insert r⟩ :: post),
      b ∈ broadcasts r (pre' ++ ⟨v, j, .insert r⟩ :: (post' ++ post)) := fun b hb => by
    rw [broadcasts_append, hskip] at hb
    rw [broadcasts_append, hskip, broadcasts_append]
    exact List.mem_append_right _ hb
  rw [hposts, hposts', expected_of_others fun b hb => (hothers b (hlater b hb)).1,
    expected_of_others fun b hb => (hothers b (hboth b hb)).2, broadcasts_append, hskip,
    List.map_append]
  exact List.suffix_append _ _

theorem broadcastFree_of_unlocked (hrun : Run Server.Step {} es s)
    (hfree : s.shared.owner (.room r) = none) : s.BroadcastFree r := by
  intro i pc hpc hr
  by_contra hne
  have hi : .room r ∈ (s.thread i).holds i := by
    refine ⟨?_, hr⟩
    rw [hpc]
    cases pc <;> first | rfl | exact absurd rfl hne
  simp [(locks_agree hrun (.room r) i).mpr hi] at hfree

private def lobby : List Sched :=
  .client 0 "rlogin:bob\njoin:lobby\n" :: Sched.steps 0 11 ++
    .client 1 "slogin:alice\njoin:lobby\nsendall:hi\n" :: Sched.steps 1 24

theorem posts_eq_broadcasts_lobby : ∃ pre post s n,
    Run Server.Step {} (pre ++ ⟨0, 1, .insert 0⟩ :: post) s ∧
    posts 0 (pre ++ ⟨0, 1, .insert 0⟩ :: post) =
      expected n (s.shared.user 0).username (broadcasts 0 post) ∧
    posts 0 (pre ++ ⟨0, 1, .insert 0⟩ :: post) = [⟨1, 2, ⟨tagDelivery, str "lobby:alice:hi"⟩⟩] := by
  obtain ⟨⟨es, s⟩, h⟩ := Option.isSome_iff_exists.mp (show (outcome lobby).isSome = true by decide)
  have hjoin : (outcome lobby).bind (fun p => p.1[9]?) = some ⟨0, 1, .insert 0⟩ := rfl
  have hrole : (outcome lobby).map (fun p => (p.2.thread 0).role) = some .receiver := by decide
  have hfree : (outcome lobby).map (fun p => p.2.shared.owner (.room 0)) = some none := by decide
  have hposts : (outcome lobby).map (fun p => posts 0 p.1) =
      some [⟨1, 2, ⟨tagDelivery, str "lobby:alice:hi"⟩⟩] := by decide
  rw [h] at hjoin hrole hfree hposts
  have hcut := Run.cut (show es[9]? = some ⟨0, 1, .insert 0⟩ from hjoin)
  have hrun := run_of_outcome h
  have hunlocked := broadcastFree_of_unlocked hrun (Option.some.inj hfree)
  rw [hcut] at hrun
  obtain ⟨n, -, -, heq, -⟩ := posts_eq_broadcasts hrun (Option.some.inj hrole) hunlocked
  refine ⟨es.take 9, es.drop 10, s, n, hrun, heq, ?_⟩
  rw [← hcut]
  exact Option.some.inj hposts

end Server
end Chat
