import Chat.Isolation
import Chat.Registry

/-! What one call of `broadcast_message` changes: the queues of the members with another name, and,
where it enqueues anything, the room's own name. -/
namespace Chat
open Transition Traversal

/-- The queue after a whole call of `enqueue(msg)`. -/
def MessageQueue.enqueued {τ α : Type*} (q : MessageQueue τ α) (msg : α) : MessageQueue τ α :=
  { q with
    mMessages := q.mMessages ++ [msg]
    mAvail := if q.mAvail < semValueMax then q.mAvail + 1 else q.mAvail }

namespace BroadcastCall

/-- The users among `us` that the call enqueues for. -/
def others (c : BroadcastCall) (us : Finset Sid) (σ : Shared) : Finset Sid :=
  us.filter fun u => (σ.user u).username ≠ c.sender

/-- What a call does that holds its room's lock and has the members `us` before it. -/
def delivered (c : BroadcastCall) (us : Finset Sid) (σ : Shared) : Shared :=
  { σ with
    user := fun u =>
      if u ∈ c.others us σ then { σ.user u with
        mqueue := (σ.user u).mqueue.enqueued (delivery (σ.room c.room).roomName c.sender c.text) }
      else σ.user u
    room := Function.update σ.room c.room { σ.room c.room with
      lock := none
      roomName := if (c.others us σ).Nonempty then removeNewline (σ.room c.room).roomName
        else (σ.room c.room).roomName } }

variable {c : BroadcastCall} {σ σ' : Shared}

theorem Runs.first_step {pc : BroadcastPc} (h : c.Runs σ (some pc) σ') :
    ∃ σ₁ pc', c.step σ pc = some (σ₁, pc') ∧ c.Runs σ₁ pc' σ' := by
  cases h with
  | step hstep hrest => exact ⟨_, _, hstep, hrest⟩

theorem Runs.returned (h : c.Runs σ none σ') : σ' = σ := by
  cases h
  rfl

private theorem setUser_user (σ : Shared) (u : Sid) (user : User) : (σ.setUser u user).user u = user :=
  Function.update_self ..

private theorem setUser_setUser (σ : Shared) (u : Sid) (user user' : User) :
    (σ.setUser u user).setUser u user' = σ.setUser u user' := by
  simp [Shared.setUser]

private theorem Runs.queue_step {u : Sid} {msg : Message} {pc : EnqueuePc}
    (h : c.Runs σ (some (.enqueue u msg pc)) σ') :
    ∃ q, (σ.user u).mqueue.apply c.actor (pc.next msg).1 = some q ∧
      c.Runs (σ.setUser u { σ.user u with mqueue := q }) (some (match (pc.next msg).2 with
        | some pc => .enqueue u msg pc
        | none => .loop (after (σ.room c.room).members u))) σ' := by
  obtain ⟨σ₁, pc', hstep, hrest⟩ := h.first_step
  have hnext : c.next σ (.enqueue u msg pc) = (.queue u (pc.next msg).1, some (match (pc.next msg).2 with
      | some pc => .enqueue u msg pc
      | none => .loop (after (σ.room c.room).members u))) := by cases pc <;> rfl
  rw [BroadcastCall.step, hnext] at hstep
  cases hq : (σ.user u).mqueue.apply c.actor (pc.next msg).1 with
  | none => simp [Shared.apply, hq] at hstep
  | some q =>
    obtain ⟨rfl, rfl⟩ : σ.setUser u { σ.user u with mqueue := q } = σ₁ ∧ _ = pc' := by
      simpa [Shared.apply, hq] using hstep
    exact ⟨q, rfl, hrest⟩

/-- A call of `enqueue` that returns has appended its message, and found the queue free. -/
theorem Runs.enqueue {u : Sid} {msg : Message} (h : c.Runs σ (some (.enqueue u msg .lock)) σ') :
    (σ.user u).mqueue.mLock = none ∧
      c.Runs (σ.setUser u { σ.user u with mqueue := (σ.user u).mqueue.enqueued msg })
        (some (.loop (after (σ.room c.room).members u))) σ' := by
  obtain ⟨q₁, h₁, hrest⟩ := h.queue_step
  obtain ⟨hfree, rfl⟩ : (σ.user u).mqueue.mLock = none ∧
      { (σ.user u).mqueue with mLock := some c.actor } = q₁ := by
    simpa [EnqueuePc.next, MessageQueue.apply] using h₁
  obtain ⟨q₂, h₂, hrest⟩ := hrest.queue_step
  rw [setUser_user, setUser_setUser] at hrest
  rw [setUser_user] at h₂
  obtain rfl := Option.some.inj h₂
  obtain ⟨q₃, h₃, hrest⟩ := hrest.queue_step
  rw [setUser_user, setUser_setUser] at hrest
  rw [setUser_user] at h₃
  obtain rfl := Option.some.inj h₃
  obtain ⟨q₄, h₄, hrest⟩ := hrest.queue_step
  rw [setUser_user, setUser_setUser] at hrest
  rw [setUser_user] at h₄
  obtain rfl := Option.some.inj h₄
  refine ⟨hfree, ?_⟩
  have hqueue : (σ.user u).mqueue.enqueued msg = { (σ.user u).mqueue.enqueued msg with mLock := none } := by
    rw [← hfree]
    rfl
  rw [hqueue]
  exact hrest

/-- A member with the sender's name changes nothing for the rest of the call. -/
private theorem delivered_same {us : Finset Sid} {u : Sid} (hname : (σ.user u).username = c.sender) :
    c.delivered (insert u us) σ = c.delivered us σ := by
  have hothers : c.others (insert u us) σ = c.others us σ := by
    rw [others, Finset.filter_insert, if_neg (not_not_intro hname), others]
  rw [delivered, delivered, hothers]

/-- The state after the message `msg` for the member `u` is enqueued, with the room renamed. -/
def sent (c : BroadcastCall) (σ : Shared) (u : Sid) (msg : Message) : Shared :=
  (σ.setRoom c.room { σ.room c.room with roomName := removeNewline (σ.room c.room).roomName }).setUser u
    { σ.user u with mqueue := (σ.user u).mqueue.enqueued msg }

/-- A member with another name gets its message, and the room its stripped name. -/
private theorem delivered_other {us : Finset Sid} {u : Sid} (hu : u ∉ us)
    (hname : (σ.user u).username ≠ c.sender) :
    c.delivered us (c.sent σ u (delivery (σ.room c.room).roomName c.sender c.text)) =
      c.delivered (insert u us) σ := by
  obtain ⟨msg, hmsg⟩ : ∃ msg, delivery (σ.room c.room).roomName c.sender c.text = msg := ⟨_, rfl⟩
  rw [hmsg]
  have hroom : (c.sent σ u msg).room c.room =
      { σ.room c.room with roomName := removeNewline (σ.room c.room).roomName } := by
    simp [sent, Shared.setUser, Shared.setRoom]
  have huser : ∀ v, (c.sent σ u msg).user v = if v = u then
      { σ.user u with mqueue := (σ.user u).mqueue.enqueued msg } else σ.user v := by
    intro v
    by_cases hv : v = u <;> simp [sent, Shared.setUser, Shared.setRoom, hv]
  have hothers : c.others us (c.sent σ u msg) = c.others us σ := by
    refine Finset.filter_congr fun v hv => ?_
    have hvu : v ≠ u := fun h => hu (h ▸ hv)
    rw [huser v, if_neg hvu]
  have hinsert : c.others (insert u us) σ = insert u (c.others us σ) := by
    rw [others, Finset.filter_insert, if_pos hname, others]
  have hmsg' : delivery (removeNewline (σ.room c.room).roomName) c.sender c.text = msg := by
    simp [← hmsg, delivery]
  have hout : u ∉ c.others us σ := fun h => hu (Finset.mem_filter.mp h).1
  simp only [delivered, hothers, hinsert, hroom, hmsg, hmsg', removeNewline_removeNewline, ite_self,
    Finset.insert_nonempty, if_true]
  congr 1
  · simp [sent, Shared.setUser, Shared.setRoom]
  · funext v
    rw [huser v]
    by_cases hv : v = u
    · subst hv
      simp [hout]
    · simp [hv]

/-- The rest of a call, from its iterator on. -/
theorem Runs.loop {us : Finset Sid} {it : Option Sid} (hit : ∀ u, it = some u → u ∈ us) :
    ∀ σ, (σ.room c.room).members = us → c.Runs σ (some (.loop it)) σ' →
      σ' = c.delivered (us.filter fun u => ¬ Passed u it) σ := by
  refine @traverse _ _ us (fun it => ∀ σ, (σ.room c.room).members = us →
    c.Runs σ (some (.loop it)) σ' → σ' = c.delivered (us.filter fun u => ¬ Passed u it) σ) ?_ ?_ _ hit
  · intro σ _ h
    obtain ⟨σ₁, pc, hstep, hrest⟩ := h.first_step
    obtain ⟨rfl, rfl⟩ : σ.setOwner (.room c.room) none = σ₁ ∧ none = pc := by
      simpa [BroadcastCall.step, next, Shared.apply] using hstep
    rw [hrest.returned]
    simp [delivered, others, Shared.setOwner, Shared.setRoom]
  · intro u hu ih σ hmembers h
    -- the members that are left are this one and those after it
    have hleft : us.filter (fun v => ¬ Passed v (some u)) =
        insert u (us.filter fun v => ¬ Passed v (after us u)) := by
      ext v
      by_cases hv : v ∈ us
      · simp only [Finset.mem_filter, Finset.mem_insert, passed_some, passed_after_iff hv, hv, true_and]
        rw [not_lt, not_le, le_iff_eq_or_lt, eq_comm]
      · have hvu : v ≠ u := fun h => hv (h ▸ hu)
        simp [hv, hvu]
    rw [hleft]
    obtain ⟨σ₁, pc, hstep, hrest⟩ := h.first_step
    by_cases hname : (σ.user u).username = c.sender
    · obtain ⟨rfl, rfl⟩ : σ = σ₁ ∧ some (.loop (after us u)) = pc := by
        simpa [BroadcastCall.step, next, hname, Shared.apply, hmembers] using hstep
      rw [delivered_same hname]
      exact ih σ hmembers hrest
    · obtain ⟨rfl, rfl⟩ : σ.setRoom c.room
          { σ.room c.room with roomName := removeNewline (σ.room c.room).roomName } = σ₁ ∧
          some (.enqueue u (delivery (σ.room c.room).roomName c.sender c.text) .lock) = pc := by
        simpa [BroadcastCall.step, next, hname, Shared.apply] using hstep
      obtain ⟨-, hafter⟩ := hrest.enqueue
      have hmembers₁ : ((σ.setRoom c.room
          { σ.room c.room with roomName := removeNewline (σ.room c.room).roomName }).room c.room).members =
          us := by simpa [Shared.setRoom] using hmembers
      rw [hmembers₁] at hafter
      rw [← delivered_other (by simp [passed_after_iff hu]) hname]
      exact ih _ (by simpa [sent, Shared.setUser] using hmembers₁) hafter

/-- A call that returns has delivered to all members, and found its room free. -/
theorem Runs.call (h : c.Runs σ (some .acquire) σ') :
    (σ.room c.room).lock = none ∧ σ' = c.delivered (σ.room c.room).members σ := by
  obtain ⟨σ₁, pc₁, h₁, hrest⟩ := h.first_step
  obtain ⟨hfree, rfl, rfl⟩ : (σ.room c.room).lock = none ∧
      σ.setOwner (.room c.room) (some c.actor) = σ₁ ∧ some .start = pc₁ := by
    simpa [BroadcastCall.step, next, Shared.apply, and_assoc] using h₁
  obtain ⟨σ₂, pc₂, h₂, hrest⟩ := hrest.first_step
  obtain ⟨rfl, rfl⟩ : σ.setOwner (.room c.room) (some c.actor) = σ₂ ∧
      some (.loop (first (σ.room c.room).members)) = pc₂ := by
    simpa [BroadcastCall.step, next, Shared.apply] using h₂
  refine ⟨hfree, ?_⟩
  have hall : (σ.room c.room).members.filter (fun u => ¬ Passed u (first (σ.room c.room).members)) =
      (σ.room c.room).members := Finset.filter_true_of_mem fun u hu => not_passed_first hu
  rw [hrest.loop (fun u => mem_of_first) _ (by simp), hall]
  have hothers : c.others (σ.room c.room).members (σ.setOwner (.room c.room) (some c.actor)) =
      c.others (σ.room c.room).members σ := rfl
  simp only [delivered, hothers]
  simp [Shared.setOwner, Shared.setRoom]

/-- The call changes nothing but the queues of the members with another name than the sender's, which
get one message each at their end. -/
structure Framed (c : BroadcastCall) (σ σ' : Shared) : Prop where
  registry : σ'.mRooms = σ.mRooms ∧ σ'.nRooms = σ.nRooms ∧ σ'.mLock = σ.mLock
  room : ∀ q, σ'.room q = σ.room q
  queue : ∀ u, u ∈ (σ.room c.room).members → (σ.user u).username ≠ c.sender →
    σ'.user u = { σ.user u with
      mqueue := (σ.user u).mqueue.enqueued (delivery (σ.room c.room).roomName c.sender c.text) }
  user : ∀ u, ¬ (u ∈ (σ.room c.room).members ∧ (σ.user u).username ≠ c.sender) → σ'.user u = σ.user u

/-- What a call may change beyond its purpose is the room's own name. -/
theorem frame_iff (h : c.Runs σ (some .acquire) σ') : c.Framed σ σ' ↔
    removeNewline (σ.room c.room).roomName = (σ.room c.room).roomName ∨
      ∀ u ∈ (σ.room c.room).members, (σ.user u).username = c.sender := by
  obtain ⟨hfree, rfl⟩ := h.call
  have hothers : ∀ u, u ∈ c.others (σ.room c.room).members σ ↔
      u ∈ (σ.room c.room).members ∧ (σ.user u).username ≠ c.sender := fun u => Finset.mem_filter
  have hempty : ¬ (c.others (σ.room c.room).members σ).Nonempty ↔
      ∀ u ∈ (σ.room c.room).members, (σ.user u).username = c.sender := by
    simp only [Finset.not_nonempty_iff_eq_empty, Finset.eq_empty_iff_forall_notMem, hothers, not_and,
      not_not]
  have hname : (∀ q, (c.delivered (σ.room c.room).members σ).room q = σ.room q) ↔
      removeNewline (σ.room c.room).roomName = (σ.room c.room).roomName ∨
        ∀ u ∈ (σ.room c.room).members, (σ.user u).username = c.sender := by
    rw [← hempty]
    constructor
    · intro hroom
      have hname := congrArg Room.roomName (hroom c.room)
      by_cases hsome : (c.others (σ.room c.room).members σ).Nonempty
      · exact .inl (by simpa [delivered, hsome] using hname)
      · exact .inr hsome
    · intro hkeep q
      by_cases hq : q = c.room
      · subst hq
        have hroomName : (if (c.others (σ.room c.room).members σ).Nonempty then
            removeNewline (σ.room c.room).roomName else (σ.room c.room).roomName) =
            (σ.room c.room).roomName := by
          split
          · next hsome => exact hkeep.resolve_right fun h => h hsome
          · rfl
        simp [delivered, hroomName, ← hfree]
      · simp [delivered, hq]
  rw [← hname]
  refine ⟨fun h => h.room, fun hroom => ⟨⟨rfl, rfl, rfl⟩, hroom, fun u hu hne => ?_, fun u hu => ?_⟩⟩
  · exact if_pos ((hothers u).mpr ⟨hu, hne⟩)
  · exact if_neg fun h => hu ((hothers u).mp h)

end BroadcastCall

/-- A room's name is changed by a broadcast that enqueues something, and set when it is made. -/
theorem Shared.Effect.roomName_cases {σ σ' : Shared} {i : Sid} {a : Action} (h : Effect σ i a σ')
    (r : RoomId) :
    (∃ u msg, a = .visit r u (some msg)) ∧
        (σ'.room r).roomName = removeNewline (σ.room r).roomName ∨
      (∀ u msg, a ≠ .visit r u (some msg)) ∧ ((σ'.room r).roomName = (σ.room r).roomName ∨
        ∃ n, a = .findOrCreateRoom n r ∧ σ.mRooms n = none ∧ (σ'.room r).roomName = n) := by
  cases h with
  | keep hq => exact .inr ⟨fun u msg heq => by simp [heq, Action.quiet] at hq, .inl rfl⟩
  | acquire hl => exact .inr ⟨fun u msg heq => by simp [heq, Action.acquires] at hl, .inl (by simp)⟩
  | release hl => exact .inr ⟨fun u msg heq => by simp [heq, Action.releases] at hl, .inl (by simp)⟩
  | create q hname =>
    refine .inr ⟨fun _ _ => Action.noConfusion, ?_⟩
    by_cases hq : r = q
    · subst hq
      exact .inr ⟨_, rfl, hname, by simp [setRoom]⟩
    · exact .inl (by simp [setRoom, hq])
  | insert q => exact .inr ⟨fun _ _ => Action.noConfusion, .inl (by by_cases hq : r = q <;> simp [setRoom, hq])⟩
  | erase q => exact .inr ⟨fun _ _ => Action.noConfusion, .inl (by by_cases hq : r = q <;> simp [setRoom, hq])⟩
  | rename q u msg =>
    by_cases hq : r = q
    · subst hq
      exact .inl ⟨⟨u, msg, rfl⟩, by simp [setRoom]⟩
    · refine .inr ⟨fun _ _ heq => hq ?_, .inl (by simp [setRoom, hq])⟩
      obtain ⟨hqr, -, -⟩ : q = r ∧ _ := by simpa using heq
      exact hqr.symm
  | count _ ha => exact .inr ⟨fun _ _ => Action.noConfusion, .inl rfl⟩
  | newUser | find | push | pop => exact .inr ⟨fun _ _ => Action.noConfusion, .inl rfl⟩

/-- A broadcast in room `r` has enqueued something. -/
def Renamed (r : RoomId) (es : List Event) : Prop :=
  ∃ i k u msg, ⟨i, k, .visit r u (some msg)⟩ ∈ es

theorem renamed_snoc {r : RoomId} {es : List Event} {e : Event} :
    Renamed r (es ++ [e]) ↔ Renamed r es ∨ ∃ u msg, e.action = .visit r u (some msg) := by
  simp only [Renamed, List.mem_append, List.mem_singleton, exists_or]
  refine or_congr Iff.rfl ⟨?_, ?_⟩
  · rintro ⟨i, k, u, msg, rfl⟩
    exact ⟨u, msg, rfl⟩
  · rintro ⟨u, msg, hact⟩
    exact ⟨e.session, e.serial, u, msg, by rw [← hact]⟩

namespace Server

variable {es : List Event} {s : Server}

/-- Only rooms that exist are renamed. -/
theorem renamed_bound {r : RoomId} (hrun : Run Server.Step {} es s) (hr : Renamed r es) :
    r < s.shared.nRooms := by
  refine hrun.invariant (fun es s => Renamed r es → r < s.shared.nRooms) (by simp [Renamed]) ?_ hr
  intro es s e s' hrun ih hs hr
  have hacts := hs.acts
  obtain ⟨haway, hgrow⟩ := growth (registered hrun).registry ((registered hrun).pointers e.session)
    hacts.1.step hacts.1.effect
  have hmono : s.shared.nRooms ≤ s'.shared.nRooms := by
    rcases hgrow with ⟨-, hsame, -⟩ | ⟨_, -, -, hmore, -⟩
    · rw [hsame]
    · omega
  rcases renamed_snoc.mp hr with hr | ⟨u, msg, hact⟩
  · exact lt_of_lt_of_le (ih hr) hmono
  · by_contra hge
    exact haway r (hmono.trans (not_lt.mp hge)) (by rw [hact]; rfl)

/-- A room has the name that it is registered under until it is renamed, and then that name stripped. -/
theorem roomName_eq (hrun : Run Server.Step {} es s) {n : Bytes} {r : RoomId}
    (hn : s.shared.mRooms n = some r) :
    (Renamed r es → (s.shared.room r).roomName = removeNewline n) ∧
      (¬ Renamed r es → (s.shared.room r).roomName = n) := by
  refine hrun.invariant (fun es s => s.shared.mRooms n = some r →
    (Renamed r es → (s.shared.room r).roomName = removeNewline n) ∧
      (¬ Renamed r es → (s.shared.room r).roomName = n)) (fun h => by cases h) ?_ hn
  intro es s e s' hrun ih hs hn
  have hacts := hs.acts
  have hreg := (registered hrun).registry
  obtain ⟨-, hgrow⟩ := growth hreg ((registered hrun).pointers e.session) hacts.1.step hacts.1.effect
  rw [renamed_snoc]
  rcases hacts.1.effect.roomName_cases r with ⟨hvisit, hname⟩ | ⟨hvisit, hname⟩
  · have hn : s.shared.mRooms n = some r := by
      rcases Shared.Registry.step_name hgrow hn with hold | ⟨-, ha, -⟩
      · exact hold
      · obtain ⟨u, msg, ha'⟩ := hvisit
        cases ha.symm.trans ha'
    refine ⟨fun _ => ?_, fun h => absurd (.inr hvisit) h⟩
    rw [hname]
    by_cases hr : Renamed r es
    · rw [(ih hn).1 hr, removeNewline_removeNewline]
    · rw [(ih hn).2 hr]
  · have hsame : (Renamed r es ∨ ∃ u msg, e.action = .visit r u (some msg)) ↔ Renamed r es :=
      or_iff_left fun ⟨u, msg, ha⟩ => hvisit u msg ha
    rw [hsame]
    rcases Shared.Registry.step_name hgrow hn with hold | ⟨rfl, -, hnew⟩
    · rcases hname with hname | ⟨m, ha, hnone, -⟩
      · rw [hname]
        exact ih hold
      · obtain ⟨-, -, hr⟩ := (ha ▸ hacts.1.step).find_of
        rw [hnone, Option.getD_none] at hr
        exact absurd (hreg.bound n r hold) (hr ▸ lt_irrefl _)
    · exact ⟨fun hr => absurd (renamed_bound hrun hr) (lt_irrefl _), fun _ => hnew⟩

variable {n : Bytes} {c : BroadcastCall} {σ' : Shared}

/-- A call leaves everything but the queues alone, on a room that has its registered name, just if that
name has no newline or no call, this one included, enqueues anything. -/
theorem broadcast_framed_iff (hrun : Run Server.Step {} es s) (hn : s.shared.mRooms n = some c.room)
    (hcall : c.Runs s.shared (some .acquire) σ') :
    (s.shared.room c.room).roomName = n ∧ c.Framed s.shared σ' ↔
      newline ∉ n ∨ ¬ Renamed c.room es ∧
        ∀ u ∈ (s.shared.room c.room).members, (s.shared.user u).username = c.sender := by
  have hstrip : removeNewline n = n ↔ newline ∉ n :=
    ⟨fun h => h ▸ newline_notMem_removeNewline n, removeNewline_eq_self⟩
  obtain ⟨hrenamed, hkept⟩ := roomName_eq hrun hn
  rw [BroadcastCall.frame_iff hcall]
  by_cases hr : Renamed c.room es
  · rw [hrenamed hr, hstrip, removeNewline_removeNewline]
    simp [hr]
  · rw [hkept hr, hstrip]
    simp [hr]

/-- A receiver has joined a room. -/
private def listener : List Sched := .client 0 "rlogin:bob\njoin:lobby\n" :: Sched.steps 0 11

private theorem listening : ∃ es s, Run Server.Step {} es s ∧
    s.shared.mRooms (str "lobby\n") = some 0 ∧ (s.shared.room 0).roomName = str "lobby\n" ∧
    (s.shared.room 0).members = {0} ∧ (s.shared.user 0).username ≠ str "amy" ∧
    BroadcastCall.Free ⟨1, 0, str "amy", str "hi"⟩ s.shared := by
  obtain ⟨⟨es, s⟩, h⟩ := Option.isSome_iff_exists.mp (show (outcome listener).isSome = true by decide)
  have hroom : (outcome listener).map (fun p => ((p.2.shared.room 0).roomName,
      (p.2.shared.room 0).lock, (p.2.shared.room 0).members)) = some (str "lobby\n", none, {0}) := by
    decide
  have hregistered : (outcome listener).map (fun p => p.2.shared.mRooms (str "lobby\n")) =
      some (some 0) := by decide
  have huser : (outcome listener).map (fun p =>
      decide ((p.2.shared.user 0).username ≠ str "amy") && (p.2.shared.user 0).mqueue.mLock.isNone) =
      some true := by decide
  rw [h] at hroom hregistered huser
  obtain ⟨hname, hlock, hmembers⟩ : (s.shared.room 0).roomName = str "lobby\n" ∧
      (s.shared.room 0).lock = none ∧ (s.shared.room 0).members = {0} := by simpa using hroom
  obtain ⟨hother, hfree⟩ : (s.shared.user 0).username ≠ str "amy" ∧
      (s.shared.user 0).mqueue.mLock = none := by simpa using huser
  refine ⟨es, s, run_of_outcome h, Option.some.inj hregistered, hname, hmembers, hother,
    ⟨hlock, fun u hu => ?_⟩⟩
  obtain rfl : u = 0 := by simpa [hmembers] using hu
  exact hfree

/-- The first broadcast in a room renames it. -/
theorem renamed_by_broadcast : ∃ es s σ', Run Server.Step {} es s ∧
    s.shared.mRooms (str "lobby\n") = some 0 ∧
    BroadcastCall.Runs ⟨1, 0, str "amy", str "hi"⟩ s.shared (some .acquire) σ' ∧
    (s.shared.room 0).roomName = str "lobby\n" ∧ (σ'.room 0).roomName = str "lobby" ∧
    ¬ BroadcastCall.Framed ⟨1, 0, str "amy", str "hi"⟩ s.shared σ' := by
  obtain ⟨es, s, hrun, hn, hname, hmembers, hother, hfree⟩ := listening
  obtain ⟨σ', hcall⟩ := hfree.runs
  have hrenamed : (σ'.room 0).roomName = str "lobby" := by
    obtain ⟨-, rfl⟩ := hcall.call
    have hstrip : removeNewline (str "lobby\n") = str "lobby" := by decide
    simp [BroadcastCall.delivered, BroadcastCall.others, hmembers, hother, hname, hstrip,
      Finset.filter_singleton]
  refine ⟨es, s, σ', hrun, hn, hcall, hname, hrenamed, fun hframed => ?_⟩
  rw [hframed.room 0, hname] at hrenamed
  revert hrenamed
  decide

theorem broadcast_framed_iff_listener : ∃ es s σ', Run Server.Step {} es s ∧
    (¬ ((s.shared.room 0).roomName = str "lobby\n" ∧
        BroadcastCall.Framed ⟨1, 0, str "amy", str "hi"⟩ s.shared σ')) ∧
    newline ∈ str "lobby\n" := by
  obtain ⟨es, s, hrun, hn, -, hmembers, hother, hfree⟩ := listening
  obtain ⟨σ', hcall⟩ := hfree.runs
  have hnewline : newline ∈ str "lobby\n" := by decide
  refine ⟨es, s, σ', hrun, fun hframed => ?_, hnewline⟩
  rcases (broadcast_framed_iff hrun hn hcall).mp hframed with hno | ⟨-, hall⟩
  · exact hno hnewline
  · exact hother (hall 0 (by simp [hmembers]))

end Server
end Chat
