import Chat.Delivery

/-! Where the messages in a user's queue come from, and where they go. -/
namespace Chat
open Transition

/-- What session `u` has popped from its queue. -/
def taken (u : Sid) (es : List Event) : List Message :=
  es.filterMap fun e => match e.action with
    | .queue v (.pop msg) => if v = u then some msg else none
    | _ => none

/-- What session `u` has passed to `send` for its client, and whether `send` returned true. -/
def deliveries (u : Sid) (es : List Event) : List (Message × Bool) :=
  es.filterMap fun e => match e.action with
    | .deliver msg sent => if e.session = u then some (msg, sent) else none
    | _ => none

@[simp] theorem taken_append (u : Sid) (es es' : List Event) :
    taken u (es ++ es') = taken u es ++ taken u es' :=
  List.filterMap_append

@[simp] theorem deliveries_append (u : Sid) (es es' : List Event) :
    deliveries u (es ++ es') = deliveries u es ++ deliveries u es' :=
  List.filterMap_append

/-- A message that the thread has popped and not yet passed to `send`. -/
def Pc.inHand : Pc → List Message
  | .dequeue (.ret (some msg)) | .deliver msg => [msg]
  | _ => []

namespace Thread

variable {i : Sid} {σ : Shared} {t t' : Thread} {a : Action}

/-- A session comes to be inside a broadcast by beginning it. -/
theorem Step.begun_of (h : Step i σ t a t') {pc : BroadcastPc} (hpc' : t'.pc = .broadcast pc)
    (hne : pc ≠ .acquire) :
    (∃ r, a = .broadcast r (σ.user i).username t.msg.data ∧ t'.msg = t.msg ∧ t'.room = some r) ∨
      (∃ pc, t.pc = .broadcast pc ∧ pc ≠ .acquire) ∧ t'.room = t.room ∧ t'.msg = t.msg ∧
        t'.serial = t.serial := by
  rcases h.shape with hidle | ⟨-, hearly⟩ | hinner | ⟨rfl, -⟩
  · rw [hpc'] at hidle
    cases pc <;> simp_all [Pc.idle]
  · simp [hpc', Pc.early] at hearly
  · cases hinner with
    | broadcastAcquire hpc hr => exact .inl ⟨_, rfl, rfl, hr⟩
    | broadcastStart hpc | visitOther hpc | visitSame hpc | enqueue hpc | enqueueEnd hpc =>
      exact .inr ⟨⟨_, hpc, BroadcastPc.noConfusion⟩, rfl, rfl, rfl⟩
    | _ => cases hpc'
  · exact .inr ⟨⟨pc, hpc', hne⟩, rfl, rfl, rfl⟩

/-- `pop` is done by the queue's own session, and gives the front. -/
theorem Step.pop_of {u : Sid} {msg : Message} (h : Step i σ t (.queue u (.pop msg)) t') :
    u = i ∧ (σ.user i).mqueue.mMessages.head? = some msg ∧ t.pc = .dequeue .pop ∧
      t'.pc = .dequeue (.ret (some msg)) := by
  cases h with
  | inner h =>
    cases h with
    | @enqueue r v m pc a pc' hpc hr hnext => cases pc <;> cases hnext
    | @dequeue pc timedOut a pc' hpc hnext =>
      cases pc with
      | wait => cases timedOut <;> cases hnext
      | lock | ret => cases hnext
      | pop =>
        cases hq : (σ.user i).mqueue.mMessages with
        | nil => simp [DequeuePc.next, hq] at hnext
        | cons m ms =>
          obtain ⟨rfl, rfl⟩ : m = msg ∧ .ret (some m) = pc' := by
            simpa [DequeuePc.next, hq] using hnext
          exact ⟨rfl, rfl, hpc, rfl⟩

private theorem loopHead_inHand (t : Thread) : t.loopHead.inHand = [] :=
  @loopHead_of (·.inHand = []) t rfl rfl rfl

private theorem dispatch_inHand (role : Role) (room : Option RoomId) (tag : Bytes) :
    (dispatch role room tag).inHand = [] := by
  have hcases := dispatch_cases role room tag
  generalize dispatch role room tag = pc at hcases ⊢
  cases hcases <;> rfl

private theorem Inner.inHand_step (h : Inner i σ t a t') (n : ℕ) :
    t.pc.inHand ++ taken i [⟨i, n, a⟩] =
      (deliveries i [⟨i, n, a⟩]).map Prod.fst ++ t'.pc.inHand := by
  cases h with
  | @enqueue r v m pc a pc' hpc hr hnext =>
    cases pc <;> cases hnext <;> simp [Pc.inHand, hpc, taken, deliveries]
  | @dequeue pc timedOut a pc' hpc hnext =>
    cases pc with
    | wait => cases timedOut <;> cases hnext <;> simp [Pc.inHand, hpc, taken, deliveries]
    | lock sem => cases sem <;> cases hnext <;> simp [Pc.inHand, hpc, taken, deliveries]
    | ret => cases hnext
    | pop =>
      cases hq : (σ.user i).mqueue.mMessages with
      | nil => simp [DequeuePc.next, hq] at hnext
      | cons m ms =>
        obtain ⟨rfl, rfl⟩ : .pop m = a ∧ .ret (some m) = pc' := by
          simpa [DequeuePc.next, hq] using hnext
        simp [Pc.inHand, hpc, taken, deliveries]
  | removeAcquire hpc | removeBody hpc | findAcquire hpc | findBody hpc | findRelease hpc
  | addAcquire hpc | addBody hpc | broadcastAcquire hpc | broadcastStart hpc | visitOther hpc
  | visitSame hpc | enqueueEnd hpc => simp [Pc.inHand, hpc, taken, deliveries]

/-- What the thread holds after a step, if no message that it holds has the tag `err`. -/
theorem Step.inHand_step (h : Step i σ t a t') (htag : ∀ msg ∈ t.pc.inHand, msg.tag ≠ tagErr) (n : ℕ) :
    t.pc.inHand ++ taken i [⟨i, n, a⟩] =
      (deliveries i [⟨i, n, a⟩]).map Prod.fst ++ t'.pc.inHand := by
  have quiet (htaken : taken i [⟨i, n, a⟩] = []) (hdel : deliveries i [⟨i, n, a⟩] = [])
      (hnew : t'.pc.inHand = t.pc.inHand) : t.pc.inHand ++ taken i [⟨i, n, a⟩] =
        (deliveries i [⟨i, n, a⟩]).map Prod.fst ++ t'.pc.inHand := by
    rw [htaken, hdel, hnew, List.append_nil]
    rfl
  cases h with
  | inner h => exact h.inHand_step n
  | accept _ _ _ hpc | loginFail hpc | loginOk hpc | newReceiver hpc | receiveFail hpc
  | addRelease hpc | loopEnd hpc | close hpc => exact quiet rfl rfl (by simp [Pc.inHand, hpc])
  | @loginReply accepted _ _ _ hpc =>
    cases accepted <;> exact quiet rfl rfl (by simp [Pc.inHand, hpc])
  | newSender hpc => exact quiet rfl rfl ((loopHead_inHand _).trans (by rw [hpc]; rfl))
  | receiveOk hpc => exact quiet rfl rfl ((dispatch_inHand _ _ _).trans (by rw [hpc]; rfl))
  | removeRelease hpc =>
    refine quiet rfl rfl ?_
    by_cases hjoin : t.msg.tag = tagJoin <;> simp [Pc.inHand, hpc, hjoin]
  | @memberExists r found hpc =>
    refine quiet rfl rfl ?_
    by_cases hleave : t.msg.tag = tagLeave <;> cases found <;> simp [Pc.inHand, hpc, hleave]
  | @reply resp resume sent conn hpc =>
    cases resume with
    | loop => exact quiet rfl rfl ((loopHead_inHand _).trans (by rw [hpc]; rfl))
    | close | ret => exact quiet rfl rfl (by simp [Pc.inHand, hpc])
  | @dequeueEnd res hpc =>
    cases res with
    | none => exact quiet rfl rfl ((loopHead_inHand _).trans (by rw [hpc]; rfl))
    | some msg =>
      have hhand : t.pc.inHand = [msg] := by simp [Pc.inHand, hpc]
      have hne : msg.tag ≠ tagErr := htag msg (by simp [hhand])
      exact quiet rfl rfl (by simp [Pc.inHand, hpc, hne])
  | deliver hpc =>
    dsimp only
    rw [loopHead_inHand, hpc]
    simp [Pc.inHand, taken, deliveries]
  | subscript | nullRoom | emptyQueue => exact quiet rfl rfl rfl

end Thread

namespace Server

variable {es : List Event} {s s' : Server} {e : Event}

/-- A session inside a broadcast has begun it. -/
theorem begun (hrun : Run Server.Step {} es s) (i : Sid) {pc : BroadcastPc}
    (hpc : (s.thread i).pc = .broadcast pc) (hne : pc ≠ .acquire) :
    ∃ r, (s.thread i).room = some r ∧ ⟨i, (s.thread i).serial,
      .broadcast r (s.shared.user i).username (s.thread i).msg.data⟩ ∈ es := by
  refine hrun.invariant (fun es s => ∀ i pc, (s.thread i).pc = .broadcast pc → pc ≠ .acquire →
    ∃ r, (s.thread i).room = some r ∧ ⟨i, (s.thread i).serial,
      .broadcast r (s.shared.user i).username (s.thread i).msg.data⟩ ∈ es) nofun ?_ i pc hpc hne
  intro es s e s' hrun ih hs i pc hpc hne
  obtain ⟨j, n, a⟩ := e
  obtain ⟨hacts, rfl⟩ : s.Acts j a s' ∧ n = (s'.thread j).serial := hs.acts
  have hold : (s.thread i).pc.early = false → (∃ pc, (s.thread i).pc = .broadcast pc ∧ pc ≠ .acquire) →
      (s'.thread i).room = (s.thread i).room → (s'.thread i).msg = (s.thread i).msg →
      (s'.thread i).serial = (s.thread i).serial →
      ∃ r, (s'.thread i).room = some r ∧ ⟨i, (s'.thread i).serial,
        .broadcast r (s'.shared.user i).username (s'.thread i).msg.data⟩ ∈
          es ++ [⟨j, (s'.thread j).serial, a⟩] := by
    rintro hlate ⟨pc, hpc, hne⟩ hroom hmsg hserial
    obtain ⟨r, hr, hmem⟩ := ih i pc hpc hne
    rw [hroom, hmsg, hserial, username_step hacts.step hacts.effect hlate]
    exact ⟨r, hr, List.mem_append_left _ hmem⟩
  by_cases hi : i = j
  · subst hi
    rcases hacts.step.begun_of hpc hne with ⟨r, ha, ht', hr⟩ | ⟨hpc₀, hroom, hmsg, hserial⟩
    · subst ha
      have hlate : (s.thread i).pc.early = false := by
        rw [hacts.step.broadcast_of.1]
        rfl
      have hname := username_step hacts.step hacts.effect hlate
      exact ⟨r, hr, by simp [hname, ht']⟩
    · refine hold ?_ hpc₀ hroom hmsg hserial
      obtain ⟨pc, hpc, -⟩ := hpc₀
      rw [hpc]
      rfl
  · have hframe := hacts.frame i hi
    rw [hframe] at hpc
    exact hold (by rw [hpc]; rfl) ⟨pc, hpc, hne⟩ (by rw [hframe]) (by rw [hframe]) (by rw [hframe])

theorem mRooms_run (hrun : Run Server.Step s es s') {n : Bytes} {r : RoomId}
    (h : s.shared.mRooms n = some r) : s'.shared.mRooms n = some r := by
  refine hrun.preserved (fun s' => s'.shared.mRooms n = some r) h ?_
  intro s₁ e s₂ ih hs
  obtain ⟨hacts, -⟩ := hs.acts
  exact hacts.effect.mRooms_mono ih

/-- What is enqueued is what its session is broadcasting, under the registered name of the room,
and by a user of another name. -/
theorem push_origin {pre post : List Event} {i u : Sid} {n : ℕ} {msg : Message}
    (hrun : Run Server.Step {} (pre ++ ⟨i, n, .queue u (.push msg)⟩ :: post) s) :
    ∃ r text roomName, ⟨i, n, .broadcast r (s.shared.user i).username text⟩ ∈ pre ∧
      s.shared.mRooms roomName = some r ∧
      msg = delivery roomName (s.shared.user i).username text := by
  obtain ⟨s₁, s₂, h₁, hs, hpost⟩ := hrun.splitAt
  obtain ⟨hacts, rfl⟩ : s₁.Acts i (.queue u (.push msg)) s₂ ∧ n = (s₂.thread i).serial := hs.acts
  have hpc := hacts.step.push_of
  have hlate : (s₁.thread i).pc.early = false := by rw [hpc]; rfl
  obtain ⟨r, hr, hmem⟩ := begun h₁ i hpc BroadcastPc.noConfusion
  obtain ⟨roomName, hname⟩ := ((registered h₁).pointers i).room r hr
  have hserial : (s₂.thread i).serial = (s₁.thread i).serial := by
    rcases hacts.step.serial_cases (ok h₁ i) with ⟨m, ha, -⟩ | ⟨-, hserial⟩
    · cases ha
    · exact hserial
  refine ⟨r, (s₁.thread i).msg.data, roomName, ?_, mRooms_run (.cons hs hpost) hname, ?_⟩
  · rw [hserial, username_run (.cons hs hpost) hlate]
    exact hmem
  · rw [username_run (.cons hs hpost) hlate,
      delivery_congr ((registered h₁).registry.roomName roomName r hname).symm]
    exact ((broadcasting h₁ i).message u msg .push r hpc hr).1

theorem mem_posts {p : Post} {u : Sid} (h : p ∈ posts u es) :
    ⟨p.session, p.serial, .queue u (.push p.msg)⟩ ∈ es := by
  obtain ⟨⟨i, n, a⟩, he, hp⟩ := List.mem_filterMap.mp h
  cases a with
  | queue v b =>
    cases b with
    | push msg =>
      by_cases hv : v = u
      · obtain rfl : (⟨i, n, msg⟩ : Post) = p := by simpa [hv] using hp
        exact hv ▸ he
      · simp [hv] at hp
    | _ => cases hp
  | _ => cases hp

theorem post_origin (hrun : Run Server.Step {} es s) {u : Sid} {p : Post} (hp : p ∈ posts u es) :
    ∃ r text roomName,
      ⟨p.session, p.serial, .broadcast r (s.shared.user p.session).username text⟩ ∈ es ∧
      s.shared.mRooms roomName = some r ∧
      p.msg = delivery roomName (s.shared.user p.session).username text := by
  obtain ⟨pre, post, rfl⟩ := List.append_of_mem (mem_posts hp)
  obtain ⟨r, text, roomName, hmem, hname, hmsg⟩ := push_origin hrun
  exact ⟨r, text, roomName, List.mem_append_left _ hmem, hname, hmsg⟩

/-- A user's queue is first in, first out. -/
theorem posts_eq_taken (hrun : Run Server.Step {} es s) (u : Sid) :
    (posts u es).map (·.msg) = taken u es ++ (s.shared.user u).mqueue.mMessages := by
  refine hrun.invariant (fun es s => ∀ u, (posts u es).map (·.msg) =
    taken u es ++ (s.shared.user u).mqueue.mMessages) (fun _ => rfl) ?_ u
  intro es s e s' hrun ih hs u
  obtain ⟨i, n, a⟩ := e
  obtain ⟨hacts, -⟩ : s.Acts i a s' ∧ n = (s'.thread i).serial := hs.acts
  have hqueue := hacts.effect.mMessages u fun username ha => by
    subst ha
    rw [(newcomers hrun).blank i hacts.step.newUser_of]
  rw [posts_append, taken_append, List.map_append, ih u, hqueue, List.append_assoc,
    List.append_assoc]
  congr 1
  cases a with
  | queue v b =>
    by_cases hv : v = u
    · subst hv
      cases b with
      | push msg => simp [posts, taken]
      | pop msg =>
        obtain ⟨rfl, hhead, -⟩ := hacts.step.pop_of
        obtain ⟨ms, hms⟩ := List.head?_eq_some_iff.mp hhead
        simp [posts, taken, hms]
      | _ => simp [posts, taken]
    · cases b <;> simp [posts, taken, hv]
  | _ => simp [posts, taken]

/-- A message that is in a queue, or has been taken from it, was put there by some thread. -/
theorem exists_post (hrun : Run Server.Step {} es s) {u : Sid} {msg : Message}
    (h : msg ∈ taken u es ++ (s.shared.user u).mqueue.mMessages) : ∃ p ∈ posts u es, p.msg = msg := by
  rw [← posts_eq_taken hrun u] at h
  exact List.mem_map.mp h

theorem tag_of_taken (hrun : Run Server.Step {} es s) {u : Sid} {msg : Message}
    (h : msg ∈ taken u es) : msg.tag = tagDelivery := by
  obtain ⟨p, hp, rfl⟩ := exists_post hrun (List.mem_append_left _ h)
  obtain ⟨r, text, roomName, -, -, hdelivery⟩ := post_origin hrun hp
  rw [hdelivery]
  rfl

/-- A session passes on what it pops, in order. -/
theorem taken_eq_deliveries (hrun : Run Server.Step {} es s) (u : Sid) :
    taken u es = (deliveries u es).map Prod.fst ++ (s.thread u).pc.inHand := by
  refine hrun.invariant (fun es s => ∀ u, taken u es =
    (deliveries u es).map Prod.fst ++ (s.thread u).pc.inHand) (fun _ => rfl) ?_ u
  intro es s e s' hrun ih hs u
  obtain ⟨i, n, a⟩ := e
  obtain ⟨hacts, -⟩ : s.Acts i a s' ∧ n = (s'.thread i).serial := hs.acts
  rw [taken_append, deliveries_append, List.map_append, ih u, List.append_assoc,
    List.append_assoc]
  congr 1
  by_cases hu : u = i
  · subst hu
    refine hacts.step.inHand_step (fun msg hmsg => ?_) n
    have htaken : msg ∈ taken u es := by
      rw [ih u]
      exact List.mem_append_right _ hmsg
    rw [tag_of_taken hrun htaken]
    decide
  · have htaken : taken u [⟨i, n, a⟩] = [] := by
      cases a with
      | queue v b =>
        cases b with
        | pop msg =>
          obtain ⟨rfl, -⟩ := hacts.step.pop_of
          simp [taken, Ne.symm hu]
        | _ => rfl
      | _ => rfl
    have hdel : deliveries u [⟨i, n, a⟩] = [] := by
      cases a <;> simp [deliveries, Ne.symm hu]
    rw [htaken, hdel, hacts.frame u hu, List.append_nil]
    rfl

theorem tag_of_inHand (hrun : Run Server.Step {} es s) {u : Sid} {msg : Message}
    (h : msg ∈ (s.thread u).pc.inHand) : msg.tag = tagDelivery := by
  refine @tag_of_taken es s hrun u msg ?_
  rw [taken_eq_deliveries hrun u]
  exact List.mem_append_right _ h

/-- What a session has passed on is the beginning of what was enqueued for its user. -/
theorem deliveries_of_posts (hrun : Run Server.Step {} es s) (u : Sid) :
    (deliveries u es).map Prod.fst <+: (posts u es).map (·.msg) := by
  rw [posts_eq_taken hrun u, taken_eq_deliveries hrun u, List.append_assoc]
  exact List.prefix_append _ _

end Server
end Chat
