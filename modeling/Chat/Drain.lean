import Chat.Semaphore
import Chat.SenderSession
import Chat.Solo

/-! A receiver's session catches up: by its own steps it passes on all that is on its queue, in order. -/
namespace Chat
open Transition

/-- What an action passes on to the client. -/
def Action.delivered : Action → Option Message
  | .deliver msg _ => some msg
  | _ => none

namespace Solo

/-- The objects with another queue of user `i`. -/
private def withQueue (σ : Shared) (i : Sid) (q : MessageQueue Sid Message) : Shared :=
  σ.setUser i { σ.user i with mqueue := q }

variable {i : Sid} {σ : Shared} {t : Thread} {q q' : MessageQueue Sid Message} {n : ℕ}

private theorem withQueue_apply {a : QueueAction Message} (h : q.apply i a = some q') :
    (withQueue σ i q).apply i (.queue i a) = some (withQueue σ i q') := by
  simp [withQueue, Shared.apply, Shared.setUser, h]

/-- One turn of the loop of `chat_with_receiver` while the semaphore tells of a message. -/
private theorem turn {msg : Message} {rest : List Message} (hpc : t.pc = .dequeue .wait)
    (hrole : t.role = .receiver) (hopen : t.conn.isOpen = true) (htag : msg.tag ≠ tagErr)
    (hq : (σ.user i).mqueue = ⟨none, n + 1, msg :: rest⟩) :
    Solo i σ t [.queue i .wait, .queue i .lock, .queue i (.pop msg), .queue i (.ret (some msg)),
        .deliver msg (t.conn.send msg).1]
      (withQueue σ i ⟨none, n, rest⟩) { t with conn := (t.conn.send msg).2 } := by
  have htake : σ.apply i (.queue i .wait) = some (withQueue σ i ⟨none, n, msg :: rest⟩) := by
    simp [Shared.apply, MessageQueue.apply, hq, withQueue]
  have hwait : t.next i σ {} = some (.queue i .wait, { t with pc := .dequeue (.lock true) }) := by
    simp [Thread.next, hpc, DequeuePc.next]
  have hlock (σ : Shared) : Thread.next i σ {} { t with pc := .dequeue (.lock true) } =
      some (.queue i .lock, { t with pc := .dequeue .pop }) := by
    simp [Thread.next, DequeuePc.next]
  have hpop : Thread.next i (withQueue σ i ⟨some i, n, msg :: rest⟩) {}
      { t with pc := .dequeue .pop } =
      some (.queue i (.pop msg), { t with pc := .dequeue (.ret (some msg)) }) := by
    simp [Thread.next, DequeuePc.next, withQueue, Shared.setUser]
  have hret (σ : Shared) : Thread.next i σ {} { t with pc := .dequeue (.ret (some msg)) } =
      some (.queue i (.ret (some msg)), { t with pc := .deliver msg }) := by
    simp [Thread.next, htag]
  have hdeliver (σ : Shared) : Thread.next i σ {} { t with pc := .deliver msg } =
      some (.deliver msg (t.conn.send msg).1, { t with conn := (t.conn.send msg).2 }) := by
    have hfd := (Connection.send_frame (Prod.mk.eta (p := t.conn.send msg)).symm).1
    have hopen' : (t.conn.send msg).2.isOpen = true := by rwa [Connection.isOpen, hfd]
    simp [Thread.next, Thread.loopHead, hopen', hrole, hpc]
  refine .step hwait htake (fun _ => Action.noConfusion) (.step (hlock _)
    (@withQueue_apply i σ _ ⟨some i, n, msg :: rest⟩ _ rfl) (fun _ => Action.noConfusion) (.step hpop
      (@withQueue_apply i σ _ ⟨some i, n, rest⟩ _ rfl) (fun _ => Action.noConfusion) (.step (hret _)
        (withQueue_apply rfl) (fun _ => Action.noConfusion)
        (.step (hdeliver _) rfl (fun _ => Action.noConfusion) .refl))))

/-- As many turns as there are messages. -/
theorem drain {ms : List Message} (hpc : t.pc = .dequeue .wait) (hrole : t.role = .receiver)
    (hopen : t.conn.isOpen = true) (htag : ∀ msg ∈ ms, msg.tag ≠ tagErr)
    (hq : (σ.user i).mqueue = ⟨none, ms.length, ms⟩) :
    ∃ as σ' t', Solo i σ t as σ' t' ∧ as.length = 5 * ms.length ∧
      as.filterMap Action.delivered = ms ∧ t'.pc = .dequeue .wait ∧
      (σ'.user i).mqueue = ⟨none, 0, []⟩ := by
  induction ms generalizing σ t with
  | nil => exact ⟨[], σ, t, .refl, rfl, rfl, hpc, hq⟩
  | cons msg ms ih =>
    have hturn := turn hpc hrole hopen (htag msg (List.mem_cons_self ..)) hq
    have hfd := (Connection.send_frame (Prod.mk.eta (p := t.conn.send msg)).symm).1
    obtain ⟨as, σ', t', hrest, hlength, hdelivered, hpc', hq'⟩ :=
      @ih (withQueue σ i ⟨none, ms.length, ms⟩) { t with conn := (t.conn.send msg).2 } hpc hrole
        (by rwa [Connection.isOpen, hfd]) (fun m hm => htag m (List.mem_cons_of_mem _ hm))
        (by simp [withQueue, Shared.setUser])
    refine ⟨_, σ', t', hturn.trans hrest, ?_, ?_, hpc', hq'⟩
    · simp only [List.length_append, List.length_cons, List.length_nil, hlength]
      omega
    · exact congrArg (msg :: ·) hdelivered

end Solo

namespace Server

variable {es : List Event} {s : Server} {u : Sid}

theorem deliveries_of_actions (es : List Event) (h : ∀ e ∈ es, e.session = u) :
    (deliveries u es).map Prod.fst = (es.map Event.action).filterMap Action.delivered := by
  unfold deliveries
  rw [List.map_filterMap, List.filterMap_map]
  refine List.filterMap_congr fun e he => ?_
  obtain ⟨i, n, a⟩ := e
  obtain rfl : i = u := h _ he
  cases a <;> simp [Action.delivered]

/-- A receiver at its wait, whose queue nobody holds the lock of, can pass on everything on its queue by
steps of its own, five for each message; then every message ever enqueued for it has been passed on, in
the order of the queue, and the queue is empty. -/
theorem catches_up (hrun : Run Server.Step {} es s) (halive : s.fault = none)
    (hpc : (s.thread u).pc = .dequeue .wait) (hfree : s.shared.owner (.queue u) = none)
    (hposts : (posts u es).length ≤ semValueMax) :
    ∃ es' s', Run Server.Step s es' s' ∧ s'.fault = none ∧ (∀ e ∈ es', e.session = u) ∧
      es'.length = 5 * (s.shared.user u).mqueue.mMessages.length ∧
      (deliveries u (es ++ es')).map Prod.fst = (posts u es).map (·.msg) ∧
      (s'.thread u).pc = .dequeue .wait ∧ (s'.shared.user u).mqueue.mMessages = [] := by
  have hcount := mAvail_of_unlocked hrun hposts hfree
  have hqueue := posts_eq_taken hrun u
  obtain ⟨hrole, -⟩ : (s.thread u).role = .receiver ∧ (s.thread u).room ≠ none := by
    simpa [Thread.Ok, hpc] using ok hrun u
  have hmqueue : (s.shared.user u).mqueue =
      ⟨none, (s.shared.user u).mqueue.mMessages.length, (s.shared.user u).mqueue.mMessages⟩ := by
    have hlock : (s.shared.user u).mqueue.mLock = none := hfree
    have havail : (s.shared.user u).mqueue.mAvail = (s.shared.user u).mqueue.mMessages.length := by
      simpa [Thread.caller, hpc, Caller.awaited] using hcount
    rw [← hlock, ← havail]
  have htag : ∀ msg ∈ (s.shared.user u).mqueue.mMessages, msg.tag ≠ tagErr := fun msg hmsg => by
    obtain ⟨p, hp, rfl⟩ := exists_post hrun (List.mem_append_right _ hmsg)
    obtain ⟨r, text, roomName, -, -, hdelivery⟩ := post_origin hrun hp
    rw [show p.msg.tag = tagDelivery by rw [hdelivery]; rfl]
    decide
  obtain ⟨as, σ', t', hsolo, hlength, hdelivered, hpc', hq'⟩ :=
    Solo.drain hpc hrole (isOpen hrun u (by simp [hpc])) htag hmqueue
  obtain ⟨es', s', hrun', hsession, hactions, hshared, hthread, halive'⟩ := hsolo.run halive
  refine ⟨es', s', hrun', halive', hsession, ?_, ?_, by simp [hthread, hpc'], by simp [hshared, hq']⟩
  · rw [← hlength, ← hactions, List.length_map]
  · have htaken := taken_eq_deliveries hrun u
    rw [deliveries_append, List.map_append, deliveries_of_actions es' hsession, hactions, hdelivered,
      hqueue, htaken, hpc]
    simp [Pc.inHand]

private def backlog : List Sched :=
  .client 0 "rlogin:bob\njoin:lobby\n" :: Sched.steps 0 11 ++
    .client 1 "slogin:alice\njoin:lobby\nsendall:hi\n" :: Sched.steps 1 23

theorem catches_up_backlog : ∃ es s es' s', Run Server.Step {} es s ∧ deliveries 0 es = [] ∧
    Run Server.Step s es' s' ∧ es'.length = 5 ∧
    (deliveries 0 (es ++ es')).map Prod.fst = [⟨tagDelivery, str "lobby:alice:hi"⟩] := by
  obtain ⟨⟨es, s⟩, h⟩ := Option.isSome_iff_exists.mp (show (outcome backlog).isSome = true by decide)
  have hpc : (outcome backlog).map (fun p => (p.2.thread 0).pc) = some (.dequeue .wait) := rfl
  have halive : (outcome backlog).map (fun p => p.2.fault) = some none := by decide
  have hfree : (outcome backlog).map (fun p => p.2.shared.owner (.queue 0)) = some none := by decide
  have hposts : (outcome backlog).map (fun p => (posts 0 p.1).map (·.msg)) =
      some [⟨tagDelivery, str "lobby:alice:hi"⟩] := by decide
  have hqueue : (outcome backlog).map (fun p => (p.2.shared.user 0).mqueue.mMessages) =
      some [⟨tagDelivery, str "lobby:alice:hi"⟩] := by decide
  have hsent : (outcome backlog).map (fun p => deliveries 0 p.1) = some [] := by decide
  rw [h] at hpc halive hfree hposts hqueue hsent
  have hrun := run_of_outcome h
  have hposts : (posts 0 es).map (·.msg) = _ := Option.some.inj hposts
  have hqueue : (s.shared.user 0).mqueue.mMessages = _ := Option.some.inj hqueue
  have hlength : (posts 0 es).length ≤ semValueMax := by
    rw [← List.length_map (·.msg), hposts]
    decide
  obtain ⟨es', s', hrun', -, -, hfive, hall, -⟩ :=
    catches_up hrun (Option.some.inj halive) (Option.some.inj hpc) (Option.some.inj hfree) hlength
  rw [hposts] at hall
  rw [hqueue] at hfive
  exact ⟨es, s, es', s', hrun, Option.some.inj hsent, hrun', hfive, hall⟩

end Server
end Chat
