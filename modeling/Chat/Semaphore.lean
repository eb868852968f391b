import Chat.QueueUse

/-! What the semaphore of a user's queue tells in the server: a message that is enqueued is never
forgotten, and none is promised that is not there. -/
namespace Chat
open Transition Counting

section Queue

variable {τ α : Type*} [DecidableEq τ] {q : QueueSystem τ α} {es : List (τ × QueueEvent α)}

/-- Before the semaphore can have reached its greatest value no post has been lost. -/
theorem Counts.of_pushed_le (h : Run QueueStep {} es q) (hle : (pushed es).length ≤ semValueMax) :
    Counts q 0 := by
  refine h.invariant (fun es q => (pushed es).length ≤ semValueMax → Counts q 0)
    (fun _ => .initial) ?_ hle
  intro es q e q' hrun ih hs hle
  have hbefore : (pushed es).length ≤ semValueMax := by
    unfold pushed at hle ⊢
    rw [List.filterMap_append, List.length_append] at hle
    omega
  obtain ⟨lost, hcounts, hlost⟩ := (ih hbefore).step hs
  rw [hlost ?_] at hcounts
  · exact hcounts
  -- a thread that is about to post has a message on the deque that the semaphore does not count
  obtain ⟨t, b⟩ := e
  obtain ⟨c, q₁, hmove, -⟩ := hs.move
  generalize hcaller : q.caller t = c₀ at hmove
  cases hmove with
  | post msg =>
    obtain ⟨n, p, -, hp, hcount⟩ := ih hbefore
    have hpos : 0 < p := hp.pos (by rw [hcaller]; rfl : (q.caller t).posting = true)
    have horder := congrArg List.length (Fifo.run hrun).order
    rw [List.length_append] at horder
    show q.queue.mAvail < semValueMax
    omega
  | _ => trivial

end Queue

namespace Server

variable {es : List Event} {s : Server} {u i : Sid}

private theorem caller_inQueue {t : Thread} {c : Caller Message} (h : t.caller u i = c)
    (hc : c.posting = true ∨ c = .dequeue .pop) : .queue u ∈ t.holds i := by
  show t.pc.inQueue i = some u
  subst h
  unfold Thread.caller at hc
  generalize t.pc = pc at hc
  cases pc with
  | broadcast pc =>
    cases pc with
    | enqueue v msg pc =>
      by_cases hv : v = u
      · subst hv
        cases pc <;> simp [Caller.posting, Pc.inQueue] at hc ⊢
      · simp [hv, Caller.posting] at hc
    | _ => simp [Caller.posting] at hc
  | dequeue pc =>
    by_cases hi : i = u
    · subst hi
      cases pc <;> simp [Caller.posting, Pc.inQueue] at hc ⊢
    · simp [hi, Caller.posting] at hc
  | _ => simp [Caller.posting] at hc

private theorem awaited_own {t : Thread} (h : (t.caller u i).awaited = true) : i = u := by
  unfold Thread.caller at h
  generalize t.pc = pc at h
  cases pc with
  | broadcast pc =>
    cases pc with
    | enqueue v msg pc => by_cases hv : v = u <;> simp [hv, Caller.awaited] at h
    | _ => cases h
  | dequeue pc =>
    by_cases hi : i = u
    · exact hi
    · simp [hi, Caller.awaited] at h
  | _ => cases h

/-- A session past its wait has a message to take. -/
theorem mMessages_ne_nil (hrun : Run Server.Step {} es s) (hpc : (s.thread u).pc = .dequeue .pop) :
    (s.shared.user u).mqueue.mMessages ≠ [] := by
  obtain ⟨qes, hqrun, -⟩ := queue_run hrun u
  exact (front_never_empty hqrun).1 u (by simp [queueSystem, Thread.caller, hpc])

/-- While nobody holds its lock, a queue has as many messages as its semaphore tells, and one more
for its session when that is past a wait. -/
theorem mAvail_of_unlocked (hrun : Run Server.Step {} es s) (hposts : (posts u es).length ≤ semValueMax)
    (hfree : s.shared.owner (.queue u) = none) :
    (s.shared.user u).mqueue.mAvail + ((s.thread u).caller u u).awaited.toNat =
      (s.shared.user u).mqueue.mMessages.length := by
  obtain ⟨qes, hqrun, hpushed, -⟩ := queue_run hrun u
  obtain ⟨n, p, hn, hp, hcount⟩ := Counts.of_pushed_le hqrun (by rwa [hpushed, List.length_map])
  have hnobody : ∀ i, .queue u ∉ (s.thread i).holds i := fun i hi => by
    simpa [hfree] using (locks_agree hrun (.queue u) i).mpr hi
  have hp0 : p = 0 := hp.eq_zero fun i => by
    by_contra hpost
    exact hnobody i (caller_inQueue rfl (.inl (Bool.eq_true_of_not_eq_false hpost)))
  have hn1 : n = ((s.thread u).caller u u).awaited.toNat := hn.eq_toNat fun i hi => awaited_own hi
  have hlength : (s.shared.user u).mqueue.mAvail + n + p + 0 =
      (s.shared.user u).mqueue.mMessages.length := hcount
  omega

/-- A session at its wait can go on just if the semaphore tells of a message. -/
private theorem wait_iff (halive : s.fault = none) (hpc : (s.thread u).pc = .dequeue .wait) :
    (∃ s', s.Step ⟨u, (s.thread u).serial, .queue u .wait⟩ s') ↔
      0 < (s.shared.user u).mqueue.mAvail := by
  constructor
  · rintro ⟨s', hs⟩
    obtain ⟨i, a, t, σ, -, -, happly, he, -⟩ := hs.move
    obtain ⟨rfl, -, rfl⟩ : u = i ∧ (s.thread u).serial = t.serial ∧ .queue u .wait = a := by
      simpa using he
    by_contra hzero
    simp [Shared.apply, MessageQueue.apply, hzero] at happly
  · intro hpos
    have hnext : (s.thread u).next u s.shared {} =
        some (.queue u .wait, { s.thread u with pc := .dequeue (.lock true) }) := by
      simp [Thread.next, hpc, DequeuePc.next]
    obtain ⟨σ, happly⟩ : ∃ σ, s.shared.apply u (.queue u .wait) = some σ :=
      ⟨_, by simp [Shared.apply, MessageQueue.apply, hpos]; rfl⟩
    refine ⟨⟨σ, Function.update s.thread u { s.thread u with pc := .dequeue (.lock true) }, none⟩,
      .run u {}, ?_⟩
    simp [Server.next, halive, hnext, happly]

/-- No wakeup is lost and none is made up: while nobody holds the lock of a user's queue, the
semaphore and a wait that has succeeded tell of exactly the messages on it, and a session at its
wait can go on just if there is one. -/
theorem no_lost_wakeup (hrun : Run Server.Step {} es s) (halive : s.fault = none)
    (hposts : (posts u es).length ≤ semValueMax) (hfree : s.shared.owner (.queue u) = none) :
    (s.shared.user u).mqueue.mAvail + ((s.thread u).caller u u).awaited.toNat =
        (s.shared.user u).mqueue.mMessages.length ∧
      ((s.thread u).pc = .dequeue .wait →
        ((∃ s', s.Step ⟨u, (s.thread u).serial, .queue u .wait⟩ s') ↔
          (s.shared.user u).mqueue.mMessages ≠ [])) := by
  have hcount := mAvail_of_unlocked hrun hposts hfree
  refine ⟨hcount, fun hpc => ?_⟩
  have hwaiting : ((s.thread u).caller u u).awaited = false := by
    simp [Thread.caller, hpc, Caller.awaited]
  rw [hwaiting, Bool.toNat_false, Nat.add_zero] at hcount
  rw [wait_iff halive hpc, hcount, List.length_pos_iff]

private def waiter : List Sched :=
  .client 0 "rlogin:bob\njoin:lobby\n" :: Sched.steps 0 11 ++
    .client 1 "slogin:alice\njoin:lobby\nsendall:hi\n" :: Sched.steps 1 23

theorem no_lost_wakeup_waiter : ∃ es s s', Run Server.Step {} es s ∧
    (s.shared.user 0).mqueue.mMessages = [⟨tagDelivery, str "lobby:alice:hi"⟩] ∧
    s.Step ⟨0, 1, .queue 0 .wait⟩ s' := by
  obtain ⟨⟨es, s⟩, h⟩ := Option.isSome_iff_exists.mp (show (outcome waiter).isSome = true by decide)
  have hthread : (outcome waiter).map (fun p => (p.2.thread 0).serial) = some 1 := by decide
  have hpc : (outcome waiter).map (fun p => (p.2.thread 0).pc) = some (.dequeue .wait) := rfl
  have halive : (outcome waiter).map (fun p => p.2.fault) = some none := by decide
  have hfree : (outcome waiter).map (fun p => p.2.shared.owner (.queue 0)) = some none := by decide
  have hposts : (outcome waiter).map (fun p => decide ((posts 0 p.1).length ≤ semValueMax)) =
      some true := by decide
  have hqueue : (outcome waiter).map (fun p => (p.2.shared.user 0).mqueue.mMessages) =
      some [⟨tagDelivery, str "lobby:alice:hi"⟩] := by decide
  rw [h] at hthread hpc halive hfree hposts hqueue
  have hrun := run_of_outcome h
  obtain ⟨-, hwait⟩ := no_lost_wakeup hrun (Option.some.inj halive)
    (of_decide_eq_true (Option.some.inj hposts)) (Option.some.inj hfree)
  have hqueue : (s.shared.user 0).mqueue.mMessages = _ := Option.some.inj hqueue
  have hsome : (s.shared.user 0).mqueue.mMessages ≠ [] := by simp [hqueue]
  obtain ⟨s', hs⟩ := (hwait (Option.some.inj hpc)).mpr hsome
  rw [show (s.thread 0).serial = 1 from Option.some.inj hthread] at hs
  exact ⟨es, s, s', hrun, hqueue, hs⟩

end Server
end Chat
