import Chat.Members
import Chat.Requests

/-! What becomes of a session's membership when the session ends: only a join and a leave change it,
so a session that ends in a room stays a member. -/
namespace Chat
open Transition

/-- The last join or leave among the messages is a join. -/
def seated (ms : List (Option Message)) : Bool :=
  ms.foldl (fun b m => isTag tagJoin m || !isTag tagLeave m && b) false

@[simp] theorem seated_snoc (ms : List (Option Message)) (m : Option Message) :
    seated (ms ++ [m]) = (isTag tagJoin m || !isTag tagLeave m && seated ms) := by
  simp [seated, List.foldl_append]

namespace Pc

/-- The session has left its loop, or has been turned away. -/
def ended : Pc → Bool
  | .close | .done => true
  | _ => false

/-- No join or leave is under way. -/
def rests : Pc → Bool
  | .findOrCreateRoom _ | .addMember .acquire | .addMember .body | .removeMember _
  | .memberExists => false
  | _ => true

theorem rests_of_ended {pc : Pc} (h : pc.ended = true) : pc.rests = true := by
  cases pc <;> first | rfl | cases h

end Pc

/-- The action changes the members of a room. -/
def Action.moves : Action → Bool
  | .insert _ | .erase _ => true
  | _ => false

namespace Thread

/-- The user of thread `i` is in some room. -/
def Member (σ : Shared) (i : Sid) : Prop := ∃ r, i ∈ (σ.room r).members

/-- What the messages of a session tell of its user's membership: while a join or a leave is under
way the membership is behind them. -/
def Seat (σ : Shared) (i : Sid) (ms : List (Option Message)) (t : Thread) : Prop :=
  match t.pc with
  | .findOrCreateRoom _ | .addMember .acquire | .addMember .body => seated ms = true
  | .removeMember _ => seated ms = decide (t.msg.tag = tagJoin)
  | .memberExists => t.msg.tag = tagLeave ∧ seated ms = false ∨
      t.msg.tag ≠ tagLeave ∧ (Member σ i ↔ seated ms = true)
  | _ => Member σ i ↔ seated ms = true

variable {i : Sid} {σ σ' : Shared} {t t' : Thread} {a : Action} {ms : List (Option Message)}

theorem seat_of_rests (h : t.pc.rests = true) :
    t.Seat σ i ms ↔ (Member σ i ↔ seated ms = true) := by
  unfold Seat
  generalize t.pc = pc at h
  cases pc with
  | addMember pc => cases pc <;> first | rfl | cases h
  | findOrCreateRoom | removeMember | memberExists => cases h
  | _ => rfl

theorem Seat.mono (h : t.Seat σ i ms) (hmem : Member σ' i ↔ Member σ i) : t.Seat σ' i ms := by
  unfold Seat at h ⊢
  generalize t.pc = pc at h ⊢
  cases pc with
  | addMember pc => cases pc <;> first | exact h | exact hmem.trans h
  | findOrCreateRoom | removeMember => exact h
  | memberExists => exact h.imp_right fun ⟨htag, hseat⟩ => ⟨htag, hmem.trans hseat⟩
  | _ => exact hmem.trans h

/-- A session takes up a message. -/
private theorem Seat.received {m : Message} (h : Member σ i ↔ seated ms = true)
    (hpc : Dispatch t.role t.room m.tag t.pc) (hmsg : t.msg = m)
    (hout : t.role = .receiver → ¬ Member σ i) : t.Seat σ i (ms ++ [some m]) := by
  unfold Seat
  rw [hmsg, seated_snoc]
  generalize t.pc = pc at hpc
  cases hpc with
  | quit _ htag => simpa [isTag, htag, show tagQuit ≠ tagJoin by decide,
      show tagQuit ≠ tagLeave by decide] using h
  | rejoin _ htag | join _ htag | firstJoin _ htag => simp [isTag, htag]
  | leave _ htag => simp [isTag, htag, show tagLeave ≠ tagJoin by decide]
  | sendall _ _ hjoin hleave | outside _ _ hjoin hleave => simpa [isTag, hjoin, hleave] using h
  | notJoin hrole hjoin =>
    have hno := hout hrole
    have hms : seated ms = false := by simpa [hno] using h
    simp [isTag, hjoin, hno, hms]

private theorem loopHead_rests (t : Thread) : t.loopHead.rests = true :=
  @loopHead_of (·.rests = true) t rfl rfl rfl

theorem Seat.step (h : t.Seat σ i ms) (hok : t.Ok) (ht : Step i σ t a t') (n : ℕ)
    (hmem : ∀ r, i ∈ (σ'.room r).members ↔ a = .insert r ∨ i ∈ (σ.room r).members ∧ a ≠ .erase r)
    (hout : t.room = none → ¬ Member σ i)
    (habsent : t.pc.absent = true → ¬ Member σ i)
    (hfound : ∀ r, t.room = some r → i ∉ (σ.room r).members → ¬ Member σ i) :
    t'.Seat σ' i (ms ++ heard i [⟨i, n, a⟩]) := by
  have quiet (ha : heard i [⟨i, n, a⟩] = []) (hseat : t'.Seat σ' i ms) :
      t'.Seat σ' i (ms ++ heard i [⟨i, n, a⟩]) := by rwa [ha, List.append_nil]
  have same (ha : a.moves = false) : Member σ' i ↔ Member σ i := by
    refine exists_congr fun r => ?_
    have hinsert : a ≠ .insert r := fun heq => by simp [heq, Action.moves] at ha
    have herase : a ≠ .erase r := fun heq => by simp [heq, Action.moves] at ha
    simp [hmem r, hinsert, herase]
  have rest (ha : a.moves = false) (hpc : t.pc.rests = true) (hpc' : t'.pc.rests = true) :
      t'.Seat σ' i ms :=
    (seat_of_rests hpc').mpr ((same ha).trans ((seat_of_rests hpc).mp h))
  cases ht with
  | inner ht =>
    cases ht with
    | removeAcquire hpc | removeBody hpc => exact quiet rfl (by simpa [Seat, hpc] using h)
    | findAcquire hpc | findBody hpc | findRelease hpc | addAcquire hpc =>
      exact quiet rfl (by simpa [Seat, hpc] using h)
    | @addBody r hpc hr =>
      have hseated : seated ms = true := by simpa [Seat, hpc] using h
      have hin : Member σ' i := ⟨r, (hmem r).mpr (.inl rfl)⟩
      exact quiet rfl (by simp [Seat, hseated, hin])
    | broadcastAcquire hpc | broadcastStart hpc | visitOther hpc | visitSame hpc | enqueue hpc
    | enqueueEnd hpc | dequeue hpc =>
      exact quiet rfl (rest rfl (by rw [hpc]; rfl) rfl)
  | accept _ _ _ hpc | loginFail hpc | loginOk hpc | newReceiver hpc | addRelease hpc | loopEnd hpc
  | close hpc => exact quiet rfl (rest rfl (by rw [hpc]; rfl) rfl)
  | @loginReply accepted _ _ _ hpc =>
    exact quiet rfl (rest rfl (by rw [hpc]; rfl) (by cases accepted <;> rfl))
  | newSender hpc | deliver hpc =>
    exact quiet rfl (rest rfl (by rw [hpc]; rfl) (loopHead_rests _))
  | @reply resp resume sent conn hpc =>
    exact quiet rfl (rest rfl (by rw [hpc]; rfl)
      (@resumed_of (·.rests = true) { t with conn } resume (loopHead_rests _) rfl rfl))
  | @dequeueEnd res hpc =>
    exact quiet rfl (rest rfl (by rw [hpc]; rfl)
      (@dequeued_of (·.rests = true) t res (loopHead_rests _) rfl fun _ => rfl))
  | receiveFail hpc =>
    have hseat := (same rfl).trans ((seat_of_rests (by rw [hpc]; rfl)).mp h)
    have hheard : heard i [⟨i, n, .receive none⟩] = [none] := by simp [heard]
    rw [hheard, seat_of_rests rfl]
    simpa [isTag] using hseat
  | @receiveOk buffer msg conn hpc =>
    have hseat := (same rfl).trans ((seat_of_rests (by rw [hpc]; rfl)).mp h)
    have hroom : t.role = .receiver → t.room = none := by simpa [Ok, hpc] using hok
    have hheard : heard i [⟨i, n, .receive (some msg)⟩] = [some msg] := by simp [heard]
    rw [hheard]
    exact Seat.received hseat (dispatch_cases _ _ _) rfl
      fun hrole hin => hout (hroom hrole) ((same rfl).mp hin)
  | removeRelease hpc =>
    have hseated : seated ms = decide (t.msg.tag = tagJoin) := by simpa [Seat, hpc] using h
    by_cases hjoin : t.msg.tag = tagJoin
    · exact quiet rfl (by simpa [Seat, hjoin] using hseated)
    · have hgone : ¬ Member σ' i := (same rfl).not.mpr (habsent (by rw [hpc]; rfl))
      have hms : seated ms = false := by simpa [hjoin] using hseated
      exact quiet rfl (by simp [Seat, hjoin, hms, hgone])
  | @memberExists r found hpc hr hiff =>
    have hask : t.msg.tag = tagLeave ∧ seated ms = false ∨
        t.msg.tag ≠ tagLeave ∧ (Member σ i ↔ seated ms = true) := by simpa [Seat, hpc] using h
    refine quiet rfl ?_
    rcases hask with ⟨hleave, hms⟩ | ⟨hleave, hseat⟩
    · cases found with
      | true => simp [Seat, hleave, hms, show tagLeave ≠ tagJoin by decide]
      | false =>
        have hgone := hfound r hr fun hin => Bool.noConfusion (hiff.mpr hin)
        simp [Seat, hleave, hms, same rfl, hgone]
    · cases found <;> simpa [Seat, hleave, same rfl] using hseat
  | subscript | nullRoom | emptyQueue => exact quiet rfl (h.mono (same rfl))

end Thread

namespace Server

variable {es : List Event} {s : Server}

theorem seat (hrun : Run Server.Step {} es s) (i : Sid) :
    (s.thread i).Seat s.shared i (heard i es) := by
  refine hrun.invariant (fun es s => ∀ i, (s.thread i).Seat s.shared i (heard i es)) (fun i => ?_)
    ?_ i
  · simp [Thread.Seat, Thread.Member, heard, seated]
  intro es s e s' hrun ih hs j
  obtain ⟨i, a, t, σ, -, ht, happly, rfl, rfl⟩ := hs.move
  have hmem := (registered hrun).members ht (Shared.effect_of_apply happly)
  rw [heard_append]
  have hin := membership hrun j
  by_cases hj : j = i
  · subst hj
    simp only [Function.update_self]
    refine (ih j).step (ok hrun j) ht t.serial (fun r => by simpa using hmem r j) ?_ ?_ ?_
    · rintro hnone ⟨r, hr⟩
      simpa [hnone] using hin.pointer r hr
    · rintro hpc ⟨r, hr⟩
      exact hin.absent hpc r hr
    · rintro r hroom hnot ⟨q, hq⟩
      obtain rfl : r = q := by simpa [hroom] using hin.pointer q hq
      exact hnot hq
  · have hi : i ≠ j := fun h => hj h.symm
    rw [heard_other hi, List.append_nil]
    simp only [Function.update_of_ne hj]
    exact (ih j).mono (exists_congr fun r => by simpa [hj] using hmem r j)

/-- The user of a session that has ended is in no room just if the session's last join or leave was
not a join. -/
theorem departed_iff (hrun : Run Server.Step {} es s) {i : Sid}
    (hended : (s.thread i).pc.ended = true) :
    (∀ r, i ∉ (s.shared.room r).members) ↔ seated (heard i es) = false := by
  have hseat := (Thread.seat_of_rests (Pc.rests_of_ended hended)).mp (seat hrun i)
  rw [← Bool.not_eq_true, ← hseat, Thread.Member, not_exists]

/-- A sender that joins, leaves and quits. -/
private def guest : List Sched :=
  .client 0 "slogin:alice\njoin:lobby\nleave:bye\nquit:bye\n" :: Sched.steps 0 20

theorem departed_iff_guest : ∃ es s, Run Server.Step {} es s ∧ (s.thread 0).pc.ended = true ∧
    ∀ r, 0 ∉ (s.shared.room r).members := by
  obtain ⟨⟨es, s⟩, h⟩ := Option.isSome_iff_exists.mp (show (outcome guest).isSome = true by decide)
  have hended : (outcome guest).map (fun p => (p.2.thread 0).pc.ended) = some true := by decide
  have hheard : (outcome guest).map (fun p => seated (heard 0 p.1)) = some false := by decide
  rw [h] at hended hheard
  have hrun := run_of_outcome h
  exact ⟨es, s, hrun, Option.some.inj hended,
    (departed_iff hrun (Option.some.inj hended)).mpr (Option.some.inj hheard)⟩

/-- A sender that joins and quits, and another one that broadcasts then. -/
private def ghost : List Sched :=
  .client 0 "slogin:alice\njoin:lobby\nquit:bye\n" :: Sched.steps 0 14 ++
    .client 1 "slogin:bob\njoin:lobby\nsendall:hi\n" :: Sched.steps 1 24

theorem departed_ghost : ∃ es s, Run Server.Step {} es s ∧ (s.thread 0).pc.ended = true ∧
    (∃ r, 0 ∈ (s.shared.room r).members) ∧
    delivery (str "lobby") (str "bob") (str "hi") ∈ (s.shared.user 0).mqueue.mMessages := by
  obtain ⟨⟨es, s⟩, h⟩ := Option.isSome_iff_exists.mp (show (outcome ghost).isSome = true by decide)
  have hended : (outcome ghost).map (fun p => (p.2.thread 0).pc.ended) = some true := by decide
  have hmember : (outcome ghost).map (fun p => decide ((0 : ℕ) ∈ (p.2.shared.room 0).members)) =
      some true := by decide
  have hqueue : (outcome ghost).map (fun p => decide (delivery (str "lobby") (str "bob") (str "hi") ∈
      (p.2.shared.user 0).mqueue.mMessages)) = some true := by decide
  rw [h] at hended hmember hqueue
  exact ⟨es, s, run_of_outcome h, Option.some.inj hended,
    ⟨0, of_decide_eq_true (Option.some.inj hmember)⟩, of_decide_eq_true (Option.some.inj hqueue)⟩

end Server
end Chat
