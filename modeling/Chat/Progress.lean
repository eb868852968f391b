import Chat.Crash
import Chat.Deadlock
import Chat.Lib.Progress

/-! Progress: how many steps a session takes for each thing that comes from outside its code, and that no
session keeps another one waiting for good. -/
namespace Chat
open Transition Traversal LockOrder

/-- What a thread gets from outside its code: a client, a line, the semaphore or its time-out; and a
fault. -/
def Action.outer : Action → Bool
  | .accept _ | .login _ | .receive _ | .queue _ .wait | .queue _ .timeout | .fault _ => true
  | _ => false

def Guarded.work {α : Type} : Guarded α → ℕ
  | .acquire => 3
  | .body => 2
  | .release _ => 1

def EnqueuePc.work : EnqueuePc → ℕ
  | .lock => 4
  | .push => 3
  | .post => 2
  | .unlock => 1

/-- A call of `broadcast_message` in a room of `crowd`, or of up to `n` members that are not settled
before the room is locked. -/
def BroadcastPc.work (n : ℕ) (crowd : Finset Sid) : BroadcastPc → ℕ
  | .acquire => 5 * n + 5
  | .start => 5 * crowd.card + 4
  | .loop it => 5 * ahead crowd it + 3
  | .enqueue u _ pc => 5 * ahead crowd (after crowd u) + 3 + pc.work

/-- The greatest number of steps before the session gets to a client, the semaphore or its end. -/
def Pc.work (n : ℕ) (crowd : Finset Sid) : Pc → ℕ
  | .unborn | .login | .receive | .dequeue .wait | .done => 0
  | .close => 1
  | .newUser | .reply _ _ | .deliver _ => 2
  | .loginReply _ | .dequeue (.ret _) => 3
  | .dequeue .pop => 4
  | .dequeue (.lock _) => 5
  | .addMember pc => pc.work + 2
  | .findOrCreateRoom pc => pc.work + 5
  | .removeMember pc => pc.work + 8
  | .broadcast pc => pc.work n crowd
  | .memberExists => 5 * n + 12

/-- Where a session waits for what is outside, or is over. -/
def Pc.resting : Pc → Bool
  | .unborn | .login | .receive | .dequeue .wait | .done => true
  | _ => false

section Work

variable {n : ℕ} {crowd : Finset Sid}

theorem Guarded.work_le {α : Type} (pc : Guarded α) : pc.work ≤ 3 := by
  cases pc <;> simp [work]

theorem Pc.work_le (hcard : crowd.card ≤ n) (pc : Pc) : pc.work n crowd ≤ 5 * n + 12 := by
  cases pc with
  | removeMember pc | addMember pc =>
    have hle := pc.work_le
    simp only [work]
    omega
  | findOrCreateRoom pc =>
    have hle := pc.work_le
    simp only [work]
    omega
  | broadcast pc =>
    cases pc with
    | acquire | start => simp only [work, BroadcastPc.work]; omega
    | loop it =>
      have hle := ahead_le crowd it
      simp only [work, BroadcastPc.work]
      omega
    | enqueue u msg pc =>
      have hle := ahead_le crowd (after crowd u)
      cases pc <;> simp only [work, BroadcastPc.work, EnqueuePc.work] <;> omega
  | dequeue pc => cases pc <;> simp only [work] <;> omega
  | _ => simp only [work]; omega

/-- Only past its guard a broadcast has a room of known members. -/
theorem Pc.work_congr {pc : Pc} {crowd' : Finset Sid}
    (h : ∀ pc', pc = .broadcast pc' → pc.inRoom = true → crowd' = crowd) :
    pc.work n crowd' = pc.work n crowd := by
  cases pc with
  | broadcast pc =>
    cases pc with
    | acquire => rfl
    | start | loop | enqueue => rw [h _ rfl rfl]
  | dequeue pc => cases pc <;> rfl
  | _ => rfl

end Work

namespace Thread

/-- The members of the room that the thread points to. -/
def crowd (σ : Shared) (t : Thread) : Finset Sid :=
  match t.room with
  | some r => (σ.room r).members
  | none => ∅

section Steps

variable {i : Sid} {σ : Shared} {t t' : Thread} {a : Action} {n : ℕ} {crowd : Finset Sid}

private theorem loopHead_work (t : Thread) : t.loopHead.work n crowd ≤ 1 :=
  @loopHead_of (fun pc => pc.work n crowd ≤ 1) t le_rfl zero_le_one zero_le_one

private theorem Inner.work_lt (h : Inner i σ t a t')
    (hcrowd : ∀ r, t.room = some r → (σ.room r).members = crowd)
    (htarget : ∀ u, t.pc.target = some u → u ∈ crowd) (hcard : crowd.card ≤ n)
    (ha : a.outer = false) : t'.pc.work n crowd < t.pc.work n crowd := by
  cases h with
  | removeAcquire hpc | removeBody hpc | findAcquire hpc | findBody hpc | findRelease hpc
  | addAcquire hpc | addBody hpc => simp [hpc, Pc.work, Guarded.work]
  | broadcastAcquire hpc =>
    simp only [hpc, Pc.work, BroadcastPc.work]
    omega
  | broadcastStart hpc hr =>
    have hle := ahead_le crowd (first crowd)
    simp only [hpc, Pc.work, BroadcastPc.work, hcrowd _ hr]
    omega
  | @visitOther r u hpc =>
    have hnext := ahead_after (htarget u (by rw [hpc]; rfl))
    simp only [hpc, Pc.work, BroadcastPc.work, EnqueuePc.work]
    omega
  | @visitSame r u hpc hr =>
    have hnext := ahead_after (htarget u (by rw [hpc]; rfl))
    simp only [hpc, Pc.work, BroadcastPc.work, hcrowd r hr]
    omega
  | @enqueue r u msg pc a pc' hpc hr hnext =>
    cases pc <;> cases hnext <;> simp [hpc, Pc.work, BroadcastPc.work, EnqueuePc.work]
  | enqueueEnd hpc hr => simp [hpc, Pc.work, BroadcastPc.work, EnqueuePc.work, hcrowd _ hr]
  | @dequeue pc timedOut a pc' hpc hnext =>
    cases pc with
    | wait => cases timedOut <;> cases hnext <;> cases ha
    | lock sem =>
      cases hnext
      cases sem <;> simp [hpc, Pc.work]
    | pop =>
      cases hq : (σ.user i).mqueue.mMessages with
      | nil => simp [DequeuePc.next, hq] at hnext
      | cons msg rest =>
        obtain ⟨rfl, rfl⟩ : .pop msg = a ∧ .ret (some msg) = pc' := by
          simpa [DequeuePc.next, hq] using hnext
        simp [hpc, Pc.work]
    | ret msg => simp [DequeuePc.next] at hnext

/-- Each step of a thread's own leaves it less to do. -/
theorem Step.work_lt (h : Step i σ t a t')
    (hcrowd : ∀ r, t.room = some r → (σ.room r).members = crowd)
    (htarget : ∀ u, t.pc.target = some u → u ∈ crowd) (hcard : crowd.card ≤ n)
    (ha : a.outer = false) : t'.pc.work n crowd < t.pc.work n crowd := by
  cases h with
  | inner h => exact h.work_lt hcrowd htarget hcard ha
  | @loginReply accepted _ _ _ hpc => cases accepted <;> simp [hpc, Pc.work]
  | newSender hpc => exact (loopHead_work _).trans_lt (by rw [hpc]; exact one_lt_two)
  | newReceiver hpc => simp [hpc, Pc.work]
  | removeRelease hpc =>
    rw [hpc]
    by_cases htag : t.msg.tag = tagJoin <;> simp [htag, Pc.work, Guarded.work]
  | addRelease hpc => simp [hpc, Pc.work, Guarded.work]
  | @memberExists r found hpc =>
    rw [hpc]
    by_cases htag : t.msg.tag = tagLeave <;> cases found <;>
      simp [htag, Pc.work, Guarded.work, BroadcastPc.work]
  | loopEnd hpc => simp [hpc, Pc.work, BroadcastPc.work, ahead]
  | @reply resp resume _ _ hpc =>
    rw [hpc]
    refine Nat.lt_succ_of_le ?_
    exact @resumed_of (fun pc => pc.work n crowd ≤ 1) _ resume (loopHead_work _) le_rfl zero_le_one
  | @dequeueEnd res hpc =>
    rw [hpc]
    refine Nat.lt_succ_of_le ?_
    exact @dequeued_of (fun pc => pc.work n crowd ≤ 2) t res ((loopHead_work t).trans one_le_two)
      le_rfl fun _ => le_rfl
  | deliver hpc => exact (loopHead_work _).trans_lt (by rw [hpc]; exact one_lt_two)
  | close hpc => simp [hpc, Pc.work]
  | _ => cases ha

/-- From outside a thread gets something just where it rests, or where it faults. -/
theorem Step.outer_of (h : Step i σ t a t') (ha : a.outer = true) :
    t.pc.resting = true ∨ t.pc.derefs = true ∧ t.room = none ∨
      t.pc = .dequeue .pop ∧ (σ.user i).mqueue.mMessages = [] := by
  cases h with
  | inner h =>
    cases h with
    | @enqueue r u msg pc a pc' hpc hr hnext => cases pc <;> cases hnext <;> cases ha
    | @dequeue pc timedOut a pc' hpc hnext =>
      cases pc with
      | wait => exact .inl (by rw [hpc]; rfl)
      | lock sem =>
        cases hnext
        cases ha
      | pop =>
        cases hq : (σ.user i).mqueue.mMessages with
        | nil => simp [DequeuePc.next, hq] at hnext
        | cons msg rest =>
          obtain ⟨rfl, -⟩ : .pop msg = a ∧ .ret (some msg) = pc' := by
            simpa [DequeuePc.next, hq] using hnext
          cases ha
      | ret msg => simp [DequeuePc.next] at hnext
    | _ => cases ha
  | accept _ _ _ hpc | loginFail hpc | loginOk hpc | receiveFail hpc | receiveOk hpc =>
    exact .inl (by rw [hpc]; rfl)
  | subscript hpc => exact .inl (by rcases hpc with hpc | hpc <;> rw [hpc] <;> rfl)
  | nullRoom hpc hr => exact .inr (.inl ⟨hpc, hr⟩)
  | emptyQueue hpc hq => exact .inr (.inr ⟨hpc, hq⟩)
  | _ => cases ha

/-- A thread that does not rest has a next step in its code. -/
theorem next_of_busy (h : t.pc.resting = false) (i : Sid) (σ : Shared) :
    ∃ a t', t.next i σ {} = some (a, t') := by
  have hderef (k : RoomId → Action × Thread) : ∃ a t', some (t.deref k) = some (a, t') := ⟨_, _, rfl⟩
  cases hpc : t.pc with
  | unborn | login | receive | done => simp [hpc, Pc.resting] at h
  | removeMember pc | addMember pc => cases pc <;> simpa only [next, hpc] using hderef _
  | findOrCreateRoom pc => cases pc <;> exact ⟨_, _, by simp only [next, hpc]; rfl⟩
  | memberExists => simpa only [next, hpc] using hderef _
  | broadcast pc =>
    cases pc with
    | acquire | start | enqueue => simpa only [next, hpc] using hderef _
    | loop it => cases it <;> simpa only [next, hpc] using hderef _
  | dequeue pc =>
    cases pc with
    | wait => simp [hpc, Pc.resting] at h
    | lock sem => exact ⟨_, _, by simp only [next, hpc, DequeuePc.next]; rfl⟩
    | pop =>
      cases hq : (σ.user i).mqueue.mMessages <;>
        exact ⟨_, _, by simp only [next, hpc, DequeuePc.next, hq]; rfl⟩
    | ret msg => cases msg <;> exact ⟨_, _, by simp only [next, hpc]; rfl⟩
  | loginReply | newUser | reply | deliver | close => exact ⟨_, _, by simp only [next, hpc]; rfl⟩

/-- Past its guard a broadcast leaves the room, and its members, as they are. -/
theorem Step.inBroadcast_of (h : Step i σ t a t') {pc : BroadcastPc} (hpc' : t'.pc = .broadcast pc)
    (hin : t'.pc.inRoom = true) : t'.room = t.room ∧ ∀ r, a ≠ .insert r ∧ a ≠ .erase r := by
  rcases h.shape with hidle | ⟨-, hearly⟩ | hinner | ⟨rfl, f, rfl⟩
  · rw [hpc'] at hidle hin
    cases pc with
    | acquire => cases hin
    | start | loop | enqueue => cases hidle
  · rw [hpc'] at hearly
    cases hearly
  · cases hinner <;> cases hpc' <;> exact ⟨rfl, fun _ => ⟨nofun, nofun⟩⟩
  · exact ⟨rfl, fun _ => ⟨nofun, nofun⟩⟩

theorem Step.accept_of (h : Step i σ t a t') (hpc : t.pc = .unborn) : ∃ conn, a = .accept conn := by
  cases h with
  | accept => exact ⟨_, rfl⟩
  | inner h => cases h <;> simp_all
  | nullRoom hderefs => simp [hpc, Pc.derefs] at hderefs
  | _ => simp_all

end Steps
end Thread

/-- An action of a thread's own that takes no lock is never kept waiting. -/
theorem Shared.apply_of_inner {σ : Shared} {a : Action} (i : Sid) (hacq : a.acquires = none)
    (ha : a.outer = false) : ∃ σ', σ.apply i a = some σ' := by
  cases a with
  | lock | broadcast => cases hacq
  | findOrCreateRoom roomName r => cases hname : σ.mRooms roomName <;> simp [apply, hname]
  | visit r u msg => cases msg <;> simp [apply]
  | queue u a =>
    cases a with
    | lock => cases hacq
    | wait | timeout => cases ha
    | _ => simp [apply, MessageQueue.apply]
  | _ => simp [apply]

/-- The session that the event accepts a client for. -/
def Event.accepts (e : Event) : Option Sid :=
  match e.action with
  | .accept _ => some e.session
  | _ => none

namespace Server

variable {es : List Event} {s s' : Server} {e : Event} {i : Sid} {n : ℕ}

/-- The sessions whose clients have been accepted. -/
def accepted (es : List Event) : List Sid := es.filterMap Event.accepts

theorem accepted_append (es es' : List Event) : accepted (es ++ es') = accepted es ++ accepted es' :=
  List.filterMap_append

theorem accepted_of_inner (es : List Event) (he : e.action.outer = false) :
    accepted (es ++ [e]) = accepted es := by
  have hnone : e.accepts = none := by
    unfold Event.accepts
    cases ha : e.action <;> simp [ha, Action.outer] at he ⊢
  simp [accepted, hnone]

private theorem mem_accepted (hrun : Run Server.Step {} es s) (u : Sid)
    (hu : (s.thread u).pc ≠ .unborn) : u ∈ accepted es := by
  refine hrun.invariant (fun es s => ∀ u, (s.thread u).pc ≠ .unborn → u ∈ accepted es)
    (fun _ h => absurd rfl h) ?_ u hu
  intro es s e s' _ ih hs u hu
  rw [accepted_append, List.mem_append]
  obtain ⟨i, a, t, σ, -, ht, -, rfl, rfl⟩ := hs.move
  by_cases hi : u = i
  · subst hi
    by_cases hold : (s.thread u).pc = .unborn
    · obtain ⟨conn, rfl⟩ := ht.accept_of hold
      exact .inr (by simp [accepted, Event.accepts])
    · exact .inl (ih u hold)
  · exact .inl (ih u (by simpa [hi] using hu))

/-- Rooms have members only among the sessions that have been accepted. -/
theorem crowd_le (hrun : Run Server.Step {} es s) (i : Sid) :
    ((s.thread i).crowd s.shared).card ≤ (accepted es).length := by
  have hsub : (s.thread i).crowd s.shared ⊆ (accepted es).toFinset := fun u hu => by
    unfold Thread.crowd at hu
    cases hr : (s.thread i).room with
    | none => simp [hr] at hu
    | some r =>
      rw [hr] at hu
      refine List.mem_toFinset.mpr (mem_accepted hrun u fun hpc => ?_)
      simpa [hpc, Pc.early] using not_early_of_member hrun hu
  exact (Finset.card_le_card hsub).trans (List.toFinset_card_le _)

/-- What thread `i` has to do before it next gets to its client, the semaphore or its end. -/
def work (n : ℕ) (s : Server) (i : Sid) : ℕ :=
  (s.thread i).pc.work n ((s.thread i).crowd s.shared)

private theorem crowd_eq (hrun : Run Server.Step {} es s) (hs : s.Step e s') {t t' : Thread}
    (hroom : t'.room = t.room) (ha : ∀ r, t.room = some r → e.action ≠ .insert r ∧ e.action ≠ .erase r) :
    t'.crowd s'.shared = t.crowd s.shared := by
  obtain ⟨hacts, -⟩ := hs.acts
  unfold Thread.crowd
  rw [hroom]
  cases hr : t.room with
  | none => rfl
  | some r =>
    ext u
    refine ((registered hrun).members hacts.step hacts.effect r u).trans ?_
    simp [ha r hr]

/-- A step of another thread leaves the members of a locked room, and so what there is to do. -/
theorem work_frame (hrun : Run Server.Step {} es s) (hs : s.Step e s') (hi : i ≠ e.session) (n : ℕ) :
    s'.work n i = s.work n i := by
  obtain ⟨hacts, -⟩ := hs.acts
  unfold work
  rw [hacts.frame i hi]
  refine Pc.work_congr fun _ _ hin => crowd_eq hrun hs rfl fun r hr => not_or.mp fun ha => hi ?_
  have hheld : .room r ∈ (s.thread i).holds i := ⟨hin, hr⟩
  exact (locks_agree hrun).exclusive hheld (hacts.step.inRoom_of ha)

theorem work_step (hrun : Run Server.Step {} es s) (hs : s.Step e s')
    (hn : (accepted es).length ≤ n) (he : e.action.outer = false) :
    s'.work n e.session < s.work n e.session := by
  obtain ⟨hacts, -⟩ := hs.acts
  have hsame : s'.work n e.session =
      (s'.thread e.session).pc.work n ((s.thread e.session).crowd s.shared) :=
    Pc.work_congr fun pc hpc hin => by
      obtain ⟨hroom, ha⟩ := hacts.step.inBroadcast_of hpc hin
      exact crowd_eq hrun hs hroom fun r _ => ha r
  rw [hsame]
  refine hacts.step.work_lt (fun r hr => ?_) (fun u hu => ?_) ((crowd_le hrun _).trans hn) he
  · simp [Thread.crowd, hr]
  · have hok : (s.thread e.session).room ≠ none := by
      have hok := ok hrun e.session
      unfold Thread.Ok at hok
      generalize (s.thread e.session).pc = pc at hok hu
      cases pc with
      | broadcast => exact hok.2
      | _ => cases hu
    obtain ⟨r, hr⟩ := Option.ne_none_iff_exists'.mp hok
    simpa [Thread.crowd, hr] using (broadcasting hrun e.session).member u r hu hr

/-- A session takes at most `5 * n + 13` steps for each time that it is accepted, calls `receive`, comes
back from the semaphore or faults, with `n` the number of clients accepted. -/
theorem steps_le (hrun : Run Server.Step {} es s) (i : Sid) :
    es.countP (·.session = i) ≤ (5 * (accepted es).length + 13) *
      es.countP fun e => e.session = i ∧ e.action.outer = true := by
  refine hrun.charge (·.session = i) (·.action.outer = true) (fun s => s.work (accepted es).length i)
    (5 * (accepted es).length + 12) rfl ?_
  intro pre e post s s' hes hpre hs
  have hle : (accepted pre).length ≤ (accepted es).length := by
    rw [hes, accepted_append, List.length_append]
    exact Nat.le_add_right _ _
  by_cases hi : e.session = i
  · subst hi
    by_cases he : e.action.outer = true
    · have hle' : (accepted (pre ++ [e])).length ≤ (accepted es).length := by
        rw [hes, List.append_cons pre e post, accepted_append _ post, List.length_append]
        exact Nat.le_add_right _ _
      simp only [he, if_true]
      exact Pc.work_le ((crowd_le (hpre.snoc hs) _).trans hle') _
    · simp only [he, if_true]
      exact work_step hpre hs hle (Bool.eq_false_iff.mpr he)
  · simp only [hi, if_false]
    exact (work_frame hpre hs (Ne.symm hi) _).le

private def sendall : List Sched :=
  .client 0 "slogin:alice\njoin:lobby\nsendall:hi\n" :: Sched.steps 0 18

theorem steps_le_sendall : ∃ es s, Run Server.Step {} es s ∧ es.length = 19 ∧
    es.countP (·.session = 0) ≤ (5 * (accepted es).length + 13) *
      es.countP fun e => e.session = 0 ∧ e.action.outer = true := by
  obtain ⟨⟨es, s⟩, h⟩ := Option.isSome_iff_exists.mp (show (outcome sendall).isSome = true by decide)
  have hlength : (outcome sendall).map (fun p => p.1.length) = some 19 := by decide
  rw [h] at hlength
  have hrun := run_of_outcome h
  exact ⟨es, s, hrun, Option.some.inj hlength, steps_le hrun 0⟩

/-- Thread `i` has no step of its own before something comes from outside: its client, a line, the
semaphore or its time-out; or it is over, or about to look past the null pointer. -/
def Rests (s : Server) (i : Sid) : Prop :=
  (s.thread i).pc.resting = true ∨ (s.thread i).pc.derefs = true ∧ (s.thread i).room = none

/-- A state of a run with at most `n` clients so far, and without a fault. -/
def Sound (n : ℕ) (s : Server) : Prop :=
  ∃ es, Run Server.Step {} es s ∧ (accepted es).length ≤ n ∧ s.fault = none

/-- Thread `i` takes a step of its own. -/
def Advances (n : ℕ) (s : Server) (i : Sid) (s' : Server) : Prop :=
  s.Sound n ∧ s'.Sound n ∧ ∃ e, s.Step e s' ∧ e.session = i ∧ e.action.outer = false

private theorem sound_step (hsound : s.Sound n) (hs : s.Step e s') (he : e.action.outer = false) :
    s'.Sound n := by
  obtain ⟨es, hrun, hn, -⟩ := hsound
  refine ⟨es ++ [e], hrun.snoc hs, (accepted_of_inner es he).symm ▸ hn, ?_⟩
  obtain ⟨hacts, -⟩ := hs.acts
  rw [hacts.fault]
  cases ha : e.action <;> simp [ha, Action.outer] at he <;> rfl

private theorem not_rests_of_holds (hrun : Run Server.Step {} es s) {l : Lock}
    (hl : l ∈ (s.thread i).holds i) : ¬ s.Rests i := by
  intro hrests
  rw [Thread.holds_idle ?_] at hl
  · exact Set.notMem_empty l hl
  have hok := ok hrun i
  unfold Rests at hrests
  unfold Thread.Ok at hok
  generalize (s.thread i).pc = pc at hrests hok
  rcases hrests with hrest | ⟨hderefs, hroom⟩
  · cases pc with
    | dequeue pc => cases pc <;> simp [Pc.resting, Pc.idle] at hrest ⊢
    | _ => simp [Pc.resting, Pc.idle, Pc.early] at hrest ⊢
  · cases pc with
    | memberExists => exact .inl rfl
    | removeMember | addMember | broadcast => exact absurd hroom hok.2
    | _ => cases hderefs

/-- A thread that does not rest can take its step when the lock that it wants is free. -/
private theorem step_of_busy (hrun : Run Server.Step {} es s) (halive : s.fault = none)
    (hbusy : ¬ s.Rests i) (hfree : ∀ l, (s.thread i).wants i = some l → s.shared.owner l = none) :
    ∃ e s', s.Step e s' ∧ e.session = i ∧ e.action.outer = false := by
  obtain ⟨hrest, hderefs⟩ := not_or.mp hbusy
  obtain ⟨a, t, hnext⟩ := Thread.next_of_busy (Bool.eq_false_iff.mpr hrest) i s.shared
  have hstep := Thread.step_of_next hnext
  have hinner : a.outer = false := by
    by_contra houter
    rcases hstep.outer_of (Bool.eq_true_of_not_eq_false houter) with h | h | ⟨hpc, hq⟩
    · exact hrest h
    · exact hderefs h
    · exact mMessages_ne_nil hrun hpc hq
  obtain ⟨σ, happly⟩ : ∃ σ, s.shared.apply i a = some σ := by
    cases hacq : a.acquires with
    | none => exact Shared.apply_of_inner i hacq hinner
    | some l =>
      have howner := hfree l ((hstep.acquires_eq (ok hrun i)).symm.trans hacq)
      exact Option.ne_none_iff_exists'.mp fun hnone => (Shared.apply_acquires i hacq).mp hnone howner
  exact ⟨⟨i, t.serial, a⟩, _, ⟨.run i {}, by simp [next, halive, hnext, happly]; rfl⟩, rfl, hinner⟩

theorem progressive (n : ℕ) : Progressive (Sound n) (Advances n) (·.shared.owner)
    (fun s i => (s.thread i).holds i) (fun s i => (s.thread i).wants i) Lock.rank
    (fun s i => ¬ s.Rests i) (work n) where
  good_of_move h := h.2.1
  agrees := fun ⟨_, hrun, _⟩ => locks_agree hrun
  ordered _ := ordered _
  busy_of_holds := fun ⟨_, hrun, _⟩ hl => not_rests_of_holds hrun hl
  able := fun {s i} ⟨es, hrun, hn, halive⟩ hbusy hfree => by
    obtain ⟨e, s', hs, rfl, he⟩ := step_of_busy hrun halive hbusy hfree
    have hsound : s.Sound n := ⟨es, hrun, hn, halive⟩
    exact ⟨s', ⟨hsound, sound_step hsound hs he, e, hs, rfl, he⟩, fun _ => work_step hrun hs hn he⟩
  frame := fun {s i s' j} ⟨⟨es, hrun, _⟩, _, e, hs, he, _⟩ hj => by
    obtain ⟨hacts, -⟩ := hs.acts
    have hsame := hacts.frame j (he ▸ hj)
    exact ⟨by rw [hsame], by rw [hsame], by unfold Rests; rw [hsame], work_frame hrun hs (he ▸ hj) n⟩

/-- From every state without a fault, every session can get to where it rests, by steps of its own and of
sessions that hold a lock; nothing from outside is needed for it, so no session keeps another one
waiting while it is itself waiting for its client or the semaphore. -/
theorem settles (hrun : Run Server.Step {} es s) (halive : s.fault = none) (i : Sid) :
    ∃ es' s', Run Server.Step s es' s' ∧ s'.fault = none ∧ s'.Rests i ∧
      ∀ e ∈ es', e.action.outer = false ∧ (e.session = i ∨ ∃ l, s.shared.owner l = some e.session) := by
  have hsound : s.Sound (accepted es).length := ⟨es, hrun, le_rfl, halive⟩
  obtain ⟨is, s', hmoves, hrests, his⟩ := (progressive _).completes (t := i) hsound
  obtain ⟨-, -, -, halive'⟩ := (progressive _).good_of_run hsound hmoves
  obtain ⟨es', hrun', hes'⟩ : ∃ es', Run Server.Step s es' s' ∧
      ∀ e ∈ es', e.action.outer = false ∧ e.session ∈ is := by
    refine hmoves.invariant (fun is s' => ∃ es', Run Server.Step s es' s' ∧
      ∀ e ∈ es', e.action.outer = false ∧ e.session ∈ is) ⟨[], .nil, by simp⟩ ?_
    rintro is s₁ j s₂ - ⟨es₁, hrun₁, hes₁⟩ ⟨-, -, e, hs, he, hinner⟩
    refine ⟨es₁ ++ [e], hrun₁.snoc hs, fun e' he' => ?_⟩
    rcases List.mem_append.mp he' with he' | he'
    · exact ⟨(hes₁ e' he').1, List.mem_append_left _ (hes₁ e' he').2⟩
    · obtain rfl := List.mem_singleton.mp he'
      exact ⟨hinner, by simp [he]⟩
  refine ⟨es', s', hrun', halive', not_not.mp hrests, fun e he => ⟨(hes' e he).1, ?_⟩⟩
  rcases his _ (hes' e he).2 with hi | ⟨l, hl⟩
  · exact .inl hi
  · exact .inr ⟨l, (locks_agree hrun l _).mpr hl⟩

private def queueing : List Sched :=
  .client 0 "slogin:alice\njoin:lobby\n" :: Sched.steps 0 8 ++
    .client 1 "slogin:bob\njoin:lobby\n" :: Sched.steps 1 7

theorem settles_queueing : ∃ es s es' s', Run Server.Step {} es s ∧ s.WaitsFor 1 0 ∧
    Run Server.Step s es' s' ∧ s'.Rests 1 := by
  obtain ⟨⟨es, s⟩, h⟩ := Option.isSome_iff_exists.mp (show (outcome queueing).isSome = true by decide)
  have hwants : (outcome queueing).map (fun p => ((p.2.thread 1).wants 1, p.2.shared.owner (.room 0))) =
      some (some (.room 0), some 0) := rfl
  have halive : (outcome queueing).map (fun p => p.2.fault) = some none := by decide
  rw [h] at hwants halive
  obtain ⟨hwants, howner⟩ := Prod.mk.inj (Option.some.inj hwants)
  have hrun := run_of_outcome h
  obtain ⟨es', s', hrun', -, hrests, -⟩ := settles hrun (Option.some.inj halive) 1
  exact ⟨es, s, es', s', hrun, ⟨.room 0, hwants, howner⟩, hrun', hrests⟩

end Server
end Chat
