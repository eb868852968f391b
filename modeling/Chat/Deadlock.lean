import Chat.Locks
import Chat.Lib.LockOrder
import Mathlib.Data.Fintype.Order

/-! No deadlock on the mutexes: a queue's lock may be taken under a room's, and every other lock is
taken by a thread that holds none. -/
namespace Chat
open Transition LockOrder

/-- The order in which locks are taken. -/
def Lock.rank : Lock → Fin 3
  | .registry => 0
  | .room _ => 1
  | .queue _ => 2

namespace Thread

/-- The lock that thread `i` is about to take. -/
def wants (i : Sid) (t : Thread) : Option Lock :=
  match t.pc with
  | .removeMember .acquire | .addMember .acquire | .broadcast .acquire => t.room.map .room
  | .findOrCreateRoom .acquire => some .registry
  | .broadcast (.enqueue u _ .lock) => some (.queue u)
  | .dequeue (.lock _) => some (.queue i)
  | _ => none

variable {i : Sid} {σ : Shared} {t t' : Thread} {a : Action} {l : Lock}

theorem Step.acquires_eq (h : Step i σ t a t') (hok : t.Ok) : a.acquires = t.wants i := by
  cases h with
  | inner h =>
    cases h with
    | removeAcquire hpc hr | addAcquire hpc hr | broadcastAcquire hpc hr =>
      simp [wants, hpc, hr, Action.acquires]
    | @enqueue r u msg pc a pc' hpc hr hnext =>
      cases pc <;> cases hnext <;> simp [wants, hpc, Action.acquires]
    | @dequeue pc timedOut a pc' hpc hnext =>
      cases pc with
      | wait => cases timedOut <;> cases hnext <;> simp [wants, hpc, Action.acquires]
      | lock sem =>
        cases hnext
        simp [wants, hpc, Action.acquires]
      | pop =>
        cases hq : (σ.user i).mqueue.mMessages with
        | nil => simp [DequeuePc.next, hq] at hnext
        | cons msg rest =>
          obtain ⟨rfl, -⟩ : .pop msg = a ∧ .ret (some msg) = pc' := by
            simpa [DequeuePc.next, hq] using hnext
          simp [wants, hpc, Action.acquires]
      | ret msg => cases hnext
    | _ => simp_all [wants, Action.acquires]
  | subscript hpc => rcases hpc with hpc | hpc <;> simp [wants, hpc, Action.acquires]
  | nullRoom hpc hr =>
    unfold Ok at hok
    unfold wants
    generalize t.pc = pc at hpc hok
    cases pc with
    | removeMember | addMember | broadcast => exact absurd hr hok.2
    | memberExists => rfl
    | _ => cases hpc
  | _ => simp_all [wants, Action.acquires]

/-- Where a thread wants a lock, its code has a next step. -/
theorem next_of_wants (h : t.wants i = some l) (σ : Shared) (c : Choice) :
    ∃ a t', t.next i σ c = some (a, t') := by
  have hderef (k : RoomId → Action × Thread) : ∃ a t', some (t.deref k) = some (a, t') := ⟨_, _, rfl⟩
  unfold wants at h
  cases hpc : t.pc with
  | removeMember pc | addMember pc =>
    cases pc with
    | acquire => simpa only [next, hpc] using hderef _
    | body | release => simp [hpc] at h
  | findOrCreateRoom pc =>
    cases pc with
    | acquire => exact ⟨_, _, by simp only [next, hpc]; rfl⟩
    | body | release => simp [hpc] at h
  | broadcast pc =>
    cases pc with
    | acquire | enqueue => simpa only [next, hpc] using hderef _
    | start | loop => simp [hpc] at h
  | dequeue pc =>
    cases pc with
    | lock sem => exact ⟨_, _, by simp only [next, hpc, DequeuePc.next]; rfl⟩
    | wait | pop | ret => simp [hpc] at h
  | _ => simp [hpc] at h

/-- The locks that a thread holds come before the one it wants. -/
theorem rank_lt_of_wants (h : t.wants i = some l) {k : Lock} (hk : k ∈ t.holds i) :
    k.rank < l.rank := by
  by_cases hidle : t.pc.idle = true
  · rw [holds_idle (.inl hidle)] at hk
    exact absurd hk (Set.notMem_empty k)
  unfold wants at h
  generalize hp : t.pc = pc at h hidle
  cases pc with
  | removeMember pc | findOrCreateRoom pc => cases pc <;> first | exact absurd rfl hidle | cases h
  | addMember pc =>
    cases pc with
    | acquire => cases k <;> simp [hp, Pc.inRegistry, Pc.inRoom, Pc.inQueue] at hk
    | body | release => cases h
  | broadcast pc =>
    cases pc with
    | acquire => exact absurd rfl hidle
    | enqueue u msg pc =>
      cases pc with
      | lock =>
        obtain rfl : .queue u = l := Option.some.inj h
        cases k with
        | room r => exact (by decide : (1 : Fin 3) < 2)
        | registry | queue v => simp [hp, Pc.inRegistry, Pc.inQueue] at hk
      | push | post | unlock => cases h
    | start | loop => cases h
  | dequeue pc =>
    cases pc with
    | lock sem => cases k <;> simp [hp, Pc.inRegistry, Pc.inRoom, Pc.inQueue] at hk
    | wait | pop | ret => cases h
  | _ => cases h

end Thread

/-- An action that takes a lock has to wait just if some thread owns it. -/
theorem Shared.apply_acquires {σ : Shared} {a : Action} {l : Lock} (i : Sid)
    (h : a.acquires = some l) : σ.apply i a = none ↔ σ.owner l ≠ none := by
  cases a with
  | lock k =>
    obtain rfl : k = l := Option.some.inj h
    cases howner : σ.owner k <;> simp [apply, howner]
  | broadcast r sender text =>
    obtain rfl : .room r = l := Option.some.inj h
    cases howner : (σ.room r).lock <;> simp [apply, owner, howner]
  | queue u a =>
    cases a with
    | lock =>
      obtain rfl : .queue u = l := Option.some.inj h
      cases howner : (σ.user u).mqueue.mLock <;> simp [apply, MessageQueue.apply, owner, howner]
    | _ => cases h
  | _ => cases h

namespace Server

variable {es : List Event} {s : Server}

/-- Thread `i` waits for a lock that `j` holds. -/
def WaitsFor (s : Server) : Sid → Sid → Prop :=
  LockOrder.WaitsFor (fun i => (s.thread i).wants i) s.shared.owner

/-- Thread `i` waits for a lock. -/
def Waiting (s : Server) (i : Sid) : Prop := ∃ l, (s.thread i).wants i = some l ∧ s.shared.owner l ≠ none

theorem waiting_iff {i : Sid} : s.Waiting i ↔ ∃ j, s.WaitsFor i j := by
  constructor
  · rintro ⟨l, hwants, howner⟩
    obtain ⟨j, hj⟩ := Option.ne_none_iff_exists'.mp howner
    exact ⟨j, l, hwants, hj⟩
  · rintro ⟨j, l, hwants, howner⟩
    exact ⟨l, hwants, by simp [howner]⟩

/-- A thread that wants a lock is stuck just if it waits for it. -/
theorem stuck_iff (hrun : Run Server.Step {} es s) (halive : s.fault = none) {i : Sid} {l : Lock}
    (hwants : (s.thread i).wants i = some l) : (∀ c, s.next (.run i c) = none) ↔ s.Waiting i := by
  have hok := ok hrun i
  have hnext (c : Choice) : s.next (.run i c) = none ↔ s.shared.owner l ≠ none := by
    obtain ⟨a, t, hstep⟩ := Thread.next_of_wants hwants s.shared c
    have hacq := ((Thread.step_of_next hstep).acquires_eq hok).trans hwants
    rw [← Shared.apply_acquires i hacq]
    cases happly : s.shared.apply i a <;> simp [next, halive, hstep, happly]
  constructor
  · exact fun h => ⟨l, hwants, (hnext {}).mp (h {})⟩
  · rintro ⟨k, hwants', howner⟩ c
    obtain rfl : l = k := Option.some.inj (hwants.symm.trans hwants')
    exact (hnext c).mpr howner

theorem ordered (s : Server) :
    Ordered Lock.rank (fun i => (s.thread i).wants i) fun i => (s.thread i).holds i :=
  fun _ _ hwants _ hk => Thread.rank_lt_of_wants hwants hk

/-- No threads wait for each other in a circle, every chain of waiting threads ends at one that waits
for no lock, and no thread waits for a lock of its own, or for the semaphore with a lock in its hands. -/
theorem no_deadlock (hrun : Run Server.Step {} es s) :
    (∀ i, ¬ Relation.TransGen s.WaitsFor i i) ∧
      (∀ i, ∃ j, Relation.ReflTransGen s.WaitsFor i j ∧ ¬ s.Waiting j) ∧
      (∀ i l, (s.thread i).wants i = some l → s.shared.owner l ≠ some i) ∧
      ∀ i, (s.thread i).pc = .dequeue .wait → ∀ l, s.shared.owner l ≠ some i := by
  have hagrees := locks_agree hrun
  have hordered := s.ordered
  refine ⟨acyclic hagrees hordered, fun i => ?_, fun i l hwants => ?_, fun i hpc l howner => ?_⟩
  · obtain ⟨j, hchain, hend⟩ := chain_ends hagrees hordered i
    exact ⟨j, hchain, fun hwait => (waiting_iff.mp hwait).elim hend⟩
  · exact not_self hagrees hordered hwants
  · have hheld : l ∈ (s.thread i).holds i := (hagrees l i).mp howner
    rw [Thread.holds_idle (.inl (by rw [hpc]; rfl))] at hheld
    exact Set.notMem_empty l hheld

/-- A sender that is adding itself to a room, and another one that is about to. -/
private def crowd : List Sched :=
  .client 0 "slogin:alice\njoin:lobby\n" :: Sched.steps 0 8 ++
    .client 1 "slogin:bob\njoin:lobby\n" :: Sched.steps 1 7

theorem no_deadlock_crowd : ∃ es s, Run Server.Step {} es s ∧ s.WaitsFor 1 0 ∧
    (∃ j, Relation.ReflTransGen s.WaitsFor 1 j ∧ ¬ s.Waiting j) ∧
    ¬ Relation.TransGen s.WaitsFor 1 1 := by
  obtain ⟨⟨es, s⟩, h⟩ := Option.isSome_iff_exists.mp (show (outcome crowd).isSome = true by decide)
  have hwants : (outcome crowd).map (fun p => ((p.2.thread 1).wants 1, p.2.shared.owner (.room 0))) =
      some (some (.room 0), some 0) := rfl
  rw [h] at hwants
  obtain ⟨hwants, howner⟩ := Prod.mk.inj (Option.some.inj hwants)
  have hrun := run_of_outcome h
  obtain ⟨hacyclic, hends, -⟩ := no_deadlock hrun
  exact ⟨es, s, hrun, ⟨.room 0, hwants, howner⟩, hends 1, hacyclic 1⟩

end Server
end Chat
