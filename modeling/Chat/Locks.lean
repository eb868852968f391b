import Chat.Members
import Chat.Lib.Mutex

/-! Who holds which mutex: the owner recorded in a lock is the thread whose position is
inside the `Guard`. -/
namespace Chat
open Transition Traversal

namespace Pc

/-- The member that a broadcast is at. -/
def target : Pc → Option Sid
  | .broadcast (.loop (some u)) => some u
  | .broadcast (.enqueue u _ _) => some u
  | _ => none

/-- Inside the guard on a room. -/
def inRoom : Pc → Bool
  | .removeMember .body | .removeMember (.release _) | .addMember .body | .addMember (.release _)
  | .broadcast .start | .broadcast (.loop _) | .broadcast (.enqueue _ _ _) => true
  | _ => false

/-- Inside the guard on the registry. -/
def inRegistry : Pc → Bool
  | .findOrCreateRoom .body | .findOrCreateRoom (.release _) => true
  | _ => false

/-- The queue whose guard the position of thread `i` is inside. -/
def inQueue (i : Sid) : Pc → Option Sid
  | .broadcast (.enqueue u _ pc) => if pc = .lock then none else some u
  | .dequeue .pop | .dequeue (.ret _) => some i
  | _ => none

end Pc

namespace Thread

/-- The locks that thread `i` holds. -/
def holds (i : Sid) (t : Thread) : Set Lock := fun
  | .registry => t.pc.inRegistry = true
  | .room r => t.pc.inRoom = true ∧ t.room = some r
  | .queue u => t.pc.inQueue i = some u

variable {i : Sid} {σ : Shared} {t t' : Thread} {a : Action}

@[simp] theorem registry_mem_holds : .registry ∈ t.holds i ↔ t.pc.inRegistry = true := .rfl

@[simp] theorem room_mem_holds {r : RoomId} :
    .room r ∈ t.holds i ↔ t.pc.inRoom = true ∧ t.room = some r := .rfl

@[simp] theorem queue_mem_holds {u : Sid} : .queue u ∈ t.holds i ↔ t.pc.inQueue i = some u := .rfl

theorem holds_idle (h : t.pc.idle = true ∨ t.pc.early = true) : t.holds i = ∅ := by
  ext l
  generalize hp : t.pc = pc at h
  rcases h with h | h
  · cases pc with
    | removeMember pc | findOrCreateRoom pc | addMember pc | broadcast pc | dequeue pc =>
      cases pc <;> cases h <;> cases l <;> simp [hp, Pc.inRegistry, Pc.inRoom, Pc.inQueue]
    | _ => cases l <;> simp [hp, Pc.inRegistry, Pc.inRoom, Pc.inQueue]
  · cases pc <;> cases h <;> cases l <;> simp [hp, Pc.inRegistry, Pc.inRoom, Pc.inQueue]

/-- What a step does with the locks that its thread holds. -/
def Handles (i : Sid) (t : Thread) (a : Action) (t' : Thread) : Prop :=
  (∃ l, a.acquires = some l ∧ t'.holds i = insert l (t.holds i)) ∨
  (∃ l, a.releases = some l ∧ l ∈ t.holds i ∧ t'.holds i = t.holds i \ {l}) ∨
  a.acquires = none ∧ a.releases = none ∧ t'.holds i = t.holds i

private theorem Inner.handles (h : Inner i σ t a t') : Handles i t a t' := by
  cases h with
  | removeAcquire hpc hr | addAcquire hpc hr | broadcastAcquire hpc hr =>
    refine .inl ⟨_, rfl, ?_⟩
    ext l
    cases l <;> simp [hpc, hr, Pc.inRegistry, Pc.inRoom, Pc.inQueue, eq_comm]
  | findAcquire hpc =>
    refine .inl ⟨_, rfl, ?_⟩
    ext l
    cases l <;> simp [hpc, Pc.inRegistry, Pc.inRoom, Pc.inQueue]
  | findRelease hpc =>
    refine .inr (.inl ⟨_, rfl, ?_, ?_⟩)
    · simp [hpc, Pc.inRegistry]
    · ext l
      cases l <;> simp [hpc, Pc.inRegistry, Pc.inRoom, Pc.inQueue]
  | removeBody hpc | addBody hpc | findBody hpc | broadcastStart hpc | visitOther hpc
  | visitSame hpc =>
    refine .inr (.inr ⟨rfl, rfl, ?_⟩)
    ext l
    cases l <;> simp [hpc, Pc.inRegistry, Pc.inRoom, Pc.inQueue]
  | @enqueue r u msg pc a pc' hpc hr hnext =>
    cases pc with
    | lock =>
      cases hnext
      refine .inl ⟨_, rfl, ?_⟩
      ext l
      cases l <;> simp [hpc, Pc.inRegistry, Pc.inRoom, Pc.inQueue, eq_comm]
    | push | post =>
      cases hnext
      refine .inr (.inr ⟨rfl, rfl, ?_⟩)
      ext l
      cases l <;> simp [hpc, Pc.inRegistry, Pc.inRoom, Pc.inQueue]
    | unlock => cases hnext
  | enqueueEnd hpc hr =>
    refine .inr (.inl ⟨_, rfl, ?_, ?_⟩)
    · simp [hpc, Pc.inQueue]
    · ext l
      cases l <;> simp [hpc, Pc.inRegistry, Pc.inRoom, Pc.inQueue, eq_comm]
  | @dequeue pc timedOut a pc' hpc hnext =>
    cases pc with
    | wait =>
      cases timedOut <;> cases hnext
      all_goals
        refine .inr (.inr ⟨rfl, rfl, ?_⟩)
        ext l
        cases l <;> simp [hpc, Pc.inRegistry, Pc.inRoom, Pc.inQueue]
    | lock sem =>
      obtain ⟨rfl, rfl⟩ : .lock = a ∧ (if sem then .pop else .ret none) = pc' := by
        simpa [DequeuePc.next] using hnext
      refine .inl ⟨_, rfl, ?_⟩
      ext l
      cases sem <;> cases l <;> simp [hpc, Pc.inRegistry, Pc.inRoom, Pc.inQueue, eq_comm]
    | pop =>
      cases hq : (σ.user i).mqueue.mMessages with
      | nil => simp [DequeuePc.next, hq] at hnext
      | cons msg rest =>
        obtain ⟨rfl, rfl⟩ : .pop msg = a ∧ .ret (some msg) = pc' := by
          simpa [DequeuePc.next, hq] using hnext
        refine .inr (.inr ⟨rfl, rfl, ?_⟩)
        ext l
        cases l <;> simp [hpc, Pc.inRegistry, Pc.inRoom, Pc.inQueue]
    | ret msg => simp [DequeuePc.next] at hnext

theorem Step.handles (h : Step i σ t a t') : Handles i t a t' := by
  have hkeep : (t.pc.idle = true ∨ t.pc.early = true) → (t'.pc.idle = true ∨ t'.pc.early = true) →
      a.acquires = none → a.releases = none → Handles i t a t' := fun h₁ h₂ hacq hrel =>
    .inr (.inr ⟨hacq, hrel, (holds_idle h₂).trans (holds_idle h₁).symm⟩)
  have hrelease : ∀ l, t.holds i = {l} → t'.pc.idle = true → a.releases = some l →
      Handles i t a t' := fun l hl hidle hrel =>
    .inr (.inl ⟨l, hrel, by simp [hl], by simp [hl, holds_idle (.inl hidle)]⟩)
  cases h with
  | inner h => exact h.handles
  | removeRelease hpc hr | addRelease hpc hr | loopEnd hpc hr =>
    refine hrelease _ ?_ ?_ rfl
    · ext l
      cases l <;> simp [hpc, hr, Pc.inRegistry, Pc.inRoom, Pc.inQueue, eq_comm]
    · first | exact removed_idle _ | rfl
  | @dequeueEnd res hpc =>
    refine hrelease (.queue i) ?_ (dequeued_idle t res) rfl
    ext l
    cases l <;> simp [hpc, Pc.inRegistry, Pc.inRoom, Pc.inQueue, eq_comm]
  | accept _ _ _ hpc | loginFail hpc | loginOk hpc =>
    exact hkeep (.inr (by rw [hpc]; rfl)) (.inr rfl) rfl rfl
  | @loginReply accepted _ _ _ hpc =>
    refine hkeep (.inr (by rw [hpc]; rfl)) ?_ rfl rfl
    cases accepted with
    | true => exact .inr rfl
    | false => exact .inl rfl
  | newSender hpc => exact hkeep (.inr (by rw [hpc]; rfl)) (.inl (loopHead_idle _)) rfl rfl
  | newReceiver hpc => exact hkeep (.inr (by rw [hpc]; rfl)) (.inl rfl) rfl rfl
  | receiveFail hpc | close hpc => exact hkeep (.inl (by rw [hpc]; rfl)) (.inl rfl) rfl rfl
  | receiveOk hpc => exact hkeep (.inl (by rw [hpc]; rfl)) (.inl (dispatch_idle _ _ _)) rfl rfl
  | memberExists hpc => exact hkeep (.inl (by rw [hpc]; rfl)) (.inl (exists_idle _ _)) rfl rfl
  | @reply resp resume _ _ hpc =>
    exact hkeep (.inl (by rw [hpc]; rfl)) (.inl (resumed_idle _ resume)) rfl rfl
  | deliver hpc => exact hkeep (.inl (by rw [hpc]; rfl)) (.inl (loopHead_idle _)) rfl rfl
  | subscript | nullRoom | emptyQueue => exact .inr (.inr ⟨rfl, rfl, rfl⟩)

/-- The iterator of a broadcast only comes to members. -/
theorem Step.target_of (h : Step i σ t a t') {u : Sid} (hpc' : t'.pc.target = some u) :
    t.pc.target = some u ∧ t'.room = t.room ∨
      ∃ r, t.room = some r ∧ t'.room = some r ∧ u ∈ (σ.room r).members := by
  rcases h.shape with hidle | ⟨-, hearly⟩ | hinner | ⟨rfl, -⟩
  · generalize t'.pc = pc at hpc' hidle
    cases pc with
    | broadcast pc =>
      cases pc <;> cases hidle
      cases hpc'
    | _ => cases hpc'
  · generalize t'.pc = pc at hpc' hearly
    cases pc <;> cases hearly <;> cases hpc'
  · cases hinner with
    | @broadcastStart r hpc hr =>
      cases hit : first (σ.room r).members with
      | none => simp [hit, Pc.target] at hpc'
      | some v =>
        obtain rfl : v = u := by simpa [hit, Pc.target] using hpc'
        exact .inr ⟨r, hr, hr, mem_of_first hit⟩
    | visitOther hpc => exact .inl ⟨by rw [hpc]; exact hpc', rfl⟩
    | enqueue hpc => exact .inl ⟨by rw [hpc]; exact hpc', rfl⟩
    | @visitSame r w hpc hr | @enqueueEnd r w _ hpc hr =>
      cases hit : after (σ.room r).members w with
      | none => simp [hit, Pc.target] at hpc'
      | some v =>
        obtain rfl : v = u := by simpa [hit, Pc.target] using hpc'
        exact .inr ⟨r, hr, hr, mem_of_after hit⟩
    | _ => cases hpc'
  · exact .inl ⟨hpc', rfl⟩

/-- The users that a session acts on: its own, and the one that its broadcast is at. -/
theorem Step.user_of (h : Step i σ t a t') {u : Sid} (ha : a.user i = some u) :
    u = i ∧ t'.pc.early = false ∨ t.pc.target = some u := by
  cases h with
  | inner h =>
    cases h with
    | @dequeue pc timedOut a pc' hpc => exact .inl ⟨(Option.some.inj ha).symm, rfl⟩
    | enqueue hpc | enqueueEnd hpc => exact .inr (by rw [hpc]; exact ha)
    | _ => cases ha
  | newSender => exact .inl ⟨(Option.some.inj ha).symm, early_of_idle (loopHead_idle _)⟩
  | newReceiver => exact .inl ⟨(Option.some.inj ha).symm, rfl⟩
  | @dequeueEnd res =>
    exact .inl ⟨(Option.some.inj ha).symm, early_of_idle (dequeued_idle t res)⟩
  | _ => cases ha

end Thread

namespace Server

variable {s s' : Server} {e : Event}

/-- A user is blank until its session makes it, and broadcasts are at users that are made. -/
structure Newcomers (s : Server) : Prop where
  blank : ∀ u, (s.thread u).pc.early = true → s.shared.user u = {}
  target : ∀ i u, (s.thread i).pc.target = some u → (s.thread u).pc.early = false

theorem early_step (hs : s.Step e s') {u : Sid} (hu : (s.thread u).pc.early = false) :
    (s'.thread u).pc.early = false ∧ (s'.thread u).role = (s.thread u).role := by
  obtain ⟨i, a, t, σ, -, ht, -, -, rfl⟩ := hs.move
  by_cases hi : u = i
  · subst hi
    simpa using ht.role_eq hu
  · simp [hi, hu]

theorem not_early_of_member {es : List Event} {s : Server} (h : Run Server.Step {} es s) {u : Sid}
    {r : RoomId} (hu : u ∈ (s.shared.room r).members) : (s.thread u).pc.early = false := by
  by_contra hearly
  refine (membership h u).absent ?_ r hu
  generalize (s.thread u).pc = pc at hearly
  cases pc <;> first | rfl | exact absurd rfl hearly

theorem newcomers {es : List Event} {s : Server} (h : Run Server.Step {} es s) :
    Newcomers s := by
  refine h.invariant (fun _ s => Newcomers s) ⟨fun _ _ => rfl, fun _ _ h => by cases h⟩ ?_
  intro es s e s' hrun ih hs
  have htarget : ∀ i u, (s'.thread i).pc.target = some u → (s'.thread u).pc.early = false := by
    intro j u hu
    refine (early_step hs ?_).1
    obtain ⟨i, a, t, σ, -, ht, -, -, rfl⟩ := hs.move
    by_cases hj : j = i
    · subst hj
      rcases ht.target_of (by simpa using hu) with ⟨hold, -⟩ | ⟨r, -, -, hmem⟩
      · exact ih.target j u hold
      · exact not_early_of_member hrun hmem
    · exact ih.target j u (by simpa [hj] using hu)
  refine ⟨fun u hu => ?_, htarget⟩
  have hold : (s.thread u).pc.early = true := by
    by_contra hold
    rw [(early_step hs (Bool.eq_false_iff.mpr hold)).1] at hu
    cases hu
  obtain ⟨i, a, t, σ, -, ht, happly, -, rfl⟩ := hs.move
  have hframe : a.user i ≠ some u := fun ha => by
    rcases ht.user_of ha with ⟨rfl, hlate⟩ | hat
    · simp [hlate] at hu
    · simp [ih.target i u hat] at hold
  exact ((Shared.effect_of_apply happly).user_frame hframe).trans (ih.blank u hold)

/-- The owner of a lock is the thread whose position is inside its guard. -/
theorem locks_agree {es : List Event} {s : Server} (h : Run Server.Step {} es s) :
    Mutex.Agrees s.shared.owner fun i => (s.thread i).holds i := by
  refine h.invariant (fun _ s => Mutex.Agrees s.shared.owner fun i => (s.thread i).holds i) ?_ ?_
  · intro l i
    show _ ↔ l ∈ Thread.holds i {}
    rw [Thread.holds_idle (.inr rfl)]
    cases l <;> simp [Shared.owner]
  intro es s e s' hrun ih hs
  obtain ⟨i, a, t, σ, -, ht, happly, -, rfl⟩ := hs.move
  have heff := Shared.effect_of_apply happly
  have hthread : (fun j => (Function.update s.thread i t j).holds j) =
      Function.update (fun j => (s.thread j).holds j) i (t.holds i) := by
    funext j
    by_cases hj : j = i
    · subst hj
      simp
    · simp [hj]
  show Mutex.Agrees σ.owner _
  rw [hthread]
  have howner := heff.owner
    (fun n r ha hn => by
      subst ha
      have hr : r = s.shared.nRooms := by simpa [hn] using ht.find_of.2.2
      rw [(registered hrun).registry.fresh r hr.ge])
    (fun username ha => by
      subst ha
      rw [(newcomers hrun).blank i ht.newUser_of])
  obtain ⟨hacquire, hrelease, hkeep⟩ := howner
  rcases ht.handles with ⟨l, hacq, hholds⟩ | ⟨l, hrel, hl, hholds⟩ | ⟨hacq, hrel, hholds⟩
  · obtain ⟨hfree, hupdate⟩ := hacquire l hacq
    rw [hupdate]
    exact ih.acquire i hfree hholds
  · rw [hrelease l hrel]
    exact ih.release hl hholds
  · rw [hkeep hacq hrel]
    exact ih.keep hholds

end Server
end Chat
