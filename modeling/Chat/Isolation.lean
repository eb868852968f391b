import Chat.Locks
import Chat.Lib.Interleave

/-! Rooms do not interfere: no user is in two rooms, and broadcasts on different rooms commute however
their steps are interleaved. -/
namespace Chat
open Transition Traversal Interleave Relation

/-- A call of `broadcast_message` on `room` by the thread `actor`. -/
structure BroadcastCall where
  actor : Sid
  room : RoomId
  sender : Bytes
  text : Bytes

/-- The action is on the room `r`, or on the queue of one of `us`. -/
def Action.Within (r : RoomId) (us : Finset Sid) : Action → Prop
  | .broadcast q _ _ | .begin q | .visit q _ _ | .unlock (.room q) => q = r
  | .queue u _ => u ∈ us
  | _ => False

namespace BroadcastCall

/-- The next action of the call, and the position after it if the call goes on. -/
def next (c : BroadcastCall) (σ : Shared) : BroadcastPc → Action × Option BroadcastPc
  | .acquire => (.broadcast c.room c.sender c.text, some .start)
  | .start => (.begin c.room, some (.loop (first (σ.room c.room).members)))
  | .loop none => (.unlock (.room c.room), none)
  | .loop (some u) =>
    if (σ.user u).username ≠ c.sender then
      let msg := delivery (σ.room c.room).roomName c.sender c.text
      (.visit c.room u (some msg), some (.enqueue u msg .lock))
    else (.visit c.room u none, some (.loop (after (σ.room c.room).members u)))
  | .enqueue u msg pc =>
    match pc.next msg with
    | (a, some pc) => (.queue u a, some (.enqueue u msg pc))
    | (a, none) => (.queue u a, some (.loop (after (σ.room c.room).members u)))

/-- One step of the call; `none` where it has to wait for a lock. -/
def step (c : BroadcastCall) (σ : Shared) (pc : BroadcastPc) : Option (Shared × Option BroadcastPc) :=
  (σ.apply c.actor (c.next σ pc).1).map fun σ' => (σ', (c.next σ pc).2)

/-- The call goes from the position `pc` to its return. -/
inductive Runs (c : BroadcastCall) : Shared → Option BroadcastPc → Shared → Prop
  | ret {σ} : Runs c σ none σ
  | step {σ pc σ₁ pc' σ'} : c.step σ pc = some (σ₁, pc') → Runs c σ₁ pc' σ' → Runs c σ (some pc) σ'

/-- No thread owns a lock that the call takes. -/
structure Free (c : BroadcastCall) (σ : Shared) : Prop where
  room : (σ.room c.room).lock = none
  queue : ∀ u ∈ (σ.room c.room).members, (σ.user u).mqueue.mLock = none

end BroadcastCall

/-- What a thread in `broadcast_message` does is a call of it, with the session's name and message. -/
theorem Thread.next_broadcast {t : Thread} {pc : BroadcastPc} {r : RoomId} (hpc : t.pc = .broadcast pc)
    (hr : t.room = some r) (i : Sid) (σ : Shared) (choice : Choice) :
    let call : BroadcastCall := ⟨i, r, (σ.user i).username, t.msg.data⟩
    t.next i σ choice = some ((call.next σ pc).1,
      { t with pc := match (call.next σ pc).2 with
        | some pc => .broadcast pc
        | none => .reply sendallOk .loop }) := by
  cases pc with
  | acquire | start => simp [next, hpc, hr, deref, BroadcastCall.next]
  | loop it =>
    cases it with
    | none => simp [next, hpc, hr, deref, BroadcastCall.next]
    | some u =>
      by_cases hname : (σ.user u).username = (σ.user i).username <;>
        simp [next, hpc, hr, deref, BroadcastCall.next, hname]
  | enqueue u msg pc => cases pc <;> simp [next, hpc, hr, deref, BroadcastCall.next, EnqueuePc.next]

/-- A server step of a thread in `broadcast_message` is a step of its call. -/
theorem Server.Step.broadcast {s s' : Server} {e : Event} (hs : s.Step e s') {pc : BroadcastPc}
    {r : RoomId} (hpc : (s.thread e.session).pc = .broadcast pc)
    (hr : (s.thread e.session).room = some r) :
    ∃ pc', (⟨e.session, r, (s.shared.user e.session).username, (s.thread e.session).msg.data⟩ :
        BroadcastCall).step s.shared pc = some (s'.shared, pc') ∧
      (s'.thread e.session).pc = match pc' with
        | some pc => .broadcast pc
        | none => .reply sendallOk .loop := by
  obtain ⟨choice, hnext⟩ := hs
  cases halive : s.fault with
  | some f => cases choice <;> simp [Server.next, halive] at hnext
  | none =>
    cases choice with
    | accept i fd reads writes =>
      cases hunborn : (s.thread i).pc with
      | unborn =>
        obtain ⟨rfl, -⟩ := by simpa [Server.next, halive, hunborn] using hnext
        simp [hunborn] at hpc
      | _ => simp [Server.next, halive, hunborn] at hnext
    | run i choice =>
      cases hthread : (s.thread i).next i s.shared choice with
      | none => simp [Server.next, halive, hthread] at hnext
      | some p =>
        cases happly : s.shared.apply i p.1 with
        | none => simp [Server.next, halive, hthread, happly] at hnext
        | some σ =>
          obtain ⟨rfl, rfl⟩ := by simpa [Server.next, halive, hthread, happly] using hnext
          dsimp only at hpc hr ⊢
          have hp := (Thread.next_broadcast hpc hr i s.shared choice).symm.trans hthread
          obtain rfl := Option.some.inj hp
          dsimp only at happly
          let call : BroadcastCall := ⟨i, r, (s.shared.user i).username, (s.thread i).msg.data⟩
          refine ⟨(call.next s.shared pc).2, ?_, ?_⟩
          · rw [BroadcastCall.step, happly]
            rfl
          · rw [Function.update_self]

/-- Broadcasts under way, each at its position, or returned. -/
structure Calls (ι : Type*) where
  shared : Shared
  pc : ι → Option BroadcastPc

/-- A step of the call number `k`. -/
def Calls.next {ι : Type*} [DecidableEq ι] (calls : ι → BroadcastCall) (s : Calls ι) (k : ι) :
    Option (Calls ι) :=
  (s.pc k).bind fun pc => ((calls k).step s.shared pc).map fun (shared, pc') =>
    ⟨shared, Function.update s.pc k pc'⟩

section Cells

variable {σ σ' σ₁ σ₂ : Shared} {i j : Sid} {a b : Action} {r q : RoomId} {us vs : Finset Sid}

def roomCell (r : RoomId) : Cell Shared Room := ⟨fun σ => σ.room r, fun σ room => σ.setRoom r room⟩
def userCell (u : Sid) : Cell Shared User := ⟨fun σ => σ.user u, fun σ user => σ.setUser u user⟩

theorem roomCell_independent (h : r ≠ q) : (roomCell r).Independent (roomCell q) where
  get_left σ room := by simp [roomCell, Shared.setRoom, h]
  get_right σ room := by simp [roomCell, Shared.setRoom, h.symm]
  comm σ room room' := by simp [roomCell, Shared.setRoom, Function.update_comm h.symm]

theorem userCell_independent {u v : Sid} (h : u ≠ v) : (userCell u).Independent (userCell v) where
  get_left σ user := by simp [userCell, Shared.setUser, h]
  get_right σ user := by simp [userCell, Shared.setUser, h.symm]
  comm σ user user' := by simp [userCell, Shared.setUser, Function.update_comm h.symm]

theorem roomCell_userCell (r : RoomId) (u : Sid) : (roomCell r).Independent (userCell u) :=
  ⟨fun _ _ => rfl, fun _ _ => rfl, fun _ _ _ => rfl⟩

/-- What the action does, it does to its room or to the one queue. -/
theorem Action.Within.lift (h : a.Within r us) (i : Sid) :
    (∃ f, ∀ σ, σ.apply i a = (roomCell r).lift f σ) ∨
      ∃ u ∈ us, ∃ f, ∀ σ, σ.apply i a = (userCell u).lift f σ := by
  cases a with
  | broadcast q sender text =>
    obtain rfl : q = r := h
    refine .inl ⟨fun room => if room.lock.isNone then some { room with lock := some i } else none, ?_⟩
    intro σ
    cases hlock : (σ.room q).lock <;> simp [Shared.apply, Cell.lift, roomCell, Shared.setOwner, hlock]
  | begin q =>
    obtain rfl : q = r := h
    exact .inl ⟨some, fun σ => by simp [Shared.apply, Cell.lift, roomCell, Shared.setRoom]⟩
  | visit q u msg =>
    obtain rfl : q = r := h
    cases msg with
    | none => exact .inl ⟨some, fun σ => by simp [Shared.apply, Cell.lift, roomCell, Shared.setRoom]⟩
    | some msg =>
      exact .inl ⟨fun room => some { room with roomName := removeNewline room.roomName }, fun σ => rfl⟩
  | unlock l =>
    cases l with
    | room q =>
      obtain rfl : q = r := h
      exact .inl ⟨fun room => some { room with lock := none }, fun σ => rfl⟩
    | registry | queue => exact h.elim
  | queue u a =>
    refine .inr ⟨u, h, fun user => (user.mqueue.apply i a).map fun mqueue => { user with mqueue }, ?_⟩
    intro σ
    cases hq : (σ.user u).mqueue.apply i a <;> simp [Shared.apply, Cell.lift, userCell, hq]
  | _ => exact h.elim

/-- Actions within different rooms and disjoint sets of users commute. -/
theorem Action.Within.comm (ha : a.Within r us) (hb : b.Within q vs) (hr : r ≠ q)
    (hdisjoint : Disjoint us vs) (h₁ : σ.apply i a = some σ₁) (h₂ : σ.apply j b = some σ₂) :
    ∃ σ', σ₁.apply j b = some σ' ∧ σ₂.apply i a = some σ' := by
  rcases ha.lift i with ⟨f, hf⟩ | ⟨u, hu, f, hf⟩ <;> rcases hb.lift j with ⟨g, hg⟩ | ⟨v, hv, g, hg⟩ <;>
    simp only [hf, hg] at h₁ h₂ ⊢
  · exact (roomCell_independent hr).lift_comm h₁ h₂
  · exact (roomCell_userCell r v).lift_comm h₁ h₂
  · exact (roomCell_userCell q u).symm.lift_comm h₁ h₂
  · have huv : u ≠ v := fun h => Finset.disjoint_left.mp hdisjoint hu (h ▸ hv)
    exact (userCell_independent huv).lift_comm h₁ h₂

/-- No such action changes a set of members, a name of a user, or another room. -/
theorem Action.Within.frame (ha : a.Within r us) (h : σ.apply i a = some σ') :
    (∀ p, (σ'.room p).members = (σ.room p).members) ∧ (∀ p, p ≠ r → σ'.room p = σ.room p) ∧
      ∀ u, (σ'.user u).username = (σ.user u).username := by
  have heff := Shared.effect_of_apply h
  have hfind : ∀ n p, a ≠ .findOrCreateRoom n p := by rintro n p rfl; exact ha
  have hnew : ∀ n, a ≠ .newUser n := by rintro n rfl; exact ha
  have hinsert : ∀ p, a ≠ .insert p := by rintro p rfl; exact ha
  have herase : ∀ p, a ≠ .erase p := by rintro p rfl; exact ha
  refine ⟨fun p => ?_, fun p hp => ?_, fun u => ?_⟩
  · ext u
    rw [heff.members fun n hn => absurd hn (hfind n p)]
    simp [hinsert p, herase p]
  · refine heff.room_frame (fun hroom => hp ?_) fun n hn => absurd hn (hfind n p)
    cases a with
    | unlock l => cases l <;> first | exact ha.elim | exact (Option.some.inj hroom).symm.trans ha
    | broadcast | begin | visit => exact (Option.some.inj hroom).symm.trans ha
    | queue => cases hroom
    | _ => exact ha.elim
  · exact heff.username fun n hn => absurd hn (hnew n)

end Cells

namespace BroadcastCall

variable {c : BroadcastCall} {σ σ' : Shared} {pc pc' : BroadcastPc}

/-- The call is at a member of its room, if it is at any. -/
def AtMember (c : BroadcastCall) (σ : Shared) (pc : BroadcastPc) : Prop :=
  ∀ u, (Pc.broadcast pc).target = some u → u ∈ (σ.room c.room).members

theorem AtMember.loop {it : Option Sid} (h : ∀ u, it = some u → u ∈ (σ.room c.room).members) :
    c.AtMember σ (.loop it) := by
  intro u hu
  cases it with
  | none => cases hu
  | some v => exact h u hu

theorem AtMember.within (h : c.AtMember σ pc) :
    (c.next σ pc).1.Within c.room (σ.room c.room).members := by
  cases pc with
  | acquire | start => rfl
  | loop it =>
    cases it with
    | none => rfl
    | some u => by_cases hname : (σ.user u).username = c.sender <;> simp [next, hname, Action.Within]
  | enqueue u msg pc =>
    have hu : u ∈ (σ.room c.room).members := h u rfl
    cases pc <;> exact hu

theorem AtMember.next (h : c.AtMember σ pc) (hpc' : (c.next σ pc).2 = some pc') :
    c.AtMember σ pc' := by
  cases pc with
  | acquire =>
    cases hpc'
    nofun
  | start =>
    cases hpc'
    exact .loop fun u => mem_of_first
  | loop it =>
    cases it with
    | none => cases hpc'
    | some u =>
      by_cases hname : (σ.user u).username = c.sender
      · obtain rfl : .loop (after (σ.room c.room).members u) = pc' := by
          simpa [BroadcastCall.next, hname] using hpc'
        exact .loop fun v => mem_of_after
      · obtain rfl : .enqueue u (delivery (σ.room c.room).roomName c.sender c.text) .lock = pc' := by
          simpa [BroadcastCall.next, hname] using hpc'
        exact h
  | enqueue u msg pc =>
    cases pc with
    | unlock =>
      cases hpc'
      exact .loop fun v => mem_of_after
    | lock | push | post =>
      cases hpc'
      exact h

/-- The call depends on its room and on the users' names only. -/
theorem next_congr (hroom : σ'.room c.room = σ.room c.room)
    (hname : ∀ u, (σ'.user u).username = (σ.user u).username) (pc : BroadcastPc) :
    c.next σ' pc = c.next σ pc := by
  cases pc with
  | loop it => cases it <;> simp only [next, hroom, hname]
  | _ => simp only [next, hroom]

private theorem step_queue {u : Sid} {msg : Message} {pc : EnqueuePc} {pc' : Option BroadcastPc}
    {a : QueueAction Message} {mqueue : MessageQueue Sid Message}
    (hnext : c.next σ (.enqueue u msg pc) = (.queue u a, pc'))
    (hq : (σ.user u).mqueue.apply c.actor a = some mqueue) :
    ∃ σ₁, c.step σ (.enqueue u msg pc) = some (σ₁, pc') ∧ σ₁.room = σ.room ∧
      (σ₁.user u).mqueue = mqueue ∧ ∀ v, v ≠ u → σ₁.user v = σ.user v := by
  refine ⟨σ.setUser u { σ.user u with mqueue }, ?_, rfl, ?_, fun v hv => ?_⟩
  · simp [step, hnext, Shared.apply, hq]
  · simp [Shared.setUser]
  · simp [Shared.setUser, hv]

/-- An `enqueue` on a free queue goes through, and leaves the queue free. -/
private theorem runs_enqueue {u : Sid} (hfree : (σ.user u).mqueue.mLock = none) (msg : Message) :
    ∃ σ₁, σ₁.room = σ.room ∧ (∀ v, (σ₁.user v).mqueue.mLock = (σ.user v).mqueue.mLock) ∧
      ∀ σ', c.Runs σ₁ (some (.loop (after (σ.room c.room).members u))) σ' →
        c.Runs σ (some (.enqueue u msg .lock)) σ' := by
  have hlock : (σ.user u).mqueue.apply c.actor .lock =
      some { (σ.user u).mqueue with mLock := some c.actor } := by simp [MessageQueue.apply, hfree]
  obtain ⟨σ₁, hstep₁, hroom₁, -, hother₁⟩ := @step_queue c σ u msg .lock _ _ _ rfl hlock
  obtain ⟨σ₂, hstep₂, hroom₂, -, hother₂⟩ := @step_queue c σ₁ u msg .push _ _ _ rfl rfl
  obtain ⟨σ₃, hstep₃, hroom₃, -, hother₃⟩ := @step_queue c σ₂ u msg .post _ _ _ rfl rfl
  obtain ⟨σ₄, hstep₄, hroom₄, hqueue₄, hother₄⟩ := @step_queue c σ₃ u msg .unlock _ _ _ rfl rfl
  have hroom : σ₃.room = σ.room := hroom₃.trans (hroom₂.trans hroom₁)
  rw [hroom] at hstep₄
  refine ⟨σ₄, hroom₄.trans hroom, fun v => ?_, fun σ' h =>
    .step hstep₁ (.step hstep₂ (.step hstep₃ (.step hstep₄ h)))⟩
  by_cases hv : v = u
  · rw [hv, hqueue₄, hfree]
  · rw [hother₄ v hv, hother₃ v hv, hother₂ v hv, hother₁ v hv]

private theorem runs_loop {us : Finset Sid} {it : Option Sid} (hit : ∀ u, it = some u → u ∈ us) :
    ∀ σ, (σ.room c.room).members = us → (∀ u ∈ us, (σ.user u).mqueue.mLock = none) →
      ∃ σ', c.Runs σ (some (.loop it)) σ' := by
  refine @traverse _ _ us (fun it => ∀ σ, (σ.room c.room).members = us →
    (∀ u ∈ us, (σ.user u).mqueue.mLock = none) → ∃ σ', c.Runs σ (some (.loop it)) σ') ?_ ?_ _ hit
  · intro σ _ _
    exact ⟨_, .step (show c.step σ (.loop none) = some (_, none) from rfl) .ret⟩
  · intro u hu ih σ hmembers hfree
    by_cases hname : (σ.user u).username = c.sender
    · obtain ⟨σ', h⟩ := ih σ hmembers hfree
      have hstep : c.step σ (.loop (some u)) = some (σ, some (.loop (after us u))) := by
        simp [step, next, hname, Shared.apply, hmembers]
      exact ⟨σ', .step hstep h⟩
    · let σ₁ := σ.setRoom c.room
        { σ.room c.room with roomName := removeNewline (σ.room c.room).roomName }
      have hstep : c.step σ (.loop (some u)) = some (σ₁,
          some (.enqueue u (delivery (σ.room c.room).roomName c.sender c.text) .lock)) := by
        simp [step, next, hname, Shared.apply, σ₁]
      have hmembers₁ : (σ₁.room c.room).members = us := by simpa [σ₁, Shared.setRoom] using hmembers
      obtain ⟨σ₂, hroom₂, hlock₂, hruns⟩ :=
        @runs_enqueue c σ₁ u (hfree u hu) (delivery (σ.room c.room).roomName c.sender c.text)
      rw [hmembers₁] at hruns
      obtain ⟨σ', h⟩ := ih σ₂ (by rw [hroom₂, hmembers₁])
        fun v hv => (hlock₂ v).trans (hfree v hv)
      exact ⟨σ', .step hstep (hruns σ' h)⟩

/-- A call that finds its locks free returns. -/
theorem Free.runs (h : c.Free σ) : ∃ σ', c.Runs σ (some .acquire) σ' := by
  let σ₁ := σ.setOwner (.room c.room) (some c.actor)
  have hacquire : c.step σ .acquire = some (σ₁, some .start) := by
    simp [step, next, Shared.apply, h.room, σ₁]
  have hmembers : (σ₁.room c.room).members = (σ.room c.room).members := by
    simp [σ₁]
  have hstart : c.step σ₁ .start = some (σ₁, some (.loop (first (σ₁.room c.room).members))) := rfl
  obtain ⟨σ', hruns⟩ := @runs_loop c _ _ (fun _ => mem_of_first) σ₁ rfl
    fun u hu => h.queue u (hmembers ▸ hu)
  exact ⟨σ', .step hacquire (.step hstart hruns)⟩

end BroadcastCall

namespace Calls

variable {ι : Type*} [DecidableEq ι] {calls : ι → BroadcastCall} {s s' s₁ s₂ : Calls ι} {k l : ι}

theorem next_eq_some : s.next calls k = some s' ↔ ∃ pc σ, s.pc k = some pc ∧
    s.shared.apply (calls k).actor ((calls k).next s.shared pc).1 = some σ ∧
    s' = ⟨σ, Function.update s.pc k ((calls k).next s.shared pc).2⟩ := by
  simp only [next, BroadcastCall.step, Option.bind_eq_some_iff, Option.map_map, Option.map_eq_some_iff]
  constructor
  · rintro ⟨pc, hpc, σ, hσ, rfl⟩
    exact ⟨pc, σ, hpc, hσ, rfl⟩
  · rintro ⟨pc, σ, hpc, hσ, rfl⟩
    exact ⟨pc, hpc, σ, hσ, rfl⟩

/-- The calls are on rooms without common members, each at a member of its own. -/
structure Apart (calls : ι → BroadcastCall) (s : Calls ι) : Prop where
  disjoint : ∀ k l, k ≠ l → Disjoint (s.shared.room (calls k).room).members
    (s.shared.room (calls l).room).members
  member : ∀ k pc, s.pc k = some pc → (calls k).AtMember s.shared pc

private theorem Apart.keep (h : s.Apart calls) (hs : s.next calls k = some s') : s'.Apart calls := by
  obtain ⟨pc, σ, hpc, hσ, rfl⟩ := next_eq_some.mp hs
  have hat := h.member k pc hpc
  obtain ⟨hmembers, -, -⟩ := hat.within.frame hσ
  refine ⟨fun i j hij => ?_, fun j q hq => ?_⟩
  · simpa only [hmembers] using h.disjoint i j hij
  · have hsame (hj : (calls j).AtMember s.shared q) : (calls j).AtMember σ q := fun u hu => by
      rw [hmembers]
      exact hj u hu
    by_cases hj : j = k
    · subst hj
      exact hsame (hat.next (by simpa using hq))
    · exact hsame (h.member j q (by simpa [hj] using hq))

/-- Steps of broadcasts on different rooms commute. -/
theorem commuting (hrooms : ∀ k l, k ≠ l → (calls k).room ≠ (calls l).room) :
    Commuting (next calls) (Apart calls) where
  keep _ _ _ := Apart.keep
  comm s k l s₁ s₂ h hkl h₁ h₂ := by
    obtain ⟨pc, σ₁, hpc, hσ₁, rfl⟩ := next_eq_some.mp h₁
    obtain ⟨qc, σ₂, hqc, hσ₂, rfl⟩ := next_eq_some.mp h₂
    have hk := (h.member k pc hpc).within
    have hl := (h.member l qc hqc).within
    obtain ⟨-, hroom₁, hname₁⟩ := hk.frame hσ₁
    obtain ⟨-, hroom₂, hname₂⟩ := hl.frame hσ₂
    obtain ⟨σ, hσ₁l, hσ₂k⟩ := hk.comm hl (hrooms k l hkl) (h.disjoint k l hkl) hσ₁ hσ₂
    have hnext₁ := BroadcastCall.next_congr (hroom₁ _ (hrooms l k hkl.symm)) hname₁ qc
    have hnext₂ := BroadcastCall.next_congr (hroom₂ _ (hrooms k l hkl)) hname₂ pc
    refine ⟨⟨σ, Function.update (Function.update s.pc k ((calls k).next s.shared pc).2) l
      ((calls l).next s.shared qc).2⟩, next_eq_some.mpr ⟨qc, σ, ?_, ?_, ?_⟩,
      next_eq_some.mpr ⟨pc, σ, ?_, ?_, ?_⟩⟩
    · simp [hkl.symm, hqc]
    · rw [hnext₁, hσ₁l]
    · rw [hnext₁]
    · simp [hkl, hpc]
    · rw [hnext₂, hσ₂k]
    · rw [hnext₂, Function.update_comm hkl]

/-- A call that runs alone is one of the interleavings. -/
theorem steps_of_runs {σ σ' : Shared} {pc : Option BroadcastPc} (h : (calls k).Runs σ pc σ')
    {pcs : ι → Option BroadcastPc} (hpc : pcs k = pc) :
    ReflTransGen (Interleave.Step (next calls)) ⟨σ, pcs⟩ ⟨σ', Function.update pcs k none⟩ := by
  induction h generalizing pcs with
  | ret => rw [← hpc, Function.update_eq_self]
  | @step σ pc σ₁ pc' σ' hstep _ ih =>
    have hnext : next calls ⟨σ, pcs⟩ k = some ⟨σ₁, Function.update pcs k pc'⟩ := by
      simp [next, hpc, hstep]
    have hrest := @ih (Function.update pcs k pc') (by simp)
    rw [Function.update_idem] at hrest
    exact .head ⟨k, hnext⟩ hrest

/-- Where the other calls have returned, the one that is left runs alone. -/
theorem runs_of_steps (h : ReflTransGen (Interleave.Step (next calls)) s s')
    (hothers : ∀ l, l ≠ k → s.pc l = none) (hend : s'.pc k = none) :
    (calls k).Runs s.shared (s.pc k) s'.shared := by
  induction h using ReflTransGen.head_induction_on with
  | refl =>
    rw [hend]
    exact .ret
  | @head s₁ _ hstep _ ih =>
    obtain ⟨l, hl⟩ := hstep
    obtain ⟨pc, σ, hpc, hσ, rfl⟩ := next_eq_some.mp hl
    by_cases hlk : l = k
    · subst hlk
      have hrest := ih fun j hj => by simpa [hj] using hothers j hj
      dsimp only at hrest
      rw [Function.update_self] at hrest
      have hstep : (calls l).step s₁.shared pc = some (σ, ((calls l).next s₁.shared pc).2) := by
        rw [BroadcastCall.step, hσ]
        rfl
      rw [hpc]
      exact .step hstep hrest
    · rw [hothers l hlk] at hpc
      cases hpc

theorem returned (h : ReflTransGen (Interleave.Step (next calls)) s s') (hpc : s.pc k = none) :
    s'.pc k = none := by
  induction h with
  | refl => exact hpc
  | tail _ hstep ih =>
    obtain ⟨l, hl⟩ := hstep
    obtain ⟨pc, σ, hpc', -, rfl⟩ := next_eq_some.mp hl
    by_cases hlk : k = l
    · subst hlk
      rw [ih] at hpc'
      cases hpc'
    · simpa [hlk] using ih

theorem halted (σ : Shared) : Halted (next calls) ⟨σ, fun _ => none⟩ := fun _ => rfl

end Calls

/-- Two calls, as a family. -/
def pair (c₁ c₂ : BroadcastCall) (second : Bool) : BroadcastCall := if second then c₂ else c₁

/-- Both calls, from their beginning to their return, with their steps in any order. -/
def Interleaved (c₁ c₂ : BroadcastCall) (σ σ' : Shared) : Prop :=
  ReflTransGen (Interleave.Step (Calls.next (pair c₁ c₂)))
    ⟨σ, fun _ => some .acquire⟩ ⟨σ', fun _ => none⟩

section Pair

variable {c₁ c₂ : BroadcastCall} {σ σ₁ σ' : Shared}

private theorem pair_ne (h : c₁.room ≠ c₂.room) (k l : Bool) (hkl : k ≠ l) :
    (pair c₁ c₂ k).room ≠ (pair c₁ c₂ l).room := by
  cases k <;> cases l
  · exact absurd rfl hkl
  · exact h
  · exact h.symm
  · exact absurd rfl hkl

/-- One call after the other is an interleaving, in either order. -/
theorem interleaved_of_runs (first : Bool)
    (h₁ : (pair c₁ c₂ first).Runs σ (some .acquire) σ₁)
    (h₂ : (pair c₁ c₂ !first).Runs σ₁ (some .acquire) σ') : Interleaved c₁ c₂ σ σ' := by
  have hsteps₁ := @Calls.steps_of_runs Bool _ (pair c₁ c₂) first _ _ _ h₁ (fun _ => some .acquire) rfl
  have hsteps₂ := @Calls.steps_of_runs Bool _ (pair c₁ c₂) (!first) _ _ _ h₂
    (Function.update (fun _ => some .acquire) first none) (by simp)
  have hreturned : Function.update (Function.update (fun _ => some BroadcastPc.acquire) first none)
      (!first) none = fun _ => none := by
    funext k
    cases k <;> cases first <;> rfl
  rw [hreturned] at hsteps₂
  exact hsteps₁.trans hsteps₂

end Pair

namespace Server

variable {es : List Event} {s : Server}

theorem members_disjoint (hrun : Run Server.Step {} es s) {r q : RoomId} (h : r ≠ q) :
    Disjoint (s.shared.room r).members (s.shared.room q).members := by
  refine Finset.disjoint_left.mpr fun u hr hq => h ?_
  have hpointer := (membership hrun u).pointer
  exact Option.some.inj ((hpointer r hr).symm.trans (hpointer q hq))

variable {c₁ c₂ : BroadcastCall}

private theorem apart_start (hrun : Run Server.Step {} es s) (h : c₁.room ≠ c₂.room) :
    (⟨s.shared, fun _ => some .acquire⟩ : Calls Bool).Apart (pair c₁ c₂) where
  disjoint k l hkl := members_disjoint hrun (pair_ne h k l hkl)
  member k pc hpc := by
    obtain rfl := Option.some.inj hpc
    nofun

/-- If both calls find their locks free, there is an end that all interleavings come to. -/
private theorem free_interleaved (hrun : Run Server.Step {} es s) (h : c₁.room ≠ c₂.room)
    (hfree₁ : c₁.Free s.shared) (hfree₂ : c₂.Free s.shared) :
    ∃ σ σ₁ σ₂, c₁.Runs s.shared (some .acquire) σ₁ ∧ c₂.Runs σ₁ (some .acquire) σ ∧
      c₂.Runs s.shared (some .acquire) σ₂ ∧ c₁.Runs σ₂ (some .acquire) σ := by
  obtain ⟨σ₁, hruns₁⟩ := hfree₁.runs
  obtain ⟨σ₂, hruns₂⟩ := hfree₂.runs
  have hsteps₁ := @Calls.steps_of_runs Bool _ (pair c₁ c₂) false _ _ _ hruns₁
    (fun _ => some .acquire) rfl
  have hsteps₂ := @Calls.steps_of_runs Bool _ (pair c₁ c₂) true _ _ _ hruns₂
    (fun _ => some .acquire) rfl
  obtain ⟨t, ht₁, ht₂⟩ :=
    (Calls.commuting (pair_ne h)).confluent (apart_start hrun h) hsteps₁ hsteps₂
  have hfalse : t.pc false = none := Calls.returned ht₁ (by simp)
  have htrue : t.pc true = none := Calls.returned ht₂ (by simp)
  refine ⟨t.shared, σ₁, σ₂, hruns₁, ?_, hruns₂, ?_⟩
  · exact Calls.runs_of_steps ht₁ (fun l hl => by cases l <;> simp at hl ⊢) htrue
  · exact Calls.runs_of_steps ht₂ (fun l hl => by cases l <;> simp at hl ⊢) hfalse

/-- No two rooms have a common member; and two broadcasts on different rooms come to one and the same
end in either order and however their steps are interleaved, an end that they do come to from every
point on the way if no other thread is in the guards they need. -/
theorem rooms_isolated (hrun : Run Server.Step {} es s) :
    (∀ r q, r ≠ q → Disjoint (s.shared.room r).members (s.shared.room q).members) ∧
      ∀ c₁ c₂ : BroadcastCall, c₁.room ≠ c₂.room →
        (∀ σ σ', Interleaved c₁ c₂ s.shared σ → Interleaved c₁ c₂ s.shared σ' → σ = σ') ∧
        (∀ σ₁ σ, c₁.Runs s.shared (some .acquire) σ₁ → c₂.Runs σ₁ (some .acquire) σ →
          Interleaved c₁ c₂ s.shared σ) ∧
        (∀ σ₂ σ, c₂.Runs s.shared (some .acquire) σ₂ → c₁.Runs σ₂ (some .acquire) σ →
          Interleaved c₁ c₂ s.shared σ) ∧
        (c₁.Free s.shared → c₂.Free s.shared →
          ∃ σ σ₁ σ₂, c₁.Runs s.shared (some .acquire) σ₁ ∧ c₂.Runs σ₁ (some .acquire) σ ∧
            c₂.Runs s.shared (some .acquire) σ₂ ∧ c₁.Runs σ₂ (some .acquire) σ ∧
            ∀ t, ReflTransGen (Interleave.Step (Calls.next (pair c₁ c₂)))
                ⟨s.shared, fun _ => some .acquire⟩ t →
              ReflTransGen (Interleave.Step (Calls.next (pair c₁ c₂))) t ⟨σ, fun _ => none⟩) := by
  refine ⟨fun r q => members_disjoint hrun, fun c₁ c₂ h => ?_⟩
  have hcomm := Calls.commuting (pair_ne h)
  have hstart := apart_start hrun h
  refine ⟨fun σ σ' hσ hσ' => ?_, fun σ₁ σ => interleaved_of_runs false,
    fun σ₂ σ => interleaved_of_runs true, fun hfree₁ hfree₂ => ?_⟩
  · exact congrArg Calls.shared
      (hcomm.end_unique hstart hσ hσ' (Calls.halted σ) (Calls.halted σ'))
  · obtain ⟨σ, σ₁, σ₂, hruns₁, hruns₁₂, hruns₂, hruns₂₁⟩ := free_interleaved hrun h hfree₁ hfree₂
    refine ⟨σ, σ₁, σ₂, hruns₁, hruns₁₂, hruns₂, hruns₂₁, fun t ht => ?_⟩
    exact hcomm.ends hstart (interleaved_of_runs false hruns₁ hruns₁₂) ht (Calls.halted σ)

/-- A receiver in each of two rooms. -/
private def twoRooms : List Sched :=
  .client 0 "rlogin:bob\njoin:lobby\n" :: Sched.steps 0 11 ++
    .client 1 "rlogin:eve\njoin:den\n" :: Sched.steps 1 11

theorem rooms_isolated_twoRooms : ∃ es s, Run Server.Step {} es s ∧
    (s.shared.room 0).members = {0} ∧ (s.shared.room 1).members = {1} ∧
    ∃ σ, Interleaved ⟨2, 0, str "alice\n", str "hi\n"⟩ ⟨3, 1, str "carol\n", str "ho\n"⟩ s.shared σ ∧
      ∀ σ', Interleaved ⟨2, 0, str "alice\n", str "hi\n"⟩ ⟨3, 1, str "carol\n", str "ho\n"⟩ s.shared σ' →
        σ = σ' := by
  obtain ⟨⟨es, s⟩, h⟩ := Option.isSome_iff_exists.mp (show (outcome twoRooms).isSome = true by decide)
  have hmembers : (outcome twoRooms).map (fun p => ((p.2.shared.room 0).members,
      (p.2.shared.room 1).members)) = some ({0}, {1}) := by decide
  have hlocks : (outcome twoRooms).map (fun p => ((p.2.shared.room 0).lock, (p.2.shared.room 1).lock,
      (p.2.shared.user 0).mqueue.mLock, (p.2.shared.user 1).mqueue.mLock)) =
      some (none, none, none, none) := by decide
  rw [h] at hmembers hlocks
  obtain ⟨hmembers₀, hmembers₁⟩ : (s.shared.room 0).members = {0} ∧ (s.shared.room 1).members = {1} := by
    simpa using hmembers
  obtain ⟨hroom₀, hroom₁, hqueue₀, hqueue₁⟩ : (s.shared.room 0).lock = none ∧
      (s.shared.room 1).lock = none ∧ (s.shared.user 0).mqueue.mLock = none ∧
      (s.shared.user 1).mqueue.mLock = none := by simpa using hlocks
  have hrun := run_of_outcome h
  obtain ⟨hsame, hfirst, -, hends⟩ := (rooms_isolated hrun).2
    ⟨2, 0, str "alice\n", str "hi\n"⟩ ⟨3, 1, str "carol\n", str "ho\n"⟩ (by decide)
  have hfree₀ : ∀ u ∈ (s.shared.room 0).members, (s.shared.user u).mqueue.mLock = none := by
    simpa [hmembers₀] using hqueue₀
  have hfree₁ : ∀ u ∈ (s.shared.room 1).members, (s.shared.user u).mqueue.mLock = none := by
    simpa [hmembers₁] using hqueue₁
  obtain ⟨σ, σ₁, -, hruns₁, hruns₂, -⟩ := hends ⟨hroom₀, hfree₀⟩ ⟨hroom₁, hfree₁⟩
  have hσ := hfirst σ₁ σ hruns₁ hruns₂
  exact ⟨es, s, hrun, hmembers₀, hmembers₁, σ, hσ, fun σ' => hsame σ σ' hσ⟩

end Server
end Chat
