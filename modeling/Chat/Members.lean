import Chat.Registry

/-! Which rooms a user is a member of, from the position of its own session: the sets change
under the room's lock, but only by the session itself. -/
namespace Chat
open Transition

namespace Pc

/-- Where a session's user is in no room. -/
def absent : Pc → Bool
  | .unborn | .login | .loginReply _ | .newUser | .removeMember (.release _)
  | .findOrCreateRoom _ | .addMember .acquire | .addMember .body => true
  | _ => false

end Pc

namespace Thread

/-- Where a session's user is in the room that it points to. -/
def Present (t : Thread) : Prop :=
  (∃ pc, t.pc = .broadcast pc) ∨ t.pc = .addMember (.release ()) ∨
    t.role = .receiver ∧ t.pc.settled = true

variable {i : Sid} {σ : Shared} {t t' : Thread} {a : Action}

private theorem dispatch_absent (role : Role) {room : Option RoomId} {tag : Bytes}
    (hrole : role = .receiver → room = none) (h : (dispatch role room tag).absent = true) :
    room = none := by
  have hcases := dispatch_cases role room tag
  generalize dispatch role room tag = pc at hcases h
  cases hcases with
  | join _ _ hroom => exact hroom
  | firstJoin hr => exact hrole hr
  | _ => cases h

theorem loopHead_absent (t : Thread) : t.loopHead.absent = false :=
  @loopHead_of (·.absent = false) t rfl rfl rfl

/-- A session's user leaves its room only by `erase`. -/
private theorem Step.absent_of (h : Step i σ t a t') (hok : t.Ok) (hpc' : t'.pc.absent = true) :
    (∀ r, a ≠ .insert r) ∧
      (t.pc.absent = true ∨ t.room = none ∨ ∃ r, t.room = some r ∧ a = .erase r) := by
  cases h with
  | inner h =>
    cases h with
    | removeBody hpc hr => exact ⟨fun _ => Action.noConfusion, .inr (.inr ⟨_, hr, rfl⟩)⟩
    | findAcquire hpc | findBody hpc | findRelease hpc | addAcquire hpc =>
      exact ⟨fun _ => Action.noConfusion, .inl (by rw [hpc]; rfl)⟩
    | _ => cases hpc'
  | accept _ _ _ hpc | loginFail hpc | loginOk hpc | loginReply hpc =>
    exact ⟨fun _ => Action.noConfusion, .inl (by rw [hpc]; rfl)⟩
  | newSender => cases (loopHead_absent _).symm.trans hpc'
  | receiveOk hpc =>
    have hroom : t.role = .receiver → t.room = none := by simpa [Ok, hpc] using hok
    exact ⟨fun _ => Action.noConfusion, .inr (.inl (dispatch_absent _ hroom hpc'))⟩
  | removeRelease hpc => exact ⟨fun _ => Action.noConfusion, .inl (by rw [hpc]; rfl)⟩
  | @memberExists r found =>
    dsimp only at hpc'
    split at hpc' <;> cases found <;> cases hpc'
  | @reply resp resume sent conn =>
    have hnext := @resumed_of (·.absent = false) { t with conn } resume (loopHead_absent _) rfl rfl
    cases hnext.symm.trans hpc'
  | @dequeueEnd res =>
    have hnext := @dequeued_of (·.absent = false) t res (loopHead_absent _) rfl fun _ => rfl
    cases hnext.symm.trans hpc'
  | deliver => cases (loopHead_absent _).symm.trans hpc'
  | newReceiver | receiveFail | addRelease | loopEnd | close => cases hpc'
  | subscript | nullRoom | emptyQueue => exact ⟨fun _ => Action.noConfusion, .inl hpc'⟩

private theorem not_present_idle (hrole : t.role = .sender) (hpc : t.pc.idle = true)
    (hne : t.pc ≠ .broadcast .acquire) : ¬ t.Present := by
  rintro (⟨pc, h⟩ | h | ⟨h, -⟩)
  · cases pc <;> simp_all [Pc.idle]
  · simp [h, Pc.idle] at hpc
  · simp [hrole] at h

private theorem loopHead_ne_broadcast (t : Thread) (pc : BroadcastPc) :
    t.loopHead ≠ .broadcast pc :=
  @loopHead_of (· ≠ .broadcast pc) t Pc.noConfusion Pc.noConfusion Pc.noConfusion

private theorem dispatch_ne_broadcast (role : Role) (room : Option RoomId) (tag : Bytes)
    (pc : BroadcastPc) : dispatch role room tag ≠ .broadcast pc := by
  have hcases := dispatch_cases role room tag
  generalize dispatch role room tag = p at hcases ⊢
  cases hcases <;> exact Pc.noConfusion

/-- A session's user is put into its room by `insert`, and found there by `member_exists`. -/
private theorem Step.present_of (h : Step i σ t a t') (hok : t.Ok) (ht' : t'.Present) {r : RoomId}
    (hr : t'.room = some r) :
    t.room = some r ∧ (∀ q, a ≠ .erase q) ∧
      (t.Present ∨ a = .insert r ∨ i ∈ (σ.room r).members) := by
  have hreceiver : t.role = .receiver → t.pc.settled = true → t.Present :=
    fun hrole hpc => .inr (.inr ⟨hrole, hpc⟩)
  cases h with
  | inner h =>
    cases h with
    | removeAcquire hpc | removeBody hpc | findAcquire hpc | findBody hpc | findRelease hpc
    | addAcquire hpc => simp [Present, Pc.settled] at ht'
    | addBody hpc hroom =>
      obtain rfl := Option.some.inj (hroom.symm.trans hr)
      exact ⟨hr, fun _ => Action.noConfusion, .inr (.inl rfl)⟩
    | broadcastAcquire hpc | broadcastStart hpc | visitOther hpc | visitSame hpc | enqueue hpc
    | enqueueEnd hpc => exact ⟨hr, fun _ => Action.noConfusion, .inl (.inl ⟨_, hpc⟩)⟩
    | dequeue hpc =>
      obtain ⟨hrole, -⟩ : t.role = .receiver ∧ t.room ≠ none := by simpa [Ok, hpc] using hok
      exact ⟨hr, fun _ => Action.noConfusion, .inl (hreceiver hrole (by rw [hpc]; rfl))⟩
  | accept => cases hr
  | loginFail hpc | loginOk hpc | loginReply hpc | newSender hpc | newReceiver hpc =>
    obtain ⟨hroom, -⟩ : t.room = none ∧ t.serial = 0 := by simpa [Ok, hpc] using hok
    cases hroom.symm.trans hr
  | receiveFail hpc =>
    have hroom : t.role = .receiver → t.room = none := by simpa [Ok, hpc] using hok
    cases hrole : t.role with
    | receiver => cases (hroom hrole).symm.trans hr
    | sender => exact absurd ht' (not_present_idle hrole rfl Pc.noConfusion)
  | receiveOk hpc =>
    have hroom : t.role = .receiver → t.room = none := by simpa [Ok, hpc] using hok
    cases hrole : t.role with
    | receiver => cases (hroom hrole).symm.trans hr
    | sender =>
      exact absurd ht' (not_present_idle hrole (dispatch_idle _ _ _) (dispatch_ne_broadcast _ _ _ _))
  | removeRelease hpc =>
    obtain ⟨hrole, -⟩ : t.role = .sender ∧ t.room ≠ none := by simpa [Ok, hpc] using hok
    refine absurd ht' (not_present_idle hrole (removed_idle _) ?_)
    dsimp only
    split <;> exact Pc.noConfusion
  | addRelease hpc => exact ⟨hr, fun _ => Action.noConfusion, .inl (.inr (.inl hpc))⟩
  | @memberExists q found hpc hroom hfound =>
    have hrole : t.role = .sender := by
      obtain ⟨hrole, -⟩ : t.role = .sender ∧ (t.room = none → t.msg.tag = tagLeave) := by
        simpa only [Ok, hpc] using hok
      exact hrole
    obtain rfl := Option.some.inj (hroom.symm.trans hr)
    cases found with
    | true => exact ⟨hr, fun _ => Action.noConfusion, .inr (.inr (hfound.mp rfl))⟩
    | false =>
      refine absurd ht' (not_present_idle hrole (exists_idle _ _) ?_)
      dsimp only
      split <;> exact Pc.noConfusion
  | loopEnd hpc => exact ⟨hr, fun _ => Action.noConfusion, .inl (.inl ⟨_, hpc⟩)⟩
  | @reply resp resume sent conn hpc =>
    cases hrole : t.role with
    | receiver => exact ⟨hr, fun _ => Action.noConfusion, .inl (hreceiver hrole (by rw [hpc]; rfl))⟩
    | sender =>
      exact absurd ht' (not_present_idle hrole (resumed_idle _ resume)
        (@resumed_of (· ≠ .broadcast .acquire) _ resume (loopHead_ne_broadcast _ _)
          Pc.noConfusion Pc.noConfusion))
  | dequeueEnd hpc =>
    obtain ⟨hrole, -⟩ : t.role = .receiver ∧ t.room ≠ none := by simpa [Ok, hpc] using hok
    exact ⟨hr, fun _ => Action.noConfusion, .inl (hreceiver hrole (by rw [hpc]; rfl))⟩
  | deliver hpc =>
    obtain ⟨hrole, -⟩ : t.role = .receiver ∧ t.room ≠ none := by simpa [Ok, hpc] using hok
    exact ⟨hr, fun _ => Action.noConfusion, .inl (hreceiver hrole (by rw [hpc]; rfl))⟩
  | close hpc =>
    cases hrole : t.role with
    | receiver => exact ⟨hr, fun _ => Action.noConfusion, .inl (hreceiver hrole (by rw [hpc]; rfl))⟩
    | sender => exact absurd ht' (not_present_idle hrole rfl Pc.noConfusion)
  | subscript | nullRoom | emptyQueue => exact ⟨hr, fun _ => Action.noConfusion, .inl ht'⟩

end Thread

namespace Server

/-- The rooms that have the user of thread `i` as a member. -/
structure Membership (σ : Shared) (i : Sid) (t : Thread) : Prop where
  pointer : ∀ r, i ∈ (σ.room r).members → t.room = some r
  absent : t.pc.absent = true → ∀ r, i ∉ (σ.room r).members
  present : t.Present → ∀ r, t.room = some r → i ∈ (σ.room r).members

variable {σ σ' : Shared} {i : Sid} {a : Action} {t t' : Thread}

private theorem Membership.step (h : Membership σ i t) (hok : t.Ok) (ht : Thread.Step i σ t a t')
    (hmem : ∀ r, i ∈ (σ'.room r).members ↔
      a = .insert r ∨ i ∈ (σ.room r).members ∧ a ≠ .erase r) : Membership σ' i t' where
  pointer r hr := by
    have hroom : t.room = some r := by
      rcases (hmem r).mp hr with rfl | ⟨hold, -⟩
      · exact ht.room_of rfl
      · exact h.pointer r hold
    rcases ht.room_cases hok with hsame | ⟨q, hpc, -, -⟩
    · rw [hsame, hroom]
    · rcases (hmem r).mp hr with rfl | ⟨hold, -⟩
      · cases ht with
        | inner ht =>
          cases ht with
          | addBody hpc' => simp [hpc] at hpc'
      · exact absurd hold (h.absent (by rw [hpc]; rfl) r)
  absent hpc' r hr := by
    obtain ⟨hinsert, habsent⟩ := ht.absent_of hok hpc'
    obtain ⟨hold, herase⟩ := ((hmem r).mp hr).resolve_left (hinsert r)
    have hroom := h.pointer r hold
    rcases habsent with hpc | hnone | ⟨q, hq, ha⟩
    · exact h.absent hpc r hold
    · simp [hnone] at hroom
    · obtain rfl : q = r := by simpa [hq] using hroom
      exact herase ha
  present ht' r hr := by
    obtain ⟨hroom, herase, hpresent⟩ := ht.present_of hok ht' hr
    rcases hpresent with hpresent | hinsert | hold
    · exact (hmem r).mpr (.inr ⟨h.present hpresent r hroom, herase r⟩)
    · exact (hmem r).mpr (.inl hinsert)
    · exact (hmem r).mpr (.inr ⟨hold, herase r⟩)

theorem membership {es : List Event} {s : Server} (h : Run Server.Step {} es s) (i : Sid) :
    Membership s.shared i (s.thread i) := by
  refine h.invariant (fun _ s => ∀ i, Membership s.shared i (s.thread i)) (fun i => ?_) ?_ i
  · exact ⟨nofun, fun _ _ => nofun, nofun⟩
  intro es s e s' hrun ih hs j
  obtain ⟨i, a, t, σ, -, ht, happly, -, rfl⟩ := hs.move
  have hmem := (registered hrun).members ht (Shared.effect_of_apply happly)
  by_cases hj : j = i
  · subst hj
    simpa using (ih j).step (ok hrun j) ht fun r => by simpa using hmem r j
  · have hsame : ∀ r, j ∈ (σ.room r).members ↔ j ∈ (s.shared.room r).members := fun r => by
      simpa [hj] using hmem r j
    have hold := ih j
    simp only [Function.update_of_ne hj]
    exact ⟨fun r hr => hold.pointer r ((hsame r).mp hr),
      fun hpc r hr => hold.absent hpc r ((hsame r).mp hr),
      fun hp r hr => (hsame r).mpr (hold.present hp r hr)⟩

end Server
end Chat
