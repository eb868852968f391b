import Chat.Locks

/-! Exclusive access to a room's member set: the guarded operations exclude each other, and
`member_exists` excludes nothing. -/
namespace Chat
open Transition

namespace Thread

/-- In the part of `add_member` or `remove_member` that changes the member set of `r`. -/
def Modifies (t : Thread) (r : RoomId) : Prop :=
  (t.pc = .addMember .body ∨ t.pc = .removeMember .body) ∧ t.room = some r

/-- In a call of `member_exists` on `r`, which takes no lock. -/
def Looks (t : Thread) (r : RoomId) : Prop := t.pc = .memberExists ∧ t.room = some r

/-- Inside one of the four operations on the member set of `r`: past the guard of an operation that
has one, and anywhere in one that has none. -/
def Inside (t : Thread) (r : RoomId) : Prop :=
  t.pc.inRoom = true ∧ t.room = some r ∨ t.Looks r

variable {t : Thread} {r : RoomId}

theorem Modifies.guarded (h : t.Modifies r) (i : Sid) : .room r ∈ t.holds i := by
  obtain ⟨hpc | hpc, hr⟩ := h
  · exact room_mem_holds.mpr ⟨by rw [hpc]; rfl, hr⟩
  · exact room_mem_holds.mpr ⟨by rw [hpc]; rfl, hr⟩

theorem Modifies.not_looks (h : t.Modifies r) (q : RoomId) : ¬ t.Looks q := by
  rintro ⟨hpc, -⟩
  rcases h.1 with h | h <;> rw [hpc] at h <;> cases h

end Thread

namespace Server

variable {es : List Event} {s : Server}

/-- No two threads are past the guards of operations on one room. -/
theorem guarded_alone (hrun : Run Server.Step {} es s) {i j : Sid} {r : RoomId}
    (hi : .room r ∈ (s.thread i).holds i) (hj : .room r ∈ (s.thread j).holds j) : i = j :=
  (locks_agree hrun).exclusive hi hj

/-- A thread that changes a member set is alone inside the room's operations just if no thread is in
`member_exists` on that room. -/
theorem modifies_alone_iff (hrun : Run Server.Step {} es s) {i : Sid} {r : RoomId}
    (hi : (s.thread i).Modifies r) :
    (∀ j, j ≠ i → ¬ (s.thread j).Inside r) ↔ ∀ j, ¬ (s.thread j).Looks r := by
  constructor
  · intro halone j hlooks
    by_cases hj : j = i
    · subst hj
      exact hi.not_looks r hlooks
    · exact halone j hj (.inr hlooks)
  · rintro hnone j hj (hguard | hlooks)
    · exact hj (guarded_alone hrun (Thread.room_mem_holds.mpr hguard) (hi.guarded i))
    · exact hnone j hlooks

/-- A sender that is about to be put in its room. -/
private def joining : List Sched := .client 0 "slogin:alice\njoin:lobby\n" :: Sched.steps 0 8

theorem modifies_alone_iff_joining : ∃ es s, Run Server.Step {} es s ∧ (s.thread 0).Modifies 0 ∧
    ((∀ j, j ≠ 0 → ¬ (s.thread j).Inside 0) ↔ ∀ j, ¬ (s.thread j).Looks 0) := by
  obtain ⟨⟨es, s⟩, h⟩ := Option.isSome_iff_exists.mp (show (outcome joining).isSome = true by decide)
  have hpc : (outcome joining).map (fun p => ((p.2.thread 0).pc, (p.2.thread 0).room)) =
      some (.addMember .body, some 0) := rfl
  rw [h] at hpc
  obtain ⟨hpc, hroom⟩ := Prod.mk.inj (Option.some.inj hpc)
  have hrun := run_of_outcome h
  exact ⟨es, s, hrun, ⟨.inl hpc, hroom⟩, modifies_alone_iff hrun ⟨.inl hpc, hroom⟩⟩

/-- A sender in a room that sends a text, and another one that joins. -/
private def race : List Sched :=
  .client 1 "slogin:bob\njoin:lobby\nsendall:hi\n" :: Sched.steps 1 12 ++ joining

theorem modifies_beside_look : ∃ es s, Run Server.Step {} es s ∧ (s.thread 0).Modifies 0 ∧
    (s.thread 1).Inside 0 ∧ (∃ s', s.Step ⟨0, 1, .insert 0⟩ s') ∧
    ∃ s', s.Step ⟨1, 2, .memberExists 0 true⟩ s' := by
  obtain ⟨⟨es, s⟩, h⟩ := Option.isSome_iff_exists.mp (show (outcome race).isSome = true by decide)
  have hpc₀ : (outcome race).map (fun p => ((p.2.thread 0).pc, (p.2.thread 0).room)) =
      some (.addMember .body, some 0) := rfl
  have hpc₁ : (outcome race).map (fun p => ((p.2.thread 1).pc, (p.2.thread 1).room)) =
      some (.memberExists, some 0) := rfl
  have hinsert : (outcome race).bind (fun p => (p.2.next (.run 0 {})).map (·.1)) =
      some ⟨0, 1, .insert 0⟩ := rfl
  have hlook : (outcome race).bind (fun p => (p.2.next (.run 1 {})).map (·.1)) =
      some ⟨1, 2, .memberExists 0 true⟩ := rfl
  rw [h] at hpc₀ hpc₁ hinsert hlook
  obtain ⟨hpc₀, hroom₀⟩ := Prod.mk.inj (Option.some.inj hpc₀)
  obtain ⟨hpc₁, hroom₁⟩ := Prod.mk.inj (Option.some.inj hpc₁)
  obtain ⟨⟨e, s₁⟩, hs₁, rfl⟩ := Option.map_eq_some_iff.mp hinsert
  obtain ⟨⟨e, s₂⟩, hs₂, rfl⟩ := Option.map_eq_some_iff.mp hlook
  exact ⟨es, s, run_of_outcome h, ⟨.inl hpc₀, hroom₀⟩, .inr ⟨hpc₁, hroom₁⟩, ⟨s₁, _, hs₁⟩,
    ⟨s₂, _, hs₂⟩⟩

end Server
end Chat
