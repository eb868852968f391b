import Chat.SenderSession

/-! Whom rooms deliver to: they are to keep track of receivers, but a sender's join puts its own user
among the members, whose queue nobody empties. -/
namespace Chat
open Transition

namespace Server

/-- The members of rooms are users of receiver sessions, and so broadcasts enqueue for receivers only
and the queues of senders are empty. -/
structure ReceiversOnly (es : List Event) (s : Server) : Prop where
  member : ∀ r u, u ∈ (s.shared.room r).members → (s.thread u).role = .receiver
  push : ∀ i n u msg, ⟨i, n, .queue u (.push msg)⟩ ∈ es → (s.thread u).role = .receiver
  queue : ∀ u, (s.thread u).role = .sender → (s.shared.user u).mqueue.mMessages = []

variable {es es' : List Event} {s s' : Server}

/-- A member of a room was put there by its own session. -/
theorem member_inserted (hrun : Run Server.Step {} es s) {r : RoomId} {u : Sid}
    (hu : u ∈ (s.shared.room r).members) : ∃ n, ⟨u, n, .insert r⟩ ∈ es := by
  refine hrun.invariant (fun es s => ∀ r u, u ∈ (s.shared.room r).members →
    ∃ n, ⟨u, n, .insert r⟩ ∈ es) (fun _ _ h => by simp at h) ?_ r u hu
  intro es s e s' hrun ih hs r u hu
  obtain ⟨i, n, a⟩ := e
  obtain ⟨hacts, -⟩ : s.Acts i a s' ∧ n = (s'.thread i).serial := hs.acts
  rcases ((registered hrun).members hacts.step hacts.effect r u).mp hu with ⟨rfl, rfl⟩ | ⟨hold, -⟩
  · exact ⟨n, by simp⟩
  · obtain ⟨k, hk⟩ := ih r u hold
    exact ⟨k, List.mem_append_left _ hk⟩

/-- A message is enqueued for a session that has joined a room before. -/
theorem push_inserted (hrun : Run Server.Step {} es s) {i u : Sid} {n : ℕ} {msg : Message}
    (h : ⟨i, n, .queue u (.push msg)⟩ ∈ es) :
    (s.thread u).pc.early = false ∧ ∃ k r, ⟨u, k, .insert r⟩ ∈ es := by
  obtain ⟨pre, post, rfl⟩ := List.append_of_mem h
  obtain ⟨s₁, s₂, h₁, hs, hpost⟩ := hrun.splitAt
  obtain ⟨hacts, -⟩ : s₁.Acts i (.queue u (.push msg)) s₂ ∧ n = (s₂.thread i).serial := hs.acts
  have hpc := hacts.step.push_of
  obtain ⟨r, hr, -⟩ := begun h₁ i hpc BroadcastPc.noConfusion
  have hmember := (broadcasting h₁ i).member u r (by rw [hpc]; rfl) hr
  obtain ⟨k, hk⟩ := member_inserted h₁ hmember
  refine ⟨?_, k, r, List.mem_append_left _ hk⟩
  exact (Run.cons hs hpost).preserved (fun s => (s.thread u).pc.early = false)
    (not_early_of_member h₁ hmember) fun s e s' hlate hs => (early_step hs hlate).1

theorem insert_late {i : Sid} {n : ℕ} {r : RoomId} (hrun : Run Server.Step {} es s)
    (hs : s.Step ⟨i, n, .insert r⟩ s') :
    (s'.thread i).pc.early = false ∧ i ∈ (s'.shared.room r).members := by
  obtain ⟨hacts, -⟩ : s.Acts i (.insert r) s' ∧ n = (s'.thread i).serial := hs.acts
  have hmember : i ∈ (s'.shared.room r).members :=
    ((registered hrun).members hacts.step hacts.effect r i).mpr (.inl ⟨rfl, rfl⟩)
  exact ⟨not_early_of_member (.snoc hrun hs) hmember, hmember⟩

/-- Rooms deliver to receivers in every state of a run, just if no sender session gets to
`add_member`. -/
theorem receivers_only_iff (hrun : Run Server.Step {} es s) :
    (∀ pre post s₁, es = pre ++ post → Run Server.Step {} pre s₁ → Run Server.Step s₁ post s →
      s₁.ReceiversOnly pre) ↔
    ∀ i n r, ⟨i, n, .insert r⟩ ∈ es → (s.thread i).role = .receiver := by
  constructor
  · rintro honly i n r hmem
    obtain ⟨pre, post, rfl⟩ := List.append_of_mem hmem
    obtain ⟨s₁, s₂, h₁, hs, hpost⟩ := hrun.splitAt
    obtain ⟨hlate, hmember⟩ := insert_late h₁ hs
    have hrole := (honly (pre ++ [⟨i, n, .insert r⟩]) post s₂ (by simp) (.snoc h₁ hs) hpost).member
      r i hmember
    rw [role_run hpost hlate, hrole]
  · rintro hinsert pre post s₁ rfl h₁ hpost
    have hrole : ∀ u k r, (s₁.thread u).pc.early = false → ⟨u, k, .insert r⟩ ∈ pre →
        (s₁.thread u).role = .receiver := by
      intro u k r hlate hmem
      rw [← role_run hpost hlate]
      exact hinsert u k r (List.mem_append_left _ hmem)
    have hpush : ∀ i n u msg, ⟨i, n, .queue u (.push msg)⟩ ∈ pre →
        (s₁.thread u).role = .receiver := by
      intro i n u msg hmem
      obtain ⟨hlate, k, r, hk⟩ := push_inserted h₁ hmem
      exact hrole u k r hlate hk
    refine ⟨fun r u hu => ?_, hpush, fun u hsender => ?_⟩
    · obtain ⟨k, hk⟩ := member_inserted h₁ hu
      exact hrole u k r (not_early_of_member h₁ hu) hk
    · refine List.eq_nil_iff_forall_not_mem.mpr fun msg hmsg => ?_
      obtain ⟨p, hp, -⟩ := exists_post h₁ (List.mem_append_right _ hmsg)
      have hreceiver := hpush _ _ u _ (mem_posts hp)
      cases hsender.symm.trans hreceiver

/-- Two senders in one room, the second of which broadcasts. -/
private def senders : List Sched :=
  .client 0 "slogin:alice\njoin:lobby\n" :: Sched.steps 0 11 ++
    .client 1 "slogin:bob\njoin:lobby\nsendall:hi\n" :: Sched.steps 1 23

theorem sender_enqueued : ∃ es s, Run Server.Step {} es s ∧ (s.thread 0).role = .sender ∧
    (∃ r, 0 ∈ (s.shared.room r).members) ∧
    (s.shared.user 0).mqueue.mMessages = [delivery (str "lobby") (str "bob") (str "hi")] ∧
    ¬ s.ReceiversOnly es := by
  obtain ⟨⟨es, s⟩, h⟩ :=
    Option.isSome_iff_exists.mp (show (outcome senders).isSome = true by decide)
  have hrole : (outcome senders).map (fun p => (p.2.thread 0).role) = some .sender := by decide
  have hmember : (outcome senders).map (fun p => decide ((0 : ℕ) ∈ (p.2.shared.room 0).members)) =
      some true := by decide
  have hqueue : (outcome senders).map (fun p => (p.2.shared.user 0).mqueue.mMessages) =
      some [delivery (str "lobby") (str "bob") (str "hi")] := by decide
  rw [h] at hrole hmember hqueue
  have hrole : (s.thread 0).role = .sender := Option.some.inj hrole
  have hqueue : (s.shared.user 0).mqueue.mMessages = _ := Option.some.inj hqueue
  refine ⟨es, s, run_of_outcome h, hrole, ⟨0, of_decide_eq_true (Option.some.inj hmember)⟩, hqueue,
    fun honly => ?_⟩
  have hempty := honly.queue 0 hrole
  rw [hqueue] at hempty
  cases hempty

theorem receivers_only_iff_senders : ∃ es s, Run Server.Step {} es s ∧
    (s.thread 0).role = .sender ∧ ¬ ∀ pre post s₁, es = pre ++ post → Run Server.Step {} pre s₁ →
      Run Server.Step s₁ post s → s₁.ReceiversOnly pre := by
  obtain ⟨⟨es, s⟩, h⟩ :=
    Option.isSome_iff_exists.mp (show (outcome senders).isSome = true by decide)
  have hrole : (outcome senders).map (fun p => (p.2.thread 0).role) = some .sender := by decide
  have hinsert : (outcome senders).bind (fun p => p.1[9]?) = some ⟨0, 1, .insert 0⟩ := rfl
  rw [h] at hrole hinsert
  have hrole : (s.thread 0).role = .sender := Option.some.inj hrole
  refine ⟨es, s, run_of_outcome h, hrole, fun honly => ?_⟩
  have hreceiver := (receivers_only_iff (run_of_outcome h)).mp honly 0 1 0 (List.mem_of_getElem? hinsert)
  cases hrole.symm.trans hreceiver

end Server
end Chat
