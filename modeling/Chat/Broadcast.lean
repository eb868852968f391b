import Chat.Locks

/-! A broadcast in progress: the members that it is at, and the message that it enqueues. -/
namespace Chat
open Transition Traversal

theorem delivery_congr {n m : Bytes} (h : removeNewline n = removeNewline m) (sender text : Bytes) :
    delivery n sender text = delivery m sender text := by
  rw [delivery, delivery, h]

namespace Server

/-- The thread of a broadcast is at a member of its room, and enqueues what it was called
with for a member of another name. -/
structure Broadcasting (σ : Shared) (i : Sid) (t : Thread) : Prop where
  member : ∀ u r, t.pc.target = some u → t.room = some r → u ∈ (σ.room r).members
  message : ∀ u msg pc r, t.pc = .broadcast (.enqueue u msg pc) → t.room = some r →
    msg = delivery (σ.room r).roomName (σ.user i).username t.msg.data ∧
      (σ.user u).username ≠ (σ.user i).username

end Server

namespace Thread

variable {i : Sid} {σ : Shared} {t t' : Thread} {a : Action}

theorem Step.enqueue_of (h : Step i σ t a t') {u : Sid} {msg : Message} {pc : EnqueuePc}
    (hpc' : t'.pc = .broadcast (.enqueue u msg pc)) :
    t'.room = t.room ∧ t'.msg = t.msg ∧ t.pc.target = some u ∧
      ((∃ pc, t.pc = .broadcast (.enqueue u msg pc)) ∨ ∃ r, t.room = some r ∧
        msg = delivery (σ.room r).roomName (σ.user i).username t.msg.data ∧
        (σ.user u).username ≠ (σ.user i).username) := by
  rcases h.shape with hidle | ⟨-, hearly⟩ | hinner | ⟨rfl, -⟩
  · simp [hpc', Pc.idle] at hidle
  · simp [hpc', Pc.early] at hearly
  · cases hinner with
    | @visitOther r v hpc hr hname =>
      cases hpc'
      exact ⟨rfl, rfl, by rw [hpc]; rfl, .inr ⟨r, hr, rfl, hname⟩⟩
    | enqueue hpc =>
      cases hpc'
      exact ⟨rfl, rfl, by rw [hpc]; rfl, .inl ⟨_, hpc⟩⟩
    | _ => cases hpc'
  · exact ⟨rfl, rfl, by rw [hpc']; rfl, .inl ⟨pc, hpc'⟩⟩

theorem late_of_target {pc : Pc} {u : Sid} (h : pc.target = some u) : pc.early = false := by
  cases pc <;> first | rfl | cases h

theorem inRoom_of_target {pc : Pc} {u : Sid} (h : pc.target = some u) : pc.inRoom = true := by
  cases pc with
  | broadcast pc => cases pc <;> first | rfl | cases h
  | _ => cases h

/-- A set of members changes only under the guard on its room. -/
theorem Step.inRoom_of (h : Step i σ t a t') {r : RoomId} (ha : a = .insert r ∨ a = .erase r) :
    .room r ∈ t.holds i := by
  rcases ha with rfl | rfl
  · cases h with
    | inner h =>
      cases h with
      | addBody hpc hr => exact ⟨by rw [hpc]; rfl, hr⟩
  · cases h with
    | inner h =>
      cases h with
      | removeBody hpc hr => exact ⟨by rw [hpc]; rfl, hr⟩

end Thread

namespace Server

variable {s s' : Server} {e : Event} {es : List Event}

/-- Usernames do not change once they are set. -/
theorem username_step {i : Sid} {a : Action} {t : Thread} {σ : Shared}
    (ht : Thread.Step i s.shared (s.thread i) a t) (heff : Shared.Effect s.shared i a σ) {u : Sid}
    (hu : (s.thread u).pc.early = false) : (σ.user u).username = (s.shared.user u).username := by
  refine heff.username fun n ha hui => ?_
  subst ha hui
  have hearly := ht.newUser_of
  simp [hu] at hearly

theorem username_run (hrun : Run Server.Step s es s') {u : Sid} (hu : (s.thread u).pc.early = false) :
    (s'.shared.user u).username = (s.shared.user u).username := by
  refine (hrun.preserved (fun s' => (s'.thread u).pc.early = false ∧
    (s'.shared.user u).username = (s.shared.user u).username) ⟨hu, rfl⟩ ?_).2
  rintro s₁ e s₂ ⟨hlate, hname⟩ hs
  obtain ⟨hacts, -⟩ := hs.acts
  exact ⟨(early_step hs hlate).1, (username_step hacts.step hacts.effect hlate).trans hname⟩

/-- The members that a broadcast has before it stay, and so do all names. -/
private theorem Broadcasting.step {i j : Sid} {a : Action} {t : Thread} {σ : Shared}
    (hrun : Run Server.Step {} es s) (h : Broadcasting s.shared j (s.thread j))
    (ht : Thread.Step i s.shared (s.thread i) a t) (heff : Shared.Effect s.shared i a σ)
    (htarget : ∀ u, (s.thread j).pc.target = some u → ∀ r, a ≠ .erase r ∨ (s.thread j).room ≠ some r) :
    Broadcasting σ j (s.thread j) where
  member u r hu hr := by
    refine ((registered hrun).members ht heff r u).mpr (.inr ⟨h.member u r hu hr, ?_⟩)
    rintro ⟨-, ha⟩
    exact (htarget u hu r).elim (fun hne => hne ha) (fun hne => hne hr)
  message u msg pc r hpc hr := by
    obtain ⟨n, hn⟩ := ((registered hrun).pointers j).room r hr
    have hu : (s.thread j).pc.target = some u := by rw [hpc]; rfl
    have hname := (registered hrun).roomName ht heff hn
    have hlate : (s.thread j).pc.early = false := by rw [hpc]; rfl
    rw [username_step ht heff hlate, username_step ht heff ((newcomers hrun).target j u hu),
      delivery_congr hname]
    exact h.message u msg pc r hpc hr

theorem broadcasting (h : Run Server.Step {} es s) (i : Sid) :
    Broadcasting s.shared i (s.thread i) := by
  refine h.invariant (fun _ s => ∀ i, Broadcasting s.shared i (s.thread i)) (fun i => ?_) ?_ i
  · exact ⟨fun _ _ hu _ => (by cases hu), fun _ _ _ _ hpc _ => (by cases hpc)⟩
  intro es s e s' hrun ih hs j
  obtain ⟨i, a, t, σ, -, ht, happly, -, rfl⟩ := hs.move
  have heff := Shared.effect_of_apply happly
  by_cases hj : j = i
  · subst hj
    have hold := (ih j).step hrun ht heff fun u hu r => by
      refine .inl fun ha => ?_
      subst ha
      cases ht with
      | inner ht =>
        cases ht with
        | removeBody hpc => simp [hpc, Pc.target] at hu
    simp only [Function.update_self]
    constructor
    · intro u r hu hr
      rcases ht.target_of hu with ⟨hat, hroom⟩ | ⟨q, -, hq, hmem⟩
      · exact hold.member u r hat (hroom ▸ hr)
      · obtain rfl : q = r := by simpa [hq] using hr
        refine ((registered hrun).members ht heff q u).mpr (.inr ⟨hmem, ?_⟩)
        rintro ⟨-, rfl⟩
        cases ht with
        | inner ht =>
          cases ht with
          | removeBody => cases hu
    · intro u msg pc r hpc hr
      obtain ⟨hroom, hmsg, hat, ⟨pc₀, hpc₀⟩ | ⟨q, hq, hnew, hne⟩⟩ := ht.enqueue_of hpc
      · rw [hmsg]
        exact hold.message u msg pc₀ r hpc₀ (hroom ▸ hr)
      · obtain rfl : q = r := by simpa [hq] using hroom.symm.trans hr
        obtain ⟨n, hn⟩ := ((registered hrun).pointers j).room q hq
        rw [hmsg, username_step ht heff (Thread.late_of_target hat),
          username_step ht heff ((newcomers hrun).target j u hat),
          delivery_congr ((registered hrun).roomName ht heff hn)]
        exact ⟨hnew, hne⟩
  · simp only [Function.update_of_ne hj]
    refine (ih j).step hrun ht heff fun u hu r => ?_
    by_contra hboth
    obtain ⟨ha, hr⟩ : a = .erase r ∧ (s.thread j).room = some r := by
      simpa [not_or] using hboth
    have hi : .room r ∈ (s.thread i).holds i := ht.inRoom_of (.inr ha)
    have hjr : .room r ∈ (s.thread j).holds j := ⟨Thread.inRoom_of_target hu, hr⟩
    exact hj ((locks_agree hrun).exclusive hjr hi)

end Server
end Chat
