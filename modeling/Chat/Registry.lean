import Chat.Session

/-! The room registry over every run: names and rooms correspond one to one, a room keeps the
name it was registered under, and the room pointers of sessions are registered. -/
namespace Chat
open Transition

/-- Rooms that are not allocated are blank, and every name has a room of its own. -/
structure Shared.Registry (σ : Shared) : Prop where
  fresh : ∀ r, σ.nRooms ≤ r → σ.room r = {}
  bound : ∀ n (r : ℕ), σ.mRooms n = some r → r < σ.nRooms
  injective : ∀ n m r, σ.mRooms n = some r → σ.mRooms m = some r → n = m
  roomName : ∀ n r, σ.mRooms n = some r → removeNewline (σ.room r).roomName = removeNewline n

/-- How an action grows the registry: it does not, or it allocates the next address. -/
def Shared.Growth (σ : Shared) (a : Action) (σ' : Shared) : Prop :=
  (σ'.mRooms = σ.mRooms ∧ σ'.nRooms = σ.nRooms ∧
    ∀ n r, a = .findOrCreateRoom n r → σ.mRooms n ≠ none) ∨
  ∃ n, a = .findOrCreateRoom n σ.nRooms ∧ σ'.mRooms = Function.update σ.mRooms n (some σ.nRooms) ∧
    σ'.nRooms = σ.nRooms + 1 ∧ (σ'.room σ.nRooms).roomName = n

namespace Shared.Registry

variable {σ σ' : Shared} {i : Sid} {a : Action}

private theorem step_fresh (h : σ.Registry) (heff : Effect σ i a σ') (hgrow : Growth σ a σ')
    (haway : ∀ r, σ.nRooms ≤ r → a.room ≠ some r) (r : RoomId) (hr : σ'.nRooms ≤ r) :
    σ'.room r = {} := by
  rcases hgrow with ⟨-, hcount, hold⟩ | ⟨n, ha, -, hcount, -⟩
  · have hle : σ.nRooms ≤ r := hcount ▸ hr
    rw [heff.room_frame (haway r hle) (hold · r), h.fresh r hle]
  · have hlt : σ.nRooms + 1 ≤ r := hcount ▸ hr
    rw [heff.room_frame (haway r (by omega)) fun m hm => ?_, h.fresh r (by omega)]
    obtain ⟨-, rfl⟩ : n = m ∧ σ.nRooms = r := by simpa using ha.symm.trans hm
    omega

/-- A registered name is an old one, or the one that was just given the next address. -/
theorem step_name (hgrow : Growth σ a σ') {n : Bytes} {r : RoomId}
    (hn : σ'.mRooms n = some r) :
    σ.mRooms n = some r ∨
      r = σ.nRooms ∧ a = .findOrCreateRoom n r ∧ (σ'.room r).roomName = n := by
  rcases hgrow with ⟨hsame, -, -⟩ | ⟨m, ha, hnew, -, hname⟩
  · exact .inl (hsame ▸ hn)
  · have hn' : Function.update σ.mRooms m (some σ.nRooms) n = some r := hnew ▸ hn
    by_cases hnm : n = m
    · subst hnm
      obtain rfl : σ.nRooms = r := by simpa using hn'
      exact .inr ⟨rfl, ha, hname⟩
    · exact .inl (by simpa [hnm] using hn')

theorem step (h : σ.Registry) (heff : Effect σ i a σ') (hgrow : Growth σ a σ')
    (haway : ∀ r, σ.nRooms ≤ r → a.room ≠ some r) : σ'.Registry := by
  refine ⟨h.step_fresh heff hgrow haway, fun n r hn => ?_, fun n m r hn hm => ?_, fun n r hn => ?_⟩
  · rcases hgrow with ⟨hsame, hcount, -⟩ | ⟨m, ha, hnew, hcount, hname⟩
    · rw [hcount]
      exact h.bound n r (hsame ▸ hn)
    · rcases step_name (.inr ⟨m, ha, hnew, hcount, hname⟩) hn with hold | ⟨rfl, -⟩
      · have hlt := h.bound n r hold
        omega
      · omega
  · rcases step_name hgrow hn with hn | ⟨hr, ha, -⟩ <;>
      rcases step_name hgrow hm with hm | ⟨hr', ha', -⟩
    · exact h.injective n m r hn hm
    · have hlt := h.bound n r hn
      exact absurd hr' (ne_of_lt hlt)
    · have hlt := h.bound m r hm
      exact absurd hr (ne_of_lt hlt)
    · obtain ⟨hnm, -⟩ : n = m ∧ r = r := by simpa using ha.symm.trans ha'
      exact hnm
  · rcases step_name hgrow hn with hold | ⟨-, -, hname⟩
    · have hlt := h.bound n r hold
      rw [heff.roomName fun m hm => ?_, h.roomName n r hold]
      rcases hgrow with ⟨-, -, hkeep⟩ | ⟨k, ha, -⟩
      · exact hkeep m r hm
      · obtain ⟨-, hr⟩ : k = m ∧ σ.nRooms = r := by simpa using ha.symm.trans hm
        exact absurd hr (ne_of_gt hlt)
    · rw [hname]

end Shared.Registry

namespace Server

/-- What the code of a thread keeps for itself holds of every thread in every run. -/
theorem thread_invariant {P : Thread → Prop} (h₀ : P {})
    (hstep : ∀ {i σ t a t'}, Thread.Step i σ t a t' → P t → P t') {es : List Event} {s : Server}
    (h : Run Server.Step {} es s) (i : Sid) : P (s.thread i) := by
  refine h.invariant (fun _ s => ∀ i, P (s.thread i)) (fun _ => h₀) ?_ i
  intro es s e s' _ ih hs j
  obtain ⟨i, a, t, σ, -, ht, -, -, rfl⟩ := hs.move
  by_cases hj : j = i
  · subst hj
    simpa using hstep ht (ih j)
  · simpa [hj] using ih j

theorem ok {es : List Event} {s : Server} (h : Run Server.Step {} es s) (i : Sid) :
    (s.thread i).Ok :=
  @thread_invariant Thread.Ok ⟨rfl, rfl⟩ Thread.Step.ok _ _ h i

/-- The room that a session points to, or is about to, is the one registered under the name
it has joined. -/
structure Pointers (σ : Shared) (t : Thread) : Prop where
  room : ∀ r, t.room = some r → ∃ n, σ.mRooms n = some r
  found : ∀ r, t.pc = .findOrCreateRoom (.release r) → σ.mRooms t.msg.data = some r
  joining : ∀ pc r, t.pc = .addMember pc → t.room = some r → σ.mRooms t.msg.data = some r

variable {s s' : Server} {e : Event} {σ σ' : Shared} {i : Sid} {a : Action} {t t' : Thread}

private theorem Pointers.mono (h : Pointers σ t) (heff : Shared.Effect σ i a σ') :
    Pointers σ' t where
  room r hr := by
    obtain ⟨n, hn⟩ := h.room r hr
    exact ⟨n, heff.mRooms_mono hn⟩
  found r hpc := heff.mRooms_mono (h.found r hpc)
  joining pc r hpc hr := heff.mRooms_mono (h.joining pc r hpc hr)

private theorem Pointers.step (h : Pointers σ t) (hok : t.Ok) (ht : Thread.Step i σ t a t')
    (heff : Shared.Effect σ i a σ') (hgrow : Shared.Growth σ a σ') : Pointers σ' t' where
  room r hr := by
    rcases ht.room_cases hok with hroom | ⟨r', hpc, hroom, -⟩
    · exact (h.mono heff).room r (hroom ▸ hr)
    · obtain rfl : r' = r := by simpa [hroom] using hr
      exact ⟨_, (h.mono heff).found r' hpc⟩
  found r hpc' := by
    rcases ht.found_of hpc' with rfl | rfl
    · exact (h.mono heff).found r hpc'
    · have hr : r = (σ.mRooms t'.msg.data).getD σ.nRooms := ht.find_of.2.2
      rcases hgrow with ⟨-, -, hkeep⟩ | ⟨n, ha, hnew, -⟩
      · obtain ⟨q, hq⟩ := Option.ne_none_iff_exists'.mp (hkeep _ _ rfl)
        obtain rfl : r = q := by simpa [hq] using hr
        exact heff.mRooms_mono hq
      · obtain ⟨rfl, rfl⟩ : t'.msg.data = n ∧ r = σ.nRooms := by simpa using ha
        rw [hnew, Function.update_self]
  joining pc r hpc' hr := by
    obtain ⟨hmsg, ⟨r', hpc, hroom⟩ | ⟨⟨pc, hpc⟩, hroom⟩⟩ := ht.adding_of hpc'
    · obtain rfl : r' = r := by simpa [hroom] using hr
      rw [hmsg]
      exact (h.mono heff).found r' hpc
    · rw [hmsg]
      exact (h.mono heff).joining pc r hpc (hroom ▸ hr)

/-- A call through a registered pointer is not on an address still to be allocated. -/
theorem growth (hreg : s.shared.Registry) (hptr : Pointers s.shared (s.thread i))
    (ht : Thread.Step i s.shared (s.thread i) a t) (heff : Shared.Effect s.shared i a σ) :
    (∀ r, s.shared.nRooms ≤ r → a.room ≠ some r) ∧ Shared.Growth s.shared a σ := by
  constructor
  · intro r hr ha
    obtain ⟨n, hn⟩ := hptr.room r (ht.room_of ha)
    have hlt := hreg.bound n r hn
    omega
  · rcases heff.registry with hsame | ⟨n, r, rfl, hnone, hm, hn, hname⟩
    · exact .inl hsame
    · obtain rfl : r = s.shared.nRooms := by simpa [hnone] using ht.find_of.2.2
      exact .inr ⟨n, rfl, hm, hn, hname⟩

/-- The registry and the pointers into it in a reachable state. -/
structure Registered (s : Server) : Prop where
  registry : s.shared.Registry
  pointers : ∀ i, Pointers s.shared (s.thread i)

theorem registered {es : List Event} {s : Server} (h : Run Server.Step {} es s) :
    Registered s := by
  refine h.invariant (fun _ s => Registered s) ⟨⟨fun _ _ => rfl, ?_, ?_, ?_⟩, fun _ => ⟨?_, ?_, ?_⟩⟩ ?_
  iterate 6
    intros
    contradiction
  intro es s e s' hrun ih hs
  have hok := ok hrun
  obtain ⟨i, a, t, σ, -, ht, happly, -, rfl⟩ := hs.move
  have heff := Shared.effect_of_apply happly
  obtain ⟨haway, hgrow⟩ := growth ih.registry (ih.pointers i) ht heff
  refine ⟨ih.registry.step heff hgrow haway, fun j => ?_⟩
  by_cases hj : j = i
  · subst hj
    simpa using (ih.pointers j).step (hok j) ht heff hgrow
  · simpa [hj] using (ih.pointers j).mono heff

section Effects

variable (h : Registered s) (ht : Thread.Step i s.shared (s.thread i) a t)
  (heff : Shared.Effect s.shared i a σ)
include h ht heff

theorem Registered.members (r : RoomId) (u : Sid) :
    u ∈ (σ.room r).members ↔
      u = i ∧ a = .insert r ∨ u ∈ (s.shared.room r).members ∧ ¬ (u = i ∧ a = .erase r) := by
  refine heff.members (fun n ha hn => ?_) u
  subst ha
  obtain rfl : r = s.shared.nRooms := by simpa [hn] using ht.find_of.2.2
  rw [h.registry.fresh _ le_rfl]

theorem Registered.roomName {n : Bytes} {r : RoomId} (hn : s.shared.mRooms n = some r) :
    removeNewline (σ.room r).roomName = removeNewline (s.shared.room r).roomName := by
  have hlt := h.registry.bound n r hn
  refine heff.roomName fun m ha hm => ?_
  subst ha
  have hr : r = s.shared.nRooms := by simpa [hm] using ht.find_of.2.2
  exact absurd hr (ne_of_lt hlt)

end Effects

end Server
end Chat
