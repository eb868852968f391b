import Chat.Reading
import Chat.SenderSession

/-! How the login line of a client fixes the role and the user of its session. -/
namespace Chat
open Transition Lines

namespace Thread

/-- The session's user and role are those of its login message. -/
def Entered (i : Sid) (es : List Event) (t : Thread) : Prop :=
  ∃ m, ⟨i, 0, .login (some m)⟩ ∈ es ∧ ⟨i, 0, .newUser m.data⟩ ∈ es ∧
    t.role = if m.tag = tagSlogin then .sender else .receiver

/-- What the position tells of the login; a session that was turned away has no user. -/
def Greeted (i : Sid) (es : List Event) (t : Thread) : Prop :=
  match t.pc with
  | .unborn | .login | .loginReply false => True
  | .loginReply true | .newUser => ⟨i, 0, .login (some t.msg)⟩ ∈ es
  | .done => t.serial = 0 ∨ t.Entered i es
  | _ => t.Entered i es

variable {i : Sid} {σ : Shared} {t t' : Thread} {a : Action} {es : List Event}

theorem Entered.mono (h : t.Entered i es) (hrole : t'.role = t.role) (es' : List Event) :
    t'.Entered i (es ++ es') := by
  obtain ⟨m, hlogin, hnew, hm⟩ := h
  exact ⟨m, List.mem_append_left _ hlogin, List.mem_append_left _ hnew, hrole.trans hm⟩

private theorem Greeted.of_entered (h : t.Entered i es) (hpc : t.pc.early = false) :
    t.Greeted i es := by
  unfold Greeted
  generalize t.pc = pc at hpc
  cases pc with
  | unborn | login | loginReply | newUser => cases hpc
  | done => exact .inr h
  | _ => exact h

theorem Greeted.entered (h : t.Greeted i es) (hpc : t.pc.early = false)
    (hdone : t.pc ≠ .done ∨ t.serial ≠ 0) : t.Entered i es := by
  unfold Greeted at h
  generalize t.pc = pc at h hpc hdone
  cases pc with
  | unborn | login | loginReply | newUser => cases hpc
  | done => exact h.resolve_left (hdone.resolve_left fun hne => hne rfl)
  | _ => exact h

private theorem Greeted.mono (h : t.Greeted i es) (es' : List Event) : t.Greeted i (es ++ es') := by
  have hentered : t.Entered i es → t.Entered i (es ++ es') := fun h => h.mono rfl es'
  unfold Greeted at h ⊢
  generalize t.pc = pc at h ⊢
  cases pc with
  | unborn | login => trivial
  | loginReply accepted =>
    cases accepted with
    | true => exact List.mem_append_left _ h
    | false => trivial
  | newUser => exact List.mem_append_left _ h
  | done => exact h.imp_right hentered
  | _ => exact hentered h

theorem Step.running (h : Step i σ t a t') : t.pc ≠ .done := by
  cases h with
  | inner h => cases h <;> simp [*]
  | subscript hpc => rcases hpc with hpc | hpc <;> simp [hpc]
  | nullRoom hpc => exact fun hdone => by simp [hdone, Pc.derefs] at hpc
  | _ => simp [*]

private theorem Greeted.step_late (h : t.Greeted i es) (ht : Step i σ t a t')
    (hpc : t.pc.early = false) : t'.Greeted i (es ++ [⟨i, t'.serial, a⟩]) := by
  obtain ⟨hlate, hrole⟩ := ht.role_eq hpc
  exact .of_entered ((h.entered hpc (.inl ht.running)).mono hrole _) hlate

theorem Greeted.step (h : t.Greeted i es) (ht : Step i σ t a t') (hok : t.Ok) :
    t'.Greeted i (es ++ [⟨i, t'.serial, a⟩]) := by
  by_cases hpc : t.pc.early = false
  · exact h.step_late ht hpc
  have hserial : t.serial = 0 := by
    unfold Ok at hok
    generalize t.pc = pc at hok hpc
    cases pc with
    | unborn | login | loginReply | newUser => exact hok.2
    | _ => exact absurd rfl hpc
  cases ht with
  | inner ht => cases ht <;> simp_all [Pc.early]
  | accept | loginFail => trivial
  | @loginOk buffer msg conn hlogin =>
    unfold Greeted
    dsimp only
    generalize decide (msg.tag = tagSlogin ∨ msg.tag = tagRlogin) = accepted
    cases accepted with
    | true => simp [hserial]
    | false => trivial
  | @loginReply accepted resp sent conn hp =>
    cases accepted with
    | true =>
      have hmem : ⟨i, 0, .login (some t.msg)⟩ ∈ es := by simpa only [Greeted, hp] using h
      exact List.mem_append_left _ hmem
    | false => exact .inl hserial
  | newSender hp htag =>
    have hmem : ⟨i, 0, .login (some t.msg)⟩ ∈ es := by simpa only [Greeted, hp] using h
    refine .of_entered ⟨t.msg, List.mem_append_left _ hmem, ?_, by simp [htag]⟩
      (early_of_idle (loopHead_idle _))
    simp [hserial]
  | newReceiver hp htag =>
    have hmem : ⟨i, 0, .login (some t.msg)⟩ ∈ es := by simpa only [Greeted, hp] using h
    refine .of_entered ⟨t.msg, List.mem_append_left _ hmem, ?_, by simp [htag]⟩ rfl
    simp [hserial]
  | subscript | nullRoom | emptyQueue => exact h.mono _
  | receiveFail hp | receiveOk hp | removeRelease hp | addRelease hp | memberExists hp | loopEnd hp
  | reply hp | dequeueEnd hp | deliver hp | close hp => simp [hp, Pc.early] at hpc

end Thread

namespace Server

variable {es : List Event} {s : Server}

theorem greeted (hrun : Run Server.Step {} es s) (i : Sid) : (s.thread i).Greeted i es := by
  refine hrun.invariant (fun es s => ∀ i, (s.thread i).Greeted i es) (fun _ => trivial) ?_ i
  intro es s e s' hrun ih hs i
  obtain ⟨j, n, a⟩ := e
  obtain ⟨hacts, rfl⟩ : s.Acts j a s' ∧ n = (s'.thread j).serial := hs.acts
  by_cases hi : i = j
  · subst hi
    exact (ih i).step hacts.step (ok hrun i)
  · rw [hacts.frame i hi]
    exact (ih i).mono _

end Server
end Chat
