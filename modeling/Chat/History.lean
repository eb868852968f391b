import Chat.Registry

/-! What the history of a run says of its messages: a session numbers the messages it
receives, and acts for one of them only after it has received it. -/
namespace Chat
open Transition

namespace Thread

variable {i : Sid} {σ : Shared} {t t' : Thread} {a : Action}

private theorem loopHead_handling (t : Thread) : t.loopHead.handling = false :=
  @loopHead_of (·.handling = false) t rfl rfl rfl

/-- A session comes to handle a message by receiving it. -/
theorem Step.handling_of (h : Step i σ t a t') (hpc' : t'.pc.handling = true) :
    a = .receive (some t'.msg) ∨
      t.pc.handling = true ∧ t'.msg = t.msg ∧ t'.serial = t.serial := by
  cases h with
  | inner h =>
    cases h with
    | dequeue => cases hpc'
    | removeAcquire hpc | removeBody hpc | findAcquire hpc | findBody hpc | findRelease hpc
    | addAcquire hpc | addBody hpc | broadcastAcquire hpc | broadcastStart hpc | visitOther hpc
    | visitSame hpc | enqueue hpc | enqueueEnd hpc => exact .inr ⟨by rw [hpc]; rfl, rfl, rfl⟩
  | receiveOk => exact .inl rfl
  | removeRelease hpc | memberExists hpc => exact .inr ⟨by rw [hpc]; rfl, rfl, rfl⟩
  | newSender | deliver => cases (loopHead_handling _).symm.trans hpc'
  | @loginReply accepted => cases accepted <;> cases hpc'
  | @reply resp resume sent conn =>
    have hnext := @resumed_of (·.handling = false) { t with conn } resume (loopHead_handling _) rfl rfl
    cases hnext.symm.trans hpc'
  | @dequeueEnd res =>
    have hnext := @dequeued_of (·.handling = false) t res (loopHead_handling _) rfl fun _ => rfl
    cases hnext.symm.trans hpc'
  | accept | loginFail | loginOk | newReceiver | receiveFail | addRelease | loopEnd | close =>
    cases hpc'
  | subscript | nullRoom | emptyQueue => exact .inr ⟨hpc', rfl, rfl⟩

end Thread

namespace Server

variable {es es' : List Event} {s s' : Server} {e : Event}

/-- A session whose position is in a branch has received the message that it is handling. -/
theorem handled (h : Run Server.Step {} es s) (i : Sid) (hpc : (s.thread i).pc.handling = true) :
    ⟨i, (s.thread i).serial, .receive (some (s.thread i).msg)⟩ ∈ es := by
  refine h.invariant (fun es s => ∀ i, (s.thread i).pc.handling = true →
    (⟨i, (s.thread i).serial, .receive (some (s.thread i).msg)⟩ : Event) ∈ es) ?_ ?_ i hpc
  · intro i hpc
    cases hpc
  intro es s e s' _ ih hs j hpc
  obtain ⟨i, a, t, σ, -, ht, -, rfl, rfl⟩ := hs.move
  rw [List.mem_append, List.mem_singleton]
  by_cases hj : j = i
  · subst hj
    simp only [Function.update_self] at hpc ⊢
    rcases ht.handling_of hpc with rfl | ⟨hpc₀, hmsg, hserial⟩
    · exact .inr rfl
    · rw [hmsg, hserial]
      exact .inl (ih j hpc₀)
  · simp only [Function.update_of_ne hj] at hpc ⊢
    exact .inl (ih j hpc)

theorem serial_step (hok : ∀ i, (s.thread i).Ok) (hs : s.Step e s') (i : Sid) :
    (s.thread i).serial ≤ (s'.thread i).serial := by
  obtain ⟨j, a, t, σ, -, ht, -, -, rfl⟩ := hs.move
  by_cases hi : i = j
  · subst hi
    simp only [Function.update_self]
    rcases ht.serial_cases (hok i) with ⟨m, -, -, hserial⟩ | ⟨-, hserial⟩ <;> omega
  · simp [hi]

/-- No event is numbered past the last message received. -/
theorem serial_le (h : Run Server.Step {} es s) :
    ∀ e ∈ es, e.serial ≤ (s.thread e.session).serial := by
  refine h.invariant (fun es s => ∀ e ∈ es, e.serial ≤ (s.thread e.session).serial) nofun ?_
  intro es s e s' hrun ih hs f hf
  rcases List.mem_append.mp hf with hold | hnew
  · exact (ih f hold).trans (serial_step (ok hrun) hs f.session)
  · obtain rfl := List.mem_singleton.mp hnew
    obtain ⟨j, a, t, σ, -, ht, -, rfl, rfl⟩ := hs.move
    simp

/-- Everything that a session does for a message comes after its reception. -/
theorem serial_before_receive {pre post : List Event} {i : Sid} {n : ℕ} {m : Option Message}
    (h : Run Server.Step {} (pre ++ ⟨i, n, .receive m⟩ :: post) s) :
    ∀ e ∈ pre, e.session = i → e.serial < n := by
  intro e he hi
  obtain ⟨s₁, s₂, h₁, hs, -⟩ := h.splitAt
  obtain ⟨hacts, hserial⟩ : s₁.Acts i (.receive m) s₂ ∧ n = (s₂.thread i).serial := hs.acts
  have hle := serial_le h₁ e he
  rw [hi] at hle
  rcases hacts.step.serial_cases (ok h₁ i) with ⟨-, -, -, hnext⟩ | ⟨hno, -⟩
  · omega
  · exact absurd rfl (hno m)

/-- Once a session is past the positions that do `A` for its message, and cannot come back to
them before the next one, it does not do `A` for that message again. -/
theorem never_again {i : Sid} {n : ℕ} {C : Pc → Prop} {A : Action → Prop}
    (hC : ∀ {σ t a t'}, Thread.Step i σ t a t' → C t.pc →
      ¬ A a ∧ (t'.serial = t.serial → C t'.pc))
    (hrun : Run Server.Step {} es s) (hpost : Run Server.Step s es' s')
    (h : n < (s.thread i).serial ∨ (s.thread i).serial = n ∧ C (s.thread i).pc) :
    ∀ e ∈ es', e.session = i → e.serial = n → ¬ A e.action := by
  suffices hall : (n < (s'.thread i).serial ∨ (s'.thread i).serial = n ∧ C (s'.thread i).pc) ∧
      ∀ e ∈ es', e.session = i → e.serial = n → ¬ A e.action from hall.2
  refine hpost.invariant (fun es' s' =>
    (n < (s'.thread i).serial ∨ (s'.thread i).serial = n ∧ C (s'.thread i).pc) ∧
      ∀ e ∈ es', e.session = i → e.serial = n → ¬ A e.action) ⟨h, by simp⟩ ?_
  intro es' s₁ e s₂ hpre ⟨hpast, hall⟩ hs
  have hmono := serial_step (ok (hrun.trans hpre)) hs i
  obtain ⟨hacts, hserial⟩ := hs.acts
  by_cases hi : e.session = i
  · subst hi
    rcases hpast with hlt | ⟨heq, hpc⟩
    · refine ⟨.inl (by omega), fun f hf hfi hfn => ?_⟩
      rcases List.mem_append.mp hf with hold | hnew
      · exact hall f hold hfi hfn
      · obtain rfl := List.mem_singleton.mp hnew
        omega
    · obtain ⟨hA, hnext⟩ := hC hacts.step hpc
      refine ⟨?_, fun f hf hfi hfn => ?_⟩
      · rcases hmono.lt_or_eq with hlt | hsame
        · exact .inl (by omega)
        · exact .inr ⟨by omega, hnext hsame.symm⟩
      · rcases List.mem_append.mp hf with hold | hnew
        · exact hall f hold hfi hfn
        · obtain rfl := List.mem_singleton.mp hnew
          exact hA
  · rw [hacts.frame i fun h => hi h.symm]
    refine ⟨hpast, fun f hf hfi hfn => ?_⟩
    rcases List.mem_append.mp hf with hold | hnew
    · exact hall f hold hfi hfn
    · obtain rfl := List.mem_singleton.mp hnew
      exact absurd hfi hi

end Server
end Chat
