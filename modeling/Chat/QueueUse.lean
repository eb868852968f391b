import Chat.Inbox
import Chat.QueueHistory
import Chat.Lib.Simulation

/-! Every user's queue in the server is a queue under its callers: what holds of the queue alone
holds of it in every run of the server. -/
namespace Chat
open Transition

/-- The call that a caller is in goes on unchanged, or an idle caller begins one. -/
inductive Caller.Begins {α : Type*} : Caller α → Caller α → Prop
  | stay (c : Caller α) : Begins c c
  | enqueue (msg : α) : Begins .idle (.enqueue msg .lock)
  | dequeue : Begins .idle (.dequeue .wait)

/-- A caller in a call does its next action `b`. -/
inductive Caller.Acts {τ α : Type*} (q : MessageQueue τ α) :
    Caller α → QueueAction α → Caller α → Prop
  | enqueue {msg : α} {pc a pc'} : pc.next msg = (a, pc') →
      Acts q (.enqueue msg pc) a (pc'.elim .idle (.enqueue msg))
  | dequeue {pc : DequeuePc α} {timedOut a pc'} : pc.next q timedOut = .ok (a, pc') →
      Acts q (.dequeue pc) a (pc'.elim .idle .dequeue)

namespace Thread

/-- What thread `i` is doing with the queue of user `u`. -/
def caller (u i : Sid) (t : Thread) : Caller Message :=
  match t.pc with
  | .broadcast (.enqueue v msg pc) => if v = u then .enqueue msg pc else .idle
  | .dequeue pc => if i = u then .dequeue pc else .idle
  | _ => .idle

variable {u i : Sid} {σ : Shared} {t t' : Thread} {a : Action}

theorem begins_of_idle (h : t.pc.idle = true ∨ t.pc.early = true) :
    Caller.Begins .idle (t.caller u i) := by
  unfold caller
  rcases h with h | h
  · generalize t.pc = pc at h
    cases pc with
    | broadcast pc => cases pc <;> first | exact .stay _ | cases h
    | dequeue pc =>
      cases pc with
      | wait =>
        by_cases hi : i = u
        · simpa [hi] using .dequeue
        · simpa [hi] using .stay _
      | lock | pop | ret => cases h
    | _ => exact .stay _
  · generalize t.pc = pc at h
    cases pc <;> first | exact .stay _ | cases h

/-- What a step does with the queue of user `u`: nothing but perhaps beginning a call, or the next
action of the call. -/
def Uses (u i : Sid) (σ : Shared) (t : Thread) (a : Action) (t' : Thread) : Prop :=
  (∀ b, a ≠ .queue u b) ∧ (t.caller u i).Begins (t'.caller u i) ∨
  ∃ b c, a = .queue u b ∧ Caller.Acts (σ.user u).mqueue (t.caller u i) b c ∧
    c.Begins (t'.caller u i)

private theorem Inner.uses (h : Inner i σ t a t') (u : Sid) : Uses u i σ t a t' := by
  have hquiet (ha : ∀ b, a ≠ .queue u b) (ht : t.caller u i = .idle)
      (ht' : t'.caller u i = .idle) : Uses u i σ t a t' := .inl ⟨ha, by rw [ht, ht']; exact .stay _⟩
  cases h with
  | @visitOther r v hpc =>
    refine .inl ⟨fun _ => Action.noConfusion, ?_⟩
    by_cases hv : v = u
    · simpa [caller, hpc, hv] using Caller.Begins.enqueue _
    · simpa [caller, hpc, hv] using .stay _
  | @enqueue r v msg pc a pc' hpc hr hnext =>
    by_cases hv : v = u
    · subst hv
      refine .inr ⟨a, .enqueue msg pc', rfl, ?_, ?_⟩
      · simpa [caller, hpc] using @Caller.Acts.enqueue _ _ (σ.user v).mqueue _ _ _ _ hnext
      · simpa [caller] using .stay _
    · refine hquiet (fun b hb => ?_) (by simp [caller, hpc, hv]) (by simp [caller, hv])
      cases hb
      exact hv rfl
  | @enqueueEnd r v msg hpc =>
    by_cases hv : v = u
    · subst hv
      refine .inr ⟨.unlock, .idle, rfl, ?_, .stay _⟩
      have hnext : EnqueuePc.unlock.next msg = (.unlock, none) := rfl
      simpa [caller, hpc] using @Caller.Acts.enqueue _ _ (σ.user v).mqueue _ _ _ _ hnext
    · refine hquiet (fun b hb => ?_) (by simp [caller, hpc, hv]) rfl
      cases hb
      exact hv rfl
  | @dequeue pc timedOut a pc' hpc hnext =>
    by_cases hi : i = u
    · subst hi
      refine .inr ⟨a, .dequeue pc', rfl, ?_, ?_⟩
      · simpa [caller, hpc] using @Caller.Acts.dequeue _ _ (σ.user i).mqueue _ _ _ _ hnext
      · simpa [caller] using .stay _
    · refine hquiet (fun b hb => ?_) (by simp [caller, hpc, hi]) (by simp [caller, hi])
      cases hb
      exact hi rfl
  | removeAcquire hpc | removeBody hpc | findAcquire hpc | findBody hpc | findRelease hpc
  | addAcquire hpc | addBody hpc | broadcastAcquire hpc | broadcastStart hpc | visitSame hpc =>
    exact hquiet (fun _ => Action.noConfusion) (by simp [caller, hpc]) rfl

theorem Step.uses (h : Step i σ t a t') (u : Sid) : Uses u i σ t a t' := by
  have hplain (ha : ∀ b, a ≠ .queue u b) (ht : t.caller u i = .idle)
      (ht' : t'.pc.idle = true ∨ t'.pc.early = true) : Uses u i σ t a t' :=
    .inl ⟨ha, by rw [ht]; exact begins_of_idle ht'⟩
  cases h with
  | inner h => exact h.uses u
  | @dequeueEnd res hpc =>
    by_cases hi : i = u
    · subst hi
      refine .inr ⟨.ret res, .idle, rfl, ?_, begins_of_idle (.inl (dequeued_idle t res))⟩
      have hnext : (DequeuePc.ret res).next (σ.user i).mqueue false = .ok (.ret res, none) := rfl
      simpa [caller, hpc] using Caller.Acts.dequeue hnext
    · refine hplain (fun b hb => ?_) (by simp [caller, hpc, hi]) (.inl (dequeued_idle t res))
      cases hb
      exact hi rfl
  | accept _ _ _ hpc | loginFail hpc | loginOk hpc =>
    exact hplain (fun _ => Action.noConfusion) (by simp [caller, hpc]) (.inr rfl)
  | @loginReply accepted _ _ _ hpc =>
    refine hplain (fun _ => Action.noConfusion) (by simp [caller, hpc]) ?_
    cases accepted with
    | true => exact .inr rfl
    | false => exact .inl rfl
  | newSender hpc | deliver hpc =>
    exact hplain (fun _ => Action.noConfusion) (by simp [caller, hpc]) (.inl (loopHead_idle _))
  | receiveOk hpc =>
    exact hplain (fun _ => Action.noConfusion) (by simp [caller, hpc]) (.inl (dispatch_idle _ _ _))
  | removeRelease hpc =>
    exact hplain (fun _ => Action.noConfusion) (by simp [caller, hpc]) (.inl (removed_idle _))
  | memberExists hpc =>
    exact hplain (fun _ => Action.noConfusion) (by simp [caller, hpc]) (.inl (exists_idle _ _))
  | @reply resp resume _ _ hpc =>
    exact hplain (fun _ => Action.noConfusion) (by simp [caller, hpc]) (.inl (resumed_idle _ resume))
  | newReceiver hpc | receiveFail hpc | addRelease hpc | loopEnd hpc | close hpc =>
    exact hplain (fun _ => Action.noConfusion) (by simp [caller, hpc]) (.inl rfl)
  | subscript | nullRoom | emptyQueue => exact .inl ⟨fun _ => Action.noConfusion, .stay _⟩

/-- The only actions on a user's queue are calls of `enqueue` and `dequeue`. -/
theorem Step.user_cases (h : Step i σ t a t') (ha : a.user i = some u) :
    (∃ b, a = .queue u b) ∨ u = i ∧ ∃ username, a = .newUser username := by
  cases h with
  | inner h =>
    cases h with
    | enqueue | enqueueEnd | dequeue => exact .inl ⟨_, by rw [Option.some.inj ha]⟩
    | _ => cases ha
  | newSender | newReceiver => exact .inr ⟨(Option.some.inj ha).symm, _, rfl⟩
  | dequeueEnd => exact .inl ⟨_, by rw [Option.some.inj ha]⟩
  | _ => cases ha

end Thread

theorem Shared.Effect.newUser_queue {σ σ' : Shared} {i : Sid} {username : Bytes}
    (h : Effect σ i (.newUser username) σ') : (σ'.user i).mqueue = {} := by
  cases h with
  | keep hq => cases hq
  | acquire hl => cases hl
  | release hl => cases hl
  | newUser => simp [setUser]

section Queue

variable {τ α : Type*} [DecidableEq τ] {q : QueueSystem τ α} {t : τ}

private theorem begin_run {c : Caller α} (h : (q.caller t).Begins c) :
    ∃ qes, Run QueueStep q qes ⟨q.queue, Function.update q.caller t c⟩ ∧ pushed qes = [] ∧
      popped qes = [] := by
  generalize hc : q.caller t = c₀ at h
  cases h with
  | stay =>
    refine ⟨[], ?_, rfl, rfl⟩
    rw [← hc, Function.update_eq_self]
    exact .nil
  | enqueue msg => exact ⟨_, .single (.callEnqueue msg hc), rfl, rfl⟩
  | dequeue => exact ⟨_, .single (.callDequeue hc), rfl, rfl⟩

private theorem acts_step {b : QueueAction α} {c : Caller α} {q' : MessageQueue τ α}
    (h : Caller.Acts q.queue (q.caller t) b c) (happly : q.queue.apply t b = some q') :
    QueueStep q (t, .act b) ⟨q', Function.update q.caller t c⟩ := by
  generalize hc : q.caller t = c₀ at h
  cases h with
  | enqueue hnext => exact .enqueue hc hnext happly
  | dequeue hnext => exact .dequeue hc hnext happly

end Queue

namespace Server

variable {s s' : Server} {e : Event} {es : List Event} {i : Sid} {a : Action}

/-- The queue of user `u` with what every thread is doing with it. -/
def queueSystem (s : Server) (u : Sid) : QueueSystem Sid Message :=
  ⟨(s.shared.user u).mqueue, fun i => (s.thread i).caller u i⟩

private theorem queueSystem_update (hs : s.Acts i a s') (u : Sid) :
    s'.queueSystem u = ⟨(s'.shared.user u).mqueue,
      Function.update (s.queueSystem u).caller i ((s'.thread i).caller u i)⟩ := by
  unfold queueSystem
  congr 1
  funext k
  by_cases hk : k = i
  · subst hk
    simp
  · simp [hk, hs.frame k hk]

/-- An action that is not on a user's queue leaves it as it is. -/
private theorem mqueue_frame (hrun : Run Server.Step {} es s) (hs : s.Acts i a s') {u : Sid}
    (ha : ∀ b, a ≠ .queue u b) : (s'.shared.user u).mqueue = (s.shared.user u).mqueue := by
  by_cases huser : a.user i = some u
  · rcases hs.step.user_cases huser with ⟨b, hb⟩ | ⟨rfl, username, rfl⟩
    · exact absurd hb (ha b)
    · rw [hs.effect.newUser_queue, (newcomers hrun).blank u hs.step.newUser_of]
  · rw [hs.effect.user_frame huser]

private theorem queue_step (hrun : Run Server.Step {} es s) (hs : s.Step e s') (u : Sid) :
    ∃ qes, Run QueueStep (s.queueSystem u) qes (s'.queueSystem u) ∧
      pushed qes = (posts u [e]).map (·.msg) ∧ popped qes = taken u [e] := by
  obtain ⟨i, a, t, σ, halive, ht, happly, rfl, hs'⟩ := hs.move
  have hacts : s.Acts i a s' := hs.acts.1
  rw [queueSystem_update hacts]
  rcases hacts.step.uses u with ⟨hother, hbegins⟩ | ⟨b, c, rfl, hcall, hbegins⟩
  · obtain ⟨qes, hqrun, hpushed, hpopped⟩ := @begin_run _ _ _ (s.queueSystem u) i _ hbegins
    refine ⟨qes, by rwa [mqueue_frame hrun hacts hother], ?_, ?_⟩
    · rw [hpushed]
      cases a with
      | queue v b =>
        have hv : v ≠ u := fun hv => hother b (by rw [hv])
        cases b <;> simp [posts, hv]
      | _ => rfl
    · rw [hpopped]
      cases a with
      | queue v b =>
        have hv : v ≠ u := fun hv => hother b (by rw [hv])
        cases b <;> simp [taken, hv]
      | _ => rfl
  · obtain ⟨q, hq, rfl⟩ : ∃ q, (s.shared.user u).mqueue.apply i b = some q ∧
        s.shared.setUser u { s.shared.user u with mqueue := q } = σ := by
      simpa [Shared.apply, Option.bind_eq_some_iff] using happly
    have hstep := @acts_step _ _ _ (s.queueSystem u) i b c q hcall hq
    obtain ⟨qes, hqrun, hpushed, hpopped⟩ := @begin_run _ _ _
      ⟨q, Function.update (s.queueSystem u).caller i c⟩ i _ (by simpa using hbegins)
    refine ⟨_, .cons hstep (by simpa [hs', Shared.setUser] using hqrun), ?_, ?_⟩
    · unfold pushed at hpushed ⊢
      rw [List.filterMap_cons, hpushed]
      cases b <;> simp [posts]
    · unfold popped at hpopped ⊢
      rw [List.filterMap_cons, hpopped]
      cases b <;> simp [taken]

/-- Seen from one user's queue, a run of the server is a run of the queue under its callers. -/
theorem queue_run (hrun : Run Server.Step {} es s) (u : Sid) :
    ∃ qes, Run QueueStep {} qes (s.queueSystem u) ∧ pushed qes = (posts u es).map (·.msg) ∧
      popped qes = taken u es := by
  have hsim := hrun.simulate QueueStep {} (fun es s qes q => q = s.queueSystem u ∧
    pushed qes = (posts u es).map (·.msg) ∧ popped qes = taken u es) ⟨rfl, rfl, rfl⟩ ?_
  · obtain ⟨qes, q, hqrun, rfl, hpushed, hpopped⟩ := hsim
    exact ⟨qes, hqrun, hpushed, hpopped⟩
  rintro es s e s' qes q hrun - ⟨rfl, hpushed, hpopped⟩ hs
  obtain ⟨qes', hqrun, hpushed', hpopped'⟩ := queue_step hrun hs u
  refine ⟨qes', _, hqrun, rfl, ?_, ?_⟩
  · unfold pushed at *
    rw [List.filterMap_append, hpushed, hpushed', posts_append, List.map_append]
  · unfold popped at *
    rw [List.filterMap_append, hpopped, hpopped', taken_append]

end Server
end Chat
