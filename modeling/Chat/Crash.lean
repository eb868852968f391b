import Chat.Semaphore
import Chat.Subscripts
import Chat.Requests

/-! Which undefined behaviour can end the server: a line that a client sent, or nothing where a line
should be, and a leave before the first join lead to one. The queues are never the cause. -/
namespace Chat
open Transition

namespace Connection

/-- The next line to be read is not fit for `receive`, or there is none. -/
def ReadsUnfit (conn : Connection) : Prop :=
  ¬ conn.mFdbuf.LineFails ∧ ¬ LineOk conn.mFdbuf.nextLine

/-- A call of `receive` may look past its fields just if the line is unfit, whatever the caller's
buffer and message; with no line to read the stale buffer decides. -/
theorem receive_error_iff (conn : Connection) (msg : Message) :
    (∃ buffer f, conn.receive buffer msg = .error f) ↔ conn.ReadsUnfit := by
  unfold ReadsUnfit
  rw [lineOk_iff_fieldsOk]
  by_cases hs : conn.mFdbuf.stream = []
  · have hline : conn.mFdbuf.nextLine = [] := by simp [Rio.nextLine, hs]
    have hfields : ¬ FieldsOk conn.mFdbuf.nextLine := by
      rw [hline]
      exact fun h => h.1 rfl
    simp only [hfields, not_false_eq_true, and_true]
    constructor
    · rintro ⟨buffer, f, hrec⟩ hfails
      obtain ⟨rp, hok⟩ := receive_fails hfails buffer msg
      cases hok.symm.trans hrec
    · intro hfails
      have hb : conn.mFdbuf.broken = false := by
        by_contra hb
        exact hfails ⟨Bool.eq_true_of_not_eq_false hb, by simp [hline], by simp [hs, lineMax, maxLen]⟩
      obtain ⟨rp, -, -, hrec⟩ := receive_eof hs hb [] msg
      exact ⟨[], .subscript, hrec.trans (unpack_error (l := []) (fun h => h.1 rfl) _ _)⟩
  · constructor
    · rintro ⟨buffer, f, hrec⟩
      have hfails : ¬ conn.mFdbuf.LineFails := fun hfails => by
        obtain ⟨rp, hok⟩ := receive_fails hfails buffer msg
        cases hok.symm.trans hrec
      refine ⟨hfails, fun hok => ?_⟩
      obtain ⟨rp, -, -, hline⟩ := receive_line hfails hs buffer msg
      obtain ⟨ok, m, r, hun, -⟩ := unpack_ok hok { conn with mFdbuf := rp } msg
      cases (hline.trans hun).symm.trans hrec
    · rintro ⟨hfails, hbad⟩
      obtain ⟨rp, -, -, hline⟩ := receive_line hfails hs [] msg
      exact ⟨[], .subscript, hline.trans (unpack_error hbad _ _)⟩

end Connection

namespace Thread

variable {i : Sid} {σ : Shared} {t t' : Thread} {c : Choice} {f : Fault}

/-- Where the code of a thread has come to undefined behaviour, the thread stays, and one of its calls
is why. -/
theorem next_fault (h : t.next i σ c = some (.fault f, t')) : t' = t ∧
    (((t.pc = .login ∨ t.pc = .receive) ∧ t.conn.receive c.buffer {} = .error f) ∧ f = .subscript ∨
      (t.pc.derefs = true ∧ t.room = none) ∧ f = .nullRoom ∨
      (t.pc = .dequeue .pop ∧ (σ.user i).mqueue.mMessages = []) ∧ f = .emptyQueue) := by
  cases step_of_next h with
  | inner h => cases h
  | subscript hpc =>
    refine ⟨rfl, .inl ⟨⟨hpc, ?_⟩, rfl⟩⟩
    rcases hpc with hpc | hpc
    · simp only [next, hpc] at h
      split at h
      · next f hrec =>
        obtain ⟨rfl, -⟩ := by simpa using h
        exact hrec
      · cases h
      · cases h
    · simp only [next, hpc] at h
      split at h
      · next f hrec =>
        obtain ⟨rfl, -⟩ := by simpa using h
        exact hrec
      · cases h
      · cases h
  | nullRoom hpc hroom => exact ⟨rfl, .inr (.inl ⟨⟨hpc, hroom⟩, rfl⟩)⟩
  | emptyQueue hpc hq => exact ⟨rfl, .inr (.inr ⟨⟨hpc, hq⟩, rfl⟩)⟩

end Thread

namespace Server

variable {es : List Event} {s s' : Server} {i : Sid} {n : ℕ} {f : Fault}

/-- What the code of session `i` is about to run into. -/
def Doomed (s : Server) (i : Sid) : Prop :=
  ((s.thread i).pc = .login ∨ (s.thread i).pc = .receive) ∧ (s.thread i).conn.ReadsUnfit ∨
    (s.thread i).pc.derefs = true ∧ (s.thread i).room = none

private theorem doomed_of_step (hrun : Run Server.Step {} es s) (hs : s.Step ⟨i, n, .fault f⟩ s') :
    s.Doomed i ∧ s'.thread i = s.thread i ∧ f ≠ .emptyQueue := by
  obtain ⟨c, hc⟩ := hs
  cases hfault : s.fault with
  | some f => cases c <;> simp [next, hfault] at hc
  | none =>
    cases c with
    | accept j fd reads writes =>
      cases hpc : (s.thread j).pc <;> simp [next, hfault, hpc] at hc
    | run j c =>
      cases hnext : (s.thread j).next j s.shared c with
      | none => simp [next, hfault, hnext] at hc
      | some p =>
        obtain ⟨a, t⟩ := p
        cases happly : s.shared.apply j a with
        | none => simp [next, hfault, hnext, happly] at hc
        | some σ =>
          obtain ⟨⟨rfl, -, rfl⟩, rfl⟩ := by simpa [next, hfault, hnext, happly] using hc
          obtain ⟨rfl, hcause⟩ := Thread.next_fault hnext
          rcases hcause with ⟨⟨hpc, hrec⟩, rfl⟩ | ⟨hnull, rfl⟩ | ⟨⟨hpc, hq⟩, -⟩
          · exact ⟨.inl ⟨hpc, ((s.thread j).conn.receive_error_iff {}).mp ⟨_, _, hrec⟩⟩, by simp, by decide⟩
          · exact ⟨.inr hnull, by simp, by decide⟩
          · exact absurd hq (mMessages_ne_nil hrun hpc)

private theorem step_of_doomed (halive : s.fault = none) (hdoomed : s.Doomed i) (hok : (s.thread i).Ok) :
    ∃ f s', s.Step ⟨i, (s.thread i).serial, .fault f⟩ s' := by
  have hstep {c : Choice} {f : Fault}
      (hnext : (s.thread i).next i s.shared c = some (.fault f, s.thread i)) :
      ∃ f s', s.Step ⟨i, (s.thread i).serial, .fault f⟩ s' := by
    refine ⟨f, ⟨s.shared, Function.update s.thread i (s.thread i), some (i, f)⟩, .run i c, ?_⟩
    simp [next, halive, hnext, Shared.apply]
  rcases hdoomed with ⟨hpc, hunfit⟩ | ⟨hpc, hroom⟩
  · obtain ⟨buffer, f, hrec⟩ := ((s.thread i).conn.receive_error_iff {}).mpr hunfit
    refine @hstep ⟨buffer, false⟩ f ?_
    rcases hpc with hpc | hpc <;> simp [Thread.next, hpc, hrec]
  · refine @hstep {} .nullRoom ?_
    unfold Thread.Ok at hok
    cases hp : (s.thread i).pc with
    | memberExists => simp [Thread.next, Thread.deref, hp, hroom]
    | removeMember | addMember | broadcast =>
      rw [hp] at hok
      exact absurd hroom hok.2
    | _ => simp [hp, Pc.derefs] at hpc

/-- The fault of a server is that of its last step. -/
private theorem fault_step (hrun : Run Server.Step {} es s) (hfault : s.fault = some (i, f)) :
    ∃ es₀ s₀ n, Run Server.Step {} es₀ s₀ ∧ s₀.Step ⟨i, n, .fault f⟩ s := by
  cases hrun with
  | nil => cases hfault
  | @snoc es₀ s₀ e _ hpre hs =>
    obtain ⟨j, n, a⟩ := e
    have hfaulted : a.faulted j = some (i, f) := hs.acts.1.fault.symm.trans hfault
    obtain ⟨rfl, rfl⟩ : j = i ∧ a = .fault f := by
      cases a <;> simp_all [Action.faulted]
    exact ⟨es₀, s₀, n, hpre, hs⟩

private def intruder : List Sched := .client 0 "delivery:x\n" :: Sched.steps 0 1

end Server
end Chat
