import Chat.Outbox
import Chat.Requests

/-! The lines that a session reads: one for its login, then one for each message. -/
namespace Chat
open Transition Lines

/-- Before the first call of `receive`. -/
def Pc.fresh : Pc → Bool
  | .unborn | .login => true
  | _ => false

/-- The action is where the session's reader begins, or a call of `receive`. -/
def Action.reads : Action → Bool
  | .accept _ | .login _ | .receive _ => true
  | _ => false

namespace Thread

/-- How many times the session has called `receive`. -/
def calls (t : Thread) : ℕ := if t.pc.fresh then 0 else t.serial + 1

/-- One call of `receive`, and what the action tells of it. -/
def Receives (t : Thread) (a : Action) (t' : Thread) : Prop :=
  ∃ buffer ok m, t.conn.receive buffer {} = .ok (ok, m, t'.conn) ∧ t'.calls = t.calls + 1 ∧
    (a = .login (if ok then some m else none) ∧ t.calls = 0 ∧ t'.serial = t.serial ∨
      a = .receive (if ok then some m else none) ∧ t.calls = t'.serial ∧
        t'.serial = t.serial + 1)

variable {i : Sid} {σ : Shared} {t t' : Thread} {a : Action}

theorem fresh_of_idle {pc : Pc} (h : pc.idle = true) : pc.fresh = false := by
  cases pc <;> first | rfl | cases h

theorem Step.reads (h : Step i σ t a t') (hok : t.Ok) :
    (∃ conn, a = .accept conn ∧ t.pc = .unborn ∧ t'.conn = conn ∧ t'.calls = 0 ∧ t'.serial = 0) ∨
      t.pc ≠ .unborn ∧ (t.Receives a t' ∨ a.reads = false ∧ t'.conn.mFdbuf = t.conn.mFdbuf ∧
        t'.calls = t.calls ∧ t'.serial = t.serial) := by
  have quiet (ha : a.reads = false) (hbuf : t'.conn.mFdbuf = t.conn.mFdbuf)
      (hserial : t'.serial = t.serial) (hpc : t.pc.fresh = false) (hpc' : t'.pc.fresh = false) :
      t.pc ≠ .unborn ∧ (t.Receives a t' ∨ a.reads = false ∧ t'.conn.mFdbuf = t.conn.mFdbuf ∧
        t'.calls = t.calls ∧ t'.serial = t.serial) := by
    refine ⟨fun hunborn => by simp [hunborn, Pc.fresh] at hpc, .inr ⟨ha, hbuf, ?_, hserial⟩⟩
    simp [calls, hpc, hpc', hserial]
  cases h with
  | inner h =>
    cases h <;> exact .inr (quiet rfl rfl rfl (by simp [*, Pc.fresh]) rfl)
  | accept fd reads writes hpc => exact .inl ⟨_, rfl, hpc, rfl, rfl, rfl⟩
  | @loginFail buffer msg conn hpc hrec =>
    obtain ⟨-, hserial⟩ : t.room = none ∧ t.serial = 0 := by simpa [Ok, hpc] using hok
    refine .inr ⟨by simp [hpc], .inl ⟨buffer, false, msg, hrec, ?_, .inl ⟨rfl, ?_, rfl⟩⟩⟩
    · simp [calls, hpc, hserial, Pc.fresh]
    · simp [calls, hpc, Pc.fresh]
  | @loginOk buffer msg conn hpc hrec =>
    obtain ⟨-, hserial⟩ : t.room = none ∧ t.serial = 0 := by simpa [Ok, hpc] using hok
    refine .inr ⟨by simp [hpc], .inl ⟨buffer, true, msg, hrec, ?_, .inl ⟨rfl, ?_, rfl⟩⟩⟩
    · simp [calls, hpc, hserial, Pc.fresh]
    · simp [calls, hpc, Pc.fresh]
  | @receiveFail buffer msg conn hpc hrec =>
    refine .inr ⟨by simp [hpc], .inl ⟨buffer, false, msg, hrec, ?_, .inr ⟨rfl, ?_, rfl⟩⟩⟩
    · simp [calls, hpc, Pc.fresh]
    · simp [calls, hpc, Pc.fresh]
  | @receiveOk buffer msg conn hpc hrec =>
    have hfresh : (dispatch t.role t.room msg.tag).fresh = false :=
      fresh_of_idle (dispatch_idle _ _ _)
    refine .inr ⟨by simp [hpc], .inl ⟨buffer, true, msg, hrec, ?_, .inr ⟨rfl, ?_, rfl⟩⟩⟩
    · simp only [calls, hfresh]
      simp [hpc, Pc.fresh]
    · simp [calls, hpc, Pc.fresh]
  | @loginReply accepted _ _ _ hpc hsend =>
    refine .inr (quiet rfl (Connection.send_frame hsend).2.1 rfl (by rw [hpc]; rfl) ?_)
    cases accepted <;> rfl
  | newSender hpc =>
    exact .inr (quiet rfl rfl rfl (by rw [hpc]; rfl) (fresh_of_idle (loopHead_idle _)))
  | removeRelease hpc =>
    exact .inr (quiet rfl rfl rfl (by rw [hpc]; rfl) (fresh_of_idle (removed_idle _)))
  | memberExists hpc =>
    exact .inr (quiet rfl rfl rfl (by rw [hpc]; rfl) (fresh_of_idle (exists_idle _ _)))
  | @reply resp resume _ _ hpc hsend =>
    exact .inr (quiet rfl (Connection.send_frame hsend).2.1 rfl (by rw [hpc]; rfl)
      (fresh_of_idle (resumed_idle _ resume)))
  | dequeueEnd hpc =>
    exact .inr (quiet rfl rfl rfl (by rw [hpc]; rfl) (fresh_of_idle (dequeued_idle _ _)))
  | deliver hpc hsend =>
    exact .inr (quiet rfl (Connection.send_frame hsend).2.1 rfl (by rw [hpc]; rfl)
      (fresh_of_idle (loopHead_idle _)))
  | newReceiver hpc | addRelease hpc | loopEnd hpc =>
    exact .inr (quiet rfl rfl rfl (by rw [hpc]; rfl) rfl)
  | close hpc =>
    refine .inr (quiet rfl ?_ rfl (by rw [hpc]; rfl) rfl)
    unfold Connection.close
    split <;> rfl
  | subscript hpc =>
    have hborn : t.pc ≠ .unborn := by rcases hpc with hpc | hpc <;> simp [hpc]
    exact .inr ⟨hborn, .inr ⟨rfl, rfl, rfl, rfl⟩⟩
  | nullRoom hpc =>
    have hborn : t.pc ≠ .unborn := fun hunborn => by simp [hunborn, Pc.derefs] at hpc
    exact .inr ⟨hborn, .inr ⟨rfl, rfl, rfl, rfl⟩⟩
  | emptyQueue hpc =>
    exact .inr ⟨by simp [hpc], .inr ⟨rfl, rfl, rfl, rfl⟩⟩

end Thread

namespace Server

variable {es : List Event} {s : Server} {i : Sid}

/-- What session `i` has read of the bytes `input` that its connection brings. -/
structure Reads (s : Server) (i : Sid) (input : Bytes) (es : List Event) : Prop where
  intact : (s.thread i).conn.mFdbuf.broken = false
  left : (s.thread i).conn.mFdbuf.stream = rest newline lineMax input (s.thread i).calls
  login : ∀ n m, ⟨i, n, .login m⟩ ∈ es → input ≠ [] → decode (line newline lineMax input 0) = m
  receive : ∀ n m, ⟨i, n, .receive m⟩ ∈ es → rest newline lineMax input n ≠ [] →
    decode (line newline lineMax input n) = m
  serial : (heard i es).length = (s.thread i).serial
  heard : ∀ (k : ℕ) (m : Option Message), (Chat.heard i es)[k]? = some m →
    rest newline lineMax input (k + 1) ≠ [] → decode (line newline lineMax input (k + 1)) = m

/-- A session that has not begun has done nothing. -/
theorem unborn_fresh (hrun : Run Server.Step {} es s) (hpc : (s.thread i).pc = .unborn) :
    ∀ e ∈ es, e.session ≠ i := by
  refine hrun.invariant (fun es s => ∀ i, (s.thread i).pc = .unborn → ∀ e ∈ es, e.session ≠ i)
    (fun _ _ => nofun) ?_ i hpc
  intro es s e s' _ ih hs i hpc e' he'
  obtain ⟨hacts, -⟩ := hs.acts
  have hother : e.session ≠ i := fun hi => by
    subst hi
    exact hacts.step.wire.1 hpc
  rcases List.mem_append.mp he' with hold | hnew
  · rw [hacts.frame i fun h => hother h.symm] at hpc
    exact ih i hpc e' hold
  · rwa [List.mem_singleton.mp hnew]

private theorem heard_unread {a : Action} (ha : a.reads = false) (n : ℕ) :
    heard i [⟨i, n, a⟩] = [] := by
  cases a <;> first | rfl | cases ha

private theorem Reads.quiet {s' : Server} {input : Bytes} {a : Action} (h : s.Reads i input es)
    (ha : a.reads = false) (hbuf : (s'.thread i).conn.mFdbuf = (s.thread i).conn.mFdbuf)
    (hcalls : (s'.thread i).calls = (s.thread i).calls)
    (hserial : (s'.thread i).serial = (s.thread i).serial) (n : ℕ) :
    s'.Reads i input (es ++ [⟨i, n, a⟩]) where
  intact := by rw [hbuf]; exact h.intact
  left := by rw [hbuf, hcalls]; exact h.left
  login k m hm := h.login k m (by
    rcases List.mem_append.mp hm with hold | hnew
    · exact hold
    · obtain ⟨-, rfl⟩ : k = n ∧ .login m = a := by simpa using hnew
      cases ha)
  receive k m hm := h.receive k m (by
    rcases List.mem_append.mp hm with hold | hnew
    · exact hold
    · obtain ⟨-, rfl⟩ : k = n ∧ .receive m = a := by simpa using hnew
      cases ha)
  serial := by rw [heard_append, heard_unread ha, List.append_nil, hserial, h.serial]
  heard k m hk := h.heard k m (by rwa [heard_append, heard_unread ha, List.append_nil] at hk)

/-- A call of `receive` takes the line that is next in number. -/
private theorem Reads.receives {s' : Server} {input : Bytes} {a : Action} (h : s.Reads i input es)
    (hr : (s.thread i).Receives a (s'.thread i)) :
    s'.Reads i input (es ++ [⟨i, (s'.thread i).serial, a⟩]) := by
  obtain ⟨buffer, ok, m, hrec, hcalls, ha⟩ := hr
  obtain ⟨hst, hb, hdec⟩ := Connection.receive_takes h.intact hrec
  have hleft : (s'.thread i).conn.mFdbuf.stream =
      rest newline lineMax input (s'.thread i).calls := by
    rw [hst, h.left, hcalls]
    rfl
  have hline : rest newline lineMax input (s.thread i).calls ≠ [] →
      decode (line newline lineMax input (s.thread i).calls) = if ok then some m else none := by
    rw [Rio.nextLine, h.left] at hdec
    exact hdec
  rcases ha with ⟨rfl, hzero, hserial⟩ | ⟨rfl, hnumber, hserial⟩
  · rw [hzero] at hline
    refine ⟨hb, hleft, fun k m' hm => ?_, fun k m' hm => ?_, ?_, fun k m' hk => ?_⟩
    · rcases List.mem_append.mp hm with hold | hnew
      · exact h.login k m' hold
      · obtain ⟨-, rfl⟩ : k = (s'.thread i).serial ∧ m' = if ok then some m else none := by
          simpa using hnew
        exact hline
    · exact h.receive k m' (by simpa using hm)
    · simpa [Chat.heard, hserial] using h.serial
    · exact h.heard k m' (by simpa [Chat.heard] using hk)
  · have hnew : Chat.heard i [⟨i, (s'.thread i).serial, .receive (if ok then some m else none)⟩] =
        [if ok then some m else none] := by simp [Chat.heard]
    rw [hnumber] at hline
    refine ⟨hb, hleft, fun k m' hm => ?_, fun k m' hm => ?_, ?_, fun k m' hk => ?_⟩
    · exact h.login k m' (by simpa using hm)
    · rcases List.mem_append.mp hm with hold | hnew
      · exact h.receive k m' hold
      · obtain ⟨rfl, rfl⟩ : k = (s'.thread i).serial ∧ m' = if ok then some m else none := by
          simpa using hnew
        exact hline
    · rw [heard_append, hnew, List.length_append, h.serial, hserial]
      rfl
    · rw [heard_append, hnew] at hk
      by_cases hlt : k < (Chat.heard i es).length
      · rw [List.getElem?_append_left hlt] at hk
        exact h.heard k m' hk
      · rw [List.getElem?_append_right (by omega)] at hk
        obtain ⟨hk0, rfl⟩ : k - (Chat.heard i es).length = 0 ∧
            (if ok then some m else none) = m' := by
          rw [List.getElem?_singleton] at hk
          split at hk
          · exact ⟨‹_›, Option.some.inj hk⟩
          · cases hk
        have hkn : k + 1 = (s'.thread i).serial := by
          rw [hserial, ← h.serial]
          omega
        rw [hkn]
        exact hline

/-- A session whose connection does not fail reads the lines that it brings, each once and in
order. -/
theorem reads (hrun : Run Server.Step {} es s) {n : ℕ} {conn : Connection}
    (haccept : ⟨i, n, .accept conn⟩ ∈ es) (hb : conn.mFdbuf.broken = false) :
    s.Reads i conn.mFdbuf.stream es := by
  refine hrun.invariant (fun es s => ∀ i n conn, ⟨i, n, .accept conn⟩ ∈ es →
    conn.mFdbuf.broken = false → s.Reads i conn.mFdbuf.stream es) (fun _ _ _ => nofun) ?_
    i n conn haccept hb
  intro es s e s' hrun ih hs i n conn hmem hb
  obtain ⟨j, k, a⟩ := e
  obtain ⟨hacts, rfl⟩ : s.Acts j a s' ∧ k = (s'.thread j).serial := hs.acts
  by_cases hj : j = i
  · subst hj
    rcases hacts.step.reads (ok hrun j) with ⟨conn', rfl, hpc, hconn, hcalls, hserial⟩ | ⟨hborn, hstep⟩
    · have hnone := unborn_fresh hrun hpc
      have hfirst : heard j es = [] := by
        refine List.filterMap_eq_nil_iff.mpr fun e he => ?_
        cases e.action <;> simp [hnone e he]
      have hfresh : ∀ k a, (⟨j, k, a⟩ : Event) ∉ es := fun k a hold => hnone _ hold rfl
      obtain rfl : conn = conn' := by
        rcases List.mem_append.mp hmem with hold | hnew
        · exact absurd hold (hfresh _ _)
        · obtain ⟨-, rfl⟩ : n = (s'.thread j).serial ∧ conn = conn' := by simpa using hnew
          rfl
      refine ⟨by rw [hconn, hb], by rw [hconn, hcalls]; rfl, ?_, ?_, ?_, ?_⟩
      · intro k m hm
        simp [hfresh] at hm
      · intro k m hm
        simp [hfresh] at hm
      · rw [heard_append, hfirst, hserial]
        rfl
      · intro k m hk
        rw [heard_append, hfirst] at hk
        simp [heard] at hk
    · have hold : ⟨j, n, .accept conn⟩ ∈ es := by
        rcases List.mem_append.mp hmem with hold | hnew
        · exact hold
        · obtain ⟨-, rfl⟩ : n = (s'.thread j).serial ∧ .accept conn = a := by simpa using hnew
          rcases hstep with ⟨_, _, _, -, -, ⟨ha, -⟩ | ⟨ha, -⟩⟩ | ⟨ha, -⟩ <;> cases ha
      rcases hstep with hr | ⟨ha, hbuf, hcalls, hserial⟩
      · exact (ih j n conn hold hb).receives hr
      · exact (ih j n conn hold hb).quiet ha hbuf hcalls hserial _
  · have hold : ⟨i, n, .accept conn⟩ ∈ es := by
      simpa [Ne.symm hj] using hmem
    have hreads := ih i n conn hold hb
    have hframe := hacts.frame i (Ne.symm hj)
    have hsame : heard i (es ++ [⟨j, (s'.thread j).serial, a⟩]) = heard i es := by
      rw [heard_append, heard_other hj, List.append_nil]
    refine ⟨by rw [hframe]; exact hreads.intact, by rw [hframe]; exact hreads.left, ?_, ?_, ?_, ?_⟩
    · exact fun k m hm => hreads.login k m (by simpa [Ne.symm hj] using hm)
    · exact fun k m hm => hreads.receive k m (by simpa [Ne.symm hj] using hm)
    · rw [hsame, hframe, hreads.serial]
    · rw [hsame]
      exact hreads.heard

end Server
end Chat
