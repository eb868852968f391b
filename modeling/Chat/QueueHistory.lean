import Chat.MessageQueue
import Chat.Lib.Tally

/-! The queue over all interleavings: its semaphore never promises a message that is not
there, and messages leave in the order they entered. -/
namespace Chat
open Transition Counting

variable {τ α : Type*}

def pushed (es : List (τ × QueueEvent α)) : List α :=
  es.filterMap fun e => match e.2 with
    | .act (.push msg) => some msg
    | _ => none

def popped (es : List (τ × QueueEvent α)) : List α :=
  es.filterMap fun e => match e.2 with
    | .act (.pop msg) => some msg
    | _ => none

namespace Caller

/-- Past a successful wait and before the pop it allows. -/
def awaited : Caller α → Bool
  | .dequeue (.lock true) => true
  | .dequeue .pop => true
  | _ => false

/-- Between the push and its post. -/
def posting : Caller α → Bool
  | .enqueue _ .post => true
  | _ => false

/-- In a `dequeue` whose wait timed out. -/
def timedOut : Caller α → Bool
  | .dequeue (.lock false) => true
  | .dequeue (.ret none) => true
  | _ => false

/-- The message a thread has popped and not yet returned. -/
def inHand : Caller α → List α
  | .dequeue (.ret (some msg)) => [msg]
  | _ => []

end Caller

/-- What one step of thread `t` does, position by position. -/
inductive QueueMove (q : MessageQueue τ α) (t : τ) :
    Caller α → QueueEvent α → Caller α → MessageQueue τ α → Prop
  | callEnqueue (msg : α) : QueueMove q t .idle (.callEnqueue msg) (.enqueue msg .lock) q
  | callDequeue : QueueMove q t .idle .callDequeue (.dequeue .wait) q
  | enqueueLock (msg : α) : q.mLock = none →
      QueueMove q t (.enqueue msg .lock) (.act .lock) (.enqueue msg .push)
        { q with mLock := some t }
  | push (msg : α) : QueueMove q t (.enqueue msg .push) (.act (.push msg)) (.enqueue msg .post)
      { q with mMessages := q.mMessages ++ [msg] }
  | post (msg : α) : QueueMove q t (.enqueue msg .post) (.act .post) (.enqueue msg .unlock)
      { q with mAvail := if q.mAvail < semValueMax then q.mAvail + 1 else q.mAvail }
  | unlock (msg : α) : QueueMove q t (.enqueue msg .unlock) (.act .unlock) .idle
      { q with mLock := none }
  | wait : 0 < q.mAvail → QueueMove q t (.dequeue .wait) (.act .wait) (.dequeue (.lock true))
      { q with mAvail := q.mAvail - 1 }
  | timeout : QueueMove q t (.dequeue .wait) (.act .timeout) (.dequeue (.lock false)) q
  | dequeueLock (sem : Bool) : q.mLock = none →
      QueueMove q t (.dequeue (.lock sem)) (.act .lock)
        (.dequeue (if sem then .pop else .ret none)) { q with mLock := some t }
  | pop {msg : α} {rest : List α} : q.mMessages = msg :: rest →
      QueueMove q t (.dequeue .pop) (.act (.pop msg)) (.dequeue (.ret (some msg)))
        { q with mMessages := rest }
  | ret (msg : Option α) : QueueMove q t (.dequeue (.ret msg)) (.act (.ret msg)) .idle
      { q with mLock := none }
  | fault : q.mMessages = [] →
      QueueMove q t (.dequeue .pop) (.fault .emptyQueue) (.dequeue .pop) q

private theorem enqueue_move {q q' : MessageQueue τ α} {t : τ} {msg : α} {pc : EnqueuePc}
    {a : QueueAction α} {pc' : Option EnqueuePc} (hnext : pc.next msg = (a, pc'))
    (happly : q.apply t a = some q') :
    QueueMove q t (.enqueue msg pc) (.act a) (pc'.elim .idle (.enqueue msg)) q' := by
  cases pc <;> obtain ⟨rfl, rfl⟩ := Prod.mk.inj hnext
  · obtain ⟨hfree, rfl⟩ := by simpa [MessageQueue.apply] using happly
    exact .enqueueLock msg hfree
  · obtain rfl := by simpa [MessageQueue.apply] using happly
    exact .push msg
  · obtain rfl := by simpa [MessageQueue.apply] using happly
    exact .post msg
  · obtain rfl := by simpa [MessageQueue.apply] using happly
    exact .unlock msg

private theorem dequeue_move {q q' : MessageQueue τ α} {t : τ} {pc : DequeuePc α} {timedOut : Bool}
    {a : QueueAction α} {pc' : Option (DequeuePc α)} (hnext : pc.next q timedOut = .ok (a, pc'))
    (happly : q.apply t a = some q') :
    QueueMove q t (.dequeue pc) (.act a) (pc'.elim .idle .dequeue) q' := by
  cases pc with
  | wait =>
    cases timedOut with
    | true =>
      obtain ⟨rfl, rfl⟩ := Prod.mk.inj (Except.ok.inj hnext)
      obtain rfl := by simpa [MessageQueue.apply] using happly
      exact .timeout
    | false =>
      obtain ⟨rfl, rfl⟩ := Prod.mk.inj (Except.ok.inj hnext)
      obtain ⟨hpos, rfl⟩ := by simpa [MessageQueue.apply] using happly
      exact .wait hpos
  | lock sem =>
    obtain ⟨rfl, rfl⟩ := Prod.mk.inj (Except.ok.inj hnext)
    obtain ⟨hfree, rfl⟩ := by simpa [MessageQueue.apply] using happly
    exact .dequeueLock sem hfree
  | pop =>
    cases hq : q.mMessages with
    | nil => simp [DequeuePc.next, hq] at hnext
    | cons msg rest =>
      obtain ⟨rfl, rfl⟩ : .pop msg = a ∧ some (.ret (some msg)) = pc' := by
        simpa [DequeuePc.next, hq] using hnext
      obtain rfl := by simpa [MessageQueue.apply, hq] using happly
      exact .pop hq
  | ret msg =>
    obtain ⟨rfl, rfl⟩ := Prod.mk.inj (Except.ok.inj hnext)
    obtain rfl := by simpa [MessageQueue.apply] using happly
    exact .ret msg

/-- Every message on the queue is promised by the semaphore, to a consumer past its wait, by a
producer about to post, or is one of the `lost` whose post failed. -/
def Counts (s : QueueSystem τ α) (lost : ℕ) : Prop :=
  ∃ a p, Tally Caller.awaited s.caller a ∧ Tally Caller.posting s.caller p ∧
    s.queue.mAvail + a + p + lost = s.queue.mMessages.length

theorem Counts.initial : Counts ({} : QueueSystem τ α) 0 :=
  ⟨0, 0, .zero fun _ => rfl, .zero fun _ => rfl, rfl⟩

variable [DecidableEq τ]

/-- What thread `t` popped. -/
def poppedBy (t : τ) (es : List (τ × QueueEvent α)) : List α :=
  popped (es.filter fun e => e.1 = t)

/-- What thread `t`'s calls of `dequeue` returned, timeouts left out. -/
def returnedBy (t : τ) (es : List (τ × QueueEvent α)) : List α :=
  es.filterMap fun e => match e with
    | (u, .act (.ret msg)) => if u = t then msg else none
    | _ => none

theorem QueueStep.move {s s' : QueueSystem τ α} {t : τ} {e : QueueEvent α}
    (h : QueueStep s (t, e) s') :
    ∃ c q, QueueMove s.queue t (s.caller t) e c q ∧ s' = ⟨q, Function.update s.caller t c⟩ := by
  cases h with
  | callEnqueue msg hidle => exact ⟨_, _, hidle ▸ .callEnqueue msg, rfl⟩
  | callDequeue hidle => exact ⟨_, _, hidle ▸ .callDequeue, rfl⟩
  | enqueue hpc hnext happly => exact ⟨_, _, hpc ▸ enqueue_move hnext happly, rfl⟩
  | dequeue hpc hnext happly => exact ⟨_, _, hpc ▸ dequeue_move hnext happly, rfl⟩
  | @fault _ pc timedOut f hpc herr =>
    have hself : s = ⟨s.queue, Function.update s.caller t (.dequeue pc)⟩ := by
      rw [← hpc, Function.update_eq_self]
    cases pc with
    | pop =>
      cases hq : s.queue.mMessages with
      | nil =>
        obtain rfl : Fault.emptyQueue = f := by simpa [DequeuePc.next, hq] using herr
        exact ⟨_, _, by rw [hpc]; exact .fault hq, hself⟩
      | cons msg rest => simp [DequeuePc.next, hq] at herr
    | _ => cases herr

/-- A step in which `sem_post`, if the step is one, succeeds. -/
def PostOk (s : QueueSystem τ α) (e : τ × QueueEvent α) : Prop :=
  match e.2 with
  | .act .post => s.queue.mAvail < semValueMax
  | _ => True

theorem Counts.step {s s' : QueueSystem τ α} {e : τ × QueueEvent α} {lost : ℕ}
    (h : Counts s lost) (hs : QueueStep s e s') :
    ∃ lost', Counts s' lost' ∧ (PostOk s e → lost' = lost) := by
  obtain ⟨a, p, ha, hp, hcount⟩ := h
  obtain ⟨t, e⟩ := e
  obtain ⟨c, q, hmove, rfl⟩ := hs.move
  obtain ⟨a', ha', hea⟩ := ha.move t c
  obtain ⟨p', hp', hep⟩ := hp.move t c
  -- how many posts this step loses is decided before the case split
  have hclose : ∀ lost', q.mAvail + a' + p' + lost' = q.mMessages.length →
      Counts ⟨q, Function.update s.caller t c⟩ lost' := fun _ hn => ⟨a', p', ha', hp', hn⟩
  generalize hcaller : s.caller t = c₀ at hmove hea hep
  cases hmove with
  | post msg =>
    simp only [Caller.awaited, Caller.posting, Bool.toNat_false, Bool.toNat_true] at hea hep
    by_cases hroom : s.queue.mAvail < semValueMax
    · exact ⟨lost, hclose _ (by simp only [if_pos hroom]; omega), fun _ => rfl⟩
    · exact ⟨lost + 1, hclose _ (by simp only [if_neg hroom]; omega), fun hok => absurd hok hroom⟩
  | push msg =>
    simp only [Caller.awaited, Caller.posting, Bool.toNat_false, Bool.toNat_true] at hea hep
    exact ⟨lost, hclose _ (by simp only [List.length_append, List.length_singleton]; omega),
      fun _ => rfl⟩
  | pop hq =>
    simp only [Caller.awaited, Caller.posting, Bool.toNat_false, Bool.toNat_true] at hea hep
    rw [hq, List.length_cons] at hcount
    exact ⟨lost, hclose _ (by (try dsimp only); omega), fun _ => rfl⟩
  | dequeueLock sem hfree =>
    cases sem <;> simp [Caller.awaited, Caller.posting] at hea hep <;>
      exact ⟨lost, hclose _ (by (try dsimp only); omega), fun _ => rfl⟩
  | _ =>
    simp only [Caller.awaited, Caller.posting, Bool.toNat_false, Bool.toNat_true] at hea hep
    exact ⟨lost, hclose _ (by (try dsimp only); omega), fun _ => rfl⟩

omit [DecidableEq τ] in
/-- A consumer that is about to call `front` has a message to take. -/
theorem Counts.front_nonempty {s : QueueSystem τ α} {lost : ℕ} (h : Counts s lost) {t : τ}
    (ht : s.caller t = .dequeue .pop) : s.queue.mMessages ≠ [] := by
  obtain ⟨a, p, ha, -, hcount⟩ := h
  have hpos : 0 < a := ha.pos (by rw [ht]; rfl : (s.caller t).awaited = true)
  intro hempty
  rw [hempty, List.length_nil] at hcount
  omega

theorem Counts.not_fault {s s' : QueueSystem τ α} {e : τ × QueueEvent α} {lost : ℕ}
    (h : Counts s lost) (hs : QueueStep s e s') (f : Fault) : e.2 ≠ .fault f := by
  obtain ⟨t, e⟩ := e
  obtain ⟨c, q, hmove, -⟩ := hs.move
  generalize hcaller : s.caller t = c₀ at hmove
  cases hmove with
  | fault hq => exact absurd hq (h.front_nonempty hcaller)
  | _ => simp

/-- No interleaving makes `front` or `pop_front` run on an empty deque, not even when posts
fail. -/
theorem front_never_empty {s : QueueSystem τ α} {es : List (τ × QueueEvent α)}
    (h : Run QueueStep {} es s) :
    (∀ t, s.caller t = .dequeue .pop → s.queue.mMessages ≠ []) ∧ ∀ e ∈ es, ∀ f, e.2 ≠ .fault f := by
  suffices hinv : (∃ lost, Counts s lost) ∧ ∀ e ∈ es, ∀ f, e.2 ≠ .fault f from
    ⟨fun t ht => hinv.1.choose_spec.front_nonempty ht, hinv.2⟩
  refine h.invariant (fun es s => (∃ lost, Counts s lost) ∧ ∀ e ∈ es, ∀ f, e.2 ≠ .fault f)
    ⟨⟨0, .initial⟩, by simp⟩ ?_
  intro es s e s' _ ih hs
  obtain ⟨⟨lost, hc⟩, hes⟩ := ih
  obtain ⟨lost', hc', -⟩ := hc.step hs
  refine ⟨⟨lost', hc'⟩, fun x hx => ?_⟩
  rcases List.mem_append.mp hx with hx | hx
  · exact hes x hx
  · obtain rfl := List.mem_singleton.mp hx
    exact hc.not_fault hs

/-- The messages on the deque are those pushed and not yet popped, in order, and each thread's
calls return what that thread popped. -/
structure Fifo (es : List (τ × QueueEvent α)) (s : QueueSystem τ α) : Prop where
  order : pushed es = popped es ++ s.queue.mMessages
  returned : ∀ t, returnedBy t es ++ (s.caller t).inHand = poppedBy t es

private theorem Fifo.step_order {es : List (τ × QueueEvent α)} {s s' : QueueSystem τ α}
    {e : τ × QueueEvent α} (h : Fifo es s) (hs : QueueStep s e s') :
    pushed (es ++ [e]) = popped (es ++ [e]) ++ s'.queue.mMessages := by
  obtain ⟨t, e⟩ := e
  obtain ⟨c, q, hmove, rfl⟩ := hs.move
  have horder := h.order
  unfold pushed popped at *
  rw [List.filterMap_append, List.filterMap_append, horder]
  generalize s.caller t = c₀ at hmove
  cases hmove with
  | pop hq => simp [hq]
  | _ => simp

private theorem Fifo.step_returned {es : List (τ × QueueEvent α)} {s s' : QueueSystem τ α}
    {e : τ × QueueEvent α} (h : Fifo es s) (hs : QueueStep s e s') (u : τ) :
    returnedBy u (es ++ [e]) ++ (s'.caller u).inHand = poppedBy u (es ++ [e]) := by
  obtain ⟨t, e⟩ := e
  obtain ⟨c, q, hmove, rfl⟩ := hs.move
  have hret := h.returned u
  unfold returnedBy poppedBy popped at *
  rw [List.filterMap_append, List.filter_append, List.filterMap_append, ← hret]
  by_cases hu : u = t
  · subst hu
    generalize s.caller u = c₀ at hmove
    cases hmove with
    | dequeueLock sem => cases sem <;> simp [Caller.inHand]
    | ret msg => cases msg <;> simp [Caller.inHand]
    | _ => simp [Caller.inHand]
  · generalize s.caller t = c₀ at hmove
    cases hmove <;> simp [hu, Ne.symm hu]

theorem Fifo.run {s : QueueSystem τ α} {es : List (τ × QueueEvent α)} (h : Run QueueStep {} es s) :
    Fifo es s := by
  refine h.invariant Fifo ⟨rfl, fun _ => rfl⟩ ?_
  intro es s e s' _ ih hs
  exact ⟨ih.step_order hs, ih.step_returned hs⟩

/-- A `dequeue` that timed out leaves the deque and the semaphore alone to its end, and returns
no message. -/
theorem timedOut_step {s s' : QueueSystem τ α} {t : τ} {e : QueueEvent α}
    (hs : QueueStep s (t, e) s') (ht : e = .act .timeout ∨ (s.caller t).timedOut = true) :
    s'.queue.mMessages = s.queue.mMessages ∧ s'.queue.mAvail = s.queue.mAvail ∧
      ((s'.caller t).timedOut = true ∨ e = .act (.ret none)) := by
  obtain ⟨c, q, hmove, rfl⟩ := hs.move
  simp only [Function.update_self]
  generalize s.caller t = c₀ at hmove ht
  cases hmove with
  | timeout => exact ⟨rfl, rfl, .inl rfl⟩
  | dequeueLock sem =>
    cases sem with
    | true => simp [Caller.timedOut] at ht
    | false => exact ⟨rfl, rfl, .inl rfl⟩
  | ret msg =>
    cases msg with
    | none => exact ⟨rfl, rfl, .inr rfl⟩
    | some msg => simp [Caller.timedOut] at ht
  | _ => simp [Caller.timedOut] at ht

/-- The queue under any interleaving of its callers, as long as `sem_post` succeeds. -/
theorem queue_correct {s : QueueSystem τ α} {es : List (τ × QueueEvent α)}
    (h : Run (fun s e s' => QueueStep s e s' ∧ PostOk s e) {} es s) :
    (∀ t, s.caller t = .dequeue .pop → s.queue.mMessages ≠ []) ∧
    (∀ e ∈ es, ∀ f, e.2 ≠ .fault f) ∧
    pushed es = popped es ++ s.queue.mMessages ∧
    (∀ t, returnedBy t es ++ (s.caller t).inHand = poppedBy t es) ∧
    (∀ t e s', QueueStep s (t, e) s' → (e = .act .timeout ∨ (s.caller t).timedOut = true) →
      s'.queue.mMessages = s.queue.mMessages ∧ s'.queue.mAvail = s.queue.mAvail ∧
        ((s'.caller t).timedOut = true ∨ e = .act (.ret none))) ∧
    ((∀ t, s.caller t = .idle) → s.queue.mAvail = s.queue.mMessages.length) := by
  have hrun : Run QueueStep {} es s := h.mono fun _ _ _ hs => hs.1
  have hcounts : Counts s 0 := h.invariant (fun _ s => Counts s 0) .initial
    fun _ _ _ _ _ ih hs => by
      obtain ⟨lost, hc, hlost⟩ := ih.step hs.1
      rwa [hlost hs.2] at hc
  obtain ⟨hfront, hfault⟩ := front_never_empty hrun
  have hfifo := Fifo.run hrun
  refine ⟨hfront, hfault, hfifo.order, hfifo.returned, fun _ _ _ => timedOut_step, fun hidle => ?_⟩
  obtain ⟨a, p, ha, hp, hcount⟩ := hcounts
  have ha0 := ha.eq_zero fun t => by rw [hidle t]; rfl
  have hp0 := hp.eq_zero fun t => by rw [hidle t]; rfl
  omega

private abbrev SafeStep : QueueSystem ℕ ℕ → ℕ × QueueEvent ℕ → QueueSystem ℕ ℕ → Prop :=
  fun s e s' => QueueStep s e s' ∧ PostOk s e

/-- Thread 1 takes the message that thread 0 is still enqueueing. -/
theorem queue_correct_handoff : ∃ es s, Run SafeStep {} es s ∧ popped es = [7] ∧
    pushed es = popped es ++ s.queue.mMessages := by
  have h₀ : Run SafeStep {} [] {} := .nil
  have h₁ := h₀.snoc (show SafeStep _ (0, _) _ from ⟨.callEnqueue 7 rfl, trivial⟩)
  have h₂ := h₁.snoc (show SafeStep _ (1, _) _ from ⟨.callDequeue rfl, trivial⟩)
  have h₃ := h₂.snoc (show SafeStep _ (0, _) _ from ⟨.enqueue rfl rfl rfl, trivial⟩)
  have h₄ := h₃.snoc (show SafeStep _ (0, _) _ from ⟨.enqueue rfl rfl rfl, trivial⟩)
  have h₅ := h₄.snoc (show SafeStep _ (0, _) _ from
    ⟨.enqueue rfl rfl rfl, (by decide : 0 < semValueMax)⟩)
  have h₆ := h₅.snoc (show SafeStep _ (1, _) _ from
    ⟨.dequeue rfl (show DequeuePc.next _ false _ = _ from rfl) rfl, trivial⟩)
  have h₇ := h₆.snoc (show SafeStep _ (0, _) _ from ⟨.enqueue rfl rfl rfl, trivial⟩)
  have h₈ := h₇.snoc (show SafeStep _ (1, _) _ from
    ⟨.dequeue rfl (show DequeuePc.next _ false _ = _ from rfl) rfl, trivial⟩)
  have h₉ := h₈.snoc (show SafeStep _ (1, _) _ from
    ⟨.dequeue rfl (show DequeuePc.next _ false _ = _ from rfl) rfl, trivial⟩)
  exact ⟨_, _, h₉, rfl, (queue_correct h₉).2.2.1⟩

end Chat
