import Chat.Connection
import Chat.Lib.Transition
import Mathlib.Logic.Function.Basic

/-! `message_queue.cpp`: the atomic steps of `enqueue` and `dequeue`, and any number of
threads calling them on one queue. -/
namespace Chat

/-- `SEM_VALUE_MAX`; `sem_post` fails on a semaphore that has reached it. -/
def semValueMax : ℕ := 2147483647

structure MessageQueue (τ α : Type*) where
  mLock : Option τ := none
  mAvail : ℕ := 0
  mMessages : List α := []

/-- `wait` and `timeout` are the two returns of `sem_timedwait`; `pop` is `front` and
`pop_front`; `ret` is the end of `dequeue`, which also releases the lock. -/
inductive QueueAction (α : Type*)
  | lock
  | push (msg : α)
  | post
  | unlock
  | wait
  | timeout
  | pop (msg : α)
  | ret (msg : Option α)

/-- The effect of thread `t`'s action; `none` where the thread has to wait. -/
def MessageQueue.apply {τ α : Type*} (q : MessageQueue τ α) (t : τ) :
    QueueAction α → Option (MessageQueue τ α)
  | .lock => if q.mLock.isNone then some { q with mLock := some t } else none
  | .push msg => some { q with mMessages := q.mMessages ++ [msg] }
  | .post => some { q with mAvail := if q.mAvail < semValueMax then q.mAvail + 1 else q.mAvail }
  | .unlock => some { q with mLock := none }
  | .wait => if 0 < q.mAvail then some { q with mAvail := q.mAvail - 1 } else none
  | .timeout => some q
  | .pop _ => some { q with mMessages := q.mMessages.tail }
  | .ret _ => some { q with mLock := none }

/-- Where a thread is in `enqueue`. -/
inductive EnqueuePc
  | lock
  | push
  | post
  | unlock
  deriving DecidableEq

/-- The next action of `enqueue(msg)` and the position after it, if the call goes on. -/
def EnqueuePc.next {α : Type*} (msg : α) : EnqueuePc → QueueAction α × Option EnqueuePc
  | .lock => (.lock, some .push)
  | .push => (.push msg, some .post)
  | .post => (.post, some .unlock)
  | .unlock => (.unlock, none)

/-- Where a thread is in `dequeue`; `sem` tells whether `sem_timedwait` returned 0. -/
inductive DequeuePc (α : Type*)
  | wait
  | lock (sem : Bool)
  | pop
  | ret (msg : Option α)

/-- The next action of `dequeue`. A wait may time out at any moment. -/
def DequeuePc.next {τ α : Type*} (q : MessageQueue τ α) (timedOut : Bool) :
    DequeuePc α → Except Fault (QueueAction α × Option (DequeuePc α))
  | .wait => .ok (if timedOut then (.timeout, some (.lock false)) else (.wait, some (.lock true)))
  | .lock sem => .ok (.lock, some (if sem then .pop else .ret none))
  | .pop =>
    match q.mMessages with
    | msg :: _ => .ok (.pop msg, some (.ret (some msg)))
    | [] => .error .emptyQueue
  | .ret msg => .ok (.ret msg, none)

/-- What a thread is doing with the queue. -/
inductive Caller (α : Type*)
  | idle
  | enqueue (msg : α) (pc : EnqueuePc)
  | dequeue (pc : DequeuePc α)

structure QueueSystem (τ α : Type*) where
  queue : MessageQueue τ α := {}
  caller : τ → Caller α := fun _ => .idle

inductive QueueEvent (α : Type*)
  | callEnqueue (msg : α)
  | callDequeue
  | act (a : QueueAction α)
  | fault (f : Fault)

variable {τ α : Type*} [DecidableEq τ]

/-- One step of one thread: a call, the next action of the call it is in, or a fault. -/
inductive QueueStep : QueueSystem τ α → τ × QueueEvent α → QueueSystem τ α → Prop
  | callEnqueue {s t} (msg : α) : s.caller t = .idle →
      QueueStep s (t, .callEnqueue msg)
        { s with caller := Function.update s.caller t (.enqueue msg .lock) }
  | callDequeue {s t} : s.caller t = .idle →
      QueueStep s (t, .callDequeue)
        { s with caller := Function.update s.caller t (.dequeue .wait) }
  | enqueue {s t msg pc a pc' q} : s.caller t = .enqueue msg pc → pc.next msg = (a, pc') →
      s.queue.apply t a = some q →
      QueueStep s (t, .act a)
        ⟨q, Function.update s.caller t (pc'.elim .idle (.enqueue msg))⟩
  | dequeue {s t pc timedOut a pc' q} : s.caller t = .dequeue pc →
      pc.next s.queue timedOut = .ok (a, pc') → s.queue.apply t a = some q →
      QueueStep s (t, .act a) ⟨q, Function.update s.caller t (pc'.elim .idle .dequeue)⟩
  | fault {s t pc timedOut f} : s.caller t = .dequeue pc →
      pc.next s.queue timedOut = .error f → QueueStep s (t, .fault f) s

end Chat
