import Chat.SenderMachine
import Chat.Inbox

/-! `chat_with_sender` does for its messages what the machine does, whatever the other threads
do in between. -/
namespace Chat
open Transition

/-- What an action of a session lets see. -/
def Action.shown : Action → List Visible
  | .receive m => [.heard m]
  | .broadcast r sender text => [.cast (some r) sender text]
  | .reply resp _ => [.said resp]
  | _ => []

/-- What is seen of session `i`, with the number of the message that it is for. -/
def visible (i : Sid) (es : List Event) : List (ℕ × Visible) :=
  es.flatMap fun e => if e.session = i then e.action.shown.map (Prod.mk e.serial) else []

@[simp] theorem visible_append (i : Sid) (es es' : List Event) :
    visible i (es ++ es') = visible i es ++ visible i es' :=
  List.flatMap_append

theorem visible_other {i : Sid} {e : Event} (h : e.session ≠ i) : visible i [e] = [] := by
  simp [visible, h]

theorem visible_own (i : Sid) (n : ℕ) (a : Action) :
    visible i [⟨i, n, a⟩] = a.shown.map (Prod.mk n) := by
  simp [visible]

namespace Thread

/-- The user of thread `i` is in the room of the phase, which is where the pointer points. -/
def Attached (σ : Shared) (rooms : Bytes → Option RoomId) (i : Sid) (t : Thread) : Phase → Prop
  | .outside => ∀ q, i ∉ (σ.room q).members
  | .inside n => ∃ r, rooms n = some r ∧ t.room = some r ∧ i ∈ (σ.room r).members
  | .ended => False

/-- Sender `i` is still to do `vs` for its message, and is in phase `p` then. -/
def Expects (σ : Shared) (rooms : Bytes → Option RoomId) (i : Sid) (t : Thread)
    (vs : List Visible) (p : Phase) : Prop :=
  match t.pc with
  | .receive => vs = [] ∧ t.Attached σ rooms i p
  | .reply resp .loop => vs = [.said resp] ∧ t.Attached σ rooms i p
  | .reply resp _ => vs = [.said resp] ∧ p = .ended
  | .removeMember _ =>
    if t.msg.tag = tagJoin then vs = [.said joinOk] ∧ p = .inside t.msg.data
    else vs = [.said leaveOk] ∧ p = .outside
  | .findOrCreateRoom _ | .addMember _ => vs = [.said joinOk] ∧ p = .inside t.msg.data
  | .memberExists => t.msg.tag ≠ tagQuit ∧ t.msg.tag ≠ tagJoin ∧ ∃ p₀, t.Attached σ rooms i p₀ ∧
      p₀.answer rooms (σ.user i).username (some t.msg) = (p, vs)
  | .broadcast .acquire => t.Attached σ rooms i p ∧
      vs = [.cast t.room (σ.user i).username t.msg.data, .said sendallOk]
  | .broadcast _ => t.Attached σ rooms i p ∧ vs = [.said sendallOk]
  | .close | .done => vs = [] ∧ p = .ended
  | _ => False

variable {i : Sid} {σ σ' : Shared} {rooms : Bytes → Option RoomId} {t t' : Thread} {a : Action}
  {vs : List Visible} {p : Phase}

theorem Attached.mono (h : t.Attached σ rooms i p) (hroom : t'.room = t.room)
    (hmem : ∀ r, i ∈ (σ'.room r).members ↔ i ∈ (σ.room r).members) :
    t'.Attached σ' rooms i p := by
  cases p with
  | outside => exact fun q hq => h q ((hmem q).mp hq)
  | inside n =>
    obtain ⟨r, hn, hr, hi⟩ := h
    exact ⟨r, hn, hroom.trans hr, (hmem r).mpr hi⟩
  | ended => exact h

/-- What a session expects is not for other threads to change. -/
theorem Expects.mono (h : t.Expects σ rooms i vs p)
    (hmem : ∀ r, i ∈ (σ'.room r).members ↔ i ∈ (σ.room r).members)
    (hname : (σ'.user i).username = (σ.user i).username) : t.Expects σ' rooms i vs p := by
  have hatt : ∀ {p}, t.Attached σ rooms i p → t.Attached σ' rooms i p := fun h => h.mono rfl hmem
  unfold Expects at h ⊢
  generalize t.pc = pc at h ⊢
  cases pc with
  | receive => exact ⟨h.1, hatt h.2⟩
  | reply resp resume =>
    cases resume with
    | loop => exact ⟨h.1, hatt h.2⟩
    | close | ret => exact h
  | memberExists =>
    obtain ⟨hquit, hjoin, p₀, hp₀, hanswer⟩ := h
    exact ⟨hquit, hjoin, p₀, hatt hp₀, hname ▸ hanswer⟩
  | broadcast pc =>
    cases pc with
    | acquire => exact ⟨hatt h.1, hname ▸ h.2⟩
    | start | loop | enqueue => exact ⟨hatt h.1, h.2⟩
  | _ => exact h

/-- A sender takes up a message. -/
theorem Expects.receive {m : Option Message} (h : t.Expects σ rooms i vs p)
    (ht : Step i σ t (.receive m) t') (hrole : t.role = .sender) :
    vs = [] ∧ p ≠ .ended ∧ t'.Expects σ rooms i (p.answer rooms (σ.user i).username m).2
      (p.answer rooms (σ.user i).username m).1 := by
  cases ht with
  | inner ht => cases ht
  | receiveFail hpc =>
    obtain ⟨rfl, hatt⟩ : vs = [] ∧ t.Attached σ rooms i p := by simpa only [Expects, hpc] using h
    refine ⟨rfl, fun hended => by simp [hended, Attached] at hatt, ?_⟩
    simp [Expects, hrole, Phase.answer]
  | @receiveOk buffer msg conn hpc hrec =>
    obtain ⟨rfl, hatt⟩ : vs = [] ∧ t.Attached σ rooms i p := by simpa only [Expects, hpc] using h
    refine ⟨rfl, fun hended => by simp [hended, Attached] at hatt, ?_⟩
    have hdispatch := dispatch_cases t.role t.room msg.tag
    unfold Expects
    dsimp only
    generalize dispatch t.role t.room msg.tag = pc at hdispatch ⊢
    cases hdispatch with
    | quit _ htag => simp [Phase.answer, htag]
    | rejoin _ htag | join _ htag => simp [Phase.answer, htag, show tagJoin ≠ tagQuit by decide]
    | leave _ htag =>
      have hquit : msg.tag ≠ tagQuit := by rw [htag]; decide
      have hjoin : msg.tag ≠ tagJoin := by rw [htag]; decide
      exact ⟨hquit, hjoin, p, hatt, rfl⟩
    | sendall _ hquit hjoin => exact ⟨hquit, hjoin, p, hatt, rfl⟩
    | outside _ hquit hjoin hleave hroom =>
      cases p with
      | outside => simpa [Phase.answer, hquit, hjoin, hleave, Attached] using hatt
      | inside n => simp [Attached, hroom] at hatt
      | ended => simp [Attached] at hatt
    | firstJoin hrec | notJoin hrec => simp [hrole] at hrec

/-- The outcome of `member_exists` is what the machine goes by. -/
private theorem expects_exists {r : RoomId} {found : Bool} (hr : t.room = some r)
    (hfound : found = true ↔ i ∈ (σ.room r).members)
    (h : t.msg.tag ≠ tagQuit ∧ t.msg.tag ≠ tagJoin ∧ ∃ p₀, t.Attached σ rooms i p₀ ∧
      p₀.answer rooms (σ.user i).username (some t.msg) = (p, vs)) :
    Expects σ rooms i { t with
      pc := if t.msg.tag = tagLeave then
          if found then .removeMember .acquire else .reply leaveError .loop
        else if found then .broadcast .acquire else .reply sendallError .loop } vs p := by
  obtain ⟨hquit, hjoin, p₀, hatt, hanswer⟩ := h
  cases p₀ with
  | outside =>
    have hno : found = false := by
      rw [← Bool.not_eq_true, hfound]
      exact hatt r
    rw [Phase.answer_outside hquit hjoin] at hanswer
    obtain ⟨rfl, rfl⟩ := Prod.mk.inj hanswer
    by_cases hleave : t.msg.tag = tagLeave <;> simpa [Expects, hno, hleave, Attached] using hatt
  | inside n =>
    obtain ⟨q, hn, hq, hmem⟩ := hatt
    obtain rfl : q = r := by simpa [hq] using hr
    have hyes : found = true := hfound.mpr hmem
    rw [Phase.answer_inside hquit hjoin] at hanswer
    by_cases hleave : t.msg.tag = tagLeave
    · rw [if_pos hleave] at hanswer
      obtain ⟨rfl, rfl⟩ := Prod.mk.inj hanswer
      simp [Expects, hyes, hleave, show tagLeave ≠ tagJoin by decide]
    · rw [if_neg hleave] at hanswer
      obtain ⟨rfl, rfl⟩ := Prod.mk.inj hanswer
      simp [Expects, hyes, hleave, Attached, hn, hq, hmem]
  | ended => exact hatt.elim

/-- A sender goes on with the message that it has taken up. -/
theorem Expects.step (h : t.Expects σ rooms i vs p) (ht : Step i σ t a t')
    (hrole : t.role = .sender) (hopen : t.conn.isOpen = true) (hrecv : ∀ m, a ≠ .receive m)
    (habsent : t.pc.absent = true → ∀ r, i ∉ (σ.room r).members)
    (hpresent : t.Present → ∀ r, t.room = some r → i ∈ (σ.room r).members)
    (hjoining : ∀ pc r, t.pc = .addMember pc → t.room = some r → rooms t.msg.data = some r) :
    ∃ vs', vs = a.shown ++ vs' ∧ t'.Expects σ rooms i vs' p := by
  cases ht with
  | inner ht =>
    cases ht with
    | removeAcquire hpc | removeBody hpc | findAcquire hpc | findBody hpc | findRelease hpc
    | addAcquire hpc | addBody hpc =>
      exact ⟨vs, rfl, by simpa only [Expects, hpc] using h⟩
    | broadcastAcquire hpc hr =>
      obtain ⟨hatt, rfl⟩ := by simpa only [Expects, hpc] using h
      exact ⟨[.said sendallOk], by rw [hr]; rfl, hatt, rfl⟩
    | broadcastStart hpc | visitOther hpc | visitSame hpc | enqueue hpc | enqueueEnd hpc =>
      obtain ⟨hatt, hvs⟩ : t.Attached σ rooms i p ∧ vs = [.said sendallOk] := by
        simpa only [Expects, hpc] using h
      exact ⟨vs, rfl, hatt, hvs⟩
    | dequeue hpc => simp [Expects, hpc] at h
  | receiveFail => exact absurd rfl (hrecv _)
  | receiveOk => exact absurd rfl (hrecv _)
  | removeRelease hpc hr =>
    have hnone := habsent (by rw [hpc]; rfl)
    simp only [Expects, hpc] at h
    refine ⟨vs, rfl, ?_⟩
    by_cases hjoin : t.msg.tag = tagJoin
    · simpa [Expects, hjoin] using h
    · obtain ⟨rfl, rfl⟩ : vs = [.said leaveOk] ∧ p = .outside := by simpa [hjoin] using h
      simpa [Expects, hjoin, Attached] using hnone
  | addRelease hpc hr =>
    obtain ⟨rfl, rfl⟩ := by simpa only [Expects, hpc] using h
    have hmem := hpresent (.inr (.inl hpc)) _ hr
    exact ⟨[.said joinOk], rfl, rfl, _, hjoining _ _ hpc hr, hr, hmem⟩
  | @memberExists r found hpc hr hfound =>
    simp only [Expects, hpc] at h
    exact ⟨vs, rfl, expects_exists hr hfound h⟩
  | loopEnd hpc =>
    obtain ⟨hatt, rfl⟩ := by simpa only [Expects, hpc] using h
    exact ⟨[.said sendallOk], rfl, rfl, hatt⟩
  | @reply resp resume sent conn hpc hsend =>
    have hhead : { t with conn := conn }.loopHead = .receive := by
      simp [loopHead, Connection.isOpen, Connection.send_frame hsend, hrole] at hopen ⊢
      exact hopen
    cases resume with
    | loop =>
      obtain ⟨rfl, hatt⟩ : vs = [.said resp] ∧ t.Attached σ rooms i p := by
        simpa only [Expects, hpc] using h
      refine ⟨[], rfl, ?_⟩
      unfold Expects
      dsimp only
      rw [hhead]
      exact ⟨rfl, hatt⟩
    | close | ret =>
      obtain ⟨rfl, rfl⟩ : vs = [.said resp] ∧ p = .ended := by simpa only [Expects, hpc] using h
      exact ⟨[], rfl, rfl, rfl⟩
  | close hpc =>
    obtain ⟨rfl, rfl⟩ := by simpa only [Expects, hpc] using h
    exact ⟨[], rfl, rfl, rfl⟩
  | subscript | nullRoom | emptyQueue => exact ⟨vs, rfl, h⟩
  | accept _ _ _ hpc | loginFail hpc | loginOk hpc | loginReply hpc | newSender hpc
  | newReceiver hpc | dequeueEnd hpc | deliver hpc => simp [Expects, hpc] at h

/-- The positions after a change of a room do not look at the rooms. -/
theorem Expects.moved (h : t'.Expects σ rooms i vs p) (ht : Step i σ t a t')
    (ha : ∃ r, a = .insert r ∨ a = .erase r) : t'.Expects σ' rooms i vs p := by
  obtain ⟨r, rfl | rfl⟩ := ha
  all_goals
    cases ht with
    | inner ht =>
      cases ht
      exact h

/-- Sessions that have begun have their connection open: only `close` at their end counts. -/
private theorem Step.isOpen (h : Step i σ t a t') (ht : t.pc ≠ .unborn → t.conn.isOpen = true)
    (hpc' : t'.pc ≠ .unborn) : t'.conn.isOpen = true := by
  have keep {conn : Connection} (hpc : t.pc ≠ .unborn) (hfd : conn.mFd = t.conn.mFd) :
      conn.isOpen = true := by
    have hopen := ht hpc
    unfold Connection.isOpen at hopen ⊢
    rwa [hfd]
  cases h with
  | inner h => cases h <;> exact ht (by simp [*])
  | accept fd => simp [Connection.isOpen, Connection.ofFd]
  | loginFail hpc hrec | loginOk hpc hrec | receiveFail hpc hrec | receiveOk hpc hrec =>
    exact keep (by simp [hpc]) (Connection.receive_frame hrec).1
  | loginReply hpc hsend | reply hpc hsend | deliver hpc hsend =>
    exact keep (by simp [hpc]) (Connection.send_frame hsend).1
  | close hpc =>
    refine keep (by simp [hpc]) ?_
    unfold Connection.close
    split <;> rfl
  | subscript | nullRoom | emptyQueue => exact ht hpc'
  | _ => exact ht (by simp [*])

theorem Step.queue_late {u : Sid} {b : QueueAction Message} (h : Step i σ t (.queue u b) t') :
    t.pc.early = false := by
  cases h with
  | inner h =>
    cases h with
    | enqueue hpc | enqueueEnd hpc | dequeue hpc => simp [hpc, Pc.early]
  | dequeueEnd hpc => simp [hpc, Pc.early]

/-- A sender touches queues only inside a broadcast. -/
theorem Step.queue_of {u : Sid} {b : QueueAction Message} (h : Step i σ t (.queue u b) t')
    (hok : t.Ok) (hrole : t.role = .sender) :
    ∃ msg pc, t.pc = .broadcast (.enqueue u msg pc) := by
  cases h with
  | inner h =>
    cases h with
    | enqueue hpc | enqueueEnd hpc => exact ⟨_, _, hpc⟩
    | dequeue hpc => simp [Ok, hpc, hrole] at hok
  | dequeueEnd hpc => simp [Ok, hpc, hrole] at hok

theorem Step.newUser_late {username : Bytes} (h : Step i σ t (.newUser username) t') :
    t'.pc.early = false := by
  cases h with
  | inner h => cases h
  | newSender => exact early_of_idle (loopHead_idle _)
  | newReceiver => rfl

theorem Step.newUser_receive {username : Bytes} (h : Step i σ t (.newUser username) t') (hok : t.Ok)
    (hopen : t.pc ≠ .unborn → t.conn.isOpen = true) (hrole : t'.role = .sender) :
    t'.pc = .receive ∧ t'.serial = 0 := by
  cases h with
  | inner h => cases h
  | newSender hpc =>
    obtain ⟨-, hserial⟩ : t.room = none ∧ t.serial = 0 := by simpa [Ok, hpc] using hok
    exact ⟨by simp [loopHead, hopen (by simp [hpc])], hserial⟩
  | newReceiver => cases hrole

/-- Before a session has its user nothing is seen of it. -/
theorem Step.unseen (h : Step i σ t a t') (ht : t.pc.early = true) (n : ℕ) :
    a.shown = [] ∧ heard i [⟨i, n, a⟩] = [] := by
  cases h with
  | inner h => cases h <;> first | exact ⟨rfl, rfl⟩ | simp_all [Pc.early]
  | receiveFail hpc | receiveOk hpc | reply hpc => simp [hpc, Pc.early] at ht
  | _ => exact ⟨rfl, rfl⟩

end Thread

namespace Server

variable {es : List Event} {s s' : Server} {e : Event}

theorem isOpen (hrun : Run Server.Step {} es s) (i : Sid) (hpc : (s.thread i).pc ≠ .unborn) :
    (s.thread i).conn.isOpen = true :=
  @thread_invariant (fun t => t.pc ≠ .unborn → t.conn.isOpen = true) (fun h => absurd rfl h)
    Thread.Step.isOpen _ _ hrun i hpc

/-- The history of sender `i` is what the machine does for the messages heard, less what is
expected of the session for the last one. -/
def Simulates (s : Server) (i : Sid) (es : List Event) : Prop :=
  ∀ rooms, (∀ n r, s.shared.mRooms n = some r → rooms n = some r) → ∃ p exs vs,
    execute (Phase.next rooms (s.shared.user i).username) (.outside, 0) (heard i es) =
      some (exs, p, (s.thread i).serial) ∧
    visible i es ++ vs.map (Prod.mk (s.thread i).serial) = exs.flatten ∧
    (s.thread i).Expects s.shared rooms i vs p

section Steps

variable {i : Sid} {a : Action}

private theorem heard_quiet (hrecv : ∀ m, a ≠ .receive m) (n : ℕ) : heard i [⟨i, n, a⟩] = [] := by
  cases a with
  | receive m => exact absurd rfl (hrecv m)
  | _ => rfl

theorem members_same (hrun : Run Server.Step {} es s) (hs : s.Acts i a s') {j : Sid}
    (h : j ≠ i ∨ ∀ r, a ≠ .insert r ∧ a ≠ .erase r) (r : RoomId) :
    j ∈ (s'.shared.room r).members ↔ j ∈ (s.shared.room r).members := by
  rw [(registered hrun).members hs.step hs.effect r j]
  rcases h with hj | ha
  · simp [hj]
  · simp [(ha r).1, (ha r).2]

theorem Simulates.other (h : Simulates s i es) (hrun : Run Server.Step {} es s) (hs : s.Step e s')
    (hi : i ≠ e.session) (hlate : (s.thread i).pc.early = false) : Simulates s' i (es ++ [e]) := by
  obtain ⟨hacts, -⟩ := hs.acts
  have hname := username_step hacts.step hacts.effect hlate
  intro rooms hrooms
  obtain ⟨p, exs, vs, hexec, hvisible, hexpects⟩ :=
    h rooms fun n r hn => hrooms n r (hacts.effect.mRooms_mono hn)
  refine ⟨p, exs, vs, ?_, ?_, ?_⟩
  · rw [heard_append, heard_other fun h => hi h.symm, List.append_nil, hname, hacts.frame i hi, hexec]
  · rw [visible_append, visible_other fun h => hi h.symm, List.append_nil, hacts.frame i hi, hvisible]
  · rw [hacts.frame i hi]
    exact hexpects.mono (members_same hrun hacts (.inl hi)) hname

/-- One step of the session itself: the machine takes a message, or the session does the next
of what is expected. -/
theorem Simulates.own (h : Simulates s i es) (hrun : Run Server.Step {} es s) (hs : s.Acts i a s')
    (hrole : (s.thread i).role = .sender) (hlate : (s.thread i).pc.early = false) :
    Simulates s' i (es ++ [⟨i, (s'.thread i).serial, a⟩]) := by
  have hname := username_step hs.step hs.effect hlate
  intro rooms hrooms
  obtain ⟨p, exs, vs, hexec, hvisible, hexpects⟩ :=
    h rooms fun n r hn => hrooms n r (hs.effect.mRooms_mono hn)
  rw [heard_append, visible_append, hname]
  rcases hs.step.serial_cases (ok hrun i) with ⟨m, rfl, -, hserial⟩ | ⟨hrecv, hserial⟩
  · obtain ⟨rfl, hp, hexpects'⟩ := hexpects.receive hs.step hrole
    have hheard : heard i [⟨i, (s'.thread i).serial, .receive m⟩] = [m] := by simp [heard]
    have hexec' := execute_snoc hexec (Phase.next_of_ne_ended hp _ m)
    rw [hheard, visible_own, hserial]
    refine ⟨_, _, _, hexec', ?_, hexpects'.mono ?_ hname⟩
    · simp only [List.map_nil, List.append_nil] at hvisible
      simp [hvisible, Action.shown]
    · exact members_same hrun hs (.inr fun r => ⟨Action.noConfusion, Action.noConfusion⟩)
  · have hmember := membership hrun i
    have hjoining : ∀ pc r, (s.thread i).pc = .addMember pc → (s.thread i).room = some r →
        rooms (s.thread i).msg.data = some r := fun pc r hpc hr =>
      hrooms _ r (hs.effect.mRooms_mono (((registered hrun).pointers i).joining pc r hpc hr))
    have hopen := isOpen hrun i fun hpc => by simp [hpc, Pc.early] at hlate
    obtain ⟨vs', rfl, hexpects'⟩ := hexpects.step hs.step hrole hopen hrecv hmember.absent
      hmember.present hjoining
    refine ⟨p, exs, vs', ?_, ?_, ?_⟩
    · rw [heard_quiet hrecv, List.append_nil, hserial, hexec]
    · rw [visible_own, List.append_assoc, hserial, ← List.map_append, hvisible]
    · by_cases hmoved : ∃ r, a = .insert r ∨ a = .erase r
      · exact hexpects'.moved hs.step hmoved
      · exact hexpects'.mono (members_same hrun hs (.inr (by simpa using hmoved))) hname

end Steps

/-- The user of a session has the name it was made with. -/
theorem newUser_username (hrun : Run Server.Step {} es s) {i : Sid} {n : ℕ} {username : Bytes}
    (hnew : ⟨i, n, .newUser username⟩ ∈ es) :
    (s.thread i).pc.early = false ∧ (s.shared.user i).username = username := by
  refine hrun.invariant (fun es s => ∀ i n username, ⟨i, n, .newUser username⟩ ∈ es →
    (s.thread i).pc.early = false ∧ (s.shared.user i).username = username) nofun ?_ i n username hnew
  intro es s e s' hrun ih hs i n username hmem
  obtain ⟨hacts, -⟩ := hs.acts
  rcases List.mem_append.mp hmem with hold | hnew
  · obtain ⟨hlate, hname⟩ := ih i n username hold
    exact ⟨(early_step hs hlate).1, (username_step hacts.step hacts.effect hlate).trans hname⟩
  · obtain rfl := List.mem_singleton.mp hnew
    exact ⟨hacts.step.newUser_late, hacts.effect.newUser_name⟩

/-- Where a sender session begins: outside, with nothing heard. -/
private theorem Acts.start {i : Sid} {username : Bytes} (hs : s.Acts i (.newUser username) s')
    (hrun : Run Server.Step {} es s) (hrole : (s'.thread i).role = .sender)
    (hvisible : visible i es = []) (hheard : heard i es = []) (n : ℕ) :
    Simulates s' i (es ++ [⟨i, n, .newUser username⟩]) := by
  have habsent : ∀ r, i ∉ (s.shared.room r).members := by
    refine (membership hrun i).absent ?_
    have hearly := hs.step.newUser_of
    generalize (s.thread i).pc = pc at hearly ⊢
    cases pc <;> first | rfl | cases hearly
  have hmem : ∀ r, i ∈ (s'.shared.room r).members ↔ i ∈ (s.shared.room r).members :=
    members_same hrun hs (.inr fun r => ⟨Action.noConfusion, Action.noConfusion⟩)
  obtain ⟨hpc, hserial⟩ := hs.step.newUser_receive (ok hrun i) (isOpen hrun i) hrole
  intro rooms _
  rw [heard_append, visible_append, hheard, hvisible, hserial]
  refine ⟨.outside, [], [], rfl, by simp [visible_own, Action.shown], ?_⟩
  unfold Thread.Expects
  rw [hpc]
  exact ⟨rfl, fun q hq => habsent q ((hmem q).mp hq)⟩

theorem simulates (hrun : Run Server.Step {} es s) (i : Sid) :
    ((s.thread i).pc.early = true → visible i es = [] ∧ heard i es = [] ∧
      ∀ n username, ⟨i, n, .newUser username⟩ ∉ es) ∧
    ∀ n username, ⟨i, n, .newUser username⟩ ∈ es → (s.thread i).role = .sender →
      Simulates s i es := by
  refine hrun.invariant (fun es s => ∀ i,
    ((s.thread i).pc.early = true → visible i es = [] ∧ heard i es = [] ∧
      ∀ n username, ⟨i, n, .newUser username⟩ ∉ es) ∧
    ∀ n username, ⟨i, n, .newUser username⟩ ∈ es → (s.thread i).role = .sender →
      Simulates s i es) (fun i => ⟨fun _ => ⟨rfl, rfl, nofun⟩, nofun⟩) ?_ i
  intro es s e s' hrun ih hs i
  obtain ⟨j, n, a⟩ := e
  obtain ⟨hacts, rfl⟩ : s.Acts j a s' ∧ n = (s'.thread j).serial := hs.acts
  obtain ⟨hearly, hsim⟩ := ih i
  by_cases hi : i = j
  · subst hi
    have hsplit : ∀ {k username}, (⟨i, k, .newUser username⟩ : Event) ∈ es ++ [⟨i, (s'.thread i).serial, a⟩] →
        ⟨i, k, .newUser username⟩ ∈ es ∨ a = .newUser username := by
      intro k username hmem
      rcases List.mem_append.mp hmem with hold | hnew
      · exact .inl hold
      · obtain ⟨-, -, rfl⟩ : i = i ∧ k = (s'.thread i).serial ∧ .newUser username = a := by
          simpa using hnew
        exact .inr rfl
    by_cases hpc : (s.thread i).pc.early = true
    · obtain ⟨hvisible, hheard, hfresh⟩ := hearly hpc
      obtain ⟨hshown, hquiet⟩ := hacts.step.unseen hpc (s'.thread i).serial
      refine ⟨fun hpc' => ⟨by simp [visible_own, hvisible, hshown], by simp [hheard, hquiet], fun k username hmem => ?_⟩, fun k username hmem hrole => ?_⟩
      · rcases hsplit hmem with hold | rfl
        · exact hfresh _ _ hold
        · simp [hacts.step.newUser_late] at hpc'
      · rcases hsplit hmem with hold | rfl
        · exact absurd hold (hfresh _ _)
        · exact hacts.start hrun hrole hvisible hheard _
    · rw [Bool.not_eq_true] at hpc
      obtain ⟨hlate, hrole⟩ := hacts.step.role_eq hpc
      refine ⟨fun hpc' => by simp [hlate] at hpc', fun k username hmem hsender => ?_⟩
      rcases hsplit hmem with hold | rfl
      · exact (hsim _ _ hold (hrole ▸ hsender)).own hrun hacts (hrole ▸ hsender) hpc
      · simp [hacts.step.newUser_of] at hpc
  · have hji : j ≠ i := fun h => hi h.symm
    rw [visible_append, heard_append, visible_other hji, heard_other hji, List.append_nil,
      List.append_nil, hacts.frame i hi]
    have hsame : ∀ k username, (⟨i, k, .newUser username⟩ : Event) ∈ es ++ [⟨j, (s'.thread j).serial, a⟩] ↔
        ⟨i, k, .newUser username⟩ ∈ es := fun k username => by simp [hi]
    simp only [hsame]
    refine ⟨hearly, fun k username hold hrole => ?_⟩
    exact (hsim k username hold hrole).other hrun hs hi (newUser_username hrun hold).1

/-- A sender's message touches a queue only while it is being broadcast, and only the queue of
a member of the room. -/
theorem queue_broadcast {pre post : List Event} {i u : Sid} {n : ℕ} {b : QueueAction Message}
    (hrun : Run Server.Step {} (pre ++ ⟨i, n, .queue u b⟩ :: post) s)
    (hrole : (s.thread i).role = .sender) :
    ∃ r text s₁, (n, .cast (some r) (s.shared.user i).username text) ∈ visible i pre ∧
      Run Server.Step {} pre s₁ ∧ u ∈ (s₁.shared.room r).members := by
  obtain ⟨s₁, s₂, h₁, hs, hpost⟩ := hrun.splitAt
  obtain ⟨hacts, rfl⟩ : s₁.Acts i (.queue u b) s₂ ∧ n = (s₂.thread i).serial := hs.acts
  have hlate := hacts.step.queue_late
  have hrole₁ : (s₁.thread i).role = .sender := (role_run (.cons hs hpost) hlate).symm.trans hrole
  obtain ⟨msg, pc, hpc⟩ := hacts.step.queue_of (ok h₁ i) hrole₁
  obtain ⟨r, hr, hmem⟩ := begun h₁ i hpc BroadcastPc.noConfusion
  have hserial : (s₂.thread i).serial = (s₁.thread i).serial := by
    rcases hacts.step.serial_cases (ok h₁ i) with ⟨m, ha, -⟩ | ⟨-, hserial⟩
    · cases ha
    · exact hserial
  refine ⟨r, (s₁.thread i).msg.data, s₁, ?_, h₁, ?_⟩
  · rw [hserial, username_run (.cons hs hpost) hlate]
    exact List.mem_flatMap.mpr ⟨_, hmem, by simp [Action.shown]⟩
  · exact (broadcasting h₁ i).member u r (by rw [hpc]; rfl) hr

/-- What a phase says of the session between two messages: where it is, and in which rooms its
user is. -/
def Position (s : Server) (i : Sid) : Phase → Prop
  | .outside => (s.thread i).pc = .receive ∧ ∀ q, i ∉ (s.shared.room q).members
  | .inside n => (s.thread i).pc = .receive ∧
      ∃ r, s.shared.mRooms n = some r ∧ ∀ q, i ∈ (s.shared.room q).members ↔ q = r
  | .ended => (s.thread i).pc ≠ .receive

private theorem attached_position (hrun : Run Server.Step {} es s) {i : Sid} {p : Phase}
    (h : (s.thread i).Attached s.shared s.shared.mRooms i p) (hpc : (s.thread i).pc = .receive) :
    s.Position i p := by
  cases p with
  | outside => exact ⟨hpc, h⟩
  | inside n =>
    obtain ⟨r, hn, hr, hi⟩ := h
    refine ⟨hpc, r, hn, fun q => ⟨fun hq => ?_, fun hq => hq ▸ hi⟩⟩
    have hroom := (membership hrun i).pointer q hq
    simpa [hr, eq_comm] using hroom
  | ended => exact h.elim

/-- In a run in which its client does not leave before it joins, a sender session does what the
machine does. -/
theorem chat_with_sender_simulates {i : Sid} {n : ℕ} {username : Bytes}
    (hrun : Run Server.Step {} es s) (hnew : ⟨i, n, .newUser username⟩ ∈ es)
    (hrole : (s.thread i).role = .sender) (hleaves : leavesFirst (heard i es) = false) :
    s.fault ≠ some (i, .nullRoom) ∧ ∃ p exs,
      execute (Phase.next s.shared.mRooms username) (.outside, 0) (heard i es) =
        some (exs, p, (s.thread i).serial) ∧
      visible i es <+: exs.flatten ∧
      ((s.thread i).pc = .receive ∨ (s.thread i).pc = .close ∨ (s.thread i).pc = .done →
        visible i es = exs.flatten ∧ s.Position i p) ∧
      ∀ pre post u n b, es = pre ++ ⟨i, n, .queue u b⟩ :: post → ∃ r text s₁,
        (n, .cast (some r) username text) ∈ visible i pre ∧ Run Server.Step {} pre s₁ ∧
          u ∈ (s₁.shared.room r).members := by
  obtain ⟨hlate, rfl⟩ := newUser_username hrun hnew
  constructor
  · intro hfault
    have hnull := (null_deref_iff hrun i).mp (nullRoom_fault hrun hfault)
    simp [hleaves] at hnull
  obtain ⟨p, exs, vs, hexec, hvisible, hexpects⟩ :=
    (simulates hrun i).2 _ _ hnew hrole s.shared.mRooms fun _ _ h => h
  refine ⟨p, exs, hexec, ⟨_, hvisible⟩, fun hpc => ?_, ?_⟩
  · rcases hpc with hpc | hpc | hpc
    · obtain ⟨rfl, hatt⟩ : vs = [] ∧ (s.thread i).Attached s.shared s.shared.mRooms i p := by
        simpa only [Thread.Expects, hpc] using hexpects
      exact ⟨by simpa using hvisible, attached_position hrun hatt hpc⟩
    all_goals
      obtain ⟨rfl, rfl⟩ : vs = [] ∧ p = .ended := by simpa only [Thread.Expects, hpc] using hexpects
      exact ⟨by simpa using hvisible, by rw [Position, hpc]; exact Pc.noConfusion⟩
  · rintro pre post u n b rfl
    exact queue_broadcast hrun hrole

private def visitor : List Sched :=
  .client 0 "slogin:alice\njoin:lobby\nleave:bye\nsendall:hi\nquit:bye\n" :: Sched.steps 0 23

set_option maxRecDepth 4000 in
theorem chat_with_sender_simulates_visitor : ∃ es s exs, Run Server.Step {} es s ∧
    execute (Phase.next s.shared.mRooms (str "alice\n")) (.outside, 0) (heard 0 es) =
      some (exs, .ended, 4) ∧ visible 0 es = exs.flatten := by
  obtain ⟨⟨es, s⟩, h⟩ := Option.isSome_iff_exists.mp (show (outcome visitor).isSome = true by decide)
  have hnew : (outcome visitor).bind (fun p => p.1[3]?) = some ⟨0, 0, .newUser (str "alice\n")⟩ := rfl
  have hrole : (outcome visitor).map (fun p => (p.2.thread 0).role) = some .sender := by decide
  have hleaves : (outcome visitor).map (fun p => leavesFirst (heard 0 p.1)) = some false := by decide
  have hserial : (outcome visitor).map (fun p => (p.2.thread 0).serial) = some 4 := by decide
  have hpc : (outcome visitor).map (fun p => (p.2.thread 0).pc) = some .done := rfl
  rw [h] at hnew hrole hleaves hserial hpc
  have hrun := run_of_outcome h
  obtain ⟨-, p, exs, hexec, -, hbetween, -⟩ := chat_with_sender_simulates hrun
    (List.mem_of_getElem? hnew) (Option.some.inj hrole) (Option.some.inj hleaves)
  obtain ⟨hvisible, hposition⟩ := hbetween (.inr (.inr (Option.some.inj hpc)))
  have hfour : (s.thread 0).serial = 4 := Option.some.inj hserial
  have hdone : (s.thread 0).pc = .done := Option.some.inj hpc
  rw [hfour] at hexec
  cases p with
  | ended => exact ⟨es, s, exs, hrun, hexec, hvisible⟩
  | outside | inside n => simp [Position, hdone] at hposition

end Server
end Chat
