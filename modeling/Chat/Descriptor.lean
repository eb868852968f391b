import Chat.Decoder
import Chat.Wire

/-! The life of a `Connection` object and the system calls that it makes on its descriptor. -/
namespace Chat

/-- A call on the descriptor: a `read` or `write`, or a `close`. -/
inductive Call
  | use
  | close
  deriving DecidableEq

/-- The member functions that may be called between construction and destruction. -/
inductive Op
  | send (msg : Message)
  | receive (buffer : Bytes) (msg : Message)
  | isOpen
  | close

/-- What a call of a member function does. There is no object after it where the process exits or
its behaviour is undefined; `op` is `none` for the destructor. -/
structure Entry where
  op : Option Op
  calls : List Call
  after : Option Connection

/-- The constructions: from an open descriptor, or by default with some failing calls of `connect`
and at most one that succeeds. -/
inductive Start
  | ofFd (fd : ℕ) (reads : List ReadResult) (writes : List WriteResult)
  | default (failures : List ℕ) (connected : Option (ℕ × List ReadResult × List WriteResult))

/-- The loop of `rio_readlineb`, with room for so many bytes, needs more than the unread ones. -/
def asks : ℕ → Bytes → Bool
  | 0, _ => false
  | _ + 1, [] => true
  | k + 1, c :: cs => c ≠ newline && asks k cs

/-- Where the unread bytes hold the line, the loop calls `read` no more. -/
theorem readLoop_unasked {k : ℕ} {bs : Bytes} (h : asks k bs = false) (line : Bytes) :
    ∃ how line' unread, ∀ rs, readLoop k line ⟨bs, rs⟩ = (how, line', ⟨unread, rs⟩) := by
  induction k generalizing bs line with
  | zero => exact ⟨_, _, _, fun _ => rfl⟩
  | succ k ih =>
    cases bs with
    | nil => cases h
    | cons c cs =>
      by_cases hc : c = newline
      · exact ⟨.terminate, line ++ [c], cs, fun rs => by simp [readLoop, rioRead, hc]⟩
      · obtain ⟨how, line', unread, hloop⟩ := ih (by simpa [asks, hc] using h) (line ++ [c])
        exact ⟨how, line', unread, fun rs => by simpa [readLoop, rioRead, hc] using hloop rs⟩

/-- Otherwise it comes to a `rio_read` with nothing unread, which calls `read`. -/
theorem readLoop_asked {k : ℕ} {bs : Bytes} (h : asks k bs = true) (line : Bytes)
    (rs : List ReadResult) : bs.length < k ∧
      readLoop k line ⟨bs, rs⟩ = readLoop (k - bs.length) (line ++ bs) ⟨[], rs⟩ := by
  induction k generalizing bs line with
  | zero => cases h
  | succ k ih =>
    cases bs with
    | nil => simp
    | cons c cs =>
      obtain ⟨hc, hasks⟩ : c ≠ newline ∧ asks k cs = true := by simpa [asks] using h
      obtain ⟨hlt, hloop⟩ := ih hasks (line ++ [c])
      refine ⟨by simpa using hlt, ?_⟩
      rw [readLoop]
      simpa [rioRead, hc, Nat.succ_sub_succ] using hloop

namespace Connection

/-- `connect`, with what `open_clientfd` returns and the results of the new descriptor's calls. -/
def connect (conn : Connection) (clientfd : Int) (reads : List ReadResult)
    (writes : List WriteResult) : Connection :=
  if clientfd < 0 then { conn with mFd := clientfd, mLastResult := .eofOrError }
  else { conn with mFd := clientfd, mFdbuf := ⟨[], reads⟩, wire := ⟨writes, []⟩ }

/-- `send` on an object without a descriptor: `write` has none to write to. -/
def sendNowhere (conn : Connection) (msg : Message) : Connection :=
  { (({ conn with wire := ⟨[.failed false], []⟩ } : Connection).send msg).2 with wire := conn.wire }

/-- Both `close` and the destructor: `Close` exits where `close` fails, and `rc k` tells whether its
call number `k` succeeds. -/
def closeFd (rc : ℕ → Bool) (conn : Connection) : List Call × Option Connection :=
  if conn.isOpen then ([.close], if rc conn.closes then some conn.close else none)
  else ([], some conn)

/-- One call of a member function. A `receive` before any descriptor is there goes through an
uninitialised reader. -/
def perform (rc : ℕ → Bool) (conn : Connection) : Op → List Call × Option Connection
  | .send msg =>
    if conn.isOpen then
      (if strlen msg.data ≤ maxLen ∧ cString (encode msg) ≠ [] then [.use] else [],
        some (conn.send msg).2)
    else ([], some (conn.sendNowhere msg))
  | .receive buffer msg =>
    if conn.isOpen then
      (if asks (maxLen - 1) conn.mFdbuf.unread then [.use] else [],
        match conn.receive buffer msg with
        | .ok (_, _, conn) => some conn
        | .error _ => none)
    else ([], none)
  | .isOpen => ([], some conn)
  | .close => conn.closeFd rc

/-- The calls of member functions in order, and the destructor's at the end. -/
def life (rc : ℕ → Bool) : List Op → Connection → List Entry
  | [], conn => [⟨none, (conn.closeFd rc).1, none⟩]
  | op :: ops, conn =>
    ⟨some op, (conn.perform rc op).1, (conn.perform rc op).2⟩ :: match (conn.perform rc op).2 with
      | some conn => life rc ops conn
      | none => []

end Connection

namespace Start

def make : Start → Connection
  | ofFd fd reads writes => .ofFd fd reads writes
  | default failures connected =>
    let conn := failures.foldl (fun conn n => conn.connect (Int.negSucc n) [] []) {}
    match connected with
    | none => conn
    | some (fd, reads, writes) => conn.connect fd reads writes

/-- The object gets a descriptor. -/
def opened : Start → Bool
  | ofFd .. => true
  | default _ connected => connected.isSome

private theorem connect_failures (failures : List ℕ) {conn : Connection}
    (h : conn.isOpen = false ∧ conn.closes = 0) :
    (failures.foldl (fun conn n => conn.connect (Int.negSucc n) [] []) conn).isOpen = false ∧
      (failures.foldl (fun conn n => conn.connect (Int.negSucc n) [] []) conn).closes = 0 := by
  induction failures generalizing conn with
  | nil => exact h
  | cons n failures ih =>
    refine ih ⟨?_, ?_⟩
    · simp [Connection.connect, Connection.isOpen, Int.negSucc_lt_zero]
    · simp [Connection.connect, Int.negSucc_lt_zero, h.2]

theorem make_isOpen (start : Start) :
    start.make.isOpen = start.opened ∧ start.make.closes = 0 := by
  cases start with
  | ofFd fd reads writes => exact ⟨by simp [make, opened, Connection.ofFd, Connection.isOpen], rfl⟩
  | default failures connected =>
    have hfailed := @connect_failures failures {} ⟨rfl, rfl⟩
    cases connected with
    | none => exact hfailed
    | some p =>
      obtain ⟨fd, reads, writes⟩ := p
      have hfd : ¬ ((fd : ℤ) < 0) := by omega
      simp only [make, opened, Connection.connect, if_neg hfd, Option.isSome_some]
      exact ⟨by simp [Connection.isOpen], hfailed.2⟩

end Start

/-- The life of an object keeps to its contract: its descriptor is closed exactly once and not used
afterwards, and after `close` the object is not open and `close` does nothing more. -/
structure ClosedOnce (opened : Bool) (log : List Entry) : Prop where
  once : (log.flatMap (·.calls)).count .close = opened.toNat
  unused : ∀ pre e post, log = pre ++ e :: post → .close ∈ e.calls → ∀ e' ∈ post, .use ∉ e'.calls
  shut : ∀ pre e post, log = pre ++ e :: post → e.op = some .close →
    ∀ e' ∈ e :: post, ∀ conn, e'.after = some conn → conn.isOpen = false
  idle : ∀ pre e post, log = pre ++ e :: post → e.op = some .close →
    ∀ e' ∈ post, e'.op = some .close → e'.calls = []

namespace ClosedOnce

variable {opened : Bool} {log : List Entry} {e : Entry}

private theorem splits_cons {P : Entry → List Entry → Prop} :
    (∀ pre e' post, e :: log = pre ++ e' :: post → P e' post) ↔
      P e log ∧ ∀ pre e' post, log = pre ++ e' :: post → P e' post := by
  constructor
  · refine fun h => ⟨h [] e log rfl, fun pre e' post heq => h (e :: pre) e' post ?_⟩
    rw [heq, List.cons_append]
  · rintro ⟨hhead, htail⟩ pre e' post heq
    cases pre with
    | nil =>
      obtain ⟨rfl, rfl⟩ := List.cons.inj heq
      exact hhead
    | cons e₀ pre => exact htail pre e' post (List.cons.inj heq).2

/-- A call of a member function that closes nothing does not count. -/
theorem cons_iff (hclose : Call.close ∉ e.calls) (hop : e.op ≠ some .close) :
    ClosedOnce opened (e :: log) ↔ ClosedOnce opened log := by
  have hcount : ((e :: log).flatMap (·.calls)).count .close = (log.flatMap (·.calls)).count .close := by
    rw [List.flatMap_cons, List.count_append, List.count_eq_zero_of_not_mem hclose, Nat.zero_add]
  constructor
  · rintro ⟨honce, hunused, hshut, hidle⟩
    exact ⟨hcount ▸ honce, (splits_cons.mp hunused).2, (splits_cons.mp hshut).2,
      (splits_cons.mp hidle).2⟩
  · rintro ⟨honce, hunused, hshut, hidle⟩
    exact ⟨hcount.trans honce, splits_cons.mpr ⟨fun h => absurd h hclose, hunused⟩,
      splits_cons.mpr ⟨fun h => absurd h hop, hshut⟩, splits_cons.mpr ⟨fun h => absurd h hop, hidle⟩⟩

/-- The last call of all. -/
theorem single_iff (hafter : e.after = none) :
    ClosedOnce opened [e] ↔ e.calls.count .close = opened.toNat := by
  have hcount : ([e].flatMap (·.calls)).count .close = e.calls.count .close := by simp
  constructor
  · exact fun h => hcount ▸ h.once
  · refine fun h => ⟨hcount.trans h, splits_cons.mpr ⟨fun _ => by simp, by simp⟩,
      splits_cons.mpr ⟨fun _ e' he' conn hconn => ?_, by simp⟩, splits_cons.mpr ⟨fun _ => by simp, by simp⟩⟩
    obtain rfl := List.mem_singleton.mp he'
    cases hafter.symm.trans hconn

end ClosedOnce
namespace Connection

/-- No `receive` before the first `close` goes past the fields of its line. -/
def Receivable : List Op → Connection → Prop
  | [], _ | .close :: _, _ => True
  | .send msg :: ops, conn => Receivable ops (conn.send msg).2
  | .receive buffer msg :: ops, conn =>
    ∃ ok m conn', conn.receive buffer msg = .ok (ok, m, conn') ∧ Receivable ops conn'
  | .isOpen :: ops, conn => Receivable ops conn

variable {rc : ℕ → Bool} {conn conn' : Connection}

theorem sendNowhere_frame (conn : Connection) (msg : Message) :
    (conn.sendNowhere msg).mFd = conn.mFd ∧ (conn.sendNowhere msg).closes = conn.closes := by
  obtain ⟨hfd, -, hcloses⟩ :=
    @send_frame { conn with wire := ⟨[.failed false], []⟩ } _ msg _ rfl
  exact ⟨hfd, hcloses⟩

/-- Sending and receiving leave the descriptor open, or not there. -/
theorem perform_frame {op : Op} (hop : op ≠ .close) (h : (conn.perform rc op).2 = some conn') :
    conn'.isOpen = conn.isOpen ∧ conn'.closes = conn.closes := by
  cases op with
  | send msg =>
    cases hopen : conn.isOpen with
    | true =>
      obtain ⟨hfd, -, hcloses⟩ := send_frame (show conn.send msg = (_, (conn.send msg).2) from rfl)
      obtain rfl : (conn.send msg).2 = conn' := by simpa [perform, hopen] using h
      exact ⟨by rw [isOpen, hfd, ← isOpen, hopen], hcloses⟩
    | false =>
      obtain ⟨hfd, hcloses⟩ := sendNowhere_frame conn msg
      obtain rfl : conn.sendNowhere msg = conn' := by simpa [perform, hopen] using h
      exact ⟨by rw [isOpen, hfd, ← isOpen, hopen], hcloses⟩
  | receive buffer msg =>
    cases hopen : conn.isOpen with
    | true =>
      cases hrec : conn.receive buffer msg with
      | error f => simp [perform, hopen, hrec] at h
      | ok p =>
        obtain ⟨ok, m, conn₁⟩ := p
        obtain rfl : conn₁ = conn' := by simpa [perform, hopen, hrec] using h
        obtain ⟨hfd, -, hcloses⟩ := receive_frame hrec
        exact ⟨by rw [isOpen, hfd, ← isOpen, hopen], hcloses⟩
    | false => simp [perform, hopen] at h
  | isOpen =>
    obtain rfl := Option.some.inj h
    exact ⟨rfl, rfl⟩
  | close => exact absurd rfl hop

theorem perform_calls {op : Op} (hop : op ≠ .close) : Call.close ∉ (conn.perform rc op).1 := by
  have huse : ∀ p : Prop, [Decidable p] → Call.close ∉ if p then [Call.use] else [] := by
    intro p _
    split <;> simp
  cases op with
  | send msg => cases hopen : conn.isOpen <;> simp [perform, hopen, huse]
  | receive buffer msg => cases hopen : conn.isOpen <;> simp [perform, hopen, huse]
  | isOpen => simp [perform]
  | close => exact absurd rfl hop

/-- A line that is there to its end is received without a `read`. -/
theorem receive_unasked {buffer : Bytes} {msg m : Message} {ok : Bool}
    (hasks : asks (maxLen - 1) conn.mFdbuf.unread = false)
    (h : conn.receive buffer msg = .ok (ok, m, conn')) : conn'.mFdbuf.reads = conn.mFdbuf.reads := by
  obtain ⟨how, line, unread, hloop⟩ := readLoop_unasked hasks []
  have hread : readLoop (maxLen - 1) [] conn.mFdbuf = (how, line, ⟨unread, conn.mFdbuf.reads⟩) :=
    hloop conn.mFdbuf.reads
  unfold receive rioReadlineb at h
  rw [hread] at h
  cases how with
  | terminate =>
    have hlen : ¬ ((line.length : ℤ) < 0) := by omega
    simp only [if_neg hlen] at h
    rw [unpack_mFdbuf h]
  | eof => rw [unpack_mFdbuf h]
  | error =>
    obtain ⟨-, -, rfl⟩ : false = ok ∧ msg = m ∧ _ = conn' := by simpa using h
    rfl

/-- What makes no call leaves the results of the descriptor's calls to come as they are. -/
theorem perform_unused {op : Op} (hcalls : Call.use ∉ (conn.perform rc op).1)
    (h : (conn.perform rc op).2 = some conn') :
    conn'.mFdbuf.reads = conn.mFdbuf.reads ∧ conn'.wire = conn.wire := by
  cases op with
  | send msg =>
    cases hopen : conn.isOpen with
    | true =>
      obtain rfl : (conn.send msg).2 = conn' := by simpa [perform, hopen] using h
      obtain ⟨r, hsend⟩ := conn.send_wire msg
      have hempty : strlen msg.data ≤ maxLen → cString (encode msg) = [] := by
        simpa [perform, hopen] using hcalls
      rw [hsend, Wire.send]
      split
      · exact ⟨rfl, rfl⟩
      · next hlong =>
        rw [hempty (by omega)]
        cases hw : conn.wire.writes <;> simp [writeLoop, ← hw]
    | false =>
      obtain rfl : conn.sendNowhere msg = conn' := by simpa [perform, hopen] using h
      obtain ⟨-, hbuf, -⟩ := @send_frame { conn with wire := ⟨[.failed false], []⟩ } _ msg _ rfl
      exact ⟨by rw [sendNowhere]; exact congrArg Rio.reads hbuf, rfl⟩
  | receive buffer msg =>
    cases hopen : conn.isOpen with
    | true =>
      cases hrec : conn.receive buffer msg with
      | error f => simp [perform, hopen, hrec] at h
      | ok p =>
        obtain ⟨ok, m, conn₁⟩ := p
        obtain rfl : conn₁ = conn' := by simpa [perform, hopen, hrec] using h
        have hasks : asks (maxLen - 1) conn.mFdbuf.unread = false := by
          simpa [perform, hopen] using hcalls
        exact ⟨receive_unasked hasks hrec, (receive_frame hrec).2.1⟩
    | false => simp [perform, hopen] at h
  | isOpen =>
    obtain rfl := Option.some.inj h
    exact ⟨rfl, rfl⟩
  | close =>
    cases hopen : conn.isOpen with
    | true =>
      cases hrc : rc conn.closes with
      | true =>
        obtain rfl : conn.close = conn' := by simpa [perform, closeFd, hopen, hrc] using h
        simp [Connection.close, hopen]
      | false => simp [perform, closeFd, hopen, hrc] at h
    | false =>
      obtain rfl : conn = conn' := by simpa [perform, closeFd, hopen] using h
      exact ⟨rfl, rfl⟩

theorem life_cons (op : Op) (ops : List Op) : life rc (op :: ops) conn =
    ⟨some op, (conn.perform rc op).1, (conn.perform rc op).2⟩ :: match (conn.perform rc op).2 with
      | some conn => life rc ops conn
      | none => [] := rfl

/-- An object without a descriptor makes no calls. -/
theorem life_unopened (ops : List Op) (hopen : conn.isOpen = false) : ∀ e ∈ life rc ops conn,
    e.calls = [] ∧ ∀ conn', e.after = some conn' → conn'.isOpen = false := by
  induction ops generalizing conn with
  | nil => simp [life, closeFd, hopen]
  | cons op ops ih =>
    have hstep : (conn.perform rc op).1 = [] ∧
        ∀ conn', (conn.perform rc op).2 = some conn' → conn'.isOpen = false := by
      by_cases hop : op = .close
      · subst hop
        simp [perform, closeFd, hopen]
      · refine ⟨?_, fun conn' h => (perform_frame hop h).1.trans hopen⟩
        cases op with
        | close => exact absurd rfl hop
        | _ => simp [perform, hopen]
    intro e he
    rw [life_cons] at he
    rcases List.mem_cons.mp he with rfl | he
    · exact hstep
    · cases hafter : (conn.perform rc op).2 with
      | none => simp [hafter] at he
      | some conn' =>
        rw [hafter] at he
        exact ih (hstep.2 conn' hafter) e he

/-- The life of an open object keeps to the contract just if `close` is not called, or calling it ends
the process. -/
theorem life_open_iff (ops : List Op) (hopen : conn.isOpen = true) (hcloses : conn.closes = 0) :
    ClosedOnce true (life rc ops conn) ↔ Receivable ops conn ∧ (Op.close ∉ ops ∨ rc 0 = false) := by
  induction ops generalizing conn with
  | nil =>
    rw [life, ClosedOnce.single_iff rfl]
    simp [closeFd, hopen, Receivable]
  | cons op ops ih =>
    by_cases hop : op = .close
    · subst hop
      cases hrc : rc 0 with
      | false =>
        have hstep : conn.perform rc .close = ([.close], none) := by
          simp [perform, closeFd, hopen, hcloses, hrc]
        rw [life_cons, hstep, ClosedOnce.single_iff rfl]
        simp [Receivable]
      | true =>
        have hstep : conn.perform rc .close = ([.close], some conn.close) := by
          simp [perform, closeFd, hopen, hcloses, hrc]
        rw [life_cons, hstep]
        refine iff_of_false (fun h => ?_) (by simp)
        have hshut := h.shut [] _ _ rfl rfl _ List.mem_cons_self conn.close rfl
        simp only [Connection.close, hopen, if_true] at hshut
        cases hopen.symm.trans hshut
    · have hrest : (∀ conn', (conn.perform rc op).2 = some conn' →
          (Receivable (op :: ops) conn ↔ Receivable ops conn')) ∧
          ((conn.perform rc op).2 = none → ¬ Receivable (op :: ops) conn) := by
        cases op with
        | close => exact absurd rfl hop
        | send msg => simp [perform, hopen, Receivable]
        | isOpen => simp [perform, Receivable]
        | receive buffer msg =>
          cases hrec : conn.receive buffer msg with
          | error f => simp [perform, hopen, hrec, Receivable]
          | ok p =>
            obtain ⟨ok, m, conn₁⟩ := p
            simp [perform, hopen, hrec, Receivable]
      rw [life_cons, ClosedOnce.cons_iff (perform_calls hop) fun h => hop (Option.some.inj h)]
      have hmem : Op.close ∉ op :: ops ↔ Op.close ∉ ops := by
        rw [List.mem_cons, not_or]
        exact and_iff_right fun h => hop h.symm
      cases hafter : (conn.perform rc op).2 with
      | none =>
        refine iff_of_false (fun h => ?_) fun h => hrest.2 hafter h.1
        simpa using h.once
      | some conn' =>
        obtain ⟨hopen', hcloses'⟩ := perform_frame hop hafter
        rw [hrest.1 conn' hafter, hmem]
        exact ih (hopen'.trans hopen) (hcloses'.trans hcloses)

end Connection

/-- A `Connection` keeps to its contract just if it never got a descriptor, or no `receive` is
undefined and `close` is not called (or the first `close` of the descriptor fails and ends the
process). -/
theorem closed_once_iff (start : Start) (ops : List Op) (rc : ℕ → Bool) :
    ClosedOnce start.opened (Connection.life rc ops start.make) ↔
      (start.opened = true →
        Connection.Receivable ops start.make ∧ (Op.close ∉ ops ∨ rc 0 = false)) := by
  obtain ⟨hopen, hcloses⟩ := start.make_isOpen
  cases hopened : start.opened with
  | true =>
    rw [hopened] at hopen
    simpa using Connection.life_open_iff ops hopen hcloses
  | false =>
    rw [hopened] at hopen
    have hquiet := @Connection.life_unopened rc _ ops hopen
    refine iff_of_true ⟨?_, ?_, ?_, ?_⟩ Bool.noConfusion
    · refine List.count_eq_zero_of_not_mem fun hmem => ?_
      obtain ⟨e, he, hclose⟩ := List.mem_flatMap.mp hmem
      simp [(hquiet e he).1] at hclose
    · rintro pre e post heq - e' he'
      have hin : e' ∈ Connection.life rc ops start.make := by
        rw [heq]
        exact List.mem_append_right _ (List.mem_cons_of_mem _ he')
      simp [(hquiet e' hin).1]
    · rintro pre e post heq - e' he'
      have hin : e' ∈ Connection.life rc ops start.make := heq ▸ List.mem_append_right _ he'
      exact (hquiet e' hin).2
    · rintro pre e post heq - e' he' -
      have hin : e' ∈ Connection.life rc ops start.make := by
        rw [heq]
        exact List.mem_append_right _ (List.mem_cons_of_mem _ he')
      exact (hquiet e' hin).1

theorem closed_twice : ∃ log,
    log = Connection.life (fun k => k = 0) [.close, .isOpen, .send ⟨tagSendall, str "hi"⟩]
      (Start.ofFd 4 [] []).make ∧
    log.map (·.calls) = [[.close], [], [.use], [.close]] ∧
    log.map (fun e => e.after.map Connection.isOpen) = [some true, some true, some true, none] ∧
    ¬ ClosedOnce true log := by
  refine ⟨_, rfl, by decide, by decide, fun h => ?_⟩
  exact absurd h.once (by decide)

end Chat
