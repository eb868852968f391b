import Chat.EndToEnd
import Chat.Link

/-! What the server tells a client that is not a receiver: a function of what that client sends, in
which no other client has a part, nor the order in which the threads take their turns. -/
namespace Chat
open Transition Lines

def Visible.reply : Visible → Option Message
  | .said resp => some resp
  | _ => none

/-- The replies of session `i`, without that to its login. -/
def replied (i : Sid) (es : List Event) : List Message := (visible i es).filterMap (·.2.reply)

theorem replied_append (i : Sid) (es es' : List Event) :
    replied i (es ++ es') = replied i es ++ replied i es' := by
  simp [replied]

namespace Phase

/-- The replies to some messages. -/
def replies (p : Phase) : List (Option Message) → List Message
  | [] => []
  | m :: ms =>
    if p = .ended then []
    else (p.answer (fun _ => none) [] m).2.filterMap Visible.reply ++
      (p.answer (fun _ => none) [] m).1.replies ms

variable {rooms : Bytes → Option RoomId} {username : Bytes} {p p' : Phase}

/-- Neither the user nor the rooms matter for the reply. -/
private theorem answer_reply (p : Phase) (m : Option Message) :
    (p.answer rooms username m).1 = (p.answer (fun _ => none) [] m).1 ∧
      (p.answer rooms username m).2.filterMap Visible.reply =
        (p.answer (fun _ => none) [] m).2.filterMap Visible.reply := by
  cases m with
  | none => exact ⟨rfl, rfl⟩
  | some m =>
    by_cases hquit : m.tag = tagQuit
    · simp [answer, hquit]
    by_cases hjoin : m.tag = tagJoin
    · simp [answer, hjoin, show tagJoin ≠ tagQuit by decide]
    cases p with
    | inside n =>
      rw [answer_inside hquit hjoin, answer_inside hquit hjoin]
      by_cases hleave : m.tag = tagLeave
      · simp [hleave]
      · simp only [hleave, if_false]
        exact ⟨trivial, rfl⟩
    | outside => simp [answer, hquit, hjoin]
    | ended => simp [answer, hquit, hjoin]

theorem replies_of_execute {ms : List (Option Message)} {n n' : ℕ} {exs : List (List (ℕ × Visible))}
    (h : execute (next rooms username) (p, n) ms = some (exs, p', n')) :
    exs.flatten.filterMap (·.2.reply) = p.replies ms := by
  induction ms generalizing p n exs with
  | nil =>
    obtain ⟨rfl, -⟩ : [] = exs ∧ (p, n) = (p', n') := by simpa [execute] using h
    rfl
  | cons m ms ih =>
    by_cases hended : p = .ended
    · simp [execute, hended, next] at h
    rw [execute, next_of_ne_ended hended] at h
    cases hrest : execute (next rooms username) ((p.answer rooms username m).1, n + 1) ms with
    | none => simp [hrest] at h
    | some q =>
      obtain ⟨exs', q⟩ := q
      obtain ⟨rfl, rfl⟩ : _ = exs ∧ q = (p', n') := by simpa [hrest] using h
      obtain ⟨hphase, hreply⟩ := @answer_reply rooms username p m
      have hrest' := ih hrest
      rw [hphase] at hrest'
      have hsaid : ((n + 1, Visible.heard m) :: (p.answer rooms username m).2.map
          (Prod.mk (n + 1))).filterMap (·.2.reply) =
          (p.answer (fun _ => none) [] m).2.filterMap Visible.reply := by
        rw [← hreply, List.filterMap_cons_none rfl, List.filterMap_map]
        rfl
      rw [List.flatten_cons, List.filterMap_append, hsaid, hrest', replies, if_neg hended]

theorem replies_append (p : Phase) (ms ms' : List (Option Message)) :
    p.replies ms <+: p.replies (ms ++ ms') := by
  induction ms generalizing p with
  | nil => exact List.nil_prefix
  | cons m ms ih =>
    rw [List.cons_append, replies, replies]
    split
    · exact List.prefix_rfl
    · exact (List.prefix_append_right_inj _).mpr (ih _)

private theorem answer_fits {m : Option Message} {resp : Message}
    (h : resp ∈ (p.answer rooms username m).2.filterMap Visible.reply) : resp.Fits := by
  have hall : ∀ msg ∈ [receiveError, quitOk, joinOk, leaveOk, leaveError, sendallOk, sendallError],
      msg.Fits := by decide
  refine hall resp ?_
  cases m with
  | none => simp_all [answer, Visible.reply]
  | some m =>
    by_cases hquit : m.tag = tagQuit
    · simp_all [answer, Visible.reply]
    by_cases hjoin : m.tag = tagJoin
    · simp_all [answer, Visible.reply]
    cases p <;> by_cases hleave : m.tag = tagLeave <;> simp_all [answer, Visible.reply]

theorem replies_fit {ms : List (Option Message)} : ∀ resp ∈ p.replies ms, resp.Fits := by
  induction ms generalizing p with
  | nil => exact fun _ h => by cases h
  | cons m ms ih =>
    intro resp hresp
    rw [replies] at hresp
    split at hresp
    · cases hresp
    · rcases List.mem_append.mp hresp with hfirst | hrest
      · exact answer_fits hfirst
      · exact ih resp hrest

end Phase

theorem lines_segment {msgs msgs' : List Message} (h : msgs <+: msgs') :
    lines msgs <+: lines msgs' := by
  obtain ⟨more, rfl⟩ := h
  simp [lines]

/-- The reply to a login, by what `receive` made of its line. -/
def greeting (login : Option Message) : Message :=
  if isTag tagSlogin login then loginSuccess tagSlogin
  else if isTag tagRlogin login then loginSuccess tagRlogin else loginError

/-- What a client that is not a receiver and sends `input` is told for its first `k` lines. -/
def responses (input : Bytes) : ℕ → List Message
  | 0 => []
  | k + 1 =>
    let login := decode (line newline lineMax input 0)
    greeting login :: if isTag tagSlogin login then
        Phase.outside.replies ((List.range k).map fun j => decode (line newline lineMax input (j + 1)))
      else []

theorem responses_fit {input : Bytes} {k : ℕ} : ∀ resp ∈ responses input k, resp.Fits := by
  intro resp hresp
  cases k with
  | zero => cases hresp
  | succ k =>
    rcases List.mem_cons.mp hresp with rfl | hresp
    · unfold greeting
      split_ifs <;> decide
    · split at hresp
      · exact Phase.replies_fit resp hresp
      · cases hresp

/-- More lines get more replies, after the same ones. -/
theorem responses_mono {input : Bytes} {k k' : ℕ} (h : k ≤ k') :
    responses input k <+: responses input k' := by
  cases k with
  | zero => exact List.nil_prefix
  | succ k =>
    obtain ⟨d, rfl⟩ : ∃ d, k' = k + d + 1 := ⟨k' - (k + 1), by omega⟩
    rw [responses, responses]
    refine (List.prefix_cons_inj _).mpr ?_
    split
    · rw [List.range_add, List.map_append]
      exact Phase.replies_append _ _ _
    · exact List.prefix_rfl

/-- What the login calls of session `i` gave. -/
def logins (i : Sid) (es : List Event) : List (Option Message) :=
  es.filterMap fun e => match e.action with
    | .login m => if e.session = i then some m else none
    | _ => none

theorem logins_append (i : Sid) (es es' : List Event) :
    logins i (es ++ es') = logins i es ++ logins i es' :=
  List.filterMap_append

namespace Thread

/-- A session with its user has been told of its login, and then what its client was told; one that is
a receiver's has also sent what it took from its queue. -/
def Told (login : List (Option Message)) (ss vs : List Message) (t : Thread) : Prop :=
  ∃ m, login = [m] ∧ (t.role = .receiver → isTag tagRlogin m = true) ∧
    (isTag tagSlogin m = false → isTag tagRlogin m = false → vs = [] ∧ t.pc = .done) ∧
    (isTag tagRlogin m = false → ss = greeting m :: vs)

/-- What a session has sent. -/
def Answered (login : List (Option Message)) (ss vs : List Message) (t : Thread) : Prop :=
  match t.pc with
  | .unborn | .login => login = [] ∧ ss = [] ∧ vs = [] ∧ t.role = .sender
  | .loginReply accepted => ss = [] ∧ vs = [] ∧ t.role = .sender ∧
      ∃ m, login = [m] ∧ accepted = (isTag tagSlogin m || isTag tagRlogin m) ∧
        (accepted = true → m = some t.msg)
  | .newUser => login = [some t.msg] ∧ ss = [greeting (some t.msg)] ∧ vs = [] ∧
      (t.msg.tag = tagSlogin ∨ t.msg.tag = tagRlogin)
  | _ => t.Told login ss vs

variable {i : Sid} {σ : Shared} {t t' : Thread} {a : Action} {login : List (Option Message)}
  {ss vs : List Message}

theorem answered_late (hpc : t.pc.early = false) : t.Answered login ss vs ↔ t.Told login ss vs := by
  unfold Answered
  generalize t.pc = pc at hpc
  cases pc with
  | unborn | login | loginReply | newUser => cases hpc
  | _ => rfl

/-- A session with its user sends its replies, and a receiver's also deliveries. -/
private theorem Step.sent_late (h : Step i σ t a t') (hok : t.Ok) (hpc : t.pc.early = false) (n : ℕ) :
    logins i [⟨i, n, a⟩] = [] ∧ (t.role = .receiver ∨
      a.sent.toList.map Prod.fst = a.shown.filterMap Visible.reply) := by
  cases h with
  | inner h => cases h <;> exact ⟨rfl, .inr rfl⟩
  | accept _ _ _ hp | loginFail hp | loginOk hp | loginReply hp => simp [hp, Pc.early] at hpc
  | deliver hp =>
    obtain ⟨hrole, -⟩ : t.role = .receiver ∧ t.room ≠ none := by simpa [Ok, hp] using hok
    exact ⟨rfl, .inl hrole⟩
  | _ => exact ⟨rfl, .inr rfl⟩

private theorem Told.step (h : t.Told login ss vs) (ht : Step i σ t a t') (hok : t.Ok)
    (hpc : t.pc.early = false) (n : ℕ) :
    t'.Told (login ++ logins i [⟨i, n, a⟩]) (ss ++ a.sent.toList.map Prod.fst)
      (vs ++ a.shown.filterMap Visible.reply) := by
  obtain ⟨m, rfl, hrole, hturned, hss⟩ := h
  obtain ⟨hlogins, hsent⟩ := ht.sent_late hok hpc n
  rw [hlogins, List.append_nil]
  refine ⟨m, rfl, (ht.role_eq hpc).2 ▸ hrole, fun hs hr => ?_, fun hr => ?_⟩
  · exact absurd (hturned hs hr).2 ht.running
  · have hsame := hsent.resolve_left fun hreceiver => by simp [hrole hreceiver] at hr
    rw [hss hr, hsame, List.cons_append]

theorem Answered.step (h : t.Answered login ss vs) (ht : Step i σ t a t') (hok : t.Ok) (n : ℕ) :
    t'.Answered (login ++ logins i [⟨i, n, a⟩]) (ss ++ a.sent.toList.map Prod.fst)
      (vs ++ a.shown.filterMap Visible.reply) := by
  by_cases hpc : t.pc.early = false
  · rw [answered_late (ht.role_eq hpc).1]
    exact ((answered_late hpc).mp h).step ht hok hpc n
  have hnew : ∀ {t'' : Thread}, t''.pc.early = false → t''.Told login ss vs →
      t''.Answered (login ++ []) (ss ++ []) (vs ++ []) := fun hlate htold => by
    simpa only [List.append_nil] using (answered_late hlate).mpr htold
  cases ht with
  | inner ht => cases ht <;> simp_all [Pc.early]
  | accept _ _ _ hp =>
    obtain ⟨rfl, rfl, rfl, -⟩ := by simpa only [Answered, hp] using h
    exact ⟨rfl, rfl, rfl, rfl⟩
  | loginFail hp =>
    obtain ⟨rfl, rfl, rfl, hrole⟩ := by simpa only [Answered, hp] using h
    exact ⟨rfl, rfl, hrole, none, by simp [logins], rfl, fun hm => by cases hm⟩
  | @loginOk buffer msg conn hp =>
    obtain ⟨rfl, rfl, rfl, hrole⟩ := by simpa only [Answered, hp] using h
    exact ⟨rfl, rfl, hrole, some msg, by simp [logins], by simp [isTag], fun _ => rfl⟩
  | @loginReply accepted resp sent conn hp _ hresp =>
    obtain ⟨rfl, rfl, hrole, m, rfl, haccepted, hmsg⟩ := by simpa only [Answered, hp] using h
    cases accepted with
    | true =>
      obtain rfl := hmsg rfl
      have htag : t.msg.tag = tagSlogin ∨ t.msg.tag = tagRlogin := by simpa [isTag] using haccepted
      refine ⟨rfl, ?_, rfl, htag⟩
      have hother : tagRlogin ≠ tagSlogin := by decide
      rcases htag with htag | htag <;> simp [Action.sent, greeting, isTag, hresp, htag, hother]
    | false =>
      obtain ⟨hs, hr⟩ : isTag tagSlogin m = false ∧ isTag tagRlogin m = false := by
        simpa using haccepted
      refine ⟨m, by simp [logins], fun hreceiver => ?_, fun _ _ => ⟨rfl, rfl⟩, fun _ => ?_⟩
      · cases hrole.symm.trans hreceiver
      · simp [Action.sent, Action.shown, greeting, hs, hr, hresp]
  | newSender hp htag =>
    obtain ⟨rfl, rfl, rfl, -⟩ := by simpa only [Answered, hp] using h
    refine hnew (early_of_idle (loopHead_idle _)) ⟨some t.msg, rfl, fun hr => ?_, fun hs => ?_, fun _ => rfl⟩
    · cases hr
    · simp [isTag, htag] at hs
  | newReceiver hp htag =>
    obtain ⟨rfl, rfl, rfl, hlogin⟩ := by simpa only [Answered, hp] using h
    have hreceiver : isTag tagRlogin (some t.msg) = true := by
      simpa [isTag] using hlogin.resolve_left htag
    exact hnew rfl ⟨some t.msg, rfl, fun _ => hreceiver, fun _ hr => by simp [hreceiver] at hr,
      fun hr => by simp [hreceiver] at hr⟩
  | subscript | nullRoom | emptyQueue => simpa [logins, Action.sent, Action.shown] using h
  | receiveFail hp | receiveOk hp | removeRelease hp | addRelease hp | memberExists hp | loopEnd hp
  | reply hp | dequeueEnd hp | deliver hp | close hp => simp [hp, Pc.early] at hpc

end Thread

/-- The session owes its client no reply: it has not begun or waits for the client, or is over. -/
def Pc.even : Pc → Bool
  | .unborn | .login | .receive | .close | .done => true
  | _ => false

theorem Thread.Expects.even {σ : Shared} {rooms : Bytes → Option RoomId} {i : Sid} {t : Thread}
    {vs : List Visible} {p : Phase} (h : t.Expects σ rooms i vs p) (heven : t.pc.even = true) : vs = [] := by
  unfold Expects at h
  generalize t.pc = pc at h heven
  cases pc with
  | receive | close | done => exact h.1
  | unborn | login => exact h.elim
  | _ => cases heven

private theorem fresh_of_late {pc : Pc} (h : pc.early = false) : pc.fresh = false := by
  cases pc <;> first | rfl | cases h

namespace Server

variable {es es' : List Event} {s s' : Server} {i : Sid}

theorem answered (hrun : Run Server.Step {} es s) (i : Sid) :
    (s.thread i).Answered (logins i es) ((sends i es).map Prod.fst) (replied i es) := by
  refine hrun.invariant (fun es s => ∀ i,
    (s.thread i).Answered (logins i es) ((sends i es).map Prod.fst) (replied i es))
    (fun _ => ⟨rfl, rfl, rfl, rfl⟩) ?_ i
  intro es s e s' hrun ih hs i
  obtain ⟨j, n, a⟩ := e
  obtain ⟨hacts, -⟩ : s.Acts j a s' ∧ n = (s'.thread j).serial := hs.acts
  rw [sends_append, replied_append, logins_append, List.map_append]
  by_cases hi : i = j
  · subst hi
    have hsaid : replied i [⟨i, n, a⟩] = a.shown.filterMap Visible.reply := by
      rw [replied, visible_own, List.filterMap_map]
      rfl
    rw [sends_own, hsaid]
    exact (ih i).step hacts.step (ok hrun i) n
  · have hji : j ≠ i := fun h => hi h.symm
    have hlogins : logins i [⟨j, n, a⟩] = [] := by cases a <;> simp [logins, hji]
    have hsaid : replied i [⟨j, n, a⟩] = [] := by simp [replied, @visible_other i ⟨j, n, a⟩ hji]
    rw [sends_other hji, hsaid, hlogins, hacts.frame i hi]
    simpa using ih i

theorem mem_logins {m : Option Message} (h : m ∈ logins i es) : ∃ n, ⟨i, n, .login m⟩ ∈ es := by
  obtain ⟨⟨j, n, a⟩, he, hm⟩ := List.mem_filterMap.mp h
  cases a with
  | login m' =>
    obtain ⟨rfl, rfl⟩ : j = i ∧ m' = m := by simpa using hm
    exact ⟨n, he⟩
  | _ => cases hm

/-- No `receive` of session `i` has come to the end of what its client sends. -/
def Fed (s : Server) (i : Sid) (input : Bytes) : Prop :=
  ∀ k < (s.thread i).calls, rest newline lineMax input k ≠ []

instance (s : Server) (i : Sid) (input : Bytes) : Decidable (s.Fed i input) :=
  inferInstanceAs (Decidable (∀ k < _, _))

/-- The messages of a fed session are the lines after its login, decoded. -/
private theorem Fed.heard {input : Bytes} (h : s.Fed i input) (hreads : s.Reads i input es)
    (hfresh : (s.thread i).pc.fresh = false) :
    heard i es =
      (List.range (s.thread i).serial).map fun j => decode (line newline lineMax input (j + 1)) := by
  have hcalls : (s.thread i).calls = (s.thread i).serial + 1 := by simp [Thread.calls, hfresh]
  refine List.ext_getElem (by simp [hreads.serial]) fun k hk hk' => ?_
  have hserial : k < (s.thread i).serial := by simpa using hk'
  have hdecode := hreads.heard k _ (List.getElem?_eq_getElem hk) (h (k + 1) (by omega))
  simp [hdecode]

/-- A session with its user has replied as the machine does, up to the reply that it owes. -/
private theorem replied_replies (hrun : Run Server.Step {} es s) {n : ℕ} {username : Bytes}
    (hnew : ⟨i, n, .newUser username⟩ ∈ es) (hrole : (s.thread i).role = .sender) :
    replied i es <+: Phase.outside.replies (heard i es) ∧
      ((s.thread i).pc.even = true → replied i es = Phase.outside.replies (heard i es)) := by
  obtain ⟨p, exs, vs, hexec, hvisible, hexpects⟩ :=
    (simulates hrun i).2 _ _ hnew hrole s.shared.mRooms fun _ _ h => h
  have hsaid := congrArg (List.filterMap fun v => v.2.reply) hvisible
  rw [Phase.replies_of_execute hexec, List.filterMap_append] at hsaid
  refine ⟨⟨_, hsaid⟩, fun heven => ?_⟩
  rw [← hsaid, hexpects.even heven]
  simp [replied]

/-- A session of which something is seen has its user. -/
theorem entered_of_visible (hrun : Run Server.Step {} es s) (h : visible i es ≠ []) :
    (s.thread i).Entered i es := by
  obtain ⟨v, hv⟩ := List.exists_mem_of_ne_nil _ h
  obtain ⟨⟨j, n, a⟩, he, hshown⟩ := List.mem_flatMap.mp hv
  by_cases hj : j = i
  · subst hj
    obtain ⟨pre, post, rfl⟩ := List.append_of_mem he
    obtain ⟨s₁, s₂, h₁, hs, hpost⟩ := hrun.splitAt
    obtain ⟨hacts, -⟩ : s₁.Acts j a s₂ ∧ n = (s₂.thread j).serial := hs.acts
    have hlate : (s₁.thread j).pc.early = false := by
      by_contra hearly
      simp [(hacts.step.unseen (by simpa using hearly) n).1] at hshown
    have hentered := (greeted h₁ j).entered hlate (.inl hacts.step.running)
    exact hentered.mono (role_run (.cons hs hpost) hlate) _
  · simp [hj] at hshown

/-- Of a session that has no user nothing is seen. -/
theorem quiet (hrun : Run Server.Step {} es s) {input : Bytes} (hreads : s.Reads i input es)
    (h : ¬ (s.thread i).Entered i es) : visible i es = [] ∧ heard i es = [] := by
  by_cases hearly : (s.thread i).pc.early = true
  · obtain ⟨hvisible, hheard, -⟩ := (simulates hrun i).1 hearly
    exact ⟨hvisible, hheard⟩
  · constructor
    · by_contra hvisible
      exact h (entered_of_visible hrun hvisible)
    · have hserial : (s.thread i).serial = 0 := by
        by_contra hserial
        exact h ((greeted hrun i).entered (by simpa using hearly) (.inr hserial))
      exact List.eq_nil_of_length_eq_zero (hreads.serial.trans hserial)

/-- A sender session has replied as the machine does to its client's lines. -/
private theorem replied_responses (hrun : Run Server.Step {} es s) {input : Bytes}
    (hreads : s.Reads i input es) (hfed : s.Fed i input) (hrole : (s.thread i).role = .sender)
    (hpc : (s.thread i).pc.early = false) :
    let answers := Phase.outside.replies
      ((List.range (s.thread i).serial).map fun j => decode (line newline lineMax input (j + 1)))
    replied i es <+: answers ∧ ((s.thread i).pc.even = true → replied i es = answers) := by
  intro answers
  have hanswers : answers = Phase.outside.replies (heard i es) := by
    rw [hfed.heard hreads (fresh_of_late hpc)]
  rw [hanswers]
  by_cases hentered : (s.thread i).Entered i es
  · obtain ⟨m, -, hnew, -⟩ := hentered
    exact replied_replies hrun hnew hrole
  · obtain ⟨hvisible, hheard⟩ := quiet hrun hreads hentered
    rw [hheard, replied, hvisible]
    exact ⟨List.nil_prefix, fun _ => rfl⟩

/-- What a session sends that is not a receiver's is what its client's lines call for. -/
theorem sends_responses (hrun : Run Server.Step {} es s) {n : ℕ} {conn : Connection}
    (haccept : ⟨i, n, .accept conn⟩ ∈ es) (hread : conn.mFdbuf.broken = false)
    (hfed : s.Fed i conn.mFdbuf.stream)
    (hlogin : isTag tagRlogin (decode (line newline lineMax conn.mFdbuf.stream 0)) = false) :
    (sends i es).map Prod.fst <+: responses conn.mFdbuf.stream (s.thread i).calls ∧
      ((s.thread i).pc.even = true →
        (sends i es).map Prod.fst = responses conn.mFdbuf.stream (s.thread i).calls) := by
  have hreads := reads hrun haccept hread
  have hanswered := answered hrun i
  have hfirst : ∀ m, logins i es = [m] → 0 < (s.thread i).calls →
      decode (line newline lineMax conn.mFdbuf.stream 0) = m := fun m hm hcalls => by
    obtain ⟨k, hmem⟩ := mem_logins (by rw [hm]; exact List.mem_singleton_self m)
    exact hreads.login k m hmem (hfed 0 hcalls)
  by_cases hearly : (s.thread i).pc.early = true
  · unfold Thread.Answered at hanswered
    cases hpc : (s.thread i).pc with
    | unborn | login =>
      rw [hpc] at hanswered
      have hcalls : (s.thread i).calls = 0 := by simp [Thread.calls, hpc, Pc.fresh]
      rw [hanswered.2.1, hcalls]
      exact ⟨List.nil_prefix, fun _ => rfl⟩
    | loginReply =>
      rw [hpc] at hanswered
      rw [hanswered.1]
      exact ⟨List.nil_prefix, fun heven => by cases heven⟩
    | newUser =>
      rw [hpc] at hanswered
      obtain ⟨hlogins, hsends, -⟩ := hanswered
      have hcalls : (s.thread i).calls = (s.thread i).serial + 1 := by
        simp [Thread.calls, hpc, Pc.fresh]
      rw [hsends, hcalls, responses, hfirst _ hlogins (by omega)]
      exact ⟨List.prefix_append _ _, fun heven => by cases heven⟩
    | _ => simp [hpc, Pc.early] at hearly
  · have hlate : (s.thread i).pc.early = false := by simpa using hearly
    obtain ⟨m, hlogins, hrole, hturned, hsends⟩ := (Thread.answered_late hlate).mp hanswered
    have hcalls : (s.thread i).calls = (s.thread i).serial + 1 := by
      simp [Thread.calls, fresh_of_late hlate]
    obtain rfl := hfirst m hlogins (by omega)
    rw [hsends hlogin, hcalls, responses]
    have hsender : (s.thread i).role = .sender := by
      cases hr : (s.thread i).role with
      | sender => rfl
      | receiver => simp [hrole hr] at hlogin
    by_cases hslogin : isTag tagSlogin (decode (line newline lineMax conn.mFdbuf.stream 0)) = true
    · obtain ⟨hseg, heq⟩ := replied_responses hrun hreads hfed hsender hlate
      rw [if_pos hslogin]
      exact ⟨(List.prefix_cons_inj _).mpr hseg, fun heven => by rw [heq heven]⟩
    · rw [if_neg hslogin, (hturned (by simpa using hslogin) hlogin).1]
      exact ⟨List.prefix_rfl, fun _ => rfl⟩

private theorem written_responses (hrun : Run Server.Step {} es s) {n : ℕ} {conn : Connection}
    (haccept : ⟨i, n, .accept conn⟩ ∈ es) (hconn : conn.Reliable) (hfed : s.Fed i conn.mFdbuf.stream)
    (hlogin : isTag tagRlogin (decode (line newline lineMax conn.mFdbuf.stream 0)) = false) :
    (s.thread i).conn.wire.written <+: lines (responses conn.mFdbuf.stream (s.thread i).calls) ∧
      ((s.thread i).pc.even = true → (s.thread i).conn.wire.written =
        lines (responses conn.mFdbuf.stream (s.thread i).calls)) := by
  obtain ⟨hseg, heq⟩ := sends_responses hrun haccept hconn.reads hfed hlogin
  have hfits : ∀ msg ∈ (sends i es).map Prod.fst, msg.Fits := fun msg hmsg =>
    responses_fit msg (hseg.subset hmsg)
  have hwritten : (s.thread i).conn.wire.written = lines ((sends i es).map Prod.fst) := by
    have hall := written_sendAll hconn.writes hfits
    rwa [wire_of_sends hrun haccept, accept_written hrun haccept] at hall
  rw [hwritten]
  exact ⟨lines_segment hseg, fun heven => by rw [heq heven]⟩

/-- In any two runs of the server a client that sends the same bytes, and is not a receiver, is told
the same: of what two such sessions have written, the one is the beginning of the other, and where the
second has answered at least the lines of the first, the first is. -/
theorem noninterference {i' : Sid} {n n' : ℕ} {conn conn' : Connection}
    (hrun : Run Server.Step {} es s) (hrun' : Run Server.Step {} es' s')
    (haccept : ⟨i, n, .accept conn⟩ ∈ es) (haccept' : ⟨i', n', .accept conn'⟩ ∈ es')
    (hconn : conn.Reliable) (hconn' : conn'.Reliable)
    (hsame : conn.mFdbuf.stream = conn'.mFdbuf.stream)
    (hlogin : isTag tagRlogin (decode (line newline lineMax conn.mFdbuf.stream 0)) = false)
    (hfed : s.Fed i conn.mFdbuf.stream) (hfed' : s'.Fed i' conn'.mFdbuf.stream) :
    ((s.thread i).conn.wire.written <+: (s'.thread i').conn.wire.written ∨
      (s'.thread i').conn.wire.written <+: (s.thread i).conn.wire.written) ∧
    ((s'.thread i').pc.even = true → (s.thread i).calls ≤ (s'.thread i').calls →
      (s.thread i).conn.wire.written <+: (s'.thread i').conn.wire.written) := by
  obtain ⟨hseg, -⟩ := written_responses hrun haccept hconn hfed hlogin
  obtain ⟨hseg', heq'⟩ := written_responses hrun' haccept' hconn' hfed' (hsame ▸ hlogin)
  rw [hsame] at hseg
  constructor
  · rcases le_total (s.thread i).calls (s'.thread i').calls with hle | hle
    · exact List.prefix_or_prefix_of_prefix (hseg.trans (lines_segment (responses_mono hle))) hseg'
    · exact List.prefix_or_prefix_of_prefix hseg (hseg'.trans (lines_segment (responses_mono hle)))
  · intro heven hle
    rw [heq' heven]
    exact hseg.trans (lines_segment (responses_mono hle))

private def speaker : String := "slogin:alice\njoin:lobby\nsendall:hi\n"

private def speakerEnd : Connection := .ofFd 4 [.data ⟨str speaker, by decide⟩] []

private def alone : List Sched := .client 0 speaker :: Sched.steps 0 18

/-- The same client behind a receiver of its room, which is sent its message. -/
private def crowded : List Sched :=
  .client 1 "rlogin:bob\njoin:lobby\n" :: Sched.steps 1 11 ++ .client 0 speaker :: Sched.steps 0 23 ++
    Sched.steps 1 5

set_option maxRecDepth 4000 in
theorem noninterference_crowded : ∃ es s es' s', Run Server.Step {} es s ∧ Run Server.Step {} es' s' ∧
    (deliveries 1 es').length = 1 ∧
    (s.thread 0).conn.wire.written <+: (s'.thread 0).conn.wire.written := by
  obtain ⟨⟨es, s⟩, h⟩ := Option.isSome_iff_exists.mp (show (outcome alone).isSome = true by decide)
  obtain ⟨⟨es', s'⟩, h'⟩ :=
    Option.isSome_iff_exists.mp (show (outcome crowded).isSome = true by decide +kernel)
  have haccept : (outcome alone).bind (fun p => p.1[0]?) = some ⟨0, 0, .accept speakerEnd⟩ := rfl
  have haccept' : (outcome crowded).bind (fun p => p.1[12]?) = some ⟨0, 0, .accept speakerEnd⟩ := rfl
  have hfed : (outcome alone).map (fun p => decide (p.2.Fed 0 (str speaker))) = some true := by
    decide +kernel
  have hfed' : (outcome crowded).map (fun p => decide (p.2.Fed 0 (str speaker))) = some true := by
    decide +kernel
  have heven : (outcome crowded).map (fun p => (p.2.thread 0).pc.even) = some true := by
    decide +kernel
  have hcalls : (outcome alone).map (fun p => (p.2.thread 0).calls) = some 3 := by decide +kernel
  have hcalls' : (outcome crowded).map (fun p => (p.2.thread 0).calls) = some 3 := by decide +kernel
  have hsent : (outcome crowded).map (fun p => (deliveries 1 p.1).length) = some 1 := by
    decide +kernel
  rw [h] at haccept hfed hcalls
  rw [h'] at haccept' hfed' heven hcalls' hsent
  have hconn : speakerEnd.Reliable := ⟨List.not_mem_nil, rfl⟩
  have hinput : speakerEnd.mFdbuf.stream = str speaker := rfl
  obtain ⟨-, htold⟩ := noninterference (run_of_outcome h) (run_of_outcome h')
    (List.mem_of_getElem? haccept) (List.mem_of_getElem? haccept') hconn hconn rfl (by decide)
    (hinput ▸ of_decide_eq_true (Option.some.inj hfed))
    (hinput ▸ of_decide_eq_true (Option.some.inj hfed'))
  have hthree : (s.thread 0).calls = 3 := Option.some.inj hcalls
  have hthree' : (s'.thread 0).calls = 3 := Option.some.inj hcalls'
  exact ⟨es, s, es', s', run_of_outcome h, run_of_outcome h', Option.some.inj hsent,
    htold (Option.some.inj heven) (by omega)⟩

end Server
end Chat
