import Chat.Departure
import Chat.SenderSession

/-! What a sender session does for a message that is no request: the branch for a sendall takes it,
and refuses it only outside all rooms. -/
namespace Chat
open Transition

/-- The tags of a sender's requests. -/
def requestTags : List Bytes := [tagJoin, tagLeave, tagSendall, tagQuit]

/-- Where a sender has done with the last message that it took up. -/
def Pc.finished : Pc → Bool
  | .receive | .close | .done => true
  | _ => false

/-- Session `i` has done with its message `n`: it is back at `receive`, or over, or has gone on to a
later one. -/
def Server.DoneWith (s : Server) (i : Sid) (n : ℕ) : Prop :=
  n < (s.thread i).serial ∨ (s.thread i).serial = n ∧ (s.thread i).pc.finished = true

/-- Session `i` replies to its message `n`, with errors only, and for that message it changes no member
set and no queue. -/
structure Refused (es : List Event) (s : Server) (i : Sid) (n : ℕ) : Prop where
  answered : s.DoneWith i n → ∃ resp sent, ⟨i, n, .reply resp sent⟩ ∈ es
  answer : ∀ resp sent, ⟨i, n, .reply resp sent⟩ ∈ es → resp.tag = tagErr
  members : ∀ pre a post s s', es = pre ++ ⟨i, n, a⟩ :: post → Run Server.Step {} pre s →
    s.Step ⟨i, n, a⟩ s' → ∀ r, (s'.shared.room r).members = (s.shared.room r).members
  queues : ∀ pre a post s s', es = pre ++ ⟨i, n, a⟩ :: post → Run Server.Step {} pre s →
    s.Step ⟨i, n, a⟩ s' → ∀ u, (s'.shared.user u).mqueue.mMessages = (s.shared.user u).mqueue.mMessages

/-- Actions that change nothing and end with an error as the reply make a refusal. -/
theorem Refused.of_quiet {es : List Event} {s : Server} {i : Sid} {n : ℕ} {resp : Message}
    (hreplied : s.DoneWith i n → ∃ resp sent, ⟨i, n, .reply resp sent⟩ ∈ es) (herr : resp.tag = tagErr)
    (h : ∀ a, ⟨i, n, a⟩ ∈ es → a.quiet = true ∧ ∀ resp' sent, a = .reply resp' sent → resp' = resp) :
    Refused es s i n := by
  have hsame : ∀ pre a post (s s' : Server), es = pre ++ ⟨i, n, a⟩ :: post → s.Step ⟨i, n, a⟩ s' →
      s'.shared = s.shared := by
    rintro pre a post s s' rfl hs
    obtain ⟨hacts, -⟩ : s.Acts i a s' ∧ n = (s'.thread i).serial := hs.acts
    exact hacts.effect.of_quiet (h a (by simp)).1
  refine ⟨hreplied, fun resp' sent hmem => ?_, fun pre a post s s' hes _ hs r => ?_,
    fun pre a post s s' hes _ hs u => ?_⟩
  · rw [(h _ hmem).2 resp' sent rfl, herr]
  · rw [hsame pre a post s s' hes hs]
  · rw [hsame pre a post s s' hes hs]

namespace Thread

/-- Sender `i` is in the branch for a sendall, or past it; `b` tells whether its user is in a room. -/
structure Answers (σ : Shared) (i : Sid) (b : Bool) (t : Thread) : Prop where
  role : t.role = .sender
  branch : match t.pc with
    | .memberExists => t.msg.tag ≠ tagLeave ∧ (Member σ i ↔ b = true)
    | .broadcast _ => b = true
    | .reply resp _ => resp = if b then sendallOk else sendallError
    | .receive | .close | .done => True
    | _ => False

variable {i : Sid} {σ σ' : Shared} {b : Bool} {t t' : Thread} {a : Action}

theorem Answers.mono (h : t.Answers σ i b) (hmem : Member σ' i ↔ Member σ i) : t.Answers σ' i b := by
  obtain ⟨hrole, hbranch⟩ := h
  refine ⟨hrole, ?_⟩
  generalize t.pc = pc at hbranch ⊢
  cases pc with
  | memberExists => exact ⟨hbranch.1, hmem.trans hbranch.2⟩
  | _ => exact hbranch

private theorem Answers.over (hrole : t.role = .sender)
    (hpc : t.pc = .receive ∨ t.pc = .close ∨ t.pc = .done) : t.Answers σ i b := by
  refine ⟨hrole, ?_⟩
  rcases hpc with hpc | hpc | hpc <;> rw [hpc] <;> trivial

/-- Outside all rooms the branch changes nothing, and it ends with a reply, which tells where the user
is. -/
theorem Answers.step (h : t.Answers σ i b) (ht : Step i σ t a t') (hserial : t'.serial = t.serial)
    (hmem : a.moves = false → (Member σ' i ↔ Member σ i))
    (hpointer : ∀ r, i ∈ (σ.room r).members → t.room = some r) :
    t'.Answers σ' i b ∧ (b = false → a.quiet = true) ∧
      (∀ resp sent, a = .reply resp sent → resp = if b then sendallOk else sendallError) ∧
      (t'.pc.finished = true → t.pc.finished = true ∨ ∃ resp sent, a = .reply resp sent) := by
  obtain ⟨hrole, hbranch⟩ := h
  have inside (hpc : ∃ pc, t.pc = .broadcast pc) : b = true := by
    obtain ⟨pc, hpc⟩ := hpc
    simpa only [hpc] using hbranch
  have loud (hb : b = true) : b = false → a.quiet = true := fun hno => by simp [hb] at hno
  cases ht with
  | inner ht =>
    cases ht with
    | removeAcquire hpc | removeBody hpc | findAcquire hpc | findBody hpc | findRelease hpc
    | addAcquire hpc | addBody hpc | dequeue hpc => simp [hpc] at hbranch
    | broadcastAcquire hpc | broadcastStart hpc | visitOther hpc | visitSame hpc | enqueue hpc
    | enqueueEnd hpc =>
      have hb := inside ⟨_, hpc⟩
      exact ⟨⟨hrole, hb⟩, loud hb, nofun, nofun⟩
  | loopEnd hpc =>
    have hb := inside ⟨_, hpc⟩
    exact ⟨⟨hrole, by simp [hb]⟩, loud hb, nofun, nofun⟩
  | @memberExists r found hpc hroom hfound =>
    obtain ⟨hleave, hseat⟩ : t.msg.tag ≠ tagLeave ∧ (Member σ i ↔ b = true) := by
      simpa only [hpc] using hbranch
    have hmember : i ∈ (σ.room r).members ↔ Member σ i := by
      refine ⟨fun hin => ⟨r, hin⟩, fun ⟨q, hin⟩ => ?_⟩
      obtain rfl : r = q := by simpa [hroom] using hpointer q hin
      exact hin
    have hb : found = b := by
      rw [Bool.eq_iff_iff, hfound, hmember, hseat]
    subst hb
    refine ⟨⟨hrole, ?_⟩, fun _ => rfl, nofun, fun hover => ?_⟩
    · cases found <;> simp [hleave]
    · cases found <;> simp [hleave, Pc.finished] at hover
  | @reply resp resume sent conn hpc =>
    have hresp : resp = if b then sendallOk else sendallError := by simpa only [hpc] using hbranch
    refine ⟨?_, fun _ => rfl, fun resp' sent' heq => ?_, fun _ => .inr ⟨_, _, rfl⟩⟩
    · cases resume with
      | loop =>
        refine .over hrole ?_
        rcases loopHead_cases { t with conn } with hhead | ⟨-, hhead⟩ | ⟨hreceiver, -⟩
        · exact .inr (.inl hhead)
        · exact .inl hhead
        · cases hrole.symm.trans hreceiver
      | close => exact .over hrole (.inr (.inl rfl))
      | ret => exact .over hrole (.inr (.inr rfl))
    · obtain ⟨rfl, -⟩ : resp = resp' ∧ sent = sent' := by simpa using heq
      exact hresp
  | close hpc => exact ⟨.over hrole (.inr (.inr rfl)), fun _ => rfl, nofun, fun _ => .inl (by rw [hpc]; rfl)⟩
  | receiveFail => simp at hserial
  | receiveOk => simp at hserial
  | subscript | nullRoom | emptyQueue =>
    exact ⟨Answers.mono ⟨hrole, hbranch⟩ (hmem rfl), fun _ => rfl, nofun, .inl⟩
  | accept _ _ _ hpc | loginFail hpc | loginOk hpc | loginReply hpc | newSender hpc | newReceiver hpc
  | removeRelease hpc | addRelease hpc | dequeueEnd hpc | deliver hpc => simp [hpc] at hbranch

end Thread

namespace Server

variable {es pre post : List Event} {s : Server} {i : Sid} {n : ℕ} {m : Message}

/-- A sender that takes up a message that is no request comes to the branch for a sendall. -/
theorem answers_start (hrun : Run Server.Step {} pre s) {s' : Server}
    (hs : s.Acts i (.receive (some m)) s') (hrole : (s.thread i).role = .sender)
    (htag : m.tag ∉ requestTags) : (s'.thread i).Answers s'.shared i (seated (heard i pre)) ∧
      (s'.thread i).pc.finished = false := by
  have hstep := hs.step
  have hshared := hs.effect.of_quiet rfl
  rw [hshared]
  generalize s'.thread i = t at hstep
  have hseat := seat hrun i
  have hpointer := (membership hrun i).pointer
  cases hstep with
  | inner h => cases h
  | receiveOk hpc =>
    rw [Thread.seat_of_rests (by rw [hpc]; rfl)] at hseat
    obtain ⟨hjoin, hleave, -, hquit⟩ : m.tag ≠ tagJoin ∧ m.tag ≠ tagLeave ∧ m.tag ≠ tagSendall ∧
        m.tag ≠ tagQuit := by simpa [requestTags] using htag
    have hpc' := dispatch_cases (s.thread i).role (s.thread i).room m.tag
    dsimp only
    generalize dispatch (s.thread i).role (s.thread i).room m.tag = pc at hpc'
    cases hpc' with
    | quit _ h => exact absurd h hquit
    | rejoin _ h | join _ h => exact absurd h hjoin
    | leave _ h => exact absurd h hleave
    | firstJoin h | notJoin h => cases hrole.symm.trans h
    | sendall => exact ⟨⟨hrole, hleave, hseat⟩, rfl⟩
    | outside _ _ _ _ hroom =>
      have hout : seated (heard i pre) = false := by
        rw [← Bool.not_eq_true, ← hseat]
        rintro ⟨r, hin⟩
        cases hroom.symm.trans (hpointer r hin)
      exact ⟨⟨hrole, by simp [hout]⟩, rfl⟩

/-- What session `i` has done for its message `n`: outside all rooms nothing but a reply, which tells
where its user is and has been made once it is done with the message. -/
structure Replying (i : Sid) (n : ℕ) (b : Bool) (es : List Event) (s : Server) : Prop where
  position : n < (s.thread i).serial ∨ (s.thread i).serial = n ∧ (s.thread i).Answers s.shared i b
  actions : ∀ a, ⟨i, n, a⟩ ∈ es → (b = false → a.quiet = true) ∧
    ∀ resp sent, a = .reply resp sent → resp = if b then sendallOk else sendallError
  replied : s.DoneWith i n → ∃ resp sent, ⟨i, n, .reply resp sent⟩ ∈ es

/-- What happens for another message or in another session leaves that as it is. -/
theorem Replying.other {b : Bool} {e : Event} {s' : Server} (h : Replying i n b es s)
    (he : e.session = i → e.serial ≠ n)
    (hposition : n < (s'.thread i).serial ∨
      (s'.thread i).serial = n ∧ (s'.thread i).Answers s'.shared i b)
    (hdone : s'.DoneWith i n → s.DoneWith i n) : Replying i n b (es ++ [e]) s' := by
  refine ⟨hposition, fun a ha => h.actions a ?_, fun hover => ?_⟩
  · rcases List.mem_append.mp ha with ha | ha
    · exact ha
    · obtain rfl := List.mem_singleton.mp ha
      exact absurd rfl (he rfl)
  · obtain ⟨resp, sent, hmem⟩ := h.replied (hdone hover)
    exact ⟨resp, sent, List.mem_append_left _ hmem⟩

/-- From there on the branch goes on to its reply, whatever other sessions do in between. -/
theorem replying_run (hrun : Run Server.Step {} pre s) {s' : Server} {b : Bool}
    (hserial : (s.thread i).serial = n) (hstart : (s.thread i).Answers s.shared i b)
    (hpc : (s.thread i).pc.finished = false) (hpost : Run Server.Step s post s') :
    Replying i n b post s' := by
  refine hpost.invariant (fun post s' => Replying i n b post s') ⟨.inr ⟨hserial, hstart⟩, by simp,
    fun hover => ?_⟩ ?_
  · rcases hover with hlt | ⟨-, hover⟩
    · omega
    · cases hpc.symm.trans hover
  rintro es s₁ e s₂ hes h hs
  have h₁ := hrun.trans hes
  obtain ⟨j, k, a⟩ := e
  obtain ⟨hacts, rfl⟩ : s₁.Acts j a s₂ ∧ k = (s₂.thread j).serial := hs.acts
  by_cases hj : j = i
  · subst hj
    rcases hacts.step.serial_cases (ok h₁ j) with ⟨m, -, hreceive, hnext⟩ | ⟨-, hsame⟩
    · -- A later message: the reply to this one has been made by then.
      have hover : s₁.DoneWith j n := h.position.imp_right fun ⟨heq, _⟩ => ⟨heq, by rw [hreceive]; rfl⟩
      have hlt : n < (s₂.thread j).serial := by
        rcases h.position with hlt | ⟨heq, -⟩ <;> omega
      exact h.other (fun _ => hlt.ne') (.inl hlt) fun _ => hover
    rcases h.position with hlt | ⟨heq, hanswers⟩
    · have hlt' : n < (s₂.thread j).serial := by omega
      exact h.other (fun _ => hlt'.ne') (.inl hlt') fun _ => .inl hlt
    · have hmember : a.moves = false → (Thread.Member s₂.shared j ↔ Thread.Member s₁.shared j) :=
        fun ha => exists_congr (members_same h₁ hacts (.inr fun r =>
          ⟨fun heq => by simp [heq, Action.moves] at ha, fun heq => by simp [heq, Action.moves] at ha⟩))
      obtain ⟨hnext, hquiet, hreply, hover⟩ :=
        hanswers.step hacts.step hsame hmember (membership h₁ j).pointer
      refine ⟨.inr ⟨hsame.trans heq, hnext⟩, fun a' ha' => ?_, fun hdone => ?_⟩
      · rcases List.mem_append.mp ha' with ha' | ha'
        · exact h.actions a' ha'
        · obtain rfl : a' = a := by simpa [hsame, heq] using ha'
          exact ⟨hquiet, hreply⟩
      · rcases hdone with hlt | ⟨-, hpc'⟩
        · omega
        rcases hover hpc' with hpc₁ | ⟨resp, sent, rfl⟩
        · obtain ⟨resp, sent, hmem⟩ := h.replied (.inr ⟨heq, hpc₁⟩)
          exact ⟨resp, sent, List.mem_append_left _ hmem⟩
        · exact ⟨resp, sent, by simp [hsame, heq]⟩
  · have hi : i ≠ j := fun h => hj h.symm
    have hframe := hacts.frame i hi
    have hmember : Thread.Member s₂.shared i ↔ Thread.Member s₁.shared i :=
      exists_congr (members_same h₁ hacts (.inl hi))
    refine h.other (fun heq => absurd heq hj) ?_ fun hover => ?_
    · rw [hframe]
      exact h.position.imp_right fun hpos => ⟨hpos.1, hpos.2.mono hmember⟩
    · rwa [DoneWith, hframe] at hover

/-- A sender session refuses a message that is no request just if it would refuse a sendall, which is
if the last join or leave that it received was not a join. -/
theorem refused_iff (hrun : Run Server.Step {} (pre ++ ⟨i, n, .receive (some m)⟩ :: post) s)
    (hrole : (s.thread i).role = .sender) (htag : m.tag ∉ requestTags) :
    (seated (heard i pre) = false → Refused (pre ++ ⟨i, n, .receive (some m)⟩ :: post) s i n) ∧
    (s.DoneWith i n →
      (Refused (pre ++ ⟨i, n, .receive (some m)⟩ :: post) s i n ↔ seated (heard i pre) = false)) := by
  have hbefore := serial_before_receive hrun
  obtain ⟨s₁, s₂, h₁, hs, hpost⟩ := hrun.splitAt
  obtain ⟨hacts, rfl⟩ : s₁.Acts i (.receive (some m)) s₂ ∧ n = (s₂.thread i).serial := hs.acts
  have hlate : (s₁.thread i).pc.early = false := by
    have hstep := hacts.step
    generalize s₂.thread i = t at hstep
    cases hstep with
    | inner h => cases h
    | receiveOk hpc => rw [hpc]; rfl
  have hrole₁ := (role_run (.cons hs hpost) hlate).symm.trans hrole
  obtain ⟨hstart, hpc⟩ := answers_start h₁ hacts hrole₁ htag
  have hreplying := replying_run (.snoc h₁ hs) rfl hstart hpc hpost
  have hrefused : seated (heard i pre) = false →
      Refused (pre ++ ⟨i, (s₂.thread i).serial, .receive (some m)⟩ :: post) s i
        (s₂.thread i).serial := by
    intro hout
    refine .of_quiet (fun hover => ?_) (show sendallError.tag = tagErr from rfl) fun a ha => ?_
    · obtain ⟨resp, sent, hmem⟩ := hreplying.replied hover
      exact ⟨resp, sent, List.mem_append_right _ (List.mem_cons_of_mem _ hmem)⟩
    rcases List.mem_append.mp ha with hpre | ha
    · exact absurd (hbefore _ hpre rfl) (lt_irrefl _)
    rcases List.mem_cons.mp ha with heq | ha
    · obtain rfl : a = .receive (some m) := by simpa using heq
      exact ⟨rfl, nofun⟩
    · obtain ⟨hquiet, hreply⟩ := hreplying.actions a ha
      refine ⟨hquiet hout, fun resp sent hrep => ?_⟩
      simpa [hout] using hreply resp sent hrep
  refine ⟨hrefused, fun hover => ⟨fun h => ?_, hrefused⟩⟩
  obtain ⟨resp, sent, hmem⟩ := hreplying.replied hover
  have herr := h.answer resp sent (List.mem_append_right _ (List.mem_cons_of_mem _ hmem))
  have hresp := (hreplying.actions _ hmem).2 resp sent rfl
  by_contra hin
  rw [Bool.not_eq_false] at hin
  rw [hresp, hin] at herr
  exact absurd herr (by decide)

/-- A receiver in a room, where a sender's client logs in again. -/
private def relogin : List Sched :=
  .client 0 "rlogin:bob\njoin:lobby\n" :: Sched.steps 0 11 ++
    .client 1 "slogin:eve\njoin:lobby\nslogin:mallory\n" :: Sched.steps 1 23

theorem unknown_tag_published : ∃ pre post s,
    Run Server.Step {} (pre ++ ⟨1, 2, .receive (some ⟨tagSlogin, str "mallory\n"⟩)⟩ :: post) s ∧
    tagSlogin ∉ requestTags ∧
    ⟨1, 2, .queue 0 (.push (delivery (str "lobby") (str "eve") (str "mallory")))⟩ ∈ post ∧
    ⟨1, 2, .reply sendallOk true⟩ ∈ post ∧
    ¬ Refused (pre ++ ⟨1, 2, .receive (some ⟨tagSlogin, str "mallory\n"⟩)⟩ :: post) s 1 2 := by
  obtain ⟨⟨es, s⟩, h⟩ :=
    Option.isSome_iff_exists.mp (show (outcome relogin).isSome = true by decide)
  have hrecv : (outcome relogin).bind (fun p => p.1[24]?) =
      some ⟨1, 2, .receive (some ⟨tagSlogin, str "mallory\n"⟩)⟩ := rfl
  have hpush : (outcome relogin).bind (fun p => p.1[30]?) =
      some ⟨1, 2, .queue 0 (.push (delivery (str "lobby") (str "eve") (str "mallory")))⟩ := rfl
  have hreply : (outcome relogin).bind (fun p => p.1[35]?) = some ⟨1, 2, .reply sendallOk true⟩ := rfl
  rw [h] at hrecv hpush hreply
  have hcut := Run.cut hrecv
  have hmem : ⟨1, 2, .reply sendallOk true⟩ ∈ es := List.mem_of_getElem? hreply
  refine ⟨es.take 24, es.drop 25, s, hcut ▸ run_of_outcome h, by decide, Run.mem_drop hpush (by decide),
    Run.mem_drop hreply (by decide), fun hrefused => ?_⟩
  rw [← hcut] at hrefused
  exact absurd (hrefused.answer sendallOk true hmem) (by decide)

/-- A sender's client that sends a message of no meaning before it joins. -/
private def stray : List Sched := .client 0 "slogin:eve\nping:x\n" :: Sched.steps 0 5

theorem refused_iff_stray : ∃ pre post s,
    Run Server.Step {} (pre ++ ⟨0, 1, .receive (some ⟨str "ping", str "x\n"⟩)⟩ :: post) s ∧
    s.DoneWith 0 1 ∧
    Refused (pre ++ ⟨0, 1, .receive (some ⟨str "ping", str "x\n"⟩)⟩ :: post) s 0 1 := by
  obtain ⟨⟨es, s⟩, h⟩ :=
    Option.isSome_iff_exists.mp (show (outcome stray).isSome = true by decide)
  have hrecv : (outcome stray).bind (fun p => p.1[4]?) =
      some ⟨0, 1, .receive (some ⟨str "ping", str "x\n"⟩)⟩ := rfl
  have hrole : (outcome stray).map (fun p => (p.2.thread 0).role) = some .sender := by decide
  have hserial : (outcome stray).map (fun p => (p.2.thread 0).serial) = some 1 := by decide
  have hpc : (outcome stray).map (fun p => (p.2.thread 0).pc.finished) = some true := by decide
  have hheard : (outcome stray).map (fun p => seated (heard 0 (p.1.take 4))) = some false := by decide
  rw [h] at hrecv hrole hserial hpc hheard
  have hrun : Run Server.Step {}
      (es.take 4 ++ ⟨0, 1, .receive (some ⟨str "ping", str "x\n"⟩)⟩ :: es.drop 5) s := by
    rw [← Run.cut hrecv]
    exact run_of_outcome h
  have hdone : s.DoneWith 0 1 := .inr ⟨Option.some.inj hserial, Option.some.inj hpc⟩
  refine ⟨es.take 4, es.drop 5, s, hrun, hdone, ?_⟩
  exact ((refused_iff hrun (Option.some.inj hrole) (by decide)).2 hdone).mpr (Option.some.inj hheard)

end Server
end Chat
