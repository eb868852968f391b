import Chat.Delivery

/-! Delivery against the order that the clients observe: replies and receptions, by their
positions in the history. -/
namespace Chat
open Transition

namespace Pc

/-- Past the handling of the message last received. -/
def answered : Pc → Bool
  | .receive | .reply _ _ | .dequeue _ | .deliver _ | .close | .done => true
  | _ => false

/-- Past the point where a broadcast for the message last received can begin. -/
def sent : Pc → Bool
  | .broadcast .start | .broadcast (.loop _) | .broadcast (.enqueue _ _ _) => true
  | pc => pc.answered

end Pc

/-- The actions that a reply concludes. -/
def Action.Work (a : Action) : Prop :=
  (∃ u msg, a = .queue u (.push msg)) ∨ (∃ r, a = .insert r) ∨ ∃ r sender text, a = .broadcast r sender text

namespace Thread

variable {i : Sid} {σ : Shared} {t t' : Thread} {a : Action}

private theorem loopHead_answered (t : Thread) : t.loopHead.answered = true :=
  @loopHead_of (·.answered = true) t rfl rfl rfl

private theorem Step.answered_next (h : Step i σ t a t') (hpc : t.pc.answered = true)
    (hserial : t'.serial = t.serial) : t'.pc.answered = true := by
  cases h with
  | inner h =>
    cases h with
    | dequeue => rfl
    | removeAcquire hp | removeBody hp | findAcquire hp | findBody hp | findRelease hp
    | addAcquire hp | addBody hp | broadcastAcquire hp | broadcastStart hp | visitOther hp
    | visitSame hp | enqueue hp | enqueueEnd hp => simp [hp, Pc.answered] at hpc
  | receiveFail | receiveOk => simp at hserial
  | @reply resp resume =>
    exact @resumed_of (·.answered = true) _ resume (loopHead_answered _) rfl rfl
  | @dequeueEnd res =>
    exact @dequeued_of (·.answered = true) t res (loopHead_answered _) rfl fun _ => rfl
  | deliver => exact loopHead_answered _
  | close => rfl
  | subscript | nullRoom | emptyQueue => exact hpc
  | accept _ _ _ hp | loginFail hp | loginOk hp | loginReply hp | newSender hp | newReceiver hp
  | removeRelease hp | addRelease hp | memberExists hp | loopEnd hp =>
    simp [hp, Pc.answered] at hpc

/-- After its reply a session does nothing more for a message. -/
theorem Step.answered (h : Step i σ t a t') (hpc : t.pc.answered = true) :
    ¬ a.Work ∧ (t'.serial = t.serial → t'.pc.answered = true) := by
  refine ⟨?_, h.answered_next hpc⟩
  rintro (⟨u, msg, rfl⟩ | ⟨r, rfl⟩ | ⟨r, sender, text, rfl⟩)
  · simp [h.push_of, Pc.answered] at hpc
  · simp [h.insert_of.1, Pc.answered] at hpc
  · simp [h.broadcast_of.1, Pc.answered] at hpc

theorem Step.reply_of {resp : Message} {ok : Bool} (h : Step i σ t (.reply resp ok) t') :
    t.pc.answered = true ∧ t'.serial = t.serial := by
  cases h with
  | inner h => cases h
  | reply hpc => exact ⟨by rw [hpc]; rfl, rfl⟩

theorem Step.reply_owes {resp : Message} {ok : Bool} (h : Step i σ t (.reply resp ok) t') (u : Sid) :
    t.owes u = false := by
  cases h with
  | inner h => cases h
  | reply hpc => simp [owes, hpc]

theorem sent_of_answered {pc : Pc} (h : pc.answered = true) : pc.sent = true := by
  cases pc <;> first | rfl | cases h

/-- A session broadcasts a message at most once. -/
theorem Step.sent (h : Step i σ t a t') (hpc : t.pc.sent = true) :
    (¬ ∃ r sender text, a = .broadcast r sender text) ∧
      (t'.serial = t.serial → t'.pc.sent = true) := by
  constructor
  · rintro ⟨r, sender, text, rfl⟩
    simp [h.broadcast_of.1, Pc.sent, Pc.answered] at hpc
  · intro hserial
    by_cases hanswered : t.pc.answered = true
    · exact sent_of_answered (h.answered_next hanswered hserial)
    · cases hp : t.pc with
      | broadcast pc =>
        cases h with
        | inner h =>
          cases h with
          | broadcastStart | visitOther | visitSame | enqueue | enqueueEnd => rfl
          | broadcastAcquire hp' => rfl
          | _ => simp_all
        | loopEnd => rfl
        | nullRoom => exact hpc
        | _ => simp_all
      | _ => simp_all [Pc.sent]

end Thread

namespace Server

variable {es pre post : List Event} {s : Server} {i : Sid} {n : ℕ}

theorem work_before_reply {resp : Message} {ok : Bool}
    (h : Run Server.Step {} (pre ++ ⟨i, n, .reply resp ok⟩ :: post) s) :
    ∀ e ∈ post, e.session = i → e.serial = n → ¬ e.action.Work := by
  obtain ⟨s₁, s₂, h₁, hs, hpost⟩ := h.splitAt
  obtain ⟨hacts, hserial⟩ : s₁.Acts i (.reply resp ok) s₂ ∧ n = (s₂.thread i).serial := hs.acts
  refine @never_again _ _ _ _ i n (fun pc => pc.answered = true) Action.Work
    (fun hstep => hstep.answered) (h₁.snoc hs) hpost (.inr ⟨hserial.symm, ?_⟩)
  obtain ⟨hpc, hsame⟩ := hacts.step.reply_of
  exact (hacts.step.answered hpc).2 hsame

theorem broadcast_once {r : RoomId} {sender text : Bytes}
    (h : Run Server.Step {} (pre ++ ⟨i, n, .broadcast r sender text⟩ :: post) s) :
    ∀ e ∈ post, e.session = i → e.serial = n → ¬ ∃ r sender text, e.action = .broadcast r sender text := by
  obtain ⟨s₁, s₂, h₁, hs, hpost⟩ := h.splitAt
  obtain ⟨hacts, hserial⟩ : s₁.Acts i (.broadcast r sender text) s₂ ∧ n = (s₂.thread i).serial :=
    hs.acts
  refine @never_again _ _ _ _ i n (fun pc => pc.sent = true)
    (fun a => ∃ r sender text, a = .broadcast r sender text) (fun hstep => hstep.sent)
    (h₁.snoc hs) hpost (.inr ⟨hserial.symm, ?_⟩)
  rw [hacts.step.broadcast_of.2.2.2.2]
  rfl

/-- The part of `posts` that is for message `n` of session `i`. -/
def postsFor (u i : Sid) (n : ℕ) (es : List Event) : List Post :=
  (posts u es).filter fun p => p.session = i ∧ p.serial = n

private def broadcastsFor (r : RoomId) (i : Sid) (n : ℕ) (es : List Event) : List Broadcast :=
  (broadcasts r es).filter fun b => b.session = i ∧ b.serial = n

private theorem expected_for (roomName username : Bytes) (bs : List Broadcast) :
    (expected roomName username bs).filter (fun p => p.session = i ∧ p.serial = n) =
      expected roomName username (bs.filter fun b => b.session = i ∧ b.serial = n) := by
  simp only [expected, List.filter_map, List.filter_filter, Function.comp_def]
  congr 2
  funext b
  rw [Bool.and_comm]

private theorem postsFor_eq_nil {u : Sid}
    (h : ∀ e ∈ es, e.session = i → e.serial = n → ¬ e.action.Work) : postsFor u i n es = [] := by
  refine List.filter_eq_nil_iff.mpr fun p hp htag => ?_
  obtain ⟨⟨j, k, a⟩, he, hpost⟩ := List.mem_filterMap.mp hp
  obtain ⟨hi, hn⟩ : p.session = i ∧ p.serial = n := by simpa using htag
  cases a with
  | queue v b =>
    cases b with
    | push msg =>
      by_cases hv : v = u
      · obtain rfl : (⟨j, k, msg⟩ : Post) = p := by simpa [hv] using hpost
        exact h _ he hi hn (.inl ⟨v, msg, rfl⟩)
      · simp [hv] at hpost
    | _ => cases hpost
  | _ => cases hpost

private theorem broadcastsFor_eq_nil {r : RoomId} (h : ∀ e ∈ es, e.session = i → e.serial = n →
    ¬ ∃ r sender text, e.action = .broadcast r sender text) : broadcastsFor r i n es = [] := by
  refine List.filter_eq_nil_iff.mpr fun b hb htag => ?_
  obtain ⟨⟨j, k, a⟩, he, hcast⟩ := List.mem_filterMap.mp hb
  obtain ⟨hi, hn⟩ : b.session = i ∧ b.serial = n := by simpa using htag
  cases a with
  | broadcast q sender text =>
    by_cases hq : q = r
    · obtain rfl : (⟨j, k, sender, text⟩ : Broadcast) = b := by simpa [hq] using hcast
      exact h _ he hi hn ⟨q, sender, text, rfl⟩
    · simp [hq] at hcast
  | _ => cases hcast

/-- The one broadcast of a message, in a history that has it. -/
private theorem broadcastsFor_eq_singleton {r : RoomId} {sender text : Bytes}
    (h : Run Server.Step {} (pre ++ ⟨i, n, .broadcast r sender text⟩ :: post) s) :
    broadcastsFor r i n (pre ++ ⟨i, n, .broadcast r sender text⟩ :: post) =
      [⟨i, n, sender, text⟩] := by
  have hpost : broadcastsFor r i n post = [] := broadcastsFor_eq_nil (broadcast_once h)
  have hpre : broadcastsFor r i n pre = [] := by
    refine broadcastsFor_eq_nil fun e he hi hn => ?_
    rintro ⟨q, sender', text', ha⟩
    obtain ⟨pre₁, pre₂, rfl⟩ := List.append_of_mem he
    obtain rfl : e = ⟨i, n, .broadcast q sender' text'⟩ := by cases e; simp_all
    rw [List.append_assoc, List.cons_append] at h
    exact broadcast_once h ⟨i, n, .broadcast r sender text⟩ (by simp) rfl rfl ⟨r, sender, text, rfl⟩
  unfold broadcastsFor at hpre hpost ⊢
  rw [← List.singleton_append, broadcasts_append, broadcasts_append, List.filter_append,
    List.filter_append, hpre, hpost]
  simp [broadcasts]

section Positions

variable {a b p : ℕ} {act : Action}

theorem work_lt_reply {resp : Message} {ok : Bool} (hrun : Run Server.Step {} es s)
    (hreply : es[a]? = some ⟨i, n, .reply resp ok⟩) (hp : es[p]? = some ⟨i, n, act⟩)
    (hwork : act.Work) : p < a := by
  have hcut := Run.cut hreply
  rw [hcut] at hrun
  rcases Nat.lt_trichotomy p a with hlt | rfl | hgt
  · exact hlt
  · have hsame : Action.reply resp ok = act := by simpa [hreply] using hp
    rcases hwork with ⟨u, msg, rfl⟩ | ⟨r, rfl⟩ | ⟨r, sender, text, rfl⟩ <;> cases hsame
  · exact absurd hwork (work_before_reply hrun _ (Run.mem_drop hp hgt) rfl rfl)

theorem receive_le {m : Option Message} (hrun : Run Server.Step {} es s)
    (hreceive : es[b]? = some ⟨i, n, .receive m⟩) (hp : es[p]? = some ⟨i, n, act⟩) : b ≤ p := by
  by_contra hlt
  have hcut := Run.cut hreceive
  rw [hcut] at hrun
  have hserial := serial_before_receive hrun _ (Run.mem_take hp (by omega)) rfl
  simp at hserial

/-- A session receives one message under each number. -/
theorem receive_unique {m m' : Option Message} (hrun : Run Server.Step {} es s)
    (ha : es[a]? = some ⟨i, n, .receive m⟩) (hb : es[b]? = some ⟨i, n, .receive m'⟩) : m = m' := by
  have hab : a = b := le_antisymm (receive_le hrun ha hb) (receive_le hrun hb ha)
  subst hab
  simpa [ha] using hb

/-- What a session broadcasts is what it received. -/
theorem broadcast_text {r : RoomId} {sender text : Bytes} {m : Message}
    (hrun : Run Server.Step {} es s) (hreceive : es[b]? = some ⟨i, n, .receive (some m)⟩)
    (hp : es[p]? = some ⟨i, n, .broadcast r sender text⟩) : text = m.data := by
  obtain ⟨m', hmem, htext⟩ := Server.broadcast_received hrun (List.mem_of_getElem? hp)
  obtain ⟨q, hq⟩ := List.mem_iff_getElem?.mp hmem
  have hmsg := receive_unique hrun hq hreceive
  rw [htext, Option.some.inj hmsg]

end Positions

@[simp] private theorem postsFor_append (u : Sid) (es es' : List Event) :
    postsFor u i n (es ++ es') = postsFor u i n es ++ postsFor u i n es' := by
  simp [postsFor]

@[simp] private theorem broadcastsFor_append (r : RoomId) (es es' : List Event) :
    broadcastsFor r i n (es ++ es') = broadcastsFor r i n es ++ broadcastsFor r i n es' := by
  simp [broadcastsFor]

/-- Nothing is due for a message whose session is out of its broadcast. -/
private theorem pending_for {u : Sid} {r : RoomId} (h : (s.thread i).owes u = false)
    (roomName : Bytes) :
    (s.pending r roomName u).filter (fun p => p.session = i ∧ p.serial = n) = [] := by
  unfold pending
  cases s.shared.owner (.room r) with
  | none => rfl
  | some k =>
    by_cases hk : k = i
    · subst hk
      simp [Thread.due_eq_nil h]
    · simp only [Thread.due]
      split <;> simp [hk]

section Positions

variable {u : Sid} {r : RoomId} {a b c k p : ℕ} {sent sent' : Bool} {m : Message} {sender text : Bytes}

/-- A message that is broadcast after a join is broadcast once, and not before it. -/
private theorem broadcastsFor_after {pre mid : List Event}
    (hrun : Run Server.Step {} (pre ++ ⟨u, k, .insert r⟩ :: mid) s)
    (hmem : ⟨i, n, .broadcast r sender text⟩ ∈ mid) :
    broadcastsFor r i n mid = [⟨i, n, sender, text⟩] := by
  have hall : broadcastsFor r i n (pre ++ ⟨u, k, .insert r⟩ :: mid) = [⟨i, n, sender, text⟩] := by
    obtain ⟨mid₁, mid₂, rfl⟩ := List.append_of_mem hmem
    rw [← List.cons_append, ← List.append_assoc] at hrun ⊢
    exact broadcastsFor_eq_singleton hrun
  have hfound : (⟨i, n, sender, text⟩ : Broadcast) ∈ broadcastsFor r i n mid :=
    List.mem_filter.mpr ⟨List.mem_filterMap.mpr ⟨_, hmem, by simp⟩, by simp⟩
  have hnone : broadcastsFor r i n [⟨u, k, .insert r⟩] = [] := rfl
  rw [← List.singleton_append, broadcastsFor_append, broadcastsFor_append, hnone,
    List.nil_append] at hall
  have hlen := congrArg List.length hall
  have hpos := List.length_pos_of_mem hfound
  simp only [List.length_append, List.length_singleton] at hlen
  have hbefore : broadcastsFor r i n pre = [] := List.length_eq_zero_iff.mp (by omega)
  rwa [hbefore, List.nil_append] at hall

private theorem posted_once_at (hrun : Run Server.Step {} es s) {β : ℕ}
    (hrole : (s.thread u).role = .receiver) (hp : es[p]? = some ⟨u, k, .insert r⟩)
    (hβ : es[β]? = some ⟨i, n, .broadcast r sender text⟩) (hpβ : p < β)
    (hname : (s.shared.user u).username ≠ sender)
    (hreply : es[c]? = some ⟨i, n, .reply sendallOk sent⟩) :
    ∃ roomName, s.shared.mRooms roomName = some r ∧
      postsFor u i n (es.take c) = [⟨i, n, delivery roomName sender text⟩] := by
  have hβc : β < c := work_lt_reply hrun hreply hβ (.inr (.inr ⟨r, sender, text, rfl⟩))
  have hcut := Run.cut hreply
  have hmid : es.take c = es.take p ++ ⟨u, k, .insert r⟩ :: (es.take c).drop (p + 1) := by
    have hinsert : (es.take c)[p]? = some ⟨u, k, .insert r⟩ := by
      rw [List.getElem?_take_of_lt (by omega), hp]
    simpa [List.take_take, show min p c = p by omega] using Run.cut hinsert
  have hβ₂ : (es.take c)[β]? = some ⟨i, n, .broadcast r sender text⟩ := by
    rw [List.getElem?_take_of_lt hβc, hβ]
  have hmem := Run.mem_drop hβ₂ hpβ
  generalize (es.take c).drop (p + 1) = mid at hmid hmem
  have hrun' := hrun
  rw [hcut, hmid, List.append_assoc, List.cons_append] at hrun'
  obtain ⟨roomName, s₁, h₁, hpost, hjoined, hbefore, hnone, -⟩ := join_split hrun' hrole
  obtain ⟨s₂, s₃, h₂, hs, -⟩ := hpost.splitAt
  obtain ⟨hjoined', husername, -⟩ := hjoined.log h₁ hpost
  obtain ⟨-, -, hlog⟩ := hjoined.log h₁ h₂
  refine ⟨roomName, hjoined'.registered, ?_⟩
  have howes : (s₂.thread i).owes u = false := by
    obtain ⟨hacts, -⟩ := hs.acts
    exact hacts.step.reply_owes u
  have hdue := congrArg (List.filter fun q => q.session = i ∧ q.serial = n) hlog
  rw [List.filter_append, List.filter_append, pending_for howes, hnone, expected_for,
    List.append_nil, List.filter_nil, List.nil_append] at hdue
  have hrun₂ : Run Server.Step {} (es.take c) s₂ := by
    rw [hmid]
    simpa using h₁.trans h₂
  have hcast : broadcastsFor r i n mid = [⟨i, n, sender, text⟩] := by
    rw [hmid] at hrun₂
    exact broadcastsFor_after hrun₂ hmem
  have hpre : postsFor u i n (es.take p) = [] := by simp [postsFor, hbefore]
  have hinsert : postsFor u i n [⟨u, k, .insert r⟩] = [] := rfl
  have hnew : postsFor u i n mid = expected roomName (s₁.shared.user u).username
      (broadcastsFor r i n mid) := hdue
  rw [hmid, ← List.singleton_append, postsFor_append, postsFor_append, hpre, hinsert, hnew, hcast,
    ← husername]
  simp [expected, hname.symm]

private theorem postsFor_reply (hrun : Run Server.Step {} es s)
    (hreply : es[c]? = some ⟨i, n, .reply sendallOk sent⟩) (u : Sid) {q : ℕ} (hq : c ≤ q) :
    postsFor u i n (es.take q) = postsFor u i n (es.take c) := by
  have hafter : postsFor u i n ((es.drop c).take (q - c)) = [] := by
    refine postsFor_eq_nil fun e he hi hn hwork => ?_
    obtain ⟨x, hx⟩ := List.mem_iff_getElem?.mp (List.mem_of_mem_take he)
    rw [List.getElem?_drop] at hx
    have hevent : es[c + x]? = some ⟨i, n, e.action⟩ := by rw [hx, ← hi, ← hn]
    have hlt := work_lt_reply hrun hreply hevent hwork
    omega
  rw [show q = c + (q - c) by omega, List.take_add, postsFor_append]
  simp [hafter]

/-- A receiver that is in the room before a message is broadcast gets it once, by its reply. -/
theorem posted_once_joined {pre post : List Event}
    (hrun : Run Server.Step {} (pre ++ ⟨u, k, .insert r⟩ :: post) s)
    (hrole : (s.thread u).role = .receiver) (hcast : ⟨i, n, .broadcast r sender text⟩ ∈ post)
    (hname : (s.shared.user u).username ≠ sender)
    (hreply : ⟨i, n, .reply sendallOk sent⟩ ∈ pre ++ ⟨u, k, .insert r⟩ :: post) :
    ∃ roomName, s.shared.mRooms roomName = some r ∧
      postsFor u i n (pre ++ ⟨u, k, .insert r⟩ :: post) = [⟨i, n, delivery roomName sender text⟩] := by
  obtain ⟨c, hc⟩ := List.mem_iff_getElem?.mp hreply
  obtain ⟨x, hx⟩ := List.mem_iff_getElem?.mp hcast
  have hp : (pre ++ ⟨u, k, .insert r⟩ :: post)[pre.length]? = some ⟨u, k, .insert r⟩ := by simp
  have hβ : (pre ++ ⟨u, k, .insert r⟩ :: post)[pre.length + (x + 1)]? =
      some ⟨i, n, .broadcast r sender text⟩ := by
    simpa [List.getElem?_append_right] using hx
  obtain ⟨roomName, hregistered, hposted⟩ :=
    posted_once_at hrun hrole hp hβ (by omega) hname hc
  have hend := postsFor_reply hrun hc u (le_max_left c (pre ++ ⟨u, k, .insert r⟩ :: post).length)
  rw [List.take_of_length_le (le_max_right _ _)] at hend
  exact ⟨roomName, hregistered, hend.trans hposted⟩

/-- A receiver that has its reply before a message is received gets it once, by its reply. -/
private theorem posted_once (hrun : Run Server.Step {} es s)
    (hreply : es[c]? = some ⟨i, n, .reply sendallOk sent⟩)
    (hrole : (s.thread u).role = .receiver) (hin : ⟨u, k, .insert r⟩ ∈ es)
    (hjoin : es[a]? = some ⟨u, k, .reply joinOk sent'⟩) (hab : a < b)
    (hreceive : es[b]? = some ⟨i, n, .receive (some m)⟩)
    (hcast : ⟨i, n, .broadcast r sender text⟩ ∈ es)
    (hname : (s.shared.user u).username ≠ sender) :
    ∃ roomName, s.shared.mRooms roomName = some r ∧ ∀ q, c ≤ q →
      postsFor u i n (es.take q) = [⟨i, n, delivery roomName sender m.data⟩] := by
  obtain ⟨p, hp⟩ := List.mem_iff_getElem?.mp hin
  obtain ⟨β, hβ⟩ := List.mem_iff_getElem?.mp hcast
  have hpa : p < a := work_lt_reply hrun hjoin hp (.inr (.inl ⟨r, rfl⟩))
  have hbβ : b ≤ β := receive_le hrun hreceive hβ
  have htext := broadcast_text hrun hreceive hβ
  obtain ⟨roomName, hregistered, hposted⟩ :=
    posted_once_at hrun hrole hp hβ (by omega) hname hreply
  refine ⟨roomName, hregistered, fun q hq => ?_⟩
  rw [postsFor_reply hrun hreply u hq, hposted, htext]

/-- A receiver that asks to join after a message's reply gets nothing of it. -/
private theorem posted_never (hrun : Run Server.Step {} es s)
    (hreply : es[c]? = some ⟨i, n, .reply sendallOk sent⟩)
    (hrole : (s.thread u).role = .receiver) {m : Option Message}
    (hreceive : es[b]? = some ⟨u, k, .receive m⟩) (hcb : c < b) : postsFor u i n es = [] := by
  have hcut := Run.cut hreceive
  have hrun' := hrun
  rw [hcut] at hrun'
  obtain ⟨s₁, s₂, h₁, hs, hpost⟩ := hrun'.splitAt
  obtain ⟨hacts, -⟩ : s₁.Acts u (.receive m) s₂ ∧ k = (s₂.thread u).serial := hs.acts
  have hpc : (s₁.thread u).pc = .receive := by
    rcases hacts.step.serial_cases (ok h₁ u) with ⟨-, -, hpc, -⟩ | ⟨hno, -⟩
    · exact hpc
    · exact absurd rfl (hno m)
  have hrole₁ : (s₁.thread u).role = .receiver :=
    (role_run (.cons hs hpost) (by rw [hpc]; rfl)).symm.trans hrole
  have hbefore := posts_before_join h₁ u (.inr ⟨hrole₁, by rw [hpc]; rfl⟩)
  have hnone : postsFor u i n (es.take c) = [] := by
    have htake : es.take b = es.take c ++ (es.drop c).take (b - c) := by
      rw [← List.take_add, show c + (b - c) = b by omega]
    rw [htake, posts_append] at hbefore
    simp [postsFor, (List.append_eq_nil_iff.mp hbefore).1]
  have hend := postsFor_reply hrun hreply u (le_max_left c es.length)
  rw [hnone, List.take_of_length_le (le_max_right c es.length)] at hend
  exact hend

end Positions

/-- What the clients can see of a message that is acknowledged at position `c`: it is enqueued
before any message received later; exactly once, by then, for a receiver whose join was
acknowledged before it was received; and never for one that asks to join later. -/
theorem delivery_in_real_time {c : ℕ} {sent : Bool} (hrun : Run Server.Step {} es s)
    (hreply : es[c]? = some ⟨i, n, .reply sendallOk sent⟩) :
    (∀ (u j : Sid) (k b p q : ℕ) (m : Option Message) (msg msg' : Message), c < b →
      es[b]? = some ⟨j, k, .receive m⟩ →
      es[p]? = some ⟨i, n, .queue u (.push msg)⟩ → es[q]? = some ⟨j, k, .queue u (.push msg')⟩ →
        p < q) ∧
    (∀ (u : Sid) (r : RoomId) (k a b : ℕ) (m : Message) (sender text : Bytes) (sent' : Bool),
      (s.thread u).role = .receiver → ⟨u, k, .insert r⟩ ∈ es →
      es[a]? = some ⟨u, k, .reply joinOk sent'⟩ → a < b →
      es[b]? = some ⟨i, n, .receive (some m)⟩ → ⟨i, n, .broadcast r sender text⟩ ∈ es →
      (s.shared.user u).username ≠ sender →
        ∃ roomName, s.shared.mRooms roomName = some r ∧ ∀ q, c ≤ q →
          postsFor u i n (es.take q) = [⟨i, n, delivery roomName sender m.data⟩]) ∧
    ∀ (u : Sid) (k b : ℕ) (m : Option Message), (s.thread u).role = .receiver →
      es[b]? = some ⟨u, k, .receive m⟩ → c < b → postsFor u i n es = [] := by
  refine ⟨?_, ?_, ?_⟩
  · intro u j k b p q m msg msg' hcb hreceive hp hq
    have hpc : p < c := work_lt_reply hrun hreply hp (.inl ⟨u, msg, rfl⟩)
    have hbq : b ≤ q := receive_le hrun hreceive hq
    omega
  · intro u r k a b m sender text sent' hrole hin hjoin hab hreceive hcast hname
    exact posted_once hrun hreply hrole hin hjoin hab hreceive hcast hname
  · intro u k b m hrole hreceive hcb
    exact posted_never hrun hreply hrole hreceive hcb

private def latecomer : List Sched :=
  .client 0 "rlogin:bob\njoin:lobby\n" :: Sched.steps 0 11 ++
    .client 1 "slogin:alice\njoin:lobby\nsendall:hi\nsendall:yo\n" :: Sched.steps 1 35 ++
    .client 2 "rlogin:carol\njoin:lobby\n" :: Sched.steps 2 4

set_option maxRecDepth 8000 in
theorem delivery_in_real_time_latecomer : ∃ (es : List Event) (s : Server) (p q : ℕ)
    (roomName : Bytes), Run Server.Step {} es s ∧
    es[p]? = some ⟨1, 2, .queue 0 (.push ⟨tagDelivery, str "lobby:alice:hi"⟩)⟩ ∧
    es[q]? = some ⟨1, 3, .queue 0 (.push ⟨tagDelivery, str "lobby:alice:yo"⟩)⟩ ∧ p < q ∧
    postsFor 0 1 2 (es.take 36) = [⟨1, 2, delivery roomName (str "alice") (str "hi\n")⟩] ∧
    postsFor 2 1 2 es = [] := by
  obtain ⟨⟨es, s⟩, h⟩ :=
    Option.isSome_iff_exists.mp (show (outcome latecomer).isSome = true by decide)
  have hrole : (outcome latecomer).map (fun p => ((p.2.thread 0).role, (p.2.thread 2).role)) =
      some (.receiver, .receiver) := by decide
  have hname : (outcome latecomer).map (fun p => (p.2.shared.user 0).username) =
      some (str "bob\n") := by decide
  have at9 : (outcome latecomer).bind (fun p => p.1[9]?) = some ⟨0, 1, .insert 0⟩ := rfl
  have at11 : (outcome latecomer).bind (fun p => p.1[11]?) = some ⟨0, 1, .reply joinOk true⟩ := rfl
  have at24 : (outcome latecomer).bind (fun p => p.1[24]?) =
      some ⟨1, 2, .receive (some ⟨tagSendall, str "hi\n"⟩)⟩ := rfl
  have at26 : (outcome latecomer).bind (fun p => p.1[26]?) =
      some ⟨1, 2, .broadcast 0 (str "alice\n") (str "hi\n")⟩ := rfl
  have at30 : (outcome latecomer).bind (fun p => p.1[30]?) =
      some ⟨1, 2, .queue 0 (.push ⟨tagDelivery, str "lobby:alice:hi"⟩)⟩ := rfl
  have at35 : (outcome latecomer).bind (fun p => p.1[35]?) =
      some ⟨1, 2, .reply sendallOk true⟩ := rfl
  have at36 : (outcome latecomer).bind (fun p => p.1[36]?) =
      some ⟨1, 3, .receive (some ⟨tagSendall, str "yo\n"⟩)⟩ := rfl
  have at42 : (outcome latecomer).bind (fun p => p.1[42]?) =
      some ⟨1, 3, .queue 0 (.push ⟨tagDelivery, str "lobby:alice:yo"⟩)⟩ := rfl
  have at52 : (outcome latecomer).bind (fun p => p.1[52]?) =
      some ⟨2, 1, .receive (some ⟨tagJoin, str "lobby\n"⟩)⟩ := rfl
  rw [h] at hrole hname at9 at11 at24 at26 at30 at35 at36 at42 at52
  obtain ⟨hrole₀, hrole₂⟩ := Prod.mk.inj (Option.some.inj hrole)
  have hrun := run_of_outcome h
  have hbob : (s.shared.user 0).username = str "bob\n" := Option.some.inj hname
  have hne : (s.shared.user 0).username ≠ str "alice\n" := by
    rw [hbob]
    decide
  obtain ⟨hbefore, honce, hnever⟩ := delivery_in_real_time hrun at35
  obtain ⟨roomName, -, hposts⟩ := honce 0 0 1 11 24 _ _ _ _ hrole₀ (List.mem_of_getElem? at9)
    at11 (by decide) at24 (List.mem_of_getElem? at26) hne
  exact ⟨es, s, 30, 42, roomName, hrun, at30, at42, hbefore 0 1 3 36 30 42 _ _ _ (by decide) at36
    at30 at42, hposts 36 (by decide), hnever 2 1 52 _ hrole₂ at52 (by decide)⟩

end Server
end Chat
