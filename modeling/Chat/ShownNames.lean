import Chat.DeliveryForm

/-! The names that deliveries show: they are stripped of their line terminators, but the registry
and the broadcast filter compare names as they were decoded. -/
namespace Chat
open Transition Tokens

/-- What `remove_newline` takes off a string. -/
def terminator (s : Bytes) : Bytes := s.dropWhile (· ≠ newline)

/-- The second field of a line, which names a user in a login and a room in a join. -/
def nameField (l : Bytes) : Bytes := (fields l).getD 1 []

/-- Field `k` of a delivery as the receiving client splits it: the room, the sender, the text. -/
def Message.shown (msg : Message) (k : ℕ) : Option Bytes := (Receiver.split msg.data)[k]?

/-- A name is made of what is shown of it and its terminator. -/
theorem name_eq_iff {n n' : Bytes} :
    n = n' ↔ removeNewline n = removeNewline n' ∧ terminator n = terminator n' := by
  constructor
  · rintro rfl
    exact ⟨rfl, rfl⟩
  · rintro ⟨hname, hend⟩
    have hsplit : ∀ s : Bytes, removeNewline s ++ terminator s = s :=
      fun s => List.takeWhile_append_dropWhile
    rw [← hsplit n, ← hsplit n', hname, hend]

/-- A name that has no separator is a field of its line as it stands there. -/
theorem nameField_eq {l : Bytes} {m : Message} (h : decode l = some m) (hcolon : colon ∉ m.data) :
    nameField l = m.data := by
  unfold nameField
  unfold decode at h
  generalize fields l = fs at h
  match fs, h with
  | tag :: data :: more, h =>
    simp only at h
    split at h
    · match more, h with
      | sender :: text :: _, h =>
        obtain rfl := Option.some.inj h
        simp at hcolon
    · obtain rfl := Option.some.inj h
      rfl

section Shown

variable {roomName sender : Bytes} (hroom : colon ∉ removeNewline roomName) (text : Bytes)
include hroom

theorem shown_room (sender : Bytes) :
    (delivery roomName sender text).shown 0 = some (removeNewline roomName) := by
  rw [Message.shown, Receiver.split_eq_tokens, delivery, List.append_assoc, List.append_assoc,
    List.append_assoc, List.singleton_append, tokens_append_sep hroom]
  rfl

theorem shown_sender (hsender : colon ∉ removeNewline sender) :
    (delivery roomName sender text).shown 1 = some (removeNewline sender) := by
  rw [Message.shown, Receiver.split_eq_tokens, delivery, List.append_assoc, List.append_assoc,
    List.append_assoc, List.singleton_append, tokens_append_sep hroom, List.singleton_append,
    tokens_append_sep hsender]
  rfl

end Shown

/-- Some deliveries of the two rooms show one room name. -/
def Shared.Alike (σ : Shared) (r r' : RoomId) : Prop :=
  ∃ sender text sender' text', (delivery (σ.room r).roomName sender text).shown 0 =
    (delivery (σ.room r').roomName sender' text').shown 0

/-- A session received the line and looked up the room that it names. -/
def JoinLine (es : List Event) (l : Bytes) : Prop :=
  ∃ i n m r, decode l = some m ∧ ⟨i, n, .receive (some m)⟩ ∈ es ∧
    ⟨i, n, .findOrCreateRoom m.data r⟩ ∈ es

/-- Session `i` logged in with the line and made a user of the name in it. -/
def LoginLine (es : List Event) (i : Sid) (l : Bytes) : Prop :=
  ∃ m, decode l = some m ∧ ⟨i, 0, .login (some m)⟩ ∈ es ∧ ⟨i, 0, .newUser m.data⟩ ∈ es

theorem LoginLine.mono {es es' : List Event} {i : Sid} {l : Bytes} (h : LoginLine es i l) :
    LoginLine (es ++ es') i l := by
  obtain ⟨m, hl, hlogin, hnew⟩ := h
  exact ⟨m, hl, List.mem_append_left _ hlogin, List.mem_append_left _ hnew⟩

namespace Server

variable {es : List Event} {s : Server}

/-- The name that a room shows is its registered name without the terminator. -/
theorem alike_iff (hrun : Run Server.Step {} es s) {n n' : Bytes} {r r' : RoomId}
    (hn : s.shared.mRooms n = some r) (hn' : s.shared.mRooms n' = some r') :
    s.shared.Alike r r' ↔ removeNewline n = removeNewline n' := by
  have hroomName := (registered hrun).registry.roomName
  have hcolon := (names_colonFree hrun).1
  have hshown : ∀ m q, s.shared.mRooms m = some q → ∀ sender text,
      (delivery (s.shared.room q).roomName sender text).shown 0 = some (removeNewline m) := by
    intro m q hm sender text
    have hfree : colon ∉ removeNewline (s.shared.room q).roomName := by
      rw [hroomName m q hm]
      exact fun h => hcolon m q hm (mem_of_mem_removeNewline h)
    rw [shown_room hfree, hroomName m q hm]
  constructor
  · rintro ⟨sender, text, sender', text', h⟩
    rw [hshown n r hn, hshown n' r' hn'] at h
    exact Option.some.inj h
  · intro h
    refine ⟨[], [], [], [], ?_⟩
    rw [hshown n r hn, hshown n' r' hn', h]

/-- What is looked up is registered from then on. -/
theorem found_registered (hrun : Run Server.Step {} es s) {i : Sid} {k : ℕ} {n : Bytes} {r : RoomId}
    (h : ⟨i, k, .findOrCreateRoom n r⟩ ∈ es) : s.shared.mRooms n = some r := by
  obtain ⟨pre, post, rfl⟩ := List.append_of_mem h
  obtain ⟨s₁, s₂, h₁, hs, hpost⟩ := hrun.splitAt
  obtain ⟨hacts, -⟩ : s₁.Acts i (.findOrCreateRoom n r) s₂ ∧ k = (s₂.thread i).serial := hs.acts
  obtain ⟨-, hname, -⟩ := hacts.step.find_of
  have h₂ : Run Server.Step {} (pre ++ [⟨i, k, .findOrCreateRoom n r⟩]) s₂ := .snoc h₁ hs
  have hfound := ((registered h₂).pointers i).found r
  refine mRooms_run hpost ?_
  have hstep := hacts.step
  generalize ht : s₂.thread i = t at hstep hfound
  cases hstep with
  | inner hstep =>
    cases hstep with
    | findBody => exact hfound rfl

theorem registered_line (hrun : Run Server.Step {} es s) {n : Bytes} {r : RoomId}
    (hn : s.shared.mRooms n = some r) : ∃ l, JoinLine es l ∧ nameField l = n := by
  have hline : ∀ n r, s.shared.mRooms n = some r →
      ∃ i k m q, m.data = n ∧ ⟨i, k, .receive (some m)⟩ ∈ es ∧ ⟨i, k, .findOrCreateRoom n q⟩ ∈ es := by
    refine hrun.invariant (fun es s => ∀ n r, s.shared.mRooms n = some r → ∃ i k m q,
      m.data = n ∧ ⟨i, k, .receive (some m)⟩ ∈ es ∧ ⟨i, k, .findOrCreateRoom n q⟩ ∈ es) nofun ?_
    intro es s e s' hrun ih hs n r hn
    obtain ⟨i, k, a⟩ := e
    obtain ⟨hacts, hserial⟩ : s.Acts i a s' ∧ k = (s'.thread i).serial := hs.acts
    have hold : s.shared.mRooms n = some r → ∃ j k' m q, m.data = n ∧
        ⟨j, k', .receive (some m)⟩ ∈ es ++ [⟨i, k, a⟩] ∧
        ⟨j, k', .findOrCreateRoom n q⟩ ∈ es ++ [⟨i, k, a⟩] := by
      intro hn
      obtain ⟨j, k', m, q, hm, hrecv, hfind⟩ := ih n r hn
      exact ⟨j, k', m, q, hm, List.mem_append_left _ hrecv, List.mem_append_left _ hfind⟩
    rcases hacts.effect.registry with ⟨hm, -, -⟩ | ⟨m, q, rfl, -, hm, -⟩
    · exact hold (hm ▸ hn)
    · by_cases hnm : n = m
      · subst hnm
        obtain ⟨hpc, hname, -⟩ := hacts.step.find_of
        have hrecv := handled hrun i (by rw [hpc]; rfl)
        have hsame : k = (s.thread i).serial := by
          rcases hacts.step.serial_cases (ok hrun i) with ⟨_, ha, -⟩ | ⟨-, hsame⟩
          · cases ha
          · rw [hserial, hsame]
        subst hsame
        exact ⟨i, _, _, q, hname.symm, List.mem_append_left _ hrecv, by simp⟩
      · rw [hm, Function.update_of_ne hnm] at hn
        exact hold hn
  obtain ⟨i, k, m, q, rfl, hrecv, hfind⟩ := hline n r hn
  obtain ⟨l, hl⟩ := receive_decoded hrun hrecv
  exact ⟨l, ⟨i, k, m, q, hl, hrecv, hfind⟩, nameField_eq hl ((names_colonFree hrun).1 _ _ hn)⟩

theorem joinLine_registered (hrun : Run Server.Step {} es s) {l : Bytes} (h : JoinLine es l) :
    ∃ r, s.shared.mRooms (nameField l) = some r := by
  obtain ⟨i, k, m, r, hl, -, hfind⟩ := h
  have hn := found_registered hrun hfind
  rw [nameField_eq hl ((names_colonFree hrun).1 _ _ hn)]
  exact ⟨r, hn⟩

/-- Different rooms are shown under different names, and sessions whose rooms are shown alike are in
one room, just if no name was joined with two terminators. -/
theorem rooms_shown_apart_iff (hrun : Run Server.Step {} es s) :
    ((∀ n n' r r', s.shared.mRooms n = some r → s.shared.mRooms n' = some r' → r ≠ r' →
        ¬ s.shared.Alike r r') ∧
      ∀ i j r r', (s.thread i).room = some r → (s.thread j).room = some r' →
        s.shared.Alike r r' → r = r') ↔
    ∀ l l', JoinLine es l → JoinLine es l' →
      removeNewline (nameField l) = removeNewline (nameField l') →
      terminator (nameField l) = terminator (nameField l') := by
  constructor
  · rintro ⟨hapart, -⟩ l l' hl hl' hname
    obtain ⟨r, hr⟩ := joinLine_registered hrun hl
    obtain ⟨r', hr'⟩ := joinLine_registered hrun hl'
    have hsame : r = r' := by
      by_contra hne
      exact hapart _ _ r r' hr hr' hne ((alike_iff hrun hr hr').mpr hname)
    subst hsame
    rw [(registered hrun).registry.injective _ _ r hr hr']
  · intro hlines
    have hone : ∀ n n' r r', s.shared.mRooms n = some r → s.shared.mRooms n' = some r' →
        s.shared.Alike r r' → r = r' := by
      intro n n' r r' hn hn' halike
      have hname := (alike_iff hrun hn hn').mp halike
      obtain ⟨l, hl, rfl⟩ := registered_line hrun hn
      obtain ⟨l', hl', rfl⟩ := registered_line hrun hn'
      have heq := name_eq_iff.mpr ⟨hname, hlines l l' hl hl' hname⟩
      rw [heq, hn'] at hn
      exact (Option.some.inj hn).symm
    refine ⟨fun n n' r r' hn hn' hne halike => hne (hone n n' r r' hn hn' halike), ?_⟩
    intro i j r r' hi hj halike
    obtain ⟨n, hn⟩ := ((registered hrun).pointers i).room r hi
    obtain ⟨n', hn'⟩ := ((registered hrun).pointers j).room r' hj
    exact hone n n' r r' hn hn' halike

/-- Two receivers whose join lines name one room, the second with a field after the name. -/
private def joiners : List Sched :=
  .client 0 "rlogin:bob\njoin:lobby\n" :: Sched.steps 0 11 ++
    .client 1 "rlogin:eve\njoin:lobby:x\n" :: Sched.steps 1 11

theorem rooms_shown_alike : ∃ es s, Run Server.Step {} es s ∧
    s.shared.mRooms (str "lobby\n") = some 0 ∧ s.shared.mRooms (str "lobby") = some 1 ∧
    (s.thread 0).room = some 0 ∧ (s.thread 1).room = some 1 ∧ s.shared.Alike 0 1 := by
  obtain ⟨⟨es, s⟩, h⟩ :=
    Option.isSome_iff_exists.mp (show (outcome joiners).isSome = true by decide)
  have hrooms : (outcome joiners).map (fun p =>
      (p.2.shared.mRooms (str "lobby\n"), p.2.shared.mRooms (str "lobby"), (p.2.thread 0).room,
        (p.2.thread 1).room)) = some (some 0, some 1, some 0, some 1) := by decide
  rw [h] at hrooms
  obtain ⟨hlobby, hlobby', hroom, hroom'⟩ : s.shared.mRooms (str "lobby\n") = some 0 ∧
      s.shared.mRooms (str "lobby") = some 1 ∧ (s.thread 0).room = some 0 ∧
      (s.thread 1).room = some 1 := by simpa using hrooms
  exact ⟨es, s, run_of_outcome h, hlobby, hlobby', hroom, hroom',
    (alike_iff (run_of_outcome h) hlobby hlobby').mpr (by decide)⟩

theorem rooms_shown_apart_iff_joiners : ∃ es s, Run Server.Step {} es s ∧
    s.shared.mRooms (str "lobby\n") = some 0 ∧ s.shared.mRooms (str "lobby") = some 1 ∧
    ¬ ∀ l l', JoinLine es l → JoinLine es l' →
      removeNewline (nameField l) = removeNewline (nameField l') →
      terminator (nameField l) = terminator (nameField l') := by
  obtain ⟨⟨es, s⟩, h⟩ :=
    Option.isSome_iff_exists.mp (show (outcome joiners).isSome = true by decide)
  have hrooms : (outcome joiners).map (fun p =>
      (p.2.shared.mRooms (str "lobby\n"), p.2.shared.mRooms (str "lobby"))) =
        some (some 0, some 1) := by decide
  rw [h] at hrooms
  obtain ⟨hlobby, hlobby'⟩ : s.shared.mRooms (str "lobby\n") = some 0 ∧
      s.shared.mRooms (str "lobby") = some 1 := by simpa using hrooms
  have hrun := run_of_outcome h
  refine ⟨es, s, hrun, hlobby, hlobby', fun hlines => ?_⟩
  exact ((rooms_shown_apart_iff hrun).mpr hlines).1 _ _ 0 1 hlobby hlobby' (by decide)
    ((alike_iff hrun hlobby hlobby').mpr (by decide))

end Server

namespace Thread

variable {i : Sid} {σ : Shared} {t t' : Thread} {a : Action}

/-- A session that handles a message, or has handled a join, has received one. -/
def Numbered (t : Thread) : Prop := t.pc.handling = true ∨ t.room ≠ none → t.serial ≠ 0

theorem Step.numbered (h : Step i σ t a t') (hok : t.Ok) (ht : t.Numbered) : t'.Numbered := by
  have hserial := h.serial_cases hok
  rintro (hpc' | hroom')
  · rcases hserial with ⟨m, -, -, hserial⟩ | ⟨hreceive, hserial⟩
    · omega
    · rcases h.handling_of hpc' with ha | ⟨hpc, -, -⟩
      · exact absurd ha (hreceive _)
      · rw [hserial]
        exact ht (.inl hpc)
  · have hold : t.serial ≠ 0 := by
      rcases h.room_cases hok with hroom | ⟨r, hpc, -, -⟩
      · exact ht (.inr (hroom ▸ hroom'))
      · exact ht (.inl (by rw [hpc]; rfl))
    rcases hserial with ⟨m, -, -, hserial⟩ | ⟨-, hserial⟩ <;> omega

/-- A session comes to enqueue a message by making it. -/
theorem Step.making_of (h : Step i σ t a t') {u : Sid} {msg : Message} {pc : EnqueuePc}
    (hpc' : t'.pc = .broadcast (.enqueue u msg pc)) :
    (∃ r, a = .visit r u (some msg)) ∨
      (∃ pc, t.pc = .broadcast (.enqueue u msg pc)) ∧ t'.serial = t.serial := by
  rcases h.shape with hidle | ⟨-, hearly⟩ | hinner | ⟨rfl, -⟩
  · simp [hpc', Pc.idle] at hidle
  · simp [hpc', Pc.early] at hearly
  · cases hinner with
    | visitOther =>
      cases hpc'
      exact .inl ⟨_, rfl⟩
    | enqueue hpc =>
      cases hpc'
      exact .inr ⟨⟨_, hpc⟩, rfl⟩
    | _ => cases hpc'
  · exact .inr ⟨⟨pc, hpc'⟩, rfl⟩

/-- The filter of a broadcast at the member that it has come to. -/
theorem Step.visit_of {r : RoomId} {u : Sid} {msg : Option Message} (h : Step i σ t (.visit r u msg) t') :
    t.pc = .broadcast (.loop (some u)) ∧ t.room = some r ∧
      ((σ.user u).username = (σ.user i).username ∧ msg = none ∨
        (σ.user u).username ≠ (σ.user i).username ∧
          msg = some (delivery (σ.room r).roomName (σ.user i).username t.msg.data)) := by
  cases h with
  | inner h =>
    cases h with
    | visitOther hpc hroom hname => exact ⟨hpc, hroom, .inr ⟨hname, rfl⟩⟩
    | visitSame hpc hroom hname => exact ⟨hpc, hroom, .inl ⟨hname, rfl⟩⟩

end Thread

namespace Server

variable {es : List Event} {s : Server}

theorem numbered (hrun : Run Server.Step {} es s) (i : Sid) : (s.thread i).Numbered :=
  (@thread_invariant (fun t => t.Ok ∧ t.Numbered) ⟨⟨rfl, rfl⟩, by simp [Thread.Numbered, Pc.handling]⟩
    (fun h ht => ⟨h.ok ht.1, h.numbered ht.1 ht.2⟩) _ _ hrun i).2

theorem login_decoded (hrun : Run Server.Step {} es s) {i : Sid} {n : ℕ} {m : Message}
    (h : ⟨i, n, .login (some m)⟩ ∈ es) : ∃ l, decode l = some m := by
  obtain ⟨pre, post, rfl⟩ := List.append_of_mem h
  obtain ⟨s₁, s₂, -, hs, -⟩ := hrun.splitAt
  obtain ⟨hacts, -⟩ : s₁.Acts i (.login (some m)) s₂ ∧ n = (s₂.thread i).serial := hs.acts
  have hstep := hacts.step
  generalize s₂.thread i = t at hstep
  cases hstep with
  | inner h => cases h
  | loginOk _ hrec => exact Connection.receive_accepts hrec

theorem username_of_line (hrun : Run Server.Step {} es s) {i : Sid} {l : Bytes} (h : LoginLine es i l) :
    nameField l = (s.shared.user i).username := by
  obtain ⟨m, hl, -, hnew⟩ := h
  have hname := (newUser_username hrun hnew).2
  rw [hname]
  exact nameField_eq hl (hname ▸ (names_colonFree hrun).2 i)

/-- A session that has received a message made its user from a login line. -/
theorem loginLine_of_numbered (hrun : Run Server.Step {} es s) {i : Sid}
    (hlate : (s.thread i).pc.early = false) (hserial : (s.thread i).serial ≠ 0) :
    ∃ l, LoginLine es i l := by
  obtain ⟨m, hlogin, hnew, -⟩ := (greeted hrun i).entered hlate (.inr hserial)
  obtain ⟨l, hl⟩ := login_decoded hrun hlogin
  exact ⟨l, m, hl, hlogin, hnew⟩

/-- A broadcast that comes to a member has the login lines of both before it, and makes a message
just if the names in them differ. -/
theorem visited (hrun : Run Server.Step {} es s) {i u : Sid} {n : ℕ} {r : RoomId} {msg : Option Message}
    (h : ⟨i, n, .visit r u msg⟩ ∈ es) :
    (∃ l, LoginLine es i l) ∧ (∃ l, LoginLine es u l) ∧
      ((s.shared.user u).username = (s.shared.user i).username ∧ msg = none ∨
        (s.shared.user u).username ≠ (s.shared.user i).username ∧ ∃ m, msg = some m ∧
          m.shown 1 = some (removeNewline (s.shared.user i).username)) := by
  obtain ⟨pre, post, rfl⟩ := List.append_of_mem h
  obtain ⟨s₁, s₂, h₁, hs, hpost⟩ := hrun.splitAt
  obtain ⟨hacts, -⟩ : s₁.Acts i (.visit r u msg) s₂ ∧ n = (s₂.thread i).serial := hs.acts
  obtain ⟨hpc, hroom, hfilter⟩ := hacts.step.visit_of
  have hlate : (s₁.thread i).pc.early = false := by rw [hpc]; rfl
  have htarget : (s₁.thread i).pc.target = some u := by rw [hpc]; rfl
  have hlate' := (newcomers h₁).target i u htarget
  have hmember := (broadcasting h₁ i).member u r htarget hroom
  have hsender := loginLine_of_numbered h₁ hlate (numbered h₁ i (.inl (by rw [hpc]; rfl)))
  have hjoined := loginLine_of_numbered h₁ hlate' (numbered h₁ u (.inr (by
    rw [(membership h₁ u).pointer r hmember]
    exact Option.some_ne_none r)))
  refine ⟨hsender.imp fun _ => .mono, hjoined.imp fun _ => .mono, ?_⟩
  rw [username_run (.cons hs hpost) hlate, username_run (.cons hs hpost) hlate']
  refine hfilter.imp_right fun ⟨hne, hmsg⟩ => ⟨hne, _, hmsg, ?_⟩
  obtain ⟨hrooms, husers⟩ := names_colonFree h₁
  obtain ⟨roomName, hname⟩ := ((registered h₁).pointers i).room r hroom
  refine shown_sender (fun hc => ?_) _ fun hc => husers i (mem_of_mem_removeNewline hc)
  rw [(registered h₁).registry.roomName roomName r hname] at hc
  exact hrooms roomName r hname (mem_of_mem_removeNewline hc)

/-- What is enqueued for a user was made for it when the broadcast came to it. -/
theorem push_visited (hrun : Run Server.Step {} es s) {i u : Sid} {n : ℕ} {msg : Message}
    (h : ⟨i, n, .queue u (.push msg)⟩ ∈ es) : ∃ r, ⟨i, n, .visit r u (some msg)⟩ ∈ es := by
  have hmade : ∀ {es s}, Run Server.Step {} es s → ∀ i u msg pc,
      (s.thread i).pc = .broadcast (.enqueue u msg pc) →
      ∃ r, ⟨i, (s.thread i).serial, .visit r u (some msg)⟩ ∈ es := by
    intro es s hrun
    refine hrun.invariant (fun es s => ∀ i u msg pc, (s.thread i).pc = .broadcast (.enqueue u msg pc) →
      ∃ r, ⟨i, (s.thread i).serial, .visit r u (some msg)⟩ ∈ es) nofun ?_
    intro es s e s' hrun ih hs i u msg pc hpc
    obtain ⟨j, n, a⟩ := e
    obtain ⟨hacts, rfl⟩ : s.Acts j a s' ∧ n = (s'.thread j).serial := hs.acts
    by_cases hi : i = j
    · subst hi
      rcases hacts.step.making_of hpc with ⟨r, rfl⟩ | ⟨⟨pc, hpc⟩, hserial⟩
      · exact ⟨r, by simp⟩
      · obtain ⟨r, hr⟩ := ih i u msg pc hpc
        rw [hserial]
        exact ⟨r, List.mem_append_left _ hr⟩
    · rw [hacts.frame i hi] at hpc ⊢
      obtain ⟨r, hr⟩ := ih i u msg pc hpc
      exact ⟨r, List.mem_append_left _ hr⟩
  obtain ⟨pre, post, rfl⟩ := List.append_of_mem h
  obtain ⟨s₁, s₂, h₁, hs, -⟩ := hrun.splitAt
  obtain ⟨hacts, rfl⟩ : s₁.Acts i (.queue u (.push msg)) s₂ ∧ n = (s₂.thread i).serial := hs.acts
  obtain ⟨r, hr⟩ := hmade h₁ i u msg .push hacts.step.push_of
  have hserial : (s₂.thread i).serial = (s₁.thread i).serial := by
    rcases hacts.step.serial_cases (ok h₁ i) with ⟨m, ha, -⟩ | ⟨-, hserial⟩
    · cases ha
    · exact hserial
  rw [hserial]
  exact ⟨r, List.mem_append_left _ hr⟩

/-- No delivery shows a user its own name as the sender, just if no broadcast comes to a member that
gave the sender's name with another terminator. -/
theorem echo_free_iff (hrun : Run Server.Step {} es s) :
    (∀ i n u msg, ⟨i, n, .queue u (.push msg)⟩ ∈ es → ∃ r, ⟨i, n, .visit r u (some msg)⟩ ∈ es) ∧
    ((∀ i n r u msg, ⟨i, n, .visit r u (some msg)⟩ ∈ es →
        msg.shown 1 ≠ some (removeNewline (s.shared.user u).username)) ↔
      ∀ i n r u msg, ⟨i, n, .visit r u msg⟩ ∈ es → ∀ l l', LoginLine es i l → LoginLine es u l' →
        removeNewline (nameField l) = removeNewline (nameField l') →
        terminator (nameField l) = terminator (nameField l')) := by
  refine ⟨fun i n u msg => push_visited hrun, fun hfree i n r u msg hvisit l l' hl hl' hname => ?_,
    fun hlines i n r u msg hvisit hecho => ?_⟩
  · rw [username_of_line hrun hl, username_of_line hrun hl'] at hname ⊢
    obtain ⟨-, -, ⟨hsame, -⟩ | ⟨-, m, rfl, hshown⟩⟩ := visited hrun hvisit
    · rw [hsame]
    · rw [hname] at hshown
      exact absurd hshown (hfree i n r u m hvisit)
  · obtain ⟨⟨l, hl⟩, ⟨l', hl'⟩, ⟨-, hnone⟩ | ⟨hne, m, hmsg, hshown⟩⟩ := visited hrun hvisit
    · cases hnone
    · obtain rfl := Option.some.inj hmsg
      have hname := Option.some.inj (hshown.symm.trans hecho)
      have hend := hlines i n r u _ hvisit l l' hl hl'
      rw [username_of_line hrun hl, username_of_line hrun hl'] at hend
      exact hne (name_eq_iff.mpr ⟨hname, hend hname⟩).symm

/-- A receiver in a room that a sender, logged in under the same name, broadcasts to. -/
private def namesakes : List Sched :=
  .client 0 "rlogin:bob:x\njoin:lobby\n" :: Sched.steps 0 11 ++
    .client 1 "slogin:bob\njoin:lobby\nsendall:hi\n" :: Sched.steps 1 20

theorem echoed : ∃ es s, Run Server.Step {} es s ∧
    ⟨1, 2, .visit 0 0 (some (delivery (str "lobby") (str "bob") (str "hi")))⟩ ∈ es ∧
    ⟨1, 2, .queue 0 (.push (delivery (str "lobby") (str "bob") (str "hi")))⟩ ∈ es ∧
    (s.shared.user 0).username = str "bob" ∧
    (delivery (str "lobby") (str "bob") (str "hi")).shown 1 = some (str "bob") := by
  obtain ⟨⟨es, s⟩, h⟩ :=
    Option.isSome_iff_exists.mp (show (outcome namesakes).isSome = true by decide)
  have hvisit : (outcome namesakes).bind (fun p => p.1[28]?) =
      some ⟨1, 2, .visit 0 0 (some (delivery (str "lobby") (str "bob") (str "hi")))⟩ := rfl
  have hpush : (outcome namesakes).bind (fun p => p.1[30]?) =
      some ⟨1, 2, .queue 0 (.push (delivery (str "lobby") (str "bob") (str "hi")))⟩ := rfl
  have hname : (outcome namesakes).map (fun p => (p.2.shared.user 0).username) =
      some (str "bob") := by decide
  rw [h] at hvisit hpush hname
  exact ⟨es, s, run_of_outcome h, List.mem_of_getElem? hvisit, List.mem_of_getElem? hpush,
    Option.some.inj hname, by decide⟩

theorem echo_free_iff_namesakes : ∃ es s, Run Server.Step {} es s ∧
    (s.shared.user 0).username = str "bob" ∧
    ¬ ∀ i n r u msg, ⟨i, n, .visit r u msg⟩ ∈ es → ∀ l l', LoginLine es i l → LoginLine es u l' →
      removeNewline (nameField l) = removeNewline (nameField l') →
      terminator (nameField l) = terminator (nameField l') := by
  obtain ⟨⟨es, s⟩, h⟩ :=
    Option.isSome_iff_exists.mp (show (outcome namesakes).isSome = true by decide)
  have hvisit : (outcome namesakes).bind (fun p => p.1[28]?) =
      some ⟨1, 2, .visit 0 0 (some (delivery (str "lobby") (str "bob") (str "hi")))⟩ := rfl
  have hname : (outcome namesakes).map (fun p => (p.2.shared.user 0).username) =
      some (str "bob") := by decide
  rw [h] at hvisit hname
  have hname : (s.shared.user 0).username = str "bob" := Option.some.inj hname
  refine ⟨es, s, run_of_outcome h, hname, fun hlines => ?_⟩
  refine (echo_free_iff (run_of_outcome h)).2.mpr hlines 1 2 0 0 _ (List.mem_of_getElem? hvisit) ?_
  rw [hname]
  decide

end Server
end Chat
