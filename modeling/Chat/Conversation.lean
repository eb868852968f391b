import Chat.Noninterference
import Chat.Transcript

/-! What the session of a sender client broadcasts in a room: the lines that its user has typed there. -/
namespace Chat
open Transition Lines

namespace Sender

/-- What a server makes of a name or a text on a line. -/
def field (data : Bytes) : Bytes := (data ++ [newline]).takeWhile (· ≠ colon)

/-- What session `i` is to say in the room named `n` for the lines of `user`, who is in `room` and whose
next request has the number `k`. -/
def utters (i : Sid) (user n : Bytes) : Option Bytes → ℕ → List Bytes → List Broadcast
  | _, _, [] => []
  | room, k, l :: ls =>
    let later := utters i user n ((command l).room room) (k + 1) ls
    match command l with
    | .sendall text =>
      if room.map field = some n then ⟨i, k, field user, field text⟩ :: later else later
    | _ => later

variable {i : Sid} {user n : Bytes} {room : Option Bytes} {k : ℕ} {b : Broadcast}

theorem utters_append (ls ls' : List Bytes) : utters i user n room k (ls ++ ls') =
    utters i user n room k ls ++ utters i user n
      (ls.foldl (fun room l => (command l).room room) room) (k + ls.length) ls' := by
  induction ls generalizing room k with
  | nil => rfl
  | cons l ls ih =>
    have hnumber : k + 1 + ls.length = k + (l :: ls).length := by
      rw [List.length_cons]
      omega
    simp only [List.cons_append, utters, List.foldl_cons, ih, hnumber]
    cases command l with
    | sendall text =>
      dsimp only
      split <;> rfl
    | _ => rfl

/-- A broadcast has the name of the user and the number of its line. -/
theorem of_mem_utters {ls : List Bytes} (h : b ∈ utters i user n room k ls) :
    b.sender = field user ∧ k ≤ b.serial ∧ b.serial < k + ls.length := by
  induction ls generalizing room k with
  | nil => cases h
  | cons l ls ih =>
    rw [List.length_cons]
    have hlater (h : b ∈ utters i user n ((command l).room room) (k + 1) ls) :
        b.sender = field user ∧ k ≤ b.serial ∧ b.serial < k + (ls.length + 1) := by
      obtain ⟨hsender, hle, hlt⟩ := ih h
      exact ⟨hsender, by omega, by omega⟩
    rw [utters] at h
    cases hcmd : command l with
    | sendall text =>
      rw [hcmd] at h hlater
      dsimp only at h
      split at h
      · rcases List.mem_cons.mp h with rfl | h
        · exact ⟨rfl, le_rfl, by simp⟩
        · exact hlater h
      · exact hlater h
    | _ =>
      rw [hcmd] at h hlater
      exact hlater h

end Sender

/-- A broadcast in room `r`, as what is seen of session `i` under the number `v.1`. -/
def castIn (i : Sid) (r : RoomId) (v : ℕ × Visible) : Option Broadcast :=
  match v.2 with
  | .cast q sender text => if q = some r then some ⟨i, v.1, sender, text⟩ else none
  | _ => none

private theorem serial_of_castIn {i : Sid} {r : RoomId} {v : ℕ × Visible} {b : Broadcast}
    (h : castIn i r v = some b) : b.serial = v.1 := by
  obtain ⟨k, v⟩ := v
  cases v with
  | cast q sender text =>
    by_cases hq : q = some r
    · obtain rfl : (⟨i, k, sender, text⟩ : Broadcast) = b := by simpa [castIn, hq] using h
      rfl
    · simp [castIn, hq] at h
  | _ => cases h

theorem casts_eq (i : Sid) (r : RoomId) (es : List Event) :
    (visible i es).filterMap (castIn i r) = (broadcasts r es).filter (·.session = i) := by
  induction es with
  | nil => rfl
  | cons e es ih =>
    rw [← List.singleton_append, visible_append, List.filterMap_append, ih, broadcasts, broadcasts,
      List.filterMap_append, List.filter_append]
    congr 1
    obtain ⟨j, k, a⟩ := e
    by_cases hj : j = i
    · subst hj
      rw [visible_own]
      cases a with
      | broadcast q sender text => by_cases hq : q = r <;> simp [Action.shown, castIn, hq]
      | _ => rfl
    · rw [visible_other hj]
      cases a with
      | broadcast q sender text => by_cases hq : q = r <;> simp [hq, hj]
      | _ => rfl

namespace Phase

variable {i : Sid} {user n : Bytes} {r : RoomId} {rooms : Bytes → Option RoomId}

/-- What the machine casts in a room for one command. -/
private theorem casts_answer (hrooms : ∀ m, rooms m = some r ↔ m = n) (l : Bytes) (room : Option Bytes)
    (k : ℕ) :
    (((Phase.of room).answer rooms (Sender.field user) (some (Sender.command l).message.received)).2.map
      (Prod.mk k)).filterMap (castIn i r) = Sender.utters i user n room k [l] := by
  rw [Sender.utters]
  cases Sender.command l with
  | join roomName => rfl
  | leave => cases room <;> rfl
  | quit => cases room <;> rfl
  | sendall text =>
    cases room with
    | none => rfl
    | some room =>
      have hanswer : ((Phase.of (some room)).answer rooms (Sender.field user)
          (some (Command.sendall text).message.received)).2 =
          [.cast (rooms (Sender.field room)) (Sender.field user) (Sender.field text), .said sendallOk] := rfl
      rw [hanswer]
      by_cases hname : Sender.field room = n
      · simp [castIn, Sender.utters, hname, (hrooms n).mpr rfl]
      · have hno := mt (hrooms _).mp hname
        simp [castIn, Sender.utters, hno, hname]

theorem utters_of_execute (hrooms : ∀ m, rooms m = some r ↔ m = n) {typed : List Bytes}
    (hquit : ∀ l ∈ typed, Sender.command l ≠ .quit) {room : Option Bytes} {k k' : ℕ} {p : Phase}
    {exs : List (List (ℕ × Visible))}
    (h : execute (next rooms (Sender.field user)) (Phase.of room, k)
      (typed.map fun l => some (Sender.command l).message.received) = some (exs, p, k')) :
    exs.flatten.filterMap (castIn i r) = Sender.utters i user n room (k + 1) typed := by
  induction typed generalizing room k exs with
  | nil =>
    obtain ⟨rfl, -⟩ : [] = exs ∧ (Phase.of room, k) = (p, k') := by simpa [execute] using h
    rfl
  | cons l ls ih =>
    obtain ⟨hl, hls⟩ := List.forall_mem_cons.mp hquit
    have hopen : Phase.of room ≠ .ended := by cases room <;> exact Phase.noConfusion
    have hphase := @answer_command rooms (Sender.field user) (Sender.command l) hl room
    rw [List.map_cons, execute, next_of_ne_ended hopen, hphase] at h
    cases hrest : execute (next rooms (Sender.field user))
        (Phase.of ((Sender.command l).room room), k + 1)
        (ls.map fun l => some (Sender.command l).message.received) with
    | none => simp [hrest] at h
    | some q =>
      obtain ⟨exs', q⟩ := q
      obtain ⟨rfl, rfl⟩ : _ = exs ∧ q = (p, k') := by simpa [hrest] using h
      rw [List.flatten_cons, List.filterMap_append, List.filterMap_cons_none rfl, casts_answer hrooms,
        ih hls hrest]
      exact (Sender.utters_append [l] ls).symm

end Phase

/-- Session `i` serves a sender client of `user` that has read and sent the lines `typed` and goes on, and
has heard no more than that. -/
structure Relays (es : List Event) (i : Sid) (user : Bytes) (typed : List Bytes) : Prop where
  main : ∃ conn buffer more c n remote, conn.wire.Healthy ∧ conn.wire.written = [] ∧
    Sender.main conn user (typed ++ more) buffer typed.length = .ok c ∧ c.exit = none ∧
    ⟨i, n, .accept remote⟩ ∈ es ∧ Carries c.conn.wire remote.mFdbuf
  fits : ∀ msg ∈ Sender.requests user typed, msg.Fits
  heard : (heard i es).length ≤ typed.length

private theorem prefix_of_append {α : Type} {P : α → Prop} {l l₁ l₂ l₃ : List α} (h : l ++ l₁ = l₂ ++ l₃)
    (h₁ : ∀ a ∈ l₁, P a) (h₂ : ∀ a ∈ l₂, ¬ P a) : l₂ <+: l := by
  rcases List.append_eq_append_iff.mp h with ⟨c, rfl, rfl⟩ | ⟨c, rfl, -⟩
  · have hnil : c = [] := List.eq_nil_iff_forall_not_mem.mpr fun a ha =>
      h₂ a (List.mem_append_right _ ha) (h₁ a (List.mem_append_left _ ha))
    rw [hnil, List.append_nil]
  · exact List.prefix_append _ _

namespace Server

variable {es es' : List Event} {s : Server} {i : Sid} {r : RoomId} {user n : Bytes} {typed : List Bytes}

private theorem broadcasts_utters (hrun : Run Server.Step {} es s) (h : Relays es i user typed)
    (hn : s.shared.mRooms n = some r) : ∃ bs : List Broadcast,
      (broadcasts r es).filter (·.session = i) ++ bs =
        Sender.utters i user n none 1 (typed.take (heard i es).length) ∧
      (∀ b ∈ bs, b.serial = (heard i es).length) ∧ ((s.thread i).pc.even = true → bs = []) := by
  obtain ⟨conn, buffer, more, c, m, remote, hwire, hempty, hmain, hlive, haccept, hcarries⟩ := h.main
  obtain ⟨hsent, hquit⟩ := Sender.main_ok hmain hlive (by simp)
  rw [List.take_left] at hsent hquit
  have hlines := hcarries.written
  rw [hsent, written_sendAll hwire h.fits, hempty, List.nil_append] at hlines
  have hreads := reads hrun haccept hcarries.intact
  rw [← casts_eq]
  by_cases hentered : (s.thread i).Entered i es
  · obtain ⟨hrole, hname⟩ := entered_as hrun hreads hlines h.fits
      (show (Sender.requests user typed)[0]? = some ⟨tagSlogin, user⟩ from rfl)
      (by decide : tagSlogin ≠ tagDelivery) hentered
    obtain ⟨login, -, hnew, -⟩ := hentered
    obtain ⟨p, exs, vs, hexec, hvisible, hexpects⟩ :=
      (simulates hrun i).2 _ _ hnew hrole s.shared.mRooms fun _ _ h => h
    have hrooms : ∀ m, s.shared.mRooms m = some r ↔ m = n := fun m =>
      ⟨fun hm => (registered hrun).registry.injective _ _ r hm hn, fun hm => hm ▸ hn⟩
    have htake : Sender.requests user (typed.take (heard i es).length) <+: Sender.requests user typed :=
      (List.prefix_cons_inj _).mpr ((List.take_prefix _ typed).map _)
    have hheard : heard i es = (typed.take (heard i es).length).map fun l =>
        some (Sender.command l).message.received :=
      @heard_typed _ _ _ _ _ es [] (by rwa [List.append_nil]) ((lines_segment htake).trans hlines)
        (fun msg hmsg => h.fits msg (htake.subset hmsg)) (by simpa using h.heard)
    have hcasts := congrArg (List.filterMap (castIn i r)) hvisible
    have husername : (s.shared.user i).username = Sender.field user := hname
    have hserial : (s.thread i).serial = (heard i es).length := hreads.serial.symm
    rw [hheard, husername, hserial] at hexec
    have hutters := @Phase.utters_of_execute i user n r _ hrooms _
      (fun l hl => hquit l (List.mem_of_mem_take hl)) none 0 _ p exs hexec
    rw [List.filterMap_append, hutters] at hcasts
    refine ⟨_, hcasts, fun b hb => ?_, fun heven => by rw [hexpects.even heven]; rfl⟩
    obtain ⟨v, hv, hb⟩ := List.mem_filterMap.mp hb
    obtain ⟨w, -, rfl⟩ := List.mem_map.mp hv
    rw [← hserial, serial_of_castIn hb]
  · obtain ⟨hvisible, hheard⟩ := quiet hrun hreads hentered
    exact ⟨[], by simp [hvisible, hheard, Sender.utters], nofun, fun _ => rfl⟩

/-- Whatever the other clients do, a sender client's session broadcasts in a room just the lines that its
user has typed there, in order and each once: those before the last one heard, and that one at the latest
when it has been answered. -/
theorem broadcasts_typed (hrun : Run Server.Step {} es s) (h : Relays es i user typed)
    (hn : s.shared.mRooms n = some r) :
    Sender.utters i user n none 1 (typed.take ((heard i es).length - 1)) <+:
        (broadcasts r es).filter (·.session = i) ∧
      (broadcasts r es).filter (·.session = i) <+:
        Sender.utters i user n none 1 (typed.take (heard i es).length) ∧
      ((s.thread i).pc.even = true → (broadcasts r es).filter (·.session = i) =
        Sender.utters i user n none 1 (typed.take (heard i es).length)) := by
  obtain ⟨bs, heq, hserial, heven⟩ := broadcasts_utters hrun h hn
  refine ⟨?_, ⟨bs, heq⟩, fun hpc => by rw [← heq, heven hpc, List.append_nil]⟩
  cases hlen : (heard i es).length with
  | zero => exact List.nil_prefix
  | succ k =>
    rw [hlen] at heq hserial
    obtain ⟨ls, hls⟩ : typed.take k <+: typed.take (k + 1) := List.take_prefix_take_left k.le_succ
    rw [← hls, Sender.utters_append] at heq
    refine prefix_of_append heq hserial fun b hb hk => ?_
    have hlt := (Sender.of_mem_utters hb).2.2
    have hlength := List.length_take_le k typed
    rw [Nat.add_sub_cancel] at hlt
    omega

/-- Of what one session has said a member gets all or nothing. -/
private theorem byOthers_same {name sender : Bytes} {bs : List Broadcast} (h : ∀ b ∈ bs, b.sender = sender) :
    byOthers name bs <:+: bs := by
  by_cases hsame : sender = name
  · have hnone : byOthers name bs = [] := List.filter_eq_nil_iff.mpr fun b hb => by simp [h b hb, hsame]
    rw [hnone]
    exact List.nil_infix
  · have hall : byOthers name bs = bs := List.filter_eq_self.mpr fun b hb => by simp [h b hb, hsame]
    rw [hall]

/-- What a session has said is a part of what its client's user has typed. -/
private theorem filter_utters (hrun : Run Server.Step {} (es ++ es') s) (h : Relays (es ++ es') i user typed)
    (hn : s.shared.mRooms n = some r) (name : Bytes) (k : ℕ) :
    ((byOthers name (broadcasts r es')).take k).filter (·.session = i) <:+:
      Sender.utters i user n none 1 typed := by
  obtain ⟨bs, heq, -⟩ := broadcasts_utters hrun h hn
  rw [broadcasts_append, List.filter_append] at heq
  have hheard : Sender.utters i user n none 1 (typed.take (heard i (es ++ es')).length) <+:
      Sender.utters i user n none 1 typed := by
    conv_rhs => rw [← List.take_append_drop (heard i (es ++ es')).length typed, Sender.utters_append]
    exact List.prefix_append _ _
  have hown : (broadcasts r es').filter (·.session = i) <:+: Sender.utters i user n none 1 typed :=
    List.IsInfix.trans ⟨_, bs, heq⟩ hheard.isInfix
  have hsender : ∀ b ∈ (broadcasts r es').filter (·.session = i), b.sender = Sender.field user :=
    fun b hb => (Sender.of_mem_utters (hown.subset hb)).1
  calc ((byOthers name (broadcasts r es')).take k).filter (·.session = i)
      <:+: (byOthers name (broadcasts r es')).filter (·.session = i) :=
        ((List.take_prefix _ _).filter _).isInfix
    _ = byOthers name ((broadcasts r es').filter (·.session = i)) := List.filter_comm _ _ _
    _ <:+: (broadcasts r es').filter (·.session = i) := byOthers_same hsender
    _ <:+: Sender.utters i user n none 1 typed := hown

/-- Whatever is sent and however the sessions interleave, after one iteration for each of the first `k`
deliveries a receiver client has printed what others have said in its room since it joined, in order, each
once, if these are within the limit; and what it has printed of the session of a sender client are lines
that its user has typed in the room one after the other. -/
theorem conversation {pre post : List Event} {u : Sid} {name room : Bytes} {conn : Connection}
    {buffer : ℕ → Bytes} (hrun : Run Server.Step {} (pre ++ ⟨u, 1, .insert r⟩ :: post) s)
    (hattends : Attends (pre ++ ⟨u, 1, .insert r⟩ :: post) s u name room conn buffer)
    (hrequests : ∀ msg ∈ Receiver.requests name room, msg.Fits) {k : ℕ}
    (hk : k ≤ (deliveries u (pre ++ ⟨u, 1, .insert r⟩ :: post)).length)
    (hlimit : ∀ b ∈ (byOthers (Sender.field name) (broadcasts r post)).take k,
      (Connection.encode (delivery (Sender.field room) b.sender b.text)).length ≤ 254) :
    ∃ c bs, Receiver.main conn name room buffer k = .ok c ∧ c.exit = none ∧
      c.stdout = bs.flatMap Broadcast.shown ∧
      bs = (byOthers (Sender.field name) (broadcasts r post)).take k ∧
      ∀ i user typed, Relays (pre ++ ⟨u, 1, .insert r⟩ :: post) i user typed →
        bs.filter (·.session = i) <:+: Sender.utters i user (Sender.field room) none 1 typed := by
  obtain ⟨-, hname, hroom⟩ := receiver_joined hrun hattends hrequests
  obtain ⟨c, hmain, hlive, hstdout⟩ := printed hrun hattends hrequests hk (by rwa [hname])
  refine ⟨c, _, hmain, hlive, hstdout, rfl, fun i user typed h => ?_⟩
  rw [List.append_cons] at hrun h
  exact filter_utters hrun h hroom _ k

/-- Bob joins. Alice types two lines in the room, of which the second has a colon. -/
private def pair : List Sched :=
  .client 0 "rlogin:bob\njoin:lobby\n" :: Sched.steps 0 11 ++
    .client 1 "slogin:alice\njoin:lobby\nsendall:hi\nsendall:x:y\n" :: Sched.steps 1 35 ++
    Sched.steps 0 10

private def typist : Connection := .ofFd 3 [.data ⟨str "ok:Sender logged in\nok:Join successful\n" ++
  str "ok:Sendall successful\nok:Sendall successful\n", by decide⟩] []

private def reader : Connection := .ofFd 3 [.data ⟨str "ok:Receiver logged in\nok:Join successful\n" ++
  str "delivery:lobby:alice:hi\ndelivery:lobby:alice:x\n", by decide⟩] []

/-- What Alice types. -/
private def chat : List Bytes := [str "/join lobby", str "hi", str "x:y"]

set_option maxRecDepth 8000 in
private theorem relays_pair {es : List Event} {s : Server} (h : outcome pair = some (es, s)) :
    Relays es 1 (str "alice") chat := by
  have at12 : (outcome pair).bind (fun p => p.1[12]?) = some ⟨1, 0, .accept (.ofFd 4
      [.data ⟨str "slogin:alice\njoin:lobby\nsendall:hi\nsendall:x:y\n", by decide⟩] [])⟩ := rfl
  have hheard : (outcome pair).map (fun p => (heard 1 p.1).length) = some 3 := by decide +kernel
  rw [h] at at12 hheard
  have hthree : (heard 1 es).length = 3 := Option.some.inj hheard
  refine ⟨⟨typist, fun _ => [], [], _, 0, _, by simp [typist, Wire.Healthy, Connection.ofFd], rfl, rfl, rfl,
    List.mem_of_getElem? at12, List.prefix_iff_eq_take.mpr (by decide +kernel), rfl⟩, by decide, ?_⟩
  rw [hthree]
  rfl

set_option maxRecDepth 8000 in
theorem broadcasts_typed_pair : ∃ es s, Run Server.Step {} es s ∧
    (broadcasts 0 es).filter (·.session = 1) =
      [⟨1, 2, str "alice\n", str "hi\n"⟩, ⟨1, 3, str "alice\n", str "x"⟩] := by
  obtain ⟨⟨es, s⟩, h⟩ := Option.isSome_iff_exists.mp (show (outcome pair).isSome = true by decide +kernel)
  have hroom : (outcome pair).bind (fun p => p.2.shared.mRooms (str "lobby\n")) = some 0 := by decide +kernel
  have hheard : (outcome pair).map (fun p => (heard 1 p.1).length) = some 3 := by decide +kernel
  have heven : (outcome pair).map (fun p => (p.2.thread 1).pc.even) = some true := by decide +kernel
  have hrelays := relays_pair h
  rw [h] at hroom hheard heven
  have hthree : (heard 1 es).length = 3 := Option.some.inj hheard
  have hrun := run_of_outcome h
  obtain ⟨-, -, htyped⟩ := broadcasts_typed hrun hrelays hroom
  refine ⟨es, s, hrun, ?_⟩
  rw [htyped (Option.some.inj heven), hthree]
  decide

set_option maxRecDepth 8000 in
theorem conversation_pair : ∃ es s c, Run Server.Step {} es s ∧ (deliveries 0 es).length = 2 ∧
    Receiver.main reader (str "bob") (str "lobby") (fun _ => []) 2 = .ok c ∧
    c.stdout = str "alice: hi\nalice: x\n" ∧
    [⟨1, 2, str "alice\n", str "hi\n"⟩, ⟨1, 3, str "alice\n", str "x"⟩] <:+:
      Sender.utters 1 (str "alice") (str "lobby\n") none 1 chat := by
  obtain ⟨⟨es, s⟩, h⟩ := Option.isSome_iff_exists.mp (show (outcome pair).isSome = true by decide +kernel)
  have at0 : (outcome pair).bind (fun p => p.1[0]?) = some ⟨0, 0, .accept (.ofFd 4
      [.data ⟨str "rlogin:bob\njoin:lobby\n", by decide⟩] [])⟩ := rfl
  have at9 : (outcome pair).bind (fun p => p.1[9]?) = some ⟨0, 1, .insert 0⟩ := rfl
  have hcount : (outcome pair).map (fun p => (deliveries 0 p.1).length) = some 2 := by decide +kernel
  have hsaid : (outcome pair).map (fun p => broadcasts 0 (p.1.drop 10)) =
      some [⟨1, 2, str "alice\n", str "hi\n"⟩, ⟨1, 3, str "alice\n", str "x"⟩] := by decide +kernel
  have hwire : (outcome pair).map (fun p => (p.2.thread 0).conn.wire.written) =
      some (str "ok:Receiver logged in\nok:Join successful\n" ++
        str "delivery:lobby:alice:hi\ndelivery:lobby:alice:x\n") := by decide +kernel
  have hrelays := relays_pair h
  rw [h] at at0 at9 hcount hsaid hwire
  have hrun := run_of_outcome h
  have hbytes : (s.thread 0).conn.wire.written = _ := Option.some.inj hwire
  have hsaid : broadcasts 0 (es.drop 10) = _ := Option.some.inj hsaid
  have htwo : (deliveries 0 es).length = 2 := Option.some.inj hcount
  have hattends : Attends es s 0 (str "bob") (str "lobby") reader (fun _ => []) := by
    refine ⟨⟨_, 0, _, rfl, rfl, List.mem_of_getElem? at0, by simp [Wire.Healthy, Connection.ofFd],
      ?_, rfl⟩, by simp [reader, Wire.Healthy, Connection.ofFd], rfl, ?_, rfl⟩
    · exact List.prefix_iff_eq_take.mpr (by decide +kernel)
    · rw [hbytes]
      exact List.prefix_iff_eq_take.mpr (by decide +kernel)
  have hcut := Run.cut (show es[9]? = some ⟨0, 1, .insert 0⟩ from at9)
  rw [hcut] at hrun hattends htwo hrelays
  obtain ⟨c, bs, hmain, -, hstdout, hbs, htyped⟩ := conversation hrun hattends (by decide) htwo.ge (by
    rw [hsaid]
    decide)
  have hpart := htyped 1 _ _ hrelays
  rw [hsaid] at hbs
  rw [hbs] at hstdout hpart
  rw [← hcut] at hrun htwo
  exact ⟨es, s, c, hrun, htwo, hmain, hstdout, hpart⟩

end Server
end Chat
