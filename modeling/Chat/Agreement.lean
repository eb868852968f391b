import Chat.Refinement
import Chat.RealTime

/-! What the atomic machine says of the server: one order of all broadcasts, in which everyone gets its
messages, and what a user gets while it stays in a room or out of all rooms. -/
namespace Chat
open Transition PubSub

/-- The broadcasts of a run, of all rooms, by session and number of the message. -/
def said (es : List Event) : List (Sid × ℕ) :=
  es.filterMap fun e => match e.action with
    | .broadcast _ _ _ => some (e.session, e.serial)
    | _ => none

/-- The broadcasts that user `u` was enqueued a message for, in the order of its queue. -/
def got (u : Sid) (es : List Event) : List (Sid × ℕ) := (posts u es).map fun p => (p.session, p.serial)

theorem said_append (es es' : List Event) : said (es ++ es') = said es ++ said es' := List.filterMap_append

theorem said_eq_published (es : List Event) :
    said es = (published (es.filterMap Event.label)).map fun p => (p.2.session, p.2.serial) := by
  unfold said published
  rw [List.filterMap_filterMap, List.map_filterMap]
  congr 1
  funext e
  obtain ⟨i, k, a⟩ := e
  cases a <;> rfl

theorem mem_said {es : List Event} {i : Sid} {n : ℕ} (h : (i, n) ∈ said es) :
    ∃ r sender text, ⟨i, n, .broadcast r sender text⟩ ∈ es := by
  obtain ⟨⟨j, k, a⟩, he, ha⟩ := List.mem_filterMap.mp h
  cases a with
  | broadcast r sender text =>
    obtain ⟨rfl, rfl⟩ : j = i ∧ k = n := by simpa using ha
    exact ⟨r, sender, text, he⟩
  | _ => cases ha

theorem keys_of_renders {σ : Shared} {ps : List Said} {qs : List Post}
    (h : List.Forall₂ (Renders σ) ps qs) :
    qs.map (fun q => (q.session, q.serial)) = ps.map fun p => (p.2.session, p.2.serial) := by
  induction h with
  | nil => rfl
  | cons hq _ ih =>
    obtain ⟨n, -, rfl⟩ := hq
    rw [List.map_cons, List.map_cons, ih]

theorem publishedOn_label (r : RoomId) (es : List Event) :
    publishedOn r (es.filterMap Event.label) = (broadcasts r es).map (Prod.mk r) := by
  unfold publishedOn broadcasts
  rw [List.filterMap_filterMap, List.map_filterMap]
  congr 1
  funext e
  obtain ⟨i, k, a⟩ := e
  cases a with
  | broadcast q sender text =>
    by_cases hq : q = r
    · subst hq
      simp [Event.label]
    · simp [Event.label, hq]
  | _ => rfl

/-- What a member of a room wants of the broadcasts there is what is expected of them. -/
theorem renders_expected {σ : Shared} {r : RoomId} {n : Bytes} (hn : σ.mRooms n = some r)
    (username : Bytes) (bs : List Broadcast) :
    List.Forall₂ (Renders σ) ((bs.map (Prod.mk r)).filter (wants username)) (expected n username bs) := by
  have hfilter : (bs.map (Prod.mk r)).filter (wants username) =
      (bs.filter (·.sender ≠ username)).map (Prod.mk r) := by
    rw [List.filter_map]
    rfl
  rw [hfilter, expected, List.forall₂_map_left_iff, List.forall₂_map_right_iff, List.forall₂_same]
  exact fun b _ => ⟨n, hn, rfl⟩

namespace Server

variable {es es' : List Event} {s s' : Server} {c c' : System Sid RoomId Bytes Said} {u : Sid}
  {r : RoomId} {n : Bytes}

/-- The log of a user is what was enqueued for it and what is still to be. -/
theorem Refines.log (h : Refines es s c) (hrun : Run Server.Step {} es s) (u : Sid) :
    ∃ due, List.Forall₂ (Renders s.shared) (c.log u) (posts u es ++ due) := by
  cases hc : c.topic u with
  | none => exact ⟨[], by simpa using h.outside u hc⟩
  | some r =>
    have hu := (h.topic u r).mp hc
    obtain ⟨n, hn⟩ := ((registered hrun).pointers u).room r ((membership hrun u).pointer r hu)
    exact ⟨_, h.inside u r n hu hn⟩

private theorem got_sublist (hrun : Run Server.Step {} es s) (u : Sid) : (got u es).Sublist (said es) := by
  obtain ⟨c, hspec, hrefines⟩ := refinement hrun
  obtain ⟨due, hlog⟩ := hrefines.log hrun u
  have hkeys := keys_of_renders hlog
  rw [List.map_append] at hkeys
  have hgot : (got u es).Sublist ((c.log u).map fun p => (p.2.session, p.2.serial)) := by
    rw [← hkeys]
    exact List.sublist_append_left _ _
  rw [said_eq_published]
  exact hgot.trans ((log_sublist hspec u).map _)

/-- A session broadcasts its messages in the order in which it received them, each at most once. -/
private theorem said_pairwise (hrun : Run Server.Step {} es s) :
    (said es).Pairwise fun p q => p.1 = q.1 → p.2 < q.2 := by
  refine hrun.invariant (fun es _ => (said es).Pairwise fun p q => p.1 = q.1 → p.2 < q.2)
    List.Pairwise.nil ?_
  intro es s e s' hrun ih hs
  rw [said_append]
  obtain ⟨i, k, a⟩ := e
  cases a with
  | broadcast r sender text =>
    refine List.pairwise_append.mpr ⟨ih, List.pairwise_singleton _ _, ?_⟩
    rintro ⟨j, n⟩ hp q hq hj
    obtain rfl : (i, k) = q := by simpa [said, eq_comm] using hq
    obtain rfl : j = i := hj
    obtain ⟨r', sender', text', hmem⟩ := mem_said hp
    have hle : n ≤ (s.thread j).serial := serial_le hrun _ hmem
    obtain ⟨hacts, hk⟩ : s.Acts j (.broadcast r sender text) s' ∧ k = (s'.thread j).serial := hs.acts
    rw [hacts.step.broadcast_of.2.2.2.2] at hk
    refine lt_of_le_of_ne (hk ▸ hle) fun hn => ?_
    have hn : n = k := hn
    subst hn
    obtain ⟨pre, post, rfl⟩ := List.append_of_mem hmem
    have honce := @broadcast_once pre (post ++ [⟨j, n, .broadcast r sender text⟩]) s' j n r' sender' text'
      (by simpa using hrun.snoc hs)
    exact honce ⟨j, n, .broadcast r sender text⟩ (by simp) rfl rfl ⟨r, sender, text, rfl⟩
  | _ => simpa [said] using ih

/-- There is one order of all broadcasts, of all rooms, that is the order of each sender's messages and
the order in which every user's queue gets what it gets. What two users both get, they get in the same
order. -/
theorem total_order (hrun : Run Server.Step {} es s) :
    ((said es).Pairwise fun p q => p.1 = q.1 → p.2 < q.2) ∧
      (∀ u, (got u es).Sublist (said es)) ∧
      ∀ u v, (got u es).filter (· ∈ got v es) = (got v es).filter (· ∈ got u es) := by
  have hpairwise := said_pairwise hrun
  have hnodup : (said es).Nodup := hpairwise.imp fun hlt heq => by
    subst heq
    exact lt_irrefl _ (hlt rfl)
  exact ⟨hpairwise, got_sublist hrun,
    fun u v => filter_mem_comm hnodup (got_sublist hrun u) (got_sublist hrun v)⟩

private def trio : List Sched :=
  .client 0 "rlogin:bob\njoin:lobby\n" :: Sched.steps 0 11 ++
    .client 1 "rlogin:carol\njoin:lobby\n" :: Sched.steps 1 11 ++
    .client 2 "slogin:alice\njoin:lobby\nsendall:hi\n" :: Sched.steps 2 28

theorem total_order_trio : ∃ es s, Run Server.Step {} es s ∧
    got 0 es = [(2, 2)] ∧ got 1 es = [(2, 2)] ∧
    (got 0 es).filter (· ∈ got 1 es) = (got 1 es).filter (· ∈ got 0 es) := by
  obtain ⟨⟨es, s⟩, h⟩ :=
    Option.isSome_iff_exists.mp (show (outcome trio).isSome = true by decide +kernel)
  have hgot : (outcome trio).map (fun p => (got 0 p.1, got 1 p.1)) = some ([(2, 2)], [(2, 2)]) := by
    decide +kernel
  rw [h] at hgot
  obtain ⟨hbob, hcarol⟩ := Prod.mk.inj (Option.some.inj hgot)
  have hrun := run_of_outcome h
  exact ⟨es, s, hrun, hbob, hcarol, (total_order hrun).2.2 0 1⟩

/-- The messages for the broadcasts of a machine's log that its subscriber has taken. -/
private theorem taken_renders (hrun : Run Server.Step {} es s) (h : Refines es s c) (u : Sid) :
    List.Forall₂ (fun p m => ∃ q, Renders s.shared p q ∧ q.msg = m) ((c.log u).take (c.seen u))
      ((deliveries u es).map Prod.fst) := by
  obtain ⟨due, hlog⟩ := h.log hrun u
  have hseg := deliveries_of_posts hrun u
  have htaken : (deliveries u es).map Prod.fst =
      (((posts u es ++ due).take (c.seen u)).map (·.msg)) := by
    have hle : c.seen u ≤ (posts u es).length := by
      have hlength := hseg.length_le
      rw [List.length_map, List.length_map] at hlength
      rwa [h.seen u]
    rw [List.take_append_of_le_length hle, List.map_take, h.seen u]
    simpa using List.prefix_iff_eq_take.mp hseg
  rw [htaken, List.forall₂_map_right_iff]
  exact (List.forall₂_take _ hlog).imp fun _ q hq => ⟨q, hq, rfl⟩

private def audience : List Sched :=
  .client 0 "rlogin:bob\njoin:lobby\n" :: Sched.steps 0 11 ++
    .client 1 "slogin:alice\njoin:lobby\nsendall:hi\n" :: Sched.steps 1 23 ++ Sched.steps 0 5

private theorem renders_unique (hrun : Run Server.Step {} es s) :
    Relator.RightUnique (Renders s.shared) := by
  rintro p q q' ⟨n, hn, rfl⟩ ⟨m, hm, rfl⟩
  obtain rfl := (registered hrun).registry.injective n m _ hn hm
  rfl

private theorem got_inside (hrun : Run Server.Step {} es s) (hpost : Run Server.Step s es' s')
    (hu : u ∈ (s.shared.room r).members) (hn : s.shared.mRooms n = some r)
    (hstay : ∀ k q, ⟨u, k, .erase q⟩ ∉ es') :
    u ∈ (s'.shared.room r).members ∧ posts u es' ++ s'.pending r n u =
      s.pending r n u ++ expected n (s.shared.user u).username (broadcasts r es') := by
  obtain ⟨c, -, h⟩ := refinement hrun
  obtain ⟨c', hspec, h'⟩ := h.run hrun hpost
  have hlabels : .unsubscribe u ∉ es'.filterMap Event.label := fun hmem => by
    obtain ⟨⟨i, k, a⟩, he, ha⟩ := List.mem_filterMap.mp hmem
    cases a with
    | erase q =>
      obtain rfl : i = u := by simpa [Event.label] using ha
      exact hstay k q he
    | _ => cases ha
  obtain ⟨htopic, -, hlog⟩ := log_of_subscribed hspec ((h.topic u r).mpr hu) hlabels
  have hu' := (h'.topic u r).mp htopic
  have hn' := mRooms_run hpost hn
  refine ⟨hu', ?_⟩
  have hafter := h'.inside u r n hu' hn'
  have hbefore := renders_mono hpost (h.inside u r n hu hn)
  rw [hlog, publishedOn_label, h.name] at hafter
  have hboth : List.Forall₂ _ (_ ++ _) (_ ++ _) := List.rel_append hbefore
    (renders_expected hn' (s.shared.user u).username (broadcasts r es'))
  have heq := List.right_unique_forall₂' (renders_unique (hrun.trans hpost)) hafter hboth
  rw [posts_append, List.append_assoc, List.append_assoc] at heq
  exact List.append_cancel_left heq

private theorem got_outside (hrun : Run Server.Step {} es s) (hpost : Run Server.Step s es' s')
    (hu : ∀ r, u ∉ (s.shared.room r).members) (hout : ∀ k q, ⟨u, k, .insert q⟩ ∉ es') :
    posts u es' = [] := by
  obtain ⟨c, -, h⟩ := refinement hrun
  obtain ⟨c', hspec, h'⟩ := h.run hrun hpost
  have hlabels : ∀ q, .subscribe u q ∉ es'.filterMap Event.label := fun q hmem => by
    obtain ⟨⟨i, k, a⟩, he, ha⟩ := List.mem_filterMap.mp hmem
    cases a with
    | insert q =>
      obtain rfl : i = u := by
        simp only [Event.label, Option.some.injEq, Label.subscribe.injEq] at ha
        exact ha.1
      exact hout k q he
    | _ => cases ha
  obtain ⟨htopic, hlog⟩ := log_of_unsubscribed hspec (h.topic_none hu) hlabels
  have hlength := (h'.outside u htopic).length_eq
  rw [hlog, (h.outside u (h.topic_none hu)).length_eq, posts_append, List.length_append] at hlength
  exact List.length_eq_zero_iff.mp (by omega)

/-- Over any stretch of a run: a user that stays in a room, a sender's or a receiver's, is enqueued
exactly what users of other names broadcast there, up to the broadcasts in progress at the two ends; and
a user that stays out of all rooms is enqueued nothing. -/
theorem got_while_inside_or_outside (hrun : Run Server.Step {} es s) (hpost : Run Server.Step s es' s') :
    (∀ u r n, u ∈ (s.shared.room r).members → s.shared.mRooms n = some r →
      (∀ k q, ⟨u, k, .erase q⟩ ∉ es') →
      u ∈ (s'.shared.room r).members ∧ posts u es' ++ s'.pending r n u =
        s.pending r n u ++ expected n (s.shared.user u).username (broadcasts r es')) ∧
    ∀ u, (∀ r, u ∉ (s.shared.room r).members) → (∀ k q, ⟨u, k, .insert q⟩ ∉ es') → posts u es' = [] :=
  ⟨fun _ _ _ hu hn hstay => got_inside hrun hpost hu hn hstay,
    fun _ hu hout => got_outside hrun hpost hu hout⟩

private def stays (e : Event) : Bool :=
  match e.action with
  | .erase _ => false
  | _ => true

theorem got_while_inside_listener : ∃ es s es' s' n, Run Server.Step {} es s ∧ Run Server.Step s es' s' ∧
    0 ∈ (s'.shared.room 0).members ∧ posts 0 es' ++ s'.pending 0 n 0 =
      s.pending 0 n 0 ++ expected n (s.shared.user 0).username (broadcasts 0 es') ∧
    posts 0 es' = [⟨1, 2, ⟨tagDelivery, str "lobby:alice:hi"⟩⟩] := by
  obtain ⟨⟨es, s⟩, h⟩ := Option.isSome_iff_exists.mp (show (outcome audience).isSome = true by decide)
  have hjoin : (outcome audience).bind (fun p => p.1[9]?) = some ⟨0, 1, .insert 0⟩ := rfl
  have hrole : (outcome audience).map (fun p => (p.2.thread 0).role) = some .receiver := by decide
  have hstay : (outcome audience).map (fun p => (p.1.drop 10).all stays) = some true := by decide
  have hposts : (outcome audience).map (fun p => posts 0 (p.1.drop 10)) =
      some [⟨1, 2, ⟨tagDelivery, str "lobby:alice:hi"⟩⟩] := by decide
  rw [h] at hjoin hrole hstay hposts
  have hrun := run_of_outcome h
  rw [Run.cut (show es[9]? = some ⟨0, 1, .insert 0⟩ from hjoin)] at hrun
  obtain ⟨n, m, hm, hpost, hjoined, -⟩ := join_split hrun (Option.some.inj hrole)
  obtain ⟨hmember, hgot⟩ := (got_while_inside_or_outside hm hpost).1 0 0 n (hjoined.member hm)
    hjoined.registered fun k q hmem => by
      cases (List.all_eq_true.mp (Option.some.inj hstay) _ hmem)
  exact ⟨_, m, _, s, n, hm, hpost, hmember, hgot, Option.some.inj hposts⟩

end Server
end Chat
