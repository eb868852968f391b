import Chat.Inbox
import Chat.Lib.PubSub
import Chat.Lib.Simulation

/-! The server refines atomic publish and subscribe: whatever the threads interleave, each broadcast
is as if it reached all members of its room at the moment that it takes the room's lock. -/
namespace Chat
open Transition PubSub

/-- A room and a broadcast in it. -/
abbrev Said := RoomId × Broadcast

/-- A user is not sent what a user of its name has said. -/
def wants (username : Bytes) (p : Said) : Prop := p.2.sender ≠ username

instance : DecidableRel wants := fun username p => inferInstanceAs (Decidable (p.2.sender ≠ username))

/-- What a step of the server is to the atomic machine, where it is anything. -/
def Event.label (e : Event) : Option (Label Sid RoomId Bytes Said) :=
  match e.action with
  | .newUser username => some (.register e.session username)
  | .insert r => some (.subscribe e.session r)
  | .erase _ => some (.unsubscribe e.session)
  | .broadcast r sender text => some (.publish e.session r (r, ⟨e.session, e.serial, sender, text⟩))
  | .deliver _ _ => some (.take e.session)
  | _ => none

/-- The message that goes to the queues for something said, under the registered name of the room. -/
def Renders (σ : Shared) (p : Said) (q : Post) : Prop :=
  ∃ n, σ.mRooms n = some p.1 ∧ q = ⟨p.2.session, p.2.serial, delivery n p.2.sender p.2.text⟩

theorem Thread.Step.erase_of {i : Sid} {σ : Shared} {t t' : Thread} {r : RoomId}
    (h : Step i σ t (.erase r) t') : t.pc = .removeMember .body ∧ t.room = some r := by
  cases h with
  | inner h =>
    cases h with
    | removeBody hpc hr => exact ⟨hpc, hr⟩

namespace Server

/-- The state of the atomic machine that a history and a state of the server stand for. -/
structure Refines (es : List Event) (s : Server) (c : System Sid RoomId Bytes Said) : Prop where
  name : ∀ u, c.name u = (s.shared.user u).username
  topic : ∀ u r, c.topic u = some r ↔ u ∈ (s.shared.room r).members
  inside : ∀ u r n, u ∈ (s.shared.room r).members → s.shared.mRooms n = some r →
    List.Forall₂ (Renders s.shared) (c.log u) (posts u es ++ s.pending r n u)
  outside : ∀ u, c.topic u = none → List.Forall₂ (Renders s.shared) (c.log u) (posts u es)
  seen : ∀ u, c.seen u = (deliveries u es).length

variable {es : List Event} {s s' : Server} {e : Event} {c c' : System Sid RoomId Bytes Said}
  {i u : Sid} {a : Action} {r : RoomId} {n : Bytes}

/-- What an event has the atomic machine send to user `u`. -/
def fresh (c : System Sid RoomId Bytes Said) (u : Sid) (e : Event) : List Said :=
  match e.action with
  | .broadcast r sender text =>
    if c.topic u = some r ∧ wants (c.name u) (r, ⟨e.session, e.serial, sender, text⟩) then
      [(r, ⟨e.session, e.serial, sender, text⟩)]
    else []
  | _ => []

theorem fresh_outside (hu : c.topic u = none) (e : Event) : fresh c u e = [] := by
  obtain ⟨i, k, a⟩ := e
  cases a <;> simp [fresh, hu]

/-- Nobody enqueues for a user that is in no room. -/
theorem posts_outside (hrun : Run Server.Step {} es s) (hs : s.Step e s')
    (hu : ∀ r, u ∉ (s.shared.room r).members) : posts u [e] = [] := by
  obtain ⟨i, k, a⟩ := e
  cases a with
  | queue v b =>
    cases b with
    | push msg =>
      by_cases hv : v = u
      · subst hv
        obtain ⟨q, -, hq⟩ := push_holds hrun hs.acts.1.step
        exact absurd hq (hu q)
      · simp [posts, hv]
    | _ => rfl
  | _ => rfl

/-- A session that changes a set of members owes nobody a broadcast. -/
theorem pending_of_changer (hrun : Run Server.Step {} es s) (hi : .room r ∈ (s.thread i).holds i)
    (hpc : ∀ pc, (s.thread i).pc ≠ .broadcast pc) (n : Bytes) (u : Sid) : s.pending r n u = [] := by
  refine pending_eq_nil hrun (fun k hk => ?_) n
  obtain rfl := (locks_agree hrun).exclusive hk hi
  unfold Thread.owes
  generalize (s.thread k).pc = pc at hpc
  cases pc with
  | broadcast pc => exact absurd rfl (hpc pc)
  | _ => rfl

/-- A room that has a member has one name. -/
theorem name_of_member (hrun : Run Server.Step {} es s) (hs : s.Step e s')
    (hu : u ∈ (s.shared.room r).members) (hn : s'.shared.mRooms n = some r) :
    s.shared.mRooms n = some r := by
  obtain ⟨m, hm⟩ := ((registered hrun).pointers u).room r ((membership hrun u).pointer r hu)
  obtain rfl := (registered (hrun.snoc hs)).registry.injective m n r
    (hs.acts.1.effect.mRooms_mono hm) hn
  exact hm

theorem renders_mono (hrun : Run Server.Step s es s') {ps : List Said} {qs : List Post}
    (h : List.Forall₂ (Renders s.shared) ps qs) : List.Forall₂ (Renders s'.shared) ps qs :=
  h.imp fun _ _ ⟨n, hn, hq⟩ => ⟨n, mRooms_run hrun hn, hq⟩

/-- What is sent to a member is what the room's broadcast is to enqueue for it. -/
private theorem renders_fresh (htopic : c.topic u = some r) (hname : c.name u = (s.shared.user u).username)
    (hn : s.shared.mRooms n = some r) (e : Event) :
    List.Forall₂ (Renders s.shared) (fresh c u e)
      (expected n (s.shared.user u).username (broadcasts r [e])) := by
  obtain ⟨i, k, a⟩ := e
  cases a with
  | broadcast q sender text =>
    by_cases hq : q = r
    · subst hq
      by_cases hsender : sender = (s.shared.user u).username
      · simp [fresh, wants, expected, broadcasts, hname, hsender]
      · simp only [fresh, wants, expected, broadcasts, hname, hsender, htopic, ne_eq, not_false_eq_true,
          and_self, if_true, List.filterMap_cons, List.filterMap_nil, decide_true, List.filter_cons_of_pos,
          List.filter_nil, List.map_cons, List.map_nil]
        exact .cons ⟨n, hn, rfl⟩ .nil
    · have hother : r ≠ q := Ne.symm hq
      simp [fresh, expected, broadcasts, htopic, hq, hother]
  | _ => exact .nil

/-- Who joins was in no room, and no broadcast in the room is in progress. -/
private theorem inserting (hrun : Run Server.Step {} es s) (hs : s.Step e s') (hinsert : e.action = .insert r) :
    (∀ q, e.session ∉ (s.shared.room q).members) ∧ ∀ n, s'.pending r n e.session = [] := by
  have hpc := (show Thread.Step _ s.shared _ (.insert r) _ from hinsert ▸ hs.acts.1.step).insert_of
  refine ⟨(membership hrun _).absent (by rw [hpc.1]; rfl), fun n => ?_⟩
  have hholds : .room r ∈ (s'.thread e.session).holds e.session := by
    rw [hpc.2.2]
    exact ⟨rfl, hpc.2.1⟩
  exact pending_of_changer (hrun.snoc hs) hholds (fun pc => by rw [hpc.2.2]; exact Pc.noConfusion) n _

/-- Who leaves is enqueued nothing, and no broadcast in the room is in progress. -/
private theorem erasing (hrun : Run Server.Step {} es s) (hs : s.Step e s') (herase : e.action = .erase r)
    (c : System Sid RoomId Bytes Said) :
    posts e.session [e] = [] ∧ fresh c e.session e = [] ∧ ∀ n, s.pending r n e.session = [] := by
  have hstep : Thread.Step _ s.shared _ (.erase r) _ := herase ▸ hs.acts.1.step
  refine ⟨by simp [posts, herase], by simp [fresh, herase], fun n => ?_⟩
  exact pending_of_changer hrun (hstep.inRoom_of (.inr rfl))
    (fun pc => by rw [hstep.erase_of.1]; exact Pc.noConfusion) n _

/-- The logs after one step: whoever is in a room is sent what the step says there. -/
theorem Refines.advance (h : Refines es s c) (hrun : Run Server.Step {} es s) (hs : s.Step e s')
    (hname : ∀ u, c'.name u = (s'.shared.user u).username)
    (htopic : ∀ u r, c'.topic u = some r ↔ u ∈ (s'.shared.room r).members)
    (hlog : ∀ u, c'.log u = c.log u ++ fresh c u e)
    (hseen : ∀ u, c'.seen u = c.seen u + (deliveries u [e]).length) : Refines (es ++ [e]) s' c' := by
  have hnone : ∀ {u}, (∀ r, u ∉ (s.shared.room r).members) → c.topic u = none := fun {u} hu => by
    cases hc : c.topic u with
    | none => rfl
    | some q => exact absurd ((h.topic u q).mp hc) (hu q)
  have hmembers := fun r u => (registered hrun).members hs.acts.1.step hs.acts.1.effect r u
  refine ⟨hname, htopic, fun u r n hu hn => ?_, fun u hu => ?_, fun u => ?_⟩
  · rw [posts_append, hlog, List.append_assoc]
    rcases (hmembers r u).mp hu with ⟨rfl, hinsert⟩ | ⟨hold, -⟩
    · obtain ⟨hout, hpending⟩ := inserting hrun hs hinsert
      rw [fresh_outside (hnone hout), posts_outside hrun hs hout, hpending]
      simpa using renders_mono (.single hs) (h.outside _ (hnone hout))
    · have hn₀ := name_of_member hrun hs hold hn
      rw [pending_step hrun hs hold hn₀, ← List.append_assoc]
      exact List.rel_append (renders_mono (.single hs) (h.inside u r n hold hn₀))
        (renders_mono (.single hs) (renders_fresh ((h.topic u r).mpr hold) (h.name u) hn₀ e))
  · rw [posts_append, hlog]
    cases hc : c.topic u with
    | none =>
      have hout : ∀ r, u ∉ (s.shared.room r).members := fun r hr => by
        rw [(h.topic u r).mpr hr] at hc
        cases hc
      rw [fresh_outside hc, posts_outside hrun hs hout]
      simpa using renders_mono (.single hs) (h.outside u hc)
    | some r =>
      have hold := (h.topic u r).mp hc
      have hgone : u ∉ (s'.shared.room r).members := fun hr => by
        rw [(htopic u r).mpr hr] at hu
        cases hu
      obtain ⟨rfl, herase⟩ : u = e.session ∧ e.action = .erase r := by
        by_contra hnot
        exact hgone ((hmembers r u).mpr (.inr ⟨hold, hnot⟩))
      obtain ⟨n, hn⟩ := ((registered hrun).pointers _).room r ((membership hrun _).pointer r hold)
      obtain ⟨hposts, hfresh, hpending⟩ := erasing hrun hs herase c
      have hinside := h.inside _ r n hold hn
      rw [hpending, List.append_nil] at hinside
      rw [hposts, hfresh]
      simpa using renders_mono (.single hs) hinside
  · rw [deliveries_append, List.length_append, hseen, h.seen]

private theorem username_kept (hs : s.Step e s') (hnew : ∀ username, e.action ≠ .newUser username)
    (u : Sid) :
    (s'.shared.user u).username = (s.shared.user u).username :=
  hs.acts.1.effect.username fun username ha => absurd ha (hnew username)

private theorem members_kept (hrun : Run Server.Step {} es s) (hs : s.Step e s')
    (hinsert : ∀ r, e.action ≠ .insert r) (herase : ∀ r, e.action ≠ .erase r) (r : RoomId) (u : Sid) :
    u ∈ (s'.shared.room r).members ↔ u ∈ (s.shared.room r).members := by
  rw [(registered hrun).members hs.acts.1.step hs.acts.1.effect r u]
  simp [hinsert r, herase r]

/-- A session that is in no room is on no topic. -/
theorem Refines.topic_none (h : Refines es s c) (hi : ∀ r, i ∉ (s.shared.room r).members) :
    c.topic i = none := by
  cases hc : c.topic i with
  | none => rfl
  | some r => exact absurd ((h.topic i r).mp hc) (hi r)

private theorem refines_silent (h : Refines es s c) (hrun : Run Server.Step {} es s) (hs : s.Step e s')
    (hlabel : e.label = none) : Refines (es ++ [e]) s' c := by
  obtain ⟨i, k, a⟩ := e
  refine h.advance hrun hs (fun u => ?_) (fun u r => ?_) (fun u => ?_) (fun u => ?_)
  · rw [h.name u, username_kept hs fun username ha => ?_]
    simp [Event.label, show a = .newUser username from ha] at hlabel
  · rw [h.topic u r, members_kept hrun hs (fun q ha => ?_) fun q ha => ?_]
    · simp [Event.label, show a = .insert q from ha] at hlabel
    · simp [Event.label, show a = .erase q from ha] at hlabel
  · cases a with
    | broadcast => cases hlabel
    | _ => exact (List.append_nil _).symm
  · cases a with
    | deliver => cases hlabel
    | _ => rfl

private theorem refines_newUser {k : ℕ} {username : Bytes} (h : Refines es s c)
    (hrun : Run Server.Step {} es s) (hs : s.Step ⟨i, k, .newUser username⟩ s') :
    ∃ c', PubSub.Step wants c (.register i username) c' ∧
      Refines (es ++ [⟨i, k, .newUser username⟩]) s' c' := by
  have hearly : (s.thread i).pc.early = true := hs.acts.1.step.newUser_of
  have hnone := h.topic_none (i := i) fun r hr => by simp [not_early_of_member hrun hr] at hearly
  refine ⟨_, .register username hnone,
    h.advance hrun hs (fun u => ?_) (fun u r => ?_) (fun u => ?_) fun u => ?_⟩
  · have heff : Shared.Effect s.shared i (.newUser username) s'.shared := hs.acts.1.effect
    by_cases hu : u = i
    · subst hu
      simpa using heff.newUser_name.symm
    · simpa [hu, h.name u] using (heff.username fun _ _ => hu).symm
  · rw [members_kept hrun hs (fun _ => Action.noConfusion) fun _ => Action.noConfusion]
    exact h.topic u r
  · simp [fresh]
  · simp [deliveries]

private theorem refines_insert {k : ℕ} (h : Refines es s c) (hrun : Run Server.Step {} es s)
    (hs : s.Step ⟨i, k, .insert r⟩ s') :
    ∃ c', PubSub.Step wants c (.subscribe i r) c' ∧ Refines (es ++ [⟨i, k, .insert r⟩]) s' c' := by
  have hpc : (s.thread i).pc = .addMember .body := hs.acts.1.step.insert_of.1
  have habsent := (membership hrun i).absent (by rw [hpc]; rfl)
  have hnone := h.topic_none habsent
  refine ⟨_, .subscribe r hnone,
    h.advance hrun hs (fun u => ?_) (fun u q => ?_) (fun u => ?_) fun u => ?_⟩
  · exact (h.name u).trans (username_kept hs (fun _ => Action.noConfusion) u).symm
  · rw [(registered hrun).members hs.acts.1.step hs.acts.1.effect q u]
    by_cases hu : u = i
    · subst hu
      simp [habsent q, eq_comm]
    · simp [hu, h.topic u q]
  · simp [fresh]
  · simp [deliveries]

private theorem refines_erase {k : ℕ} (h : Refines es s c) (hrun : Run Server.Step {} es s)
    (hs : s.Step ⟨i, k, .erase r⟩ s') :
    ∃ c', PubSub.Step wants c (.unsubscribe i) c' ∧ Refines (es ++ [⟨i, k, .erase r⟩]) s' c' := by
  refine ⟨_, .unsubscribe, h.advance hrun hs (fun u => ?_) (fun u q => ?_) (fun u => ?_) fun u => ?_⟩
  · exact (h.name u).trans (username_kept hs (fun _ => Action.noConfusion) u).symm
  · rw [(registered hrun).members hs.acts.1.step hs.acts.1.effect q u]
    by_cases hu : u = i
    · subst hu
      -- the session erases itself where its pointer says it is, if it is anywhere
      have hroom : (s.thread u).room = some r :=
        (show Thread.Step _ _ _ (.erase r) _ from hs.acts.1.step).erase_of.2
      have hwhere : u ∈ (s.shared.room q).members → q = r := fun hq =>
        Option.some.inj (((membership hrun u).pointer q hq).symm.trans hroom)
      simpa [eq_comm] using hwhere
    · simp [hu, h.topic u q]
  · simp [fresh]
  · simp [deliveries]

private theorem refines_broadcast {k : ℕ} {sender text : Bytes} (h : Refines es s c)
    (hrun : Run Server.Step {} es s) (hs : s.Step ⟨i, k, .broadcast r sender text⟩ s') :
    ∃ c', PubSub.Step wants c (.publish i r (r, ⟨i, k, sender, text⟩)) c' ∧
      Refines (es ++ [⟨i, k, .broadcast r sender text⟩]) s' c' := by
  obtain ⟨hpc, hroom, -⟩ := (show Thread.Step i s.shared _ (.broadcast r sender text) _ from
    hs.acts.1.step).broadcast_of
  have hmember := (membership hrun i).present (.inl ⟨_, hpc⟩) r hroom
  refine ⟨_, .publish (r, ⟨i, k, sender, text⟩)
    (fun u => c.log u ++ fresh c u ⟨i, k, .broadcast r sender text⟩) ((h.topic i r).mpr hmember)
    (fun u hu => ?_) (fun u hu => ?_),
    h.advance hrun hs (fun u => ?_) (fun u q => ?_) (fun u => ?_) fun u => ?_⟩
  · exact congrArg (c.log u ++ ·) (if_pos ⟨hu.1, hu.2⟩)
  · have hnone : fresh c u ⟨i, k, .broadcast r sender text⟩ = [] := if_neg hu
    rw [hnone, List.append_nil]
  · exact (h.name u).trans (username_kept hs (fun _ => Action.noConfusion) u).symm
  · rw [members_kept hrun hs (fun _ => Action.noConfusion) fun _ => Action.noConfusion]
    exact h.topic u q
  · rfl
  · simp [deliveries]

private theorem refines_deliver {k : ℕ} {msg : Message} {sent : Bool} (h : Refines es s c)
    (hrun : Run Server.Step {} es s) (hs : s.Step ⟨i, k, .deliver msg sent⟩ s') :
    ∃ c', PubSub.Step wants c (.take i) c' ∧ Refines (es ++ [⟨i, k, .deliver msg sent⟩]) s' c' := by
  have hposts : (deliveries i es).length + 1 ≤ (posts i es).length := by
    have hseg := (deliveries_of_posts (hrun.snoc hs) i).length_le
    simpa [deliveries, posts] using hseg
  have hlog : (posts i es).length ≤ (c.log i).length := by
    cases hc : c.topic i with
    | none => rw [(h.outside i hc).length_eq]
    | some q =>
      have hq := (h.topic i q).mp hc
      obtain ⟨n, hn⟩ := ((registered hrun).pointers i).room q ((membership hrun i).pointer q hq)
      rw [(h.inside i q n hq hn).length_eq, List.length_append]
      omega
  refine ⟨_, .take ?_, h.advance hrun hs (fun u => ?_) (fun u q => ?_) (fun u => ?_) fun u => ?_⟩
  · rw [h.seen]
    omega
  · exact (h.name u).trans (username_kept hs (fun _ => Action.noConfusion) u).symm
  · rw [members_kept hrun hs (fun _ => Action.noConfusion) fun _ => Action.noConfusion]
    exact h.topic u q
  · simp [fresh]
  · by_cases hu : u = i
    · subst hu
      simp [deliveries]
    · simp [deliveries, hu, Ne.symm hu]

theorem Refines.step (h : Refines es s c) (hrun : Run Server.Step {} es s) (hs : s.Step e s') :
    ∃ c', Run (PubSub.Step wants) c e.label.toList c' ∧ Refines (es ++ [e]) s' c' := by
  have hone {l : Label Sid RoomId Bytes Said} (hlabel : e.label = some l)
      (hstep : ∃ c', PubSub.Step wants c l c' ∧ Refines (es ++ [e]) s' c') :
      ∃ c', Run (PubSub.Step wants) c e.label.toList c' ∧ Refines (es ++ [e]) s' c' := by
    obtain ⟨c', hc, hrefines⟩ := hstep
    exact ⟨c', by rw [hlabel]; exact .single hc, hrefines⟩
  obtain ⟨i, k, a⟩ := e
  cases a with
  | newUser username => exact hone rfl (refines_newUser h hrun hs)
  | insert r => exact hone rfl (refines_insert h hrun hs)
  | erase r => exact hone rfl (refines_erase h hrun hs)
  | broadcast r sender text => exact hone rfl (refines_broadcast h hrun hs)
  | deliver msg sent => exact hone rfl (refines_deliver h hrun hs)
  | _ => exact ⟨c, .nil, refines_silent h hrun hs rfl⟩

/-- What the threads do between them is a run of the atomic machine. -/
theorem Refines.run (h : Refines es s c) (hrun : Run Server.Step {} es s) {es' : List Event}
    (hpost : Run Server.Step s es' s') :
    ∃ c', Run (PubSub.Step wants) c (es'.filterMap Event.label) c' ∧ Refines (es ++ es') s' c' := by
  have hsim := hpost.simulate (PubSub.Step wants) c
    (fun es' s ls c => ls = es'.filterMap Event.label ∧ Refines (es ++ es') s c) ⟨rfl, by simpa using h⟩ ?_
  · obtain ⟨ls, c', hspec, rfl, hrefines⟩ := hsim
    exact ⟨c', hspec, hrefines⟩
  rintro es' s₁ e s₂ ls c₁ hpre - ⟨rfl, h₁⟩ hs
  obtain ⟨c₂, hspec, h₂⟩ := h₁.step (hrun.trans hpre) hs
  refine ⟨_, c₂, hspec, ?_, by rwa [List.append_assoc] at h₂⟩
  cases hlabel : e.label <;> simp [hlabel]

theorem Refines.initial : Refines [] {} {} :=
  ⟨fun _ => rfl, fun _ _ => by simp, fun _ _ _ hu => by simp at hu, fun _ _ => .nil, fun _ => rfl⟩

theorem refinement (hrun : Run Server.Step {} es s) :
    ∃ c, Run (PubSub.Step wants) {} (es.filterMap Event.label) c ∧ Refines es s c := by
  simpa using Refines.initial.run .nil hrun

end Server
end Chat
