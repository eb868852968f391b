import Chat.Registry

/-! The order of a session's requests, and the one branch of `chat_with_sender` that goes
through its room pointer without a test. -/
namespace Chat
open Transition

/-- What a receive call of session `i` gave, in order; `none` is a failure. -/
def heard (i : Sid) (es : List Event) : List (Option Message) :=
  es.filterMap fun e => match e.action with
    | .receive m => if e.session = i then some m else none
    | _ => none

@[simp] theorem heard_append (i : Sid) (es es' : List Event) :
    heard i (es ++ es') = heard i es ++ heard i es' :=
  List.filterMap_append

theorem heard_other {i : Sid} {e : Event} (h : e.session ≠ i) : heard i [e] = [] := by
  obtain ⟨j, k, a⟩ := e
  cases a <;> simp_all [heard]

def isTag (tag : Bytes) (m : Option Message) : Bool := m.any (·.tag = tag)

def joined (ms : List (Option Message)) : Bool := ms.any (isTag tagJoin)

/-- A leave comes before the first join. -/
def leavesFirst : List (Option Message) → Bool
  | [] => false
  | m :: ms => isTag tagLeave m || !isTag tagJoin m && leavesFirst ms

theorem leavesFirst_append (ms ms' : List (Option Message)) :
    leavesFirst (ms ++ ms') = (leavesFirst ms || !joined ms && leavesFirst ms') := by
  induction ms with
  | nil => simp [leavesFirst, joined]
  | cons m ms ih =>
    have hjoin : joined (m :: ms) = (isTag tagJoin m || joined ms) := rfl
    simp only [List.cons_append, leavesFirst, ih, hjoin]
    cases isTag tagLeave m <;> cases isTag tagJoin m <;> simp

@[simp] theorem joined_append (ms ms' : List (Option Message)) :
    joined (ms ++ ms') = (joined ms || joined ms') :=
  List.any_append

namespace Thread

/-- What the room pointer of a sender tells about the messages that the session got. -/
structure Requests (ms : List (Option Message)) (t : Thread) : Prop where
  early : t.pc.early = true → ms = []
  room : t.role = .sender → (joined ms = true ↔ t.room ≠ none ∨ ∃ pc, t.pc = .findOrCreateRoom pc)
  left : t.role = .sender → (leavesFirst ms = true ↔ t.pc = .memberExists ∧ t.room = none)

variable {i : Sid} {σ : Shared} {t t' : Thread} {a : Action} {ms : List (Option Message)}

private theorem Requests.of_receiver (hrole : t.role = .receiver) (hearly : t.pc.early = false) :
    Requests ms t where
  early h := by simp [hearly] at h
  room h := by simp [hrole] at h
  left h := by simp [hrole] at h

/-- The pointer, once set, never becomes null again. -/
private theorem Requests.keep (h : Requests ms t) {r : RoomId}
    (hroom : t.room ≠ none ∨ ∃ pc, t.pc = .findOrCreateRoom pc) (hroom' : t'.room = some r)
    (hrole : t'.role = t.role) (hearly : t'.pc.early = false) : Requests ms t' where
  early h' := by simp [hearly] at h'
  room hr := by
    have hjoined := (h.room (hrole ▸ hr)).mpr hroom
    simp [hjoined, hroom']
  left hr := by
    have hleft := h.left (hrole ▸ hr)
    rcases hroom with hsome | ⟨pc, hpc⟩
    · simpa [hsome, hroom'] using hleft
    · simpa [hpc, hroom'] using hleft

private theorem Requests.congr (h : Requests ms t) (hroom : t'.room = t.room)
    (hrole : t'.role = t.role) (hearly : t'.pc.early = false)
    (hfind : (∃ pc, t'.pc = .findOrCreateRoom pc) ↔ ∃ pc, t.pc = .findOrCreateRoom pc)
    (hpc : t.pc ≠ .memberExists) (hpc' : t'.pc ≠ .memberExists) : Requests ms t' where
  early h' := by simp [hearly] at h'
  room hr := by rw [hroom, hfind, h.room (hrole ▸ hr)]
  left hr := by simpa [hpc, hpc'] using h.left (hrole ▸ hr)

private theorem loopHead_late (t : Thread) : t.loopHead.early = false ∧
    (∀ pc, t.loopHead ≠ .findOrCreateRoom pc) ∧ t.loopHead ≠ .memberExists := by
  exact @loopHead_of (fun pc => pc.early = false ∧ (∀ q, pc ≠ .findOrCreateRoom q) ∧
    pc ≠ .memberExists) t (by simp [Pc.early]) (by simp [Pc.early]) (by simp [Pc.early])

private theorem Requests.start (hroom : t.room = none) (hms : ms = []) (hfind : ∀ pc, t.pc ≠ .findOrCreateRoom pc) (hpc : t.pc ≠ .memberExists) :
    Requests ms t where
  early _ := hms
  room _ := by simpa [hroom, hms, joined] using hfind
  left _ := by simp [hms, leavesFirst, hpc]

/-- The branches of `chat_with_sender` keep the tally of joins and early leaves. -/
private theorem Requests.received {m : Option Message} (h : Requests ms t)
    (hpc : t.pc = .receive) (hroom : t'.room = t.room) (hrole : t'.role = t.role)
    (hpc' : (m = none ∧ ∃ resp resume, t'.pc = .reply resp resume) ∨
      ∃ msg, m = some msg ∧ Dispatch t.role t.room msg.tag t'.pc) : Requests (ms ++ [m]) t' where
  early h' := by
    rcases hpc' with ⟨-, resp, resume, hpc'⟩ | ⟨msg, -, hdispatch⟩
    · simp [hpc', Pc.early] at h'
    · generalize t'.pc = pc at hdispatch h'
      cases hdispatch <;> cases h'
  room hr := by
    have hbefore := h.room (hrole ▸ hr)
    simp only [hpc, reduceCtorEq, exists_false, or_false] at hbefore
    rw [joined_append, Bool.or_eq_true, hbefore, hroom]
    rcases hpc' with ⟨rfl, resp, resume, hpc'⟩ | ⟨msg, rfl, hdispatch⟩
    · simp [hpc', joined, isTag]
    · have htag : joined [some msg] = true ↔ msg.tag = tagJoin := by simp [joined, isTag]
      rw [htag]
      generalize t'.pc = pc at hdispatch
      cases hdispatch with
      | quit _ hq => simp [hq, show tagQuit ≠ tagJoin by decide]
      | rejoin _ _ hsome => simp [hsome]
      | join _ hj => simp [hj]
      | leave _ hl => simp [hl, show tagLeave ≠ tagJoin by decide]
      | sendall _ _ hj => simp [hj]
      | outside _ _ hj => simp [hj]
      | firstJoin hrec => simp [← hrole, hr] at hrec
      | notJoin hrec => simp [← hrole, hr] at hrec
  left hr := by
    have hbefore := h.room (hrole ▸ hr)
    have hleft := h.left (hrole ▸ hr)
    simp only [hpc, reduceCtorEq, exists_false, or_false, false_and, iff_false] at hbefore hleft
    rw [leavesFirst_append, Bool.eq_false_iff.mpr hleft, Bool.false_or, hroom]
    have hnull : (!joined ms) = true ↔ t.room = none := by
      rw [Bool.not_eq_true', ← Bool.not_eq_true, hbefore, not_not]
    rw [Bool.and_eq_true, hnull]
    rcases hpc' with ⟨rfl, resp, resume, hpc'⟩ | ⟨msg, rfl, hdispatch⟩
    · simp [hpc', leavesFirst, isTag]
    · have htag : leavesFirst [some msg] = true ↔ msg.tag = tagLeave := by
        simp [leavesFirst, isTag]
      rw [htag]
      generalize t'.pc = pc at hdispatch
      cases hdispatch with
      | quit _ hq => simp [hq, show tagQuit ≠ tagLeave by decide]
      | rejoin _ hj => simp [hj, show tagJoin ≠ tagLeave by decide]
      | join _ hj => simp [hj, show tagJoin ≠ tagLeave by decide]
      | leave _ hl => simp [hl]
      | sendall _ _ _ hl hsome => simp [hl, hsome]
      | outside _ _ _ hl => simp [hl]
      | firstJoin hrec => simp [← hrole, hr] at hrec
      | notJoin hrec => simp [← hrole, hr] at hrec

theorem Requests.step (h : Requests ms t) (hok : t.Ok) (ht : Step i σ t a t') (n : ℕ) :
    Requests (ms ++ heard i [⟨i, n, a⟩]) t' := by
  have quiet (hkeep : Requests ms t') (ha : heard i [⟨i, n, a⟩] = []) :
      Requests (ms ++ heard i [⟨i, n, a⟩]) t' := by rwa [ha, List.append_nil]
  cases ht with
  | inner ht =>
    cases ht with
    | removeAcquire _ hr | removeBody _ hr | addAcquire _ hr | addBody _ hr
    | broadcastAcquire _ hr | broadcastStart _ hr | visitOther _ hr | visitSame _ hr
    | enqueue _ hr | enqueueEnd _ hr => exact quiet (h.keep (.inl (by simp [hr])) hr rfl rfl) rfl
    | findAcquire hpc | findBody hpc =>
      exact quiet (h.congr rfl rfl rfl (by simp [hpc]) (by simp [hpc]) Pc.noConfusion) rfl
    | findRelease hpc => exact quiet (h.keep (.inr ⟨_, hpc⟩) rfl rfl rfl) rfl
    | dequeue hpc =>
      obtain ⟨hrole, -⟩ : t.role = .receiver ∧ t.room ≠ none := by simpa [Ok, hpc] using hok
      exact quiet (.of_receiver hrole rfl) rfl
  | accept _ _ _ hpc =>
    have hms := h.early (by rw [hpc]; rfl)
    exact quiet (.start rfl hms (fun _ => Pc.noConfusion) Pc.noConfusion) rfl
  | loginFail hpc | loginOk hpc =>
    obtain ⟨hroom, -⟩ : t.room = none ∧ t.serial = 0 := by simpa [Ok, hpc] using hok
    have hms := h.early (by rw [hpc]; rfl)
    exact quiet (.start hroom hms (fun _ => Pc.noConfusion) Pc.noConfusion) rfl
  | @loginReply accepted _ _ _ hpc =>
    obtain ⟨hroom, -⟩ : t.room = none ∧ t.serial = 0 := by simpa [Ok, hpc] using hok
    have hms := h.early (by rw [hpc]; rfl)
    cases accepted <;> exact quiet (.start hroom hms (fun _ => Pc.noConfusion) Pc.noConfusion) rfl
  | newSender hpc =>
    obtain ⟨hroom, -⟩ : t.room = none ∧ t.serial = 0 := by simpa [Ok, hpc] using hok
    have hms := h.early (by rw [hpc]; rfl)
    obtain ⟨-, hfind, hpc'⟩ := loopHead_late { t with role := .sender }
    exact quiet (.start hroom hms hfind hpc') rfl
  | newReceiver hpc => exact quiet (.of_receiver rfl rfl) rfl
  | receiveFail hpc =>
    have hmsg : heard i [⟨i, n, .receive none⟩] = [none] := by simp [heard]
    rw [hmsg]
    exact h.received hpc rfl rfl (.inl ⟨rfl, _, _, rfl⟩)
  | @receiveOk buffer msg conn hpc =>
    have hmsg : heard i [⟨i, n, .receive (some msg)⟩] = [some msg] := by simp [heard]
    rw [hmsg]
    exact h.received hpc rfl rfl (.inr ⟨msg, rfl, dispatch_cases _ _ _⟩)
  | removeRelease _ hr =>
    exact quiet (h.keep (.inl (by simp [hr])) hr rfl (early_of_idle (removed_idle _))) rfl
  | memberExists _ hr =>
    exact quiet (h.keep (.inl (by simp [hr])) hr rfl (early_of_idle (exists_idle _ _))) rfl
  | addRelease _ hr | loopEnd _ hr => exact quiet (h.keep (.inl (by simp [hr])) hr rfl rfl) rfl
  | @reply resp resume sent conn hpc =>
    obtain ⟨hearly, hfind, hpc'⟩ := loopHead_late { t with conn }
    cases resume with
    | loop => exact quiet (h.congr rfl rfl hearly (by simpa [hpc] using hfind) (by simp [hpc]) hpc') rfl
    | close | ret =>
      exact quiet (h.congr rfl rfl rfl (by simp [hpc]) (by simp [hpc]) Pc.noConfusion) rfl
  | dequeueEnd hpc =>
    obtain ⟨hrole, -⟩ : t.role = .receiver ∧ t.room ≠ none := by simpa [Ok, hpc] using hok
    exact quiet (.of_receiver hrole (early_of_idle (dequeued_idle _ _))) rfl
  | deliver hpc =>
    obtain ⟨hrole, -⟩ : t.role = .receiver ∧ t.room ≠ none := by simpa [Ok, hpc] using hok
    exact quiet (.of_receiver hrole (early_of_idle (loopHead_idle _))) rfl
  | close hpc =>
    exact quiet (h.congr rfl rfl rfl (by simp [hpc]) (by simp [hpc]) Pc.noConfusion) rfl
  | subscript | nullRoom | emptyQueue => exact quiet h rfl

end Thread

namespace Server

variable {es : List Event} {s : Server}

theorem requests (h : Run Server.Step {} es s) (i : Sid) :
    Thread.Requests (heard i es) (s.thread i) := by
  refine h.invariant (fun es s => ∀ i, Thread.Requests (heard i es) (s.thread i)) ?_ ?_ i
  · exact fun i => .start rfl rfl (fun _ => Pc.noConfusion) Pc.noConfusion
  intro es s e s' hrun ih hs j
  obtain ⟨i, a, t, σ, -, ht, -, rfl, rfl⟩ := hs.move
  rw [heard_append]
  by_cases hj : j = i
  · subst hj
    simpa using (ih j).step (ok hrun j) ht t.serial
  · have hi : i ≠ j := fun h => hj h.symm
    rw [heard_other hi, List.append_nil]
    simpa [hj] using ih j

/-- The session's next call goes through a null pointer just if a leave came first. -/
theorem null_deref_iff (hrun : Run Server.Step {} es s) (i : Sid) :
    (s.thread i).pc.derefs = true ∧ (s.thread i).room = none ↔
      (s.thread i).role = .sender ∧ leavesFirst (heard i es) = true := by
  constructor
  · rintro ⟨hpc, hroom⟩
    have hok := ok hrun i
    have hleft := (requests hrun i).left
    unfold Thread.Ok at hok
    generalize (s.thread i).pc = pc at hpc hok hleft
    cases pc with
    | memberExists => exact ⟨hok.1, (hleft hok.1).mpr ⟨rfl, hroom⟩⟩
    | removeMember | addMember | broadcast => exact absurd hroom hok.2
    | _ => cases hpc
  · rintro ⟨hrole, hleaves⟩
    obtain ⟨hpc, hroom⟩ := ((requests hrun i).left hrole).mp hleaves
    exact ⟨by rw [hpc]; rfl, hroom⟩

private theorem nullRoom_of {i : Sid} {σ : Shared} {t t' : Thread}
    (h : Thread.Step i σ t (.fault .nullRoom) t') :
    t' = t ∧ t.pc.derefs = true ∧ t.room = none := by
  cases h with
  | inner h => cases h
  | nullRoom hpc hroom => exact ⟨rfl, hpc, hroom⟩

theorem nullRoom_fault (hrun : Run Server.Step {} es s) {i : Sid}
    (hfault : s.fault = some (i, .nullRoom)) :
    (s.thread i).pc.derefs = true ∧ (s.thread i).room = none := by
  cases hrun with
  | nil => cases hfault
  | @snoc es s₀ e _ hpre hs =>
    obtain ⟨hacts, -⟩ := hs.acts
    obtain ⟨j, n, a⟩ := e
    have hfaulted : a.faulted j = some (i, .nullRoom) := hacts.fault.symm.trans hfault
    obtain ⟨rfl, rfl⟩ : j = i ∧ a = .fault .nullRoom := by
      cases a <;> simp_all [Action.faulted]
    obtain ⟨heq, hnull⟩ := nullRoom_of hacts.step
    have heq' : s.thread j = s₀.thread j := heq
    rwa [heq']

/-- A session dereferences its null room pointer, now or as its next step, just if the server
is still running or was ended by this, and the session's client sent a leave before its first
join. -/
theorem null_room_iff (hrun : Run Server.Step {} es s) (i : Sid) :
    (s.fault = some (i, .nullRoom) ∨
        ∃ s', s.Step ⟨i, (s.thread i).serial, .fault .nullRoom⟩ s') ↔
      (s.fault = none ∨ s.fault = some (i, .nullRoom)) ∧ (s.thread i).role = .sender ∧
        leavesFirst (heard i es) = true := by
  rw [← null_deref_iff hrun i]
  constructor
  · rintro (hfault | ⟨s', hs⟩)
    · exact ⟨.inr hfault, nullRoom_fault hrun hfault⟩
    · obtain ⟨hacts, -⟩ := hs.acts
      exact ⟨.inl hacts.alive, (nullRoom_of hacts.step).2⟩
  · rintro ⟨hlive | hfault, hnull⟩
    · obtain ⟨hrole, hleaves⟩ := (null_deref_iff hrun i).mp hnull
      obtain ⟨hpc, hroom⟩ := ((requests hrun i).left hrole).mp hleaves
      refine .inr ⟨⟨s.shared, Function.update s.thread i (s.thread i), some (i, .nullRoom)⟩,
        .run i {}, ?_⟩
      simp [next, hlive, Thread.next, hpc, Thread.deref, hroom, Shared.apply]
    · exact .inl hfault

private def leaver : List Sched := .client 0 "slogin:alice\nleave:bye\n" :: Sched.steps 0 5

theorem null_room_leaver : ∃ es s, Run Server.Step {} es s ∧
    heard 0 es = [some ⟨tagLeave, str "bye\n"⟩] ∧ s.fault = some (0, .nullRoom) := by
  obtain ⟨⟨es, s⟩, h⟩ := Option.isSome_iff_exists.mp (show (outcome leaver).isSome = true by decide)
  have hheard : (outcome leaver).map (fun p => heard 0 p.1) =
      some [some ⟨tagLeave, str "bye\n"⟩] := by decide
  have hfault : (outcome leaver).map (fun p => p.2.fault) = some (some (0, .nullRoom)) := by decide
  rw [h] at hheard hfault
  exact ⟨es, s, run_of_outcome h, Option.some.inj hheard, Option.some.inj hfault⟩

theorem null_room_iff_leaver : ∃ es s, Run Server.Step {} es s ∧
    (s.thread 0).role = .sender ∧ leavesFirst (heard 0 es) = true := by
  obtain ⟨⟨es, s⟩, h⟩ := Option.isSome_iff_exists.mp (show (outcome leaver).isSome = true by decide)
  have hfault : (outcome leaver).map (fun p => p.2.fault) = some (some (0, .nullRoom)) := by decide
  rw [h] at hfault
  have hrun := run_of_outcome h
  exact ⟨es, s, hrun, ((null_room_iff hrun 0).mp (.inl (Option.some.inj hfault))).2⟩

end Server
end Chat
