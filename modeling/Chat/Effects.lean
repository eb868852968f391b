import Chat.Room

/-! What an action changes of the shared objects, component by component. -/
namespace Chat

namespace Action

/-- The mutex that the action takes, if it takes one. -/
def acquires : Action → Option Lock
  | .lock l => some l
  | .broadcast r _ _ => some (.room r)
  | .queue u .lock => some (.queue u)
  | _ => none

def releases : Action → Option Lock
  | .unlock l => some l
  | .queue u .unlock => some (.queue u)
  | .queue u (.ret _) => some (.queue u)
  | _ => none

/-- The room that the action is on. -/
def room : Action → Option RoomId
  | .lock (.room r) | .unlock (.room r) | .insert r | .erase r | .memberExists r _
  | .broadcast r _ _ | .begin r | .visit r _ _ => some r
  | _ => none

/-- The user that an action of thread `i` is on. -/
def user (i : Sid) : Action → Option Sid
  | .newUser _ => some i
  | .lock (.queue u) | .unlock (.queue u) | .queue u _ => some u
  | _ => none

/-- The action leaves the shared objects alone. -/
def quiet : Action → Bool
  | .accept _ | .login _ | .loginReply _ _ | .receive _ | .reply _ _ | .memberExists _ _
  | .begin _ | .visit _ _ none | .queue _ .timeout | .deliver _ _ | .close | .fault _ => true
  | _ => false

theorem releases_of_acquires {a : Action} {l : Lock} (h : a.acquires = some l) :
    a.releases = none := by
  cases a with
  | queue u a => cases a <;> first | rfl | cases h
  | lock | broadcast => rfl
  | _ => cases h

theorem quiet_locks {a : Action} (h : a.quiet = true) : a.acquires = none ∧ a.releases = none := by
  cases a with
  | lock => simp [quiet] at h
  | unlock => simp [quiet] at h
  | broadcast => simp [quiet] at h
  | queue u a => cases a <;> first | exact ⟨rfl, rfl⟩ | simp [quiet] at h
  | _ => exact ⟨rfl, rfl⟩

end Action

/-- The effect of an action, by the component that it changes. -/
inductive Shared.Effect (σ : Shared) (i : Sid) : Action → Shared → Prop
  | keep {a} : a.quiet = true → Effect σ i a σ
  | acquire {a l} : a.acquires = some l → σ.owner l = none →
      Effect σ i a (σ.setOwner l (some i))
  | release {a l} : a.releases = some l → Effect σ i a (σ.setOwner l none)
  | newUser (username : Bytes) : Effect σ i (.newUser username) (σ.setUser i ⟨username, {}⟩)
  | find {roomName r r'} : σ.mRooms roomName = some r' →
      Effect σ i (.findOrCreateRoom roomName r) σ
  | create {roomName} (r : RoomId) : σ.mRooms roomName = none →
      Effect σ i (.findOrCreateRoom roomName r)
        ({ σ with
          mRooms := Function.update σ.mRooms roomName (some r)
          nRooms := σ.nRooms + 1 }.setRoom r ⟨roomName, none, ∅⟩)
  | insert (r : RoomId) : Effect σ i (.insert r)
      (σ.setRoom r { σ.room r with members := insert i (σ.room r).members })
  | erase (r : RoomId) : Effect σ i (.erase r)
      (σ.setRoom r { σ.room r with members := (σ.room r).members.erase i })
  | rename (r : RoomId) (u : Sid) (msg : Message) : Effect σ i (.visit r u (some msg))
      (σ.setRoom r { σ.room r with roomName := removeNewline (σ.room r).roomName })
  | push (u : Sid) (msg : Message) : Effect σ i (.queue u (.push msg))
      (σ.setUser u { σ.user u with mqueue := { (σ.user u).mqueue with
        mMessages := (σ.user u).mqueue.mMessages ++ [msg] } })
  | pop (u : Sid) (msg : Message) : Effect σ i (.queue u (.pop msg))
      (σ.setUser u { σ.user u with mqueue := { (σ.user u).mqueue with
        mMessages := (σ.user u).mqueue.mMessages.tail } })
  | count {u a} (mAvail : ℕ) : a = .post ∨ a = .wait → Effect σ i (.queue u a)
      (σ.setUser u { σ.user u with mqueue := { (σ.user u).mqueue with mAvail } })

namespace Shared

@[simp] theorem setOwner_owner (σ : Shared) (l : Lock) (o : Option Sid) :
    (σ.setOwner l o).owner = Function.update σ.owner l o := by
  funext k
  cases l with
  | registry => cases k <;> simp [setOwner, owner]
  | room r =>
    cases k with
    | room q => by_cases hq : q = r <;> simp [setOwner, setRoom, owner, hq]
    | _ => simp [setOwner, setRoom, owner]
  | queue u =>
    cases k with
    | queue v => by_cases hv : v = u <;> simp [setOwner, setUser, owner, hv]
    | _ => simp [setOwner, setUser, owner]

/-- A room that keeps its lock leaves every owner as it is. -/
theorem setRoom_owner {σ : Shared} {r : RoomId} {room : Room} (h : room.lock = (σ.room r).lock) :
    (σ.setRoom r room).owner = σ.owner := by
  funext l
  cases l with
  | room q =>
    by_cases hq : q = r
    · subst hq
      simp [owner, setRoom, h]
    · simp [owner, setRoom, hq]
  | _ => rfl

theorem setUser_owner {σ : Shared} {u : Sid} {user : User}
    (h : user.mqueue.mLock = (σ.user u).mqueue.mLock) : (σ.setUser u user).owner = σ.owner := by
  funext l
  cases l with
  | queue v =>
    by_cases hv : v = u
    · subst hv
      simp [owner, setUser, h]
    · simp [owner, setUser, hv]
  | _ => rfl

@[simp] theorem setOwner_mRooms (σ : Shared) (l : Lock) (o : Option Sid) :
    (σ.setOwner l o).mRooms = σ.mRooms := by
  cases l <;> rfl

@[simp] theorem setOwner_nRooms (σ : Shared) (l : Lock) (o : Option Sid) :
    (σ.setOwner l o).nRooms = σ.nRooms := by
  cases l <;> rfl

@[simp] theorem setOwner_members (σ : Shared) (l : Lock) (o : Option Sid) (r : RoomId) :
    ((σ.setOwner l o).room r).members = (σ.room r).members := by
  cases l with
  | room q => by_cases hr : r = q <;> simp [setOwner, setRoom, hr]
  | _ => rfl

@[simp] theorem setOwner_roomName (σ : Shared) (l : Lock) (o : Option Sid) (r : RoomId) :
    ((σ.setOwner l o).room r).roomName = (σ.room r).roomName := by
  cases l with
  | room q => by_cases hr : r = q <;> simp [setOwner, setRoom, hr]
  | _ => rfl

@[simp] theorem setOwner_username (σ : Shared) (l : Lock) (o : Option Sid) (u : Sid) :
    ((σ.setOwner l o).user u).username = (σ.user u).username := by
  cases l with
  | queue v => by_cases hu : u = v <;> simp [setOwner, setUser, hu]
  | _ => rfl

@[simp] theorem setOwner_mMessages (σ : Shared) (l : Lock) (o : Option Sid) (u : Sid) :
    ((σ.setOwner l o).user u).mqueue.mMessages = (σ.user u).mqueue.mMessages := by
  cases l with
  | queue v => by_cases hu : u = v <;> simp [setOwner, setUser, hu]
  | _ => rfl

variable {σ σ' : Shared} {i : Sid} {a : Action}

private theorem queue_effect {u : Sid} {a : QueueAction Message}
    (h : σ.apply i (.queue u a) = some σ') : Effect σ i (.queue u a) σ' := by
  obtain ⟨q, hq, rfl⟩ : ∃ q, (σ.user u).mqueue.apply i a = some q ∧
      σ.setUser u { σ.user u with mqueue := q } = σ' := by
    simpa [apply, Option.bind_eq_some_iff] using h
  cases a with
  | lock =>
    obtain ⟨hfree, rfl⟩ := by simpa [MessageQueue.apply] using hq
    exact .acquire (show Action.acquires _ = some (.queue u) from rfl) hfree
  | push msg =>
    obtain rfl := by simpa [MessageQueue.apply] using hq
    exact .push u msg
  | post =>
    obtain rfl := by simpa [MessageQueue.apply] using hq
    exact .count _ (.inl rfl)
  | unlock =>
    obtain rfl := by simpa [MessageQueue.apply] using hq
    exact .release (show Action.releases _ = some (.queue u) from rfl)
  | wait =>
    obtain ⟨-, rfl⟩ := by simpa [MessageQueue.apply] using hq
    exact .count _ (.inr rfl)
  | timeout =>
    obtain rfl := by simpa [MessageQueue.apply] using hq
    simpa [setUser] using @Effect.keep σ i (.queue u .timeout) rfl
  | pop msg =>
    obtain rfl := by simpa [MessageQueue.apply] using hq
    exact .pop u msg
  | ret msg =>
    obtain rfl := by simpa [MessageQueue.apply] using hq
    exact .release (show Action.releases _ = some (.queue u) from rfl)

theorem effect_of_apply (h : σ.apply i a = some σ') : Effect σ i a σ' := by
  cases a with
  | lock l =>
    obtain ⟨hfree, rfl⟩ := by simpa [apply] using h
    exact .acquire rfl hfree
  | unlock l =>
    obtain rfl := by simpa [apply] using h
    exact .release rfl
  | newUser username =>
    obtain rfl := by simpa [apply] using h
    exact .newUser username
  | findOrCreateRoom roomName r =>
    cases hname : σ.mRooms roomName with
    | some r' =>
      obtain rfl := by simpa [apply, hname] using h
      exact .find hname
    | none =>
      obtain rfl := by simpa [apply, hname] using h
      exact .create r hname
  | insert r =>
    obtain rfl := by simpa [apply] using h
    exact .insert r
  | erase r =>
    obtain rfl := by simpa [apply] using h
    exact .erase r
  | broadcast r sender text =>
    obtain ⟨hfree, rfl⟩ := by simpa [apply] using h
    exact .acquire rfl hfree
  | visit r u msg =>
    cases msg with
    | none =>
      obtain rfl := by simpa [apply] using h
      exact .keep rfl
    | some msg =>
      obtain rfl := by simpa [apply] using h
      exact .rename r u msg
  | queue u a => exact queue_effect h
  | _ =>
    obtain rfl := by simpa [apply] using h
    exact .keep rfl

theorem Effect.of_quiet (h : Effect σ i a σ') (hquiet : a.quiet = true) : σ' = σ := by
  cases h with
  | keep => rfl
  | acquire hl => cases (Action.quiet_locks hquiet).1.symm.trans hl
  | release hl => cases (Action.quiet_locks hquiet).2.symm.trans hl
  | count _ ha => rcases ha with rfl | rfl <;> cases hquiet
  | _ => cases hquiet

/-- The registry only grows, by a name and the address of its new room. -/
theorem Effect.registry (h : Effect σ i a σ') :
    (σ'.mRooms = σ.mRooms ∧ σ'.nRooms = σ.nRooms ∧
      ∀ roomName r, a = .findOrCreateRoom roomName r → σ.mRooms roomName ≠ none) ∨
    ∃ roomName r, a = .findOrCreateRoom roomName r ∧ σ.mRooms roomName = none ∧
      σ'.mRooms = Function.update σ.mRooms roomName (some r) ∧ σ'.nRooms = σ.nRooms + 1 ∧
      (σ'.room r).roomName = roomName := by
  cases h with
  | create r hname => exact .inr ⟨_, r, rfl, hname, rfl, rfl, by simp [setRoom]⟩
  | find hname =>
    refine .inl ⟨rfl, rfl, fun n r hn => ?_⟩
    cases hn
    simp [hname]
  | keep hq =>
    refine .inl ⟨rfl, rfl, fun n r hn => ?_⟩
    simp [hn, Action.quiet] at hq
  | acquire hl =>
    refine .inl ⟨setOwner_mRooms _ _ _, setOwner_nRooms _ _ _, fun n r hn => ?_⟩
    simp [hn, Action.acquires] at hl
  | release hl =>
    refine .inl ⟨setOwner_mRooms _ _ _, setOwner_nRooms _ _ _, fun n r hn => ?_⟩
    simp [hn, Action.releases] at hl
  | _ => exact .inl ⟨rfl, rfl, nofun⟩

theorem Effect.mRooms_mono (h : Effect σ i a σ') {roomName : Bytes} {r : RoomId}
    (hr : σ.mRooms roomName = some r) : σ'.mRooms roomName = some r := by
  rcases h.registry with ⟨hm, -, -⟩ | ⟨n, q, -, hnone, hm, -⟩
  · rw [hm, hr]
  · have hne : roomName ≠ n := fun hn => by simp [hn, hnone] at hr
    rw [hm, Function.update_of_ne hne, hr]

/-- A room changes only by actions on it. -/
theorem Effect.room_frame (h : Effect σ i a σ') {r : RoomId} (hr : a.room ≠ some r)
    (hnew : ∀ roomName, a = .findOrCreateRoom roomName r → σ.mRooms roomName ≠ none) :
    σ'.room r = σ.room r := by
  cases h with
  | acquire hl =>
    cases a with
    | lock l =>
      obtain rfl := Option.some.inj hl
      cases l <;> simp [setOwner, setRoom, setUser, Action.room] at hr ⊢
      simp [Ne.symm hr]
    | broadcast q =>
      obtain rfl := Option.some.inj hl
      simp [setOwner, setRoom, Action.room] at hr ⊢
      simp [Ne.symm hr]
    | queue u a =>
      cases a <;> simp [Action.acquires] at hl
      subst hl
      rfl
    | _ => simp [Action.acquires] at hl
  | release hl =>
    cases a with
    | unlock l =>
      obtain rfl := Option.some.inj hl
      cases l <;> simp [setOwner, setRoom, setUser, Action.room] at hr ⊢
      simp [Ne.symm hr]
    | queue u a =>
      cases a <;> simp [Action.releases] at hl <;> (subst hl; rfl)
    | _ => simp [Action.releases] at hl
  | create q hname =>
    have hq : r ≠ q := fun hq => hnew _ (by rw [hq]) hname
    simp [setRoom, hq]
  | insert q =>
    have hq : q ≠ r := by simpa [Action.room] using hr
    simp [setRoom, Ne.symm hq]
  | erase q =>
    have hq : q ≠ r := by simpa [Action.room] using hr
    simp [setRoom, Ne.symm hq]
  | rename q =>
    have hq : q ≠ r := by simpa [Action.room] using hr
    simp [setRoom, Ne.symm hq]
  | _ => rfl

/-- A user changes only by actions on it. -/
theorem Effect.user_frame (h : Effect σ i a σ') {u : Sid} (hu : a.user i ≠ some u) :
    σ'.user u = σ.user u := by
  cases h with
  | acquire hl =>
    cases a with
    | lock l =>
      obtain rfl := Option.some.inj hl
      cases l <;> simp [setOwner, setRoom, setUser, Action.user] at hu ⊢
      simp [Ne.symm hu]
    | broadcast q =>
      obtain rfl := Option.some.inj hl
      rfl
    | queue v a =>
      cases a <;> simp [Action.acquires, Action.user] at hl hu
      subst hl
      simp [setOwner, setUser, Ne.symm hu]
    | _ => simp [Action.acquires] at hl
  | release hl =>
    cases a with
    | unlock l =>
      obtain rfl := Option.some.inj hl
      cases l <;> simp [setOwner, setRoom, setUser, Action.user] at hu ⊢
      simp [Ne.symm hu]
    | queue v a =>
      cases a <;> simp [Action.releases, Action.user] at hl hu <;>
        (subst hl; simp [setOwner, setUser, Ne.symm hu])
    | _ => simp [Action.releases] at hl
  | newUser =>
    have hv : i ≠ u := by simpa [Action.user] using hu
    simp [setUser, Ne.symm hv]
  | push v =>
    have hv : v ≠ u := by simpa [Action.user] using hu
    simp [setUser, Ne.symm hv]
  | pop v =>
    have hv : v ≠ u := by simpa [Action.user] using hu
    simp [setUser, Ne.symm hv]
  | @count v =>
    have hv : v ≠ u := by simpa [Action.user] using hu
    simp [setUser, Ne.symm hv]
  | _ => rfl

/-- A lock changes hands only by an action that takes or releases it, as long as new objects
come with free locks. -/
theorem Effect.owner (h : Effect σ i a σ')
    (hroom : ∀ roomName r, a = .findOrCreateRoom roomName r → σ.mRooms roomName = none →
      (σ.room r).lock = none)
    (hnew : ∀ username, a = .newUser username → (σ.user i).mqueue.mLock = none) :
    (∀ l, a.acquires = some l → σ.owner l = none ∧
      σ'.owner = Function.update σ.owner l (some i)) ∧
    (∀ l, a.releases = some l → σ'.owner = Function.update σ.owner l none) ∧
    (a.acquires = none → a.releases = none → σ'.owner = σ.owner) := by
  have hkeep : a.acquires = none → a.releases = none → σ'.owner = σ.owner →
      (∀ l, a.acquires = some l → σ.owner l = none ∧
        σ'.owner = Function.update σ.owner l (some i)) ∧
      (∀ l, a.releases = some l → σ'.owner = Function.update σ.owner l none) ∧
      (a.acquires = none → a.releases = none → σ'.owner = σ.owner) := fun hacq hrel howner =>
    ⟨fun l hl => by simp [hacq] at hl, fun l hl => by simp [hrel] at hl, fun _ _ => howner⟩
  cases h with
  | keep hq =>
    obtain ⟨hacq, hrel⟩ := Action.quiet_locks hq
    exact hkeep hacq hrel rfl
  | @acquire _ l hl hfree =>
    refine ⟨fun k hk => ?_, fun k hk => ?_, fun hnone => ?_⟩
    · obtain rfl : l = k := by simpa [hl] using hk
      exact ⟨hfree, setOwner_owner _ _ _⟩
    · simp [Action.releases_of_acquires hl] at hk
    · simp [hl] at hnone
  | @release _ l hl =>
    refine ⟨fun k hk => ?_, fun k hk => ?_, fun _ hnone => ?_⟩
    · simp [Action.releases_of_acquires hk] at hl
    · obtain rfl : l = k := by simpa [hl] using hk
      exact setOwner_owner _ _ _
    · simp [hl] at hnone
  | newUser username => exact hkeep rfl rfl (setUser_owner (hnew username rfl).symm)
  | find => exact hkeep rfl rfl rfl
  | create r hname => exact hkeep rfl rfl (setRoom_owner (hroom _ r rfl hname).symm)
  | insert | erase | rename => exact hkeep rfl rfl (setRoom_owner rfl)
  | push | pop => exact hkeep rfl rfl (setUser_owner rfl)
  | count _ ha => rcases ha with rfl | rfl <;> exact hkeep rfl rfl (setUser_owner rfl)

/-- Only `insert` and `erase` change a set of members, by the acting thread's own user. -/
theorem Effect.members (h : Effect σ i a σ') {r : RoomId}
    (hr : ∀ roomName, a = .findOrCreateRoom roomName r → σ.mRooms roomName = none →
      (σ.room r).members = ∅) (u : Sid) :
    u ∈ (σ'.room r).members ↔
      u = i ∧ a = .insert r ∨ u ∈ (σ.room r).members ∧ ¬ (u = i ∧ a = .erase r) := by
  cases h with
  | keep hq => cases a <;> simp [Action.quiet] at hq ⊢
  | acquire hl => cases a <;> simp [Action.acquires] at hl ⊢
  | release hl => cases a <;> simp [Action.releases] at hl ⊢
  | create q hname =>
    by_cases hq : r = q
    · subst hq
      simp [setRoom, hr _ rfl hname]
    · simp [setRoom, hq]
  | insert q =>
    by_cases hq : r = q
    · subst hq
      simp [setRoom]
    · simp [setRoom, hq, Ne.symm hq]
  | erase q =>
    by_cases hq : r = q
    · subst hq
      simp [setRoom, and_comm]
    · simp [setRoom, hq, Ne.symm hq]
  | rename q =>
    by_cases hq : r = q
    · subst hq
      simp [setRoom]
    · simp [setRoom, hq]
  | _ => simp [setUser]

/-- Broadcasts shorten the name of a room by what follows a newline, no more. -/
theorem Effect.roomName (h : Effect σ i a σ') {r : RoomId}
    (hr : ∀ roomName, a = .findOrCreateRoom roomName r → σ.mRooms roomName ≠ none) :
    removeNewline (σ'.room r).roomName = removeNewline (σ.room r).roomName := by
  cases h with
  | acquire => simp
  | release => simp
  | create q hname =>
    have hq : r ≠ q := fun hq => hr _ (by rw [hq]) hname
    simp [setRoom, hq]
  | insert q => by_cases hq : r = q <;> simp [setRoom, hq]
  | erase q => by_cases hq : r = q <;> simp [setRoom, hq]
  | rename q => by_cases hq : r = q <;> simp [setRoom, hq]
  | _ => rfl

/-- A username is set once, by the session itself. -/
theorem Effect.username (h : Effect σ i a σ') {u : Sid}
    (hnew : ∀ username, a = .newUser username → u ≠ i) :
    (σ'.user u).username = (σ.user u).username := by
  cases h with
  | newUser username => simp [setUser, hnew username rfl]
  | acquire => simp
  | release => simp
  | push v => by_cases hu : u = v <;> simp [setUser, hu]
  | pop v => by_cases hu : u = v <;> simp [setUser, hu]
  | @count v => by_cases hu : u = v <;> simp [setUser, hu]
  | _ => rfl

/-- A queue changes by the pushes and pops on it. -/
theorem Effect.mMessages (h : Effect σ i a σ') (u : Sid)
    (hnew : ∀ username, a = .newUser username → (σ.user i).mqueue.mMessages = []) :
    (σ'.user u).mqueue.mMessages = match a with
      | .queue v (.push msg) =>
        if v = u then (σ.user u).mqueue.mMessages ++ [msg] else (σ.user u).mqueue.mMessages
      | .queue v (.pop _) =>
        if v = u then (σ.user u).mqueue.mMessages.tail else (σ.user u).mqueue.mMessages
      | _ => (σ.user u).mqueue.mMessages := by
  cases h with
  | keep hq =>
    cases a with
    | queue v b => cases b <;> first | rfl | cases hq
    | _ => rfl
  | @acquire a l hl =>
    cases a with
    | queue v b =>
      cases b with
      | push | pop => cases hl
      | _ => simp
    | _ => simp
  | @release a l hl =>
    cases a with
    | queue v b =>
      cases b with
      | push | pop => cases hl
      | _ => simp
    | _ => simp
  | newUser username =>
    by_cases hu : u = i
    · subst hu
      simp [setUser, hnew username rfl]
    · simp [setUser, hu]
  | push v msg | pop v msg =>
    by_cases hv : v = u
    · subst hv
      simp [setUser]
    · simp [setUser, hv, Ne.symm hv]
  | @count v b n hb =>
    have hsame : ((σ.setUser v { σ.user v with
        mqueue := { (σ.user v).mqueue with mAvail := n } }).user u).mqueue.mMessages =
        (σ.user u).mqueue.mMessages := by
      by_cases hv : u = v
      · subst hv
        simp [setUser]
      · simp [setUser, hv]
    rcases hb with rfl | rfl <;> exact hsame
  | _ => rfl

theorem Effect.newUser_name {username : Bytes} (h : Effect σ i (.newUser username) σ') :
    (σ'.user i).username = username := by
  cases h with
  | keep hq => cases hq
  | acquire hl => cases hl
  | release hl => cases hl
  | newUser => simp [setUser]

end Shared
end Chat
