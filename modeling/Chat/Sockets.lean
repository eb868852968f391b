import Chat.Descriptor
import Mathlib.Data.Finset.Basic
import Mathlib.Data.Set.Finite.Basic

/-! `open_clientfd` and `open_listenfd` of `csapp.c`, with the descriptors and address lists that the
process holds. -/
namespace Chat

/-- What `close` returns: where it fails, with the text for `errno`, the descriptor may be gone or not. -/
inductive CloseResult
  | done
  | failed (gone : Bool) (error : Bytes)

/-- How the system answers the calls for one address of a list; `attached` is for `connect` or `bind`. -/
structure Address where
  socket : Bool
  attached : Bool
  close : CloseResult

/-- The open descriptors of a process, the number of address lists that it has not freed, and its
standard error. -/
structure Process where
  opened : Finset ℕ
  lists : ℕ := 0
  stderr : Bytes := []

namespace Process

/-- `socket` gives the lowest descriptor that is not open. -/
def lowest (pr : Process) : ℕ := Nat.find (Infinite.exists_notMem_finset pr.opened)

def openFd (pr : Process) : Process := { pr with opened := insert pr.lowest pr.opened }

def cerr (pr : Process) (text : Bytes) : Process := { pr with stderr := pr.stderr ++ text }

def close (pr : Process) (fd : ℕ) : CloseResult → Process
  | .done | .failed true _ => { pr with opened := pr.opened.erase fd }
  | .failed false _ => pr

def getaddrinfo (pr : Process) : Process := { pr with lists := pr.lists + 1 }

def freeaddrinfo (pr : Process) : Process := { pr with lists := pr.lists - 1 }

theorem lowest_notMem (pr : Process) : pr.lowest ∉ pr.opened :=
  Nat.find_spec (Infinite.exists_notMem_finset pr.opened)

/-- A descriptor that is closed again can be had again. -/
theorem close_openFd (pr : Process) : pr.openFd.close pr.lowest .done = pr := by
  obtain ⟨opened, lists, stderr⟩ := pr
  simp only [close, openFd]
  rw [Finset.erase_insert (lowest_notMem ⟨opened, lists, stderr⟩)]

end Process

/-- How the loop over the addresses ends: with `return -1`, at the end of the list, or by `break`. -/
inductive Walk
  | closeFailed
  | exhausted
  | found (fd : ℕ)
  deriving DecidableEq

/-- The loop over the addresses, with the text of its error message. -/
def walk (closeFailed : Bytes) (pr : Process) : List Address → Walk × Process
  | [] => (.exhausted, pr)
  | p :: ps =>
    if p.socket then
      let fd := pr.lowest
      let pr := pr.openFd
      if p.attached then (.found fd, pr)
      else match p.close with
        | .done => walk closeFailed (pr.close fd .done) ps
        | .failed gone error =>
          (.closeFailed, (pr.close fd (.failed gone error)).cerr (closeFailed ++ error ++ str "\n"))
    else walk closeFailed pr ps

/-- What the two functions share; `finish` is what is done with a descriptor that was found. -/
def openAddress (resolveFailed closeFailed : Bytes) (finish : ℕ → Process → Int × Process) (pr : Process) :
    Except Bytes (List Address) → Int × Process
  | .error error => (-2, pr.cerr (resolveFailed ++ error ++ str "\n"))
  | .ok listp =>
    match walk closeFailed pr.getaddrinfo listp with
    | (.closeFailed, pr) => (-1, pr)
    | (.exhausted, pr) => (-1, pr.freeaddrinfo)
    | (.found fd, pr) => finish fd pr.freeaddrinfo

/-- `open_clientfd`; the list, or an error of `getaddrinfo`, is what the name leads to. -/
def openClientfd (hostname port : Bytes) : Process → Except Bytes (List Address) → Int × Process :=
  openAddress (str "getaddrinfo failed (" ++ hostname ++ str ":" ++ port ++ str "): ")
    (str "open_clientfd: close failed: ") fun fd pr => (fd, pr)

/-- `open_listenfd`, with the results of `listen` and of the `close` where `listen` has failed. -/
def openListenfd (port : Bytes) (listens : Bool) (close : CloseResult) :
    Process → Except Bytes (List Address) → Int × Process :=
  openAddress (str "getaddrinfo failed (port " ++ port ++ str "): ")
    (str "open_listenfd close failed: ") fun fd pr =>
      if listens then (fd, pr) else (-1, pr.close fd close)

/-- The loop goes on after the address. -/
def Address.Passed (p : Address) : Prop := p.socket = false ∨ p.attached = false ∧ p.close = .done

/-- The `close` after a failure fails as well. -/
def Address.Stuck (p : Address) : Prop :=
  p.socket = true ∧ p.attached = false ∧ p.close ≠ .done

def Address.Works (p : Address) : Prop := p.socket = true ∧ p.attached = true

/-- The loop comes to an address that is `P`. -/
def Meets (P : Address → Prop) (listp : List Address) : Prop :=
  ∃ pre p post, listp = pre ++ p :: post ∧ (∀ q ∈ pre, q.Passed) ∧ P p

theorem meets_cons {P : Address → Prop} {p : Address} {ps : List Address} :
    Meets P (p :: ps) ↔ P p ∨ p.Passed ∧ Meets P ps := by
  constructor
  · rintro ⟨pre, q, post, heq, hpre, hq⟩
    cases pre with
    | nil =>
      obtain ⟨rfl, rfl⟩ := List.cons.inj heq
      exact .inl hq
    | cons p' pre =>
      obtain ⟨rfl, rfl⟩ := List.cons.inj heq
      exact .inr ⟨hpre p List.mem_cons_self, pre, q, post, rfl,
        fun q' hq' => hpre q' (List.mem_cons_of_mem _ hq'), hq⟩
  · rintro (hp | ⟨hp, pre, q, post, rfl, hpre, hq⟩)
    · exact ⟨[], p, ps, rfl, nofun, hp⟩
    · exact ⟨p :: pre, q, post, rfl, List.forall_mem_cons.mpr ⟨hp, hpre⟩, hq⟩

variable {text : Bytes} {pr : Process} {listp : List Address} {p : Address} {ps : List Address}

/-- An address that the loop passes leaves the process as it was. -/
private theorem walk_passed (h : p.Passed) : walk text pr (p :: ps) = walk text pr ps := by
  rcases h with hsocket | ⟨hattached, hclose⟩
  · simp [walk, hsocket]
  · cases hsocket : p.socket with
    | false => simp [walk, hsocket]
    | true => simp [walk, hsocket, hattached, hclose, Process.close_openFd]

theorem walk_exhausted (h : ∀ p ∈ listp, p.Passed) : walk text pr listp = (.exhausted, pr) := by
  induction listp with
  | nil => rfl
  | cons p ps ih =>
    rw [walk_passed (h p List.mem_cons_self)]
    exact ih fun q hq => h q (List.mem_cons_of_mem _ hq)

private theorem walk_meets {P : Address → Prop} {r : Walk × Process} (h : Meets P listp)
    (hP : ∀ p ps, P p → walk text pr (p :: ps) = r) : walk text pr listp = r := by
  induction listp with
  | nil =>
    obtain ⟨pre, p, post, heq, -⟩ := h
    simp at heq
  | cons p ps ih =>
    rcases meets_cons.mp h with hp | ⟨hp, hps⟩
    · exact hP p ps hp
    · rw [walk_passed hp]
      exact ih hps

/-- The descriptor that the loop breaks with is the one that the first attempt would have had. -/
theorem walk_works (h : Meets Address.Works listp) :
    walk text pr listp = (.found pr.lowest, pr.openFd) :=
  walk_meets h fun p ps ⟨hsocket, hattached⟩ => by simp [walk, hsocket, hattached]

theorem walk_stuck (h : Meets Address.Stuck listp) :
    ∃ pr', walk text pr listp = (.closeFailed, pr') ∧ pr'.lists = pr.lists := by
  obtain ⟨pre, p, post, rfl, hpre, hsocket, hattached, hclose⟩ := h
  induction pre with
  | nil =>
    cases hp : p.close with
    | done => exact absurd hp hclose
    | failed gone error =>
      refine ⟨(pr.openFd.close pr.lowest (.failed gone error)).cerr (text ++ error ++ str "\n"), ?_, ?_⟩
      · simp [walk, hsocket, hattached, hp]
      · cases gone <;> rfl
  | cons q pre ih =>
    rw [List.cons_append, walk_passed (hpre q List.mem_cons_self)]
    exact ih fun q' hq' => hpre q' (List.mem_cons_of_mem _ hq')

theorem meets_cases (listp : List Address) :
    (∀ p ∈ listp, p.Passed) ∨ Meets Address.Works listp ∨ Meets Address.Stuck listp := by
  induction listp with
  | nil => exact .inl nofun
  | cons p ps ih =>
    rw [List.forall_mem_cons, meets_cons, meets_cons]
    have hp : p.Passed ∨ p.Works ∨ p.Stuck := by
      unfold Address.Passed Address.Works Address.Stuck
      cases p.socket <;> cases p.attached <;> simp [em]
    tauto

/-- The process holds after a call what it held before, and the descriptor that the call returned. -/
structure Accounts (pr pr' : Process) (fd : Int) : Prop where
  lists : pr'.lists = pr.lists
  opened : pr'.opened = if fd < 0 then pr.opened else insert fd.toNat pr.opened
  fresh : 0 ≤ fd → fd.toNat ∉ pr.opened

theorem Accounts.failed {pr' : Process} {fd : Int} (hfd : fd < 0) (hlists : pr'.lists = pr.lists)
    (hopened : pr'.opened = pr.opened) : Accounts pr pr' fd :=
  ⟨hlists, by rw [if_pos hfd, hopened], fun h => absurd hfd (not_lt.mpr h)⟩

/-- The ways through the two functions, but for what `finish` does. -/
theorem openAddress_cases (resolveFailed closeFailed : Bytes) (finish : ℕ → Process → Int × Process)
    (pr : Process) (addresses : Except Bytes (List Address)) :
    (∃ fd pr', openAddress resolveFailed closeFailed finish pr addresses = (fd, pr') ∧ fd < 0 ∧
        pr'.lists = pr.lists ∧ pr'.opened = pr.opened ∧
        ∀ listp, addresses = .ok listp → ∀ p ∈ listp, p.Passed) ∨
      (∃ listp, addresses = .ok listp ∧ Meets Address.Works listp ∧
        openAddress resolveFailed closeFailed finish pr addresses = finish pr.lowest pr.openFd) ∨
      ∃ listp pr', addresses = .ok listp ∧ Meets Address.Stuck listp ∧
        openAddress resolveFailed closeFailed finish pr addresses = (-1, pr') ∧
        pr'.lists = pr.lists + 1 := by
  cases addresses with
  | error error => exact .inl ⟨-2, _, rfl, by decide, rfl, rfl, nofun⟩
  | ok listp =>
    rcases meets_cases listp with h | h | h
    · refine .inl ⟨-1, pr, ?_, by decide, rfl, rfl, fun l heq => Except.ok.inj heq ▸ h⟩
      rw [openAddress, walk_exhausted h]
      rfl
    · refine .inr (.inl ⟨listp, rfl, h, ?_⟩)
      rw [openAddress, walk_works h]
      rfl
    · obtain ⟨pr', hwalk, hlists⟩ := @walk_stuck closeFailed pr.getaddrinfo listp h
      exact .inr (.inr ⟨listp, pr', rfl, h, by rw [openAddress, hwalk], hlists⟩)

theorem Meets.not_passed (h : Meets Address.Works listp ∨ Meets Address.Stuck listp) :
    ¬ ∀ p ∈ listp, p.Passed := by
  intro hall
  rcases h with ⟨pre, p, post, rfl, -, hsocket, hattached⟩ | ⟨pre, p, post, rfl, -, hsocket, -, hclose⟩
  · rcases hall p (by simp) with hp | ⟨hp, -⟩
    · simp [hsocket] at hp
    · simp [hattached] at hp
  · rcases hall p (by simp) with hp | ⟨-, hp⟩
    · simp [hsocket] at hp
    · exact hclose hp

theorem Meets.not_stuck (h : Meets Address.Works listp) : ¬ Meets Address.Stuck listp := by
  intro hstuck
  obtain ⟨pr', heq, -⟩ := @walk_stuck [] { opened := ∅ } listp hstuck
  simp [@walk_works [] { opened := ∅ } listp h] at heq

theorem accounts_openFd (pr : Process) : Accounts pr pr.openFd pr.lowest :=
  ⟨rfl, by simp [Process.openFd], fun _ => pr.lowest_notMem⟩

/-- A descriptor that was opened is given back unless its `close` leaves it open. -/
private theorem accounts_close (pr : Process) (close : CloseResult) :
    Accounts pr (pr.openFd.close pr.lowest close) (-1) ↔ ∀ error, close ≠ .failed false error := by
  have hback : (pr.openFd.close pr.lowest .done).opened = pr.opened := by rw [pr.close_openFd]
  cases close with
  | done => exact iff_of_true (.failed (by decide) rfl hback) nofun
  | failed gone error =>
    cases gone with
    | true => exact iff_of_true (.failed (by decide) rfl hback) nofun
    | false =>
      refine iff_of_false (fun haccounts => ?_) fun h => h error rfl
      have hopened : insert pr.lowest pr.opened = pr.opened := haccounts.opened
      exact pr.lowest_notMem (hopened ▸ Finset.mem_insert_self _ _)

/-- A list that stays is not accounted for. -/
private theorem not_accounts {pr' : Process} {fd : Int} (h : pr'.lists = pr.lists + 1) :
    ¬ Accounts pr pr' fd := fun haccounts => by
  have hlists := haccounts.lists
  omega

/-- Where an address works, its descriptor is what the process gets, and else it gets none. -/
theorem openAddress_iff (resolveFailed closeFailed : Bytes) (finish : ℕ → Process → Int × Process)
    (pr : Process) (addresses : Except Bytes (List Address)) :
    (∃ listp, addresses = .ok listp ∧ Meets Address.Works listp) ∧
        openAddress resolveFailed closeFailed finish pr addresses = finish pr.lowest pr.openFd ∨
      (¬ ∃ listp, addresses = .ok listp ∧ Meets Address.Works listp) ∧
        (openAddress resolveFailed closeFailed finish pr addresses).1 < 0 := by
  rcases openAddress_cases resolveFailed closeFailed finish pr addresses with
    ⟨fd, pr', heq, hfd, -, -, hall⟩ | ⟨listp, rfl, hworks, heq⟩ | ⟨listp, pr', rfl, hstuck, heq, -⟩
  · refine .inr ⟨?_, by rwa [heq]⟩
    rintro ⟨listp, hlistp, hworks⟩
    exact Meets.not_passed (.inl hworks) (hall listp hlistp)
  · exact .inl ⟨⟨listp, rfl, hworks⟩, heq⟩
  · refine .inr ⟨?_, by simp [heq]⟩
    rintro ⟨l, hl, hworks⟩
    obtain rfl := Except.ok.inj hl
    exact hworks.not_stuck hstuck

/-- `open_clientfd` returns a descriptor just if an address that works comes before one that it gets
stuck on, and all that it opened besides has been given back just if it got stuck on none. -/
theorem openClientfd_accounts (hostname port : Bytes) (pr : Process)
    (addresses : Except Bytes (List Address)) :
    (0 ≤ (openClientfd hostname port pr addresses).1 ↔
      ∃ listp, addresses = .ok listp ∧ Meets Address.Works listp) ∧
    (Accounts pr (openClientfd hostname port pr addresses).2 (openClientfd hostname port pr addresses).1 ↔
      ∀ listp, addresses = .ok listp → ¬ Meets Address.Stuck listp) := by
  unfold openClientfd
  rcases openAddress_cases (str "getaddrinfo failed (" ++ hostname ++ str ":" ++ port ++ str "): ")
    (str "open_clientfd: close failed: ") (fun fd pr => (fd, pr)) pr addresses with
    ⟨fd, pr', heq, hfd, hlists, hopened, hall⟩ | ⟨listp, rfl, hworks, heq⟩ |
    ⟨listp, pr', rfl, hstuck, heq, hlists⟩
  · rw [heq]
    refine ⟨iff_of_false (not_le.mpr hfd) ?_, iff_of_true (.failed hfd hlists hopened) ?_⟩
    · rintro ⟨listp, hlistp, hworks⟩
      exact Meets.not_passed (.inl hworks) (hall listp hlistp)
    · exact fun listp hlistp hstuck => Meets.not_passed (.inr hstuck) (hall listp hlistp)
  · rw [heq]
    refine ⟨iff_of_true (Int.natCast_nonneg _) ⟨listp, rfl, hworks⟩, iff_of_true (accounts_openFd pr) ?_⟩
    exact fun l hl => Except.ok.inj hl ▸ hworks.not_stuck
  · rw [heq]
    refine ⟨iff_of_false (by simp) ?_, iff_of_false (not_accounts hlists) fun h => h listp rfl hstuck⟩
    rintro ⟨l, hl, hworks⟩
    obtain rfl := Except.ok.inj hl
    exact hworks.not_stuck hstuck

/-- `open_listenfd` needs `listen` to succeed as well; where it fails, the descriptor is lost just if it
cannot be closed. -/
theorem openListenfd_accounts (port : Bytes) (listens : Bool) (close : CloseResult) (pr : Process)
    (addresses : Except Bytes (List Address)) :
    (0 ≤ (openListenfd port listens close pr addresses).1 ↔
      listens = true ∧ ∃ listp, addresses = .ok listp ∧ Meets Address.Works listp) ∧
    (Accounts pr (openListenfd port listens close pr addresses).2
        (openListenfd port listens close pr addresses).1 ↔
      ∀ listp, addresses = .ok listp → ¬ Meets Address.Stuck listp ∧
        (Meets Address.Works listp → listens = false → ∀ error, close ≠ .failed false error)) := by
  unfold openListenfd
  rcases openAddress_cases (str "getaddrinfo failed (port " ++ port ++ str "): ")
    (str "open_listenfd close failed: ")
    (fun fd pr => if listens then (fd, pr) else (-1, pr.close fd close)) pr addresses with
    ⟨fd, pr', heq, hfd, hlists, hopened, hall⟩ | ⟨listp, rfl, hworks, heq⟩ |
    ⟨listp, pr', rfl, hstuck, heq, hlists⟩
  · rw [heq]
    refine ⟨iff_of_false (not_le.mpr hfd) ?_, iff_of_true (.failed hfd hlists hopened) ?_⟩
    · rintro ⟨-, listp, hlistp, hworks⟩
      exact Meets.not_passed (.inl hworks) (hall listp hlistp)
    · intro listp hlistp
      exact ⟨fun hstuck => Meets.not_passed (.inr hstuck) (hall listp hlistp),
        fun hworks => absurd (hall listp hlistp) (Meets.not_passed (.inl hworks))⟩
  · rw [heq]
    cases listens with
    | true =>
      refine ⟨iff_of_true (Int.natCast_nonneg _) ⟨rfl, listp, rfl, hworks⟩, ?_⟩
      refine iff_of_true (accounts_openFd pr) fun l hl => ?_
      obtain rfl := Except.ok.inj hl
      exact ⟨hworks.not_stuck, fun _ h => by cases h⟩
    | false =>
      refine ⟨iff_of_false (by simp) fun h => Bool.false_ne_true h.1, ?_⟩
      refine (accounts_close pr close).trans ⟨fun h l hl => ?_, fun h => (h listp rfl).2 hworks rfl⟩
      obtain rfl := Except.ok.inj hl
      exact ⟨hworks.not_stuck, fun _ _ => h⟩
  · rw [heq]
    refine ⟨iff_of_false (by simp) ?_, iff_of_false (not_accounts hlists) fun h => (h listp rfl).1 hstuck⟩
    rintro ⟨-, l, hl, hworks⟩
    obtain rfl := Except.ok.inj hl
    exact hworks.not_stuck hstuck

end Chat
