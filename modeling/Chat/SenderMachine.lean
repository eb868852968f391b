import Chat.Requests

/-! What a sender session is for: a machine that is outside all rooms or in the room of a name,
and does for each message what can be seen of it. -/
namespace Chat

inductive Phase
  | outside
  | inside (roomName : Bytes)
  | ended
  deriving DecidableEq

/-- What can be seen of a session: a message taken, a broadcast, a reply. -/
inductive Visible
  | heard (received : Option Message)
  | cast (r : Option RoomId) (sender text : Bytes)
  | said (resp : Message)
  deriving DecidableEq

namespace Phase

/-- The answer to one message, for a user and the rooms of the given names. -/
def answer (rooms : Bytes → Option RoomId) (username : Bytes) (p : Phase) :
    Option Message → Phase × List Visible
  | none => (.ended, [.said receiveError])
  | some m =>
    if m.tag = tagQuit then (.ended, [.said quitOk])
    else if m.tag = tagJoin then (.inside m.data, [.said joinOk])
    else match p with
      | .inside n =>
        if m.tag = tagLeave then (.outside, [.said leaveOk])
        else (p, [.cast (rooms n) username m.data, .said sendallOk])
      | _ => (p, [.said (if m.tag = tagLeave then leaveError else sendallError)])

/-- One message, as the next in number; there is none after the end. -/
def next (rooms : Bytes → Option RoomId) (username : Bytes) :
    Phase × ℕ → Option Message → Option (List (ℕ × Visible) × Phase × ℕ)
  | (.ended, _), _ => none
  | (p, n), m =>
    let (p', vs) := p.answer rooms username m
    some ((Visible.heard m :: vs).map (Prod.mk (n + 1)), p', n + 1)

variable {rooms : Bytes → Option RoomId} {username : Bytes} {p : Phase} {m : Message}

theorem next_of_ne_ended (h : p ≠ .ended) (n : ℕ) (m : Option Message) :
    next rooms username (p, n) m =
      some ((Visible.heard m :: (p.answer rooms username m).2).map (Prod.mk (n + 1)),
        (p.answer rooms username m).1, n + 1) := by
  cases p with
  | ended => exact absurd rfl h
  | _ => rfl

theorem answer_outside (hquit : m.tag ≠ tagQuit) (hjoin : m.tag ≠ tagJoin) :
    answer rooms username .outside (some m) =
      (.outside, [.said (if m.tag = tagLeave then leaveError else sendallError)]) := by
  simp [answer, hquit, hjoin]

theorem answer_inside (hquit : m.tag ≠ tagQuit) (hjoin : m.tag ≠ tagJoin) (n : Bytes) :
    answer rooms username (.inside n) (some m) =
      if m.tag = tagLeave then (.outside, [.said leaveOk])
      else (.inside n, [.cast (rooms n) username m.data, .said sendallOk]) := by
  simp [answer, hquit, hjoin]

/-- The phase after some messages, and their number. -/
theorem execute_phase {ms : List (Option Message)} {n n' : ℕ} {exs : List (List (ℕ × Visible))}
    {p' : Phase} (h : Transition.execute (next rooms username) (p, n) ms = some (exs, p', n')) :
    p' = ms.foldl (fun p m => (p.answer rooms username m).1) p ∧ n' = n + ms.length := by
  induction ms generalizing p n exs with
  | nil =>
    obtain ⟨-, hp, hn⟩ : [] = exs ∧ p = p' ∧ n = n' := by simpa [Transition.execute] using h
    exact ⟨hp.symm, hn.symm⟩
  | cons m ms ih =>
    by_cases hended : p = .ended
    · simp [Transition.execute, hended, next] at h
    · rw [Transition.execute, next_of_ne_ended hended] at h
      cases hrest : Transition.execute (next rooms username)
          ((p.answer rooms username m).1, n + 1) ms with
      | none => simp [hrest] at h
      | some q =>
        obtain ⟨exs', p'', n''⟩ := q
        obtain ⟨-, rfl, rfl⟩ : _ = exs ∧ p'' = p' ∧ n'' = n' := by simpa [hrest] using h
        obtain ⟨hp, hn⟩ := ih hrest
        exact ⟨hp, by rw [hn, List.length_cons]; omega⟩

end Phase
end Chat
