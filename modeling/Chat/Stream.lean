import Chat.Connection
import Chat.Lib.Lines

/-! What the line reader takes from its descriptor: the bytes still to come, whatever the
sizes of the reads that bring them, and a line cut off their front. -/
namespace Chat
open Lines

/-- The bytes that the reads bring before the peer closes or a read fails. -/
def incoming : List ReadResult → Bytes
  | [] => []
  | .data bs :: rs => bs ++ incoming rs
  | .eintr :: rs => incoming rs
  | .error :: _ => []

def failing : List ReadResult → Bool
  | [] => false
  | .data _ :: rs => failing rs
  | .eintr :: rs => failing rs
  | .error :: _ => true

namespace Rio

def stream (rp : Rio) : Bytes := rp.unread ++ incoming rp.reads

/-- The bytes to come end in a read error, not in the peer's close. -/
def broken (rp : Rio) : Bool := failing rp.reads

end Rio

private theorem refill_nil {rs : List ReadResult} (h : incoming rs = []) (hb : failing rs = false) :
    refill rs = (some [], []) := by
  induction rs with
  | nil => rfl
  | cons r rs ih =>
    cases r with
    | data bs => exact absurd (List.append_eq_nil_iff.mp h).1 bs.2.1
    | eintr => exact ih h hb
    | error => simp [failing] at hb

private theorem refill_error {rs : List ReadResult} (h : incoming rs = []) (hb : failing rs = true) :
    ∃ rs', refill rs = (none, rs') := by
  induction rs with
  | nil => simp [failing] at hb
  | cons r rs ih =>
    cases r with
    | data bs => exact absurd (List.append_eq_nil_iff.mp h).1 bs.2.1
    | eintr => exact ih h hb
    | error => exact ⟨rs, rfl⟩

private theorem refill_data {rs : List ReadResult} {b : UInt8} {s : Bytes}
    (h : incoming rs = b :: s) :
    ∃ bs rs', refill rs = (some (b :: bs), rs') ∧ bs ++ incoming rs' = s ∧
      failing rs' = failing rs := by
  induction rs with
  | nil => simp [incoming] at h
  | cons r rs ih =>
    cases r with
    | data c =>
      obtain ⟨cs, hne, hlen⟩ := c
      cases cs with
      | nil => exact absurd rfl hne
      | cons c cs =>
        have hcs : c :: (cs ++ incoming rs) = b :: s := by simpa [incoming] using h
        obtain ⟨rfl, hs⟩ := List.cons.inj hcs
        exact ⟨cs, rs, rfl, hs, rfl⟩
    | eintr => exact ih h
    | error => simp [incoming] at h

/-- One byte comes off the front of the stream. -/
theorem rioRead_cons {rp : Rio} {b : UInt8} {s : Bytes} (h : rp.stream = b :: s) :
    ∃ rp', rioRead rp 1 = (some [b], rp') ∧ rp'.stream = s ∧ rp'.broken = rp.broken := by
  obtain ⟨unread, rs⟩ := rp
  cases unread with
  | cons c cs =>
    have hcs : c :: (cs ++ incoming rs) = b :: s := by simpa [Rio.stream] using h
    obtain ⟨rfl, hs⟩ := List.cons.inj hcs
    exact ⟨⟨cs, rs⟩, by simp [rioRead], hs, rfl⟩
  | nil =>
    obtain ⟨bs, rs', hr, hs, hb⟩ := refill_data (by simpa [Rio.stream] using h)
    exact ⟨⟨bs, rs'⟩, by simp [rioRead, hr], hs, hb⟩

theorem rioRead_eof {rp : Rio} (h : rp.stream = []) (hb : rp.broken = false) :
    rioRead rp 1 = (some [], ⟨[], []⟩) := by
  obtain ⟨unread, rs⟩ := rp
  obtain ⟨rfl, hr⟩ := List.append_eq_nil_iff.mp h
  simp [rioRead, refill_nil hr hb]

theorem rioRead_error {rp : Rio} (h : rp.stream = []) (hb : rp.broken = true) :
    ∃ rp', rioRead rp 1 = (none, rp') := by
  obtain ⟨unread, rs⟩ := rp
  obtain ⟨rfl, hr⟩ := List.append_eq_nil_iff.mp h
  obtain ⟨rs', hr'⟩ := refill_error hr hb
  exact ⟨⟨[], rs'⟩, by simp [rioRead, hr']⟩

/-- The loop takes one line, or fails where the stream breaks off before the line is
complete. -/
theorem readLoop_spec (k : ℕ) (line : Bytes) (rp : Rio) :
    (rp.broken = true ∧ newline ∉ takeLine newline k rp.stream ∧ rp.stream.length < k ∧
      ∃ line' rp', readLoop k line rp = (.error, line', rp')) ∨
    ¬ (rp.broken = true ∧ newline ∉ takeLine newline k rp.stream ∧ rp.stream.length < k) ∧
    ∃ rp', readLoop k line rp =
        (if line ++ takeLine newline k rp.stream = [] ∧ k ≠ 0 then .eof else .terminate,
          line ++ takeLine newline k rp.stream, rp') ∧
      rp'.stream = dropLine newline k rp.stream ∧ rp'.broken = rp.broken := by
  induction k generalizing line rp with
  | zero => exact .inr ⟨by omega, rp, by simp [readLoop], by simp [dropLine], rfl⟩
  | succ k ih =>
    cases hs : rp.stream with
    | nil =>
      cases hb : rp.broken with
      | true =>
        obtain ⟨rp', hr⟩ := rioRead_error hs hb
        exact .inl ⟨rfl, by simp, by simp, line, rp', by simp [readLoop, hr]⟩
      | false =>
        refine .inr ⟨by simp, ⟨[], []⟩, ?_, by simp [dropLine, Rio.stream, incoming], rfl⟩
        by_cases hl : line = [] <;> simp [readLoop, rioRead_eof hs hb, hl]
    | cons c s =>
      obtain ⟨rp', hr, hs', hb'⟩ := rioRead_cons hs
      by_cases hc : c = newline
      · subst hc
        exact .inr ⟨by simp [takeLine], rp', by simp [readLoop, hr, takeLine],
          by simp [hs', dropLine, takeLine], hb'⟩
      · have hstep : readLoop (k + 1) line rp = readLoop k (line ++ [c]) rp' := by
          simp [readLoop, hr, hc]
        rw [hstep, takeLine, if_neg hc, ← hb']
        rcases ih (line ++ [c]) rp' with ⟨hb, hn, hlen, herr⟩ | ⟨hno, rp'', hrun, hst, hbr⟩
        · rw [hs'] at hn hlen
          exact .inl ⟨hb, by simp [Ne.symm hc, hn], by simpa using hlen, herr⟩
        · rw [hs'] at hno hrun hst
          refine .inr ⟨fun h => hno ⟨h.1, fun hn => h.2.1 (by simp [hn]), by simpa using h.2.2⟩,
            rp'', ?_, ?_, hbr⟩
          · simpa using hrun
          · simpa [dropLine, takeLine, hc] using hst

/-- The longest line `receive` takes: the line reader counts the terminator into `maxlen`. -/
def lineMax : ℕ := maxLen - 1

namespace Rio

/-- The line that the next `receive` reads. -/
def nextLine (rp : Rio) : Bytes := takeLine newline lineMax rp.stream

/-- A read fails before the next line is complete. -/
def LineFails (rp : Rio) : Prop :=
  rp.broken = true ∧ newline ∉ rp.nextLine ∧ rp.stream.length < lineMax

end Rio

theorem rioReadlineb_spec (rp : Rio) (usrbuf : Bytes) :
    (rp.LineFails ∧ ∃ buf rp', rioReadlineb rp usrbuf maxLen = (-1, buf, rp')) ∨
    ¬ rp.LineFails ∧ ∃ rp', rp'.stream = dropLine newline lineMax rp.stream ∧
      rp'.broken = rp.broken ∧
      (rp.nextLine = [] → rioReadlineb rp usrbuf maxLen = (0, usrbuf, rp')) ∧
      (rp.nextLine ≠ [] → rioReadlineb rp usrbuf maxLen = ((rp.nextLine.length : ℤ),
        rp.nextLine ++ 0 :: usrbuf.drop (rp.nextLine.length + 1), rp')) := by
  rcases readLoop_spec lineMax [] rp with ⟨hb, hn, hlen, line', rp', hr⟩ | ⟨hno, rp', hr, hs, hb⟩
  · have hr' : readLoop (maxLen - 1) [] rp = (.error, line', rp') := hr
    exact .inl ⟨⟨hb, hn, hlen⟩, _, rp', by rw [rioReadlineb, hr']⟩
  · change readLoop (maxLen - 1) [] rp = (if [] ++ rp.nextLine = [] ∧ lineMax ≠ 0 then .eof
      else .terminate, [] ++ rp.nextLine, rp') at hr
    refine .inr ⟨hno, rp', hs, hb, fun hl => ?_, fun hl => ?_⟩
    · have hr' : readLoop (maxLen - 1) [] rp = (.eof, [], rp') := by
        simpa [hl, lineMax, maxLen] using hr
      simp [rioReadlineb, hr']
    · have hr' : readLoop (maxLen - 1) [] rp = (.terminate, rp.nextLine, rp') := by
        simpa [hl] using hr
      simp [rioReadlineb, hr']

end Chat
