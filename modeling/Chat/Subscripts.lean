import Chat.Decoder

/-! The subscripts of the field vector in `divide_data` and `receive`, over any bytes a peer
sends. -/
namespace Chat
open Lines Tokens

/-- A line that does not hold the fields of a message. -/
def Malformed (l : Bytes) : Prop :=
  (fields l).length < 2 ∨ (fields l).head? = some tagDelivery ∧ (fields l).length < 4

/-- The line has a byte before its first NUL, and if it begins with `delivery:` and goes on
then it has three separators before its last byte. -/
def LineOk (l : Bytes) : Prop :=
  cString l ≠ [] ∧
    (str "delivery:" <+: cString l → cString l ≠ str "delivery:" →
      3 ≤ (cString l).dropLast.count colon)

private theorem fields_ne_nil_iff (l : Bytes) : fields l ≠ [] ↔ cString l ≠ [] := by
  constructor
  · intro h h0
    exact h (by simp [fields, h0])
  · exact tokens_ne_nil

private theorem delivery_prefix : tagDelivery ++ [colon] = str "delivery:" := by decide

/-- More than the separator after `delivery` makes a second field. -/
private theorem count_of_prefix {s : Bytes} (h : str "delivery:" <+: s) (hne : s ≠ str "delivery:") :
    1 ≤ s.dropLast.count colon := by
  obtain ⟨t, rfl⟩ := h
  have ht : t ≠ [] := fun h0 => hne (by simp [h0])
  rw [List.dropLast_append_of_ne_nil ht, List.count_append]
  have hd : (str "delivery:").count colon = 1 := by decide
  omega

theorem lineOk_iff_fieldsOk (l : Bytes) : LineOk l ↔ FieldsOk l := by
  unfold LineOk FieldsOk DeliveryComplete
  rw [fields_ne_nil_iff]
  refine and_congr_right fun hs => ?_
  have hlen : (fields l).length = (cString l).dropLast.count colon + 1 := length_tokens hs
  have hhead : (fields l).head? = some tagDelivery ↔
      cString l = tagDelivery ∨ str "delivery:" <+: cString l := by
    rw [← delivery_prefix]
    exact head_tokens_eq_iff (by decide) hs
  rw [hhead, hlen]
  constructor
  · rintro h (heq | hpre)
    · left
      rw [heq]
      decide
    · by_cases heq : cString l = str "delivery:"
      · left
        rw [heq]
        decide
      · have hcount := h hpre heq
        omega
  · intro h hpre hne
    have hone := count_of_prefix hpre hne
    rcases h (.inr hpre) with hlt | hge <;> omega

namespace Connection

/-- No subscript is out of range, and a malformed line that was read whole is reported. -/
def SubscriptsOk (conn : Connection) (buffer : Bytes) (msg : Message) : Prop :=
  ∃ ok m conn', receive conn buffer msg = .ok (ok, m, conn') ∧
    (Malformed conn.mFdbuf.nextLine → ok = false ∧
      (conn'.mLastResult = .invalidMsg ∨ conn.mFdbuf.LineFails))

private theorem subscriptsOk_of_fieldsOk {conn : Connection} (hf : ¬ conn.mFdbuf.LineFails)
    (hs : conn.mFdbuf.stream ≠ []) (hok : FieldsOk conn.mFdbuf.nextLine) (buffer : Bytes)
    (msg : Message) : SubscriptsOk conn buffer msg := by
  obtain ⟨rp, -, -, hrec⟩ := receive_line hf hs buffer msg
  obtain ⟨ok, m, r, hun, hdec⟩ := unpack_ok hok { conn with mFdbuf := rp } msg
  refine ⟨ok, m, _, hrec.trans hun, fun hmal => ?_⟩
  cases hd : decode conn.mFdbuf.nextLine with
  | none =>
    rw [hd] at hdec
    exact ⟨hdec.1, .inl hdec.2.2⟩
  | some m' =>
    rw [hd] at hdec
    exfalso
    rcases hmal with hshort | ⟨hhead, hshort⟩
    · omega
    · rcases hok.2 hhead with hlt | hge <;> omega

/-- Every subscript is in range, and malformed lines are reported, exactly when the line that
the call reads is fit for it or a read fails before the line is complete. -/
theorem subscriptsOk_iff (conn : Connection) (buffer : Bytes) (msg : Message)
    (hs : conn.mFdbuf.stream ≠ []) :
    SubscriptsOk conn buffer msg ↔ conn.mFdbuf.LineFails ∨ LineOk conn.mFdbuf.nextLine := by
  by_cases hf : conn.mFdbuf.LineFails
  · obtain ⟨rp, hrec⟩ := receive_fails hf buffer msg
    simp only [hf, true_or, iff_true]
    exact ⟨false, msg, _, hrec, fun _ => ⟨rfl, .inr hf⟩⟩
  · simp only [hf, false_or, lineOk_iff_fieldsOk]
    constructor
    · rintro ⟨ok, m, conn', hok, -⟩
      by_contra hbad
      obtain ⟨rp, -, -, hrec⟩ := receive_line hf hs buffer msg
      rw [hrec, unpack_error hbad] at hok
      cases hok
    · exact fun hok => subscriptsOk_of_fieldsOk hf hs hok buffer msg

theorem subscriptsOk_iff_join :
    SubscriptsOk (ofFd 4 [.data ⟨str "join:lobby\n", by decide⟩] []) [] {} :=
  (subscriptsOk_iff _ [] {} (by decide)).mpr (.inr (by unfold LineOk; decide))

/-- The third field of `delivery:x` is not there, and neither is the first field of a line
that begins with NUL. -/
theorem subscript_out_of_range :
    ¬ SubscriptsOk (ofFd 4 [.data ⟨str "delivery:x\n", by decide⟩] []) [] {} ∧
      ¬ SubscriptsOk (ofFd 4 [.data ⟨[0, newline], by decide⟩] []) [] {} := by
  constructor <;> rintro ⟨ok, m, conn', h, -⟩ <;> cases h

end Connection
end Chat
