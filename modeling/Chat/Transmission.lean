import Chat.Frames

/-! Which of the messages enqueued for a receiver reach its client. `chat_with_receiver` takes a
message from the queue before it sends it, and goes on whatever `send` returns. -/
namespace Chat
open Transition

/-- The messages sent are the first ones of those enqueued, by their places in the queue. -/
def InOrder (msgs : List Message) (ds : List (Message × Bool)) : Prop :=
  ∃ n, (ds.filter (·.2)).map (·.1) = msgs.take n ∧
    ∀ k : ℕ, (∃ msg, ds[k]? = some (msg, true)) ↔ k < n

private theorem initial_segment {ds : List (Message × Bool)}
    (h : ∀ j k : ℕ, j < k → (∃ msg, ds[k]? = some (msg, true)) → ∃ msg, ds[j]? = some (msg, true)) :
    ∃ n ≤ ds.length, ds.filter (·.2) = ds.take n ∧
      ∀ k : ℕ, (∃ msg, ds[k]? = some (msg, true)) ↔ k < n := by
  induction ds with
  | nil => exact ⟨0, le_rfl, rfl, by simp⟩
  | cons d ds ih =>
    obtain ⟨msg, sent⟩ := d
    cases sent with
    | false =>
      have hnone : ∀ k : ℕ, ¬ ∃ m, ((msg, false) :: ds)[k]? = some (m, true) := fun k hk => by
        cases k with
        | zero => simp at hk
        | succ k => simpa using h 0 (k + 1) (Nat.succ_pos k) hk
      refine ⟨0, Nat.zero_le _, ?_, fun k => by simp [hnone k]⟩
      refine List.filter_eq_nil_iff.mpr fun d hd hsent => ?_
      obtain ⟨k, hk⟩ := List.mem_iff_getElem?.mp hd
      exact hnone k ⟨d.1, by rw [hk, ← hsent]⟩
    | true =>
      obtain ⟨n, hn, hfilter, hall⟩ := ih fun j k hjk hk => by
        simpa using h (j + 1) (k + 1) (by omega) (by simpa using hk)
      refine ⟨n + 1, by simpa using hn, by simp [hfilter], fun k => ?_⟩
      cases k with
      | zero => simp
      | succ k => simpa using hall k

private theorem inOrder_iff {msgs : List Message} {ds : List (Message × Bool)}
    (hfifo : ds.map Prod.fst <+: msgs) : InOrder msgs ds ↔
      ∀ j k : ℕ, j < k → (∃ msg, ds[k]? = some (msg, true)) → ∃ msg, ds[j]? = some (msg, true) := by
  constructor
  · rintro ⟨n, -, hall⟩ j k hjk hk
    have hkn := (hall k).mp hk
    exact (hall j).mpr (by omega)
  · intro h
    obtain ⟨n, hn, hfilter, hall⟩ := initial_segment h
    refine ⟨n, ?_, hall⟩
    obtain ⟨more, rfl⟩ := hfifo
    have hle : n ≤ (ds.map Prod.fst).length := by simpa using hn
    rw [hfilter, List.map_take, List.take_append_of_le_length hle]

namespace Wire

/-- The `k`-th of the messages is within the limit, and no `write` fails for good while it goes
out after those before it. -/
def Passes (wire : Wire) (msgs : List Message) (k : ℕ) : Prop :=
  ∃ msg, msgs[k]? = some msg ∧ strlen msg.data ≤ maxLen ∧
    (writeLoop (wire.sendAll (msgs.take k)).2.writes (cString (Connection.encode msg))).1 = true

theorem sent_iff_passes (wire : Wire) (msgs : List Message) (k : ℕ) :
    (wire.sendAll msgs).1[k]? = some true ↔ wire.Passes msgs k := by
  induction msgs generalizing wire k with
  | nil => simp [sendAll, Passes]
  | cons msg msgs ih =>
    cases k with
    | zero =>
      have hsend : (wire.send msg).1 = true ↔ strlen msg.data ≤ maxLen ∧
          (writeLoop wire.writes (cString (Connection.encode msg))).1 = true := by
        by_cases hlong : strlen msg.data > maxLen
        · have hnot : ¬ strlen msg.data ≤ maxLen := by omega
          simp [send, hlong, hnot]
        · have hle : strlen msg.data ≤ maxLen := by omega
          simp [send, hlong, hle]
      simpa [sendAll, Passes] using hsend
    | succ k => simpa [sendAll, Passes] using ih (wire.send msg).2 k

end Wire

namespace Server

variable {es : List Event} {s : Server}

/-- A message that a session delivers is transmitted just if it passes. -/
private theorem delivered_iff_passes (hrun : Run Server.Step {} es s) {u : Sid} {n : ℕ}
    {conn : Connection} (haccept : ⟨u, n, .accept conn⟩ ∈ es)
    (hrole : (s.thread u).role = .receiver) {k : ℕ} (hk : k < (deliveries u es).length) :
    (∃ msg, (deliveries u es)[k]? = some (msg, true)) ↔
      (afterJoin conn).Passes ((posts u es).map (·.msg)) k := by
  obtain ⟨more, hmore⟩ := deliveries_of_posts hrun u
  have hlen : k < ((deliveries u es).map Prod.fst).length := by simpa using hk
  have hpasses : (afterJoin conn).Passes ((posts u es).map (·.msg)) k ↔
      (afterJoin conn).Passes ((deliveries u es).map Prod.fst) k := by
    unfold Wire.Passes
    rw [← hmore, List.getElem?_append_left hlen, List.take_append_of_le_length hlen.le]
  rw [hpasses, ← Wire.sent_iff_passes, deliveries_sent hrun haccept hrole]
  simp

/-- What a receiver's client gets is the beginning of what was enqueued, just if no message that
goes out comes after one that is too long or that a `write` fails for. -/
theorem transmitted_inOrder_iff (hrun : Run Server.Step {} es s) {u : Sid} {n : ℕ}
    {conn : Connection} (haccept : ⟨u, n, .accept conn⟩ ∈ es)
    (hrole : (s.thread u).role = .receiver) :
    InOrder ((posts u es).map (·.msg)) (deliveries u es) ↔
      ∀ j k, j < k → k < (deliveries u es).length →
        (afterJoin conn).Passes ((posts u es).map (·.msg)) k →
          (afterJoin conn).Passes ((posts u es).map (·.msg)) j := by
  have hiff := @delivered_iff_passes es s hrun u n conn haccept hrole
  rw [inOrder_iff (deliveries_of_posts hrun u)]
  constructor
  · intro h j k hjk hk hpasses
    exact (hiff (hjk.trans hk)).mp (h j k hjk ((hiff hk).mpr hpasses))
  · rintro h j k hjk ⟨msg, hmsg⟩
    have hk : k < (deliveries u es).length := (List.getElem?_eq_some_iff.mp hmsg).1
    exact (hiff (hjk.trans hk)).mpr (h j k hjk hk ((hiff hk).mp ⟨msg, hmsg⟩))

/-- The receiver takes both messages: the first is too long to send. -/
private def wideReceiver : List Sched := wideLobby ++ Sched.steps 0 10

theorem transmitted_not_inOrder : ∃ es s, Run Server.Step {} es s ∧
    (s.thread 0).role = .receiver ∧
    ¬ ((deliveries 0 es).filter (·.2)).map (·.1) <+: (posts 0 es).map (·.msg) ∧
    ¬ InOrder ((posts 0 es).map (·.msg)) (deliveries 0 es) := by
  obtain ⟨⟨es, s⟩, h⟩ :=
    Option.isSome_iff_exists.mp (show (outcome wideReceiver).isSome = true by decide +kernel)
  have hrole : (outcome wideReceiver).map (fun p => (p.2.thread 0).role) = some .receiver := by
    decide +kernel
  have hgap : (outcome wideReceiver).map (fun p => decide
      (((deliveries 0 p.1).filter (·.2)).map (·.1) <+: (posts 0 p.1).map (·.msg))) = some false := by
    decide +kernel
  rw [h] at hrole hgap
  have hnot : ¬ ((deliveries 0 es).filter (·.2)).map (·.1) <+: (posts 0 es).map (·.msg) :=
    of_decide_eq_false (Option.some.inj hgap)
  refine ⟨es, s, run_of_outcome h, Option.some.inj hrole, hnot, fun horder => hnot ?_⟩
  obtain ⟨n, hsent, -⟩ := horder
  rw [hsent]
  exact List.take_prefix _ _

set_option maxRecDepth 4000 in
theorem transmitted_inOrder_iff_wideReceiver : ∃ es s conn j k, Run Server.Step {} es s ∧
    ⟨0, 0, .accept conn⟩ ∈ es ∧ j < k ∧ k < (deliveries 0 es).length ∧
    (afterJoin conn).Passes ((posts 0 es).map (·.msg)) k ∧
    ¬ (afterJoin conn).Passes ((posts 0 es).map (·.msg)) j := by
  obtain ⟨⟨es, s⟩, h⟩ :=
    Option.isSome_iff_exists.mp (show (outcome wideReceiver).isSome = true by decide +kernel)
  have haccept : (outcome wideReceiver).bind (fun p => p.1[0]?) =
      some ⟨0, 0, .accept (.ofFd 4 wideReads [])⟩ := rfl
  have hrole : (outcome wideReceiver).map (fun p => (p.2.thread 0).role) = some .receiver := by
    decide +kernel
  have hsent : (outcome wideReceiver).map (fun p => (deliveries 0 p.1).map (·.2)) =
      some [false, true] := by decide +kernel
  rw [h] at haccept hrole hsent
  have hrun := run_of_outcome h
  have hmem := List.mem_of_getElem? haccept
  have hresults : (deliveries 0 es).map (·.2) = [false, true] := Option.some.inj hsent
  have hnot : ¬ InOrder ((posts 0 es).map (·.msg)) (deliveries 0 es) := by
    rintro ⟨n, -, hall⟩
    obtain ⟨⟨first, sent⟩, ds, hds, rfl, hrest⟩ := List.map_eq_cons_iff.mp hresults
    obtain ⟨⟨second, sent⟩, ds', rfl, rfl, -⟩ := List.map_eq_cons_iff.mp hrest
    rw [hds] at hall
    have hone : 1 < n := (hall 1).mp ⟨second, rfl⟩
    obtain ⟨msg, hzero⟩ := (hall 0).mpr (by omega)
    simp at hzero
  rw [transmitted_inOrder_iff hrun hmem (Option.some.inj hrole)] at hnot
  push Not at hnot
  obtain ⟨j, k, hjk, hk, hpasses, hstuck⟩ := hnot
  exact ⟨es, s, _, j, k, hrun, hmem, hjk, hk, hpasses, hstuck⟩

end Server
end Chat
