import Chat.Lib.Transition
import Mathlib.Data.List.Perm.Subperm
import Mathlib.Logic.Function.Basic

/-! Publish and subscribe as one atomic machine: who is on which topic, and what each subscriber has
been sent. The one order of all publications is the order in which every subscriber gets its own. -/
namespace PubSub
open Transition

/-- What two parts of a list without duplicates have in common, they have in one order. -/
theorem filter_mem_comm {α : Type*} [BEq α] [LawfulBEq α] {l l₁ l₂ : List α} (h : l.Nodup)
    (h₁ : l₁.Sublist l) (h₂ : l₂.Sublist l) : l₁.filter (· ∈ l₂) = l₂.filter (· ∈ l₁) := by
  have hpart : ∀ {k : List α}, k.Sublist l → k = l.filter (· ∈ k) := by
    intro k hk
    have hsub : k.Sublist (l.filter (· ∈ k)) := by
      simpa [List.filter_eq_self.mpr] using hk.filter (· ∈ k)
    have hsubset : l.filter (· ∈ k) ⊆ k := fun a ha => by simpa using (List.mem_filter.mp ha).2
    exact hsub.eq_of_length_le (List.subperm_of_subset (h.filter _) hsubset).length_le
  calc l₁.filter (· ∈ l₂) = (l.filter (· ∈ l₁)).filter (· ∈ l₂) :=
        congrArg (List.filter _) (hpart h₁)
    _ = (l.filter (· ∈ l₂)).filter (· ∈ l₁) := by
        rw [List.filter_filter, List.filter_filter]
        exact List.filter_congr fun _ _ => Bool.and_comm _ _
    _ = l₂.filter (· ∈ l₁) := (congrArg (List.filter _) (hpart h₂)).symm

/-- A subscriber is on at most one topic. `log` is all that was ever sent to it, and `seen` how many
of these it has taken. -/
structure System (U T N P : Type*) [Inhabited N] where
  name : U → N := fun _ => default
  topic : U → Option T := fun _ => none
  log : U → List P := fun _ => []
  seen : U → ℕ := fun _ => 0

inductive Label (U T N P : Type*)
  | register (u : U) (n : N)
  | subscribe (u : U) (t : T)
  | unsubscribe (u : U)
  | publish (u : U) (t : T) (p : P)
  | take (u : U)

variable {U T N P : Type*} [Inhabited N]

/-- `p`, published on topic `t`, is for subscriber `u`. -/
def System.Receives (s : System U T N P) (wants : N → P → Prop) (t : T) (p : P) (u : U) : Prop :=
  s.topic u = some t ∧ wants (s.name u) p

/-- Names are fixed while their owners are on a topic, and only who is on a topic publishes there. -/
inductive Step [DecidableEq U] (wants : N → P → Prop) :
    System U T N P → Label U T N P → System U T N P → Prop
  | register {s u} (n : N) : s.topic u = none →
      Step wants s (.register u n) { s with name := Function.update s.name u n }
  | subscribe {s u} (t : T) : s.topic u = none →
      Step wants s (.subscribe u t) { s with topic := Function.update s.topic u (some t) }
  | unsubscribe {s u} : Step wants s (.unsubscribe u) { s with topic := Function.update s.topic u none }
  | publish {s u t} (p : P) (log : U → List P) : s.topic u = some t →
      (∀ v, s.Receives wants t p v → log v = s.log v ++ [p]) →
      (∀ v, ¬ s.Receives wants t p v → log v = s.log v) →
      Step wants s (.publish u t p) { s with log }
  | take {s u} : s.seen u < (s.log u).length →
      Step wants s (.take u) { s with seen := Function.update s.seen u (s.seen u + 1) }

/-- All publications, in order. -/
def published (ls : List (Label U T N P)) : List P :=
  ls.filterMap fun l => match l with
    | .publish _ _ p => some p
    | _ => none

/-- The publications on topic `t`. -/
def publishedOn [DecidableEq T] (t : T) (ls : List (Label U T N P)) : List P :=
  ls.filterMap fun l => match l with
    | .publish _ t' p => if t' = t then some p else none
    | _ => none

variable [DecidableEq U] {wants : N → P → Prop} {s s₀ s' : System U T N P} {l : Label U T N P}
  {ls : List (Label U T N P)} {u : U} {t : T}

/-- What a step adds to a log is what it publishes, or nothing. -/
theorem Step.log_cases (h : Step wants s l s') (u : U) :
    s'.log u = s.log u ∨ ∃ v t p, l = .publish v t p ∧ s.Receives wants t p u ∧
      s'.log u = s.log u ++ [p] := by
  cases h with
  | @publish v t p log _ hto hnot =>
    by_cases hu : s.Receives wants t p u
    · exact .inr ⟨v, t, p, rfl, hu, hto u hu⟩
    · exact .inl (hnot u hu)
  | _ => exact .inl rfl

/-- Nobody gets what was not published, gets anything twice, or gets it out of order. -/
theorem log_sublist (h : Run (Step wants) {} ls s) (u : U) : (s.log u).Sublist (published ls) := by
  refine h.invariant (fun ls s => (s.log u).Sublist (published ls)) (List.nil_sublist _) ?_
  intro ls s l s' _ ih hs
  have happend : published (ls ++ [l]) = published ls ++ published [l] := List.filterMap_append
  rw [happend]
  rcases hs.log_cases u with hsame | ⟨v, t, p, rfl, -, hlog⟩
  · rw [hsame]
    exact ih.trans (List.sublist_append_left _ _)
  · rw [hlog]
    exact ih.append (List.Sublist.refl _)

/-- Of one step, a subscriber that stays on its topic gets what is published there that it wants. -/
private theorem Step.subscribed [DecidableEq T] [DecidableRel wants] (h : Step wants s l s')
    (ht : s.topic u = some t) (hstay : l ≠ .unsubscribe u) :
    s'.topic u = some t ∧ s'.name u = s.name u ∧
      s'.log u = s.log u ++ (publishedOn t [l]).filter (wants (s.name u)) := by
  cases h with
  | @register v n hnone =>
    have hv : u ≠ v := fun hv => by simp [← hv, ht] at hnone
    exact ⟨ht, by simp [hv], by simp [publishedOn]⟩
  | @subscribe v t' hnone =>
    have hv : u ≠ v := fun hv => by simp [← hv, ht] at hnone
    exact ⟨by simpa [hv] using ht, rfl, by simp [publishedOn]⟩
  | @unsubscribe v =>
    have hv : u ≠ v := fun hv => hstay (by rw [hv])
    exact ⟨by simpa [hv] using ht, rfl, by simp [publishedOn]⟩
  | @publish v t' p log _ hto hnot =>
    refine ⟨ht, rfl, ?_⟩
    show log u = _
    by_cases ht' : t' = t
    · subst ht'
      by_cases hwants : wants (s.name u) p
      · rw [hto u ⟨ht, hwants⟩]
        simp [publishedOn, hwants]
      · rw [hnot u fun hu => hwants hu.2]
        simp [publishedOn, hwants]
    · have hother : ¬ s.Receives wants t' p u := fun hu =>
        ht' (Option.some.inj (hu.1.symm.trans ht))
      rw [hnot u hother]
      simp [publishedOn, ht']
  | take => exact ⟨ht, rfl, by simp [publishedOn]⟩

/-- Whoever stays on a topic gets all that is published there that it wants, and nothing else. -/
theorem log_of_subscribed [DecidableEq T] [DecidableRel wants] (h : Run (Step wants) s₀ ls s)
    (ht : s₀.topic u = some t) (hstay : .unsubscribe u ∉ ls) :
    s.topic u = some t ∧ s.name u = s₀.name u ∧
      s.log u = s₀.log u ++ (publishedOn t ls).filter (wants (s₀.name u)) := by
  refine h.invariant (fun ls s => .unsubscribe u ∉ ls → s.topic u = some t ∧ s.name u = s₀.name u ∧
    s.log u = s₀.log u ++ (publishedOn t ls).filter (wants (s₀.name u)))
    (fun _ => ⟨ht, rfl, by simp [publishedOn]⟩) ?_ hstay
  intro ls s l s' _ ih hs hstay
  rw [List.mem_append, not_or, List.mem_singleton] at hstay
  obtain ⟨htopic, hname, hlog⟩ := ih hstay.1
  obtain ⟨htopic', hname', hlog'⟩ := hs.subscribed htopic (Ne.symm hstay.2)
  have happend : publishedOn t (ls ++ [l]) = publishedOn t ls ++ publishedOn t [l] :=
    List.filterMap_append
  refine ⟨htopic', hname'.trans hname, ?_⟩
  rw [hlog', hlog, hname, happend, List.filter_append, List.append_assoc]

/-- Whoever is on no topic gets nothing. -/
theorem log_of_unsubscribed (h : Run (Step wants) s₀ ls s) (hu : s₀.topic u = none)
    (hout : ∀ t, .subscribe u t ∉ ls) : s.topic u = none ∧ s.log u = s₀.log u := by
  refine h.invariant (fun ls s => (∀ t, .subscribe u t ∉ ls) → s.topic u = none ∧ s.log u = s₀.log u)
    (fun _ => ⟨hu, rfl⟩) ?_ hout
  intro ls s l s' _ ih hs hout
  obtain ⟨htopic, hlog⟩ := ih fun t ht => hout t (List.mem_append_left _ ht)
  constructor
  · cases hs with
    | @subscribe v t =>
      have hv : u ≠ v := fun hv => hout t (by simp [hv])
      simpa [hv] using htopic
    | @unsubscribe v => by_cases hv : u = v <;> simp [hv, htopic]
    | _ => exact htopic
  · rcases hs.log_cases u with hsame | ⟨v, t, p, -, hreceives, -⟩
    · rw [hsame, hlog]
    · rw [hreceives.1] at htopic
      cases htopic

end PubSub
