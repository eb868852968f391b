import Chat.Lib.LockOrder
import Chat.Lib.Transition

/-! Progress under a lock order: when a thread that waits for no lock can always take a step, and each
of its steps leaves it less to do, every lock can be given back and every thread can finish. -/
namespace LockOrder
open Mutex Transition

variable {σ T L R W : Type*}

/-- Threads with work to do, on a state that other threads change too. A lock is only held at work,
and another thread's step changes nothing of what a thread holds, wants and has to do. -/
structure Progressive [Preorder R] [Preorder W] (good : σ → Prop) (move : σ → T → σ → Prop)
    (owner : σ → L → Option T) (holds : σ → T → Set L) (wants : σ → T → Option L) (rank : L → R)
    (busy : σ → T → Prop) (work : σ → T → W) : Prop where
  good_of_move : ∀ {s t s'}, move s t s' → good s'
  agrees : ∀ {s}, good s → Agrees (owner s) (holds s)
  ordered : ∀ {s}, good s → Ordered rank (wants s) (holds s)
  busy_of_holds : ∀ {s t l}, good s → l ∈ holds s t → busy s t
  able : ∀ {s t}, good s → busy s t → (∀ l, wants s t = some l → owner s l = none) →
    ∃ s', move s t s' ∧ (busy s' t → work s' t < work s t)
  frame : ∀ {s t s' u}, move s t s' → u ≠ t →
    holds s' u = holds s u ∧ wants s' u = wants s u ∧ (busy s' u ↔ busy s u) ∧ work s' u = work s u

namespace Progressive

variable [Preorder R] [Preorder W] {good : σ → Prop} {move : σ → T → σ → Prop}
  {owner : σ → L → Option T} {holds : σ → T → Set L} {wants : σ → T → Option L} {rank : L → R}
  {busy : σ → T → Prop} {work : σ → T → W}
  (h : Progressive good move owner holds wants rank busy work)
include h

theorem good_of_run {s s' : σ} {ts : List T} (hs : good s) (hrun : Run move s ts s') : good s' := by
  cases hrun with
  | nil => exact hs
  | snoc _ hstep => exact h.good_of_move hstep

theorem frame_run {s s' : σ} {ts : List T} {u : T} (hrun : Run move s ts s') (hu : u ∉ ts) :
    holds s' u = holds s u ∧ wants s' u = wants s u ∧ (busy s' u ↔ busy s u) ∧ work s' u = work s u := by
  refine hrun.invariant (fun ts s' => u ∉ ts → holds s' u = holds s u ∧ wants s' u = wants s u ∧
    (busy s' u ↔ busy s u) ∧ work s' u = work s u) (fun _ => ⟨rfl, rfl, .rfl, rfl⟩) ?_ hu
  intro ts s₁ t s₂ _ ih hstep hu
  rw [List.mem_append, not_or, List.mem_singleton] at hu
  obtain ⟨hholds, hwants, hbusy, hwork⟩ := ih hu.1
  obtain ⟨hholds', hwants', hbusy', hwork'⟩ := h.frame hstep hu.2
  exact ⟨hholds'.trans hholds, hwants'.trans hwants, hbusy'.trans hbusy, hwork'.trans hwork⟩

/-- Who holds a lock after a run held it before, or has moved. -/
private theorem held_before {s s' : σ} {ts : List T} {u : T} {l : L} (hrun : Run move s ts s')
    (hu : u ∉ ts) (hl : l ∈ holds s' u) : l ∈ holds s u := by
  rwa [(h.frame_run hrun hu).1] at hl

/-- A busy thread can take its step once the lock it waits for is given back, which is not the thread's
own doing: it waits for a lock above those it holds. -/
private theorem advance {s : σ} {t : T} (hs : good s) (hbusy : busy s t)
    (hfree : ∀ m u, wants s t = some m → owner s m = some u → ∃ ts s', Run move s ts s' ∧
      owner s' m = none ∧ ∀ u ∈ ts, ∃ k ∈ holds s u, ¬ rank k < rank m) :
    ∃ ts s₁ s₂, Run move s ts s₁ ∧ move s₁ t s₂ ∧ t ∉ ts ∧ (busy s₂ t → work s₂ t < work s t) ∧
      ∀ u ∈ ts, ∃ m, wants s t = some m ∧ ∃ k ∈ holds s u, ¬ rank k < rank m := by
  obtain ⟨ts, s₁, hrun, ht, howner, hts⟩ : ∃ ts s₁, Run move s ts s₁ ∧ t ∉ ts ∧
      (∀ m, wants s t = some m → owner s₁ m = none) ∧
      ∀ u ∈ ts, ∃ m, wants s t = some m ∧ ∃ k ∈ holds s u, ¬ rank k < rank m := by
    by_cases hwait : ∃ m u, wants s t = some m ∧ owner s m = some u
    · obtain ⟨m, u, hwants, hu⟩ := hwait
      obtain ⟨ts, s₁, hrun, howner, hts⟩ := hfree m u hwants hu
      refine ⟨ts, s₁, hrun, fun hmem => ?_, fun m' hm' => ?_, fun v hv => ⟨m, hwants, hts v hv⟩⟩
      · obtain ⟨k, hk, hnot⟩ := hts t hmem
        exact hnot (h.ordered hs t m hwants k hk)
      · obtain rfl : m = m' := Option.some.inj (hwants.symm.trans hm')
        exact howner
    · refine ⟨[], s, .nil, by simp, fun m hm => Option.eq_none_iff_forall_ne_some.mpr fun u hu => ?_,
        by simp⟩
      exact hwait ⟨m, u, hm, hu⟩
  obtain ⟨-, hwants, hbusy', hwork⟩ := h.frame_run hrun ht
  obtain ⟨s₂, hmove, hless⟩ := h.able (h.good_of_run hs hrun) (hbusy'.mpr hbusy) (by rwa [hwants])
  exact ⟨ts, s₁, s₂, hrun, hmove, ht, fun hb => hwork ▸ hless hb, hts⟩

variable [WellFoundedGT R] [WellFoundedLT W]

/-- Any lock can be given back, while only threads move that hold a lock at least as high. -/
theorem free {s : σ} {l : L} {t : T} (hs : good s) (howner : owner s l = some t) :
    ∃ ts s', Run move s ts s' ∧ owner s' l = none ∧ ∀ u ∈ ts, ∃ k ∈ holds s u, ¬ rank k < rank l := by
  have hup : WellFounded ((· > ·) : R → R → Prop) := wellFounded_gt
  have hdown : WellFounded ((· < ·) : W → W → Prop) := wellFounded_lt
  -- the holder may itself wait for a higher lock; without one, each step leaves it less to do
  induction hr : rank l using hup.induction generalizing s l t with
  | _ r ihr =>
  subst hr
  induction hw : work s t using hdown.induction generalizing s with
  | _ w ihw =>
  subst hw
  have hl : l ∈ holds s t := (h.agrees hs l t).mp howner
  obtain ⟨ts, s₁, s₂, hrun, hmove, ht, hless, hts⟩ := h.advance hs (h.busy_of_holds hs hl)
    fun m u hwants hu => ihr (rank m) (h.ordered hs t m hwants l hl) hs hu rfl
  have hmoves : Run move s (ts ++ [t]) s₂ := hrun.snoc hmove
  have hmovers : ∀ u ∈ ts ++ [t], ∃ k ∈ holds s u, ¬ rank k < rank l := fun u hu => by
    rcases List.mem_append.mp hu with hu | hu
    · obtain ⟨m, hwants, k, hk, hnot⟩ := hts u hu
      exact ⟨k, hk, fun hkl => hnot (hkl.trans (h.ordered hs t m hwants l hl))⟩
    · obtain rfl := List.mem_singleton.mp hu
      exact ⟨l, hl, lt_irrefl _⟩
  cases howner₂ : owner s₂ l with
  | none => exact ⟨ts ++ [t], s₂, hmoves, howner₂, hmovers⟩
  | some t' =>
    have hs₁ := h.good_of_run hs hrun
    have hs₂ := h.good_of_move hmove
    have hl₂ : l ∈ holds s₂ t' := (h.agrees hs₂ l t').mp howner₂
    obtain rfl : t' = t := by
      by_contra hne
      rw [(h.frame hmove hne).1] at hl₂
      exact hne ((h.agrees hs₁).exclusive hl₂ ((h.frame_run hrun ht).1 ▸ hl))
    obtain ⟨ts₃, s₃, hrun₃, hfree₃, hts₃⟩ := ihw _ (hless (h.busy_of_holds hs₂ hl₂)) hs₂ howner₂ rfl
    refine ⟨ts ++ [t'] ++ ts₃, s₃, hmoves.trans hrun₃, hfree₃, fun u hu => ?_⟩
    by_cases hmoved : u ∈ ts ++ [t']
    · exact hmovers u hmoved
    · obtain ⟨k, hk, hnot⟩ := hts₃ u ((List.mem_append.mp hu).resolve_left hmoved)
      exact ⟨k, h.held_before hmoves hmoved hk, hnot⟩

/-- Any thread can finish, while besides it only threads move that hold a lock. -/
theorem completes {s : σ} {t : T} (hs : good s) :
    ∃ ts s', Run move s ts s' ∧ ¬ busy s' t ∧ ∀ u ∈ ts, u = t ∨ ∃ k, k ∈ holds s u := by
  have hdown : WellFounded ((· < ·) : W → W → Prop) := wellFounded_lt
  induction hw : work s t using hdown.induction generalizing s with
  | _ w ihw =>
  subst hw
  by_cases hbusy : busy s t
  · obtain ⟨ts, s₁, s₂, hrun, hmove, -, hless, hts⟩ :=
      h.advance hs hbusy fun m u _ hu => h.free hs hu
    have hmoves : Run move s (ts ++ [t]) s₂ := hrun.snoc hmove
    have hmovers : ∀ u ∈ ts ++ [t], u = t ∨ ∃ k, k ∈ holds s u := fun u hu => by
      rcases List.mem_append.mp hu with hu | hu
      · obtain ⟨-, -, k, hk, -⟩ := hts u hu
        exact .inr ⟨k, hk⟩
      · exact .inl (List.mem_singleton.mp hu)
    by_cases hbusy₂ : busy s₂ t
    · obtain ⟨ts₃, s₃, hrun₃, hrest, hts₃⟩ := ihw _ (hless hbusy₂) (h.good_of_move hmove) rfl
      refine ⟨ts ++ [t] ++ ts₃, s₃, hmoves.trans hrun₃, hrest, fun u hu => ?_⟩
      by_cases hmoved : u ∈ ts ++ [t]
      · exact hmovers u hmoved
      · obtain rfl | ⟨k, hk⟩ := hts₃ u ((List.mem_append.mp hu).resolve_left hmoved)
        · exact .inl rfl
        · exact .inr ⟨k, h.held_before hmoves hmoved hk⟩
    · exact ⟨ts ++ [t], s₂, hmoves, hbusy₂, hmovers⟩
  · exact ⟨[], s, .nil, hbusy, by simp⟩

end Progressive
end LockOrder
