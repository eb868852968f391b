import Mathlib.Logic.Relation

/-! Interleavings of deterministic processes on a shared state: when steps of different processes
commute, every interleaving that comes to an end comes to the same one. -/
namespace Interleave
open Relation

section Cells

variable {σ α β : Type*}

/-- A part of the state that can be read and written. -/
structure Cell (σ α : Type*) where
  get : σ → α
  set : σ → α → σ

namespace Cell

/-- A partial update of the one part. -/
def lift (c : Cell σ α) (f : α → Option α) (s : σ) : Option σ := (f (c.get s)).map (c.set s)

/-- Writing the one part does not show in the other, and the order of two writes does not matter. -/
structure Independent (c : Cell σ α) (d : Cell σ β) : Prop where
  get_left : ∀ s b, c.get (d.set s b) = c.get s
  get_right : ∀ s a, d.get (c.set s a) = d.get s
  comm : ∀ s a b, c.set (d.set s b) a = d.set (c.set s a) b

variable {c : Cell σ α} {d : Cell σ β} {f : α → Option α} {g : β → Option β} {s s₁ s₂ : σ}

theorem Independent.symm (h : c.Independent d) : d.Independent c :=
  ⟨h.get_right, h.get_left, fun s a b => (h.comm s b a).symm⟩

theorem Independent.lift_comm (h : c.Independent d) (h₁ : c.lift f s = some s₁)
    (h₂ : d.lift g s = some s₂) : ∃ s', d.lift g s₁ = some s' ∧ c.lift f s₂ = some s' := by
  obtain ⟨a, ha, rfl⟩ := Option.map_eq_some_iff.mp h₁
  obtain ⟨b, hb, rfl⟩ := Option.map_eq_some_iff.mp h₂
  refine ⟨d.set (c.set s a) b, ?_, ?_⟩
  · rw [lift, h.get_right, hb]
    rfl
  · rw [lift, h.get_left, ha, ← h.comm]
    rfl

end Cell
end Cells

variable {σ ι : Type*} (next : σ → ι → Option σ)

/-- One step of some process. -/
def Step (s s' : σ) : Prop := ∃ k, next s k = some s'

/-- No process can take a step. -/
def Halted (s : σ) : Prop := ∀ k, next s k = none

/-- In the states of `I`, which the steps do not leave, possible steps of different processes can be
taken in either order. -/
structure Commuting (I : σ → Prop) : Prop where
  keep : ∀ s k s', I s → next s k = some s' → I s'
  comm : ∀ s k l s₁ s₂, I s → k ≠ l → next s k = some s₁ → next s l = some s₂ →
    ∃ s', next s₁ l = some s' ∧ next s₂ k = some s'

variable {next} {I : σ → Prop} {s s₁ s₂ : σ}

theorem Halted.eq (h : Halted next s) (hr : ReflTransGen (Step next) s s₁) : s₁ = s := by
  rcases hr.cases_head with rfl | ⟨s', ⟨k, hk⟩, -⟩
  · rfl
  · rw [h k] at hk
    cases hk

namespace Commuting

variable (hc : Commuting next I) (hs : I s)
include hc hs

/-- The steps from a state of `I` are steps between states of `I`. -/
private theorem inside (h : ReflTransGen (Step next) s s₁) :
    I s₁ ∧ ReflTransGen (fun s s' => I s ∧ Step next s s') s s₁ := by
  induction h with
  | refl => exact ⟨hs, .refl⟩
  | tail _ h ih =>
    obtain ⟨k, hk⟩ := h
    exact ⟨hc.keep _ k _ ih.1 hk, ih.2.tail ⟨ih.1, k, hk⟩⟩

/-- Any two interleavings can be continued to one state. -/
theorem confluent (h₁ : ReflTransGen (Step next) s s₁) (h₂ : ReflTransGen (Step next) s s₂) :
    Join (ReflTransGen (Step next)) s₁ s₂ := by
  have hdiamond : ∀ a b c, (I a ∧ Step next a b) → (I a ∧ Step next a c) →
      ∃ d, ReflGen (fun s s' => I s ∧ Step next s s') b d ∧
        ReflTransGen (fun s s' => I s ∧ Step next s s') c d := by
    rintro a b c ⟨ha, k, hk⟩ ⟨-, l, hl⟩
    by_cases hkl : k = l
    · subst hkl
      obtain rfl := Option.some.inj (hk.symm.trans hl)
      exact ⟨b, .refl, .refl⟩
    · obtain ⟨d, hbd, hcd⟩ := hc.comm a k l b c ha hkl hk hl
      exact ⟨d, .single ⟨hc.keep a k b ha hk, l, hbd⟩, .single ⟨hc.keep a l c ha hl, k, hcd⟩⟩
  have hle : ∀ a b, (I a ∧ Step next a b) → Step next a b := fun _ _ h => h.2
  obtain ⟨s', hs₁, hs₂⟩ := church_rosser hdiamond (hc.inside hs h₁).2 (hc.inside hs h₂).2
  exact ⟨s', ReflTransGen.mono hle _ _ hs₁, ReflTransGen.mono hle _ _ hs₂⟩

/-- An interleaving that ends is a continuation of every other. -/
theorem ends (h₁ : ReflTransGen (Step next) s s₁) (h₂ : ReflTransGen (Step next) s s₂)
    (hhalt : Halted next s₁) : ReflTransGen (Step next) s₂ s₁ := by
  obtain ⟨s', hs₁, hs₂⟩ := hc.confluent hs h₁ h₂
  rwa [hhalt.eq hs₁] at hs₂

theorem end_unique (h₁ : ReflTransGen (Step next) s s₁) (h₂ : ReflTransGen (Step next) s s₂)
    (hhalt₁ : Halted next s₁) (hhalt₂ : Halted next s₂) : s₁ = s₂ :=
  hhalt₂.eq (hc.ends hs h₁ h₂ hhalt₁)

end Commuting
end Interleave
