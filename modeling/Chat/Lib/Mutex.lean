import Mathlib.Data.Set.Insert
import Mathlib.Logic.Function.Basic

/-! Mutual exclusion by ownership: every lock has at most one owner, and the owner map agrees
with what each thread's own position says it holds. -/
namespace Mutex

variable {L T : Type*}

/-- The owner map and the threads' positions describe the same holdings. -/
def Agrees (owner : L → Option T) (holds : T → Set L) : Prop :=
  ∀ l t, owner l = some t ↔ l ∈ holds t

theorem Agrees.exclusive {owner : L → Option T} {holds : T → Set L} (h : Agrees owner holds)
    {l : L} {t t' : T} (ht : l ∈ holds t) (ht' : l ∈ holds t') : t = t' :=
  Option.some_inj.mp (((h l t).mpr ht).symm.trans ((h l t').mpr ht'))

variable [DecidableEq T]

theorem Agrees.keep {owner : L → Option T} {holds : T → Set L} (h : Agrees owner holds)
    {t : T} {s : Set L} (hs : s = holds t) : Agrees owner (Function.update holds t s) := by
  subst hs
  rwa [Function.update_eq_self]

variable [DecidableEq L]

theorem Agrees.acquire {owner : L → Option T} {holds : T → Set L} (h : Agrees owner holds)
    {l : L} (t : T) (hfree : owner l = none) {s : Set L} (hs : s = insert l (holds t)) :
    Agrees (Function.update owner l (some t)) (Function.update holds t s) := by
  intro k u
  subst hs
  have hnone : ∀ v, l ∉ holds v := fun v hv => by
    simpa [hfree] using (h l v).mpr hv
  by_cases hk : k = l <;> by_cases hu : u = t
  · subst hk hu
    simp
  · subst hk
    simp [hu, Ne.symm hu, hnone u]
  · subst hu
    simp [hk, h k u]
  · simp [hk, hu, h k u]

theorem Agrees.release {owner : L → Option T} {holds : T → Set L} (h : Agrees owner holds)
    {l : L} {t : T} (hl : l ∈ holds t) {s : Set L} (hs : s = holds t \ {l}) :
    Agrees (Function.update owner l none) (Function.update holds t s) := by
  intro k u
  subst hs
  by_cases hk : k = l <;> by_cases hu : u = t
  · subst hk hu
    simp
  · subst hk
    have hnot : k ∉ holds u := fun hku => hu (h.exclusive hku hl)
    simp [hu, hnot]
  · subst hu
    simp [hk, h k u]
  · simp [hk, hu, h k u]

end Mutex
