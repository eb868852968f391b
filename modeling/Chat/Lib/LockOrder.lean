import Mathlib.Logic.Relation
import Mathlib.Order.WithBot
import Chat.Lib.Mutex

/-! Deadlock freedom by a lock order: when every thread wants only locks above those it holds, waiting
for the owner of a wanted lock never comes back, and ends. -/
namespace LockOrder
open Mutex

variable {L T R : Type*}

/-- Thread `t` wants a lock that `u` owns. -/
def WaitsFor (wants : T → Option L) (owner : L → Option T) (t u : T) : Prop :=
  ∃ l, wants t = some l ∧ owner l = some u

/-- A wanted lock ranks above every lock that is held. -/
def Ordered [Preorder R] (rank : L → R) (wants : T → Option L) (holds : T → Set L) : Prop :=
  ∀ t l, wants t = some l → ∀ k ∈ holds t, rank k < rank l

/-- The rank of the lock that the thread wants; a thread that wants none is above all ranks. -/
def level (rank : L → R) (wants : T → Option L) (t : T) : WithTop R :=
  match wants t with
  | some l => rank l
  | none => ⊤

variable [Preorder R] {rank : L → R} {wants : T → Option L} {owner : L → Option T}
  {holds : T → Set L} (hagrees : Agrees owner holds) (hordered : Ordered rank wants holds)
include hagrees hordered

/-- The level rises with each thread that is waited for. -/
theorem level_lt {t u : T} (h : WaitsFor wants owner t u) :
    level rank wants t < level rank wants u := by
  obtain ⟨l, hwants, howner⟩ := h
  have hheld : l ∈ holds u := (hagrees l u).mp howner
  unfold level
  rw [hwants]
  cases hu : wants u with
  | none => exact WithTop.coe_lt_top _
  | some k => exact WithTop.coe_lt_coe.mpr (hordered u k hu l hheld)

theorem acyclic (t : T) : ¬ Relation.TransGen (WaitsFor wants owner) t t := by
  intro hcycle
  have hlt : ∀ {u v}, Relation.TransGen (WaitsFor wants owner) u v →
      level rank wants u < level rank wants v := by
    intro u v h
    induction h with
    | single h => exact level_lt hagrees hordered h
    | tail _ h ih => exact ih.trans (level_lt hagrees hordered h)
  exact lt_irrefl _ (hlt hcycle)

/-- No thread wants a lock that it holds. -/
theorem not_self {t : T} {l : L} (h : wants t = some l) : owner l ≠ some t := fun howner =>
  acyclic hagrees hordered t (.single ⟨l, h, howner⟩)

/-- Every chain of waiting threads ends at one that waits for no other. -/
theorem chain_ends [WellFoundedGT R] (t : T) :
    ∃ u, Relation.ReflTransGen (WaitsFor wants owner) t u ∧ ∀ v, ¬ WaitsFor wants owner u v := by
  have hwf : WellFounded fun u t => level rank wants t < level rank wants u :=
    InvImage.wf (level rank wants) wellFounded_gt
  induction t using hwf.induction with
  | _ t ih =>
    by_cases hwait : ∃ u, WaitsFor wants owner t u
    · obtain ⟨u, hu⟩ := hwait
      obtain ⟨v, hchain, hend⟩ := ih u (level_lt hagrees hordered hu)
      exact ⟨v, .head hu hchain, hend⟩
    · exact ⟨t, .refl, not_exists.mp hwait⟩

end LockOrder
