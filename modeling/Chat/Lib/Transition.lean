import Mathlib.Data.List.Basic

/-! Labelled transition systems: finite runs, the invariant rule, and runs computed
from a list of scheduling choices. A run keeps its labels in the order they occurred. -/
namespace Transition

variable {σ ε χ : Type*} {step : σ → ε → σ → Prop}

/-- `Run step s₀ es s`: the labels `es`, taken in order from `s₀`, lead to `s`. -/
inductive Run (step : σ → ε → σ → Prop) (s₀ : σ) : List ε → σ → Prop
  | nil : Run step s₀ [] s₀
  | snoc {es s e s'} : Run step s₀ es s → step s e s' → Run step s₀ (es ++ [e]) s'

namespace Run

/-- The invariant rule: what holds of the empty history and is kept by every step from a
reachable state holds of every run. -/
theorem invariant {s₀ : σ} (I : List ε → σ → Prop) (h₀ : I [] s₀)
    (hs : ∀ es s e s', Run step s₀ es s → I es s → step s e s' → I (es ++ [e]) s')
    {es : List ε} {s : σ} (h : Run step s₀ es s) : I es s := by
  induction h with
  | nil => exact h₀
  | snoc hr hstep ih => exact hs _ _ _ _ hr ih hstep

theorem trans {s₀ s₁ s₂ : σ} {es₁ es₂ : List ε} (h₁ : Run step s₀ es₁ s₁)
    (h₂ : Run step s₁ es₂ s₂) : Run step s₀ (es₁ ++ es₂) s₂ := by
  induction h₂ with
  | nil => simpa using h₁
  | snoc _ hstep ih =>
    rw [← List.append_assoc]
    exact .snoc ih hstep

theorem single {s s' : σ} {e : ε} (h : step s e s') : Run step s [e] s' :=
  Run.snoc Run.nil h

theorem cons {s₀ s₁ s₂ : σ} {e : ε} {es : List ε} (h : step s₀ e s₁) (hr : Run step s₁ es s₂) :
    Run step s₀ (e :: es) s₂ :=
  (single h).trans hr

theorem mono {step' : σ → ε → σ → Prop} (hle : ∀ s e s', step s e s' → step' s e s') {s₀ s : σ}
    {es : List ε} (h : Run step s₀ es s) : Run step' s₀ es s := by
  induction h with
  | nil => exact .nil
  | snoc _ hstep ih => exact .snoc ih (hle _ _ _ hstep)

/-- A run can be cut anywhere in its history. -/
theorem split {s₀ s : σ} (pre post : List ε) (h : Run step s₀ (pre ++ post) s) :
    ∃ m, Run step s₀ pre m ∧ Run step m post s := by
  generalize hes : pre ++ post = es at h
  induction h generalizing post with
  | nil =>
    obtain ⟨rfl, rfl⟩ := List.append_eq_nil_iff.mp hes
    exact ⟨_, .nil, .nil⟩
  | @snoc es s e s' hr hstep ih =>
    rcases List.eq_nil_or_concat post with rfl | ⟨post', x, rfl⟩
    · rw [List.append_nil] at hes
      exact ⟨s', hes ▸ .snoc hr hstep, .nil⟩
    · rw [List.concat_eq_append, ← List.append_assoc] at hes
      obtain ⟨hes, hx⟩ := List.append_inj' hes rfl
      obtain ⟨m, h₁, h₂⟩ := ih post' hes
      obtain rfl : x = e := by simpa using hx
      exact ⟨m, h₁, by simpa using Run.snoc h₂ hstep⟩

/-- Every label of a run is a step between two states of it. -/
theorem splitAt {s₀ s : σ} {pre post : List ε} {e : ε} (h : Run step s₀ (pre ++ e :: post) s) :
    ∃ s₁ s₂, Run step s₀ pre s₁ ∧ step s₁ e s₂ ∧ Run step s₂ post s := by
  rw [← List.singleton_append, ← List.append_assoc] at h
  obtain ⟨s₂, h₁, h₂⟩ := h.split (pre ++ [e]) post
  generalize hes : pre ++ [e] = es at h₁
  cases h₁ with
  | nil => simp at hes
  | snoc hr hstep =>
    obtain ⟨rfl, he⟩ := List.append_inj' hes rfl
    obtain rfl : e = _ := by simpa using he
    exact ⟨_, s₂, hr, hstep, h₂⟩

/-- A history with a label at position `p` is cut there. -/
theorem cut {es : List ε} {p : ℕ} {e : ε} (h : es[p]? = some e) :
    es = es.take p ++ e :: es.drop (p + 1) := by
  obtain ⟨hp, rfl⟩ := List.getElem?_eq_some_iff.mp h
  rw [← List.drop_eq_getElem_cons hp, List.take_append_drop]

theorem mem_take {es : List ε} {p q : ℕ} {e : ε} (h : es[p]? = some e) (hpq : p < q) :
    e ∈ es.take q := by
  have htake : (es.take q)[p]? = some e := by rw [List.getElem?_take_of_lt hpq, h]
  exact List.mem_of_getElem? htake

theorem mem_drop {es : List ε} {p q : ℕ} {e : ε} (h : es[p]? = some e) (hqp : q < p) :
    e ∈ es.drop (q + 1) := by
  have hdrop : (es.drop (q + 1))[p - (q + 1)]? = some e := by
    rw [List.getElem?_drop, show q + 1 + (p - (q + 1)) = p by omega, h]
  exact List.mem_of_getElem? hdrop

/-- A property that steps keep is kept by a whole run. -/
theorem preserved {s₀ s : σ} {es : List ε} (h : Run step s₀ es s) (P : σ → Prop) (h₀ : P s₀)
    (hs : ∀ s e s', P s → step s e s' → P s') : P s :=
  h.invariant (fun _ s => P s) h₀ fun _ s e s' _ hP hstep => hs s e s' hP hstep

/-- Steps paid for in advance: when each step of one's own is paid for, and only outer ones add work,
at most `K` each, there are at most `K + 1` times as many as outer ones. -/
theorem charge {s₀ s : σ} {es : List ε} (h : Run step s₀ es s) (mine outer : ε → Prop)
    [DecidablePred mine] [DecidablePred outer] (work : σ → ℕ) (K : ℕ) (h₀ : work s₀ = 0)
    (hs : ∀ {pre e post s s'}, es = pre ++ e :: post → Run step s₀ pre s → step s e s' →
      if mine e then if outer e then work s' ≤ K else work s' < work s else work s' ≤ work s) :
    es.countP (mine ·) ≤ (K + 1) * es.countP fun e => mine e ∧ outer e := by
  have hpaid : es.countP (mine ·) + work s ≤ (K + 1) * es.countP fun e => mine e ∧ outer e := by
    refine h.invariant (fun pre s => ∀ post, es = pre ++ post →
      pre.countP (mine ·) + work s ≤ (K + 1) * pre.countP fun e => mine e ∧ outer e) ?_ ?_ []
      (List.append_nil es).symm
    · simp [h₀]
    intro pre s e s' hrun ih hstep post hes
    rw [List.append_assoc, List.singleton_append] at hes
    have hbefore := ih (e :: post) hes
    have hcost := hs hes hrun hstep
    simp only [List.countP_append, List.countP_singleton, Nat.mul_add]
    generalize (K + 1) * pre.countP (fun e => mine e ∧ outer e) = paid at hbefore ⊢
    by_cases hmine : mine e <;> by_cases houter : outer e <;> simp [hmine, houter] at hcost ⊢ <;> omega
  omega

end Run

/-- Runs the choices in order; `none` as soon as one of them is not possible. -/
def execute (next : σ → χ → Option (ε × σ)) (s : σ) : List χ → Option (List ε × σ)
  | [] => some ([], s)
  | c :: cs => do
    let (e, s') ← next s c
    let (es, s'') ← execute next s' cs
    some (e :: es, s'')

theorem execute_snoc {next : σ → χ → Option (ε × σ)} {s s₁ s₂ : σ} {cs : List χ} {es : List ε}
    {c : χ} {e : ε} (h : execute next s cs = some (es, s₁)) (hc : next s₁ c = some (e, s₂)) :
    execute next s (cs ++ [c]) = some (es ++ [e], s₂) := by
  induction cs generalizing s es with
  | nil =>
    obtain ⟨rfl, rfl⟩ : [] = es ∧ s = s₁ := by simpa [execute] using h
    simp [execute, hc]
  | cons d cs ih =>
    cases hd : next s d with
    | none => simp [execute, hd] at h
    | some p =>
      cases hr : execute next p.2 cs with
      | none => simp [execute, hd, hr] at h
      | some q =>
        obtain ⟨rfl, rfl⟩ : p.1 :: q.1 = es ∧ q.2 = s₁ := by simpa [execute, hd, hr] using h
        simp [execute, hd, ih hr]

theorem run_of_execute {next : σ → χ → Option (ε × σ)}
    (hn : ∀ s c e s', next s c = some (e, s') → step s e s')
    {s : σ} {cs : List χ} {es : List ε} {s' : σ} (h : execute next s cs = some (es, s')) :
    Run step s es s' := by
  induction cs generalizing s es with
  | nil =>
    obtain ⟨rfl, rfl⟩ : [] = es ∧ s = s' := by simpa [execute] using h
    exact .nil
  | cons c cs ih =>
    cases hc : next s c with
    | none => simp [execute, hc] at h
    | some p =>
      cases hr : execute next p.2 cs with
      | none => simp [execute, hc, hr] at h
      | some q =>
        obtain ⟨rfl, rfl⟩ : p.1 :: q.1 = es ∧ q.2 = s' := by simpa [execute, hc, hr] using h
        exact .cons (hn s c p.1 p.2 hc) (ih hr)

end Transition
