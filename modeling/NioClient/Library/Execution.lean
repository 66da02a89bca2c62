import Mathlib.Data.List.Induction

/-! # Schedules of a guarded step function

A step function `σ → α → Option σ` refuses the actions that are not enabled in
a state. A schedule is a list of actions; all interleavings of a concurrent
component are the schedules its step function accepts from the initial state.
-/
namespace NioClient.Execution
variable {σ α : Type*} {step : σ → α → Option σ}

/-- Runs a schedule; the whole run is refused when one of its actions is. -/
def exec (step : σ → α → Option σ) : σ → List α → Option σ
  | s, [] => some s
  | s, a :: as => (step s a).bind fun t => exec step t as

@[simp] theorem exec_nil (s : σ) : exec step s [] = some s := rfl

theorem exec_cons (s : σ) (a : α) (as : List α) :
    exec step s (a :: as) = (step s a).bind fun t => exec step t as := rfl

theorem exec_append (s : σ) (as bs : List α) :
    exec step s (as ++ bs) = (exec step s as).bind fun t => exec step t bs := by
  induction as generalizing s with
  | nil => rfl
  | cons a as ih =>
    simp only [List.cons_append, exec_cons, Option.bind_assoc, ih]

theorem exec_cons_iff {s u : σ} {a : α} {as : List α} :
    exec step s (a :: as) = some u ↔ ∃ t, step s a = some t ∧ exec step t as = some u := by
  simp [exec_cons, Option.bind_eq_some_iff]

theorem exec_append_iff {s u : σ} {as bs : List α} :
    exec step s (as ++ bs) = some u ↔ ∃ t, exec step s as = some t ∧ exec step t bs = some u := by
  simp [exec_append, Option.bind_eq_some_iff]

theorem exec_concat_iff {s u : σ} {a : α} {as : List α} :
    exec step s (as ++ [a]) = some u ↔ ∃ t, exec step s as = some t ∧ step t a = some u := by
  simp [exec_append_iff, exec_cons_iff]

/-- Induction over the runs from `s`, one last step at a time. The prefix of the
run is at hand in the step case, so facts already proved of it can be used. -/
theorem exec_induction {s : σ} {motive : List α → σ → Prop} (nil : motive [] s)
    (snoc : ∀ as t a u, exec step s as = some t → motive as t → step t a = some u →
      motive (as ++ [a]) u)
    {as : List α} {t : σ} (h : exec step s as = some t) : motive as t := by
  induction as using List.reverseRecOn generalizing t with
  | nil => cases h; exact nil
  | append_singleton as a ih =>
    obtain ⟨m,hm,ht⟩ := exec_concat_iff.mp h
    exact snoc as m a t hm (ih hm) ht

theorem exec_invariant {I : σ → Prop} (hstep : ∀ s a t, I s → step s a = some t → I t)
    {s t : σ} {as : List α} (hs : I s) (h : exec step s as = some t) : I t :=
  exec_induction (motive := fun _ t => I t) hs (fun _ m a u _ hm hu => hstep m a u hm hu) h

/-- Every step of the run from `s` meets `G` in the state it is taken from. -/
def Along (step : σ → α → Option σ) (G : σ → α → Prop) : σ → List α → Prop
  | _, [] => True
  | s, a :: as => G s a ∧ ∀ t, step s a = some t → Along step G t as

instance Along.decidable {G : σ → α → Prop} [∀ s a, Decidable (G s a)] :
    ∀ s as, Decidable (Along step G s as)
  | _, [] => isTrue trivial
  | s, a :: as =>
    match hs : step s a with
    | none => decidable_of_iff (G s a) (by simp [Along, hs])
    | some t =>
      have : Decidable (Along step G t as) := Along.decidable t as
      decidable_of_iff (G s a ∧ Along step G t as) (by simp [Along, hs])

theorem along_append {G : σ → α → Prop} {s t : σ} {as bs : List α} (h : Along step G s (as ++ bs))
    (ht : exec step s as = some t) : Along step G s as ∧ Along step G t bs := by
  induction as generalizing s with
  | nil => cases ht; exact ⟨trivial,h⟩
  | cons a as ih =>
    obtain ⟨m,hm,ht⟩ := exec_cons_iff.mp ht
    obtain ⟨hG,hrest⟩ := h
    obtain ⟨has,hbs⟩ := ih (hrest m hm) ht
    refine ⟨⟨hG,fun m' hm' => ?_⟩,hbs⟩
    cases hm.symm.trans hm'
    exact has

theorem exec_induction_along {G : σ → α → Prop} {s : σ} {motive : List α → σ → Prop}
    (nil : motive [] s)
    (snoc : ∀ as t a u, exec step s as = some t → G t a → motive as t → step t a = some u →
      motive (as ++ [a]) u)
    {as : List α} {t : σ} (hG : Along step G s as) (h : exec step s as = some t) : motive as t := by
  refine exec_induction (motive := fun as t => Along step G s as → motive as t)
    (fun _ => nil) (fun as m a u hm ih hu hall => ?_) h hG
  obtain ⟨has,ha⟩ := along_append hall hm
  exact snoc as m a u hm ha.1 (ih has) hu

/-- Two runs in step, the second without the actions that are not kept. -/
theorem exec_filter {R : σ → σ → Prop} {keep : α → Bool}
    (hkeep : ∀ s s' a t, R s s' → keep a = true → step s a = some t → ∃ t', step s' a = some t' ∧ R t t')
    (herase : ∀ s s' a t, R s s' → keep a = false → step s a = some t → R t s')
    {s s' t : σ} {as : List α} (hR : R s s') (h : exec step s as = some t) :
    ∃ t', exec step s' (as.filter keep) = some t' ∧ R t t' := by
  refine exec_induction (motive := fun as t => ∃ t', exec step s' (as.filter keep) = some t' ∧ R t t')
    ⟨s',rfl,hR⟩ ?_ h
  rintro as m a u - ⟨m',hm',hR⟩ hu
  rw [List.filter_append]
  cases hk : keep a with
  | true =>
    obtain ⟨u',hu',hRu⟩ := hkeep m m' a u hR hk hu
    refine ⟨u',?_,hRu⟩
    simpa [hk] using exec_concat_iff.mpr ⟨m',hm',hu'⟩
  | false => exact ⟨m', by simp [hk, hm'], herase m m' a u hR hk hu⟩

/-- An infinite run from `s`. -/
structure Trace (step : σ → α → Option σ) (s : σ) where
  state : ℕ → σ
  act : ℕ → α
  start : state 0 = s
  next : ∀ n, step (state n) (act n) = some (state (n + 1))

namespace Trace
variable {s : σ}

def taken (T : Trace step s) (n : ℕ) : List α := (List.range n).map T.act

theorem exec_taken (T : Trace step s) (n : ℕ) : exec step s (T.taken n) = some (T.state n) := by
  induction n with
  | zero => simp [taken, T.start]
  | succ n ih =>
    rw [taken, List.range_succ, List.map_append]
    exact exec_concat_iff.mpr ⟨T.state n,ih,T.next n⟩

theorem persists (T : Trace step s) {p : σ → Prop}
    (hstep : ∀ n, p (T.state n) → p (T.state (n + 1))) {m n : ℕ} (hmn : m ≤ n) (hm : p (T.state m)) :
    p (T.state n) := by
  induction hmn with
  | refl => exact hm
  | step _ ih => exact hstep _ ih

/-- A rank that rises again and again below `bound` gets there. -/
theorem reaches (T : Trace step s) (rank : σ → ℕ) {bound : ℕ}
    (hrise : ∀ n, rank (T.state n) < bound → ∃ m, n ≤ m ∧ rank (T.state n) < rank (T.state (m + 1)))
    (n : ℕ) : ∃ m, n ≤ m ∧ bound ≤ rank (T.state m) := by
  induction hgap : bound - rank (T.state n) using Nat.strongRecOn generalizing n with
  | ind gap ih =>
    by_cases hlt : rank (T.state n) < bound
    · obtain ⟨m,hnm,hm⟩ := hrise n hlt
      obtain ⟨l,hml,hl⟩ := ih (bound - rank (T.state (m + 1))) (by omega) (m + 1) rfl
      exact ⟨l, by omega, hl⟩
    · exact ⟨n,Nat.le_refl n, by omega⟩

end Trace
end NioClient.Execution
