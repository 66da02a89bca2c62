import Mathlib.Algebra.BigOperators.Group.List.Basic
import Mathlib.Algebra.Order.Ring.Nat
import NioClient.Library.Execution

/-! # Amortised accounts of runs

A potential is what a state can still spend. If each step spends out of it and out of what
the step brings in, the costs of a whole run are bounded by what it has brought in.
-/
namespace NioClient.Execution
variable {σ α ι : Type*} {step : σ → α → Option σ}

/-- The accounting rule for runs with an invariant. -/
theorem exec_potential_within {I : σ → Prop} (hkeep : ∀ s a t, I s → step s a = some t → I t)
    {potential : σ → ℕ} {cost gain : α → ℕ}
    (hstep : ∀ s a t, I s → step s a = some t → potential t + cost a ≤ potential s + gain a)
    {s t : σ} {as : List α} (hs : I s) (h : exec step s as = some t) :
    potential t + (as.map cost).sum ≤ potential s + (as.map gain).sum := by
  refine exec_induction (motive := fun as t =>
    potential t + (as.map cost).sum ≤ potential s + (as.map gain).sum) (by simp) ?_ h
  intro as m a u hm ih hu
  have hpaid := hstep m a u (exec_invariant hkeep hs hm) hu
  simp only [List.map_append, List.sum_append, List.map_cons, List.map_nil, List.sum_cons, List.sum_nil]
  omega

theorem exec_potential {potential : σ → ℕ} {cost gain : α → ℕ}
    (hstep : ∀ s a t, step s a = some t → potential t + cost a ≤ potential s + gain a)
    {s t : σ} {as : List α} (h : exec step s as = some t) :
    potential t + (as.map cost).sum ≤ potential s + (as.map gain).sum :=
  exec_potential_within (I := fun _ => True) (fun _ _ _ _ _ => trivial) (fun s a t _ => hstep s a t) trivial h

theorem sum_map_set (w : ι → ℕ) {xs : List ι} {i : ℕ} {x : ι} (hx : xs[i]? = some x) (y : ι) :
    ((xs.set i y).map w).sum + w x = (xs.map w).sum + w y := by
  induction xs generalizing i with
  | nil => simp at hx
  | cons z xs ih =>
    cases i with
    | zero =>
      obtain rfl : z = x := by simpa using hx
      simp only [List.set_cons_zero, List.map_cons, List.sum_cons]
      omega
    | succ i =>
      have hrest := ih (i := i) (by simpa using hx)
      simp only [List.set_cons_succ, List.map_cons, List.sum_cons]
      omega

theorem sum_map_concat (w : ι → ℕ) (xs : List ι) (y : ι) :
    ((xs ++ [y]).map w).sum = (xs.map w).sum + w y := by
  simp

/-- A cost of one or nothing for each action is a count. -/
theorem sum_map_count (p : α → Bool) (n : ℕ) (as : List α) :
    (as.map fun a => if p a then n else 0).sum = n * as.countP p := by
  induction as with
  | nil => simp
  | cons a as ih =>
    rw [List.map_cons, List.sum_cons, ih, List.countP_cons]
    split
    · rw [Nat.mul_add]
      omega
    · rw [Nat.add_zero, Nat.zero_add]

end NioClient.Execution
