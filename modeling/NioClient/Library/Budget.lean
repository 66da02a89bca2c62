import Mathlib.Algebra.BigOperators.Group.List.Basic
import Mathlib.Algebra.Order.Ring.Nat
import NioClient.Library.Program

/-! # Programs with a budget

Each call has a price. A program is within a budget if it can pay for its calls, whatever
the replies to them are.
-/
namespace NioClient.Environment.Program
variable {Q Q' : Type} {A : Q → Type} {A' : Q' → Type} {α β : Type} {price : Q → ℕ}

def Within (price : Q → ℕ) : Program Q A α → ℕ → Prop
  | .pure _, _ => True
  | .call q next, n => price q ≤ n ∧ ∀ a, (next a).Within price (n - price q)

/-- What the calls of a log have cost. -/
def spent (price : Q → ℕ) (log : List (Σ q, A q)) : ℕ := (log.map fun e => price e.1).sum

@[simp] theorem spent_nil : spent (A := A) price [] = 0 := rfl

@[simp] theorem spent_concat (log : List (Σ q, A q)) (q : Q) (a : A q) :
    spent price (log ++ [⟨q,a⟩]) = spent price log + price q := by
  simp [spent]

@[simp] theorem within_pure {a : α} {n : ℕ} : (Pure.pure a : Program Q A α).Within price n := trivial

theorem within_ask (q : Q) : (ask q : Program Q A (A q)).Within price (price q) := ⟨le_rfl,fun _ => trivial⟩

theorem Within.mono {p : Program Q A α} {m n : ℕ} (h : p.Within price m) (hmn : m ≤ n) : p.Within price n := by
  induction p generalizing m n with
  | pure a => trivial
  | call q next ih => exact ⟨h.1.trans hmn,fun a => ih a (h.2 a) (Nat.sub_le_sub_right hmn _)⟩

theorem Within.bind {p : Program Q A α} {f : α → Program Q A β} {m n : ℕ} (h : p.Within price m)
    (hf : ∀ a, (f a).Within price n) : (p >>= f).Within price (m + n) := by
  induction p generalizing m with
  | pure a => exact (hf a).mono (Nat.le_add_left ..)
  | call q next ih =>
    refine ⟨h.1.trans (Nat.le_add_right ..),fun a => ?_⟩
    have hrest := ih a (h.2 a)
    rwa [← Nat.sub_add_comm h.1] at hrest

theorem Within.map {p : Program Q A α} {n : ℕ} (h : p.Within price n) (f : α → β) :
    (f <$> p).Within price n := by
  rw [map_eq_pure_bind]
  exact h.bind fun _ => within_pure (n := 0)

theorem within_lift {price : Q' → ℕ} {f : Q → Q'} {back : ∀ q, A' (f q) → A q} {p : Program Q A α} {n : ℕ}
    (h : p.Within (price ∘ f) n) : (p.lift f back).Within price n := by
  induction p generalizing n with
  | pure a => trivial
  | call q next ih => exact ⟨h.1,fun a => ih _ (h.2 _)⟩

/-- What a program has spent is within its budget, and it goes on with what is left. -/
theorem Within.reaches {p r : Program Q A α} {log : List (Σ q, A q)} {n : ℕ} (h : p.Within price n)
    (hr : p.Reaches log r) : spent price log ≤ n ∧ r.Within price (n - spent price log) := by
  induction hr with
  | refl => exact ⟨Nat.zero_le n,h⟩
  | @reply log q next _ a ih =>
    obtain ⟨hspent,hprice,hnext⟩ := ih
    rw [spent_concat, ← Nat.sub_sub]
    exact ⟨by omega, hnext a⟩

end NioClient.Environment.Program
