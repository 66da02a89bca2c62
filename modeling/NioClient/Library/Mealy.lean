import Mathlib.Data.List.Forall2
import Mathlib.Data.List.Induction

/-! # Machines that reply

A machine is a function `σ → α → ρ × σ`: every input is taken in every state, and it
is replied to at once.
-/
namespace NioClient.Mealy
variable {σ τ α ρ ρ' : Type*} {f : σ → α → ρ × σ} {g : τ → α → ρ' × τ}

def final (f : σ → α → ρ × σ) : σ → List α → σ
  | s, [] => s
  | s, a :: as => final f (f s a).2 as

def replies (f : σ → α → ρ × σ) : σ → List α → List ρ
  | _, [] => []
  | s, a :: as => (f s a).1 :: replies f (f s a).2 as

theorem final_append (s : σ) (as bs : List α) : final f s (as ++ bs) = final f (final f s as) bs := by
  induction as generalizing s with
  | nil => rfl
  | cons a as ih => exact ih (f s a).2

/-- Induction over the inputs, the last one last. -/
theorem final_induction {s : σ} {motive : List α → σ → Prop} (nil : motive [] s)
    (snoc : ∀ as t a, motive as t → motive (as ++ [a]) (f t a).2) (as : List α) :
    motive as (final f s as) := by
  induction as using List.reverseRecOn with
  | nil => exact nil
  | append_singleton as a ih =>
    rw [final_append]
    exact snoc as _ a ih

theorem replies_all {I : σ → Prop} {P : ρ → Prop} (hstep : ∀ s a, I s → P (f s a).1 ∧ I (f s a).2) {s : σ}
    (hs : I s) (as : List α) : ∀ r ∈ replies f s as, P r := by
  induction as generalizing s with
  | nil => exact List.forall_mem_nil _
  | cons a as ih =>
    obtain ⟨hreply,hnext⟩ := hstep s a hs
    exact List.forall_mem_cons.mpr ⟨hreply,ih hnext⟩

/-- Two machines that go in step reply alike, and end alike. -/
theorem lockstep {R : σ → τ → Prop} {Q : ρ → ρ' → Prop}
    (hstep : ∀ s t a, R s t → Q (f s a).1 (g t a).1 ∧ R (f s a).2 (g t a).2) {s : σ} {t : τ}
    (hst : R s t) (as : List α) :
    List.Forall₂ Q (replies f s as) (replies g t as) ∧ R (final f s as) (final g t as) := by
  induction as generalizing s t with
  | nil => exact ⟨List.Forall₂.nil,hst⟩
  | cons a as ih =>
    obtain ⟨hreply,hnext⟩ := hstep s t a hst
    obtain ⟨hreplies,hfinal⟩ := ih hnext
    exact ⟨List.Forall₂.cons hreply hreplies,hfinal⟩

end NioClient.Mealy
