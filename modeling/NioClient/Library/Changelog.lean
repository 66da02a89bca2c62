import Mathlib.Data.List.Basic
import Mathlib.Data.Nat.Basic

/-! # Tailing a changelog

A log is ordered by strictly increasing positions. It is read in messages: each has a
mark, and carries what lies behind the mark of the message before it and up to its own.
-/
namespace NioClient.Changelog
variable {α : Type*} (pos : α → ℕ)

def Ordered (log : List α) : Prop := log.Pairwise fun x y => pos x < pos y

def span (lo hi : ℕ) (log : List α) : List α := log.filter fun x => decide (lo < pos x ∧ pos x ≤ hi)

structure Message (α : Type*) where
  mark : ℕ
  batch : List α

/-- The message is complete from `lo` on, and its batch is at its mark: no part of the log
is split, or passed over. -/
structure Message.Complete (log : List α) (lo : ℕ) (m : Message α) : Prop where
  le : lo ≤ m.mark
  batch : m.batch = span pos lo m.mark log
  atMark : ∀ x ∈ m.batch, pos x = m.mark

/-- Messages which lead from mark `lo` to mark `hi`, each complete from the one before it. -/
inductive Chain (log : List α) : ℕ → List (Message α) → ℕ → Prop where
  | nil (lo : ℕ) : Chain log lo [] lo
  | cons {lo hi : ℕ} {m : Message α} {ms : List (Message α)} (hm : m.Complete pos log lo)
      (hms : Chain log m.mark ms hi) : Chain log lo (m :: ms) hi

variable {pos} {log : List α} {lo mid hi : ℕ} {x : α} {m : Message α} {ms ms' : List (Message α)}

@[simp] theorem mem_span : x ∈ span pos lo hi log ↔ x ∈ log ∧ lo < pos x ∧ pos x ≤ hi := by
  simp [span]

@[simp] theorem span_self : span pos lo lo log = [] := by
  simp only [span, List.filter_eq_nil_iff, decide_eq_true_eq]
  intro x _ hx
  omega

theorem span_eq_nil (h : ∀ x ∈ log, mid < pos x) (hhi : hi ≤ mid) : span pos lo hi log = [] := by
  simp only [span, List.filter_eq_nil_iff, decide_eq_true_eq]
  intro x hx hspan
  have := h x hx
  omega

theorem span_concat (h : pos x ≤ lo ∨ hi < pos x) : span pos lo hi (log ++ [x]) = span pos lo hi log := by
  have hx : ¬ (lo < pos x ∧ pos x ≤ hi) := by omega
  simp [span, hx]

theorem span_append (hlog : Ordered pos log) (hlo : lo ≤ mid) (hhi : mid ≤ hi) :
    span pos lo mid log ++ span pos mid hi log = span pos lo hi log := by
  induction log with
  | nil => rfl
  | cons x log ih =>
    obtain ⟨hx,hrest⟩ := List.pairwise_cons.mp hlog
    have hih := ih hrest
    by_cases hmid : pos x ≤ mid
    · have hsecond : ¬ (mid < pos x ∧ pos x ≤ hi) := by omega
      have hfirst : (lo < pos x ∧ pos x ≤ mid) ↔ (lo < pos x ∧ pos x ≤ hi) := by omega
      have hcons : span pos mid hi (x :: log) = span pos mid hi log := by
        simp only [span, List.filter_cons, hsecond, decide_false, Bool.false_eq_true, if_false]
      rw [hcons, span, span, List.filter_cons]
      conv_rhs => rw [span, List.filter_cons]
      simp only [hfirst]
      split
      · exact congrArg (x :: ·) hih
      · exact hih
    · -- the log goes on behind `mid`, so the first span is empty
      have hnil : span pos lo mid (x :: log) = [] := by
        refine span_eq_nil (fun y hy => (?_ : mid < pos y)) le_rfl
        rcases List.mem_cons.mp hy with rfl | hy
        · omega
        · have := hx y hy
          omega
      rw [hnil, List.nil_append]
      refine List.filter_congr fun y hy => decide_eq_decide.mpr ?_
      have hy' : mid < pos y := by
        rcases List.mem_cons.mp hy with rfl | hy
        · omega
        · have := hx y hy
          omega
      omega

theorem Ordered.concat (hlog : Ordered pos log) (h : ∀ y ∈ log, pos y < pos x) :
    Ordered pos (log ++ [x]) := by
  refine List.pairwise_append.mpr ⟨hlog,List.pairwise_singleton _ _,fun y hy z hz => ?_⟩
  rw [List.mem_singleton.mp hz]
  exact h y hy

theorem Message.Complete.concat (hm : m.Complete pos log lo) (h : pos x ≤ lo ∨ m.mark < pos x) :
    m.Complete pos (log ++ [x]) lo :=
  ⟨hm.le, by rw [span_concat h, hm.batch], hm.atMark⟩

namespace Chain

theorem le (h : Chain pos log lo ms hi) : lo ≤ hi := by
  induction h with
  | nil => exact le_rfl
  | cons hm _ ih => exact Nat.le_trans hm.le ih

theorem append (h : Chain pos log lo ms mid) (h' : Chain pos log mid ms' hi) :
    Chain pos log lo (ms ++ ms') hi := by
  induction h with
  | nil => exact h'
  | cons hm _ ih => exact .cons hm (ih h')

theorem split (h : Chain pos log lo (ms ++ ms') hi) :
    ∃ mid, Chain pos log lo ms mid ∧ Chain pos log mid ms' hi := by
  induction ms generalizing lo with
  | nil => exact ⟨lo,.nil lo,h⟩
  | cons m ms ih =>
    cases h with
    | cons hm hms =>
      obtain ⟨mid,hfirst,hsecond⟩ := ih hms
      exact ⟨mid,.cons hm hfirst,hsecond⟩

/-- A chain stays one while the log grows outside it. -/
theorem concat (h : Chain pos log lo ms hi) (hx : pos x ≤ lo ∨ hi < pos x) :
    Chain pos (log ++ [x]) lo ms hi := by
  induction h with
  | nil => exact .nil _
  | cons hm hms ih =>
    have hle := hm.le
    have hhi := hms.le
    exact .cons (hm.concat (by omega)) (ih (by omega))

theorem batches (hlog : Ordered pos log) (h : Chain pos log lo ms hi) :
    ms.flatMap Message.batch = span pos lo hi log := by
  induction h with
  | nil => simp
  | cons hm hms ih => rw [List.flatMap_cons, ih, hm.batch, span_append hlog hm.le hms.le]

theorem batch_le_one (hlog : Ordered pos log) (h : Chain pos log lo ms hi) (hm : m ∈ ms) :
    m.batch = [] ∨ ∃ x, m.batch = [x] ∧ pos x = m.mark := by
  induction h with
  | nil => cases hm
  | cons hm' _ ih =>
    rcases List.mem_cons.mp hm with rfl | hm
    · have hsorted : Ordered pos m.batch := by
        rw [hm'.batch]
        exact hlog.filter _
      rcases hbatch : m.batch with _ | ⟨x,_ | ⟨y,rest⟩⟩
      · exact Or.inl rfl
      · exact Or.inr ⟨x,rfl,hm'.atMark x (by simp [hbatch])⟩
      · -- two items of one batch would share their position
        rw [hbatch] at hsorted
        have hlt := (List.pairwise_cons.mp hsorted).1 y (by simp)
        have hx := hm'.atMark x (by simp [hbatch])
        have hy := hm'.atMark y (by simp [hbatch])
        omega
    · exact ih hm

/-- Where the messages of a chain have been received one for one, the items of the span
have been received one for one, in those that are not quiet. -/
theorem deliveries {β : Type*} {R : α → β → Prop} {quiet : β → Bool} (hlog : Ordered pos log)
    (h : Chain pos log lo ms hi) {received : List β}
    (hreceived : List.Forall₂ (fun m b => (m.batch = [] → quiet b = true) ∧
      ∀ x ∈ log, pos x = m.mark → m.batch = [x] → quiet b = false ∧ R x b) ms received) :
    List.Forall₂ R (span pos lo hi log) (received.filter fun b => !quiet b) := by
  rw [← h.batches hlog]
  induction h generalizing received with
  | nil =>
    cases hreceived
    exact .nil
  | cons hm hms ih =>
    obtain _ | ⟨⟨hquiet,hitem⟩,hrest⟩ := hreceived
    rw [List.flatMap_cons, List.filter_cons]
    rcases batch_le_one hlog (.cons hm hms) (List.mem_cons_self ..) with hbatch | ⟨x,hbatch,hmark⟩
    · rw [hbatch, hquiet hbatch]
      exact ih hrest
    · have hlogged : x ∈ log := by
        have hmem : x ∈ span pos _ _ log := hm.batch ▸ hbatch ▸ List.mem_singleton_self x
        exact (mem_span.mp hmem).1
      obtain ⟨hloud,hx⟩ := hitem x hlogged hmark hbatch
      rw [hbatch, hloud]
      exact .cons hx (ih hrest)

end Chain

theorem exists_delivery {β : Type*} {R : α → β → Prop} {xs : List α} {received : List β}
    (h : List.Forall₂ R xs received) (hx : x ∈ xs) : ∃ b ∈ received, R x b := by
  induction h with
  | nil => cases hx
  | cons hab _ ih =>
    rcases List.mem_cons.mp hx with rfl | hx
    · exact ⟨_,List.mem_cons_self ..,hab⟩
    · obtain ⟨b,hb,hxb⟩ := ih hx
      exact ⟨b,List.mem_cons_of_mem _ hb,hxb⟩

end NioClient.Changelog
