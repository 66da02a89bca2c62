import NioClient.Library.RecencyList

/-! # Recency lists of two capacities

Under the same operations the shorter list keeps the order of the longer one, but it need
not be a prefix of it: a `get` may hit in the longer list alone, and a `remove` may leave
the shorter one with room. What is kept is that the gap between the lengths is at most
the gap between the capacities.
-/
namespace NioClient.RecencyList
variable {K V : Type*} [DecidableEq K] {c₁ c₂ : ℕ} {l₁ l₂ : List (K × V)} {k : K} {v : V}

/-- `l₁`, of capacity `c₁`, is ordered within `l₂`, of capacity `c₂`. -/
structure Within (c₁ c₂ : ℕ) (l₁ l₂ : List (K × V)) : Prop where
  ordered : l₁.Sublist l₂
  distinct : (l₂.map Prod.fst).Nodup
  gap : l₂.length + c₁ ≤ l₁.length + c₂

omit [DecidableEq K] in
theorem within_nil (hc : c₁ ≤ c₂) : Within c₁ c₂ ([] : List (K × V)) [] :=
  ⟨List.Sublist.refl _,List.nodup_nil,by simpa using hc⟩

theorem Within.find (h : Within c₁ c₂ l₁ l₂) (hv : find k l₁ = some v) : find k l₂ = some v := by
  have hdistinct : (l₁.map Prod.fst).Nodup := h.distinct.sublist (h.ordered.map _)
  have hmem := (find_eq_some hdistinct).mp hv
  exact (find_eq_some h.distinct).mpr (h.ordered.subset hmem)

/-- The longer list forgets a key whenever the shorter one does. -/
theorem Within.length_forget (h : Within c₁ c₂ l₁ l₂) (k : K) :
    (forget k l₂).length + l₁.length ≤ (forget k l₁).length + l₂.length := by
  have hcount := h.ordered.le_countP fun x => decide (x.1 ≠ k)
  have hlen := h.ordered.length_le
  rw [List.countP_eq_length_filter, List.countP_eq_length_filter] at hcount
  unfold forget
  omega

theorem Within.forget (h : Within c₁ c₂ l₁ l₂) (k : K) :
    Within c₁ c₂ (forget k l₁) (forget k l₂) := by
  have hlen := h.length_forget k
  have hgap := h.gap
  exact ⟨h.ordered.filter _,distinct_forget h.distinct,by omega⟩

theorem Within.front (h : Within c₁ c₂ l₁ l₂) (k : K) (v : V) :
    Within c₁ c₂ ((k,v) :: RecencyList.forget k l₁) ((k,v) :: RecencyList.forget k l₂) := by
  have hforget := h.forget k
  have hgap := hforget.gap
  refine ⟨hforget.ordered.cons_cons _,distinct_front k v h.distinct,?_⟩
  rw [List.length_cons, List.length_cons]
  omega

theorem Within.touch (h : Within c₁ c₂ l₁ l₂) (k : K) : Within c₁ c₂ (touch k l₁) (touch k l₂) := by
  rcases touch_eq (k := k) (l := l₁) with ⟨v,hv,htouch⟩ | ⟨hnone,htouch⟩
  · have hboth : RecencyList.touch k l₂ = (k,v) :: RecencyList.forget k l₂ := by
      rw [RecencyList.touch, h.find hv]
    rw [htouch, hboth]
    exact h.front k v
  · rw [htouch]
    rcases touch_eq (k := k) (l := l₂) with ⟨v,hv,htouch'⟩ | ⟨-,htouch'⟩
    · -- a hit in the longer list alone
      have hforget := h.forget k
      rw [forget_of_find_none hnone] at hforget
      have hlen := length_touch_le k l₂
      have hgap := h.gap
      rw [htouch'] at hlen ⊢
      exact ⟨hforget.ordered.cons _,distinct_front k v h.distinct,by omega⟩
    · rwa [htouch']

omit [DecidableEq K] in
theorem Within.take (h : Within c₁ c₂ l₁ l₂) : Within c₁ c₂ (l₁.take c₁) (l₂.take c₂) := by
  have hgap := h.gap
  refine ⟨?_,?_,?_⟩
  · have hsplit := h.ordered
    rw [← List.take_append_drop c₂ l₂, List.sublist_append_iff] at hsplit
    obtain ⟨kept,lost,rfl,hkept,hlost⟩ := hsplit
    have hlen := hlost.length_le
    rw [List.length_drop] at hlen
    rw [List.length_append] at hgap
    by_cases hcut : l₂.length ≤ c₂
    · rw [List.take_of_length_le hcut]
      exact (List.take_sublist _ _).trans h.ordered
    · rw [List.take_append_of_le_length (by omega)]
      exact (List.take_sublist _ _).trans hkept
  · rw [List.map_take]
    exact h.distinct.sublist (List.take_sublist _ _)
  · rw [List.length_take, List.length_take]
    omega

theorem Within.apply (h : Within c₁ c₂ l₁ l₂) (op : Op K V) :
    Within c₁ c₂ (apply c₁ l₁ op).2 (apply c₂ l₂ op).2 := by
  cases op with
  | get k => exact h.touch k
  | peek k => exact h
  | put k v => exact (h.front k v).take
  | remove k => exact h.forget k

end NioClient.RecencyList
