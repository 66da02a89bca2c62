import Mathlib.Data.List.Basic

/-! # Places in a selection of a list

The elements of a list that satisfy a test stand in the filtered list in the same
order, each at a place of its own; an update of the list at one place is an update of
the selection at one place, or at none.
-/
namespace NioClient.Selection
variable {α β : Type*} {p : α → Bool} {l : List α} {i : ℕ} {x y : α}

/-- The place in the selection of what stands at `i` in the list. -/
def place (p : α → Bool) (l : List α) (i : ℕ) : ℕ := ((l.take i).filter p).length

theorem place_length (p : α → Bool) (l : List α) : place p l l.length = (l.filter p).length := by
  rw [place, List.take_length]

theorem place_append (h : i ≤ l.length) (r : List α) : place p (l ++ r) i = place p l i := by
  rw [place, List.take_append_of_le_length h, place]

theorem getElem?_place (h : l[i]? = some x) (hx : p x) : (l.filter p)[place p l i]? = some x := by
  induction l generalizing i with
  | nil => simp at h
  | cons a l ih =>
    cases i with
    | zero =>
      cases h
      simp [place, hx]
    | succ i =>
      have hi := ih h
      rw [place, List.take_succ_cons]
      by_cases ha : p a
      · rw [List.filter_cons_of_pos ha, List.filter_cons_of_pos ha]
        exact hi
      · rw [List.filter_cons_of_neg ha, List.filter_cons_of_neg ha]
        exact hi

theorem filter_set (h : l[i]? = some x) (hx : p x) (hy : p y) :
    (l.set i y).filter p = (l.filter p).set (place p l i) y := by
  induction l generalizing i with
  | nil => simp at h
  | cons a l ih =>
    cases i with
    | zero =>
      cases h
      simp [place, hx, hy]
    | succ i =>
      have hi := ih h
      rw [List.set_cons_succ, place, List.take_succ_cons]
      by_cases ha : p a
      · rw [List.filter_cons_of_pos ha, List.filter_cons_of_pos ha, List.filter_cons_of_pos ha, hi]
        rfl
      · rw [List.filter_cons_of_neg ha, List.filter_cons_of_neg ha, List.filter_cons_of_neg ha, hi]
        rfl

theorem filter_set_of_not (h : l[i]? = some x) (hx : ¬ p x) (hy : ¬ p y) :
    (l.set i y).filter p = l.filter p := by
  induction l generalizing i with
  | nil => rfl
  | cons a l ih =>
    cases i with
    | zero =>
      cases h
      rw [List.set_cons_zero, List.filter_cons_of_neg hx, List.filter_cons_of_neg hy]
    | succ i =>
      rw [List.set_cons_succ, List.filter_cons, List.filter_cons, ih h]

/-- An update which the test does not see moves nothing. -/
theorem place_set (h : l[i]? = some x) (hxy : p y = p x) (j : ℕ) : place p (l.set i y) j = place p l j := by
  unfold place
  by_cases hij : i < j
  · have hi : (l.take j)[i]? = some x := by rw [List.getElem?_take_of_lt hij, h]
    rw [List.take_set]
    by_cases hx : p x
    · rw [filter_set hi hx (hxy.trans hx), List.length_set]
    · rw [filter_set_of_not hi hx (by rwa [hxy])]
  · rw [List.take_set_of_le (Nat.le_of_not_lt hij)]

theorem filterMap_modify {g : α → Option β} {f : α → α} (hg : ∀ x, g (f x) = g x) (l : List α) (n : ℕ) :
    (l.modify n f).filterMap g = l.filterMap g := by
  induction l generalizing n with
  | nil => simp
  | cons a l ih =>
    cases n with
    | zero => simp [List.filterMap_cons, hg]
    | succ n => simp [List.filterMap_cons, ih]

end NioClient.Selection
