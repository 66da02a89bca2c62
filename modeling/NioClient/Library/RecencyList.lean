import Mathlib.Data.List.Basic
import Mathlib.Data.List.Nodup

/-! # Bounded lists in order of recency

A list of keys with values, the most recently used first, is the plain account
of a cache which drops the least recently used entry.
-/
namespace NioClient.RecencyList
variable {K V W : Type*} [DecidableEq K]

def find (k : K) (l : List (K × V)) : Option V := (l.find? fun x => x.1 = k).map Prod.snd

def forget (k : K) (l : List (K × V)) : List (K × V) := l.filter fun x => x.1 ≠ k

/-- Moves the entry of `k`, if there is one, to the front. -/
def touch (k : K) (l : List (K × V)) : List (K × V) :=
  match find k l with
  | some v => (k,v) :: forget k l
  | none => l

/-- Puts an entry at the front; what is beyond the capacity is dropped. -/
def store (capacity : ℕ) (k : K) (v : V) (l : List (K × V)) : List (K × V) :=
  ((k,v) :: forget k l).take capacity

theorem find_eq_some_key {k : K} {l : List (K × V)} : (∃ v, find k l = some v) ↔ k ∈ l.map Prod.fst := by
  rw [← Option.isSome_iff_exists, find, Option.isSome_map, List.find?_isSome]
  simp

theorem length_forget_lt {k : K} {v : V} {l : List (K × V)} (h : find k l = some v) :
    (forget k l).length < l.length := by
  obtain ⟨x,hx,-⟩ := Option.map_eq_some_iff.mp h
  have hkey : x.1 = k := by simpa using List.find?_some hx
  refine List.length_filter_lt_length_iff_exists.mpr ⟨x,List.mem_of_find?_eq_some hx,?_⟩
  simp [hkey]

theorem length_touch_le (k : K) (l : List (K × V)) : (touch k l).length ≤ l.length := by
  unfold touch
  cases h : find k l with
  | none => exact Nat.le_refl _
  | some v => exact length_forget_lt h

theorem length_forget_le (k : K) (l : List (K × V)) : (forget k l).length ≤ l.length :=
  List.length_filter_le ..

theorem length_store_le (capacity : ℕ) (k : K) (v : V) (l : List (K × V)) :
    (store capacity k v l).length ≤ capacity := List.length_take_le ..

theorem find_forget_ne {k k' : K} (h : k' ≠ k) (l : List (K × V)) : find k' (forget k l) = find k' l := by
  unfold find forget
  rw [List.find?_filter]
  congr 2
  funext x
  by_cases hx : x.1 = k'
  · simp [hx, h]
  · simp [hx]

theorem find_store_self (k : K) (v : V) (l : List (K × V)) {capacity : ℕ} (h : 0 < capacity) :
    find k (store capacity k v l) = some v := by
  obtain ⟨n,rfl⟩ : ∃ n, capacity = n + 1 := ⟨capacity - 1, by omega⟩
  simp [find, store]

/-- A store that drops nothing changes what is found under its own key only. -/
theorem find_store_ne {k k' : K} (h : k' ≠ k) {capacity : ℕ} (v : V) {l : List (K × V)}
    (hfit : (forget k l).length < capacity) : find k' (store capacity k v l) = find k' l := by
  have hall : store capacity k v l = (k,v) :: forget k l := List.take_of_length_le hfit
  rw [hall, ← find_forget_ne h l]
  simp [find, h.symm]

theorem distinct_forget {k : K} {l : List (K × V)} (h : (l.map Prod.fst).Nodup) :
    ((forget k l).map Prod.fst).Nodup := h.sublist (List.filter_sublist.map _)

theorem distinct_front (k : K) (v : V) {l : List (K × V)} (h : (l.map Prod.fst).Nodup) :
    (((k,v) :: forget k l).map Prod.fst).Nodup := by
  refine List.nodup_cons.mpr ⟨fun hmem => ?_,distinct_forget h⟩
  obtain ⟨x,hx,hkey⟩ := List.mem_map.mp hmem
  have hne : x.1 ≠ k := by simpa using (List.mem_filter.mp hx).2
  exact hne hkey

theorem find_eq_some {k : K} {v : V} {l : List (K × V)} (h : (l.map Prod.fst).Nodup) :
    find k l = some v ↔ (k,v) ∈ l := by
  constructor
  · intro hfind
    obtain ⟨x,hx,rfl⟩ := Option.map_eq_some_iff.mp hfind
    have hkey : x.1 = k := by simpa using List.find?_some hx
    subst hkey
    exact List.mem_of_find?_eq_some hx
  · intro hmem
    obtain ⟨w,hw⟩ := find_eq_some_key.mpr (List.mem_map_of_mem hmem)
    obtain ⟨x,hx,rfl⟩ := Option.map_eq_some_iff.mp hw
    have hkey : x.1 = k := by simpa using List.find?_some hx
    have heq : x = (k,v) := List.inj_on_of_nodup_map h (List.mem_of_find?_eq_some hx) hmem hkey
    rw [hw, heq]

theorem forget_of_find_none {k : K} {l : List (K × V)} (h : find k l = none) : forget k l = l := by
  refine List.filter_eq_self.mpr fun x hx => ?_
  have hnone := List.find?_eq_none.mp (Option.map_eq_none_iff.mp h) x hx
  simpa using hnone

inductive Op (K V : Type*) where
  | get (k : K)
  | peek (k : K)
  | put (k : K) (v : V)
  | remove (k : K)
deriving DecidableEq

inductive Reply (V : Type*) where
  | found (v : Option V)
  | done
deriving DecidableEq

def apply (capacity : ℕ) (l : List (K × V)) : Op K V → Reply V × List (K × V)
  | .get k => (.found (find k l),touch k l)
  | .peek k => (.found (find k l),l)
  | .put k v => (.done,store capacity k v l)
  | .remove k => (.done,forget k l)

theorem touch_eq {k : K} {l : List (K × V)} :
    (∃ v, find k l = some v ∧ touch k l = (k,v) :: forget k l) ∨ find k l = none ∧ touch k l = l := by
  unfold touch
  cases h : find k l with
  | none => exact Or.inr ⟨rfl,rfl⟩
  | some v => exact Or.inl ⟨v,rfl,rfl⟩

/-- A store into a full list drops the last entry, and no other, if its key is new. -/
theorem store_full {capacity : ℕ} {k : K} (v : V) {l : List (K × V)} (hpos : 0 < capacity)
    (hnew : find k l = none) (hfull : l.length = capacity) :
    store capacity k v l = (k,v) :: l.dropLast := by
  obtain ⟨n,rfl⟩ : ∃ n, capacity = n + 1 := ⟨capacity - 1, by omega⟩
  rw [store, forget_of_find_none hnew, List.take_succ_cons, List.dropLast_eq_take, hfull, Nat.add_sub_cancel]

/-- Otherwise it drops nothing. -/
theorem store_fits {capacity : ℕ} {k : K} (v : V) {l : List (K × V)} (hlen : l.length ≤ capacity)
    (hroom : find k l ≠ none ∨ l.length < capacity) : store capacity k v l = (k,v) :: forget k l := by
  have hfit : (forget k l).length < capacity := by
    rcases hroom with hold | hlt
    · obtain ⟨w,hw⟩ := Option.ne_none_iff_exists'.mp hold
      have hlt := length_forget_lt hw
      omega
    · have hle := length_forget_le k l
      omega
  exact List.take_of_length_le hfit

def mapValues (f : V → W) (l : List (K × V)) : List (K × W) := l.map fun x => (x.1,f x.2)

variable (f : V → W) (k : K) (l : List (K × V))

theorem find_mapValues : find k (mapValues f l) = (find k l).map f := by
  simp only [find, mapValues, List.find?_map, Option.map_map]
  rfl

theorem forget_mapValues : forget k (mapValues f l) = mapValues f (forget k l) := by
  simp only [forget, mapValues, List.filter_map]
  rfl

theorem touch_mapValues : touch k (mapValues f l) = mapValues f (touch k l) := by
  unfold touch
  rw [find_mapValues]
  cases find k l with
  | none => rfl
  | some v => exact congrArg ((k,f v) :: ·) (forget_mapValues f k l)

theorem store_mapValues (capacity : ℕ) (v : V) :
    store capacity k (f v) (mapValues f l) = mapValues f (store capacity k v l) := by
  rw [store, forget_mapValues, store]
  simp only [mapValues, List.map_take, List.map_cons]

end NioClient.RecencyList
