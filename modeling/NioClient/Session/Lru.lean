import Mathlib.Data.List.AList

/-! # The bounded LRU with recency generations

`map` is the `HashMap` from a key to its value and generation, `recency` the
`BTreeMap` from a generation to its key. Both are Mathlib's association lists
with distinct keys; a `BTreeMap` iterates in key order, so its first entry is
the one under the least key. The generation counter is unbounded here: the `u64`
of the source would need 2^64 cache operations to overflow.
-/
namespace NioClient.Session

structure Lru (K V : Type*) where
  map : AList fun _ : K => V × ℕ
  recency : AList fun _ : ℕ => K
  nextGen : ℕ
  capacity : ℕ

namespace Lru
variable {K V : Type*} [DecidableEq K]

def new (capacity : ℕ) : Lru K V := ⟨∅, ∅, 0, capacity⟩

def len (l : Lru K V) : ℕ := l.map.keys.length

def oldest (l : Lru K V) : Option (ℕ × K) :=
  l.recency.keys.min?.bind fun g => (l.recency.lookup g).map fun k => (g, k)

def get (l : Lru K V) (key : K) : Option V × Lru K V :=
  if l.capacity = 0 then (none, l)
  else
    match l.map.lookup key with
    | none => (none, l)
    | some (entry, oldGen) =>
      (some entry,
        { l with
          map := l.map.insert key (entry, l.nextGen)
          recency := (l.recency.erase oldGen).insert l.nextGen key
          nextGen := l.nextGen + 1 })

def peek (l : Lru K V) (key : K) : Option V := (l.map.lookup key).map Prod.fst

/-- The `while` loop of `put`. Every round removes a recency entry, so as much
fuel as there are recency entries never runs out (`evictLoop_fuel`). -/
def evictLoop : ℕ → Lru K V → Lru K V
  | 0, l => l
  | fuel + 1, l =>
    if l.capacity < l.len then
      match l.oldest with
      | none => l
      | some (lruGen, lruKey) =>
        evictLoop fuel { l with recency := l.recency.erase lruGen, map := l.map.erase lruKey }
    else l

/-- `put` up to its `while` loop. -/
def insertNewest (l : Lru K V) (key : K) (entry : V) : Lru K V :=
  { l with
    map := l.map.insert key (entry, l.nextGen)
    recency :=
      (match l.map.lookup key with
        | some (_, oldGen) => l.recency.erase oldGen
        | none => l.recency).insert l.nextGen key
    nextGen := l.nextGen + 1 }

def put (l : Lru K V) (key : K) (entry : V) : Lru K V :=
  if l.capacity = 0 then l
  else
    let l' := l.insertNewest key entry
    evictLoop l'.recency.keys.length l'

def remove (l : Lru K V) (key : K) : Lru K V :=
  match l.map.lookup key with
  | some (_, gen) => { l with map := l.map.erase key, recency := l.recency.erase gen }
  | none => l

omit [DecidableEq K] in
theorem oldest_lookup {l : Lru K V} {g : ℕ} {k : K} (h : l.oldest = some (g, k)) :
    l.recency.lookup g = some k := by
  simp only [oldest, Option.bind_eq_some_iff, Option.map_eq_some_iff, Prod.mk.injEq] at h
  obtain ⟨g',_,k',hk,rfl,rfl⟩ := h
  exact hk

omit [DecidableEq K] in
theorem erase_keys_length {l : Lru K V} {g : ℕ} {k : K} (h : l.oldest = some (g, k)) :
    (l.recency.erase g).keys.length + 1 = l.recency.keys.length := by
  have hmem : g ∈ l.recency.keys :=
    AList.mem_keys.mp (AList.lookup_isSome.mp (by simp [oldest_lookup h]))
  rw [AList.keys_erase, List.length_erase_of_mem hmem]
  have := List.length_pos_of_mem hmem
  omega

/-- More fuel than the recency map has entries changes nothing. -/
theorem evictLoop_fuel {l : Lru K V} {m n : ℕ} (hm : l.recency.keys.length ≤ m) (hmn : m ≤ n) :
    evictLoop n l = evictLoop m l := by
  induction m generalizing l n with
  | zero =>
    have hnil : l.recency.keys = [] := List.eq_nil_of_length_eq_zero (Nat.le_zero.mp hm)
    cases n with
    | zero => rfl
    | succ n => simp [evictLoop, oldest, hnil]
  | succ m ih =>
    obtain ⟨n,rfl⟩ : ∃ k, n = k + 1 := ⟨n - 1, by omega⟩
    simp only [evictLoop]
    split
    · split
      · rfl
      · rename_i g k hold
        have hlen := erase_keys_length hold
        exact ih (by dsimp only; omega) (by omega)
    · rfl

@[simp] theorem evictLoop_capacity (n : ℕ) (l : Lru K V) : (evictLoop n l).capacity = l.capacity := by
  induction n generalizing l with
  | zero => rfl
  | succ n ih =>
    simp only [evictLoop]
    split
    · split
      · rfl
      · exact ih _
    · rfl

theorem evictLoop_peek {n : ℕ} {l : Lru K V} {key : K} {v : V}
    (h : (evictLoop n l).peek key = some v) : l.peek key = some v := by
  induction n generalizing l with
  | zero => exact h
  | succ n ih =>
    simp only [evictLoop] at h
    split at h
    · split at h
      · exact h
      · rename_i g k hold
        have hp := ih h
        by_cases hk : key = k
        · subst hk; simp [peek] at hp
        · simpa [peek, AList.lookup_erase_ne hk] using hp
    · exact h

@[simp] theorem peek_new (capacity : ℕ) (key : K) : (new capacity : Lru K V).peek key = none := rfl
omit [DecidableEq K] in
@[simp] theorem capacity_new (capacity : ℕ) : (new capacity : Lru K V).capacity = capacity := rfl

@[simp] theorem capacity_get (l : Lru K V) (key : K) : (l.get key).2.capacity = l.capacity := by
  unfold get
  split
  · rfl
  · split <;> rfl

@[simp] theorem capacity_put (l : Lru K V) (key : K) (v : V) : (l.put key v).capacity = l.capacity := by
  unfold put
  split
  · rfl
  · simp [insertNewest]

@[simp] theorem capacity_remove (l : Lru K V) (key : K) : (l.remove key).capacity = l.capacity := by
  unfold remove
  split <;> rfl

theorem get_fst {l : Lru K V} {key : K} {v : V} (h : (l.get key).1 = some v) :
    l.peek key = some v := by
  unfold get at h
  split at h
  · cases h
  · split at h
    · cases h
    · rename_i entry oldGen hlook
      cases h
      simp [peek, hlook]

theorem get_fst_eq {l : Lru K V} (hc : l.capacity ≠ 0) (key : K) : (l.get key).1 = l.peek key := by
  unfold get peek
  rw [if_neg hc]
  cases l.map.lookup key with
  | none => rfl
  | some x => rfl

/-- `get` promotes an entry and keeps every value. -/
@[simp] theorem peek_get (l : Lru K V) (key key' : K) : (l.get key).2.peek key' = l.peek key' := by
  unfold get
  split
  · rfl
  · split
    · rfl
    · rename_i entry oldGen hlook
      by_cases hk : key' = key
      · subst hk; simp [peek, hlook]
      · simp [peek, AList.lookup_insert_ne hk]

@[simp] theorem peek_remove_self (l : Lru K V) (key : K) : (l.remove key).peek key = none := by
  unfold remove
  split
  · simp [peek]
  · rename_i hlook
    simp [peek, hlook]

theorem peek_remove {l : Lru K V} {key key' : K} {v : V} (h : (l.remove key).peek key' = some v) :
    key' ≠ key ∧ l.peek key' = some v := by
  have hne : key' ≠ key := by rintro rfl; simp at h
  refine ⟨hne,?_⟩
  unfold remove at h
  split at h
  · simpa [peek, AList.lookup_erase_ne hne] using h
  · exact h

theorem peek_remove_ne {key key' : K} (h : key' ≠ key) (l : Lru K V) :
    (l.remove key).peek key' = l.peek key' := by
  unfold remove
  split
  · simp [peek, AList.lookup_erase_ne h]
  · rfl

/-- `put` stores its value under its key and can only drop other entries. -/
theorem peek_put {l : Lru K V} {key key' : K} {v w : V} (hc : l.capacity ≠ 0)
    (h : (l.put key v).peek key' = some w) :
    (key' = key ∧ w = v) ∨ (key' ≠ key ∧ l.peek key' = some w) := by
  have hp : (l.insertNewest key v).peek key' = some w := by
    simp only [put, if_neg hc] at h
    exact evictLoop_peek h
  by_cases hk : key' = key
  · subst hk
    left
    simpa [insertNewest, peek, eq_comm] using hp
  · right
    exact ⟨hk, by simpa [insertNewest, peek, AList.lookup_insert_ne hk] using hp⟩

end Lru
end NioClient.Session
