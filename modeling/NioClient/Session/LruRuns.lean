import NioClient.Library.Mealy
import NioClient.Library.RecencyInclusion
import NioClient.Session.LruRefinement

/-! # Runs of the LRU

The operations of a cache, one after the other from `Lru::new`. The generation counter
is a `u64` in the source; in fewer than `UInt64.size` operations it does not wrap.
-/
namespace NioClient.Session.Lru
open RecencyList Mealy
variable {K V : Type*} [DecidableEq K] {l : Lru K V} {gs : List (ℕ × K × V)} {es : List (K × V)}
  {c c₁ c₂ : ℕ} {ops : List (Op K V)}

def apply (l : Lru K V) : Op K V → Reply V × Lru K V
  | .get k => (.found (l.get k).1,(l.get k).2)
  | .peek k => (.found (l.peek k),l)
  | .put k v => (.done,l.put k v)
  | .remove k => (.done,l.remove k)

def after (c : ℕ) (ops : List (Op K V)) : Lru K V := final apply (new c) ops

def listed (c : ℕ) (ops : List (Op K V)) : List (K × V) := final (RecencyList.apply c) [] ops

theorem Refines.apply (h : Refines l es) (op : Op K V) :
    (l.apply op).1 = (RecencyList.apply l.capacity es op).1 ∧
      Refines (l.apply op).2 (RecencyList.apply l.capacity es op).2 := by
  cases op with
  | get k =>
    obtain ⟨hfound,hget⟩ := h.get k
    exact ⟨congrArg Reply.found hfound,hget⟩
  | peek k => exact ⟨congrArg Reply.found (h.peek k),h⟩
  | put k v => exact ⟨rfl,h.put k v⟩
  | remove k => exact ⟨rfl,h.remove k⟩

@[simp] theorem capacity_apply (l : Lru K V) (op : Op K V) : (l.apply op).2.capacity = l.capacity := by
  cases op with
  | get k => exact capacity_get l k
  | peek k => rfl
  | put k v => exact capacity_put l k v
  | remove k => exact capacity_remove l k

def Holds (c : ℕ) (l : Lru K V) (es : List (K × V)) : Prop := l.capacity = c ∧ Refines l es

theorem Holds.apply (h : Holds c l es) (op : Op K V) : (l.apply op).1 = (RecencyList.apply c es op).1 ∧
    Holds c (l.apply op).2 (RecencyList.apply c es op).2 := by
  obtain ⟨rfl,hes⟩ := h
  obtain ⟨hreply,hnext⟩ := hes.apply op
  exact ⟨hreply,capacity_apply l op,hnext⟩

theorem holds_new (c : ℕ) : Holds c (new c : Lru K V) [] := ⟨rfl,refines_new c⟩

theorem run_lockstep (c : ℕ) (ops : List (Op K V)) :
    List.Forall₂ Eq (replies apply (new c) ops) (replies (RecencyList.apply c) [] ops) ∧
      Holds c (after c ops) (listed c ops) :=
  lockstep (fun _ _ op h => h.apply op) (holds_new c) ops

theorem run_holds (c : ℕ) (ops : List (Op K V)) : Holds c (after c ops) (listed c ops) :=
  (run_lockstep c ops).2

@[simp] theorem nextGen_evictLoop (n : ℕ) (l : Lru K V) : (evictLoop n l).nextGen = l.nextGen := by
  induction n generalizing l with
  | zero => rfl
  | succ n ih =>
    simp only [evictLoop]
    split
    · split
      · rfl
      · exact ih _
    · rfl

theorem nextGen_apply (l : Lru K V) (op : Op K V) : (l.apply op).2.nextGen ≤ l.nextGen + 1 := by
  cases op with
  | get k =>
    simp only [apply, get]
    split
    · exact Nat.le_succ _
    · split
      · exact Nat.le_succ _
      · exact Nat.le_refl _
  | peek k => exact Nat.le_succ _
  | put k v =>
    simp only [apply, put]
    split
    · exact Nat.le_succ _
    · rw [nextGen_evictLoop]
      exact Nat.le_refl _
  | remove k =>
    simp only [apply, remove]
    split <;> exact Nat.le_succ _

theorem run_nextGen (c : ℕ) (ops : List (Op K V)) : (after c ops).nextGen ≤ ops.length := by
  refine final_induction (motive := fun ops (l : Lru K V) => l.nextGen ≤ ops.length) (Nat.le_refl 0) ?_ ops
  intro ops l op ih
  have hstep := nextGen_apply l op
  rw [List.length_append, List.length_singleton]
  omega

theorem nextGen_lt (hops : ops.length < UInt64.size) {pre post : List (Op K V)} (hsplit : ops = pre ++ post) :
    (after c pre).nextGen < UInt64.size := by
  have hlen := run_nextGen c pre
  rw [hsplit, List.length_append] at hops
  omega

/-- The cache of capacity `c` replies to the operations as a list would whose keys are
distinct, the most recently used first, and which is cut to length `c`. -/
structure Textbook (c : ℕ) (ops : List (Op K V)) : Prop where
  replies : replies apply (new c) ops = replies (RecencyList.apply c) [] ops
  distinct : ∀ pre post, ops = pre ++ post → ((listed c pre).map Prod.fst).Nodup
  bounded : ∀ pre post, ops = pre ++ post → (listed c pre).length ≤ c
  /-- A put on overflow drops the last entry alone. -/
  dropped : ∀ pre k v post, ops = pre ++ .put k v :: post → 0 < c → find k (listed c pre) = none →
    (listed c pre).length = c → listed c (pre ++ [.put k v]) = (k,v) :: (listed c pre).dropLast
  /-- Any other put drops nothing. -/
  kept : ∀ pre k v post, ops = pre ++ .put k v :: post →
    find k (listed c pre) ≠ none ∨ (listed c pre).length < c →
    listed c (pre ++ [.put k v]) = (k,v) :: forget k (listed c pre)
  disabled : c = 0 → ∀ v, .found v ∈ Mealy.replies apply (new c) ops → v = none
  unwrapped : ∀ pre post, ops = pre ++ post → (after c pre).nextGen < UInt64.size

theorem listed_length_le (c : ℕ) (ops : List (Op K V)) : (listed c ops).length ≤ c := by
  obtain ⟨hcap,-,-,-,hlen⟩ := run_holds c ops
  rwa [hcap] at hlen

theorem listed_put (c : ℕ) (ops : List (Op K V)) (k : K) (v : V) :
    listed c (ops ++ [.put k v]) = store c k v (listed c ops) := final_append [] ops [.put k v]

theorem disabled_replies (ops : List (Op K V)) :
    ∀ r ∈ replies (RecencyList.apply 0) [] ops, ∀ v, r = .found v → v = none := by
  refine replies_all (I := fun l => l = []) ?_ rfl ops
  rintro _ op rfl
  cases op with
  | get k | peek k => exact ⟨fun v h => (Reply.found.inj h).symm,rfl⟩
  | put k v =>
    have hcut : store 0 k v ([] : List (K × V)) = [] := List.take_zero
    exact ⟨fun _ h => (by cases h),hcut⟩
  | remove k => exact ⟨fun _ h => (by cases h),rfl⟩

theorem run_replies (c : ℕ) (ops : List (Op K V)) :
    replies apply (new c) ops = replies (RecencyList.apply c) [] ops := by
  have hreplies := (run_lockstep c ops).1
  rwa [List.forall₂_eq_eq_eq] at hreplies

theorem refines_textbook (c : ℕ) (hops : ops.length < UInt64.size) : Textbook c ops where
  replies := run_replies c ops
  distinct pre post _ := (run_holds c pre).2.keys_nodup
  bounded pre post _ := listed_length_le c pre
  dropped pre k v post _ hpos hnew hfull := by
    rw [listed_put]
    exact store_full v hpos hnew hfull
  kept pre k v post _ hroom := by
    rw [listed_put]
    exact store_fits v (listed_length_le c pre) hroom
  disabled hc v hv := by
    rw [hc, run_replies] at hv
    exact disabled_replies ops _ hv v rfl
  unwrapped pre post hsplit := nextGen_lt hops hsplit

theorem refines_textbook_evicts :
    replies apply (new 2 : Lru String ℕ)
        [.get "a",.put "a" 1,.get "b",.put "b" 2,.get "c",.put "c" 3,.get "a",.get "b"] =
      [.found none,.done,.found none,.done,.found none,.done,.found none,.found (some 2)] :=
  (refines_textbook 2 (by decide)).replies.trans (by decide)

/-- The two maps of a cache of capacity `c` mirror each other. -/
structure Sound (c : ℕ) (l : Lru K V) : Prop where
  paired : ∀ k g, (∃ v, l.map.lookup k = some (v,g)) ↔ l.recency.lookup g = some k
  unshared : ∀ k v k' v' g, l.map.lookup k = some (v,g) → l.map.lookup k' = some (v',g) → k = k'
  below : ∀ g k, l.recency.lookup g = some k → g < l.nextGen
  same_len : l.recency.keys.length = l.len
  len_le : l.len ≤ c

theorem Holds.sound (h : Holds c l es) : Sound c l := by
  obtain ⟨rfl,gs,hgs,rfl,hlen⟩ := h
  have hpaired (k : K) (g : ℕ) : (∃ v, l.map.lookup k = some (v,g)) ↔ l.recency.lookup g = some k := by
    simp only [hgs.map, hgs.recency]
  rw [List.length_map] at hlen
  refine ⟨hpaired,fun k v k' v' g hk hk' => ?_,fun g k hg => ?_,?_,?_⟩
  · have hfirst := (hpaired k g).mp ⟨v,hk⟩
    have hsecond := (hpaired k' g).mp ⟨v',hk'⟩
    exact Option.some.inj (hfirst.symm.trans hsecond)
  · obtain ⟨v,hmem⟩ := (hgs.recency g k).mp hg
    exact hgs.below _ hmem
  · rw [hgs.recency_length, hgs.len_eq]
  · rwa [hgs.len_eq]

theorem Holds.put_evicts (h : Holds c l es) (hpos : 0 < c) (k : K) (v : V) :
    ∃ n ≤ 1, Evicts (l.insertNewest k v) n (l.put k v) := by
  obtain ⟨rfl,gs,hgs,rfl,hlen⟩ := h
  refine ⟨_,?_,hgs.put (by omega) k v⟩
  have hle : (without k gs).length ≤ gs.length := List.length_filter_le ..
  rw [List.length_map] at hlen
  omega

/-- In every state of a run the two maps mirror each other, and every put ends its loop by
the condition, after one round at most. -/
theorem representation (c : ℕ) (hops : ops.length < UInt64.size) :
    (∀ pre post, ops = pre ++ post → Sound c (after c pre) ∧ (after c pre).nextGen < UInt64.size) ∧
    ∀ pre k v post, ops = pre ++ .put k v :: post → 0 < c →
      ∃ n ≤ 1, Evicts ((after c pre).insertNewest k v) n ((after c pre).put k v) :=
  ⟨fun pre _ hsplit => ⟨(run_holds c pre).sound,nextGen_lt hops hsplit⟩,
    fun pre k v _ _ hpos => (run_holds c pre).put_evicts hpos k v⟩

theorem representation_thirdKey : ∃ n ≤ 1,
    Evicts ((after 2 [.put "a" 1,.put "b" 2,.get "a"]).insertNewest "c" 3) n
      ((after 2 [.put "a" 1,.put "b" 2,.get "a"]).put "c" 3) := by
  have hops : [Op.put "a" 1,.put "b" 2,.get "a",.put "c" 3].length < UInt64.size := by decide
  exact (representation 2 hops).2 [.put "a" 1,.put "b" 2,.get "a"] "c" 3 [] rfl (by decide)

/-- What the cache of capacity `c₁` has, the cache of capacity `c₂` has under the same
operations. -/
structure KeepsHits (c₁ c₂ : ℕ) (ops : List (Op K V)) : Prop where
  present : ∀ pre post, ops = pre ++ post → ∀ k v,
    (after c₁ pre).peek k = some v → (after c₂ pre).peek k = some v
  hits : List.Forall₂ (fun r₁ r₂ => ∀ v, r₁ = .found (some v) → r₂ = .found (some v))
    (replies apply (new c₁) ops) (replies apply (new c₂) ops)
  unwrapped : ∀ pre post, ops = pre ++ post →
    (after c₁ pre).nextGen < UInt64.size ∧ (after c₂ pre).nextGen < UInt64.size

def Nested (c₁ c₂ : ℕ) (l₁ l₂ : Lru K V) : Prop :=
  ∃ es₁ es₂, Holds c₁ l₁ es₁ ∧ Holds c₂ l₂ es₂ ∧ Within c₁ c₂ es₁ es₂

variable {l₁ l₂ : Lru K V}

theorem Nested.peek (h : Nested c₁ c₂ l₁ l₂) {k : K} {v : V} (hv : l₁.peek k = some v) :
    l₂.peek k = some v := by
  obtain ⟨es₁,es₂,⟨-,h₁⟩,⟨-,h₂⟩,hwithin⟩ := h
  rw [h₁.peek] at hv
  rw [h₂.peek]
  exact hwithin.find hv

theorem Nested.apply (h : Nested c₁ c₂ l₁ l₂) (op : Op K V) :
    (∀ v, (l₁.apply op).1 = .found (some v) → (l₂.apply op).1 = .found (some v)) ∧
      Nested c₁ c₂ (l₁.apply op).2 (l₂.apply op).2 := by
  obtain ⟨es₁,es₂,h₁,h₂,hwithin⟩ := h
  obtain ⟨hreply₁,hnext₁⟩ := h₁.apply op
  obtain ⟨hreply₂,hnext₂⟩ := h₂.apply op
  refine ⟨fun v hv => ?_,_,_,hnext₁,hnext₂,hwithin.apply op⟩
  rw [hreply₁] at hv
  rw [hreply₂]
  cases op with
  | get k | peek k => exact congrArg Reply.found (hwithin.find (Reply.found.inj hv))
  | put | remove => cases hv

theorem run_nested (hc : c₁ ≤ c₂) (ops : List (Op K V)) :
    List.Forall₂ (fun r₁ r₂ => ∀ v, r₁ = .found (some v) → r₂ = .found (some v))
        (replies apply (new c₁) ops) (replies apply (new c₂) ops) ∧
      Nested c₁ c₂ (after c₁ ops) (after c₂ ops) :=
  lockstep (fun _ _ op h => h.apply op) ⟨[],[],holds_new c₁,holds_new c₂,within_nil hc⟩ ops

/-- A larger cache never loses a hit. -/
theorem larger_keepsHits (hc : c₁ ≤ c₂) (hops : ops.length < UInt64.size) : KeepsHits c₁ c₂ ops where
  present pre _ _ _ _ hv := (run_nested hc pre).2.peek hv
  hits := (run_nested hc ops).1
  unwrapped _ _ hsplit := ⟨nextGen_lt hops hsplit,nextGen_lt hops hsplit⟩

/-- The `get` of "a" hits in the larger cache alone and moves "a" there before "b"; the
smaller list is no prefix of the larger one from then on. -/
theorem larger_keepsHits_reordered :
    let ops : List (Op String ℕ) := [.put "a" 1,.put "b" 2,.get "a",.remove "b",.put "c" 3,.get "c"]
    KeepsHits 1 2 ops ∧ listed 1 (ops.take 3) = [("b",2)] ∧ listed 2 (ops.take 3) = [("a",1),("b",2)] :=
  ⟨larger_keepsHits (by decide) (by decide), by decide, by decide⟩

end NioClient.Session.Lru
