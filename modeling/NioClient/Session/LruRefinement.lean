import NioClient.Library.RecencyList
import NioClient.Session.Lru

/-! # The LRU refines a list in order of recency

The entries of the `Lru`, each with its generation, the newest first, are the
list. The least generation is the last of them, so the `while` loop of `put` cuts
the list at the capacity.
-/
namespace NioClient.Session.Lru
open RecencyList
variable {K V : Type*} [DecidableEq K] {l : Lru K V} {gs : List (ℕ × K × V)} {k : K} {v : V} {g : ℕ}

/-- `gs` are the entries with their generations, the newest first. -/
structure Stamped (l : Lru K V) (gs : List (ℕ × K × V)) : Prop where
  newest : gs.Pairwise fun x y => y.1 < x.1
  below : ∀ x ∈ gs, x.1 < l.nextGen
  keys : (gs.map fun x => x.2.1).Nodup
  map : ∀ k v g, l.map.lookup k = some (v,g) ↔ (g,k,v) ∈ gs
  recency : ∀ g k, l.recency.lookup g = some k ↔ ∃ v, (g,k,v) ∈ gs

def without (k : K) (gs : List (ℕ × K × V)) : List (ℕ × K × V) := gs.filter fun x => x.2.1 ≠ k

theorem mem_without {x : ℕ × K × V} : x ∈ without k gs ↔ x ∈ gs ∧ x.2.1 ≠ k := by
  simp [without, List.mem_filter]

theorem map_without : (without k gs).map Prod.snd = forget k (gs.map Prod.snd) := by
  simp only [without, forget, List.filter_map]
  rfl

theorem Stamped.lookup_eq_none (h : Stamped l gs) : l.map.lookup k = none ↔ ∀ x ∈ gs, x.2.1 ≠ k := by
  constructor
  · rintro hnone ⟨g,k',v⟩ hx rfl
    cases hnone.symm.trans ((h.map k' v g).mpr hx)
  · intro hall
    refine Option.eq_none_iff_forall_not_mem.mpr fun y hy => ?_
    obtain ⟨v,g⟩ := y
    exact hall _ ((h.map k v g).mp hy) rfl

theorem Stamped.find_eq (h : Stamped l gs) (k : K) :
    find k (gs.map Prod.snd) = (l.map.lookup k).map Prod.fst := by
  rw [find, List.find?_map, Option.map_map]
  cases hfind : gs.find? ((fun x => decide (x.1 = k)) ∘ Prod.snd) with
  | none =>
    have hnone : l.map.lookup k = none := by
      rw [h.lookup_eq_none]
      intro x hx
      simpa using List.find?_eq_none.mp hfind x hx
    rw [hnone]
    rfl
  | some x =>
    obtain ⟨g,k',v⟩ := x
    have hkey : k' = k := by simpa using List.find?_some hfind
    subst hkey
    rw [(h.map k' v g).mpr (List.mem_of_find?_eq_some hfind)]
    rfl

theorem Stamped.remove (h : Stamped l gs) (k : K) : Stamped (l.remove k) (without k gs) := by
  cases hlook : l.map.lookup k with
  | none =>
    have hall := h.lookup_eq_none.mp hlook
    have hsame : without k gs = gs := List.filter_eq_self.mpr fun x hx => by simpa using hall x hx
    rw [hsame]
    simpa [Lru.remove, hlook] using h
  | some x =>
    obtain ⟨v,g⟩ := x
    have hmem := (h.map k v g).mp hlook
    have hremove : l.remove k = { l with map := l.map.erase k, recency := l.recency.erase g } := by
      simp [Lru.remove, hlook]
    rw [hremove]
    refine ⟨h.newest.sublist List.filter_sublist,fun x hx => h.below x (mem_without.mp hx).1,
      h.keys.sublist (List.filter_sublist.map _),fun k' v' g' => ?_,fun g' k' => ?_⟩
    · rw [mem_without]
      by_cases hk : k' = k
      · subst hk
        simp
      · rw [AList.lookup_erase_ne hk, h.map]
        simp [hk]
    · simp only [mem_without]
      by_cases hg : g' = g
      · -- the generation of `k` belongs to no other key
        subst hg
        rw [AList.lookup_erase]
        refine ⟨nofun,?_⟩
        rintro ⟨v',hmem',hne⟩
        have hk := (h.recency g' k').mpr ⟨v',hmem'⟩
        cases hk.symm.trans ((h.recency g' k).mpr ⟨v,hmem⟩)
        exact absurd rfl hne
      · rw [AList.lookup_erase_ne hg, h.recency]
        constructor
        · rintro ⟨v',hmem'⟩
          refine ⟨v',hmem',?_⟩
          rintro rfl
          have hl := (h.map k' v' g').mpr hmem'
          cases hlook.symm.trans hl
          exact hg rfl
        · rintro ⟨v',hmem',-⟩
          exact ⟨v',hmem'⟩

theorem Stamped.push (h : Stamped l gs) (k : K) (v : V) :
    Stamped { l with
      map := l.map.insert k (v,l.nextGen)
      recency := (l.remove k).recency.insert l.nextGen k
      nextGen := l.nextGen + 1 } ((l.nextGen,k,v) :: without k gs) := by
  have hrest := h.remove k
  have hbelow : ∀ x ∈ without k gs, x.1 < l.nextGen := fun x hx => h.below x (mem_without.mp hx).1
  refine ⟨List.pairwise_cons.mpr ⟨hbelow,hrest.newest⟩,fun x hx => ?_,
    List.nodup_cons.mpr ⟨fun hmem => ?_,hrest.keys⟩,fun k' v' g' => ?_,fun g' k' => ?_⟩
  · rcases List.mem_cons.mp hx with rfl | hx
    · exact Nat.lt_succ_self _
    · exact Nat.lt_succ_of_lt (hbelow x hx)
  · obtain ⟨x,hx,hkey⟩ := List.mem_map.mp hmem
    exact (mem_without.mp hx).2 hkey
  · rw [List.mem_cons, mem_without]
    by_cases hk : k' = k
    · subst hk
      simp [eq_comm, and_comm]
    · rw [AList.lookup_insert_ne hk, h.map]
      simp [hk]
  · simp only [List.mem_cons]
    by_cases hg : g' = l.nextGen
    · subst hg
      rw [AList.lookup_insert]
      constructor
      · rintro ⟨rfl⟩
        exact ⟨v,Or.inl rfl⟩
      · rintro ⟨v',heq | hmem⟩
        · cases heq
          rfl
        · exact absurd (hbelow _ hmem) (Nat.lt_irrefl _)
    · rw [AList.lookup_insert_ne hg, hrest.recency]
      simp [hg]

theorem Stamped.len_eq (h : Stamped l gs) : l.len = gs.length := by
  have hperm : l.map.keys.Perm (gs.map fun x => x.2.1) := by
    refine (List.perm_ext_iff_of_nodup l.map.keys_nodup h.keys).mpr fun k => ?_
    rw [← AList.mem_keys, ← AList.lookup_isSome, List.mem_map]
    constructor
    · intro hsome
      obtain ⟨⟨v,g⟩,hlook⟩ := Option.isSome_iff_exists.mp hsome
      exact ⟨_,(h.map k v g).mp hlook,rfl⟩
    · rintro ⟨⟨g,k',v⟩,hmem,rfl⟩
      simp [(h.map k' v g).mpr hmem]
  rw [len, hperm.length_eq, List.length_map]

theorem Stamped.mem_recency (h : Stamped l gs) : g ∈ l.recency.keys ↔ ∃ x ∈ gs, x.1 = g := by
  rw [← AList.mem_keys, ← AList.lookup_isSome, Option.isSome_iff_exists]
  constructor
  · rintro ⟨k,hlook⟩
    obtain ⟨v,hmem⟩ := (h.recency g k).mp hlook
    exact ⟨_,hmem,rfl⟩
  · rintro ⟨⟨g,k,v⟩,hmem,rfl⟩
    exact ⟨k,(h.recency g k).mpr ⟨v,hmem⟩⟩

theorem Stamped.recency_length (h : Stamped l gs) : l.recency.keys.length = gs.length := by
  have hnodup : (gs.map Prod.fst).Nodup := by
    rw [List.Nodup, List.pairwise_map]
    exact h.newest.imp fun hlt => Nat.ne_of_gt hlt
  have hperm : l.recency.keys.Perm (gs.map Prod.fst) := by
    refine (List.perm_ext_iff_of_nodup l.recency.keys_nodup hnodup).mpr fun g => ?_
    rw [h.mem_recency, List.mem_map]
  rw [hperm.length_eq, List.length_map]

theorem Stamped.oldest_eq (h : Stamped l (gs ++ [(g,k,v)])) : l.oldest = some (g,k) := by
  have hmin : l.recency.keys.min? = some g := by
    refine List.min?_eq_some_iff.mpr ⟨h.mem_recency.mpr ⟨(g,k,v),by simp,rfl⟩,fun g' hg' => ?_⟩
    obtain ⟨x,hx,rfl⟩ := h.mem_recency.mp hg'
    rcases List.mem_append.mp hx with hx | hx
    · have hlast := (List.pairwise_append.mp h.newest).2.2 x hx (g,k,v) (List.mem_singleton_self _)
      exact Nat.le_of_lt hlast
    · cases List.mem_singleton.mp hx
      exact Nat.le_refl _
  have hlook : l.recency.lookup g = some k := (h.recency g k).mpr ⟨v,by simp⟩
  simp [oldest, hmin, hlook]

theorem Stamped.dropOldest (h : Stamped l (gs ++ [(g,k,v)])) :
    Stamped { l with recency := l.recency.erase g, map := l.map.erase k } gs := by
  have hlook : l.map.lookup k = some (v,g) := (h.map k v g).mpr (by simp)
  have hwithout : without k (gs ++ [(g,k,v)]) = gs := by
    have hkeys := h.keys
    rw [List.map_append, List.nodup_append] at hkeys
    have hrest : gs.filter (fun x => x.2.1 ≠ k) = gs := by
      refine List.filter_eq_self.mpr fun x hx => ?_
      have hne := hkeys.2.2 _ (List.mem_map_of_mem hx) k (by simp)
      simpa using hne
    simp only [without, List.filter_append, hrest]
    simp
  have hremoved := h.remove k
  rw [hwithout] at hremoved
  simpa [Lru.remove, hlook] using hremoved

/-- The `while` loop of `put`, which takes `n` rounds to make its condition false. It is not
left through its `break`. -/
inductive Evicts : Lru K V → ℕ → Lru K V → Prop where
  | done {l : Lru K V} (h : l.len ≤ l.capacity) : Evicts l 0 l
  | round {l t : Lru K V} {n g : ℕ} {k : K} (hover : l.capacity < l.len) (hold : l.oldest = some (g,k))
      (h : Evicts { l with recency := l.recency.erase g, map := l.map.erase k } n t) : Evicts l (n + 1) t

/-- With fuel for every entry, the loop comes to its end. -/
theorem Stamped.evicts {n : ℕ} (h : Stamped l gs) (hn : gs.length ≤ n) :
    Evicts l (gs.length - l.capacity) (Lru.evictLoop n l) := by
  induction n generalizing l gs with
  | zero =>
    have hlen := h.len_eq
    rw [Nat.sub_eq_zero_of_le (by omega)]
    exact .done (by omega)
  | succ n ih =>
    rw [Lru.evictLoop, h.len_eq]
    split
    · rename_i hover
      rcases List.eq_nil_or_concat' gs with rfl | ⟨hs,⟨g,k,v⟩,rfl⟩
      · simp at hover
      · rw [h.oldest_eq]
        have hlen := h.len_eq
        rw [List.length_append, List.length_singleton] at hover hn hlen ⊢
        have hrest := ih h.dropOldest (Nat.le_of_succ_le_succ hn)
        have hrounds : hs.length + 1 - l.capacity = hs.length - l.capacity + 1 := by omega
        rw [hrounds]
        exact .round (by omega) h.oldest_eq hrest
    · rename_i hfit
      have hlen := h.len_eq
      rw [Nat.sub_eq_zero_of_le (by omega)]
      exact .done (by omega)

/-- The loop cuts the list at the capacity. -/
theorem Stamped.evicted {n : ℕ} {t : Lru K V} (ht : Evicts l n t) (h : Stamped l gs) :
    Stamped t (gs.take l.capacity) := by
  induction ht generalizing gs with
  | done hfit =>
    rw [h.len_eq] at hfit
    rwa [List.take_of_length_le hfit]
  | round hover hold _ ih =>
    rw [h.len_eq] at hover
    rcases List.eq_nil_or_concat' gs with rfl | ⟨hs,⟨g,k,v⟩,rfl⟩
    · simp at hover
    · cases hold.symm.trans h.oldest_eq
      rw [List.length_append, List.length_singleton] at hover
      rw [List.take_append_of_le_length (Nat.le_of_lt_succ hover)]
      exact ih h.dropOldest

theorem Stamped.insertNewest (h : Stamped l gs) (k : K) (v : V) :
    Stamped (l.insertNewest k v) ((l.nextGen,k,v) :: without k gs) := by
  have hpush := h.push k v
  cases hlook : l.map.lookup k <;> simpa [Lru.remove, Lru.insertNewest, hlook] using hpush

/-- The loop of a `put` ends after as many rounds as there are entries too many. -/
theorem Stamped.put (h : Stamped l gs) (hcap : l.capacity ≠ 0) (k : K) (v : V) :
    Evicts (l.insertNewest k v) ((without k gs).length + 1 - l.capacity) (l.put k v) := by
  have hnewest := h.insertNewest k v
  rw [Lru.put, if_neg hcap]
  exact hnewest.evicts (Nat.le_of_eq hnewest.recency_length.symm)

/-- The cache holds the entries of the list, within its capacity. -/
def Refines (l : Lru K V) (es : List (K × V)) : Prop :=
  ∃ gs, Stamped l gs ∧ gs.map Prod.snd = es ∧ es.length ≤ l.capacity

variable {es : List (K × V)}

theorem refines_new (capacity : ℕ) : Refines (new capacity : Lru K V) [] :=
  ⟨[],⟨List.Pairwise.nil,nofun,List.nodup_nil,fun _ _ _ => by simp [new],fun _ _ => by simp [new]⟩,
    rfl,Nat.zero_le _⟩

theorem Refines.peek (h : Refines l es) (k : K) : l.peek k = find k es := by
  obtain ⟨gs,hgs,rfl,-⟩ := h
  exact (hgs.find_eq k).symm

theorem Refines.remove (h : Refines l es) (k : K) : Refines (l.remove k) (forget k es) := by
  obtain ⟨gs,hgs,rfl,hlen⟩ := h
  refine ⟨without k gs,hgs.remove k,map_without,?_⟩
  rw [capacity_remove]
  exact Nat.le_trans (length_forget_le k _) hlen

theorem Refines.get (h : Refines l es) (k : K) :
    (l.get k).1 = find k es ∧ Refines (l.get k).2 (touch k es) := by
  obtain ⟨gs,hgs,rfl,hlen⟩ := h
  by_cases hcap : l.capacity = 0
  · have hnil : gs = [] := by
      rw [hcap, List.length_map] at hlen
      exact List.eq_nil_of_length_eq_zero (Nat.le_zero.mp hlen)
    subst hnil
    simp only [Lru.get, if_pos hcap]
    exact ⟨rfl,[],hgs,rfl,Nat.zero_le _⟩
  · rw [touch, hgs.find_eq]
    cases hlook : l.map.lookup k with
    | none =>
      simp only [Lru.get, if_neg hcap, hlook]
      exact ⟨rfl,gs,hgs,rfl,hlen⟩
    | some x =>
      obtain ⟨v,g⟩ := x
      have hpush := hgs.push k v
      simp only [Lru.remove, hlook] at hpush
      simp only [Lru.get, if_neg hcap, hlook]
      refine ⟨rfl,_,hpush,by simp [map_without],?_⟩
      have hle := Nat.le_trans (length_touch_le k _) hlen
      rwa [touch, hgs.find_eq, hlook] at hle

theorem Refines.put (h : Refines l es) (k : K) (v : V) :
    Refines (l.put k v) (store l.capacity k v es) := by
  obtain ⟨gs,hgs,rfl,hlen⟩ := h
  by_cases hcap : l.capacity = 0
  · have hnil : gs = [] := by
      rw [hcap, List.length_map] at hlen
      exact List.eq_nil_of_length_eq_zero (Nat.le_zero.mp hlen)
    subst hnil
    rw [Lru.put, if_pos hcap, store, hcap, List.take_zero]
    exact ⟨[],hgs,rfl,Nat.zero_le _⟩
  · refine ⟨_,(hgs.insertNewest k v).evicted (hgs.put hcap k v),?_,?_⟩
    · rw [store, List.map_take, List.map_cons, map_without]
      rfl
    · rw [capacity_put]
      exact length_store_le ..

theorem Refines.len_eq (h : Refines l es) : l.len = es.length := by
  obtain ⟨gs,hgs,rfl,-⟩ := h
  rw [hgs.len_eq, List.length_map]

theorem Refines.keys_nodup (h : Refines l es) : (es.map Prod.fst).Nodup := by
  obtain ⟨gs,hgs,rfl,-⟩ := h
  rw [List.map_map]
  exact hgs.keys

theorem Refines.mem_keys (h : Refines l es) {k : K} : k ∈ es.map Prod.fst ↔ ∃ v, l.peek k = some v := by
  rw [h.peek, find_eq_some_key]

theorem Refines.overflow (h : Refines l es) {k' : K} {w : V} (hne : k' ≠ k) (hw : l.peek k' = some w)
    (hgone : (l.put k v).peek k' ≠ some w) : l.peek k = none ∧ l.capacity ≤ l.len := by
  have hlen : es.length ≤ l.capacity := by
    obtain ⟨-,-,-,hlen⟩ := h
    exact hlen
  have hover : ¬ (forget k es).length < l.capacity := by
    intro hfit
    apply hgone
    rw [(h.put k v).peek, find_store_ne hne v hfit, ← h.peek, hw]
  rw [h.peek, h.len_eq]
  constructor
  · by_contra hsome
    obtain ⟨y,hy⟩ := Option.ne_none_iff_exists'.mp hsome
    have hlt := length_forget_lt hy
    omega
  · have hle := length_forget_le k es
    omega

end NioClient.Session.Lru
