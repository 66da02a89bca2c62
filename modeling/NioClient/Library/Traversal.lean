import Mathlib.Data.List.Forall2

/-! # Loops that stop at the first error

A traversal maps the items of a list in order, each with its number, and gives up at
the first that cannot be mapped.
-/
namespace NioClient.Traversal
variable {ε α β : Type*} {f : ℕ → α → Except ε β} {i : ℕ} {xs : List α} {ys : List β} {e : ε}

def mapFrom (f : ℕ → α → Except ε β) : ℕ → List α → Except ε (List β)
  | _, [] => .ok []
  | i, x :: xs =>
    match f i x with
    | .error e => .error e
    | .ok y => (mapFrom f (i + 1) xs).map (y :: ·)

/-- The item at its place fails, and none before it does. -/
structure FirstFault (f : ℕ → α → Except ε β) (i : ℕ) (xs before : List α) (x : α) (e : ε) : Prop where
  split : ∃ after, xs = before ++ x :: after
  fault : f (i + before.length) x = .error e
  fine : ∀ (k : ℕ) y, before[k]? = some y → ∃ z, f (i + k) y = .ok z

/-- Every item is mapped to one that says the same, or the error is about the first item
that does not fit. -/
structure AllOrNothing (Fits : α → Prop) (Same : α → β → Prop) (Complains : ℕ → α → ε → Prop)
    (xs : List α) (result : Except ε (List β)) : Prop where
  succeeds : (∃ ys, result = .ok ys) ↔ ∀ x ∈ xs, Fits x
  faithful : ∀ ys, result = .ok ys → List.Forall₂ Same xs ys
  fails : ∀ e, result = .error e → ∃ before x after, xs = before ++ x :: after ∧
    (∀ y ∈ before, Fits y) ∧ ¬ Fits x ∧ Complains before.length x e

theorem exists_forall₂ {R : α → β → Prop} : (∃ ys, List.Forall₂ R xs ys) ↔ ∀ x ∈ xs, ∃ y, R x y := by
  induction xs with
  | nil => simp
  | cons x xs ih =>
    rw [List.forall_mem_cons, ← ih]
    constructor
    · rintro ⟨_,_ | ⟨hxy,hrest⟩⟩
      exact ⟨⟨_,hxy⟩,_,hrest⟩
    · rintro ⟨⟨y,hxy⟩,ys,hrest⟩
      exact ⟨y :: ys,.cons hxy hrest⟩

theorem mapFrom_cons_error {x : α} (hx : f i x = .error e) : mapFrom f i (x :: xs) = .error e := by
  rw [mapFrom, hx]

theorem mapFrom_cons_ok {x : α} {y : β} (hx : f i x = .ok y) :
    mapFrom f i (x :: xs) = (mapFrom f (i + 1) xs).map (y :: ·) := by
  rw [mapFrom, hx]

theorem mapFrom_eq_ok {R : α → β → Prop} (hf : ∀ i x y, f i x = .ok y ↔ R x y) :
    mapFrom f i xs = .ok ys ↔ List.Forall₂ R xs ys := by
  induction xs generalizing i ys with
  | nil => simp [mapFrom, eq_comm]
  | cons x xs ih =>
    constructor
    · intro h
      cases hx : f i x with
      | error e =>
        rw [mapFrom_cons_error hx] at h
        cases h
      | ok y =>
        rw [mapFrom_cons_ok hx] at h
        cases hxs : mapFrom f (i + 1) xs with
        | error e => simp [hxs, Except.map] at h
        | ok zs =>
          rw [hxs] at h
          cases h
          exact .cons ((hf i x y).mp hx) (ih.mp hxs)
    · rintro (_ | ⟨hxy,hrest⟩)
      rw [mapFrom_cons_ok ((hf i x _).mpr hxy), ih.mpr hrest]
      rfl

theorem firstFault_head {x y : α} {before : List α} {e' : ε} (hx : f i x = .error e')
    (h : FirstFault f i (x :: xs) before y e) : e' = e := by
  obtain ⟨⟨after,hsplit⟩,hfault,hfine⟩ := h
  cases before with
  | nil =>
    cases hsplit
    exact Except.error.inj (hx.symm.trans hfault)
  | cons z before =>
    cases hsplit
    obtain ⟨w,hw⟩ := hfine 0 x rfl
    cases hx.symm.trans hw

theorem firstFault_tail {x y : α} {z : β} {before : List α} (hx : f i x = .ok z) :
    FirstFault f i (x :: xs) (x :: before) y e ↔ FirstFault f (i + 1) xs before y e := by
  have hplace (k : ℕ) : i + (k + 1) = i + 1 + k := by omega
  constructor
  · rintro ⟨⟨after,hsplit⟩,hfault,hfine⟩
    cases hsplit
    refine ⟨⟨after,rfl⟩,?_,fun k w hk => ?_⟩
    · rwa [List.length_cons, hplace] at hfault
    · rw [← hplace]
      exact hfine (k + 1) w hk
  · rintro ⟨⟨after,rfl⟩,hfault,hfine⟩
    refine ⟨⟨after,rfl⟩,?_,fun k w hk => ?_⟩
    · rwa [List.length_cons, hplace]
    · cases k with
      | zero =>
        cases hk
        exact ⟨z,hx⟩
      | succ k =>
        rw [hplace]
        exact hfine k w hk

theorem mapFrom_eq_error : mapFrom f i xs = .error e ↔ ∃ before x, FirstFault f i xs before x e := by
  induction xs generalizing i with
  | nil =>
    constructor
    · intro h
      cases h
    · rintro ⟨before,x,⟨after,h⟩,-,-⟩
      simp at h
  | cons x xs ih =>
    cases hx : f i x with
    | error e' =>
      rw [mapFrom_cons_error hx]
      constructor
      · intro h
        cases h
        exact ⟨[],x,⟨xs,rfl⟩,hx, by simp⟩
      · rintro ⟨before,y,h⟩
        rw [firstFault_head hx h]
    | ok y =>
      have hmap : (mapFrom f (i + 1) xs).map (y :: ·) = .error e ↔ mapFrom f (i + 1) xs = .error e := by
        cases mapFrom f (i + 1) xs <;> simp [Except.map]
      rw [mapFrom_cons_ok hx, hmap, ih]
      constructor
      · rintro ⟨before,z,h⟩
        exact ⟨x :: before,z,(firstFault_tail hx).mpr h⟩
      · rintro ⟨before,z,h⟩
        cases before with
        | nil =>
          obtain ⟨⟨after,hsplit⟩,hfault,-⟩ := h
          cases hsplit
          cases hx.symm.trans hfault
        | cons w before =>
          obtain ⟨after,hsplit⟩ := h.split
          obtain rfl : x = w := (List.cons.inj hsplit).1
          exact ⟨before,z,(firstFault_tail hx).mp h⟩

theorem mapFrom_allOrNothing {Fits : α → Prop} {Same R : α → β → Prop} {Complains : ℕ → α → ε → Prop}
    (hf : ∀ i x y, f i x = .ok y ↔ R x y) (hfits : ∀ x, (∃ y, R x y) ↔ Fits x)
    (hsame : ∀ x y, R x y → Same x y) (hfails : ∀ i x e, f i x = .error e → Complains i x e) :
    AllOrNothing Fits Same Complains xs (mapFrom f 0 xs) := by
  refine ⟨?_,fun ys hys => ?_,fun e he => ?_⟩
  · simp only [mapFrom_eq_ok hf, exists_forall₂, hfits]
  · exact ((mapFrom_eq_ok hf).mp hys).imp hsame
  · obtain ⟨before,x,⟨after,hsplit⟩,hfault,hfine⟩ := mapFrom_eq_error.mp he
    rw [Nat.zero_add] at hfault
    refine ⟨before,x,after,hsplit,fun y hy => ?_,fun hx => ?_,hfails _ x e hfault⟩
    · obtain ⟨k,hk⟩ := List.mem_iff_getElem?.mp hy
      obtain ⟨z,hz⟩ := hfine k y hk
      exact (hfits y).mp ⟨z,(hf _ y z).mp hz⟩
    · obtain ⟨y,hy⟩ := (hfits x).mpr hx
      rw [(hf _ x y).mpr hy] at hfault
      cases hfault

/-- The items may be put into something else afterwards. -/
theorem AllOrNothing.wrapped {γ : Type} {Fits : α → Prop} {Same : α → β → Prop}
    {Complains : ℕ → α → ε → Prop} {result : Except ε (List β)} {wrap : List β → γ} {items : γ → List β}
    {P : γ → Prop} (h : AllOrNothing Fits Same Complains xs result)
    (hwrap : ∀ ys, P (wrap ys) ∧ items (wrap ys) = ys) :
    (∀ z, result.map wrap = .ok z → P z) ∧
      AllOrNothing Fits Same Complains xs ((result.map wrap).map items) := by
  cases result with
  | error e => exact ⟨fun z hz => (by cases hz),h⟩
  | ok ys =>
    refine ⟨fun z hz => ?_,?_⟩
    · cases hz
      exact (hwrap ys).1
    · have hitems : ((Except.ok ys : Except ε (List β)).map wrap).map items = .ok ys :=
        congrArg Except.ok (hwrap ys).2
      rwa [hitems]

end NioClient.Traversal
