import NioClient.Library.Execution

/-! # Latency of schedules

A schedule has latency `δ` if no action stays due for longer than `δ`: it is taken, or ceases
to be due. Bounds on how long a system remains in a phase follow from the action that leads
out of it.
-/
namespace NioClient.Execution
variable {σ α : Type*} {step : σ → α → Option σ} {P : σ → Prop} {s t : σ} {as bs : List α} {a : α}

def Throughout (step : σ → α → Option σ) (P : σ → Prop) (s : σ) (as : List α) : Prop :=
  ∀ bs cs t, as = bs ++ cs → exec step s bs = some t → P t

theorem along_concat {G : σ → α → Prop} (has : Along step G s as)
    (hbs : ∀ t, exec step s as = some t → Along step G t bs) : Along step G s (as ++ bs) := by
  induction as generalizing s with
  | nil => exact hbs s rfl
  | cons a as ih => exact ⟨has.1,fun t ht => ih (has.2 t ht) fun u hu => hbs u (exec_cons_iff.mpr ⟨t,ht,hu⟩)⟩

theorem Throughout.concat (h : Throughout step P s as) (ht : exec step s (as ++ [a]) = some t) (hP : P t) :
    Throughout step P s (as ++ [a]) := by
  intro bs cs u hsplit hu
  rcases List.append_eq_append_iff.mp hsplit with ⟨rest,rfl,hrest⟩ | ⟨rest,rfl,hrest⟩
  · rcases rest with _ | ⟨b,rest⟩
    · rw [List.append_nil] at hu
      exact h as [] u (List.append_nil _).symm hu
    · obtain ⟨rfl,hnil⟩ := List.cons.inj hrest
      obtain rfl : rest = [] := (List.append_eq_nil_iff.mp hnil.symm).1
      cases ht.symm.trans hu
      exact hP
  · exact h bs rest u rfl hu

theorem Throughout.start (h : Throughout step P s as) : P s := h [] as s rfl rfl

theorem Throughout.right (h : Throughout step P s (as ++ bs)) (ht : exec step s as = some t) :
    Throughout step P t bs := by
  intro cs ds u hsplit hu
  exact h (as ++ cs) ds u (by simp [hsplit]) (exec_append_iff.mpr ⟨t,ht,hu⟩)

theorem Throughout.left (h : Throughout step P s (as ++ bs)) : Throughout step P s as := by
  intro cs ds u hsplit hu
  exact h cs (ds ++ bs) u (by simp [hsplit]) hu

theorem throughout_iff_along : Throughout step P s as ↔
    P s ∧ Along step (fun s a => ∀ t, step s a = some t → P t) s as := by
  constructor
  · intro h
    refine ⟨h.start,?_⟩
    induction as generalizing s with
    | nil => trivial
    | cons a as ih =>
      have hsplit : Throughout step P s ([a] ++ as) := h
      have hrest (t : σ) (ht : step s a = some t) : Throughout step P t as :=
        hsplit.right (exec_cons_iff.mpr ⟨t,ht,rfl⟩)
      exact ⟨fun t ht => (hrest t ht).start,fun t ht => ih (hrest t ht)⟩
  · rintro ⟨hs,h⟩ bs cs t rfl ht
    exact exec_induction_along (motive := fun _ t => P t) hs (fun _ _ _ _ _ hG _ hu => hG _ hu)
      (along_append h ht).1 ht

instance Throughout.decidable [DecidablePred P] : Decidable (Throughout step P s as) :=
  have (s : σ) (a : α) : Decidable (∀ t, step s a = some t → P t) :=
    decidable_of_iff (∀ t ∈ step s a, P t) Iff.rfl
  decidable_of_iff _ throughout_iff_along.symm

theorem exec_entry (h : exec step s as = some t) (ht : P t) : Throughout step P s as ∨ ∃ pre a mid u v,
    as = pre ++ a :: mid ∧ exec step s pre = some u ∧ ¬ P u ∧ step u a = some v ∧ P v ∧
      exec step v mid = some t ∧ Throughout step P v mid := by
  revert ht
  refine exec_induction (motive := fun as t => P t → Throughout step P s as ∨ ∃ pre a mid u v,
    as = pre ++ a :: mid ∧ exec step s pre = some u ∧ ¬ P u ∧ step u a = some v ∧ P v ∧
      exec step v mid = some t ∧ Throughout step P v mid) (fun hP => Or.inl ?_) ?_ h
  · exact throughout_iff_along.mpr ⟨hP,trivial⟩
  · intro as m a t hm ih hstep ht
    by_cases hP : P m
    · rcases ih hP with hall | ⟨pre,b,mid,u,v,rfl,hu,hnot,hv,hPv,hmid,hall⟩
      · exact Or.inl (hall.concat (exec_concat_iff.mpr ⟨m,hm,hstep⟩) ht)
      · have hend : exec step v (mid ++ [a]) = some t := exec_concat_iff.mpr ⟨m,hmid,hstep⟩
        exact Or.inr ⟨pre,b,mid ++ [a],u,v, by simp, hu,hnot,hv,hPv,hend,hall.concat hend ht⟩
    · exact Or.inr ⟨as,a,[],m,t,rfl,hm,hP,hstep,ht,rfl,throughout_iff_along.mpr ⟨ht,trivial⟩⟩

/-- Where `P` holds and has not always held, it was entered once and has held since. -/
theorem exec_since (h : exec step s as = some t) (hs : ¬ P s) (ht : P t) : ∃ pre a mid u v,
    as = pre ++ a :: mid ∧ exec step s pre = some u ∧ ¬ P u ∧ step u a = some v ∧ P v ∧
      exec step v mid = some t ∧ Throughout step P v mid :=
  (exec_entry h ht).resolve_left fun hall => hs hall.start

theorem exec_exit (h : exec step s as = some t) (hs : P s) : Throughout step P s as ∨ ∃ pre a post u v,
    as = pre ++ a :: post ∧ exec step s pre = some u ∧ Throughout step P s pre ∧ step u a = some v ∧
      ¬ P v ∧ exec step v post = some t := by
  refine exec_induction (motive := fun as t => Throughout step P s as ∨ ∃ pre a post u v,
    as = pre ++ a :: post ∧ exec step s pre = some u ∧ Throughout step P s pre ∧ step u a = some v ∧
      ¬ P v ∧ exec step v post = some t) (Or.inl (throughout_iff_along.mpr ⟨hs,trivial⟩)) ?_ h
  intro as m a t hm ih hstep
  rcases ih with hall | ⟨pre,b,post,u,v,rfl,hu,hall,hv,hnot,hpost⟩
  · by_cases hP : P t
    · exact Or.inl (hall.concat (exec_concat_iff.mpr ⟨m,hm,hstep⟩) hP)
    · exact Or.inr ⟨as,a,[],m,t,rfl,hm,hall,hstep,hP,rfl⟩
  · exact Or.inr ⟨pre,b,post ++ [a],u,v, by simp, hu,hall,hv,hnot,exec_concat_iff.mpr ⟨m,hpost,hstep⟩⟩

/-- No action stays due over more than `δ` on the clock. -/
def Latency (step : σ → α → Option σ) (clock : σ → ℕ) (due : σ → α → Prop) (δ : ℕ) (s : σ) (as : List α) : Prop :=
  ∀ pre mid post u v a, as = pre ++ mid ++ post → exec step s pre = some u → exec step u mid = some v →
    Throughout step (due · a) u mid → clock v ≤ clock u + δ

variable {clock : σ → ℕ} {due : σ → α → Prop} {δ : ℕ}

theorem Latency.left (h : Latency step clock due δ s (as ++ bs)) : Latency step clock due δ s as := by
  intro pre mid post u v a hsplit
  exact h pre mid (post ++ bs) u v a (by simp [hsplit])

theorem Latency.right (h : Latency step clock due δ s (as ++ bs)) (ht : exec step s as = some t) :
    Latency step clock due δ t bs := by
  intro pre mid post u v a hsplit hu
  exact h (as ++ pre) mid post u v a (by simp [hsplit]) (exec_append_iff.mpr ⟨t,ht,hu⟩)

theorem Latency.since (hlat : Latency step clock due δ s as) (h : exec step s as = some t) (hs : ¬ P s)
    (ht : P t) (hdue : ∀ w, P w → due w a) : ∃ pre b mid u v,
      as = pre ++ b :: mid ∧ exec step s pre = some u ∧ ¬ P u ∧ step u b = some v ∧ P v ∧
        clock t ≤ clock v + δ := by
  obtain ⟨pre,b,mid,u,v,rfl,hu,hnot,hv,hPv,hmid,hall⟩ := exec_since h hs ht
  refine ⟨pre,b,mid,u,v,rfl,hu,hnot,hv,hPv,?_⟩
  refine hlat (pre ++ [b]) mid [] v t a (by simp) (exec_concat_iff.mpr ⟨u,hu,hv⟩) hmid ?_
  exact fun bs cs w hsplit hw => hdue w (hall bs cs w hsplit hw)

/-- A run in which the clock moves only while nothing is due. -/
theorem latency_of_idle (hidle : Along step (fun s a => ∀ t, step s a = some t → clock s < clock t →
    ∀ b, ¬ due s b) s as) : Latency step clock due 0 s as := by
  intro pre mid post u v a hsplit hu hv hall
  rw [hsplit, List.append_assoc] at hidle
  have hmid := (along_append hidle hu).2
  clear hidle hsplit hu
  induction mid generalizing u with
  | nil =>
    cases hv
    exact Nat.le_refl _
  | cons b mid ih =>
    obtain ⟨w,hw,hrest⟩ := exec_cons_iff.mp hv
    obtain ⟨hb,hlater⟩ := hmid
    have hle : clock w ≤ clock u := by
      by_contra hlt
      exact hb w hw (Nat.lt_of_not_le hlt) a (hall [] (b :: mid) u rfl rfl)
    refine Nat.le_trans (ih w hrest (fun bs cs t hbs ht => ?_) (hlater w hw)) hle
    exact hall (b :: bs) cs t (by rw [hbs]; rfl) (exec_cons_iff.mpr ⟨w,hw,ht⟩)

/-- A run of latency `δ` from `s` to `t`, with `P` in all its states. -/
structure Stretch (step : σ → α → Option σ) (clock : σ → ℕ) (due : σ → α → Prop) (δ : ℕ) (P : σ → Prop) (s : σ)
    (as : List α) (t : σ) : Prop where
  run : exec step s as = some t
  latency : Latency step clock due δ s as
  all : Throughout step P s as

/-- The stretch to `t` leaves `R` by a step from `u` into `v`. -/
structure Leaves (step : σ → α → Option σ) (clock : σ → ℕ) (due : σ → α → Prop) (δ : ℕ) (P R : σ → Prop) (t u : σ)
    (b : α) (v : σ) : Prop where
  moved : step u b = some v
  before : P u
  inside : R u
  outside : ¬ R v
  rest : ∃ as, Stretch step clock due δ P v as t

variable {R : σ → Prop}

theorem Stretch.right (h : Stretch step clock due δ P s (as ++ bs) t) {u : σ} (hu : exec step s as = some u) :
    Stretch step clock due δ P u bs t := by
  obtain ⟨u',hu',hrun⟩ := exec_append_iff.mp h.run
  cases hu.symm.trans hu'
  exact ⟨hrun,h.latency.right hu,h.all.right hu⟩

theorem Stretch.last (h : Stretch step clock due δ P s as t) : P t :=
  h.all as [] t (List.append_nil as).symm h.run

theorem Stretch.leaves (h : Stretch step clock due δ P s (as ++ a :: bs) t) {u v : σ}
    (hu : exec step s as = some u) (hv : step u a = some v) (hR : R u) (hnot : ¬ R v) :
    Leaves step clock due δ P R t u a v := by
  refine ⟨hv,(h.right hu).all.start,hR,hnot,bs,?_⟩
  rw [List.append_cons] at h
  exact h.right (exec_concat_iff.mpr ⟨u,hu,hv⟩)

theorem Stretch.exit (h : Stretch step clock due δ P s as t) (hs : R s) (ht : ¬ R t) :
    ∃ u b v, Leaves step clock due δ P R t u b v := by
  rcases exec_exit h.run hs with hall | ⟨pre,b,post,u,v,rfl,hu,hall,hv,hnot,-⟩
  · exact absurd (hall as [] t (List.append_nil as).symm h.run) ht
  · exact ⟨u,b,v,h.leaves hu hv (hall pre [] u (List.append_nil pre).symm hu) hnot⟩

/-- What lasts only while an action is due is left within `δ`. -/
theorem Stretch.exit_within (h : Stretch step clock due δ P s as t) (hs : R s)
    (hdue : ∀ w, R w → due w a) (hlate : clock s + δ < clock t) :
    ∃ u b v, Leaves step clock due δ P R t u b v ∧ clock u ≤ clock s + δ := by
  have hprefix {pre post : List α} {u : σ} (hsplit : as = pre ++ post) (hu : exec step s pre = some u)
      (hall : Throughout step R s pre) : clock u ≤ clock s + δ :=
    h.latency [] pre post s u a hsplit rfl hu fun bs cs w hbs hw => hdue w (hall bs cs w hbs hw)
  rcases exec_exit h.run hs with hall | ⟨pre,b,post,u,v,rfl,hu,hall,hv,hnot,-⟩
  · have hle := hprefix (List.append_nil as).symm h.run hall
    omega
  · refine ⟨u,b,v,h.leaves hu hv (hall pre [] u (List.append_nil pre).symm hu) hnot,?_⟩
    exact hprefix rfl hu hall

/-- By the instant `τ` the stretch to `t` comes to a state with `Q`. -/
def Comes (step : σ → α → Option σ) (clock : σ → ℕ) (due : σ → α → Prop) (δ : ℕ) (P Q : σ → Prop) (τ : ℕ)
    (t : σ) : Prop :=
  ∃ s as, Stretch step clock due δ P s as t ∧ Q s ∧ clock s ≤ τ

/-- Where an action stays due until `Q'` holds, `Q` leads to `Q'` within `δ`. -/
theorem Comes.ensures {Q Q' : σ → Prop} {τ : ℕ} (h : Comes step clock due δ P Q τ t) (hlate : τ + δ < clock t)
    (hQ : ∀ s, P s → Q s → clock s ≤ τ → ∃ (R : σ → Prop) (a : α), R s ∧ (∀ w, R w → due w a) ∧
      ∀ u b v, step u b = some v → P u → P v → R u → ¬ R v → Q' v ∧ clock v ≤ clock u) :
    Comes step clock due δ P Q' (τ + δ) t := by
  obtain ⟨s,as,hst,hs,hle⟩ := h
  obtain ⟨R,a,hR,hdue,hexit⟩ := hQ s hst.all.start hs hle
  obtain ⟨u,b,v,hleaves,hclock⟩ := hst.exit_within hR hdue (by omega)
  obtain ⟨bs,hrest⟩ := hleaves.rest
  obtain ⟨hv,hstill⟩ := hexit u b v hleaves.moved hleaves.before hrest.all.start hleaves.inside hleaves.outside
  exact ⟨v,bs,hrest,hv, by omega⟩

theorem exec_instant (h : exec step s as = some t)
    (htick : ∀ u a v, a ∈ as → step u a = some v → clock v ≤ clock u + 1) {τ : ℕ} (hs : clock s ≤ τ)
    (ht : τ ≤ clock t) : ∃ pre post u, as = pre ++ post ∧ exec step s pre = some u ∧ clock u = τ := by
  revert htick ht
  refine exec_induction (motive := fun as t => (∀ u a v, a ∈ as → step u a = some v → clock v ≤ clock u + 1) →
    τ ≤ clock t → ∃ pre post u, as = pre ++ post ∧ exec step s pre = some u ∧ clock u = τ) ?_ ?_ h
  · intro _ ht
    exact ⟨[],[],s,rfl,rfl,Nat.le_antisymm hs ht⟩
  · intro as m a t hm ih hstep htick ht
    by_cases hle : τ ≤ clock m
    · obtain ⟨pre,post,u,rfl,hu,hclock⟩ := ih (fun u b v hb => htick u b v (List.mem_append_left _ hb)) hle
      exact ⟨pre,post ++ [a],u, by simp, hu,hclock⟩
    · have hnext := htick m a t (by simp) hstep
      exact ⟨as ++ [a],[],t, by simp, exec_concat_iff.mpr ⟨m,hm,hstep⟩, by omega⟩

theorem exec_flatMap {f : α → List α} (hf : ∀ s a, exec step s (f a) = step s a) (s : σ) (as : List α) :
    exec step s (as.flatMap f) = exec step s as := by
  induction as generalizing s with
  | nil => rfl
  | cons a as ih => rw [List.flatMap_cons, exec_append, hf, exec_cons, funext ih]

theorem along_flatMap {f : α → List α} {G G' : σ → α → Prop} (hf : ∀ s a, exec step s (f a) = step s a)
    (hG : ∀ s a, G s a → Along step G' s (f a)) (h : Along step G s as) : Along step G' s (as.flatMap f) := by
  induction as generalizing s with
  | nil => trivial
  | cons a as ih =>
    rw [List.flatMap_cons]
    exact along_concat (hG s a h.1) fun t ht => ih (h.2 t ((hf s a).symm.trans ht))

end NioClient.Execution
