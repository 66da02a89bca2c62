import Mathlib.Data.List.Basic
import NioClient.Library.OnceCells

/-! # Invariants of a map of once-cells

Each key has at most one cell, and each caller works on the cell of its key. The
permit of a cell is out exactly while a caller is in a call for it.
-/
namespace NioClient.OnceCells
open Environment Execution

variable {X K V E Q : Type} {A : Q → Type}

section Reading
variable {s : State X K V E Q A} {c c' i : ℕ} {x x' : Caller X V E Q A}

theorem setCaller_self (h : s.callers[c]? = some x) : (s.setCaller c x').callers[c]? = some x' := by
  have hlt : c < s.callers.length := (List.getElem?_eq_some_iff.mp h).1
  simp [State.setCaller, hlt]

theorem setCell_self {cell cell' : Cell V} (h : s.cells[i]? = some cell) :
    (s.setCell i cell').cells[i]? = some cell' := by
  have hlt : i < s.cells.length := (List.getElem?_eq_some_iff.mp h).1
  simp [State.setCell, hlt]

theorem valueAt_eq_some {v : V} : s.valueAt i = some v ↔ ∃ holder, s.cells[i]? = some ⟨some v,holder⟩ := by
  rw [State.valueAt, Option.bind_eq_some_iff]
  constructor
  · rintro ⟨⟨_,holder⟩,hcell,rfl⟩
    exact ⟨holder,hcell⟩
  · rintro ⟨holder,hcell⟩
    exact ⟨_,hcell,rfl⟩

theorem valueAt_set {t : State X K V E Q A} {cell : Cell V} (hcells : t.cells = s.cells.set i cell)
    {j : ℕ} (h : j ≠ i) : t.valueAt j = s.valueAt j := by
  simp [State.valueAt, hcells, List.getElem?_set_ne h.symm]

theorem valueOf_eq {k : K} (h : s.map k = some i) : s.valueOf k = s.valueAt i := by
  rw [State.valueOf, h, Option.bind_some]

theorem getElem?_append_new {α : Type} {l : List α} {a b : α} {j : ℕ} (h : (l ++ [a])[j]? = some b) :
    l[j]? = some b ∨ j = l.length ∧ b = a := by
  rcases Nat.lt_trichotomy j l.length with hlt | rfl | hgt
  · rw [List.getElem?_append_left hlt] at h
    exact Or.inl h
  · simp only [List.getElem?_concat_length, Option.some.injEq] at h
    exact Or.inr ⟨rfl,h.symm⟩
  · have hlen := (List.getElem?_eq_some_iff.mp h).1
    simp only [List.length_append, List.length_singleton] at hlen
    omega

theorem getElem?_append_old {α : Type} {l : List α} {a b : α} {j : ℕ} (h : l[j]? = some b) :
    (l ++ [a])[j]? = some b := by
  have hlt : j < l.length := (List.getElem?_eq_some_iff.mp h).1
  rw [List.getElem?_append_left hlt]
  exact h

end Reading

variable (key : X → K) (initialise : X → Program Q A (Except E V))

/-- The initialiser for `arg` makes the call `q`, after some exchanges. -/
def Issues (arg : X) (q : Q) : Prop := ∃ log next, (initialise arg).Reaches log (.call q next)

/-- What is known of caller `c`, phase by phase. -/
inductive CallerOk (s : State X K V E Q A) (c : ℕ) : Caller X V E Q A → Prop where
  | called (arg : X) : CallerOk s c ⟨arg,.called,none,[],[]⟩
  | located (arg : X) (i : ℕ) (hmap : s.map (key arg) = some i) :
      CallerOk s c ⟨arg,.located i,none,[],[]⟩
  | reported (arg : X) (i : ℕ) (hit : Bool) (hmap : s.map (key arg) = some i)
      (hvalue : hit = true → ∃ v, s.valueAt i = some v) :
      CallerOk s c ⟨arg,.reported i,some hit,[],[]⟩
  | waiting (arg : X) (i : ℕ) (hmap : s.map (key arg) = some i) :
      CallerOk s c ⟨arg,.waiting i,some false,[],[]⟩
  | calling (arg : X) (i : ℕ) (q : Q) (next : A q → Program Q A (Except E V)) (issued : List Q)
      (replies : List (Σ q, A q)) (hmap : s.map (key arg) = some i)
      (hcell : s.cells[i]? = some ⟨none,some c⟩)
      (hreaches : (initialise arg).Reaches replies (.call q next))
      (hissued : ∀ q ∈ issued, Issues initialise arg q) :
      CallerOk s c ⟨arg,.calling i q next,some false,issued,replies⟩
  | hit (arg : X) (v : V) (hvalue : s.valueOf (key arg) = some v) :
      CallerOk s c ⟨arg,.returned (.ok v),some true,[],[]⟩
  | ok (arg : X) (v : V) (issued : List Q) (replies : List (Σ q, A q))
      (hvalue : s.valueOf (key arg) = some v) (hissued : ∀ q ∈ issued, Issues initialise arg q) :
      CallerOk s c ⟨arg,.returned (.ok v),some false,issued,replies⟩
  | error (arg : X) (e : E) (issued : List Q) (replies : List (Σ q, A q))
      (hreaches : (initialise arg).Reaches replies (.pure (.error e)))
      (hissued : ∀ q ∈ issued, Issues initialise arg q) :
      CallerOk s c ⟨arg,.returned (.error e),some false,issued,replies⟩
  | dropped (arg : X) (hit : Option Bool) (issued : List Q) (replies : List (Σ q, A q))
      (hhit : hit = some true → issued = []) (hissued : ∀ q ∈ issued, Issues initialise arg q) :
      CallerOk s c ⟨arg,.dropped,hit,issued,replies⟩

/-- What a step of caller `c` leaves as it is. -/
structure Keeps (s : State X K V E Q A) (c : ℕ) (t : State X K V E Q A) : Prop where
  map : ∀ k i, s.map k = some i → t.map k = some i
  value : ∀ i v, s.valueAt i = some v → t.valueAt i = some v
  held : ∀ i c' : ℕ, c' ≠ c → s.cells[i]? = some ⟨none,some c'⟩ → t.cells[i]? = some ⟨none,some c'⟩

variable {key initialise} {s t : State X K V E Q A} {c i : ℕ} {x x' : Caller X V E Q A}

theorem Keeps.valueOf (h : Keeps s c t) {k : K} {v : V} (hv : s.valueOf k = some v) :
    t.valueOf k = some v := by
  obtain ⟨i,hmap,hvalue⟩ := Option.bind_eq_some_iff.mp hv
  rw [valueOf_eq (h.map k i hmap)]
  exact h.value i v hvalue

theorem keeps_setCell {holder : Option ℕ} {cell : Cell V} (hcell : s.cells[i]? = some ⟨none,holder⟩)
    (hfree : holder = none ∨ holder = some c) (htmap : t.map = s.map)
    (htcells : t.cells = s.cells.set i cell) : Keeps s c t := by
  refine ⟨fun k j hk => by rw [htmap]; exact hk,fun j v hv => ?_,fun j d hd hj => ?_⟩
  · have hj : j ≠ i := by
      rintro rfl
      simp [State.valueAt, hcell] at hv
    exact (valueAt_set htcells hj).trans hv
  · rw [htcells]
    refine (List.getElem?_set_ne ?_).trans hj
    rintro rfl
    cases hcell.symm.trans hj
    rcases hfree with hnone | hc
    · cases hnone
    · exact hd (Option.some.inj hc)

theorem CallerOk.keeps {c' : ℕ} (hx : CallerOk key initialise s c' x) (hne : c' ≠ c) (h : Keeps s c t) :
    CallerOk key initialise t c' x := by
  cases hx with
  | called arg => exact .called arg
  | located arg i hmap => exact .located arg i (h.map _ _ hmap)
  | reported arg i hit hmap hvalue =>
    refine .reported arg i hit (h.map _ _ hmap) fun hhit => ?_
    obtain ⟨v,hv⟩ := hvalue hhit
    exact ⟨v,h.value i v hv⟩
  | waiting arg i hmap => exact .waiting arg i (h.map _ _ hmap)
  | calling arg i q next issued replies hmap hcell hreaches hissued =>
    exact .calling arg i q next issued replies (h.map _ _ hmap) (h.held i c' hne hcell) hreaches hissued
  | hit arg v hvalue => exact .hit arg v (h.valueOf hvalue)
  | ok arg v issued replies hvalue hissued => exact .ok arg v issued replies (h.valueOf hvalue) hissued
  | error arg e issued replies hreaches hissued => exact .error arg e issued replies hreaches hissued
  | dropped arg hit issued replies hhit hissued => exact .dropped arg hit issued replies hhit hissued

theorem CallerOk.of_waiting {c i : ℕ} {x : Caller X V E Q A} (h : CallerOk key initialise s c x)
    (hphase : x.phase = .waiting i) : s.map (key x.arg) = some i := by
  cases h with
  | waiting arg i hmap =>
    cases hphase
    exact hmap
  | _ => cases hphase

theorem CallerOk.of_calling (h : CallerOk key initialise s c x) {q : Q}
    {next : A q → Program Q A (Except E V)} (hphase : x.phase = .calling i q next) :
    s.map (key x.arg) = some i ∧ s.cells[i]? = some ⟨none,some c⟩ := by
  cases h with
  | calling arg i q next issued replies hmap hcell =>
    cases hphase
    exact ⟨hmap,hcell⟩
  | _ => cases hphase

theorem CallerOk.of_ok (h : CallerOk key initialise s c x) {v : V} (hphase : x.phase = .returned (.ok v)) :
    s.valueOf (key x.arg) = some v := by
  cases h with
  | hit arg v hvalue | ok arg v _ _ hvalue =>
    cases hphase
    exact hvalue
  | _ => cases hphase

theorem CallerOk.of_error (h : CallerOk key initialise s c x) {e : E}
    (hphase : x.phase = .returned (.error e)) :
    (initialise x.arg).Reaches x.replies (.pure (.error e)) := by
  cases h with
  | error arg e issued replies hreaches =>
    cases hphase
    exact hreaches
  | _ => cases hphase

theorem CallerOk.of_hit (h : CallerOk key initialise s c x) (hhit : x.hit = some true) :
    x.issued = [] ∧ ∀ e, x.phase ≠ .returned (.error e) := by
  cases h with
  | reported | hit => exact ⟨rfl,nofun⟩
  | dropped _ _ _ _ hissued => exact ⟨hissued hhit,nofun⟩
  | _ => cases hhit

theorem CallerOk.of_issued (h : CallerOk key initialise s c x) {q : Q} (hq : q ∈ x.issued) :
    Issues initialise x.arg q := by
  cases h with
  | calling _ _ _ _ _ _ _ _ _ hissued | ok _ _ _ _ _ hissued | error _ _ _ _ _ hissued
  | dropped _ _ _ _ _ hissued => exact hissued q hq
  | _ => cases hq

variable [DecidableEq K]

variable (key initialise) in
structure WellFormed (s : State X K V E Q A) : Prop where
  caller : ∀ c x, s.callers[c]? = some x → CallerOk key initialise s c x
  map_lt : ∀ k i, s.map k = some i → i < s.cells.length
  map_inj : ∀ k k' i, s.map k = some i → s.map k' = some i → k = k'
  holder : ∀ i c : ℕ, s.cells[i]? = some ⟨none,some c⟩ →
    ∃ x q next, s.callers[c]? = some x ∧ x.phase = .calling i q next
  recorded : ∀ k, (s.recorded.filter (·.key = k)).map Record.value = (s.valueOf k).toList
  recorder : ∀ r ∈ s.recorded, ∃ x, s.callers[r.caller]? = some x ∧ key x.arg = r.key ∧
    x.phase = .returned (.ok r.value) ∧ (initialise x.arg).Reaches x.replies (.pure (.ok r.value))

theorem wellFormed_init : WellFormed key initialise (State.init : State X K V E Q A) := by
  constructor <;> simp [State.init, State.valueOf]

protected theorem WellFormed.call (h : WellFormed key initialise s) (arg : X) :
    WellFormed key initialise (call s arg) := by
  have hkeeps : Keeps s s.callers.length (call s arg) := ⟨fun _ _ h => h,fun _ _ h => h,fun _ _ _ h => h⟩
  have hold : ∀ {c : ℕ} {y}, s.callers[c]? = some y → (call s arg).callers[c]? = some y :=
    fun hy => getElem?_append_old hy
  refine ⟨fun c x hx => ?_,h.map_lt,h.map_inj,fun i c hcell => ?_,h.recorded,fun r hr => ?_⟩
  · rcases getElem?_append_new hx with hx | ⟨rfl,rfl⟩
    · have hlt : c < s.callers.length := (List.getElem?_eq_some_iff.mp hx).1
      exact (h.caller c x hx).keeps (Nat.ne_of_lt hlt) hkeeps
    · exact .called arg
  · obtain ⟨x,q,next,hx,hphase⟩ := h.holder i c hcell
    exact ⟨x,q,next,hold hx,hphase⟩
  · obtain ⟨x,hx,hrest⟩ := h.recorder r hr
    exact ⟨x,hold hx,hrest⟩

/-- A caller that has not returned has recorded nothing. -/
theorem WellFormed.recorder_set (h : WellFormed key initialise s) (hx : s.callers[c]? = some x)
    (hret : ∀ v, x.phase ≠ .returned (.ok v)) (r : Record K V) (hr : r ∈ s.recorded) :
    ∃ y, (s.callers.set c x')[r.caller]? = some y ∧ key y.arg = r.key ∧
      y.phase = .returned (.ok r.value) ∧ (initialise y.arg).Reaches y.replies (.pure (.ok r.value)) := by
  obtain ⟨y,hy,hkey,hphase,hreaches⟩ := h.recorder r hr
  have hne : r.caller ≠ c := by
    rintro hc
    rw [hc, hx] at hy
    cases hy
    exact hret _ hphase
  exact ⟨y,(List.getElem?_set_ne hne.symm).trans hy,hkey,hphase,hreaches⟩

theorem WellFormed.caller_set (h : WellFormed key initialise s) (hx : s.callers[c]? = some x)
    (hkeeps : Keeps s c t) (hok : CallerOk key initialise t c x') {d : ℕ} {y : Caller X V E Q A}
    (hy : (s.callers.set c x')[d]? = some y) : CallerOk key initialise t d y := by
  by_cases hd : d = c
  · subst hd
    cases (setCaller_self hx).symm.trans hy
    exact hok
  · rw [List.getElem?_set_ne (Ne.symm hd)] at hy
    exact (h.caller d y hy).keeps hd hkeeps

/-- A caller that is not in a call for cell `j` does not hold its permit. -/
theorem WellFormed.holder_set (h : WellFormed key initialise s) (hx : s.callers[c]? = some x) {j d : ℕ}
    (hj : s.cells[j]? = some ⟨none,some d⟩) (hcalling : ∀ q next, x.phase ≠ .calling j q next) :
    ∃ y q next, (s.callers.set c x')[d]? = some y ∧ y.phase = .calling j q next := by
  obtain ⟨y,q,next,hy,hphase⟩ := h.holder j d hj
  have hd : d ≠ c := by
    rintro rfl
    cases hx.symm.trans hy
    exact hcalling q next hphase
  exact ⟨y,q,next,(List.getElem?_set_ne hd.symm).trans hy,hphase⟩

/-- A caller goes on without touching a cell. -/
protected theorem WellFormed.setCaller (h : WellFormed key initialise s) (hx : s.callers[c]? = some x)
    (hret : ∀ v, x.phase ≠ .returned (.ok v)) (hcalling : ∀ i q next, x.phase ≠ .calling i q next)
    (hok : CallerOk key initialise (s.setCaller c x') c x') :
    WellFormed key initialise (s.setCaller c x') := by
  have hkeeps : Keeps s c (s.setCaller c x') := ⟨fun _ _ h => h,fun _ _ h => h,fun _ _ _ h => h⟩
  exact ⟨fun d y hy => h.caller_set hx hkeeps hok hy,h.map_lt,h.map_inj,
    fun j d hj => h.holder_set hx hj (hcalling j),h.recorded,h.recorder_set hx hret⟩

/-- The records of the key of an empty cell are those that come with its value. -/
theorem WellFormed.recorded_set (h : WellFormed key initialise s) {k : K} (hmap : s.map k = some i)
    {holder : Option ℕ} (hcell : s.cells[i]? = some ⟨none,holder⟩) {cell : Cell V}
    (htmap : t.map = s.map) (htcells : t.cells = s.cells.set i cell) (new : List (Record K V))
    (hkey : ∀ r ∈ new, r.key = k) (hvalue : new.map Record.value = cell.value.toList) (k' : K) :
    ((s.recorded ++ new).filter (·.key = k')).map Record.value = (t.valueOf k').toList := by
  rw [List.filter_append, List.map_append, h.recorded k']
  by_cases hk : k' = k
  · subst hk
    have hlt : i < s.cells.length := (List.getElem?_eq_some_iff.mp hcell).1
    have hfilter : new.filter (·.key = k') = new := by
      rw [List.filter_eq_self]
      exact fun r hr => by simp [hkey r hr]
    have hnone : s.valueOf k' = none := by
      rw [valueOf_eq hmap, State.valueAt, hcell, Option.bind_some]
    have hsome : t.valueOf k' = cell.value := by
      rw [valueOf_eq (htmap ▸ hmap), State.valueAt, htcells, List.getElem?_set_self hlt, Option.bind_some]
    rw [hfilter, hnone, hsome, hvalue]
    rfl
  · have hfilter : new.filter (·.key = k') = [] := by
      rw [List.filter_eq_nil_iff]
      intro r hr
      simpa [hkey r hr] using Ne.symm hk
    have hsame : t.valueOf k' = s.valueOf k' := by
      rw [State.valueOf, State.valueOf, htmap]
      cases hk' : s.map k' with
      | none => rfl
      | some j =>
        refine valueAt_set htcells ?_
        rintro rfl
        exact hk (h.map_inj _ _ _ hk' hmap)
    rw [hfilter, hsame, List.map_nil, List.append_nil]

/-- The caller with the permit of an empty cell, or which takes it, puts the cell
in another state. -/
protected theorem WellFormed.setCell (h : WellFormed key initialise s) (hx : s.callers[c]? = some x)
    (hret : ∀ v, x.phase ≠ .returned (.ok v)) (hmap : s.map (key x.arg) = some i) {holder : Option ℕ}
    (hcell : s.cells[i]? = some ⟨none,holder⟩) (hfree : holder = none ∨ holder = some c)
    (hcalling : ∀ j q next, x.phase = .calling j q next → j = i) {cell : Cell V} (new : List (Record K V))
    (htmap : t.map = s.map) (htcells : t.cells = s.cells.set i cell)
    (htcallers : t.callers = s.callers.set c x') (htrecorded : t.recorded = s.recorded ++ new)
    (hok : CallerOk key initialise t c x')
    (hheld : ∀ d, cell = ⟨none,some d⟩ → d = c ∧ ∃ q next, x'.phase = .calling i q next)
    (hvalue : new.map Record.value = cell.value.toList)
    (hnew : ∀ r ∈ new, r.key = key x.arg ∧ r.caller = c ∧ key x'.arg = r.key ∧
      x'.phase = .returned (.ok r.value) ∧
      (initialise x'.arg).Reaches x'.replies (.pure (.ok r.value))) : WellFormed key initialise t := by
  have hlt : i < s.cells.length := (List.getElem?_eq_some_iff.mp hcell).1
  have hxself : t.callers[c]? = some x' := by
    rw [htcallers]
    exact setCaller_self hx
  have hkeeps : Keeps s c t := keeps_setCell hcell hfree htmap htcells
  refine ⟨fun d y hy => ?_,fun k j hk => ?_,fun k k' j hk hk' => ?_,fun j d hj => ?_,fun k => ?_,
    fun r hr => ?_⟩
  · exact h.caller_set hx hkeeps hok (htcallers ▸ hy)
  · rw [htcells, List.length_set]
    exact h.map_lt k j (htmap ▸ hk)
  · exact h.map_inj k k' j (htmap ▸ hk) (htmap ▸ hk')
  · rw [htcells] at hj
    by_cases hji : j = i
    · subst hji
      cases (List.getElem?_set_self hlt).symm.trans hj
      obtain ⟨rfl,q,next,hphase⟩ := hheld d rfl
      exact ⟨x',q,next,hxself,hphase⟩
    · rw [List.getElem?_set_ne (Ne.symm hji)] at hj
      rw [htcallers]
      exact h.holder_set hx hj fun q next hphase => hji (hcalling j q next hphase)
  · rw [htrecorded]
    exact h.recorded_set hmap hcell htmap htcells new (fun r hr => (hnew r hr).1) hvalue k
  · rw [htrecorded] at hr
    rcases List.mem_append.mp hr with hold | hr
    · rw [htcallers]
      exact h.recorder_set hx hret r hold
    · obtain ⟨-,hc,hrest⟩ := hnew r hr
      exact ⟨x',hc ▸ hxself,hrest⟩

protected theorem WellFormed.proceed (h : WellFormed key initialise s) (hx : s.callers[c]? = some x)
    (hret : ∀ v, x.phase ≠ .returned (.ok v)) (hmap : s.map (key x.arg) = some i) {holder : Option ℕ}
    (hcell : s.cells[i]? = some ⟨none,holder⟩) (hfree : holder = none ∨ holder = some c)
    (hcalling : ∀ j q next, x.phase = .calling j q next → j = i) {phase : Phase V E Q A}
    {issued : List Q} {replies : List (Σ q, A q)} (hissued : ∀ q ∈ issued, Issues initialise x.arg q)
    {p : Program Q A (Except E V)} (hreaches : (initialise x.arg).Reaches replies p) :
    WellFormed key initialise (proceed key s c i ⟨x.arg,phase,some false,issued,replies⟩ p) := by
  have hself {cell : Cell V} : (s.setCell i cell).cells[i]? = some cell := setCell_self hcell
  match p with
  | .call q next =>
    refine h.setCell hx hret hmap hcell hfree hcalling [] rfl rfl rfl (List.append_nil _).symm
      (.calling _ i q next _ _ hmap hself hreaches fun q' hq' => ?_) (fun d hd => ?_) rfl nofun
    · rcases List.mem_append.mp hq' with hq' | hq'
      · exact hissued q' hq'
      · cases List.mem_singleton.mp hq'
        exact ⟨_,_,hreaches⟩
    · cases hd
      exact ⟨rfl,_,_,rfl⟩
  | .pure (.ok v) =>
    refine h.setCell hx hret hmap hcell hfree hcalling [_] rfl rfl rfl rfl
      (.ok _ v _ _ ?_ hissued) nofun rfl fun r hr => ?_
    · have hmap' : (proceed key s c i ⟨x.arg,phase,some false,issued,replies⟩
          (.pure (.ok v))).map (key x.arg) = some i := hmap
      rw [valueOf_eq hmap']
      exact valueAt_eq_some.mpr ⟨none,hself⟩
    · cases List.mem_singleton.mp hr
      exact ⟨rfl,rfl,rfl,rfl,hreaches⟩
  | .pure (.error e) =>
    exact h.setCell hx hret hmap hcell hfree hcalling [] rfl rfl rfl (List.append_nil _).symm
      (.error _ e _ _ hreaches hissued) nofun rfl nofun

theorem keeps_create {k : K} (hmap : s.map k = none)
    (htmap : t.map = Function.update s.map k (some s.cells.length))
    (htcells : t.cells = s.cells ++ [⟨none,none⟩]) : Keeps s c t := by
  refine ⟨fun k' j hk => ?_,fun j v hv => ?_,fun j d hd hj => ?_⟩
  · have hne : k' ≠ k := by
      rintro rfl
      cases hmap.symm.trans hk
    rw [htmap, Function.update_of_ne hne]
    exact hk
  · obtain ⟨holder,hj⟩ := valueAt_eq_some.mp hv
    exact valueAt_eq_some.mpr ⟨holder,htcells ▸ getElem?_append_old hj⟩
  · rw [htcells]
    exact getElem?_append_old hj

theorem WellFormed.valueOf_create (h : WellFormed key initialise s) {k : K} (hmap : s.map k = none)
    (htmap : t.map = Function.update s.map k (some s.cells.length))
    (htcells : t.cells = s.cells ++ [⟨none,none⟩]) (k' : K) : t.valueOf k' = s.valueOf k' := by
  by_cases hne : k' = k
  · subst hne
    simp [State.valueOf, State.valueAt, htmap, htcells, hmap]
  · rw [State.valueOf, State.valueOf, htmap, Function.update_of_ne hne]
    cases hk : s.map k' with
    | none => rfl
    | some j =>
      simp only [Option.bind_some, State.valueAt, htcells, List.getElem?_append_left (h.map_lt k' j hk)]

/-- The lookup of a key that is new creates its cell. -/
protected theorem WellFormed.create (h : WellFormed key initialise s) (hx : s.callers[c]? = some x)
    (hret : ∀ v, x.phase ≠ .returned (.ok v)) (hcalling : ∀ i q next, x.phase ≠ .calling i q next)
    (hmap : s.map (key x.arg) = none)
    (htmap : t.map = Function.update s.map (key x.arg) (some s.cells.length))
    (htcells : t.cells = s.cells ++ [⟨none,none⟩]) (htcallers : t.callers = s.callers.set c x')
    (htrecorded : t.recorded = s.recorded) (hok : CallerOk key initialise t c x') :
    WellFormed key initialise t := by
  have hkeeps : Keeps s c t := keeps_create hmap htmap htcells
  have hmap_cases {k : K} {j : ℕ} (hk : t.map k = some j) :
      k = key x.arg ∧ j = s.cells.length ∨ s.map k = some j := by
    rw [htmap] at hk
    by_cases hne : k = key x.arg
    · subst hne
      rw [Function.update_self] at hk
      exact Or.inl ⟨rfl,(Option.some.inj hk).symm⟩
    · rw [Function.update_of_ne hne] at hk
      exact Or.inr hk
  refine ⟨fun d y hy => ?_,fun k j hk => ?_,fun k k' j hk hk' => ?_,fun j d hj => ?_,fun k => ?_,
    fun r hr => ?_⟩
  · exact h.caller_set hx hkeeps hok (htcallers ▸ hy)
  · rw [htcells, List.length_append, List.length_singleton]
    rcases hmap_cases hk with ⟨-,rfl⟩ | hold
    · exact Nat.lt_succ_self _
    · exact Nat.lt_succ_of_lt (h.map_lt k j hold)
  · rcases hmap_cases hk with ⟨rfl,rfl⟩ | hold <;> rcases hmap_cases hk' with ⟨rfl,hj⟩ | hold'
    · rfl
    · exact absurd (h.map_lt _ _ hold') (Nat.lt_irrefl _)
    · exact absurd (h.map_lt _ _ hold) (hj ▸ Nat.lt_irrefl _)
    · exact h.map_inj k k' j hold hold'
  · rw [htcells] at hj
    rcases getElem?_append_new hj with hold | ⟨-,hnew⟩
    · rw [htcallers]
      exact h.holder_set hx hold (hcalling j)
    · cases hnew
  · rw [htrecorded, h.valueOf_create hmap htmap htcells k]
    exact h.recorded k
  · rw [htrecorded] at hr
    rw [htcallers]
    exact h.recorder_set hx hret r hr

protected theorem WellFormed.locate (h : WellFormed key initialise s) (hstep : locate key s c = some t) :
    WellFormed key initialise t := by
  obtain ⟨x,hx,hstep⟩ := Option.bind_eq_some_iff.mp hstep
  cases h.caller c x hx with
  | called arg =>
    cases hmap : s.map (key arg) with
    | some i =>
      simp only [hmap, Option.some.injEq] at hstep
      cases hstep
      exact h.setCaller hx nofun nofun (.located arg i hmap)
    | none =>
      simp only [hmap, Option.some.injEq] at hstep
      cases hstep
      exact h.create hx nofun nofun hmap rfl rfl rfl rfl (.located arg _ (Function.update_self ..))
  | _ => cases hstep

protected theorem WellFormed.report (h : WellFormed key initialise s) (hstep : report s c = some t) :
    WellFormed key initialise t := by
  obtain ⟨x,hx,hstep⟩ := Option.bind_eq_some_iff.mp hstep
  cases h.caller c x hx with
  | located arg i hmap =>
    cases hstep
    exact h.setCaller hx nofun nofun
      (.reported arg i _ hmap fun hsome => Option.isSome_iff_exists.mp hsome)
  | _ => cases hstep

protected theorem WellFormed.enter (h : WellFormed key initialise s) (hstep : enter s c = some t) :
    WellFormed key initialise t := by
  obtain ⟨x,hx,hstep⟩ := Option.bind_eq_some_iff.mp hstep
  cases h.caller c x hx with
  | reported arg i hit hmap hvalue =>
    cases hv : s.valueAt i with
    | some v =>
      simp only [hv, Option.some.injEq] at hstep
      cases hstep
      have hof : s.valueOf (key arg) = some v := (valueOf_eq hmap).trans hv
      cases hit with
      | true => exact h.setCaller hx nofun nofun (.hit arg v hof)
      | false => exact h.setCaller hx nofun nofun (.ok arg v _ _ hof nofun)
    | none =>
      simp only [hv, Option.some.injEq] at hstep
      cases hstep
      cases hit with
      | true =>
        obtain ⟨v,hsome⟩ := hvalue rfl
        cases hv.symm.trans hsome
      | false => exact h.setCaller hx nofun nofun (.waiting arg i hmap)
  | _ => cases hstep

protected theorem WellFormed.acquire (h : WellFormed key initialise s)
    (hstep : acquire key initialise s c = some t) : WellFormed key initialise t := by
  obtain ⟨x,hx,hstep⟩ := Option.bind_eq_some_iff.mp hstep
  cases h.caller c x hx with
  | waiting arg i hmap =>
    match hcell : s.cells[i]? with
    | some ⟨some v,holder⟩ =>
      simp only [hcell, Option.some.injEq] at hstep
      cases hstep
      have hof : s.valueOf (key arg) = some v :=
        (valueOf_eq hmap).trans (valueAt_eq_some.mpr ⟨holder,hcell⟩)
      exact h.setCaller hx nofun nofun (.ok arg v _ _ hof nofun)
    | some ⟨none,none⟩ =>
      simp only [hcell, Option.some.injEq] at hstep
      cases hstep
      refine h.proceed hx nofun hmap hcell (Or.inl rfl) nofun ?_ (.refl _)
      exact nofun
    | some ⟨none,some d⟩ => simp [hcell] at hstep
    | none => simp [hcell] at hstep
  | _ => cases hstep

protected theorem WellFormed.reply (h : WellFormed key initialise s) {env : ∀ q, A q}
    (hstep : reply key s c env = some t) : WellFormed key initialise t := by
  obtain ⟨x,hx,hstep⟩ := Option.bind_eq_some_iff.mp hstep
  cases h.caller c x hx with
  | calling arg i q next issued replies hmap hcell hreaches hissued =>
    cases hstep
    refine h.proceed hx nofun hmap hcell (Or.inr rfl) (fun j q' next' hj => ?_) hissued
      (hreaches.reply (env q))
    cases hj
    rfl
  | _ => cases hstep

protected theorem WellFormed.drop (h : WellFormed key initialise s) (hstep : drop s c = some t) :
    WellFormed key initialise t := by
  obtain ⟨x,hx,hstep⟩ := Option.bind_eq_some_iff.mp hstep
  cases h.caller c x hx with
  | called arg =>
    cases hstep
    exact h.setCaller hx nofun nofun (.dropped arg _ _ _ nofun nofun)
  | located arg i hmap =>
    cases hstep
    exact h.setCaller hx nofun nofun (.dropped arg _ _ _ nofun nofun)
  | reported arg i hit hmap hvalue =>
    cases hstep
    exact h.setCaller hx nofun nofun (.dropped arg _ _ _ (fun _ => rfl) nofun)
  | waiting arg i hmap =>
    cases hstep
    exact h.setCaller hx nofun nofun (.dropped arg _ _ _ nofun nofun)
  | calling arg i q next issued replies hmap hcell hreaches hissued =>
    cases hstep
    refine h.setCell hx nofun hmap hcell (Or.inr rfl) (fun j q' next' hj => ?_) [] rfl rfl rfl
      (List.append_nil _).symm (.dropped arg _ _ _ nofun hissued) nofun rfl nofun
    cases hj
    rfl
  | _ => cases hstep

theorem step_wellFormed (h : WellFormed key initialise s) {a : Action X Q A}
    (hstep : step key initialise s a = some t) : WellFormed key initialise t := by
  cases a with
  | call arg =>
    cases hstep
    exact h.call arg
  | locate c => exact h.locate hstep
  | report c => exact h.report hstep
  | enter c => exact h.enter hstep
  | acquire c => exact h.acquire hstep
  | reply c env => exact h.reply hstep
  | drop c => exact h.drop hstep

end NioClient.OnceCells
