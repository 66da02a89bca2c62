import NioClient.Library.OnceCellsAgreement
import NioClient.Library.Potential

/-! # The calls and the steps of once-cells

Where an initialiser makes at most one call, the callers of a key make one call between them,
and one more for each whose call fails or who is dropped in it. No caller waits for good.
-/
namespace NioClient.OnceCells
open Environment Execution

variable {X K V E Q : Type} {A : Q → Type} {key : X → K}
  {initialise : X → Program Q A (Except E V)} {denied : K → Option V} {request : K → Q}
  {result : ∀ k, A (request k) → Except E V} {s t : State X K V E Q A} {c : ℕ} {x x' : Caller X V E Q A}
  {a : Action X Q A} {as : List (Action X Q A)}

/-- The caller has made a call that brought nothing: it failed, or the caller was dropped. -/
def Caller.wasted (x : Caller X V E Q A) : Bool :=
  !x.issued.isEmpty && match x.phase with
    | .returned (.error _) | .dropped => true
    | _ => false

theorem CallerOk.unissued (h : CallerOk key initialise s c x)
    (hphase : (∃ i, x.phase = .reported i) ∨ ∃ i, x.phase = .waiting i) : x.issued = [] := by
  cases h with
  | reported | waiting => rfl
  | _ => simp at hphase

theorem OneCall.last (h : OneCall key initialise denied request result) {arg : X} {q : Q} {log : List (Σ q, A q)}
    {next : A q → Program Q A (Except E V)} (hr : (initialise arg).Reaches log (.call q next)) (a : A q) :
    ∃ r, next a = .pure r := by
  obtain ⟨hdenied,rfl⟩ := h.issues ⟨log,next,hr⟩
  rw [h.calls arg hdenied] at hr
  rcases hr.of_call with ⟨-,hcall⟩ | ⟨b,-,hpure⟩
  · cases hcall
    exact ⟨_,rfl⟩
  · cases hpure

/-- A caller makes one call at most, and who returns a value after a call has recorded it. -/
structure Accounted (key : X → K) (s : State X K V E Q A) : Prop where
  once : ∀ (c : ℕ) x, s.callers[c]? = some x → x.issued.length ≤ 1
  recorded : ∀ (c : ℕ) x v, s.callers[c]? = some x → x.phase = .returned (.ok v) → x.issued ≠ [] →
    ∃ r ∈ s.recorded, r.caller = c ∧ r.key = key x.arg

theorem accounted_init : Accounted key (State.init : State X K V E Q A) := by
  constructor <;> simp [State.init]

/-- Caller `c` goes from `x` to `x'`, and if it returns a value after a call, it has recorded it. -/
structure Pays (key : X → K) (s : State X K V E Q A) (c : ℕ) (x x' : Caller X V E Q A) (t : State X K V E Q A) :
    Prop where
  caller : s.callers[c]? = some x
  callers : t.callers = s.callers.set c x'
  arg : x'.arg = x.arg
  once : x'.issued = x.issued ∨ x.issued = [] ∧ x'.issued.length = 1
  recorded : ∀ v, x'.phase = .returned (.ok v) →
    x'.issued = [] ∨ ∃ r ∈ t.recorded, r.caller = c ∧ r.key = key x.arg
  kept : ∀ r ∈ s.recorded, r ∈ t.recorded
  left : x'.phase.left < x.phase.left

theorem pays_pure {i : ℕ} {replies : List (Σ q, A q)} (hx : s.callers[c]? = some x) (hleft : 0 < x.phase.left)
    (r : Except E V) : ∃ x', Pays key s c x x' (proceed key s c i { x with replies } (.pure r)) := by
  rcases r with e | v
  · exact ⟨_,hx,rfl,rfl,Or.inl rfl,fun v hv => (by cases hv),fun r hr => hr,hleft⟩
  · exact ⟨_,hx,rfl,rfl,Or.inl rfl,fun v hv => Or.inr ⟨_,List.mem_append_right _ (List.mem_singleton_self _),rfl,rfl⟩,
      fun r hr => List.mem_append_left _ hr,hleft⟩

variable [DecidableEq K]

theorem Turn.pays (h : Turn key initialise s c x t) (hone : OneCall key initialise denied request result)
    (hs : WellFormed key initialise s) (hx : s.callers[c]? = some x) : ∃ x', Pays key s c x x' t := by
  have hok := hs.caller c x hx
  cases h with
  | on x' hcallers harg hissued hrecorded hleft hresult =>
    refine ⟨x',hx,hcallers,harg,Or.inl hissued,fun v hv => ?_,fun r hr => hrecorded ▸ hr,hleft⟩
    -- the value has been found, so there was no call
    obtain ⟨_,i,-,hphase⟩ := hresult _ hv
    exact Or.inl (hissued.trans (hok.unissued (hphase.imp (⟨i,·⟩) (⟨i,·⟩))))
  | start i hphase hcell =>
    have hissued := hok.unissued (Or.inr ⟨i,hphase⟩)
    cases hdenied : denied (key x.arg) with
    | some v =>
      rw [hone.denies x.arg v hdenied]
      exact pays_pure hx (by simp [hphase, Phase.left]) _
    | none =>
      rw [hone.calls x.arg hdenied]
      exact ⟨_,hx,rfl,rfl,Or.inr ⟨hissued, by simp [hissued]⟩,fun v hv => (by cases hv),fun r hr => hr,
        by simp [hphase, Phase.left]⟩
  | resume i q next env hphase =>
    obtain ⟨arg,phase,hit,issued,replies⟩ := x
    cases hphase
    cases hok with
    | calling _ _ _ _ _ _ hmap hcell hreaches hissued =>
      obtain ⟨r,hr⟩ := hone.last hreaches (env q)
      rw [hr]
      exact pays_pure hx Nat.zero_lt_one r

theorem step_pays (hone : OneCall key initialise denied request result) (hs : WellFormed key initialise s)
    (h : step key initialise s a = some t) :
    (∃ arg, a = .call arg ∧ t = call s arg) ∨ a.isCall = false ∧ ∃ c x x', Pays key s c x x' t := by
  rcases step_turn h with hcall | ⟨hcall,c,x,hx,hturn⟩
  · exact Or.inl hcall
  · exact Or.inr ⟨hcall,c,x,hturn.pays hone hs hx⟩

protected theorem Accounted.step (hone : OneCall key initialise denied request result)
    (hs : WellFormed key initialise s) (ha : Accounted key s) (h : step key initialise s a = some t) :
    Accounted key t := by
  rcases step_pays hone hs h with ⟨arg,-,rfl⟩ | ⟨-,c,x,x',hpays⟩
  · refine ⟨fun c y hy => ?_,fun c y v hy hphase hissued => ?_⟩ <;> rcases getElem?_append_new hy with hy | ⟨-,rfl⟩
    · exact ha.once c y hy
    · exact Nat.zero_le 1
    · exact ha.recorded c y v hy hphase hissued
    · cases hphase
  · have hother {d : ℕ} {y : Caller X V E Q A} (hy : t.callers[d]? = some y) :
        s.callers[d]? = some y ∨ d = c ∧ y = x' := by
      rw [hpays.callers] at hy
      by_cases hd : c = d
      · subst hd
        exact Or.inr ⟨rfl,Option.some.inj (hy.symm.trans (setCaller_self hpays.caller))⟩
      · exact Or.inl (List.getElem?_set_ne hd ▸ hy)
    refine ⟨fun d y hy => ?_,fun d y v hy hphase hissued => ?_⟩ <;> rcases hother hy with hy | ⟨rfl,rfl⟩
    · exact ha.once d y hy
    · rcases hpays.once with hsame | ⟨-,hone⟩
      · rw [hsame]
        exact ha.once d x hpays.caller
      · exact hone.le
    · obtain ⟨r,hr,hcaller,hkey⟩ := ha.recorded d y v hy hphase hissued
      exact ⟨r,hpays.kept r hr,hcaller,hkey⟩
    · rw [hpays.arg]
      exact (hpays.recorded v hphase).resolve_left hissued

variable (key) in
def issuedFor (s : State X K V E Q A) (k : K) : List Q :=
  (s.callers.filter fun x => key x.arg = k).flatMap (·.issued)

variable (key) in
def wastedFor (s : State X K V E Q A) (k : K) : ℕ := s.callers.countP fun x => key x.arg = k ∧ x.wasted

/-- The call of the caller is under way, or has brought the value. -/
def Caller.useful (x : Caller X V E Q A) : Bool := !x.issued.isEmpty && !x.wasted

theorem countP_le_one {α : Type} {p : α → Bool} {l : List α}
    (h : ∀ (i j : ℕ) x y, l[i]? = some x → l[j]? = some y → p x → p y → i = j) : l.countP p ≤ 1 := by
  induction l with
  | nil => simp
  | cons z l ih =>
    by_cases hz : p z
    · have hrest : l.countP p = 0 := by
        refine List.countP_eq_zero.mpr fun y hy hpy => ?_
        obtain ⟨j,hj⟩ := List.getElem?_of_mem hy
        exact absurd (h 0 (j + 1) z y rfl hj hz hpy) (by omega)
      simp [hz, hrest]
    · rw [List.countP_cons_of_neg hz]
      exact ih fun i j x y hx hy hpx hpy => Nat.succ.inj (h (i + 1) (j + 1) x y hx hy hpx hpy)

theorem useful_cases (hs : WellFormed key initialise s) (ha : Accounted key s) (hx : s.callers[c]? = some x)
    (huseful : x.useful) : Running key s (key x.arg) c ∨ ∃ r ∈ s.recorded, r.caller = c ∧ r.key = key x.arg := by
  cases hs.caller c x hx with
  | calling arg i q next => exact Or.inl ⟨_,i,q,next,hx,rfl,rfl⟩
  | ok arg v issued replies =>
    refine Or.inr (ha.recorded c _ v hx rfl ?_)
    simpa [Caller.useful, Caller.wasted] using huseful
  | _ => simp [Caller.useful, Caller.wasted] at huseful

theorem WellFormed.not_running (hs : WellFormed key initialise s) {k : K} {r : Record K V} (hr : r ∈ s.recorded)
    (hkey : r.key = k) : ¬ Running key s k c := by
  rintro ⟨x,i,q,next,hx,rfl,hphase⟩
  obtain ⟨hmap,hcell⟩ := (hs.caller c x hx).of_calling hphase
  have hvalue := hs.valueOf_eq_some.mpr ⟨r,hr,hkey,rfl⟩
  rw [valueOf_eq hmap, State.valueAt, hcell] at hvalue
  cases hvalue

theorem WellFormed.recorded_eq (hs : WellFormed key initialise s) {r r' : Record K V} (hr : r ∈ s.recorded)
    (hr' : r' ∈ s.recorded) (hkey : r.key = r'.key) : r = r' := by
  have hone := hs.one_recorded r.key
  have hmem : r ∈ s.recorded.filter (·.key = r.key) := by simpa using hr
  have hmem' : r' ∈ s.recorded.filter (·.key = r.key) := by simpa [hkey] using hr'
  obtain ⟨z,hz⟩ := List.length_eq_one_iff.mp (Nat.le_antisymm hone (List.length_pos_of_mem hmem))
  rw [hz, List.mem_singleton] at hmem hmem'
  rw [hmem, hmem']

theorem useful_one (hs : WellFormed key initialise s) (ha : Accounted key s) (k : K) :
    s.callers.countP (fun x => key x.arg = k ∧ x.useful) ≤ 1 := by
  refine countP_le_one fun d d' y y' hy hy' huseful huseful' => ?_
  simp only [decide_eq_true_eq] at huseful huseful'
  obtain ⟨rfl,huseful⟩ := huseful
  obtain ⟨hkey,huseful'⟩ := huseful'
  have hcases' := useful_cases hs ha hy' huseful'
  rw [hkey] at hcases'
  rcases useful_cases hs ha hy huseful with hrunning | ⟨r,hr,hrd,hrk⟩ <;>
    rcases hcases' with hrunning' | ⟨r',hr',hrd',hrk'⟩
  · exact hs.one_running hrunning hrunning'
  · exact absurd hrunning (hs.not_running hr' hrk')
  · exact absurd hrunning' (hs.not_running hr hrk)
  · rw [← hrd, ← hrd', hs.recorded_eq hr hr' (hrk.trans hrk'.symm)]

theorem issuedFor_le (ha : Accounted key s) (k : K) : (issuedFor key s k).length ≤
    wastedFor key s k + s.callers.countP fun x => key x.arg = k ∧ x.useful := by
  have honce : ∀ x ∈ s.callers, x.issued.length ≤ 1 := fun x hx => by
    obtain ⟨c,hx⟩ := List.getElem?_of_mem hx
    exact ha.once c x hx
  unfold issuedFor wastedFor
  generalize s.callers = callers at honce
  induction callers with
  | nil => simp
  | cons x callers ih =>
    have hrest := ih fun y hy => honce y (List.mem_cons_of_mem _ hy)
    have hx := honce x List.mem_cons_self
    by_cases hkey : key x.arg = k
    · simp only [hkey, List.filter_cons_of_pos, List.flatMap_cons, List.length_append, List.countP_cons,
        decide_true, true_and, decide_eq_true_eq] at hrest ⊢
      have hpaid : x.issued.length ≤ (if x.wasted then 1 else 0) + if x.useful then 1 else 0 := by
        cases hwasted : x.wasted with
        | true => exact hx.trans (Nat.le_add_right _ _)
        | false =>
          cases hissued : x.issued with
          | nil => exact Nat.zero_le _
          | cons q rest =>
            rw [hissued] at hx
            simpa [Caller.useful, hwasted, hissued] using hx
      omega
    · simpa [hkey] using hrest

/-- The calls for a key are at most one more than those that brought nothing. -/
theorem issuedFor_le_wastedFor (hs : WellFormed key initialise s) (ha : Accounted key s) (k : K) :
    (issuedFor key s k).length ≤ wastedFor key s k + 1 :=
  (issuedFor_le ha k).trans (Nat.add_le_add_left (useful_one hs ha k) _)

/-- The steps that callers take by themselves, with the replies that they get. -/
def Action.own : Action X Q A → Bool
  | .call _ | .drop _ => false
  | _ => true

theorem reply_ready {i : ℕ} {q : Q} {next : A q → Program Q A (Except E V)} (hx : s.callers[c]? = some x)
    (hphase : x.phase = .calling i q next) (env : ∀ q, A q) : (step key initialise s (.reply c env)).isSome := by
  simp [step, reply, hx, hphase]

def State.left (s : State X K V E Q A) : ℕ := (s.callers.map (·.phase.left)).sum

/-- A call brings in five steps at most, and each step takes one of them. -/
theorem step_left (hone : OneCall key initialise denied request result) (hs : WellFormed key initialise s)
    (h : step key initialise s a = some t) :
    t.left + (if !a.isCall then 1 else 0) ≤ s.left + if a.isCall then 5 else 0 := by
  rcases step_pays hone hs h with ⟨arg,rfl,rfl⟩ | ⟨hcall,c,x,x',hpays⟩
  · simp [State.left, call, Action.isCall, Phase.left]
  · have hsum := sum_map_set (fun y : Caller X V E Q A => y.phase.left) hpays.caller x'
    have hleft := hpays.left
    simp only [State.left, hpays.callers, hcall, Bool.not_false, Bool.false_eq_true, if_true, if_false]
    omega

/-- A caller that waits gets the value or the permit, or the holder of the permit is in its call. -/
theorem WellFormed.waiting_ready (hs : WellFormed key initialise s) (hx : s.callers[c]? = some x) {i : ℕ}
    (hphase : x.phase = .waiting i) (env : ∀ q, A q) :
    ∃ a : Action X Q A, a.own ∧ (step key initialise s a).isSome := by
  have hlt := hs.map_lt _ _ ((hs.caller c x hx).of_waiting hphase)
  obtain ⟨cell,hcell⟩ : ∃ cell, s.cells[i]? = some cell := ⟨_,List.getElem?_eq_getElem hlt⟩
  rcases cell with ⟨_ | v,_ | d⟩
  · exact ⟨.acquire c,rfl, by simp [step, acquire, hx, hphase, hcell]⟩
  · obtain ⟨y,q,next,hy,hcalling⟩ := hs.holder i d hcell
    exact ⟨.reply d env,rfl,reply_ready hy hcalling env⟩
  · exact ⟨.acquire c,rfl, by simp [step, acquire, hx, hphase, hcell]⟩
  · exact ⟨.acquire c,rfl, by simp [step, acquire, hx, hphase, hcell]⟩

theorem WellFormed.all_settled (hs : WellFormed key initialise s) (env : ∀ q, A q) :
    (∀ x ∈ s.callers, x.phase.settled) ↔ ∀ a : Action X Q A, a.own → step key initialise s a = none := by
  constructor
  · intro hsettled a ha
    cases hstep : step key initialise s a with
    | none => rfl
    | some t =>
      rcases step_moves hstep with ⟨arg,rfl,-⟩ | ⟨-,c,x,x',hmoves⟩
      · cases ha
      · have hx := hsettled x (List.mem_of_getElem? hmoves.caller)
        rw [hmoves.progress] at hx
        cases hx
  · intro hstuck x hx
    obtain ⟨c,hx⟩ := List.getElem?_of_mem hx
    have hstuck {a : Action X Q A} (ha : a.own) : ¬ (step key initialise s a).isSome := by simp [hstuck a ha]
    cases hphase : x.phase with
    | returned | dropped => rfl
    | called =>
      refine absurd ?_ (hstuck (a := .locate c) rfl)
      cases hmap : s.map (key x.arg) <;> simp [step, locate, hx, hphase, hmap]
    | located i => exact absurd (by simp [step, report, hx, hphase]) (hstuck (a := .report c) rfl)
    | reported i =>
      refine absurd ?_ (hstuck (a := .enter c) rfl)
      cases hvalue : s.valueAt i <;> simp [step, enter, hx, hphase, hvalue]
    | calling i q next => exact absurd (reply_ready hx hphase env) (hstuck rfl)
    | waiting i =>
      obtain ⟨a,ha,hready⟩ := hs.waiting_ready hx hphase env
      exact absurd hready (hstuck ha)

end NioClient.OnceCells
