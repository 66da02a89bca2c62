import NioClient.Library.OnceCellsInvariant

/-! # Agreement on the values of once-cells

For initialisers which make at most one call, the same for every caller of a
key: whatever the order of the steps, the callers of a key agree on one value,
which one call has brought, and a failed call leaves no trace.
-/
namespace NioClient.OnceCells
open Environment Execution

variable {X K V E Q : Type} {A : Q → Type}

/-- The initialiser for a key returns `denied` if there is such a value, and
otherwise makes the call `request` and maps the reply by `result`. -/
structure OneCall (key : X → K) (initialise : X → Program Q A (Except E V)) (denied : K → Option V)
    (request : K → Q) (result : ∀ k, A (request k) → Except E V) : Prop where
  denies : ∀ arg v, denied (key arg) = some v → initialise arg = .pure (.ok v)
  calls : ∀ arg, denied (key arg) = none →
    initialise arg = .call (request (key arg)) fun a => .pure (result (key arg) a)

variable {key : X → K} {initialise : X → Program Q A (Except E V)} {denied : K → Option V}
    {request : K → Q} {result : ∀ k, A (request k) → Except E V}

theorem OneCall.issues (h : OneCall key initialise denied request result) {arg : X} {q : Q}
    (hq : Issues initialise arg q) : denied (key arg) = none ∧ q = request (key arg) := by
  obtain ⟨log,next,hreaches⟩ := hq
  cases hdenied : denied (key arg) with
  | some v =>
    rw [h.denies arg v hdenied] at hreaches
    cases hreaches.of_pure.2
  | none =>
    rw [h.calls arg hdenied] at hreaches
    rcases hreaches.of_call with ⟨-,hcall⟩ | ⟨_,-,hpure⟩
    · cases hcall
      exact ⟨rfl,rfl⟩
    · cases hpure

theorem OneCall.ends (h : OneCall key initialise denied request result) {arg : X} {log : List (Σ q, A q)}
    {r : Except E V} (hr : (initialise arg).Reaches log (.pure r)) :
    (∃ v, denied (key arg) = some v ∧ r = .ok v) ∨
    denied (key arg) = none ∧ ∃ a, log = [⟨request (key arg),a⟩] ∧ result (key arg) a = r := by
  cases hdenied : denied (key arg) with
  | some v =>
    rw [h.denies arg v hdenied] at hr
    cases hr.of_pure.2
    exact Or.inl ⟨v,rfl,rfl⟩
  | none =>
    rw [h.calls arg hdenied] at hr
    rcases hr.of_call with ⟨-,hcall⟩ | ⟨a,hlog,hpure⟩
    · cases hcall
    · cases hpure
      exact Or.inr ⟨rfl,a,hlog,rfl⟩

variable [DecidableEq K]

section
variable (key initialise denied request result)

def Running (s : State X K V E Q A) (k : K) (c : ℕ) : Prop :=
  ∃ x i q next, s.callers[c]? = some x ∧ key x.arg = k ∧ x.phase = .calling i q next

/-- The actions of the next caller, up to its first call. -/
def attempt (s : State X K V E Q A) (arg : X) : List (Action X Q A) :=
  let c := s.callers.length
  [.call arg,.locate c,.report c,.enter c,.acquire c]

def Asks (s : State X K V E Q A) (arg : X) : Prop :=
  ∃ t x i next, exec (step key initialise) s (attempt s arg) = some t ∧
    t.callers[s.callers.length]? = some x ∧ x.hit = some false ∧ x.issued = [request (key arg)] ∧
    x.phase = .calling i (request (key arg)) next

structure Agreement (s : State X K V E Q A) : Prop where
  one_running : ∀ k c c', Running key s k c → Running key s k c' → c = c'
  one_recorded : ∀ k, (s.recorded.filter (·.key = k)).length ≤ 1
  issued : ∀ (c : ℕ) x, s.callers[c]? = some x → ∀ q ∈ x.issued,
    denied (key x.arg) = none ∧ q = request (key x.arg)
  recorded_own : ∀ r ∈ s.recorded, ∃ x, s.callers[r.caller]? = some x ∧ key x.arg = r.key ∧
    (denied r.key = some r.value ∧ x.issued = [] ∨
      denied r.key = none ∧ ∃ a, x.replies = [⟨request r.key,a⟩] ∧ result r.key a = .ok r.value)
  ok_recorded : ∀ (c : ℕ) x v, s.callers[c]? = some x → x.phase = .returned (.ok v) →
    ∃ r ∈ s.recorded, r.key = key x.arg ∧ r.value = v
  ok_agree : ∀ (c c' : ℕ) x x' v v', s.callers[c]? = some x → s.callers[c']? = some x' →
    key x.arg = key x'.arg → x.phase = .returned (.ok v) → x'.phase = .returned (.ok v') → v = v'
  error_own : ∀ (c : ℕ) x e, s.callers[c]? = some x → x.phase = .returned (.error e) →
    denied (key x.arg) = none ∧ ∃ a, x.replies = [⟨request (key x.arg),a⟩] ∧
      result (key x.arg) a = .error e
  hit : ∀ (c : ℕ) x, s.callers[c]? = some x → x.hit = some true →
    x.issued = [] ∧ ∀ e, x.phase ≠ .returned (.error e)
  /-- A step in which a caller fails leaves its key unrecorded, and no call for it running. -/
  failure : ∀ a t, step key initialise s a = some t → ∀ (c : ℕ) x e, t.callers[c]? = some x →
    x.phase = .returned (.error e) →
    (∀ y, s.callers[c]? = some y → y.phase ≠ .returned (.error e)) →
    (∀ r ∈ t.recorded, r.key ≠ key x.arg) ∧ ∀ c, ¬ Running key t (key x.arg) c
  retry : ∀ arg, (∀ r ∈ s.recorded, r.key ≠ key arg) → (∀ c, ¬ Running key s (key arg) c) →
    denied (key arg) = none → Asks key initialise request s arg

end

variable {s t : State X K V E Q A}

theorem WellFormed.one_running (h : WellFormed key initialise s) {k : K} {c c' : ℕ}
    (hc : Running key s k c) (hc' : Running key s k c') : c = c' := by
  obtain ⟨x,i,q,next,hx,rfl,hphase⟩ := hc
  obtain ⟨x',i',q',next',hx',hkey,hphase'⟩ := hc'
  obtain ⟨hmap,hcell⟩ := (h.caller c x hx).of_calling hphase
  obtain ⟨hmap',hcell'⟩ := (h.caller c' x' hx').of_calling hphase'
  rw [hkey, hmap] at hmap'
  cases hmap'
  cases hcell.symm.trans hcell'
  rfl

theorem WellFormed.one_recorded (h : WellFormed key initialise s) (k : K) :
    (s.recorded.filter (·.key = k)).length ≤ 1 := by
  have hlength := congrArg List.length (h.recorded k)
  rw [List.length_map] at hlength
  rw [hlength]
  cases s.valueOf k <;> simp

theorem WellFormed.valueOf_eq_some (h : WellFormed key initialise s) {k : K} {v : V} :
    s.valueOf k = some v ↔ ∃ r ∈ s.recorded, r.key = k ∧ r.value = v := by
  have hmem : v ∈ (s.valueOf k).toList ↔ s.valueOf k = some v := by
    cases s.valueOf k <;> simp [eq_comm]
  rw [← hmem, ← h.recorded k, List.mem_map]
  simp only [List.mem_filter, decide_eq_true_eq, and_assoc]

/-- The permit of an empty cell is free while no caller for its key is in a call. -/
theorem WellFormed.free (h : WellFormed key initialise s) {k : K} (hvalue : s.valueOf k = none)
    (hidle : ∀ c, ¬ Running key s k c) {i : ℕ} (hmap : s.map k = some i) :
    s.cells[i]? = some ⟨none,none⟩ := by
  obtain ⟨cell,hcell⟩ : ∃ cell, s.cells[i]? = some cell :=
    ⟨_,List.getElem?_eq_getElem (h.map_lt k i hmap)⟩
  rw [valueOf_eq hmap, State.valueAt, hcell, Option.bind_some] at hvalue
  rcases cell with ⟨_ | v,_ | c⟩
  · exact hcell
  · obtain ⟨x,q,next,hx,hphase⟩ := h.holder i c hcell
    have hkey := h.map_inj _ _ _ ((h.caller c x hx).of_calling hphase).1 hmap
    exact absurd ⟨x,i,q,next,hx,hkey,hphase⟩ (hidle c)
  · cases hvalue
  · cases hvalue

def Phase.settled : Phase V E Q A → Bool
  | .returned _ | .dropped => true
  | _ => false

/-- The steps that are left to a caller, at most. -/
def Phase.left : Phase V E Q A → ℕ
  | .called => 5
  | .located _ => 4
  | .reported _ => 3
  | .waiting _ => 2
  | .calling .. => 1
  | .returned _ | .dropped => 0

theorem settled_of_left {phase : Phase V E Q A} {n : ℕ} (h : n < phase.left) : phase.settled = false := by
  cases phase with
  | returned | dropped => exact absurd h (Nat.not_lt_zero n)
  | _ => rfl

def Action.isCall : Action X Q A → Bool
  | .call _ => true
  | _ => false

/-- A turn of caller `c`: it goes on, at most to a value which it finds, or it has the permit
and runs its initialiser. -/
inductive Turn (key : X → K) (initialise : X → Program Q A (Except E V)) (s : State X K V E Q A) (c : ℕ)
    (x : Caller X V E Q A) : State X K V E Q A → Prop
  | on {t : State X K V E Q A} (x' : Caller X V E Q A) (hcallers : t.callers = s.callers.set c x')
      (harg : x'.arg = x.arg) (hissued : x'.issued = x.issued) (hrecorded : t.recorded = s.recorded)
      (hleft : x'.phase.left < x.phase.left)
      (hresult : ∀ r, x'.phase = .returned r →
        ∃ v i, r = .ok v ∧ (x.phase = .reported i ∨ x.phase = .waiting i)) : Turn key initialise s c x t
  | start (i : ℕ) (hphase : x.phase = .waiting i) (hcell : s.cells[i]? = some ⟨none,none⟩) :
      Turn key initialise s c x (proceed key s c i x (initialise x.arg))
  | resume (i : ℕ) (q : Q) (next : A q → Program Q A (Except E V)) (env : ∀ q, A q)
      (hphase : x.phase = .calling i q next) : Turn key initialise s c x
        (proceed key s c i { x with replies := x.replies ++ [⟨q,env q⟩] } (next (env q)))

section
variable {c : ℕ}

theorem locate_turn (h : locate key s c = some t) :
    ∃ x, s.callers[c]? = some x ∧ Turn key initialise s c x t := by
  obtain ⟨x,hx,h⟩ := Option.bind_eq_some_iff.mp h
  refine ⟨x,hx,?_⟩
  split at h
  · next hphase =>
    split at h <;> cases h <;>
      exact .on _ rfl rfl rfl rfl (by simp [hphase, Phase.left]) fun r hr => by cases hr
  · cases h

omit [DecidableEq K] in
theorem report_turn (h : report s c = some t) :
    ∃ x, s.callers[c]? = some x ∧ Turn key initialise s c x t := by
  obtain ⟨x,hx,h⟩ := Option.bind_eq_some_iff.mp h
  refine ⟨x,hx,?_⟩
  split at h
  · next i hphase =>
    cases h
    exact .on _ rfl rfl rfl rfl (by simp [hphase, Phase.left]) fun r hr => by cases hr
  · cases h

omit [DecidableEq K] in
theorem enter_turn (h : enter s c = some t) :
    ∃ x, s.callers[c]? = some x ∧ Turn key initialise s c x t := by
  obtain ⟨x,hx,h⟩ := Option.bind_eq_some_iff.mp h
  refine ⟨x,hx,?_⟩
  split at h
  · next i hphase =>
    split at h <;> cases h
    · next v hvalue =>
      refine .on _ rfl rfl rfl rfl (by simp [hphase, Phase.left]) fun r hr => ?_
      cases hr
      exact ⟨v,i,rfl,Or.inl hphase⟩
    · exact .on _ rfl rfl rfl rfl (by simp [hphase, Phase.left]) fun r hr => by cases hr
  · cases h

omit [DecidableEq K] in
theorem acquire_turn (h : acquire key initialise s c = some t) :
    ∃ x, s.callers[c]? = some x ∧ Turn key initialise s c x t := by
  obtain ⟨x,hx,h⟩ := Option.bind_eq_some_iff.mp h
  refine ⟨x,hx,?_⟩
  split at h
  · next i hphase =>
    split at h <;> cases h
    · next v holder hcell =>
      refine .on _ rfl rfl rfl rfl (by simp [hphase, Phase.left]) fun r hr => ?_
      cases hr
      exact ⟨v,i,rfl,Or.inr hphase⟩
    · next hcell => exact .start i hphase hcell
  · cases h

omit [DecidableEq K] in
theorem reply_turn {env : ∀ q, A q} (h : reply key s c env = some t) :
    ∃ x, s.callers[c]? = some x ∧ Turn key initialise s c x t := by
  obtain ⟨x,hx,h⟩ := Option.bind_eq_some_iff.mp h
  refine ⟨x,hx,?_⟩
  split at h
  · next i q next hphase =>
    cases h
    exact .resume i q next env hphase
  · cases h

omit [DecidableEq K] in
theorem drop_turn (h : drop s c = some t) :
    ∃ x, s.callers[c]? = some x ∧ Turn key initialise s c x t := by
  obtain ⟨x,hx,h⟩ := Option.bind_eq_some_iff.mp h
  refine ⟨x,hx,?_⟩
  obtain ⟨arg,phase,hit,issued,replies⟩ := x
  cases phase <;> cases h <;>
    exact .on _ rfl rfl rfl rfl (by simp [Phase.left]) fun r hr => by cases hr

end

theorem step_turn {a : Action X Q A} (h : step key initialise s a = some t) :
    (∃ arg, a = .call arg ∧ t = call s arg) ∨
      a.isCall = false ∧ ∃ c x, s.callers[c]? = some x ∧ Turn key initialise s c x t := by
  cases a with
  | call arg =>
    cases h
    exact Or.inl ⟨arg,rfl,rfl⟩
  | locate c => exact Or.inr ⟨rfl,c,locate_turn h⟩
  | report c => exact Or.inr ⟨rfl,c,report_turn h⟩
  | enter c => exact Or.inr ⟨rfl,c,enter_turn h⟩
  | acquire c => exact Or.inr ⟨rfl,c,acquire_turn h⟩
  | reply c env => exact Or.inr ⟨rfl,c,reply_turn h⟩
  | drop c => exact Or.inr ⟨rfl,c,drop_turn h⟩

def AtWork (s : State X K V E Q A) (x : Caller X V E Q A) (i : ℕ) : Prop :=
  x.phase = .waiting i ∧ s.valueAt i = none ∨ ∃ q next, x.phase = .calling i q next

/-- Caller `c` goes from `x` to `x'`. It records a value only for a cell it is at work on,
and a failure leaves that cell empty and its permit free. -/
structure Moves (key : X → K) (s : State X K V E Q A) (c : ℕ) (x x' : Caller X V E Q A)
    (t : State X K V E Q A) : Prop where
  caller : s.callers[c]? = some x
  progress : x.phase.settled = false
  callers : t.callers = s.callers.set c x'
  arg : x'.arg = x.arg
  recorded : t.recorded = s.recorded ∨
    ∃ i v, AtWork s x i ∧ t.recorded = s.recorded ++ [⟨key x.arg,c,v⟩]
  failed : ∀ e, x'.phase = .returned (.error e) →
    ∃ i, AtWork s x i ∧ t.map = s.map ∧ t.cells = s.cells.set i ⟨none,none⟩

section
variable {c i : ℕ} {x x' : Caller X V E Q A}

omit [DecidableEq K] in
theorem AtWork.progress (h : AtWork s x i) : x.phase.settled = false := by
  rcases h with ⟨hphase,-⟩ | ⟨q,next,hphase⟩ <;> rw [hphase] <;> rfl

theorem AtWork.cell (h : AtWork s x i) (hs : WellFormed key initialise s) (hx : s.callers[c]? = some x) :
    s.map (key x.arg) = some i ∧ s.valueAt i = none := by
  rcases h with ⟨hphase,hvalue⟩ | ⟨q,next,hphase⟩
  · exact ⟨(hs.caller c x hx).of_waiting hphase,hvalue⟩
  · obtain ⟨hmap,hcell⟩ := (hs.caller c x hx).of_calling hphase
    exact ⟨hmap,by rw [State.valueAt, hcell]; rfl⟩

theorem Moves.unrecorded (h : Moves key s c x x' t) (hs : WellFormed key initialise s) :
    t.recorded = s.recorded ∨
      s.valueOf (key x.arg) = none ∧ ∃ v, t.recorded = s.recorded ++ [⟨key x.arg,c,v⟩] := by
  rcases h.recorded with hsame | ⟨i,v,hi,hrecorded⟩
  · exact Or.inl hsame
  · obtain ⟨hmap,hvalue⟩ := hi.cell hs h.caller
    exact Or.inr ⟨by rw [valueOf_eq hmap, hvalue],v,hrecorded⟩

omit [DecidableEq K] in
theorem moves_on (hx : s.callers[c]? = some x) (hprogress : x.phase.settled = false)
    (hcallers : t.callers = s.callers.set c x') (harg : x'.arg = x.arg) (hrecorded : t.recorded = s.recorded)
    (hphase : ∀ e, x'.phase ≠ .returned (.error e)) : Moves key s c x x' t :=
  ⟨hx,hprogress,hcallers,harg,Or.inl hrecorded,fun e he => absurd he (hphase e)⟩

omit [DecidableEq K] in
theorem moves_proceed (hx : s.callers[c]? = some x) (hi : AtWork s x i) {replies : List (Σ q, A q)}
    (p : Program Q A (Except E V)) :
    ∃ x', Moves key s c x x' (proceed key s c i { x with replies } p) := by
  rcases p with (e | v) | ⟨q,next⟩
  · exact ⟨_,hx,hi.progress,rfl,rfl,Or.inl rfl,fun _ _ => ⟨i,hi,rfl,rfl⟩⟩
  · exact ⟨_,hx,hi.progress,rfl,rfl,Or.inr ⟨i,v,hi,rfl⟩,fun _ he => by cases he⟩
  · exact ⟨_,hx,hi.progress,rfl,rfl,Or.inl rfl,fun _ he => by cases he⟩

omit [DecidableEq K] in
theorem Turn.moves (h : Turn key initialise s c x t) (hx : s.callers[c]? = some x) :
    ∃ x', Moves key s c x x' t := by
  cases h with
  | on x' hcallers harg _ hrecorded hleft hresult =>
    refine ⟨x',moves_on hx (settled_of_left hleft) hcallers harg hrecorded fun e he => ?_⟩
    obtain ⟨_,_,hv,-⟩ := hresult _ he
    cases hv
  | start i hphase hcell =>
    have hvalue : s.valueAt i = none := by rw [State.valueAt, hcell]; rfl
    exact moves_proceed hx (Or.inl ⟨hphase,hvalue⟩) _
  | resume i q next env hphase => exact moves_proceed hx (Or.inr ⟨q,next,hphase⟩) _

end

theorem step_moves {a : Action X Q A} (h : step key initialise s a = some t) :
    (∃ arg, a = .call arg ∧ t = call s arg) ∨ (∀ arg, a ≠ .call arg) ∧ ∃ c x x', Moves key s c x x' t := by
  rcases step_turn h with hcall | ⟨hcall,c,x,hx,hturn⟩
  · exact Or.inl hcall
  · exact Or.inr ⟨fun arg ha => (by cases ha; cases hcall),c,x,hturn.moves hx⟩

theorem WellFormed.failure (h : WellFormed key initialise s) {a : Action X Q A}
    (hstep : step key initialise s a = some t) {c : ℕ} {x : Caller X V E Q A}
    (hx : t.callers[c]? = some x) {e : E} (hphase : x.phase = .returned (.error e))
    (hnew : ∀ y, s.callers[c]? = some y → y.phase ≠ .returned (.error e)) :
    (∀ r ∈ t.recorded, r.key ≠ key x.arg) ∧ ∀ c, ¬ Running key t (key x.arg) c := by
  have ht := step_wellFormed h hstep
  obtain ⟨i,hmap,hcell⟩ : ∃ i, t.map (key x.arg) = some i ∧ t.cells[i]? = some ⟨none,none⟩ := by
    rcases step_moves hstep with ⟨arg,-,rfl⟩ | ⟨-,d,y,y',hmoves⟩
    · rcases getElem?_append_new hx with hx | ⟨-,rfl⟩
      · exact absurd hphase (hnew x hx)
      · cases hphase
    · rw [hmoves.callers] at hx
      by_cases hd : c = d
      · subst hd
        cases (setCaller_self hmoves.caller).symm.trans hx
        obtain ⟨i,hi,htmap,htcells⟩ := hmoves.failed e hphase
        have hmap : s.map (key y.arg) = some i := (hi.cell h hmoves.caller).1
        refine ⟨i,by rw [htmap, hmoves.arg, hmap],?_⟩
        rw [htcells, List.getElem?_set_self (h.map_lt _ _ hmap)]
      · rw [List.getElem?_set_ne (Ne.symm hd)] at hx
        exact absurd hphase (hnew x hx)
  constructor
  · intro r hr hkey
    have hvalue := ht.valueOf_eq_some.mpr ⟨r,hr,hkey,rfl⟩
    rw [valueOf_eq hmap, State.valueAt, hcell] at hvalue
    cases hvalue
  · rintro c' ⟨x',i',q,next,hx',hkey,hphase'⟩
    obtain ⟨hmap',hcell'⟩ := (ht.caller c' x' hx').of_calling hphase'
    rw [hkey, hmap] at hmap'
    cases hmap'
    cases hcell.symm.trans hcell'

theorem WellFormed.retry (h : WellFormed key initialise s)
    (hone : OneCall key initialise denied request result) {arg : X}
    (hnone : ∀ r ∈ s.recorded, r.key ≠ key arg) (hidle : ∀ c, ¬ Running key s (key arg) c)
    (hdenied : denied (key arg) = none) : Asks key initialise request s arg := by
  have hvalue : s.valueOf (key arg) = none := by
    by_contra hsome
    obtain ⟨v,hv⟩ := Option.ne_none_iff_exists'.mp hsome
    obtain ⟨r,hr,hkey,-⟩ := h.valueOf_eq_some.mp hv
    exact hnone r hr hkey
  have hcalls := hone.calls arg hdenied
  cases hmap : s.map (key arg) with
  | some i =>
    have hcell := h.free hvalue hidle hmap
    simp [Asks, attempt, exec_cons, step, call, locate, report, enter, acquire, proceed, State.setCaller,
      State.setCell, State.valueAt, hmap, hcell, hcalls]
  | none =>
    simp [Asks, attempt, exec_cons, step, call, locate, report, enter, acquire, proceed, State.setCaller,
      State.setCell, State.valueAt, hmap, hcalls]

theorem WellFormed.agreement (h : WellFormed key initialise s)
    (hone : OneCall key initialise denied request result) :
    Agreement key initialise denied request result s where
  one_running k c c' := h.one_running
  one_recorded := h.one_recorded
  issued c x hx q hq := hone.issues ((h.caller c x hx).of_issued hq)
  recorded_own := by
    intro r hr
    obtain ⟨x,hx,hkey,-,hreaches⟩ := h.recorder r hr
    refine ⟨x,hx,hkey,?_⟩
    rw [← hkey]
    rcases hone.ends hreaches with ⟨v,hdenied,hv⟩ | ⟨hdenied,a,hlog,hresult⟩
    · cases hv
      refine Or.inl ⟨hdenied,List.eq_nil_iff_forall_not_mem.mpr fun q hq => ?_⟩
      have hissued := (hone.issues ((h.caller _ x hx).of_issued hq)).1
      cases hdenied.symm.trans hissued
    · exact Or.inr ⟨hdenied,a,hlog,hresult⟩
  ok_recorded c x v hx hphase := h.valueOf_eq_some.mp ((h.caller c x hx).of_ok hphase)
  ok_agree := by
    intro c c' x x' v v' hx hx' hkey hphase hphase'
    have hv := (h.caller c x hx).of_ok hphase
    have hv' := (h.caller c' x' hx').of_ok hphase'
    rw [← hkey, hv] at hv'
    exact Option.some.inj hv'
  error_own := by
    intro c x e hx hphase
    rcases hone.ends ((h.caller c x hx).of_error hphase) with ⟨v,-,hv⟩ | hown
    · cases hv
    · exact hown
  hit c x hx := (h.caller c x hx).of_hit
  failure a t hstep c x e hx hphase := h.failure hstep hx hphase
  retry arg := h.retry hone

end NioClient.OnceCells
