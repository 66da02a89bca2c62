import NioClient.Library.OnceCellsAgreement

/-! # Once-cells under a setting that changes

The initialisers may depend on a setting of the map, which changes only while no
caller is in progress. Each caller is labelled with the setting at its call, which is
history; without the labels the steps are the same.
-/
namespace NioClient.OnceCells
open Environment Execution

variable {X L K V E Q : Type} {A : Q → Type}

def Phase.result : Phase V E Q A → Option (Except E V)
  | .returned result => some result
  | _ => none

theorem Phase.result_eq_some {phase : Phase V E Q A} {result : Except E V} :
    phase.result = some result ↔ phase = .returned result := by
  cases phase <;> simp [Phase.result]

def Caller.unlabelled (x : Caller (X × L) V E Q A) : Caller X V E Q A where
  arg := x.arg.1
  phase := x.phase
  hit := x.hit
  issued := x.issued
  replies := x.replies

def State.unlabelled (s : State (X × L) K V E Q A) : State X K V E Q A where
  map := s.map
  cells := s.cells
  callers := s.callers.map Caller.unlabelled
  recorded := s.recorded

def State.labels (s : State (X × L) K V E Q A) : List L := s.callers.map fun x => x.arg.2

def Action.labelled (l : L) : Action X Q A → Action (X × L) Q A
  | .call arg => .call (arg,l)
  | .locate c => .locate c
  | .report c => .report c
  | .enter c => .enter c
  | .acquire c => .acquire c
  | .reply c env => .reply c env
  | .drop c => .drop c

/-- The labels of the callers which the action adds. -/
def Action.labels (l : L) : Action X Q A → List L
  | .call _ => [l]
  | _ => []

section Labels
variable {s t : State (X × L) K V E Q A} {c i : ℕ} {x : Caller (X × L) V E Q A} {l : L}

theorem unlabelled_getElem? (s : State (X × L) K V E Q A) (c : ℕ) :
    s.unlabelled.callers[c]? = s.callers[c]?.map Caller.unlabelled := List.getElem?_map

@[simp] theorem unlabelled_setCaller :
    (s.setCaller c x).unlabelled = s.unlabelled.setCaller c x.unlabelled := by
  simp [State.setCaller, State.unlabelled, List.map_set]

@[simp] theorem unlabelled_setCell {cell : Cell V} :
    (s.setCell i cell).unlabelled = s.unlabelled.setCell i cell := rfl

@[simp] theorem unlabelled_map : s.unlabelled.map = s.map := rfl

@[simp] theorem unlabelled_valueAt : s.unlabelled.valueAt i = s.valueAt i := rfl

variable (key : X → K) (initialise : L → X → Program Q A (Except E V))

def labelledKey (x : X × L) : K := key x.1

def labelledInit (x : X × L) : Program Q A (Except E V) := initialise x.2 x.1

theorem unlabelled_proceed (p : Program Q A (Except E V)) :
    (proceed (labelledKey key) s c i x p).unlabelled = proceed key s.unlabelled c i x.unlabelled p := by
  rcases p with ((e | v) | ⟨q,next⟩) <;>
    simp [proceed, State.unlabelled, State.setCaller, State.setCell, List.map_set, Caller.unlabelled,
      labelledKey]

/-- A step which first looks at caller `c`. -/
theorem unlabelled_bind {f : Caller X V E Q A → Option (State X K V E Q A)}
    {g : Caller (X × L) V E Q A → Option (State (X × L) K V E Q A)}
    (h : ∀ x, s.callers[c]? = some x → f x.unlabelled = (g x).map State.unlabelled) :
    s.unlabelled.callers[c]?.bind f = (s.callers[c]?.bind g).map State.unlabelled := by
  rw [unlabelled_getElem?]
  cases hx : s.callers[c]? with
  | none => rfl
  | some x => exact h x hx

theorem unlabelled_report : report s.unlabelled c = (report s c).map State.unlabelled := by
  refine unlabelled_bind fun x _ => ?_
  obtain ⟨⟨arg,l⟩,phase,hit,issued,replies⟩ := x
  cases phase with
  | located i => simp [Caller.unlabelled]
  | _ => rfl

theorem unlabelled_enter : enter s.unlabelled c = (enter s c).map State.unlabelled := by
  refine unlabelled_bind fun x _ => ?_
  obtain ⟨⟨arg,l⟩,phase,hit,issued,replies⟩ := x
  cases phase with
  | reported i => cases hv : s.valueAt i <;> simp [Caller.unlabelled, hv]
  | _ => rfl

theorem unlabelled_acquire
    (hl : ∀ x, s.callers[c]? = some x → x.phase.settled = false → x.arg.2 = l) :
    acquire key (initialise l) s.unlabelled c =
      (acquire (labelledKey key) (labelledInit initialise) s c).map State.unlabelled := by
  refine unlabelled_bind fun x hx => ?_
  have hlabel := hl x hx
  obtain ⟨⟨arg,l'⟩,phase,hit,issued,replies⟩ := x
  cases phase with
  | waiting i =>
    obtain rfl : l' = l := hlabel rfl
    have hcells : s.unlabelled.cells[i]? = s.cells[i]? := rfl
    rcases hcell : s.cells[i]? with _ | ⟨_ | v,_ | c'⟩ <;>
      simp [Caller.unlabelled, hcells, hcell, unlabelled_proceed, labelledInit]
  | _ => rfl

theorem unlabelled_reply {env : ∀ q, A q} :
    reply key s.unlabelled c env = (reply (labelledKey key) s c env).map State.unlabelled := by
  refine unlabelled_bind fun x _ => ?_
  obtain ⟨⟨arg,l⟩,phase,hit,issued,replies⟩ := x
  cases phase with
  | calling i q next => simp [Caller.unlabelled, unlabelled_proceed]
  | _ => rfl

theorem unlabelled_drop : drop s.unlabelled c = (drop s c).map State.unlabelled := by
  refine unlabelled_bind fun x _ => ?_
  obtain ⟨⟨arg,l⟩,phase,hit,issued,replies⟩ := x
  cases phase with
  | returned result => rfl
  | dropped => rfl
  | _ => simp [Caller.unlabelled]

variable [DecidableEq K]

theorem unlabelled_locate :
    locate key s.unlabelled c = (locate (labelledKey key) s c).map State.unlabelled := by
  refine unlabelled_bind fun x _ => ?_
  obtain ⟨⟨arg,l⟩,phase,hit,issued,replies⟩ := x
  cases phase with
  | called =>
    cases hmap : s.map (key arg) with
    | some i => simp [Caller.unlabelled, labelledKey, hmap]
    | none => simp [State.unlabelled, State.setCaller, Caller.unlabelled, labelledKey, hmap]
  | _ => rfl

/-- Labels do not matter to a step, as long as the callers in progress have the setting
which it takes. -/
theorem step_unlabelled (a : Action X Q A)
    (hl : ∀ (c : ℕ) x, s.callers[c]? = some x → x.phase.settled = false → x.arg.2 = l) :
    step key (initialise l) s.unlabelled a =
      (step (labelledKey key) (labelledInit initialise) s (a.labelled l)).map State.unlabelled := by
  cases a with
  | call arg => simp [step, Action.labelled, call, State.unlabelled, Caller.unlabelled]
  | locate c => exact unlabelled_locate key
  | report c => exact unlabelled_report
  | enter c => exact unlabelled_enter
  | acquire c => exact unlabelled_acquire key initialise (hl c)
  | reply c env => exact unlabelled_reply key
  | drop c => exact unlabelled_drop

end Labels

section
variable {key : X → K} {s t : State (X × L) K V E Q A} {c : ℕ} {x x' : Caller (X × L) V E Q A}

theorem labels_getElem? (hx : s.callers[c]? = some x) : s.labels[c]? = some x.arg.2 := by
  rw [State.labels, List.getElem?_map, hx, Option.map_some]

theorem Moves.labels (h : Moves (labelledKey key) s c x x' t) : t.labels = s.labels := by
  rw [State.labels, State.labels, h.callers, List.map_set, h.arg]
  apply List.ext_getElem?
  intro d
  by_cases hd : d = c
  · subst hd
    have hlt : d < s.callers.length := (List.getElem?_eq_some_iff.mp h.caller).1
    rw [List.getElem?_set_self (by simpa using hlt), List.getElem?_map, h.caller, Option.map_some]
  · rw [List.getElem?_set_ne (Ne.symm hd)]

/-- The caller is in progress or has returned a value. -/
def Phase.live : Phase V E Q A → Bool
  | .returned (.error _) | .dropped => false
  | _ => true

theorem live_of_progress {phase : Phase V E Q A} (h : phase.settled = false) : phase.live := by
  cases phase <;> first | rfl | cases h

theorem live_cases {phase : Phase V E Q A} (h : phase.live) :
    phase.settled = false ∨ ∃ v, phase = .returned (.ok v) := by
  rcases phase with _ | _ | _ | _ | _ | (e | v) | _
  all_goals first | exact Or.inl rfl | cases h
  exact Or.inr ⟨v,rfl⟩

end

section Settings
variable {Z : Type} (key : X → K) (initialise : L → X → Program Q A (Except E V)) (z : L → Z)
  (asked : K → Prop) [DecidableEq K]

/-- A call asks no question for which a value has been recorded under a setting that
differs in `z`. -/
def Timely (l : L) (labels : List L) (recorded : List (Record K V)) : Action X Q A → Prop
  | .call arg => asked (key arg) → ∀ r ∈ recorded, r.key = key arg → ∀ l' ∈ labels[r.caller]?, z l' = z l
  | _ => True

instance Timely.decidable [DecidablePred asked] [DecidableEq Z] (l : L) (labels : List L)
    (recorded : List (Record K V)) : ∀ a : Action X Q A, Decidable (Timely key z asked l labels recorded a)
  | .call arg => inferInstanceAs (Decidable (asked (key arg) →
      ∀ r ∈ recorded, r.key = key arg → ∀ l' ∈ labels[r.caller]?, z l' = z l))
  | .locate _ | .report _ | .enter _ | .acquire _ | .reply _ _ | .drop _ => isTrue trivial

/-- The callers in progress have the present setting, and the value recorded for a question
was recorded under a setting that suits the callers of that question. -/
structure LabelledBy (l : L) (s : State (X × L) K V E Q A) : Prop where
  wellFormed : WellFormed (labelledKey key) (labelledInit initialise) s
  current : ∀ (c : ℕ) x, s.callers[c]? = some x → x.phase.settled = false → x.arg.2 = l
  agree : ∀ (c : ℕ) x, s.callers[c]? = some x → x.phase.live → asked (key x.arg.1) →
    ∀ r ∈ s.recorded, r.key = key x.arg.1 → ∀ l', s.labels[r.caller]? = some l' → z l' = z x.arg.2

variable {key initialise z asked} {s t : State (X × L) K V E Q A} {c : ℕ} {l : L}
  {x x' : Caller (X × L) V E Q A}

theorem labelledBy_init : LabelledBy key initialise z asked l State.init :=
  ⟨wellFormed_init,by simp [State.init],by simp [State.init]⟩

/-- The setting may change when no caller is in progress. -/
theorem LabelledBy.settled {l' : L} (h : LabelledBy key initialise z asked l s)
    (hs : ∀ x ∈ s.callers, x.phase.settled) : LabelledBy key initialise z asked l' s := by
  refine ⟨h.wellFormed,fun c x hx hprogress => ?_,h.agree⟩
  rw [hs x (List.mem_of_getElem? hx)] at hprogress
  cases hprogress

protected theorem LabelledBy.call (h : LabelledBy key initialise z asked l s) {arg : X}
    (htimely : Timely key z asked l s.labels s.recorded (.call arg : Action X Q A)) :
    LabelledBy key initialise z asked l (call s (arg,l)) := by
  refine ⟨h.wellFormed.call (arg,l),fun c x hx hprogress => ?_,fun c x hx hlive hasked r hr hkey l' hl' => ?_⟩
  · rcases getElem?_append_new hx with hx | ⟨-,rfl⟩
    · exact h.current c x hx hprogress
    · rfl
  · -- The recorder is an old caller.
    obtain ⟨y,hy,-⟩ := h.wellFormed.recorder r hr
    have hlabel : s.labels[r.caller]? = some l' := by
      rw [← hl', labels_getElem? hy, labels_getElem? (getElem?_append_old hy)]
    rcases getElem?_append_new hx with hx | ⟨-,rfl⟩
    · exact h.agree c x hx hlive hasked r hr hkey l' hlabel
    · exact htimely hasked r hr hkey l' hlabel

protected theorem LabelledBy.moves (h : LabelledBy key initialise z asked l s)
    (hmoves : Moves (labelledKey key) s c x x' t)
    (ht : WellFormed (labelledKey key) (labelledInit initialise) t) :
    LabelledBy key initialise z asked l t := by
  have hx : s.callers[c]? = some x := hmoves.caller
  have hlabel : x.arg.2 = l := h.current c x hx hmoves.progress
  have hold {d : ℕ} {y : Caller (X × L) V E Q A} (hy : t.callers[d]? = some y) :
      d = c ∧ y = x' ∨ s.callers[d]? = some y := by
    rw [hmoves.callers] at hy
    by_cases hd : d = c
    · subst hd
      exact Or.inl ⟨rfl,Option.some.inj (hy.symm.trans (setCaller_self hx))⟩
    · rw [List.getElem?_set_ne (Ne.symm hd)] at hy
      exact Or.inr hy
  refine ⟨ht,fun d y hy hprogress => ?_,fun d y hy hlive hasked r hr hkey l' hl' => ?_⟩
  · rcases hold hy with ⟨-,rfl⟩ | hy
    · rw [hmoves.arg, hlabel]
    · exact h.current d y hy hprogress
  rw [hmoves.labels] at hl'
  obtain ⟨y',hy',hlive',harg⟩ : ∃ y', s.callers[d]? = some y' ∧ y'.phase.live ∧ y'.arg = y.arg := by
    rcases hold hy with ⟨rfl,rfl⟩ | hy
    · exact ⟨x,hx,live_of_progress hmoves.progress,hmoves.arg.symm⟩
    · exact ⟨y,hy,hlive,rfl⟩
  rw [← harg] at hasked hkey ⊢
  have hagree : r ∈ s.recorded → z l' = z y'.arg.2 := fun hr => h.agree d y' hy' hlive' hasked r hr hkey l' hl'
  rcases hmoves.unrecorded h.wellFormed with hsame | ⟨hvalue,v,hnew⟩
  · rw [hsame] at hr
    exact hagree hr
  rw [hnew] at hr
  rcases List.mem_append.mp hr with hr | hr
  · exact hagree hr
  · -- The new value is recorded by `c`, and nobody has returned a value for its key.
    cases List.mem_singleton.mp hr
    rw [labels_getElem? hx] at hl'
    cases hl'
    rcases live_cases hlive' with hprogress | ⟨v',hphase⟩
    · rw [hlabel, h.current d y' hy' hprogress]
    · have hvalue' : s.valueOf (labelledKey key y'.arg) = some v' :=
        (h.wellFormed.caller d y' hy').of_ok hphase
      have hkey' : labelledKey key y'.arg = labelledKey key x.arg := hkey.symm
      rw [hkey', hvalue] at hvalue'
      cases hvalue'

/-- A caller returns a value that an initialiser has brought under a setting that suits it. -/
theorem LabelledBy.answer (h : LabelledBy key initialise z asked l s) (hx : s.callers[c]? = some x) {v : V}
    (hphase : x.phase = .returned (.ok v)) (hasked : asked (key x.arg.1)) :
    ∃ (d : ℕ) (y : Caller (X × L) V E Q A), s.callers[d]? = some y ∧ key y.arg.1 = key x.arg.1 ∧
      z y.arg.2 = z x.arg.2 ∧ (initialise y.arg.2 y.arg.1).Reaches y.replies (.pure (.ok v)) := by
  have hvalue := (h.wellFormed.caller c x hx).of_ok hphase
  obtain ⟨r,hr,hkey,rfl⟩ := h.wellFormed.valueOf_eq_some.mp hvalue
  obtain ⟨y,hy,hykey,-,hreaches⟩ := h.wellFormed.recorder r hr
  have hlive : x.phase.live := by rw [hphase]; rfl
  have hz := h.agree c x hx hlive hasked r hr hkey y.arg.2 (labels_getElem? hy)
  exact ⟨r.caller,y,hy,hykey.trans hkey,hz,hreaches⟩

variable (key initialise z asked) in
/-- The callers of `s` can be labelled so, where `labels` are the settings at their calls. -/
def Labelling (l : L) (labels : List L) (s : State X K V E Q A) : Prop :=
  ∃ s' : State (X × L) K V E Q A, s'.unlabelled = s ∧ s'.labels = labels ∧
    LabelledBy key initialise z asked l s'

variable {labels : List L} {r r' : State X K V E Q A}

theorem labelling_init : Labelling key initialise z asked l [] (State.init : State X K V E Q A) :=
  ⟨.init,rfl,rfl,labelledBy_init⟩

/-- What a timely step preserves. -/
theorem Labelling.step (h : Labelling key initialise z asked l labels r) {a : Action X Q A}
    (htimely : Timely key z asked l labels r.recorded a) (hstep : step key (initialise l) r a = some r') :
    Labelling key initialise z asked l (labels ++ a.labels l) r' := by
  obtain ⟨s,rfl,rfl,hs⟩ := h
  rw [step_unlabelled key initialise a hs.current] at hstep
  obtain ⟨t,ht,rfl⟩ := Option.map_eq_some_iff.mp hstep
  have hwell := step_wellFormed hs.wellFormed ht
  rcases step_moves ht with ⟨arg',ha,rfl⟩ | ⟨ha,c,x,x',hmoves⟩
  · cases a with
    | call arg =>
      cases ha
      exact ⟨_,rfl,List.map_append,hs.call htimely⟩
    | _ => cases ha
  · have hlabels : a.labels l = [] := by
      cases a with
      | call arg => exact absurd rfl (ha (arg,l))
      | _ => rfl
    rw [hlabels, List.append_nil]
    exact ⟨t,rfl,hmoves.labels,hs.moves hmoves hwell⟩

theorem Labelling.settled (h : Labelling key initialise z asked l labels r)
    (hr : ∀ x ∈ r.callers, x.phase.settled) (l' : L) : Labelling key initialise z asked l' labels r := by
  obtain ⟨s,rfl,hlabels,hs⟩ := h
  exact ⟨s,rfl,hlabels,hs.settled fun x hx => hr x.unlabelled (List.mem_map_of_mem hx)⟩

theorem Labelling.answer (h : Labelling key initialise z asked l labels r) {x : Caller X V E Q A} {v : V}
    (hx : r.callers[c]? = some x) (hphase : x.phase = .returned (.ok v)) (hasked : asked (key x.arg)) :
    ∃ l', labels[c]? = some l' ∧ ∃ y ∈ r.callers, key y.arg = key x.arg ∧ ∃ l'', z l'' = z l' ∧
      (initialise l'' y.arg).Reaches y.replies (.pure (.ok v)) := by
  obtain ⟨s,rfl,rfl,hs⟩ := h
  rw [unlabelled_getElem?] at hx
  obtain ⟨x',hx',rfl⟩ := Option.map_eq_some_iff.mp hx
  obtain ⟨d,y,hy,hkey,hz,hreaches⟩ := hs.answer hx' hphase hasked
  exact ⟨x'.arg.2,labels_getElem? hx',y.unlabelled,List.mem_map_of_mem (List.mem_of_getElem? hy),hkey,
    y.arg.2,hz,hreaches⟩

/-- With initialisers of one call each, an answer that is no denial came with that call. -/
theorem Labelling.answer_call {denied : K → Option V} {request : L → K → Q}
    {result : ∀ l k, A (request l k) → Except E V}
    (hone : ∀ l, OneCall key (initialise l) denied (request l) (result l))
    (h : Labelling key initialise z asked l labels r) {x : Caller X V E Q A} {v : V}
    (hx : r.callers[c]? = some x) (hphase : x.phase = .returned (.ok v)) (hasked : asked (key x.arg))
    (hpossible : denied (key x.arg) = none) :
    ∃ l', labels[c]? = some l' ∧ ∃ y ∈ r.callers, ∃ l'', z l'' = z l' ∧ ∃ reply,
      y.replies = [⟨request l'' (key x.arg),reply⟩] ∧ result l'' (key x.arg) reply = .ok v := by
  obtain ⟨l',hl',y,hy,hkey,l'',hz,hreaches⟩ := h.answer hx hphase hasked
  have hcall := (hone l'').ends hreaches
  rw [hkey] at hcall
  rcases hcall with ⟨v',hdenied,-⟩ | ⟨-,reply,hlog,hresult⟩
  · rw [hpossible] at hdenied
    cases hdenied
  · exact ⟨l',hl',y,hy,l'',hz,reply,hlog,hresult⟩

end Settings
end NioClient.OnceCells
