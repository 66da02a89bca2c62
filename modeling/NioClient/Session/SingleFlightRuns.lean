import NioClient.Session.Staleness

/-! # Single flight over whole runs

The schedule of a run and the phases of its fills tell the same story, so the
in-flight map holds a fill from its registration to its own clean-up. A fill
whose task is polled ends, whatever becomes of its callers.
-/
namespace NioClient.Session
open Execution
variable {cfg : ResolverConfig} {s t : State} {a : Act} {acts : List Act}

/-- The phase of fill `f`; one that is yet to be registered has taken no step either. -/
def SingleFlight.phaseAt (flight : SingleFlight) (f : ℕ) : Phase :=
  ((flight.fills[f]?).map Fill.phase).getD .registered

theorem phaseAt_eq {flight : SingleFlight} {f : ℕ} {fill : Fill} (hf : flight.fills[f]? = some fill) :
    flight.phaseAt f = fill.phase := by
  simp [SingleFlight.phaseAt, hf]

theorem step_phaseAt (hs : step cfg s a = some t) (f : ℕ) :
    (t.flight.phaseAt f = s.flight.phaseAt f ∧ ∀ ev, a.event ≠ some (f, ev)) ∨
    ∃ ev key, a.event = some (f, ev) ∧ SingleFlight.Next cfg s.now f key ev (s.flight.phaseAt f)
      s.flight.fetches (t.flight.phaseAt f) t.flight.fetches := by
  have hmove := step_flight hs
  cases hf : s.flight.fills[f]? with
  | some fill =>
    obtain ⟨phase,ht,hevolves⟩ := hmove.evolves hf
    rw [phaseAt_eq hf, phaseAt_eq ht]
    generalize hevent : a.event = event at hevolves
    cases hevolves with
    | rest _ _ hne => exact Or.inl ⟨rfl,hne⟩
    | next ev _ _ hn => exact Or.inr ⟨ev,fill.key,rfl,hn⟩
  | none =>
    left
    constructor
    · cases ht : t.flight.fills[f]? with
      | none => simp [SingleFlight.phaseAt, hf, ht]
      | some fill' =>
        rcases hmove.origin ht with ⟨fill,hfill,-⟩ | ⟨-,hreg,-⟩
        · simp [hf] at hfill
        · simp [SingleFlight.phaseAt, hf, ht, hreg]
    · intro ev hev
      rw [hev] at hmove
      obtain ⟨fill,hfill⟩ := hmove.exists_fill
      simp [hf] at hfill

/-- How often the run has taken each step of fill `f`, by the phase the fill is in. -/
structure Tally (acts : List Act) (f : ℕ) (phase : Phase) : Prop where
  calls : acts.count (.callFetch f) = if phase = .registered then 0 else 1
  puts : acts.count (.put f) = if phase.stored?.isSome then 1 else 0
  cleanUps : acts.count (.cleanUp f) = if phase.live then 0 else 1
  panics : .fetchPanics f ∈ acts ↔ ∃ n, phase = .panicked n

theorem count_concat (acts : List Act) (a b : Act) :
    (acts ++ [a]).count b = acts.count b + if a = b then 1 else 0 := by
  rw [List.count_append, List.count_singleton]
  simp

theorem Tally.rest {f : ℕ} {p : Phase} (h : Tally acts f p) (hne : ∀ ev, a.event ≠ some (f, ev)) :
    Tally (acts ++ [a]) f p := by
  have hcall : a ≠ .callFetch f := fun he => hne _ (Act.event_called.mpr he)
  have hput : a ≠ .put f := fun he => hne _ (Act.event_put.mpr he)
  have hclean : a ≠ .cleanUp f := fun he => hne _ (Act.event_cleaned.mpr he)
  have hpanic : a ≠ .fetchPanics f := fun he => hne _ (Act.event_panicked.mpr he)
  constructor
  · rw [count_concat, if_neg hcall, h.calls, Nat.add_zero]
  · rw [count_concat, if_neg hput, h.puts, Nat.add_zero]
  · rw [count_concat, if_neg hclean, h.cleanUps, Nat.add_zero]
  · rw [List.mem_append, List.mem_singleton, h.panics]
    simp [hpanic.symm]

theorem Tally.next {now f : ℕ} {key : TokenHash} {ev : SingleFlight.FillEvent} {p q : Phase}
    {log log' : List Fetch} (h : Tally acts f p) (hev : a.event = some (f, ev))
    (hn : SingleFlight.Next cfg now f key ev p log q log') : Tally (acts ++ [a]) f q := by
  have hcall : a = .callFetch f ↔ ev = .called := by simp [← Act.event_called, hev]
  have hput : a = .put f ↔ ev = .put := by simp [← Act.event_put, hev]
  have hclean : a = .cleanUp f ↔ ev = .cleaned := by simp [← Act.event_cleaned, hev]
  have hpanic : .fetchPanics f = a ↔ ev = .panicked := by
    rw [eq_comm]
    simp [← Act.event_panicked, hev]
  obtain ⟨hcalls,hputs,hcleans,hpanics⟩ := h
  constructor
  · rw [count_concat, hcalls]
    cases hn <;> simp [hcall]
  · rw [count_concat, hputs]
    cases hn with
    | cleaned n r => cases r <;> simp [hput, Phase.stored?]
    | _ => simp [hput, Phase.stored?]
  · rw [count_concat, hcleans]
    cases hn <;> simp [hclean, Phase.live]
  · rw [List.mem_append, List.mem_singleton, hpanics, hpanic]
    cases hn <;> simp

theorem run_tally (h : Run cfg acts s) (f : ℕ) : Tally acts f (s.flight.phaseAt f) := by
  refine exec_induction (motive := fun acts s => Tally acts f (s.flight.phaseAt f)) ?_ ?_ h
  · constructor <;> simp [SingleFlight.phaseAt, init, SingleFlight.default, Phase.stored?, Phase.live]
  · intro acts s a t _ ih hs
    rcases step_phaseAt hs f with ⟨heq,hne⟩ | ⟨ev,key,hev,hn⟩
    · rw [heq]
      exact ih.rest hne
    · exact ih.next hev hn

theorem run_panicked (h : Run cfg acts s) {f n : ℕ} {fill : Fill} (hf : s.flight.fills[f]? = some fill)
    (hp : fill.phase = .panicked n) : .fetchPanics f ∈ acts :=
  (run_tally h f).panics.mpr ⟨n, by rw [phaseAt_eq hf, hp]⟩

/-- The steps which the task of fill `f` can take by itself when it is polled. -/
def Ready (cfg : ResolverConfig) (s : State) (f : ℕ) : Prop :=
  ∃ a ∈ [Act.callFetch f, .fetchTimesOut f, .put f, .cleanUp f], (step cfg s a).isSome

/-- The runtime polls the task of fill `f`: it is not left ready for ever. -/
def Polled (T : Trace (step cfg) s) (f : ℕ) : Prop :=
  ∀ n, (∀ m, n ≤ m → Ready cfg (T.state m) f) → ∃ m ev, n ≤ m ∧ (T.act m).event = some (f, ev)

def TimePasses (T : Trace (step cfg) s) : Prop := ∀ d, ∃ n, d ≤ (T.state n).now

def Phase.rank : Phase → ℕ
  | .registered => 0
  | .fetching _ => 1
  | .storing _ _ => 2
  | .cleaning _ _ => 3
  | .done _ _ | .panicked _ => 4

theorem SingleFlight.Next.rank_lt {now f : ℕ} {key : TokenHash} {ev : SingleFlight.FillEvent}
    {p q : Phase} {log log' : List Fetch} (h : SingleFlight.Next cfg now f key ev p log q log') :
    p.rank < q.rank := by
  cases h <;> simp [Phase.rank]

theorem fetchTimesOut_due {flight : SingleFlight} {f now n : ℕ} {fill : Fill} {x : Fetch}
    (hf : flight.fills[f]? = some fill) (hp : fill.phase = .fetching n)
    (hx : flight.fetches[n]? = some x) (hdue : x.beganAt + RESOLVE_TIMEOUT ≤ now) :
    (flight.fetchTimesOut f now).isSome := by
  unfold SingleFlight.fetchTimesOut
  rw [hf, Option.bind_eq_bind, Option.bind_some, hp]
  dsimp only
  rw [hx, Option.bind_eq_bind, Option.bind_some, if_pos hdue, Option.isSome_some]

/-- Before its fetch is under way, and after it has ended, a fill is always ready;
in between it is once the timeout has elapsed. -/
theorem ready_of_phase {f : ℕ} {fill : Fill} (hf : s.flight.fills[f]? = some fill)
    (hrank : fill.phase.rank < 4)
    (hfetch : ∀ n, fill.phase = .fetching n → ∃ x, s.flight.fetches[n]? = some x ∧
      x.beganAt + RESOLVE_TIMEOUT ≤ s.now) : Ready cfg s f := by
  cases hp : fill.phase with
  | registered =>
    exact ⟨.callFetch f, by simp, by simp [step, SingleFlight.callFetch, hf, hp]⟩
  | fetching n =>
    obtain ⟨x,hx,hdue⟩ := hfetch n hp
    refine ⟨.fetchTimesOut f, by simp,?_⟩
    rw [step, Option.isSome_map]
    exact fetchTimesOut_due hf hp hx hdue
  | storing n e =>
    exact ⟨.put f, by simp, by simp [step, State.put, SingleFlight.pending, hf, hp]⟩
  | cleaning n r =>
    exact ⟨.cleanUp f, by simp, by simp [step, SingleFlight.cleanUp, hf, hp]⟩
  | done n r => simp [hp, Phase.rank] at hrank
  | panicked n => simp [hp, Phase.rank] at hrank

theorem trace_fill (T : Trace (step cfg) s) {m n f : ℕ} (hmn : m ≤ n)
    (hf : ∃ fill, (T.state m).flight.fills[f]? = some fill) :
    ∃ fill, (T.state n).flight.fills[f]? = some fill := by
  refine T.persists (p := fun s => ∃ fill, s.flight.fills[f]? = some fill) (fun n hn => ?_) hmn hf
  obtain ⟨fill,hfill⟩ := hn
  obtain ⟨phase,hphase,-⟩ := (step_flight (T.next n)).evolves hfill
  exact ⟨_,hphase⟩

theorem trace_now (T : Trace (step cfg) s) {m n : ℕ} (hmn : m ≤ n) : (T.state m).now ≤ (T.state n).now :=
  T.persists (p := fun s => (T.state m).now ≤ s.now) (fun n hn => hn.trans (step_now (T.next n))) hmn le_rfl

theorem trace_fetch (T : Trace (step cfg) s) {m n i : ℕ} {x : Fetch} (hmn : m ≤ n)
    (hx : (T.state m).flight.fetches[i]? = some x) :
    ∃ y, (T.state n).flight.fetches[i]? = some y ∧ y.beganAt = x.beganAt := by
  refine T.persists (p := fun s => ∃ y, s.flight.fetches[i]? = some y ∧ y.beganAt = x.beganAt)
    (fun n hn => ?_) hmn ⟨x,hx,rfl⟩
  obtain ⟨y,hy,hbegan⟩ := hn
  obtain ⟨z,hz,-,-,hzbegan⟩ := (step_flight (T.next n)).fetch_later hy
  exact ⟨z,hz,hzbegan.trans hbegan⟩

/-- As long as fill `f` takes no step it stays in its phase; and then it is ready
from some moment on, so the runtime makes it take one. -/
theorem trace_steps (T : Trace (step cfg) s) (hrun : Run cfg acts s) {f n : ℕ} (hpolled : Polled T f)
    (htime : TimePasses T) (hfill : ∃ fill, (T.state n).flight.fills[f]? = some fill)
    (hrank : ((T.state n).flight.phaseAt f).rank < 4) :
    ∃ m, n ≤ m ∧ ((T.state n).flight.phaseAt f).rank < ((T.state (m + 1)).flight.phaseAt f).rank := by
  by_contra hnone
  push Not at hnone
  have hphase : ∀ m, n ≤ m → (T.state m).flight.phaseAt f = (T.state n).flight.phaseAt f := by
    intro m hm
    induction m, hm using Nat.le_induction with
    | base => rfl
    | succ m hm ih =>
      rcases step_phaseAt (T.next m) f with ⟨heq,-⟩ | ⟨ev,key,-,hn⟩
      · exact heq.trans ih
      · have hlt := hn.rank_lt
        rw [ih] at hlt
        exact absurd hlt (hnone m hm).not_gt
  have hidle : ∀ m ev, n ≤ m → (T.act m).event ≠ some (f, ev) := by
    intro m ev hm hev
    rcases step_phaseAt (T.next m) f with ⟨-,hne⟩ | ⟨ev',key,-,hn⟩
    · exact hne ev hev
    · have hlt := hn.rank_lt
      rw [hphase m hm, hphase (m + 1) (by omega)] at hlt
      exact absurd hlt (lt_irrefl _)
  obtain ⟨due,hdue⟩ : ∃ due, ∀ m, n ≤ m → due ≤ (T.state m).now → Ready cfg (T.state m) f := by
    obtain ⟨fill,hf⟩ := hfill
    have hlog := run_logged (exec_append_iff.mpr ⟨s,hrun,T.exec_taken n⟩)
    -- the instant at which the fetch under way times out
    obtain ⟨due,hfetch⟩ : ∃ due, ∀ i, fill.phase = .fetching i → ∃ x,
        (T.state n).flight.fetches[i]? = some x ∧ x.beganAt + RESOLVE_TIMEOUT = due := by
      cases hp : fill.phase with
      | fetching i =>
        obtain ⟨x,hx,-⟩ := hlog.call f fill i hf (by simp [hp, Phase.fetch?])
        exact ⟨_,fun j hj => by cases hj; exact ⟨x,hx,rfl⟩⟩
      | _ => exact ⟨0,fun i hi => by cases hi⟩
    refine ⟨due,fun m hm hnow => ?_⟩
    obtain ⟨fill',hf'⟩ := trace_fill T hm ⟨fill,hf⟩
    have hsame : fill'.phase = fill.phase := by rw [← phaseAt_eq hf', ← phaseAt_eq hf, hphase m hm]
    refine ready_of_phase hf' (by rwa [hsame, ← phaseAt_eq hf]) fun i hi => ?_
    obtain ⟨x,hx,rfl⟩ := hfetch i (hsame.symm.trans hi)
    obtain ⟨y,hy,hbegan⟩ := trace_fetch T hm hx
    exact ⟨y,hy,by rwa [hbegan]⟩
  obtain ⟨k,hk⟩ := htime due
  obtain ⟨m,ev,hm,hev⟩ := hpolled (max n k) fun m hm =>
    hdue m ((le_max_left n k).trans hm) (hk.trans (trace_now T ((le_max_right n k).trans hm)))
  exact hidle m ev ((le_max_left n k).trans hm) hev

theorem live_iff (h : Run cfg acts s) {f : ℕ} {fill : Fill} (hf : s.flight.fills[f]? = some fill) :
    fill.phase.live ↔ .cleanUp f ∉ acts := by
  have hcount := (run_tally h f).cleanUps
  rw [phaseAt_eq hf] at hcount
  rw [← List.count_eq_zero, hcount]
  simp

def Fetching (flight : SingleFlight) (key : TokenHash) (f : ℕ) : Prop :=
  ∃ fill n, flight.fills[f]? = some fill ∧ fill.key = key ∧ fill.phase = .fetching n

/-- What holds of the single flight in the state `s` that the run `acts` has reached. -/
structure SingleFlightHolds (cfg : ResolverConfig) (acts : List Act) (s : State) : Prop where
  /-- At most one fill of a key is unfinished. -/
  one_fill : ∀ f g x y, s.flight.fills[f]? = some x → s.flight.fills[g]? = some y → x.key = y.key →
    .cleanUp f ∉ acts → .cleanUp g ∉ acts → f = g
  one_fetch : ∀ key f g, Fetching s.flight key f → Fetching s.flight key g → f = g
  /-- The map holds a fill from its registration to its own clean-up. -/
  held : ∀ key id f, s.flight.inflight.lookup key = some (id, f) ↔
    ∃ fill, s.flight.fills[f]? = some fill ∧ fill.key = key ∧ fill.id = id ∧ .cleanUp f ∉ acts
  /-- A clean-up finds its own id and removes its own entry, after the `put` of a
  fill that succeeded. -/
  own_clean_up : ∀ f t, step cfg s (.cleanUp f) = some t → ∃ fill n result,
    s.flight.fills[f]? = some fill ∧ fill.phase = .cleaning n result ∧
    s.flight.inflight.lookup fill.key = some (fill.id, f) ∧
    t.flight.inflight = s.flight.inflight.erase fill.key ∧
    acts.count (.put f) = if result.isOk then 1 else 0
  /-- A fill touches the cache by its `put` alone. -/
  cache_kept : ∀ a t f ev, step cfg s a = some t → a.event = some (f, ev) → ev ≠ .put → t.cache = s.cache
  fetched_once : ∀ f fill, s.flight.fills[f]? = some fill →
    acts.count (.callFetch f) = if fill.phase = .registered then 0 else 1
  put_once : ∀ f fill n result, s.flight.fills[f]? = some fill → fill.phase = .done n result →
    acts.count (.put f) = if result.isOk then 1 else 0
  /-- Whatever its callers do from here on, a fill whose task is polled runs its
  fetch once and ends. -/
  completes : ∀ f fill, s.flight.fills[f]? = some fill → ∀ T : Trace (step cfg) s, Polled T f →
    TimePasses T → (∀ n, T.act n ≠ .fetchPanics f) → ∃ m fill' n result,
      (T.state m).flight.fills[f]? = some fill' ∧ fill'.phase = .done n result ∧
      (acts ++ T.taken m).count (.callFetch f) = 1
  /-- A caller that joined a fill of its key still awaits it, was dropped, or has
  received the result of that fill. -/
  receipt : ∀ c key kind f, JoinedAt cfg acts c key kind f → ∃ fill phase,
    s.flight.fills[f]? = some fill ∧ fill.key = key ∧ s.callers[c]? = some ⟨key, kind, phase⟩ ∧
    ((∃ stale, phase = .waiting f stale) ∨ phase = .cancelled ∨
      ∃ n result stale, fill.phase = .done n result ∧ phase = State.conclude f n result stale)
  /-- Once the fill has ended, whoever awaits it can receive the result. -/
  receivable : ∀ (c : ℕ) key kind f stale fill n result,
    s.callers[c]? = some ⟨key, kind, .waiting f stale⟩ → s.flight.fills[f]? = some fill →
    fill.phase = .done n result → ∃ t, step cfg s (.receive c) = some t ∧
      t.callers[c]? = some ⟨key, kind, State.conclude f n result stale⟩

theorem run_own_clean_up (h : Run cfg acts s) {f : ℕ} (hs : step cfg s (.cleanUp f) = some t) :
    ∃ fill n result, s.flight.fills[f]? = some fill ∧ fill.phase = .cleaning n result ∧
      s.flight.inflight.lookup fill.key = some (fill.id, f) ∧
      t.flight.inflight = s.flight.inflight.erase fill.key ∧
      acts.count (.put f) = if result.isOk then 1 else 0 := by
  have hw := run_wellFormed h
  have hputs := (run_tally h f).puts
  obtain ⟨flight,hclean,rfl⟩ := Option.map_eq_some_iff.mp hs
  simp only [SingleFlight.cleanUp, Option.bind_eq_bind, Option.bind_eq_some_iff] at hclean
  obtain ⟨fill,hf,hclean⟩ := hclean
  split at hclean
  · rename_i n result hp
    cases hclean
    refine ⟨fill,n,result,hf,hp,hw.held f fill hf (by simp [hp, Phase.live]),if_pos (hw.own_id hf hp),?_⟩
    rw [hputs, phaseAt_eq hf, hp]
    cases result <;> rfl
  · cases hclean

theorem step_cache_kept (hs : step cfg s a = some t) {f : ℕ} {ev : SingleFlight.FillEvent}
    (hev : a.event = some (f, ev)) (hput : ev ≠ .put) : t.cache = s.cache := by
  cases a with
  | callFetch | fetchReturns | fetchTimesOut | fetchPanics | cleanUp =>
    obtain ⟨flight,hf,rfl⟩ := Option.map_eq_some_iff.mp hs
    rfl
  | put g =>
    simp only [Act.event, Option.some.injEq, Prod.mk.injEq] at hev
    exact absurd hev.2.symm hput
  | _ => cases hev

theorem exec_later {as : List Act} (h : exec (step cfg) s as = some t) {f : ℕ} {fill : Fill}
    (hf : s.flight.fills[f]? = some fill) :
    ∃ fill', t.flight.fills[f]? = some fill' ∧ fill'.key = fill.key ∧
      SingleFlight.Later fill.phase fill'.phase := by
  refine exec_invariant (I := fun t => ∃ fill', t.flight.fills[f]? = some fill' ∧ fill'.key = fill.key ∧
    SingleFlight.Later fill.phase fill'.phase) ?_ ⟨fill,hf,rfl,.refl _⟩ h
  rintro s a t ⟨fill',hf',hkey,hlater⟩ hs
  obtain ⟨fill'',hf'',hkey',hlater'⟩ := (step_flight hs).later hf'
  exact ⟨fill'',hf'',hkey'.trans hkey,hlater.trans hlater'⟩

theorem JoinedAt.fill {c f : ℕ} {key : TokenHash} {kind : CallerKind}
    (h : JoinedAt cfg acts c key kind f) (hrun : Run cfg acts s) :
    ∃ fill, s.flight.fills[f]? = some fill ∧ fill.key = key := by
  obtain ⟨pre,post,m,stale,id,rfl,hm,-,hlook⟩ := h
  obtain ⟨m',hm',hpost⟩ := exec_append_iff.mp hrun
  cases hm.symm.trans hm'
  obtain ⟨fill,hf,hkey,-⟩ := (run_wellFormed hm).owner key id f hlook
  obtain ⟨fill',hf',hkey',-⟩ := exec_later hpost hf
  exact ⟨fill',hf',hkey'.trans hkey⟩

/-- A fill that is polled ends: its task needs none of the callers. -/
theorem run_completes (h : Run cfg acts s) (hpanic : ∀ f, .fetchPanics f ∉ acts) {f : ℕ} {fill : Fill}
    (hf : s.flight.fills[f]? = some fill) (T : Trace (step cfg) s) (hpolled : Polled T f)
    (htime : TimePasses T) (hT : ∀ n, T.act n ≠ .fetchPanics f) : ∃ m fill' n result,
      (T.state m).flight.fills[f]? = some fill' ∧ fill'.phase = .done n result ∧
      (acts ++ T.taken m).count (.callFetch f) = 1 := by
  have hfill : ∀ n, ∃ fill, (T.state n).flight.fills[f]? = some fill := fun n =>
    trace_fill T (Nat.zero_le n) ⟨fill, by rwa [T.start]⟩
  obtain ⟨m,-,hm⟩ := T.reaches (fun s => (s.flight.phaseAt f).rank)
    (fun n hn => trace_steps T h hpolled htime (hfill n) hn) 0
  obtain ⟨fill',hf'⟩ := hfill m
  have htally := run_tally (exec_append_iff.mpr ⟨s,h,T.exec_taken m⟩) f
  rw [phaseAt_eq hf'] at hm htally
  have hcalls := htally.calls
  cases hp : fill'.phase with
  | done n result => exact ⟨m,fill',n,result,hf',hp, by simpa [hp] using hcalls⟩
  | panicked n =>
    rcases List.mem_append.mp (htally.panics.mpr ⟨n,hp⟩) with hacts | htaken
    · exact absurd hacts (hpanic f)
    · obtain ⟨k,-,hk⟩ := List.mem_map.mp htaken
      exact absurd hk (hT k)
  | _ => simp [hp, Phase.rank] at hm

/-- Single flight: as long as no fill panics, all of this holds in every state. -/
theorem single_flight (h : Run cfg acts s) (hpanic : ∀ f, .fetchPanics f ∉ acts) :
    SingleFlightHolds cfg acts s := by
  have hw := run_wellFormed h
  constructor
  · intro f g x y hf hg hkey hx hy
    exact hw.unique hf hg ((live_iff h hf).mpr hx) ((live_iff h hg).mpr hy) hkey
  · rintro key f g ⟨x,m,hf,rfl,hx⟩ ⟨y,n,hg,hkey,hy⟩
    exact hw.unique hf hg (by simp [hx, Phase.live]) (by simp [hy, Phase.live]) hkey.symm
  · intro key id f
    constructor
    · intro hlook
      obtain ⟨fill,hf,hkey,hid,hlive⟩ := hw.owner key id f hlook
      exact ⟨fill,hf,hkey,hid,(live_iff h hf).mp hlive⟩
    · rintro ⟨fill,hf,rfl,rfl,hclean⟩
      exact hw.held f fill hf ((live_iff h hf).mpr hclean)
  · exact fun f t hs => run_own_clean_up h hs
  · exact fun a t f ev hs => step_cache_kept hs
  · intro f fill hf
    rw [(run_tally h f).calls, phaseAt_eq hf]
  · intro f fill n result hf hp
    rw [(run_tally h f).puts, phaseAt_eq hf, hp]
    cases result <;> rfl
  · exact fun f fill hf T => run_completes h hpanic hf T
  · intro c key kind f hjoined
    obtain ⟨fill,hf,hkey⟩ := hjoined.fill h
    obtain ⟨phase,hc,hreceipt⟩ := hjoined.receipt h
    refine ⟨fill,phase,hf,hkey,hc,?_⟩
    cases hreceipt with
    | waiting stale => exact Or.inl ⟨stale,rfl⟩
    | received _ fill' n result stale hf' hp heq =>
      cases hf.symm.trans hf'
      exact Or.inr (Or.inr ⟨n,result,stale,hp,heq⟩)
    | cancelled => exact Or.inr (Or.inl rfl)
    | poisoned fill' n hf' hp =>
      exact absurd ((run_tally h f).panics.mpr ⟨n, by rw [phaseAt_eq hf', hp]⟩) (hpanic f)
  · intro c key kind f stale fill n result hc hf hp
    refine ⟨s.setCaller c ⟨key, kind, .waiting f stale⟩ (State.conclude f n result stale), ?_, ?_⟩
    · simp [step, State.receive, hc, hf, hp]
    · have hlt := (List.getElem?_eq_some_iff.mp hc).1
      simp [State.setCaller, hlt]

theorem single_flight_cancelled :
    let acts := coldResolve 0 0 "k" 0 ++ [.cancel 0, .fetchReturns 0 (.ok none) .one 0, .put 0, .cleanUp 0]
    ∃ s, Run {} acts s ∧ SingleFlightHolds {} acts s := by
  intro acts
  have hrun : (exec (step {}) (init {}) acts).isSome := by decide +kernel
  obtain ⟨s,h⟩ := Option.isSome_iff_exists.mp hrun
  exact ⟨s,h,single_flight h (by simp [acts, coldResolve])⟩

end NioClient.Session
