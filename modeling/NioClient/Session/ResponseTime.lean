import NioClient.Library.Latency
import NioClient.Session.Quiescence

/-! # How long a resolve takes

If the runtime delays no step of the resolver's tasks by more than `δ`, then a resolve is
over after the fetch timeout and the nine steps that it may have to wait for, or else the
fetch that it waits for has panicked.
-/
namespace NioClient.Session
open Execution
variable {cfg : ResolverConfig} {s t : State} {a : Act} {acts : List Act} {δ : ℕ}

def Act.instants : Act → List Act
  | .tick d => List.replicate d (.tick 1)
  | a => [a]

/-- At no instant of the run has a step of the resolver's tasks been due for more than `δ`. -/
def Punctual (cfg : ResolverConfig) (δ : ℕ) (acts : List Act) : Prop :=
  Latency (step cfg) State.now (Due cfg) δ (init cfg) (acts.flatMap Act.instants)

theorem exec_instants (s : State) (a : Act) : exec (step cfg) s a.instants = step cfg s a := by
  cases a with
  | tick d =>
    induction d generalizing s with
    | zero => rfl
    | succ d ih =>
      have hrest := ih { s with now := s.now + 1 }
      simp only [Act.instants] at hrest
      simp only [Act.instants, List.replicate_succ, exec_cons, step, Option.bind_some, hrest, Nat.add_assoc,
        Nat.add_comm 1]
  | _ => simp [Act.instants, exec_cons]

theorem step_time (h : step cfg s a = some t) : t.now = s.now ∨ ∃ d, a = .tick d ∧ t = s.later d := by
  cases a with
  | tick d => cases h; exact Or.inr ⟨d,rfl,rfl⟩
  | resolve | evict => cases h; exact Or.inl rfl
  | lookup c => exact Or.inl ((lookup_step cfg h).elim fun _ hsec => hsec.now)
  | forcedMiss c => exact Or.inl ((forcedMiss_step cfg h).elim fun _ hsec => hsec.now)
  | captureStale c => exact Or.inl (captureStale_step h).now
  | run c => exact Or.inl ((run_step cfg h).elim fun _ hsec => hsec.now)
  | receive c => exact Or.inl (receive_step cfg h).now
  | cancel c => exact Or.inl (cancel_step cfg h).now
  | put f => obtain ⟨fill,n,e,-,rfl⟩ := put_eq h; exact Or.inl rfl
  | callFetch | fetchReturns | fetchTimesOut | fetchPanics | cleanUp =>
    obtain ⟨flight,-,rfl⟩ := Option.map_eq_some_iff.mp h
    exact Or.inl rfl

/-- A punctual run, instant by instant. -/
structure Timely (cfg : ResolverConfig) (δ : ℕ) (acts : List Act) (s : State) : Prop where
  run : Run cfg acts s
  ticks : ∀ d, .tick d ∈ acts → d = 1
  latency : Latency (step cfg) State.now (Due cfg) δ (init cfg) acts

theorem timely_of_punctual (h : Run cfg acts s) (hpunctual : Punctual cfg δ acts) :
    Timely cfg δ (acts.flatMap Act.instants) s := by
  refine ⟨(exec_flatMap exec_instants _ _).trans h,fun d hd => ?_,hpunctual⟩
  obtain ⟨a,-,ha⟩ := List.mem_flatMap.mp hd
  cases a with
  | tick => exact Act.tick.inj (List.eq_of_mem_replicate ha)
  | _ => simp [Act.instants] at ha

theorem Timely.left {bs : List Act} (h : Timely cfg δ (acts ++ bs) t) (hs : Run cfg acts s) :
    Timely cfg δ acts s :=
  ⟨hs,fun d hd => h.ticks d (List.mem_append_left _ hd),h.latency.left⟩

structure Passes (cfg : ResolverConfig) (δ : ℕ) (u : State) (b : Act) (v : State) : Prop where
  before : ∃ acts, Timely cfg δ acts u ∧ Timely cfg δ (acts ++ [b]) v
  step : Session.step cfg u b = some v

theorem Timely.entered (h : Timely cfg δ acts s) {P : State → Prop} (hinit : ¬ P (init cfg)) (hs : P s) :
    ∃ u b v, Passes cfg δ u b v ∧ ¬ P u ∧ P v := by
  obtain ⟨pre,b,mid,u,v,rfl,hu,hnot,hv,hPv,-⟩ := exec_since h.run hinit hs
  refine ⟨u,b,v,⟨⟨pre,h.left hu,?_⟩,hv⟩,hnot,hPv⟩
  rw [List.append_cons] at h
  exact h.left (exec_concat_iff.mpr ⟨u,hu,hv⟩)

/-- A phase in which a step is due lasts `δ` at most. -/
theorem Timely.since (h : Timely cfg δ acts s) {P : State → Prop} (hinit : ¬ P (init cfg)) (hs : P s)
    (hdue : ∀ w, P w → Due cfg w a) :
    ∃ u b v, Passes cfg δ u b v ∧ ¬ P u ∧ P v ∧ s.now ≤ v.now + δ := by
  obtain ⟨pre,b,mid,u,v,rfl,hu,hnot,hv,hPv,hclock⟩ := h.latency.since h.run hinit hs hdue
  refine ⟨u,b,v,⟨⟨pre,h.left hu,?_⟩,hv⟩,hnot,hPv,hclock⟩
  rw [List.append_cons] at h
  exact h.left (exec_concat_iff.mpr ⟨u,hu,hv⟩)

theorem Passes.time {u v : State} {b : Act} (h : Passes cfg δ u b v) : v.now = u.now ∨ v = u.later 1 := by
  obtain ⟨⟨acts,-,hafter⟩,hstep⟩ := h
  rcases step_time hstep with heq | ⟨d,rfl,rfl⟩
  · exact Or.inl heq
  · obtain rfl := hafter.ticks d (by simp)
    exact Or.inr rfl

theorem Passes.still {u v : State} {b : Act} (h : Passes cfg δ u b v)
    (hchange : ¬ (v.callers = u.callers ∧ v.flight = u.flight)) : v.now = u.now := by
  refine h.time.resolve_right fun heq => hchange ?_
  subst heq
  exact ⟨rfl,rfl⟩

theorem run_startedAt (h : Run cfg acts s) {c : ℕ} {x : Caller} {now : ℕ} {wall : ℤ}
    (hx : s.callers[c]? = some x) (hkind : x.kind = .resolve now wall) : now ≤ s.now := by
  revert c x
  refine exec_induction (motive := fun _ s => ∀ {c : ℕ} {x : Caller}, s.callers[c]? = some x →
    x.kind = .resolve now wall → now ≤ s.now) ?_ ?_ h
  · intro c x hx
    simp [init] at hx
  · intro acts s a t _ ih hs c y hy hkind
    have hnow := step_now hs
    rcases step_callers hs hy with hold | ⟨x,hx,hxy⟩ | ⟨-,hborn⟩
    · exact (ih hold hkind).trans hnow
    · have hkind' : x.kind = .resolve now wall := by
        rw [← hkind]
        cases hxy <;> rfl
      exact (ih hx hkind').trans hnow
    · cases hborn with
      | resolve key wall' =>
        cases hkind
        exact hnow
      | refresh => cases hkind

def CallerPhase.stage : CallerPhase → ℕ
  | .started => 1
  | .expired => 2
  | .missed => 3
  | .flying _ => 4
  | _ => 0

theorem conclude_section (c f n : ℕ) (result : Except ResolveError Entry) (stale : Option Candidate) :
    (State.conclude f n result stale).section? c = none := by
  unfold State.conclude
  split
  · rfl
  · split
    · cases stale <;> rfl
    · rfl

theorem CallerMove.stage_lt {x y : Caller} (h : CallerMove cfg s t x y) {c : ℕ} (ha : y.phase.section? c = some a) :
    x.phase.stage < y.phase.stage ∧ ∃ b, x.phase.section? c = some b := by
  cases h with
  | miss | expired | forcedMiss | capture => exact ⟨by simp [CallerPhase.stage],_,rfl⟩
  | receive => simp [conclude_section] at ha
  | hit | join | poisoned | cancel => cases ha

theorem Timely.stage (h : Timely cfg δ acts s) {c : ℕ} {x : Caller} {now : ℕ} {wall : ℤ}
    (hx : s.callers[c]? = some x) (hkind : x.kind = .resolve now wall) (ha : x.phase.section? c = some a) :
    s.now ≤ now + x.phase.stage * δ := by
  induction hstage : x.phase.stage using Nat.strongRecOn generalizing acts s x a with
  | ind stage ih =>
    subst hstage
    obtain ⟨u,b,v,hpass,hnot,hv,hclock⟩ := h.since (P := fun w => w.callers[c]? = some x) (by simp [init]) hx
      fun w hw => caller_due hw hkind ha
    obtain ⟨before,hu,-⟩ := hpass.before
    have htime : v.now = u.now := hpass.still fun heq => hnot (heq.1 ▸ hv)
    rcases step_callers hpass.step hv with hold | ⟨y,hy,hyx⟩ | ⟨-,hborn⟩
    · exact absurd hold hnot
    · obtain ⟨hlt,b',hb'⟩ := hyx.stage_lt ha
      have hkind' : y.kind = .resolve now wall := by
        rw [← hkind]
        cases hyx <;> rfl
      have hbound := ih _ hlt hu hy hkind' hb' rfl
      have hstep : (y.phase.stage + 1) * δ ≤ x.phase.stage * δ := Nat.mul_le_mul_right δ hlt
      rw [Nat.succ_mul] at hstep
      omega
    · cases hborn with
      | resolve key wall' =>
        cases hkind
        simp only [CallerPhase.stage]
        omega
      | refresh => cases hkind

theorem Phase.rank_pos {p : Phase} {n : ℕ} (h : p.fetch? = some n) : 0 < p.rank := by
  cases p with
  | registered => cases h
  | _ => simp [Phase.rank]

theorem fill_entered {f : ℕ} {x y : Fill} (hs : step cfg s a = some t) (hy : t.flight.fills[f]? = some y)
    (hx : s.flight.fills[f]? = some x) (hne : x ≠ y) :
    x.phase.ended = false ∧ x.phase.rank < y.phase.rank ∧ (1 < y.phase.rank → 0 < x.phase.rank) := by
  obtain ⟨q,hq,hevolves⟩ := (step_flight hs).evolves hx
  cases hy.symm.trans hq
  obtain ⟨id,key,p⟩ := x
  dsimp only at hevolves hne ⊢
  generalize a.event = event at hevolves
  cases hevolves with
  | rest => exact absurd rfl hne
  | next ev _ _ hnext =>
    refine ⟨hnext.not_ended,hnext.rank_lt,fun hlt => ?_⟩
    generalize t.flight.fetches = log at hnext
    cases hnext with
    | call => simp [Phase.rank] at hlt
    | _ => simp [Phase.rank]

/-- A fetch is cut off when it has lasted for the timeout. -/
theorem Timely.fetching (h : Timely cfg δ acts s) {f τ n : ℕ} {fill : Fill}
    (hf : s.flight.fills[f]? = some fill) (hp : fill.phase = .fetching n) (hbegan : s.flight.BeganAt f τ) :
    s.now ≤ τ + RESOLVE_TIMEOUT + δ := by
  by_contra hlate
  let P (w : State) : Prop :=
    w.flight.fills[f]? = some fill ∧ w.flight.BeganAt f τ ∧ τ + RESOLVE_TIMEOUT ≤ w.now
  have hinit : ¬ P (init cfg) := by simp [P, init, SingleFlight.default]
  have hready (w : State) (hw : P w) : Due cfg w (.fetchTimesOut f) := by
    obtain ⟨hf,⟨x,m,y,hx,hm,hy,rfl⟩,hover⟩ := hw
    cases hf.symm.trans hx
    rw [hp] at hm
    cases hm
    exact timeout_due hf hp hy hover
  obtain ⟨u,b,v,hpass,hnot,⟨hfv,hbv,hdue⟩,hclock⟩ := h.since hinit ⟨hf,hbegan, by omega⟩ hready
  obtain ⟨before,hu,-⟩ := hpass.before
  -- the timeout has just elapsed, whether by the clock or by the fill
  have hentry : v.now ≤ τ + RESOLVE_TIMEOUT := by
    rcases hpass.time with hnow | rfl
    · rcases hbv.earlier (run_logged hu.run) hpass.step with hbu | ⟨-,rfl,-⟩
      · have hnew : u.flight.fills[f]? ≠ some fill := fun hfu => hnot ⟨hfu,hbu, by omega⟩
        obtain ⟨x,m,-,hx,hm,-⟩ := hbu
        have hlt := (fill_entered hpass.step hfv hx fun heq => hnew (heq ▸ hx)).2.1
        rw [hp] at hlt
        exact absurd (Phase.rank_pos hm) (Nat.not_lt.mpr (Nat.le_of_lt_succ hlt))
      · omega
    · have hearly : ¬ τ + RESOLVE_TIMEOUT ≤ u.now := fun hle => hnot ⟨hfv,hbv,hle⟩
      simp only [State.later]
      omega
  omega

/-- Once its fetch has begun, a fill ends after the timeout and the steps that follow. -/
theorem Timely.fill (h : Timely cfg δ acts s) {f τ : ℕ} {fill : Fill} (hf : s.flight.fills[f]? = some fill)
    (hlive : fill.phase.ended = false) (hbegan : s.flight.BeganAt f τ) :
    s.now ≤ τ + RESOLVE_TIMEOUT + fill.phase.rank * δ := by
  induction hrank : fill.phase.rank using Nat.strongRecOn generalizing acts s fill with
  | ind rank ih =>
    subst hrank
    -- where the fill comes from, if it does not wait for its fetch
    have hfrom {b : Act} (hb : fill.phase.section? f = some b) (hpos : 1 < fill.phase.rank) :
        s.now ≤ τ + RESOLVE_TIMEOUT + fill.phase.rank * δ := by
      let P (w : State) : Prop := w.flight.fills[f]? = some fill ∧ w.flight.BeganAt f τ
      have hinit : ¬ P (init cfg) := by simp [P, init, SingleFlight.default]
      obtain ⟨u,b,v,hpass,hnot,⟨hfv,hbv⟩,hclock⟩ := h.since hinit ⟨hf,hbegan⟩ fun w hw =>
        fill_due hw.1 hb
      obtain ⟨before,hu,-⟩ := hpass.before
      have htime : v.now = u.now := hpass.still fun heq => hnot ⟨heq.2 ▸ hfv,heq.2 ▸ hbv⟩
      rcases hbv.earlier (run_logged hu.run) hpass.step with hbu | ⟨-,-,x,hx,hreg⟩
      · have hnew : u.flight.fills[f]? ≠ some fill := fun hfu => hnot ⟨hfu,hbu⟩
        obtain ⟨x,hx⟩ := hbu.fill
        obtain ⟨hxlive,hlt,-⟩ := fill_entered hpass.step hfv hx fun heq => hnew (heq ▸ hx)
        have hbound := ih _ hlt hu hx hxlive hbu rfl
        have hstep : (x.phase.rank + 1) * δ ≤ fill.phase.rank * δ := Nat.mul_le_mul_right δ hlt
        rw [Nat.succ_mul] at hstep
        omega
      · -- a fill which has only now called its fetch is still fetching
        have hne : x ≠ fill := by
          rintro rfl
          simp [hreg, Phase.rank] at hpos
        have hx0 := (fill_entered hpass.step hfv hx hne).2.2 hpos
        simp [hreg, Phase.rank] at hx0
    cases hp : fill.phase with
    | fetching n =>
      have hbound := h.fetching hf hp hbegan
      simpa [Phase.rank] using hbound
    | storing n e => simpa [hp] using hfrom (by rw [hp]; rfl) (by simp [hp, Phase.rank])
    | cleaning n r => simpa [hp] using hfrom (by rw [hp]; rfl) (by simp [hp, Phase.rank])
    | registered =>
      obtain ⟨x,n,y,hx,hn,-⟩ := hbegan
      cases hf.symm.trans hx
      simp [hp, Phase.fetch?] at hn
    | done | panicked => simp [hp, Phase.ended] at hlive

theorem Timely.unended_fill (h : Timely cfg δ acts s) {f τ : ℕ} {fill : Fill}
    (hf : s.flight.fills[f]? = some fill) (hlive : fill.phase.ended = false) (hbegan : s.flight.BeganAt f τ) :
    s.now ≤ τ + RESOLVE_TIMEOUT + 3 * δ := by
  have hrank : fill.phase.rank * δ ≤ 3 * δ := by
    refine Nat.mul_le_mul_right δ ?_
    cases hp : fill.phase <;> simp [hp, Phase.ended, Phase.rank] at hlive ⊢
  exact (h.fill hf hlive hbegan).trans (Nat.add_le_add_left hrank _)

def Waits (s : State) (c : ℕ) (now f : ℕ) : Prop :=
  ∃ key wall stale, s.callers[c]? = some ⟨key,.resolve now wall,.waiting f stale⟩

theorem Waits.earlier {c now f : ℕ} (h : Waits t c now f) (hs : step cfg s a = some t) :
    Waits s c now f ∨ ∃ key wall stale id, s.callers[c]? = some ⟨key,.resolve now wall,.flying stale⟩ ∧
      t.flight.inflight.lookup key = some (id,f) := by
  obtain ⟨key,wall,stale,hc⟩ := h
  rcases step_callers hs hc with hold | ⟨x,hx,hxy⟩ | ⟨-,hborn⟩
  · exact Or.inl ⟨key,wall,stale,hold⟩
  · generalize hphase : CallerPhase.waiting f stale = phase at hxy
    cases hxy with
    | join key kind stale' id f' hf =>
      cases hphase
      exact Or.inr ⟨key,wall,stale,id,hx,hf⟩
    | receive key kind f' stale' fill n result =>
      have hended := conclude_ended f' n result stale'
      rw [← hphase] at hended
      cases hended
    | _ => cases hphase
  · cases hborn

theorem Waits.fill {c now f : ℕ} (h : Waits s c now f) (hrun : Run cfg acts s) :
    ∃ fill, s.flight.fills[f]? = some fill := by
  obtain ⟨key,wall,stale,hc⟩ := h
  obtain ⟨⟨fill,hf,-⟩,-⟩ := run_callers hrun hc
  exact ⟨fill,hf⟩

theorem Passes.joined {u v : State} {b : Act} (h : Passes cfg δ u b v) {c now f : ℕ} {key : TokenHash}
    {wall : ℤ} {stale : Option Candidate} (hv : Waits v c now f)
    (hu : u.callers[c]? = some ⟨key,.resolve now wall,.flying stale⟩) : v.now ≤ now + 4 * δ := by
  obtain ⟨acts,htimely,-⟩ := h.before
  have hstage : u.now ≤ now + 4 * δ := htimely.stage hu rfl rfl
  have htime : v.now = u.now := by
    refine h.still fun heq => ?_
    obtain ⟨key',wall',stale',hc⟩ := hv
    rw [heq.1, hu] at hc
    cases hc
  omega

theorem Timely.registered (h : Timely cfg δ acts s) {c now f : ℕ} {fill : Fill} (hc : Waits s c now f)
    (hf : s.flight.fills[f]? = some fill) (hreg : fill.phase = .registered) : s.now ≤ now + 5 * δ := by
  let P (w : State) : Prop :=
    Waits w c now f ∧ ∃ fill, w.flight.fills[f]? = some fill ∧ fill.phase = .registered
  have hinit : ¬ P (init cfg) := by simp [P, Waits, init]
  have hready (w : State) (hw : P w) : Due cfg w (.callFetch f) := by
    obtain ⟨-,fill,hf,hreg⟩ := hw
    exact fill_due hf (by rw [hreg]; rfl)
  obtain ⟨u,b,v,hpass,hnot,⟨hv,y,hy,hyreg⟩,hclock⟩ := h.since hinit ⟨hc,fill,hf,hreg⟩ hready
  obtain ⟨before,hu,-⟩ := hpass.before
  rcases hv.earlier hpass.step with hold | ⟨key,wall,stale,id,hflying,-⟩
  · obtain ⟨x,hx⟩ := hold.fill hu.run
    have hne : x ≠ y := fun heq => hnot ⟨hold,x,hx,heq ▸ hyreg⟩
    have hlt := (fill_entered hpass.step hy hx hne).2.1
    rw [hyreg] at hlt
    exact absurd hlt (Nat.not_lt_zero _)
  · have hjoined := hpass.joined hv hflying
    omega

/-- The fetch that a caller waits for has begun before it came, or shortly after. -/
theorem Timely.began_le (h : Timely cfg δ acts s) {c now f τ : ℕ} (hc : Waits s c now f)
    (hbegan : s.flight.BeganAt f τ) : τ ≤ now + 5 * δ := by
  let P (w : State) : Prop := Waits w c now f ∧ w.flight.BeganAt f τ
  have hinit : ¬ P (init cfg) := by simp [P, Waits, init]
  obtain ⟨u,b,v,hpass,hnot,hv,hbv⟩ := h.entered hinit ⟨hc,hbegan⟩
  obtain ⟨before,hu,hafter⟩ := hpass.before
  rcases hv.earlier hpass.step with hold | ⟨key,wall,stale,id,hflying,-⟩
  · rcases hbv.earlier (run_logged hu.run) hpass.step with hbu | ⟨-,rfl,x,hx,hreg⟩
    · exact absurd ⟨hold,hbu⟩ hnot
    · exact hu.registered hold hx hreg
  · have hjoined := hpass.joined hv hflying
    have hle := run_began hafter.run hbv
    omega

theorem Timely.unended (h : Timely cfg δ acts s) {c now f : ℕ} {fill : Fill} (hc : Waits s c now f)
    (hf : s.flight.fills[f]? = some fill) (hlive : fill.phase.ended = false) :
    s.now ≤ now + RESOLVE_TIMEOUT + 8 * δ := by
  cases hn : fill.phase.fetch? with
  | none =>
    have hreg : fill.phase = .registered := by
      cases hp : fill.phase with
      | registered => rfl
      | _ => simp [hp, Phase.fetch?] at hn
    have hbound := h.registered hc hf hreg
    omega
  | some n =>
    obtain ⟨x,hx,-⟩ := (run_logged h.run).call f fill n hf hn
    have hbegan : s.flight.BeganAt f x.beganAt := ⟨fill,n,x,hf,hn,hx,rfl⟩
    have hfill := h.unended_fill hf hlive hbegan
    have hle := h.began_le hc hbegan
    omega

theorem Timely.waiting (h : Timely cfg δ acts s) {c now f : ℕ} {fill : Fill} (hc : Waits s c now f)
    (hf : s.flight.fills[f]? = some fill) (hp : ∀ n, fill.phase ≠ .panicked n) :
    s.now ≤ now + RESOLVE_TIMEOUT + 9 * δ := by
  cases hended : fill.phase.ended with
  | false =>
    have hbound := h.unended hc hf hended
    omega
  | true =>
    let P (w : State) : Prop := Waits w c now f ∧
      ∃ fill, w.flight.fills[f]? = some fill ∧ fill.phase.ended ∧ ∀ n, fill.phase ≠ .panicked n
    have hinit : ¬ P (init cfg) := by simp [P, Waits, init]
    have hready (w : State) (hw : P w) : Due cfg w (.receive c) := by
      obtain ⟨⟨key,wall,stale,hc⟩,fill,hf,hended,hp⟩ := hw
      exact receive_due hc hf hended hp
    obtain ⟨u,b,v,hpass,hnot,⟨hv,y,hy,hyended,hyp⟩,hclock⟩ := h.since hinit ⟨hc,fill,hf,hended,hp⟩ hready
    obtain ⟨before,hu,-⟩ := hpass.before
    rcases hv.earlier hpass.step with hold | ⟨key,wall,stale,id,hflying,-⟩
    · obtain ⟨x,hx⟩ := hold.fill hu.run
      have hxp (n : ℕ) : x.phase ≠ .panicked n := by
        obtain ⟨y',hy',-,hlater⟩ := (step_flight hpass.step).later hx
        cases hy.symm.trans hy'
        exact fun hn => hyp n (hlater.panicked n hn)
      have hlive : x.phase.ended = false := by
        by_contra hx'
        exact hnot ⟨hold,x,hx, by simpa using hx',hxp⟩
      have htime : v.now = u.now := hpass.still fun heq => hnot ⟨hold,y,heq.2 ▸ hy,hyended,hyp⟩
      have hbound := hu.unended hold hx hlive
      omega
    · have hjoined := hpass.joined hv hflying
      omega

/-- A resolve is over within the fetch timeout and nine delays, whatever the other callers
do, and whether or not the fetcher ever returns; unless the fetch it waits for panicked. -/
theorem response_time (h : Run cfg acts s) (hpunctual : Punctual cfg δ acts) {c : ℕ} {key : TokenHash}
    {now : ℕ} {wall : ℤ} {phase : CallerPhase} (hc : s.callers[c]? = some ⟨key,.resolve now wall,phase⟩)
    (hpending : phase.ended = false) (hawake : ¬ s.Stranded ⟨key,.resolve now wall,phase⟩) :
    s.now ≤ now + RESOLVE_TIMEOUT + 9 * δ := by
  have htimely := timely_of_punctual h hpunctual
  cases phase with
  | waiting f stale =>
    have hwaits : Waits s c now f := ⟨key,wall,stale,hc⟩
    obtain ⟨fill,hf⟩ := hwaits.fill h
    exact htimely.waiting hwaits hf fun n hn => hawake ⟨f,stale,fill,n,rfl,hf,hn⟩
  | started | expired | missed | flying =>
    have hstage := htimely.stage hc rfl rfl
    simp only [CallerPhase.stage] at hstage
    omega
  | answered | cancelled | panicked => cases hpending

/-- Time passes only while the tasks wait for the fetcher or the timeout. -/
def Prompt (cfg : ResolverConfig) (s : State) : Act → Prop
  | .tick d => ∀ k < d, ∀ b : Act, ¬ Due cfg (s.later k) b
  | _ => True

theorem punctual_of_prompt (h : Along (step cfg) (Prompt cfg) (init cfg) acts) : Punctual cfg 0 acts := by
  refine latency_of_idle (along_flatMap exec_instants (fun s a ha => ?_) h)
  cases a with
  | tick d =>
    induction d generalizing s with
    | zero => trivial
    | succ d ih =>
      refine ⟨fun t _ _ b => ha 0 (Nat.succ_pos d) b,fun t ht => ?_⟩
      cases ht
      refine ih (s.later 1) fun k hk b => ?_
      have hidle := ha (k + 1) (by omega) b
      rwa [State.later, Nat.add_comm k, ← Nat.add_assoc] at hidle
  | _ =>
    refine ⟨fun t ht hlt => ?_,fun _ _ => trivial⟩
    rcases step_time ht with heq | ⟨d,hd,-⟩
    · omega
    · cases hd

def RestsBefore (s : State) : Act → Bool
  | .tick _ => s.resting
  | _ => true

theorem punctual_of_rests (h : Along (step cfg) (fun s a => RestsBefore s a) (init cfg) acts) :
    Punctual cfg 0 acts := by
  refine punctual_of_prompt ?_
  generalize init cfg = s at h
  induction acts generalizing s with
  | nil => trivial
  | cons a acts ih =>
    refine ⟨?_,fun t ht => ih t (h.2 t ht)⟩
    cases a with
    | tick d => exact fun k _ b => (settled_of_resting h.1).not_due k
    | _ => trivial

theorem coldResolve_idle (h : Run {} (coldResolve 0 0 "k" 0) s) {k : ℕ} (hk : k < RESOLVE_TIMEOUT) :
    ¬ Due {} (s.later k) a := by
  have hstate : (exec (step {}) (init {}) (coldResolve 0 0 "k" 0)).map (fun s =>
      (s.now,s.callers,s.flight.fills,s.flight.fetches)) =
      some (0,[⟨"k",.resolve 0 0,.waiting 0 none⟩],[⟨0,"k",.fetching 0⟩],[⟨0,"k",0,none⟩]) := by
    decide +kernel
  rw [h, Option.map_some, Option.some.injEq, Prod.mk.injEq, Prod.mk.injEq, Prod.mk.injEq] at hstate
  obtain ⟨hnow,hcallers,hfills,hfetches⟩ := hstate
  have hcaller (c : ℕ) (x : Caller) (hx : (s.later k).callers[c]? = some x) : x.phase = .waiting 0 none := by
    have hmem := List.mem_of_getElem? hx
    rw [State.later, hcallers, List.mem_singleton] at hmem
    rw [hmem]
  have hfill (f : ℕ) (x : Fill) (hx : (s.later k).flight.fills[f]? = some x) : x.phase = .fetching 0 := by
    have hmem := List.mem_of_getElem? hx
    rw [State.later, hfills, List.mem_singleton] at hmem
    rw [hmem]
  rintro ⟨ha,hpossible,-⟩
  obtain ⟨t,hstep⟩ := Option.isSome_iff_exists.mp hpossible
  cases a with
  | lookup c =>
    obtain ⟨key,now,wall,hx,-⟩ := lookup_eq hstep
    cases hcaller c _ hx
  | forcedMiss c =>
    obtain ⟨x,hx,hp,-⟩ := forcedMiss_eq hstep
    cases (hcaller c x hx).symm.trans hp
  | captureStale c =>
    obtain ⟨x,now,wall,hx,-,hp,-⟩ := captureStale_eq hstep
    cases (hcaller c x hx).symm.trans hp
  | run c =>
    obtain ⟨x,stale,hx,hp,-⟩ := run_eq hstep
    cases (hcaller c x hx).symm.trans hp
  | receive c =>
    obtain ⟨x,f,stale,fill,hx,hp,hf,⟨n,r,hdone,-⟩ | ⟨n,hpanicked,-⟩⟩ := receive_eq hstep
    · cases (hfill f fill hf).symm.trans hdone
    · cases (hfill f fill hf).symm.trans hpanicked
  | callFetch f =>
    obtain ⟨flight,hf,-⟩ := Option.map_eq_some_iff.mp hstep
    obtain ⟨fill,hf,hp,-⟩ := SingleFlight.callFetch_eq hf
    cases (hfill f fill hf).symm.trans hp
  | fetchTimesOut f =>
    obtain ⟨flight,hf,-⟩ := Option.map_eq_some_iff.mp hstep
    obtain ⟨fill,n,x,hf,hp,hx,hover,-⟩ := SingleFlight.fetchTimesOut_eq hf
    have hmem := List.mem_of_getElem? hx
    rw [State.later, hfetches, List.mem_singleton] at hmem
    subst hmem
    simp only [State.later, hnow] at hover
    omega
  | put f =>
    obtain ⟨fill,n,e,hp,-⟩ := put_eq hstep
    obtain ⟨hf,hp⟩ := SingleFlight.pending_eq hp
    cases (hfill f fill hf).symm.trans hp
  | cleanUp f =>
    obtain ⟨flight,hf,-⟩ := Option.map_eq_some_iff.mp hstep
    obtain ⟨fill,n,r,hf,hp,-⟩ := SingleFlight.cleanUp_eq hf
    cases (hfill f fill hf).symm.trans hp
  | _ => cases ha

theorem response_time_silent : let acts := coldResolve 0 0 "k" 0 ++ [.tick (secs 3)]
    ∃ s, Run {} acts s ∧ Punctual {} 0 acts ∧
      s.callers[0]? = some ⟨"k",.resolve 0 0,.waiting 0 none⟩ ∧ s.now ≤ 0 + RESOLVE_TIMEOUT + 9 * 0 := by
  intro acts
  have hstate : (exec (step {}) (init {}) acts).map (fun s => (s.callers[0]?,s.flight.fills)) =
      some (some ⟨"k",.resolve 0 0,.waiting 0 none⟩,[⟨0,"k",.fetching 0⟩]) := by decide +kernel
  obtain ⟨s,h,hs⟩ := Option.map_eq_some_iff.mp hstate
  obtain ⟨hcaller,hfills⟩ := Prod.mk.inj hs
  have hpunctual : Punctual {} 0 acts := by
    refine punctual_of_prompt (along_concat (by simp [coldResolve, Along, Prompt]) fun t ht => ?_)
    refine ⟨fun k hk b => coldResolve_idle ht (hk.trans (by decide)),fun _ _ => trivial⟩
  have hawake : ¬ s.Stranded ⟨"k",.resolve 0 0,.waiting 0 none⟩ := by
    rintro ⟨f,stale,fill,n,-,hf,hp⟩
    have hmem := List.mem_of_getElem? hf
    rw [hfills, List.mem_singleton] at hmem
    rw [hmem] at hp
    cases hp
  exact ⟨s,h,hpunctual,hcaller,response_time h hpunctual hcaller rfl hawake⟩

end NioClient.Session
