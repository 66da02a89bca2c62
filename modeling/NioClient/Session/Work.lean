import NioClient.Library.Potential
import NioClient.Session.Staleness

/-! # The work that a resolve brings in

Every step of the resolver other than a new resolve, an evict and the passing of time is
paid for by an earlier resolve.
-/
namespace NioClient.Session
open Execution
variable {cfg : ResolverConfig} {s t : State} {a : Act} {acts : List Act}

/-- What a caller's move may start: a hit a refresh, a join a fill. -/
def brought (caller : Caller → ℕ) (fill : TokenHash → Phase → ℕ) (x y : Caller) : ℕ :=
  match x.phase, y.phase with
  | .started, .answered _ _ => caller ⟨x.key,.refresh,.flying none⟩
  | .flying _, .waiting _ _ => fill x.key .registered
  | _, _ => 0

/-- Weights of the callers, the fills and the fetch log such that every move of a caller
and every step of a fill pays for what it starts, and `price` besides. -/
structure Weights (cfg : ResolverConfig) where
  price : ℕ
  caller : Caller → ℕ
  fill : TokenHash → Phase → ℕ
  log : List Fetch → ℕ
  move : ∀ {s t x y}, CallerMove cfg s t x y → caller y + brought caller fill x y + price ≤ caller x
  next : ∀ {now f key ev p l q l'}, SingleFlight.Next cfg now f key ev p l q l' →
    fill key q + log l' + price ≤ fill key p + log l

namespace Weights

def potential (W : Weights cfg) (s : State) : ℕ :=
  (s.callers.map W.caller).sum + (s.flight.fills.map fun x => W.fill x.key x.phase).sum + W.log s.flight.fetches

end Weights

def Weights.income (W : Weights cfg) (s : State) : Act → ℕ
  | .resolve key wall => W.caller ⟨key,.resolve s.now wall,.started⟩
  | _ => 0

def Act.driven : Act → Bool
  | .tick _ | .resolve _ _ | .evict _ => false
  | _ => true

variable (W : Weights cfg)

/-- One caller moves, and the flight stays. -/
theorem potential_move {c : ℕ} {x : Caller} {phase : CallerPhase} (hx : s.callers[c]? = some x)
    (ht : t.callers = (s.setCaller c x phase).callers) (hflight : t.flight = s.flight)
    (hmove : CallerMove cfg s t x { x with phase }) : W.potential t + W.price ≤ W.potential s := by
  have hsum := sum_map_set W.caller hx { x with phase }
  have hpaid := W.move hmove
  simp only [Weights.potential, ht, hflight, State.setCaller]
  omega

theorem found_refresh {got : Option Cached} {now : ℕ} {wall : ℤ} (h : (found got now wall).2 = true) :
    ∃ answer source, (found got now wall).1 = .answered answer source := by
  unfold found at h ⊢
  split at h
  · cases h
  · split at h
    · cases h
    · cases h
    · exact ⟨_,_,rfl⟩

theorem potential_lookup {c : ℕ} (h : s.lookup c = some t) : W.potential t + W.price ≤ W.potential s := by
  obtain ⟨key,now,wall,hx,rfl⟩ := lookup_eq h
  have hpaid := W.move (lookup_move cfg s s key now wall)
  have hsum := sum_map_set W.caller hx ⟨key,.resolve now wall,(found (s.cache.get key).1 now wall).1⟩
  unfold State.afterLookup
  dsimp only
  split
  · rename_i hrefresh
    obtain ⟨answer,source,hphase⟩ := found_refresh hrefresh
    simp only [hphase, brought] at hpaid hsum
    simp only [Weights.potential, State.spawnRefresh, State.setCaller, hphase, sum_map_concat]
    omega
  · simp only [Weights.potential, State.setCaller]
    omega

theorem potential_run {c : ℕ} (h : s.run c = some t) : W.potential t + W.price ≤ W.potential s := by
  obtain ⟨⟨key,kind,phase⟩,stale,hx,rfl,rfl⟩ := run_eq h
  obtain ⟨id,hid⟩ := s.flight.run_joined key
  have hmove : CallerMove cfg s { s with flight := (s.flight.run key).1 } _ _ :=
    .join key kind stale id _ hid
  have hpaid := W.move hmove
  have hsum := sum_map_set W.caller hx ⟨key,kind,.waiting (s.flight.run key).2 stale⟩
  simp only [brought] at hpaid
  have hfills : ((s.flight.run key).1.fills.map fun x => W.fill x.key x.phase).sum ≤
      (s.flight.fills.map fun x => W.fill x.key x.phase).sum + W.fill key .registered := by
    unfold SingleFlight.run
    split
    · exact Nat.le_add_right ..
    · simp only [SingleFlight.register, sum_map_concat, le_refl]
  have hlog : (s.flight.run key).1.fetches = s.flight.fetches := by
    unfold SingleFlight.run
    split <;> rfl
  simp only [Weights.potential, State.setCaller, hlog]
  omega

theorem step_event_callers {e : ℕ × SingleFlight.FillEvent} (h : step cfg s a = some t)
    (ha : a.event = some e) : t.callers = s.callers := by
  cases a with
  | put f =>
    obtain ⟨fill,n,e,-,rfl⟩ := put_eq h
    rfl
  | callFetch | fetchReturns | fetchTimesOut | fetchPanics | cleanUp =>
    obtain ⟨flight,-,rfl⟩ := Option.map_eq_some_iff.mp h
    rfl
  | _ => cases ha

theorem potential_event {e : ℕ × SingleFlight.FillEvent} (h : step cfg s a = some t)
    (ha : a.event = some e) : W.potential t + W.price ≤ W.potential s := by
  have hmove := step_flight h
  rw [ha] at hmove
  obtain ⟨fill,phase,hf,hn,hfills⟩ : ∃ fill phase, s.flight.fills[e.1]? = some fill ∧
      SingleFlight.Next cfg s.now e.1 fill.key e.2 fill.phase s.flight.fetches phase t.flight.fetches ∧
      t.flight.fills = s.flight.fills.set e.1 { fill with phase } := by
    generalize t.flight = flight at hmove
    cases hmove with
    | advance f event fill phase log hf hn => exact ⟨fill,phase,hf,hn,rfl⟩
    | clean f fill n r hf hp => exact ⟨fill,_,hf, by rw [hp]; exact .cleaned n r _, rfl⟩
  have hpaid := W.next hn
  have hsum := sum_map_set (fun x => W.fill x.key x.phase) hf { fill with phase }
  dsimp only at hsum
  simp only [Weights.potential, step_event_callers h ha, hfills]
  omega

/-- Every driven step is paid for out of the potential, and only a new resolve adds to it. -/
theorem step_potential (h : step cfg s a = some t) :
    W.potential t + (if a.driven then W.price else 0) ≤ W.potential s + W.income s a := by
  cases a with
  | tick | evict =>
    cases h
    exact le_refl _
  | resolve key wall =>
    cases h
    simp only [Weights.potential, State.resolve, sum_map_concat, Act.driven, Weights.income]
    simp only [Bool.false_eq_true, if_false]
    omega
  | lookup c => exact potential_lookup W h
  | forcedMiss c =>
    obtain ⟨⟨key,kind,phase⟩,hx,rfl,rfl⟩ := forcedMiss_eq h
    exact potential_move W hx rfl rfl (.forcedMiss key kind)
  | captureStale c =>
    obtain ⟨⟨key,kind,phase⟩,now,wall,hx,rfl,rfl,rfl⟩ := captureStale_eq h
    exact potential_move W hx rfl rfl (.capture key now wall)
  | run c => exact potential_run W h
  | receive c =>
    obtain ⟨⟨key,kind,phase⟩,f,stale,fill,hx,rfl,hf,hcases⟩ := receive_eq h
    rcases hcases with ⟨n,result,hp,rfl⟩ | ⟨n,hp,rfl⟩
    · exact potential_move W hx rfl rfl (.receive key kind f stale fill n result hf hp)
    · exact potential_move W hx rfl rfl (.poisoned key kind f stale fill n hf hp)
  | cancel c =>
    obtain ⟨⟨key,kind,phase⟩,f,stale,hx,rfl,rfl⟩ := cancel_eq h
    exact potential_move W hx rfl rfl (.cancel key kind f stale)
  | callFetch | fetchReturns | fetchTimesOut | fetchPanics | put | cleanUp =>
    exact potential_event W h rfl

/-- The steps which a caller may still take, and those of what it may start. -/
def CallerPhase.work : CallerPhase → ℕ
  | .started => 9
  | .expired => 8
  | .missed => 7
  | .flying _ => 6
  | .waiting _ _ => 1
  | .answered _ _ | .cancelled | .panicked => 0

def Phase.work : Phase → ℕ
  | .registered => 4
  | .fetching _ => 3
  | .storing _ _ => 2
  | .cleaning _ _ => 1
  | .done _ _ | .panicked _ => 0

theorem conclude_work (f n : ℕ) (result : Except ResolveError Entry) (stale : Option Candidate) :
    (State.conclude f n result stale).work = 0 := by
  unfold State.conclude
  split
  · rfl
  · split
    · cases stale <;> rfl
    · rfl

def workWeights (cfg : ResolverConfig) : Weights cfg where
  price := 1
  caller x := x.phase.work
  fill _ p := p.work
  log _ := 0
  move := by
    intro s t x y h
    cases h with
    | receive key kind f stale fill n result =>
      rw [conclude_work]
      exact le_refl _
    | _ => simp [brought, CallerPhase.work, Phase.work]
  next := by
    intro now f key ev p l q l' h
    cases h <;> simp [Phase.work]

def Act.isResolve : Act → Bool
  | .resolve _ _ => true
  | _ => false

theorem step_work (h : step cfg s a = some t) :
    (workWeights cfg).potential t + (if a.driven then 1 else 0) ≤
      (workWeights cfg).potential s + if a.isResolve then 9 else 0 :=
  (step_potential (workWeights cfg) h).trans (by cases a <;> exact le_refl _)

/-- The resolver's tasks do not run on: whatever the schedule, the clocks, the fetcher and
the cancellations, they take at most nine steps for each resolve, its share of a fill and
of a refresh included. -/
theorem run_work (h : Run cfg acts s) : acts.countP Act.driven ≤ 9 * acts.countP Act.isResolve := by
  have hpaid := exec_potential (fun _ _ _ hs => step_work hs) h
  have hinit : (workWeights cfg).potential (init cfg) = 0 := rfl
  rw [sum_map_count, sum_map_count, hinit] at hpaid
  omega

theorem run_work_cold : let acts := coldResolve 0 0 "k" 0 ++ settle 0 0 none 0
    (exec (step {}) (init {}) acts).isSome ∧ acts.countP Act.driven = 8 ∧
      acts.countP Act.driven ≤ 9 * acts.countP Act.isResolve := by
  intro acts
  have hrun : (exec (step {}) (init {}) acts).isSome := by decide +kernel
  obtain ⟨s,h⟩ := Option.isSome_iff_exists.mp hrun
  exact ⟨hrun, by decide, run_work h⟩

def CallerPhase.mayFetch : CallerPhase → Bool
  | .started | .expired | .missed | .flying _ => true
  | _ => false

theorem conclude_mayFetch (f n : ℕ) (result : Except ResolveError Entry) (stale : Option Candidate) :
    (State.conclude f n result stale).mayFetch = false := by
  unfold State.conclude
  split
  · rfl
  · split
    · cases stale <;> rfl
    · rfl

theorem countP_returns (key : TokenHash) (n : ℕ) (r : ResolveResult) (l : List Fetch) :
    (l.modify n (·.returns r)).countP (·.key = key) = l.countP (·.key = key) := by
  induction l generalizing n with
  | nil => cases n <;> rfl
  | cons x l ih =>
    cases n with
    | zero => rfl
    | succ n => rw [List.modify_succ_cons, List.countP_cons, List.countP_cons, ih]

def loadWeights (cfg : ResolverConfig) (key : TokenHash) : Weights cfg where
  price := 0
  caller x := if x.key = key ∧ x.phase.mayFetch then 1 else 0
  fill k p := if k = key ∧ p = .registered then 1 else 0
  log l := l.countP (·.key = key)
  move := by
    intro s t x y h
    cases h with
    | receive k kind f stale fill n result =>
      rw [conclude_mayFetch]
      simp [brought]
    | _ => simp [brought, CallerPhase.mayFetch]
  next := by
    intro now f k ev p l q l' h
    cases h with
    | call log =>
      rw [List.countP_append, List.countP_singleton]
      simp [Nat.add_comm]
    | _ => simp [countP_returns]

def Act.resolves (key : TokenHash) : Act → Bool
  | .resolve k _ => k = key
  | _ => false

/-- The backend is asked about a token at most as often as the resolver is, refreshes and
retries included; so no schedule turns resolves into a storm of fetches. -/
theorem run_load (h : Run cfg acts s) (key : TokenHash) :
    s.flight.fetches.countP (·.key = key) ≤ acts.countP (Act.resolves key) := by
  have hstep (s : State) (a : Act) (t : State) (hs : step cfg s a = some t) :
      (loadWeights cfg key).potential t + 0 ≤
        (loadWeights cfg key).potential s + if a.resolves key then 1 else 0 := by
    have hstep := step_potential (loadWeights cfg key) hs
    cases a <;> simpa [loadWeights, Weights.income, CallerPhase.mayFetch, Act.resolves] using hstep
  have hpaid := exec_potential hstep h
  have hinit : (loadWeights cfg key).potential (init cfg) = 0 := rfl
  have hlog : s.flight.fetches.countP (·.key = key) ≤ (loadWeights cfg key).potential s :=
    Nat.le_add_left ..
  rw [sum_map_count, hinit] at hpaid
  omega

theorem run_load_shared :
    let acts : List Act := coldResolve 0 0 "k" 0 ++ [.resolve "k" 0,.lookup 1,.captureStale 1,.run 1]
    ∃ s, Run {} acts s ∧ s.flight.fetches.length = 1 ∧ acts.countP (Act.resolves "k") = 2 ∧
      s.flight.fetches.countP (·.key = "k") ≤ acts.countP (Act.resolves "k") := by
  intro acts
  have hlength : (exec (step {}) (init {}) acts).map (fun s => s.flight.fetches.length) = some 1 := by
    decide +kernel
  obtain ⟨s,h,hs⟩ := Option.map_eq_some_iff.mp hlength
  exact ⟨s,h,hs, by decide, run_load h "k"⟩

end NioClient.Session
