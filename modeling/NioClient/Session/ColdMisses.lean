import NioClient.Session.Retention
import NioClient.Session.SingleFlightRuns

/-! # Concurrent misses on a cold token

The L1 lookup and the registration of a fill are sections of their own. A call
which looks up before the first fill has put its entry, and enters
`SingleFlight::run` after that fill has left the in-flight map, fetches once more.
-/
namespace NioClient.Session
open Execution RecencyList
variable {cfg : ResolverConfig} {s t u v : State} {a : Act} {pre acts as rest : List Act} {key : TokenHash}
  {session : ResolvedSession} {e : Entry} {c : ℕ}

def Proceeds (s : State) : Act → Prop
  | .lookup c | .forcedMiss c | .captureStale c | .run c | .receive c => s.callers.length ≤ c
  | .callFetch f | .fetchReturns f _ _ _ | .fetchTimesOut f | .fetchPanics f | .put f | .cleanUp f =>
    s.flight.fills.length ≤ f
  | _ => False

/-- Time passes, and `key` is resolved: no other traffic, no `evict`, nobody is dropped. -/
def OnlyResolves (s : State) (key : TokenHash) : Act → Prop
  | .tick _ => True
  | .resolve key' _ => key' = key
  | a => Proceeds s a

/-- The calls of `resolve` for a cold `key`, from the state `s` to the end of the last
of them in `t`. The first fill stores `e`, with a session which stays fresh and
outside the refresh-ahead window. -/
structure ColdMisses (cfg : ResolverConfig) (s : State) (key : TokenHash) (acts : List Act) (t : State)
    (session : ResolvedSession) (e : Entry) : Prop where
  capacity : 1 ≤ cfg.capacity
  uncached : s.cache.peek key = none
  idle : s.flight.inflight.lookup key = none
  run : exec (step cfg) s acts = some t
  only : ∀ a ∈ acts, OnlyResolves s key a
  early : ∀ as wall rest, acts = as ++ .resolve key wall :: rest → .put s.flight.fills.length ∉ as
  stored : ∃ fill n, t.flight.fills[s.flight.fills.length]? = some fill ∧ fill.phase = .done n (.ok e)
  outcome : e.outcome = some session
  fresh : ∀ now wall, now ≤ t.now → .resolve key wall ∈ acts → judge e now wall = .hit false
  complete : ∀ a, Proceeds s a → step cfg t a = none

/-- One call of `fetch` for all, and everybody returns its result. -/
structure OneFetch (s t : State) (key : TokenHash) (session : ResolvedSession) : Prop where
  once : t.flight.fetches.length = s.flight.fetches.length + 1
  fetched : Fetched t.flight.fetches key s.flight.fetches.length (some session)
  answers : ∀ (c : ℕ) x, s.callers.length ≤ c → t.callers[c]? = some x →
    ∃ source, x.phase = .answered (.ok (some session)) source

/-- Call `c` looks up before the put of fill `f`. -/
def LooksUpEarly (f c : ℕ) (acts : List Act) : Prop :=
  ∃ as rest, acts = as ++ .lookup c :: rest ∧ .put f ∉ as

/-- Call `c` enters the single flight after the clean-up of fill `f`. -/
def EntersLate (f c : ℕ) (acts : List Act) : Prop :=
  ∃ as rest, acts = as ++ .run c :: rest ∧ .cleanUp f ∈ as

/-- The call has missed the result of the fill, and missed the fill. -/
def Straddles (f c : ℕ) (acts : List Act) : Prop := LooksUpEarly f c acts ∧ EntersLate f c acts

theorem LooksUpEarly.append {f : ℕ} (h : LooksUpEarly f c as) (rest : List Act) :
    LooksUpEarly f c (as ++ rest) := by
  obtain ⟨as,rest',rfl,hput⟩ := h
  exact ⟨as,rest' ++ rest, by simp,hput⟩

theorem OnlyResolves.event {f : ℕ} {ev : SingleFlight.FillEvent} (h : OnlyResolves s key a)
    (hev : a.event = some (f, ev)) : s.flight.fills.length ≤ f := by
  cases a <;> cases hev <;> exact h

/-- The calls and fills which begin after `s` are those of the key; the others rest. -/
structure Burst (s : State) (key : TokenHash) (u : State) : Prop where
  callers_le : s.callers.length ≤ u.callers.length
  fills_le : s.flight.fills.length ≤ u.flight.fills.length
  callers : ∀ (c : ℕ) x, s.callers.length ≤ c → u.callers[c]? = some x → x.key = key
  fills : ∀ (f : ℕ) y, s.flight.fills.length ≤ f → u.flight.fills[f]? = some y → y.key = key
  old : ∀ f < s.flight.fills.length, u.flight.fills[f]? = s.flight.fills[f]?

theorem burst_refl (s : State) (key : TokenHash) : Burst s key s := by
  refine ⟨le_rfl,le_rfl,fun c x hc hx => ?_,fun f y hf hy => ?_,fun _ _ => rfl⟩
  · have hlt := (List.getElem?_eq_some_iff.mp hx).1
    omega
  · have hlt := (List.getElem?_eq_some_iff.mp hy).1
    omega

protected theorem Burst.step (h : Burst s key u) (ha : OnlyResolves s key a)
    (hs : step cfg u a = some v) : Burst s key v := by
  have hmove := step_flight hs
  constructor
  · exact h.callers_le.trans (step_callers_length hs)
  · refine h.fills_le.trans ?_
    by_contra hlt
    obtain ⟨phase,hf,-⟩ := hmove.evolves (List.getElem?_eq_getElem (Nat.lt_of_not_le hlt))
    exact absurd (List.getElem?_eq_some_iff.mp hf).1 (lt_irrefl _)
  · intro c x hc hx
    rcases step_callers hs hx with hold | ⟨x',hx',-⟩ | ⟨rfl,-⟩
    · exact h.callers c x hc hold
    · obtain ⟨y,hy,hkey,-⟩ := step_caller_later hs hx'
      cases hx.symm.trans hy
      exact hkey.trans (h.callers c x' hc hx')
    · rcases step_born hs hx with ⟨key',wall,rfl,rfl⟩ | ⟨c',x',rfl,hx',rfl⟩
      · exact ha
      · exact h.callers c' x' ha hx'
  · intro f y hf hy
    rcases hmove.origin hy with ⟨y',hy',hkey,-⟩ | ⟨rfl,-⟩
    · exact hkey.symm.trans (h.fills f y' hf hy')
    · obtain ⟨c,x,rfl,hx,hkey,-⟩ := step_registered hs hy
      exact hkey.trans (h.callers c x ha hx)
  · intro f hf
    have hlt : f < u.flight.fills.length := hf.trans_le h.fills_le
    obtain ⟨phase,hv,hevolves⟩ := hmove.evolves (List.getElem?_eq_getElem hlt)
    rw [hv, ← h.old f hf, List.getElem?_eq_getElem hlt]
    generalize hev : a.event = event at hevolves
    generalize hp : (u.flight.fills[f]).phase = p at hevolves
    cases hevolves with
    | rest => rw [← hp]
    | next ev _ _ hn => exact absurd (ha.event hev) (Nat.not_le.mpr hf)

theorem exec_burst (h : exec (step cfg) s as = some u) (hall : ∀ a ∈ as, OnlyResolves s key a) :
    Burst s key u := by
  refine exec_induction (motive := fun as u => (∀ a ∈ as, OnlyResolves s key a) → Burst s key u)
    (fun _ => burst_refl s key) ?_ h hall
  intro as u a v _ ih hs hall
  exact (ih fun b hb => hall b (List.mem_append_left _ hb)).step (hall a (by simp)) hs

theorem Burst.live_later (h : Burst s key u) (hw : s.flight.WellFormed)
    (hidle : s.flight.inflight.lookup key = none) {f : ℕ} {y : Fill} (hf : u.flight.fills[f]? = some y)
    (hkey : y.key = key) (hlive : y.phase.live) : s.flight.fills.length ≤ f := by
  by_contra hlt
  rw [h.old f (Nat.lt_of_not_le hlt)] at hf
  have hheld := hw.held f y hf hlive
  rw [hkey, hidle] at hheld
  cases hheld

theorem exec_fetch (h : exec (step cfg) s as = some t) {n : ℕ} {x : Fetch} (hx : s.flight.fetches[n]? = some x) :
    ∃ y, t.flight.fetches[n]? = some y ∧ y.fill = x.fill := by
  refine exec_invariant (I := fun t => ∃ y, t.flight.fetches[n]? = some y ∧ y.fill = x.fill) ?_ ⟨x,hx,rfl⟩ h
  rintro s a t ⟨y,hy,hfill⟩ hs
  obtain ⟨z,hz,hfill',-⟩ := (step_flight hs).fetch_later hy
  exact ⟨z,hz,hfill'.trans hfill⟩

/-- A fill which is not in `s` yet calls a fetch which is not in its log yet. -/
theorem later_fetch (hpre : Run cfg pre s) (h : exec (step cfg) s as = some t) {f n : ℕ} {fill : Fill}
    (hf : t.flight.fills[f]? = some fill) (hle : s.flight.fills.length ≤ f) (hn : fill.phase.fetch? = some n) :
    s.flight.fetches.length ≤ n := by
  by_contra hlt
  have hx := List.getElem?_eq_getElem (Nat.lt_of_not_le hlt)
  obtain ⟨y,hy,hfill⟩ := exec_fetch h hx
  obtain ⟨z,hz,hzf,-⟩ := (run_logged (exec_append_iff.mpr ⟨s,hpre,h⟩)).call f fill n hf hn
  obtain ⟨fill',hf',-⟩ := (run_logged hpre).caller n _ hx
  cases hy.symm.trans hz
  have hbound := (List.getElem?_eq_some_iff.mp hf').1
  omega

theorem OneFetch.not_entersLate (hone : OneFetch s t key session) (hpre : Run cfg pre s)
    (hm : ColdMisses cfg s key acts t session e) : ¬ EntersLate s.flight.fills.length c acts := by
  rintro ⟨as,rest,rfl,hclean⟩
  have hrun := run_logged (exec_append_iff.mpr ⟨s,hpre,hm.run⟩)
  obtain ⟨u,hu,hexec⟩ := exec_append_iff.mp hm.run
  obtain ⟨v,hv,hrest⟩ := exec_cons_iff.mp hexec
  have huburst := exec_burst hu fun b hb => hm.only b (by simp [hb])
  have hentry : OnlyResolves s key (.run c) := hm.only _ (by simp)
  obtain ⟨x,stale,hx,-,hstate⟩ := run_eq hv
  have hkey : x.key = key := huburst.callers c x hentry hx
  -- the fill that the late call joins is live, the first one is not
  have hvrun : Run cfg (pre ++ (as ++ [.run c])) v :=
    exec_append_iff.mpr ⟨s,hpre,exec_concat_iff.mpr ⟨u,hu,hv⟩⟩
  obtain ⟨g,y,hg,hykey,hlive⟩ : ∃ (g : ℕ) (y : Fill), v.flight.fills[g]? = some y ∧ y.key = key ∧ y.phase.live := by
    obtain ⟨id,hid⟩ := u.flight.run_joined x.key
    have hlook : v.flight.inflight.lookup x.key = some (id,(u.flight.run x.key).2) := by
      rw [hstate]
      exact hid
    obtain ⟨y,hg,hykey,-,hlive⟩ := (run_wellFormed hvrun).owner _ _ _ hlook
    exact ⟨_,y,hg,hykey.trans hkey,hlive⟩
  have hlater : s.flight.fills.length ≤ g :=
    (huburst.step hentry hv).live_later (run_wellFormed hpre) hm.idle hg hykey hlive
  have hother : s.flight.fills.length ≠ g := by
    rintro rfl
    have hmem : .cleanUp s.flight.fills.length ∈ pre ++ (as ++ [.run c]) := by simp [hclean]
    exact (live_iff hvrun hg).mp hlive hmem
  -- by the end both have called `fetch`
  obtain ⟨y',hg',-,-⟩ := exec_later hrest hg
  obtain ⟨m,hfetch⟩ : ∃ m, y'.phase.fetch? = some m := by
    cases hp : y'.phase with
    | registered =>
      have hcalls := hm.complete (.callFetch g) hlater
      simp [step, SingleFlight.callFetch, hg', hp] at hcalls
    | fetching m | storing m _ | cleaning m _ | done m _ | panicked m => exact ⟨m,rfl⟩
  obtain ⟨fill,n,hf,hp⟩ := hm.stored
  have hn : fill.phase.fetch? = some n := by simp [hp, Phase.fetch?]
  obtain ⟨z,hz,hzf,-⟩ := hrun.call _ fill n hf hn
  obtain ⟨z',hz',hzg,-⟩ := hrun.call g y' m hg' hfetch
  have hnle := later_fetch hpre hm.run hf le_rfl hn
  have hmle := later_fetch hpre hm.run hg' hlater hfetch
  have hnlt := (List.getElem?_eq_some_iff.mp hz).1
  have hmlt := (List.getElem?_eq_some_iff.mp hz').1
  rw [hone.once] at hnlt hmlt
  obtain rfl : n = m := by omega
  cases hz.symm.trans hz'
  exact hother (hzf.symm.trans hzg)

/-- How far call `c` has come after `as`; `f` is the first fill. -/
inductive Served (f : ℕ) (session : ResolvedSession) (as : List Act) (c : ℕ) : CallerPhase → Prop
  | started : Served f session as c .started
  | missed (h : LooksUpEarly f c as) : Served f session as c .missed
  | flying (stale) (h : LooksUpEarly f c as) : Served f session as c (.flying stale)
  | waiting (stale) (h : LooksUpEarly f c as) : Served f session as c (.waiting f stale)
  | answered (source) : Served f session as c (.answered (.ok (some session)) source)

theorem Served.append {f : ℕ} {phase : CallerPhase} (h : Served f session as c phase) (rest : List Act) :
    Served f session (as ++ rest) c phase := by
  cases h with
  | started => exact .started
  | missed h => exact .missed (h.append rest)
  | flying stale h => exact .flying stale (h.append rest)
  | waiting stale h => exact .waiting stale (h.append rest)
  | answered source => exact .answered source

/-- The call has read the clocks for `key`, and has come as far as the first fill serves it. -/
structure Attended (s : State) (key : TokenHash) (session : ResolvedSession) (as : List Act) (u : State)
    (c : ℕ) (x : Caller) : Prop where
  reads : ∃ now wall, x.kind = .resolve now wall ∧ now ≤ u.now ∧ .resolve key wall ∈ as
  served : Served s.flight.fills.length session as c x.phase

/-- The first fill alone is registered, its entry alone is cached, and it serves every call. -/
structure Shared (s : State) (key : TokenHash) (session : ResolvedSession) (e : Entry) (as : List Act)
    (u : State) : Prop where
  fills : u.flight.fills.length ≤ s.flight.fills.length + 1
  before : .put s.flight.fills.length ∉ as → u.cache.peek key = none
  after : .put s.flight.fills.length ∈ as → ∃ n, u.cache.peek key = some ⟨e, n⟩
  callers : ∀ (c : ℕ) x, s.callers.length ≤ c → u.callers[c]? = some x → Attended s key session as u c x

structure OnTheWay (cfg : ResolverConfig) (s : State) (acts : List Act) (t : State) (as : List Act)
    (a : Act) (rest : List Act) (u v : State) : Prop where
  split : acts = as ++ a :: rest
  before : exec (step cfg) s as = some u
  step : Session.step cfg u a = some v
  after : exec (Session.step cfg) v rest = some t

theorem ColdMisses.first_fill (hm : ColdMisses cfg s key acts t session e)
    (hrest : exec (step cfg) u rest = some t) {y : Fill}
    (hf : u.flight.fills[s.flight.fills.length]? = some y) :
    ∃ n, SingleFlight.Later y.phase (.done n (.ok e)) := by
  obtain ⟨fill,n,hfill,hp⟩ := hm.stored
  obtain ⟨y',hy',-,hlater⟩ := exec_later hrest hf
  cases hfill.symm.trans hy'
  exact ⟨n,hp ▸ hlater⟩

theorem OnTheWay.now_le (hw : OnTheWay cfg s acts t as a rest u v) : u.now ≤ t.now :=
  (step_now hw.step).trans (exec_invariant (I := fun t => v.now ≤ t.now)
    (fun _ _ _ hle hs => hle.trans (step_now hs)) le_rfl hw.after)

theorem ColdMisses.on_the_way (hm : ColdMisses cfg s key acts t session e)
    (hw : OnTheWay cfg s acts t as a rest u v) : Burst s key u ∧ OnlyResolves s key a := by
  have hall : ∀ b ∈ as ++ a :: rest, OnlyResolves s key b := hw.split ▸ hm.only
  exact ⟨exec_burst hw.before fun b hb => hall b (List.mem_append_left _ hb),hall a (by simp)⟩

section Step
variable (hpre : Run cfg pre s) (hm : ColdMisses cfg s key acts t session e)
  (hw : OnTheWay cfg s acts t as a rest u v) (h : Shared s key session e as u)
include hm hw h

include hpre in
theorem Shared.step_fills (hno : ∀ c, ¬ Straddles s.flight.fills.length c acts) :
    v.flight.fills.length ≤ s.flight.fills.length + 1 := by
  obtain ⟨hburst,ha⟩ := hm.on_the_way hw
  by_contra hlt
  obtain ⟨y,hy⟩ : ∃ y, v.flight.fills[s.flight.fills.length + 1]? = some y :=
    ⟨_,List.getElem?_eq_getElem (Nat.lt_of_not_le hlt)⟩
  rcases (step_flight hw.step).origin hy with ⟨fill,hf,-⟩ | ⟨hlen,-⟩
  · have hbound := (List.getElem?_eq_some_iff.mp hf).1
    have hle := h.fills
    omega
  · rw [hlen] at hy
    obtain ⟨c,x,rfl,hx,-,hnone⟩ := step_registered hw.step hy
    obtain ⟨-,hserved⟩ := h.callers c x ha hx
    obtain ⟨x',stale,hx',hphase,-⟩ := run_eq hw.step
    cases hx.symm.trans hx'
    rw [hphase] at hserved
    -- the first fill is there and has left the map, so its clean-up has run
    have hrun : Run cfg (pre ++ as) u := exec_append_iff.mpr ⟨s,hpre,hw.before⟩
    obtain ⟨fill,hf⟩ : ∃ fill, u.flight.fills[s.flight.fills.length]? = some fill :=
      ⟨_,List.getElem?_eq_getElem (by omega)⟩
    have hclean : .cleanUp s.flight.fills.length ∈ pre ++ as := by
      by_contra hnot
      have hheld := (run_wellFormed hrun).held _ fill hf ((live_iff hrun hf).mpr hnot)
      rw [hburst.fills _ fill le_rfl hf, ← hburst.callers c x ha hx, hnone] at hheld
      cases hheld
    have hfresh : .cleanUp s.flight.fills.length ∉ pre := by
      have hcount := (run_tally hpre s.flight.fills.length).cleanUps
      rw [← List.count_eq_zero, hcount]
      simp [SingleFlight.phaseAt, Phase.live]
    have hlate : EntersLate s.flight.fills.length c acts :=
      ⟨as,rest,hw.split,(List.mem_append.mp hclean).resolve_left hfresh⟩
    cases hserved with
    | flying _ hearly => exact hno c ⟨hw.split ▸ hearly.append _,hlate⟩

theorem Shared.put_first {f : ℕ} (ha : a = .put f) : f = s.flight.fills.length := by
  obtain ⟨-,honly⟩ := hm.on_the_way hw
  subst ha
  obtain ⟨fill,n,e',hp,-⟩ := put_eq hw.step
  have hlt := (List.getElem?_eq_some_iff.mp (SingleFlight.pending_eq hp).1).1
  have hle : s.flight.fills.length ≤ f := honly
  have hfills := h.fills
  omega

include hpre in
theorem Shared.step_before (hput : .put s.flight.fills.length ∉ as ++ [a]) :
    v.cache.peek key = none := by
  have hsane := run_cacheSane (exec_append_iff.mpr ⟨s,hpre,hw.before⟩)
  rw [List.mem_append, List.mem_singleton, not_or] at hput
  cases hpeek : v.cache.peek key with
  | none => rfl
  | some x =>
    rcases step_peek hsane hw.step hpeek with ⟨hold,-⟩ | ⟨f,fill,n,e',ha,-⟩
    · rw [h.before hput.1] at hold
      cases hold
    · obtain rfl := h.put_first hm hw ha
      exact absurd ha.symm hput.2

include hpre in
theorem Shared.step_after (hput : .put s.flight.fills.length ∈ as ++ [a]) :
    ∃ n, v.cache.peek key = some ⟨e, n⟩ := by
  obtain ⟨hburst,honly⟩ := hm.on_the_way hw
  have hrun : Run cfg (pre ++ as) u := exec_append_iff.mpr ⟨s,hpre,hw.before⟩
  by_cases ha : ∃ f, a = .put f
  · obtain ⟨f,ha⟩ := ha
    obtain rfl := h.put_first hm hw ha
    subst ha
    obtain ⟨fill,n,e',hp,hv⟩ := put_eq hw.step
    obtain ⟨hf,hphase⟩ := SingleFlight.pending_eq hp
    obtain ⟨es,hes⟩ := run_refines hrun
    have hkey := hburst.fills _ fill le_rfl hf
    obtain ⟨m,hlater⟩ := hm.first_fill hw.after (y := { fill with phase := .cleaning n (.ok e') }) (by
      rw [hv]
      exact SingleFlight.setPhase_self hf)
    obtain rfl : e = e' := Option.some.inj (hlater.stored e' rfl)
    refine ⟨n,?_⟩
    have hcap : 0 < u.cache.capacity := by
      rw [(run_cacheSane hrun).1]
      exact hm.capacity
    rw [hv, ← hkey, (hes.put fill.key ⟨e,n⟩).peek]
    exact find_store_self fill.key _ es hcap
  · have hmem : .put s.flight.fills.length ∈ as := by
      rcases List.mem_append.mp hput with hmem | hlast
      · exact hmem
      · exact absurd ⟨_,(List.mem_singleton.mp hlast).symm⟩ ha
    obtain ⟨n,hn⟩ := h.after hmem
    refine ⟨n,?_⟩
    rw [← hn]
    cases step_cache hw.step with
    | stay he => rw [he]
    | get key' he => rw [he, Lru.peek_get]
    | put f fill n e' hf => exact absurd ⟨f,hf⟩ ha
    | remove key' he hwho =>
      rcases hwho with rfl | ⟨c,x,rfl,hx,hphase,-⟩
      · exact honly.elim
      · obtain ⟨-,hserved⟩ := h.callers c x honly hx
        rw [hphase] at hserved
        cases hserved

/-- A call that looks up after the put of the first fill is answered; one that looks
up before it has looked up early. -/
theorem Shared.lookup_served {now : ℕ} {wall : ℤ} (ha : a = .lookup c) (hcap : u.cache.capacity ≠ 0)
    (hnow : now ≤ u.now) (hwall : .resolve key wall ∈ as) :
    (found (u.cache.get key).1 now wall).2 = false ∧
      Served s.flight.fills.length session (as ++ [a]) c (found (u.cache.get key).1 now wall).1 := by
  rw [Lru.get_fst_eq hcap]
  by_cases hput : .put s.flight.fills.length ∈ as
  · obtain ⟨n,hn⟩ := h.after hput
    have hmem : .resolve key wall ∈ acts := hw.split ▸ List.mem_append_left _ hwall
    have hjudge := hm.fresh now wall (hnow.trans (hw.now_le)) hmem
    rw [hn, found, hjudge, hm.outcome]
    exact ⟨rfl,.answered _⟩
  · rw [h.before hput]
    exact ⟨rfl,.missed ⟨as,[], by rw [ha],hput⟩⟩

include hpre in
theorem Shared.joins_first (hno : ∀ c, ¬ Straddles s.flight.fills.length c acts) {x : Caller}
    (hkey : x.key = key) (hv : v.flight = (u.flight.run x.key).1) :
    (u.flight.run x.key).2 = s.flight.fills.length := by
  obtain ⟨hburst,ha⟩ := hm.on_the_way hw
  obtain ⟨id,hid⟩ := u.flight.run_joined x.key
  rw [← hv] at hid
  have hvrun : Run cfg (pre ++ (as ++ [a])) v :=
    exec_append_iff.mpr ⟨s,hpre,exec_concat_iff.mpr ⟨u,hw.before,hw.step⟩⟩
  obtain ⟨y,hg,hykey,-,hlive⟩ := (run_wellFormed hvrun).owner _ _ _ hid
  have hle := (hburst.step ha hw.step).live_later (run_wellFormed hpre) hm.idle hg (hykey.trans hkey) hlive
  have hlt := (List.getElem?_eq_some_iff.mp hg).1
  have hfills := h.step_fills hpre hm hw hno
  omega

section Callers
variable {d : ℕ} {x y : Caller}

omit hm in
theorem Shared.kept (hc : s.callers.length ≤ c) (hx : u.callers[c]? = some x) :
    Attended s key session (as ++ [a]) v c x := by
  obtain ⟨⟨now,wall,hkind,hnow,hwall⟩,hserved⟩ := h.callers c x hc hx
  exact ⟨⟨now,wall,hkind,hnow.trans (step_now hw.step),List.mem_append_left _ hwall⟩,hserved.append [a]⟩

omit hm in
/-- The step moves caller `d` alone. -/
theorem Shared.moved {phase : CallerPhase} (hy : u.callers[d]? = some y)
    (hserved : Served s.flight.fills.length session (as ++ [a]) d phase) (hc : s.callers.length ≤ c)
    (hx : (u.setCaller d y phase).callers[c]? = some x) : Attended s key session (as ++ [a]) v c x := by
  rcases getElem?_setCaller hy hx with ⟨rfl,rfl⟩ | hold
  · exact ⟨(h.kept hw hc hy).reads,hserved⟩
  · exact h.kept hw hc hold

omit hm hw in
theorem Shared.served {phase : CallerPhase} (hd : s.callers.length ≤ d) (hy : u.callers[d]? = some y)
    (hphase : y.phase = phase) : Served s.flight.fills.length session as d phase :=
  hphase ▸ (h.callers d y hd hy).served

theorem Shared.resolve_callers {key' : TokenHash} {wall : ℤ} (ha : a = .resolve key' wall)
    (hc : s.callers.length ≤ c) (hx : v.callers[c]? = some x) : Attended s key session (as ++ [a]) v c x := by
  obtain ⟨-,honly⟩ := hm.on_the_way hw
  have hstep := hw.step
  subst ha
  cases hstep
  rcases getElem?_append_one hx with hold | ⟨rfl,rfl⟩
  · exact h.kept hw hc hold
  · obtain rfl : key' = key := honly
    exact ⟨⟨u.now,wall,rfl,le_rfl, by simp⟩,.started⟩

include hpre in
theorem Shared.lookup_callers (ha : a = .lookup d) (hc : s.callers.length ≤ c) (hx : v.callers[c]? = some x) :
    Attended s key session (as ++ [a]) v c x := by
  obtain ⟨hburst,honly⟩ := hm.on_the_way hw
  have hstep := hw.step
  subst ha
  obtain ⟨key',now,wall,hy,rfl⟩ := lookup_eq hstep
  obtain rfl : key' = key := hburst.callers d _ honly hy
  obtain ⟨⟨now',wall',hkind,hnow,hwall⟩,-⟩ := h.callers d _ honly hy
  cases hkind
  have hcap : u.cache.capacity ≠ 0 := by
    rw [(run_cacheSane (exec_append_iff.mpr ⟨s,hpre,hw.before⟩)).1]
    exact Nat.one_le_iff_ne_zero.mp hm.capacity
  obtain ⟨hno,hserved⟩ := h.lookup_served hm hw rfl hcap hnow hwall
  rw [State.afterLookup, hno] at hx
  exact h.moved hw hy hserved hc hx

theorem Shared.captureStale_callers (ha : a = .captureStale d) (hc : s.callers.length ≤ c)
    (hx : v.callers[c]? = some x) : Attended s key session (as ++ [a]) v c x := by
  obtain ⟨-,honly⟩ := hm.on_the_way hw
  have hstep := hw.step
  subst ha
  obtain ⟨y,now,wall,hy,-,hphase,rfl⟩ := captureStale_eq hstep
  cases h.served honly hy hphase with
  | missed hearly => exact h.moved hw hy (.flying _ (hearly.append _)) hc hx

include hpre in
theorem Shared.run_callers (hno : ∀ c, ¬ Straddles s.flight.fills.length c acts) (ha : a = .run d)
    (hc : s.callers.length ≤ c) (hx : v.callers[c]? = some x) : Attended s key session (as ++ [a]) v c x := by
  obtain ⟨hburst,honly⟩ := hm.on_the_way hw
  have hstep := hw.step
  subst ha
  obtain ⟨y,stale,hy,hphase,rfl⟩ := run_eq hstep
  have hfirst := h.joins_first hpre hm hw hno (hburst.callers d y honly hy) rfl
  cases h.served honly hy hphase with
  | flying _ hearly =>
    rw [hfirst] at hx
    exact h.moved hw hy (.waiting stale (hearly.append _)) hc hx

theorem Shared.receive_callers (ha : a = .receive d) (hc : s.callers.length ≤ c)
    (hx : v.callers[c]? = some x) : Attended s key session (as ++ [a]) v c x := by
  obtain ⟨-,honly⟩ := hm.on_the_way hw
  have hstep := hw.step
  subst ha
  obtain ⟨y,f,stale,fill,hy,hphase,hf,hcases⟩ := receive_eq hstep
  cases h.served honly hy hphase with
  | waiting _ hearly =>
    obtain ⟨n,hlater⟩ := hm.first_fill (exec_cons_iff.mpr ⟨v,hstep,hw.after⟩) hf
    rcases hcases with ⟨m,result,hdone,rfl⟩ | ⟨m,hpanic,rfl⟩
    · cases hlater.done m result hdone
      refine h.moved hw hy ?_ hc hx
      simp only [State.conclude, hm.outcome]
      exact .answered _
    · cases hlater.panicked m hpanic

end Callers

include hpre in
theorem Shared.step_callers (hno : ∀ c, ¬ Straddles s.flight.fills.length c acts) {x : Caller}
    (hc : s.callers.length ≤ c) (hx : v.callers[c]? = some x) : Attended s key session (as ++ [a]) v c x := by
  obtain ⟨-,honly⟩ := hm.on_the_way hw
  have hstep := hw.step
  cases a with
  | tick => cases hstep; exact h.kept hw hc hx
  | evict | cancel => exact honly.elim
  | resolve key' wall => exact h.resolve_callers hm hw rfl hc hx
  | lookup d => exact h.lookup_callers hpre hm hw rfl hc hx
  | captureStale d => exact h.captureStale_callers hm hw rfl hc hx
  | run d => exact h.run_callers hpre hm hw hno rfl hc hx
  | receive d => exact h.receive_callers hm hw rfl hc hx
  | forcedMiss d =>
    obtain ⟨y,hy,hphase,-⟩ := forcedMiss_eq hstep
    cases h.served honly hy hphase
  | put f =>
    obtain ⟨fill,n,e',-,rfl⟩ := put_eq hstep
    exact h.kept hw hc hx
  | callFetch | fetchReturns | fetchTimesOut | fetchPanics | cleanUp =>
    obtain ⟨flight,-,rfl⟩ := Option.map_eq_some_iff.mp hstep
    exact h.kept hw hc hx

end Step

theorem ColdMisses.shared (hm : ColdMisses cfg s key acts t session e) (hpre : Run cfg pre s)
    (hno : ∀ c, ¬ Straddles s.flight.fills.length c acts) : Shared s key session e acts t := by
  refine exec_induction (motive := fun as u => ∀ rest, acts = as ++ rest →
    exec (step cfg) u rest = some t → Shared s key session e as u) ?_ ?_ hm.run [] (by simp) rfl
  · intro rest _ _
    refine ⟨Nat.le_succ _,fun _ => hm.uncached,fun hput => by simp at hput,fun c x hc hx => ?_⟩
    have hlt := (List.getElem?_eq_some_iff.mp hx).1
    omega
  · intro as u a v hu ih hs rest hsplit hrest
    have hw : OnTheWay cfg s acts t as a rest u v := ⟨by simp [hsplit],hu,hs,hrest⟩
    have h := ih (a :: rest) hw.split (exec_cons_iff.mpr ⟨v,hs,hrest⟩)
    exact ⟨h.step_fills hpre hm hw hno,h.step_before hpre hm hw,h.step_after hpre hm hw,
      fun c x hc hx => h.step_callers hpre hm hw hno hc hx⟩

theorem Shared.answers (h : Shared s key session e acts t) (hm : ColdMisses cfg s key acts t session e)
    {c : ℕ} {x : Caller} (hc : s.callers.length ≤ c) (hx : t.callers[c]? = some x) :
    ∃ source, x.phase = .answered (.ok (some session)) source := by
  obtain ⟨⟨now,wall,hkind,-,-⟩,hserved⟩ := h.callers c x hc hx
  obtain ⟨key',kind,phase⟩ := x
  dsimp only at hkind hserved
  subst hkind
  cases hserved with
  | answered source => exact ⟨source,rfl⟩
  | started =>
    have hlookup := hm.complete (.lookup c) hc
    simp only [step, State.lookup, hx, Option.bind_eq_bind, Option.bind_some] at hlookup
    split at hlookup
    · cases hlookup
    · split at hlookup <;> cases hlookup
  | missed =>
    have hcapture := hm.complete (.captureStale c) hc
    simp [step, State.captureStale, hx] at hcapture
  | flying stale =>
    have hrun := hm.complete (.run c) hc
    simp [step, State.run, hx] at hrun
  | waiting stale =>
    have hreceive := hm.complete (.receive c) hc
    obtain ⟨fill,n,hf,hp⟩ := hm.stored
    simp [step, State.receive, hx, hf, hp] at hreceive

theorem Shared.fetched (h : Shared s key session e acts t) (hm : ColdMisses cfg s key acts t session e)
    (hpre : Run cfg pre s) : t.flight.fetches.length = s.flight.fetches.length + 1 ∧
      Fetched t.flight.fetches key s.flight.fetches.length (some session) := by
  have hlog := run_logged (exec_append_iff.mpr ⟨s,hpre,hm.run⟩)
  have hburst := exec_burst hm.run hm.only
  obtain ⟨fill,n,hf,hp⟩ := hm.stored
  have hn : fill.phase.fetch? = some n := by simp [hp, Phase.fetch?]
  have hnle := later_fetch hpre hm.run hf le_rfl hn
  obtain ⟨x,hx,-,hxkey⟩ := hlog.call _ fill n hf hn
  have hnlt := (List.getElem?_eq_some_iff.mp hx).1
  -- a call which `s` has not logged is that of the first fill
  have honly : ∀ m, s.flight.fetches.length ≤ m → m < t.flight.fetches.length → m = n := by
    intro m hle hlt
    obtain ⟨y,hy,hm'⟩ := hlog.caller m _ (List.getElem?_eq_getElem hlt)
    have hbound := (List.getElem?_eq_some_iff.mp hy).1
    have hfills := h.fills
    generalize (t.flight.fetches[m]).fill = g at hy hbound
    by_cases hg : g < s.flight.fills.length
    · rw [hburst.old g hg] at hy
      obtain ⟨z,hz,-⟩ := (run_logged hpre).call g y m hy hm'
      have hmlt := (List.getElem?_eq_some_iff.mp hz).1
      omega
    · obtain rfl : g = s.flight.fills.length := by omega
      cases hf.symm.trans hy
      exact Option.some.inj (hm'.symm.trans hn)
  obtain rfl : s.flight.fetches.length = n := honly _ le_rfl (by omega)
  constructor
  · by_contra hne
    have hnext := honly (s.flight.fetches.length + 1) (Nat.le_succ _) (by omega)
    omega
  · obtain ⟨-,m,z,hzm,hz,hret⟩ := hlog.entry _ fill e hf (by simp [hp, Phase.entry?])
    obtain rfl := Option.some.inj (hn.symm.trans hzm)
    cases hx.symm.trans hz
    exact ⟨x,hx,hxkey.trans (hburst.fills _ fill le_rfl hf),by rw [hret, hm.outcome]⟩

/-- Concurrent misses on a cold token cost one fetch, and all return its result, exactly
when no call looks up before the first fill's put and enters after its clean-up. -/
theorem oneFetch_iff (hpre : Run cfg pre s) (hm : ColdMisses cfg s key acts t session e) :
    OneFetch s t key session ↔ ∀ c, ¬ Straddles s.flight.fills.length c acts := by
  constructor
  · exact fun hone c hstraddles => hone.not_entersLate hpre hm hstraddles.2
  · intro hno
    have h := hm.shared hpre hno
    obtain ⟨honce,hfetched⟩ := h.fetched hm hpre
    exact ⟨honce,hfetched,fun c x hc hx => h.answers hm hc hx⟩

theorem complete_of_ended (hcallers : ∀ x ∈ t.callers, ∃ answer source, x.phase = .answered answer source)
    (hfills : ∀ y ∈ t.flight.fills, y.phase.ended) (ha : Proceeds s a) : step cfg t a = none := by
  have hcaller {c : ℕ} {x : Caller} (hx : t.callers[c]? = some x) :
      ∃ answer source, x.phase = .answered answer source := hcallers x (List.mem_of_getElem? hx)
  cases hs : step cfg t a with
  | none => rfl
  | some v =>
    exfalso
    cases a with
    | tick | resolve | cancel | evict => exact ha
    | lookup c =>
      obtain ⟨key,now,wall,hx,-⟩ := lookup_eq hs
      obtain ⟨_,_,hphase⟩ := hcaller hx
      cases hphase
    | forcedMiss c =>
      obtain ⟨x,hx,hp,-⟩ := forcedMiss_eq hs
      obtain ⟨_,_,hphase⟩ := hcaller hx
      cases hp.symm.trans hphase
    | captureStale c =>
      obtain ⟨x,now,wall,hx,-,hp,-⟩ := captureStale_eq hs
      obtain ⟨_,_,hphase⟩ := hcaller hx
      cases hp.symm.trans hphase
    | run c =>
      obtain ⟨x,stale,hx,hp,-⟩ := run_eq hs
      obtain ⟨_,_,hphase⟩ := hcaller hx
      cases hp.symm.trans hphase
    | receive c =>
      obtain ⟨x,f,stale,fill,hx,hp,-⟩ := receive_eq hs
      obtain ⟨_,_,hphase⟩ := hcaller hx
      cases hp.symm.trans hphase
    | callFetch f | fetchReturns f | fetchTimesOut f | fetchPanics f | put f | cleanUp f =>
      obtain ⟨y,hy,hnot⟩ := (step_flight hs).not_ended
      rw [hfills y (List.mem_of_getElem? hy)] at hnot
      cases hnot

theorem not_before {α : Type} {xs ys as rest : List α} {a b : α} (h : xs ++ ys = as ++ a :: rest)
    (ha : a ∉ ys) (hb : b ∉ xs) : b ∉ as := by
  rcases List.append_eq_append_iff.mp h with ⟨l,rfl,rfl⟩ | ⟨l,rfl,-⟩
  · simp at ha
  · exact fun hmem => hb (List.mem_append_left _ hmem)

def longEntry : Entry := fillEntry {} 0 .one 0 (some longSession)

/-- A schedule from the start at one instant, in which every call is answered and every
fill ends, is one of cold misses. -/
theorem coldMisses_of_run {calls tail : List Act} (hrun : exec (step {}) (init {}) (calls ++ tail) = some t)
    (hnow : t.now = 0) (hcallers : ∀ x ∈ t.callers, ∃ answer source, x.phase = .answered answer source)
    (hfirst : t.flight.fills[0]? = some ⟨0, "k", .done 0 (.ok longEntry)⟩)
    (hfills : ∀ y ∈ t.flight.fills, y.phase.ended) (hcalls : ∀ a ∈ calls, OnlyResolves (init {}) "k" a)
    (htail : ∀ a ∈ tail, Proceeds (init {}) a) (hput : .put 0 ∉ calls)
    (hwall : ∀ wall, .resolve "k" wall ∈ calls → wall = 0) :
    ColdMisses {} (init {}) "k" (calls ++ tail) t longSession longEntry where
  capacity := by decide
  uncached := rfl
  idle := rfl
  run := hrun
  only a ha := by
    rcases List.mem_append.mp ha with ha | ha
    · exact hcalls a ha
    · have hproceeds := htail a ha
      cases a with
      | tick | resolve => exact hproceeds.elim
      | _ => exact hproceeds
  early as wall rest hsplit := not_before hsplit (fun hmem => htail _ hmem) hput
  stored := ⟨_,0,hfirst,rfl⟩
  outcome := rfl
  fresh now wall hle hmem := by
    have hzero : now = 0 := by omega
    have hwall0 : wall = 0 := by
      rcases List.mem_append.mp hmem with hmem | hmem
      · exact hwall wall hmem
      · exact (htail _ hmem).elim
    rw [hzero, hwall0]
    decide +kernel
  complete a ha := complete_of_ended hcallers hfills ha

/-- The second call looks up before the put too, and joins the fill. -/
def twoMisses : List Act :=
  [.resolve "k" 0, .resolve "k" 0, .lookup 0, .lookup 1, .captureStale 0, .captureStale 1, .run 0, .run 1,
    .callFetch 0]

theorem oneFetch_twoMisses : ∃ t, Run {} (twoMisses ++ settle 0 0 (some longSession) 0 ++ [.receive 1]) t ∧
    OneFetch (init {}) t "k" longSession := by
  have hrun : (exec (step {}) (init {}) (twoMisses ++ settle 0 0 (some longSession) 0 ++ [.receive 1])).map
      (fun t => (t.now, t.callers, t.flight.fills)) =
      some (0, [⟨"k", .resolve 0 0, .answered (.ok (some longSession)) (.joined 0 0)⟩,
        ⟨"k", .resolve 0 0, .answered (.ok (some longSession)) (.joined 0 0)⟩],
        [⟨0, "k", .done 0 (.ok longEntry)⟩]) := by decide +kernel
  obtain ⟨t,h,ht⟩ := Option.map_eq_some_iff.mp hrun
  simp only [Prod.mk.injEq] at ht
  obtain ⟨hnow,hcallers,hfills⟩ := ht
  have hm := coldMisses_of_run (by rwa [List.append_assoc] at h) hnow (by simp [hcallers]) (by simp [hfills])
    (by simp [hfills, Phase.ended]) (by simp [twoMisses, OnlyResolves, Proceeds, init, SingleFlight.default])
    (by simp [settle, Proceeds, init, SingleFlight.default]) (by simp [twoMisses]) (by simp [twoMisses])
  have hstart : Run {} [] (init {}) := rfl
  refine ⟨t,h,(oneFetch_iff hstart hm).mpr ?_⟩
  rintro c ⟨-,as,rest,hsplit,hclean⟩
  refine not_before hsplit ?_ ?_ hclean
  · simp [settle]
  · simp [twoMisses]

/-- The second call has missed when the first fill is put and cleaned up, and enters
`SingleFlight::run` only then. -/
def lateEntry : List Act :=
  [.resolve "k" 0, .resolve "k" 0, .lookup 0, .lookup 1, .captureStale 0, .run 0, .callFetch 0] ++
    (settle 0 0 (some longSession) 0 ++ [.captureStale 1, .run 1, .callFetch 1] ++
      settle 1 1 (some longSession) 0)

theorem lateEntry_not_oneFetch : ∃ t, ColdMisses {} (init {}) "k" lateEntry t longSession longEntry ∧
    t.flight.fetches.length = 2 ∧ ¬ OneFetch (init {}) t "k" longSession := by
  have hrun : (exec (step {}) (init {}) lateEntry).map
      (fun t => (t.now, t.callers, t.flight.fills, t.flight.fetches.length)) =
      some (0, [⟨"k", .resolve 0 0, .answered (.ok (some longSession)) (.joined 0 0)⟩,
        ⟨"k", .resolve 0 0, .answered (.ok (some longSession)) (.joined 1 1)⟩],
        [⟨0, "k", .done 0 (.ok longEntry)⟩, ⟨1, "k", .done 1 (.ok longEntry)⟩], 2) := by decide +kernel
  obtain ⟨t,h,ht⟩ := Option.map_eq_some_iff.mp hrun
  simp only [Prod.mk.injEq] at ht
  obtain ⟨hnow,hcallers,hfills,hfetches⟩ := ht
  have hm := coldMisses_of_run h hnow (by simp [hcallers]) (by simp [hfills])
    (by simp [hfills, Phase.ended]) (by simp [OnlyResolves, Proceeds, init, SingleFlight.default])
    (by simp [settle, Proceeds, init, SingleFlight.default]) (by simp) (by simp)
  refine ⟨t,hm,hfetches,fun hone => ?_⟩
  have honce := hone.once
  rw [hfetches] at honce
  exact absurd honce (by decide)

end NioClient.Session
