import NioClient.Session.ResponseTime
import NioClient.Session.Service

/-! # A token in demand

A hit in the last tenth of an entry's TTL starts the fill of the next. So where a token in
service is resolved often enough, and neither its fetches nor the runtime take long, the next
entry is in L1 before the last one ends.
-/
namespace NioClient.Session
open Execution MachineTime
variable {cfg : ResolverConfig} {s t : State} {a : Act} {pre acts : List Act} {key : TokenHash} {horizon : ℤ}
  {x : Cached} {e : Entry} {δ gap limit τ : ℕ}

def CallerKind.began? : CallerKind → Option ℕ
  | .resolve now _ => some now
  | .refresh => none

def Recent (key : TokenHash) (gap : ℕ) (s : State) : Prop :=
  ∃ y ∈ s.callers, y.key = key ∧ ∃ now ∈ y.kind.began?, s.now ≤ now + gap

def Swift (key : TokenHash) (limit : ℕ) (s : State) : Prop :=
  ∀ fill ∈ s.flight.fills, fill.key = key → ∀ n, fill.phase = .fetching n →
    ∀ y ∈ s.flight.fetches[n]?, s.now ≤ y.beganAt + limit

instance (key : TokenHash) (gap : ℕ) : DecidablePred (Recent key gap) := fun s =>
  inferInstanceAs (Decidable (∃ y ∈ s.callers, _))

instance (key : TokenHash) (limit : ℕ) : DecidablePred (Swift key limit) := fun s =>
  have (p : Phase) : Decidable (∀ n, p = .fetching n → ∀ y ∈ s.flight.fetches[n]?, s.now ≤ y.beganAt + limit) :=
    match p with
    | .fetching n => decidable_of_iff (∀ y ∈ s.flight.fetches[n]?, s.now ≤ y.beganAt + limit) (by simp)
    | .registered | .storing _ _ | .cleaning _ _ | .done _ _ | .panicked _ => isTrue (by simp)
  inferInstanceAs (Decidable (∀ fill ∈ s.flight.fills, _))

/-- From `s` on the token is in service, a resolve of it begins in every gap, and its fetches
keep within the limit. -/
structure InDemand (cfg : ResolverConfig) (key : TokenHash) (horizon : ℤ) (gap limit : ℕ) (s : State)
    (acts : List Act) : Prop where
  service : Along (step cfg) (InService cfg key horizon) s acts
  recent : Throughout (step cfg) (Recent key gap) s acts
  swift : Throughout (step cfg) (Swift key limit) s acts

/-- A state of a timely run, with the token in demand. -/
structure Tended (cfg : ResolverConfig) (δ : ℕ) (key : TokenHash) (horizon : ℤ) (gap limit : ℕ) (s : State) :
    Prop where
  reached : ∃ acts, Timely cfg δ acts s
  held : Held cfg key horizon s
  recent : Recent key gap s
  swift : Swift key limit s

theorem step_still {R : State → Prop} (hs : step cfg s a = some t) (hR : R s) (hnot : ¬ R t)
    (hlater : ∀ d, R s → R (s.later d)) : t.now = s.now := by
  rcases step_time hs with heq | ⟨d,-,rfl⟩
  · exact heq
  · exact absurd (hlater d hR) hnot

theorem Timely.storing (h : Timely cfg δ acts s) {f n : ℕ} {fill : Fill} (hf : s.flight.fills[f]? = some fill)
    (hp : fill.phase = .storing n e) : s.now ≤ e.fetchedAt + δ := by
  obtain ⟨u,b,v,hpass,hnot,hv,hclock⟩ := h.since (P := fun w => w.flight.fills[f]? = some fill) (a := .put f)
    (by simp [init, SingleFlight.default]) hf fun w hw => fill_due hw (by rw [hp]; rfl)
  have htime : v.now = u.now := hpass.still fun heq => hnot (heq.2 ▸ hv)
  obtain ⟨y,hy,-,-,hold | ⟨fetched,jitter,wall,-,rfl⟩⟩ :=
    (step_flight hpass.step).entry_earlier hv (by rw [hp]; rfl)
  · -- an entry that was there before is not being stored for the first time
    have hrank := (fill_entered hpass.step hv hy fun heq => hnot (heq ▸ hy)).2.1
    rw [hp] at hrank
    cases hphase : y.phase <;> simp [hphase, Phase.rank, Phase.entry?] at hrank hold
  · rw [htime] at hclock
    cases fetched <;> exact hclock

theorem Timely.cleaning (h : Timely cfg δ acts s) {f n : ℕ} {fill : Fill} (hf : s.flight.fills[f]? = some fill)
    (hp : fill.phase = .cleaning n (.ok e)) : s.now ≤ e.fetchedAt + 2 * δ := by
  obtain ⟨u,b,v,hpass,hnot,hv,hclock⟩ := h.since (P := fun w => w.flight.fills[f]? = some fill) (a := .cleanUp f)
    (by simp [init, SingleFlight.default]) hf fun w hw => fill_due hw (by rw [hp]; rfl)
  obtain ⟨before,hu,-⟩ := hpass.before
  have htime : v.now = u.now := hpass.still fun heq => hnot (heq.2 ▸ hv)
  obtain ⟨y,hy,-,-,hold | ⟨-,m,hstoring⟩⟩ := (step_flight hpass.step).stored_earlier hv (by rw [hp]; rfl)
  · have hrank := (fill_entered hpass.step hv hy fun heq => hnot (heq ▸ hy)).2.1
    rw [hp] at hrank
    cases hphase : y.phase <;> simp [hphase, Phase.rank, Phase.stored?] at hrank hold
  · have hbound := hu.storing hy hstoring
    omega

theorem began?_eq {kind : CallerKind} {now : ℕ} : kind.began? = some now ↔ ∃ wall, kind = .resolve now wall := by
  cases kind <;> simp [CallerKind.began?]

theorem lookup_keeps {c d : ℕ} {y : Caller} (hs : s.lookup d = some t) (hd : d ≠ c)
    (hc : s.callers[c]? = some y) : t.callers[c]? = some y := by
  obtain ⟨key',now',wall',hy,rfl⟩ := lookup_eq hs
  have hlt := (List.getElem?_eq_some_iff.mp hc).1
  unfold State.afterLookup
  dsimp only
  split
  · rw [State.spawnRefresh, List.getElem?_append_left (by simpa [State.setCaller] using hlt), State.setCaller,
      List.getElem?_set_ne hd]
    exact hc
  · rw [State.setCaller, List.getElem?_set_ne hd]
    exact hc

theorem lookup_of_left {c now : ℕ} {wall : ℤ} (hs : step cfg s a = some t)
    (hc : s.callers[c]? = some ⟨key,.resolve now wall,.started⟩)
    (hleft : t.callers[c]? ≠ some ⟨key,.resolve now wall,.started⟩) : a = .lookup c := by
  have hother {d : ℕ} {y z : Caller} (hy : s.callers[d]? = some y) (hphase : y.phase ≠ .started)
      (ht : t.callers = s.callers.set d z) : False := by
    have hd : d ≠ c := by
      rintro rfl
      cases hc.symm.trans hy
      exact hphase rfl
    rw [ht, List.getElem?_set_ne hd] at hleft
    exact hleft hc
  cases a with
  | lookup d =>
    by_cases hd : d = c
    · rw [hd]
    · exact absurd (lookup_keeps hs hd hc) hleft
  | forcedMiss d =>
    obtain ⟨y,hy,hp,rfl⟩ := forcedMiss_eq hs
    exact (hother hy (by simp [hp]) rfl).elim
  | captureStale d =>
    obtain ⟨y,now',wall',hy,-,hp,rfl⟩ := captureStale_eq hs
    exact (hother hy (by simp [hp]) rfl).elim
  | run d =>
    obtain ⟨y,stale,hy,hp,rfl⟩ := run_eq hs
    exact (hother hy (by simp [hp]) rfl).elim
  | receive d =>
    obtain ⟨y,f,stale,fill,hy,hp,-,⟨n,r,-,rfl⟩ | ⟨n,-,rfl⟩⟩ := receive_eq hs <;>
      exact (hother hy (by simp [hp]) rfl).elim
  | cancel d =>
    obtain ⟨y,f,stale,hy,hp,rfl⟩ := cancel_eq hs
    exact (hother hy (by simp [hp]) rfl).elim
  | resolve key' wall' =>
    cases hs
    have hlt := (List.getElem?_eq_some_iff.mp hc).1
    rw [State.resolve, List.getElem?_append_left hlt] at hleft
    exact absurd hc hleft
  | put f =>
    obtain ⟨fill,n,e,-,rfl⟩ := put_eq hs
    exact absurd hc hleft
  | tick | evict =>
    cases hs
    exact absurd hc hleft
  | callFetch | fetchReturns | fetchTimesOut | fetchPanics | cleanUp =>
    obtain ⟨flight,-,rfl⟩ := Option.map_eq_some_iff.mp hs
    exact absurd hc hleft

/-- By `τ` the run to `t` comes to a state with `Q`; from there on the token is in demand and
`x` is cached. -/
abbrev Leads (cfg : ResolverConfig) (δ : ℕ) (key : TokenHash) (horizon : ℤ) (gap limit : ℕ) (x : Cached)
    (Q : State → Prop) (τ : ℕ) (t : State) : Prop :=
  Comes (step cfg) State.now (Due cfg) δ
    (fun w => Tended cfg δ key horizon gap limit w ∧ w.cache.peek key = some x) Q τ t

def Asked (key : TokenHash) (s : State) : Prop :=
  ∃ (c : ℕ) (wall : ℤ), s.callers[c]? = some ⟨key,.resolve s.now wall,.started⟩

theorem leads_asked {as : List Act}
    (h : Stretch (step cfg) State.now (Due cfg) δ
      (fun w => Tended cfg δ key horizon gap limit w ∧ w.cache.peek key = some x) s as t)
    (hticks : ∀ d, .tick d ∈ as → d = 1) (hstart : s.now < τ) (hlate : τ + gap ≤ t.now) :
    Leads cfg δ key horizon gap limit x (fun u => Asked key u ∧ τ ≤ u.now) (τ + gap) t := by
  have hclock (u : State) (b : Act) (v : State) (hb : b ∈ as) (hs : step cfg u b = some v) : v.now ≤ u.now + 1 := by
    rcases step_time hs with heq | ⟨d,rfl,rfl⟩
    · omega
    · rw [hticks d hb, State.later]
  obtain ⟨early,late,m,rfl,hm,hnow⟩ := exec_instant h.run hclock (by omega) hlate
  obtain ⟨y,hy,hkey,now,hbegan,hrecent⟩ := (h.right hm).all.start.1.recent
  obtain ⟨wall,hkind⟩ := began?_eq.mp hbegan
  obtain ⟨c,hc⟩ := List.getElem?_of_mem hy
  let P (w : State) : Prop := ∃ y, w.callers[c]? = some y ∧ y.key = key ∧ y.kind = .resolve now wall
  have hbegun {w : State} {as : List Act} (hw : Run cfg as w) (hP : P w) : now ≤ w.now := by
    obtain ⟨y,hy,-,hkind⟩ := hP
    exact run_startedAt hw hy hkind
  have hnot : ¬ P s := by
    intro hP
    obtain ⟨before,hs⟩ := h.all.start.1.reached
    have hle := hbegun hs.run hP
    omega
  obtain ⟨before,b,mid,u,v,rfl,hu,hPu,hv,⟨z,hz,hzkey,hzkind⟩,hmid,-⟩ := exec_since hm hnot ⟨y,hc,hkey,hkind⟩
  have hend : Stretch (step cfg) State.now (Due cfg) δ
      (fun w => Tended cfg δ key horizon gap limit w ∧ w.cache.peek key = some x) v (mid ++ late) t := by
    rw [List.append_cons, List.append_assoc] at h
    exact h.right (exec_concat_iff.mpr ⟨u,hu,hv⟩)
  have hstill : v.now = u.now :=
    step_still (R := fun w => ¬ P w) hv hPu (not_not_intro ⟨z,hz,hzkey,hzkind⟩) fun _ hR => hR
  have hle : now ≤ τ + gap := by
    obtain ⟨before,hreached⟩ := (h.right hm).all.start.1.reached
    have hle := hbegun hreached.run ⟨y,hc,hkey,hkind⟩
    omega
  rcases step_callers hv hz with hold | ⟨z',hz',hmove⟩ | ⟨-,hborn⟩
  · exact absurd ⟨z,hold,hzkey,hzkind⟩ hPu
  · refine absurd ⟨z',hz',?_,?_⟩ hPu
    · rw [← hzkey]
      cases hmove <;> rfl
    · rw [← hzkind]
      cases hmove <;> rfl
  · cases hborn with
    | resolve key' wall' =>
      cases hzkind
      obtain rfl : key' = key := hzkey
      rw [← hstill] at hz hle hrecent
      exact ⟨v,mid ++ late,hend,⟨⟨c,wall,hz⟩, by omega⟩,hle⟩
    | refresh => cases hzkind

theorem run_get (h : Run cfg acts s) (hx : s.cache.peek key = some x) : (s.cache.get key).1 = some x := by
  have hsane := run_cacheSane h
  have hcap : s.cache.capacity ≠ 0 := by
    intro hzero
    have hnone := hsane.2 (hsane.1 ▸ hzero) key
    simp [hx] at hnone
  rw [Lru.get_fst_eq hcap, hx]

theorem Tended.hits {c r : ℕ} {wall : ℤ} (h : Tended cfg δ key horizon gap limit s)
    (hcached : s.cache.peek key = some x) (hc : s.callers[c]? = some ⟨key,.resolve r wall,.started⟩)
    (hfetched : x.entry.fetchedAt ≤ r) (hfresh : r < x.entry.freshUntil) : Hits s c key r x.entry := by
  obtain ⟨before,hreached⟩ := h.reached
  obtain ⟨y,hy,hfull⟩ := h.held.cached
  cases hcached.symm.trans hy
  have hwall := (h.held.callers c _ hc rfl).2 r wall rfl
  exact ⟨⟨wall,hc,hfull.wallValid hwall⟩,⟨x.fetch,run_get hreached.run hcached⟩,hfetched,hfresh⟩

theorem leads_refresh (h : Leads cfg δ key horizon gap limit x (fun u => Asked key u ∧ τ ≤ u.now) (τ + gap) t)
    (hlate : τ + gap + δ < t.now) (hfetched : x.entry.fetchedAt ≤ τ) (hfresh : τ + gap < x.entry.freshUntil)
    (hdue : ∀ r, τ ≤ r → x.entry.refreshDue r) :
    Leads cfg δ key horizon gap limit x
      (fun v => (∃ d : ℕ, v.callers[d]? = some ⟨key,.refresh,.flying none⟩) ∧ τ ≤ v.now) (τ + gap + δ) t := by
  refine h.ensures hlate ?_
  rintro u - ⟨⟨c,wall,hc⟩,hτ⟩ hle
  refine ⟨fun w => w.callers[c]? = some ⟨key,.resolve u.now wall,.started⟩ ∧ τ ≤ w.now,.lookup c,⟨hc,hτ⟩,
    fun w hw => caller_due hw.1 rfl rfl,?_⟩
  rintro w b v hs hw - ⟨hwc,hwτ⟩ hnot
  have hvτ := hwτ.trans (step_now hs)
  obtain rfl := lookup_of_left hs hwc fun hvc => hnot ⟨hvc,hvτ⟩
  have hhits : Hits w c key u.now x.entry := hw.1.hits hw.2 hwc (by omega) (by omega)
  obtain ⟨wall',n,hlt,rfl⟩ := hhits.lookup hs
  rw [if_pos (hdue u.now hτ)] at hvτ ⊢
  exact ⟨⟨⟨w.callers.length, by simp [State.spawnRefresh, State.setCaller]⟩,hvτ⟩,le_rfl⟩

theorem leads_fill {τ' : ℕ} (h : Leads cfg δ key horizon gap limit x
      (fun v => (∃ d : ℕ, v.callers[d]? = some ⟨key,.refresh,.flying none⟩) ∧ τ ≤ v.now) τ' t)
    (hlate : τ' + δ < t.now) : Leads cfg δ key horizon gap limit x (fun v => ∃ (f : ℕ) (fill : Fill),
      v.flight.fills[f]? = some fill ∧ fill.key = key ∧ fill.phase.live ∧ τ ≤ v.now) (τ' + δ) t := by
  refine h.ensures hlate ?_
  rintro u - ⟨⟨d,hd⟩,hτ⟩ -
  refine ⟨fun w => w.callers[d]? = some ⟨key,.refresh,.flying none⟩ ∧ τ ≤ w.now,.run d,⟨hd,hτ⟩,
    fun w hw => refresh_due hw.1,?_⟩
  rintro w b v hs - hv ⟨hw,hwτ⟩ hnot
  have hvτ := hwτ.trans (step_now hs)
  have hmoved : v.callers[d]? ≠ some ⟨key,.refresh,.flying none⟩ := fun hvd => hnot ⟨hvd,hvτ⟩
  have hstill : v.now = w.now := step_still (R := fun w => w.callers[d]? = _) hs hw hmoved fun _ hR => hR
  obtain ⟨before,hreached⟩ := hv.1.reached
  obtain ⟨y,hy,-,-,rfl | hmove⟩ := step_caller_later hs hw
  · exact absurd hy hmoved
  · generalize hz : (⟨key,.refresh,.flying none⟩ : Caller) = z at hmove
    cases hmove with
    | join key' kind stale id f hf =>
      cases hz
      obtain ⟨fill,hfill,hkey,-,hlive⟩ := (run_wellFormed hreached.run).owner key id f hf
      exact ⟨⟨f,fill,hfill,hkey,hlive,hvτ⟩,hstill.le⟩
    | _ => cases hz

def Storing (key : TokenHash) (s : State) : Prop :=
  ∃ (f : ℕ) (fill : Fill) (n : ℕ) (e : Entry), s.flight.fills[f]? = some fill ∧ fill.key = key ∧
    fill.phase = .storing n e

theorem Held.storing_of_fetched (h : Held cfg key horizon t) (hs : Session.step cfg s a = some t) {f n : ℕ}
    {fill : Fill} (hf : s.flight.fills[f]? = some fill) (hkey : fill.key = key) (hp : fill.phase = .fetching n)
    (hleft : t.flight.fills[f]? ≠ some fill) : Storing key t := by
  obtain ⟨q,hq,hevolves⟩ := (step_flight hs).evolves hf
  have hsupplying := h.fills f _ hq hkey
  obtain ⟨id,k,p⟩ := fill
  dsimp only at hp hq hevolves hsupplying
  subst hp
  generalize a.event = event at hevolves
  generalize t.flight.fetches = log at hevolves
  cases hevolves with
  | rest => exact absurd hq hleft
  | next ev _ _ hnext =>
    cases hnext with
    | fetched n fetched jitter wall => exact ⟨f,_,n,_,hq,hkey,rfl⟩
    | failed | timedOut | panicked => exact hsupplying.elim

theorem leads_storing (h : Leads cfg δ key horizon gap limit x (fun v => ∃ (f : ℕ) (fill : Fill) (n : ℕ),
      v.flight.fills[f]? = some fill ∧ fill.key = key ∧ fill.phase = .fetching n) τ t)
    (hlate : τ + limit < t.now) : Leads cfg δ key horizon gap limit x (Storing key) (τ + limit) t := by
  obtain ⟨v,as,hst,⟨f,fill,n,hf,hkey,hp⟩,hle⟩ := h
  obtain ⟨before,hreached⟩ := hst.all.start.1.reached
  obtain ⟨y,hy,-⟩ := (run_logged hreached.run).call f fill n hf (by rw [hp]; rfl)
  have hbegan : v.flight.BeganAt f y.beganAt := ⟨fill,n,y,hf, by rw [hp]; rfl,hy,rfl⟩
  have hearly : y.beganAt ≤ τ := (run_began hreached.run hbegan).trans hle
  let R (w : State) : Prop := w.flight.fills[f]? = some fill ∧ w.flight.BeganAt f y.beganAt
  have hswift {w : State} (hw : Tended cfg δ key horizon gap limit w) (hR : R w) : w.now ≤ τ + limit := by
    obtain ⟨fill',m,z,hf',hm,hz,hbegan⟩ := hR.2
    cases hR.1.symm.trans hf'
    rw [hp] at hm
    cases hm
    have hbound := hw.swift fill (List.mem_of_getElem? hf') hkey n hp z hz
    omega
  have hend : ¬ R t := fun hR => absurd (hswift hst.last.1 hR) (Nat.not_le.mpr hlate)
  obtain ⟨u,b,w,hleaves⟩ := hst.exit (R := R) ⟨hf,hbegan⟩ hend
  obtain ⟨bs,hrest⟩ := hleaves.rest
  have hleft : w.flight.fills[f]? ≠ some fill :=
    fun hw => hleaves.outside ⟨hw,hleaves.inside.2.step hleaves.moved⟩
  have hstill : w.now = u.now :=
    step_still (R := R) hleaves.moved hleaves.inside hleaves.outside fun _ hR => hR
  refine ⟨w,bs,hrest,?_,hstill ▸ hswift hleaves.before.1 hleaves.inside⟩
  exact hrest.all.start.1.held.storing_of_fetched hleaves.moved hleaves.inside.1 hkey hp hleft

/-- What a fill of the token puts takes the place of `x`. -/
theorem not_leads_storing (h : Leads cfg δ key horizon gap limit x (Storing key) τ t) : t.now ≤ τ + δ := by
  by_contra hlate
  have hfalse : Leads cfg δ key horizon gap limit x (fun _ => False) (τ + δ) t := by
    refine h.ensures (Nat.lt_of_not_le hlate) ?_
    rintro u - ⟨f,fill,n,e,hf,hkey,hp⟩ -
    refine ⟨fun w => w.flight.fills[f]? = some fill,.put f,hf,fun w hw => fill_due hw (by rw [hp]; rfl),?_⟩
    intro w b v hs hw hv hwf hnot
    obtain ⟨before,hreached⟩ := hw.1.reached
    obtain ⟨q,hq,hevolves⟩ := (step_flight hs).evolves hwf
    obtain ⟨id,k,p⟩ := fill
    dsimp only at hkey hp hq hevolves
    subst hkey hp
    generalize hevent : b.event = event at hevolves
    generalize v.flight.fetches = log at hevolves
    cases hevolves with
    | rest => exact absurd hq hnot
    | next ev _ _ hnext =>
      cases hnext with
      | stored =>
        obtain rfl := Act.event_put.mp hevent
        have hput := put_stored hreached.run hs hwf rfl hw.2
        have hlater := replaced_earlier hreached.run hwf rfl hw.2
        cases hput.symm.trans hv.2
        exact absurd hlater (Nat.lt_irrefl _)
  obtain ⟨-,-,-,hv,-⟩ := hfalse
  exact hv

theorem Tended.fill_cases (h : Tended cfg δ key horizon gap limit s) (hcached : s.cache.peek key = some x)
    (hold : x.entry.fetchedAt + 2 * δ < s.now) {f : ℕ} {fill : Fill} (hf : s.flight.fills[f]? = some fill)
    (hkey : fill.key = key) (hlive : fill.phase.live) :
    fill.phase = .registered ∨ (∃ n, fill.phase = .fetching n) ∨ Storing key s := by
  have hsupplying := h.held.fills f fill hf hkey
  cases hp : fill.phase with
  | registered => exact Or.inl rfl
  | fetching n => exact Or.inr (Or.inl ⟨n,rfl⟩)
  | storing n e => exact Or.inr (Or.inr ⟨f,fill,n,e,hf,hkey,hp⟩)
  | cleaning n r =>
    rw [hp] at hsupplying
    cases r with
    | error e => exact hsupplying.elim
    | ok e =>
      -- a fill is not cleaned up so late
      obtain ⟨before,hreached⟩ := h.reached
      cases hcached.symm.trans hsupplying
      have hbound := hreached.cleaning hf hp
      dsimp only at hold
      omega
  | done n r =>
    rw [hp] at hlive
    cases hlive
  | panicked n =>
    rw [hp] at hsupplying
    exact hsupplying.elim

/-- A fill which a refresh has joined ends the life of `x` after its fetch and two steps. -/
theorem not_leads_fill {τ' : ℕ} (h : Leads cfg δ key horizon gap limit x (fun v => ∃ (f : ℕ) (fill : Fill),
      v.flight.fills[f]? = some fill ∧ fill.key = key ∧ fill.phase.live ∧ τ' ≤ v.now) τ t)
    (hold : x.entry.fetchedAt + 2 * δ < τ') : t.now ≤ τ + limit + 2 * δ := by
  by_contra hlate
  have hafter {τ' : ℕ} (hle : τ' ≤ τ + δ) (hfetching : Leads cfg δ key horizon gap limit x (fun v => ∃ (f : ℕ)
      (fill : Fill) (n : ℕ), v.flight.fills[f]? = some fill ∧ fill.key = key ∧ fill.phase = .fetching n) τ' t) :
      False := by
    have hbound := not_leads_storing (leads_storing hfetching (by omega))
    omega
  obtain ⟨v,as,hst,⟨f,fill,hf,hkey,hlive,hnow⟩,hle⟩ := h
  rcases hst.all.start.1.fill_cases hst.all.start.2 (by omega) hf hkey hlive with hreg | ⟨n,hp⟩ | hstoring
  · have hregistered : Leads cfg δ key horizon gap limit x (fun v => ∃ (f : ℕ) (fill : Fill),
        v.flight.fills[f]? = some fill ∧ fill.key = key ∧ fill.phase = .registered) τ t :=
      ⟨v,as,hst,⟨f,fill,hf,hkey,hreg⟩,hle⟩
    refine hafter le_rfl (hregistered.ensures (by omega) ?_)
    rintro u - ⟨g,y,hg,hykey,hyreg⟩ -
    refine ⟨fun w => w.flight.fills[g]? = some y,.callFetch g,hg,fun w hw => fill_due hw (by rw [hyreg]; rfl),?_⟩
    intro w b z hs _ _ hw hnot
    have hstill : z.now = w.now := step_still (R := fun w => w.flight.fills[g]? = _) hs hw hnot fun _ hR => hR
    obtain ⟨q,hq,hevolves⟩ := (step_flight hs).evolves hw
    obtain ⟨id,k,p⟩ := y
    dsimp only at hykey hyreg hq hevolves
    subst hyreg
    generalize b.event = event at hevolves
    generalize z.flight.fetches = log at hevolves
    cases hevolves with
    | rest => exact absurd hq hnot
    | next ev _ _ hnext =>
      cases hnext with
      | call => exact ⟨⟨g,_,_,hq,hykey,rfl⟩,hstill.le⟩
  · exact hafter (Nat.le_add_right τ δ) ⟨v,as,hst,⟨f,fill,n,hf,hkey,hp⟩,hle⟩
  · have hbound := not_leads_storing ⟨v,as,hst,hstoring,hle⟩
    omega

theorem span_lt {l1Ttl ttl span : ℕ} (hbound : 25 * (span + 1 + l1Ttl / 2 ^ 53) ≤ 2 * l1Ttl)
    (httl : 4 * l1Ttl ≤ 5 * ttl + 2) : 10 * span + ttl / 2 ^ 50 < ttl := by
  have hslack := Nat.lt_mul_div_succ l1Ttl (b := 2 ^ 53) (by norm_num)
  have hlost := Nat.div_mul_le_self ttl (2 ^ 50)
  generalize l1Ttl / 2 ^ 53 = slack at hslack hbound
  generalize ttl / 2 ^ 50 = lost at hlost ⊢
  by_contra hle
  norm_num at hslack hlost hle
  linarith

/-- `x` is replaced before it ends, wherever it was not yet due. -/
theorem renewed {as : List Act}
    (h : Stretch (step cfg) State.now (Due cfg) δ
      (fun w => Tended cfg δ key horizon gap limit w ∧ w.cache.peek key = some x) s as t)
    (hticks : ∀ d, .tick d ∈ as → d = 1) 
    (hundue : tenthF64 x.entry.effectiveTtl ≤ secsF64 (x.entry.freshUntil - s.now))
    (hbound : 25 * (gap + limit + 4 * δ + 2 + cfg.l1Ttl / 2 ^ 53) ≤ 2 * cfg.l1Ttl) : t.now < x.entry.freshUntil := by
  obtain ⟨y,hy,hfull⟩ := h.all.start.1.held.cached
  cases h.all.start.2.symm.trans hy
  have httl := hfull.ttl
  have hfresh := hfull.fresh
  obtain ⟨session,houtcome,-⟩ := hfull.session
  by_contra hended
  -- from `τ` on a hit is due for a refresh
  obtain ⟨span,hspan⟩ : ∃ span, span = gap + limit + 4 * δ + 1 := ⟨_,rfl⟩
  have hspanned : secsF64 span < tenthF64 x.entry.effectiveTtl := secsF64_lt_tenthF64 (span_lt (by omega) httl)
  obtain ⟨τ,hτ⟩ : ∃ τ, τ = x.entry.freshUntil - span := ⟨_,rfl⟩
  have hbefore : span < x.entry.freshUntil - s.now := by
    by_contra hle
    exact absurd ((secsF64_mono (Nat.not_lt.mp hle)).trans_lt hspanned) (not_lt.mpr hundue)
  have hdue (r : ℕ) (hr : τ ≤ r) : x.entry.refreshDue r := by
    have hremaining : x.entry.freshUntil - r ≤ span := by omega
    simp [Entry.refreshDue, houtcome, (secsF64_mono hremaining).trans_lt hspanned]
  have hasked : Leads cfg δ key horizon gap limit x (fun u => Asked key u ∧ τ ≤ u.now) (τ + gap) t :=
    leads_asked h hticks (by omega) (by omega)
  have hrefresh := leads_refresh hasked (by omega) (by omega) (by omega) hdue
  have hrenewed := not_leads_fill (leads_fill hrefresh (by omega)) (by omega)
  omega

theorem InDemand.left {as bs : List Act} (h : InDemand cfg key horizon gap limit s (as ++ bs))
    (ht : exec (step cfg) s as = some t) : InDemand cfg key horizon gap limit s as :=
  ⟨(along_append h.service ht).1,h.recent.left,h.swift.left⟩

theorem InDemand.tended (h : InDemand cfg key horizon gap limit s acts) (hpre : Run cfg pre s)
    (htimely : Timely cfg δ (pre ++ acts) t) (hheld : Held cfg key horizon s) :
    Throughout (step cfg) (Tended cfg δ key horizon gap limit) s acts := by
  rintro as bs u rfl hu
  rw [← List.append_assoc] at htimely
  have hreached := htimely.left (exec_append_iff.mpr ⟨s,hpre,hu⟩)
  exact ⟨⟨_,hreached⟩,exec_held hpre hheld (along_append h.service hu).1 hu,h.recent as bs u rfl hu,
    h.swift as bs u rfl hu⟩

theorem undue_of_put {f n : ℕ} {fill : Fill} (htimely : Timely cfg δ acts s) (hs : step cfg s (.put f) = some t)
    (hf : s.flight.fills[f]? = some fill) (hp : fill.phase = .storing n e) (hfull : e.Full cfg horizon)
    (hbound : 25 * (gap + limit + 4 * δ + 2 + cfg.l1Ttl / 2 ^ 53) ≤ 2 * cfg.l1Ttl) :
    tenthF64 e.effectiveTtl ≤ secsF64 (e.freshUntil - t.now) := by
  have hstored := htimely.storing hf hp
  have hnow : t.now = s.now := by
    rcases step_time hs with heq | ⟨d,hd,-⟩
    · exact heq
    · cases hd
  have hfresh := hfull.fresh
  have httl := hfull.ttl
  exact tenthF64_le_secsF64 (by omega)

theorem InDemand.fresh (h : InDemand cfg key horizon gap limit s acts) (hpre : Run cfg pre s)
    (htimely : Timely cfg δ (pre ++ acts) t) (hheld : Held cfg key horizon s) (hx : s.cache.peek key = some x)
    (hundue : x.entry.refreshDue s.now = false)
    (hbound : 25 * (gap + limit + 4 * δ + 2 + cfg.l1Ttl / 2 ^ 53) ≤ 2 * cfg.l1Ttl) :
    ∃ y, t.cache.peek key = some y ∧ y.entry.Full cfg horizon ∧ t.now < y.entry.freshUntil := by
  obtain ⟨s',hs',hrun⟩ := exec_append_iff.mp htimely.run
  cases hpre.symm.trans hs'
  have htended := h.tended hpre htimely hheld
  have hlatency := htimely.latency.right hpre
  have hticks (d : ℕ) (hd : .tick d ∈ acts) : d = 1 := htimely.ticks d (List.mem_append_right pre hd)
  obtain ⟨y,hy,hfull⟩ := (htended acts [] t (List.append_nil acts).symm hrun).held.cached
  refine ⟨y,hy,hfull,?_⟩
  rcases exec_entry (P := fun w => w.cache.peek key = some y) hrun hy with
    hall | ⟨early,b,late,u,v,rfl,hu,hnot,hv,hvy,hrest,hall⟩
  · cases hx.symm.trans hall.start
    refine renewed ⟨hrun,hlatency,fun as bs w hsplit hw => ⟨htended as bs w hsplit hw,hall as bs w hsplit hw⟩⟩
      hticks ?_ hbound
    obtain ⟨session,houtcome,-⟩ := hfull.session
    simpa [Entry.refreshDue, houtcome] using hundue
  · have hcome : exec (step cfg) s (early ++ [b]) = some v := exec_concat_iff.mpr ⟨u,hu,hv⟩
    have hservice : InService cfg key horizon u b := (along_append h.service hu).2.1
    obtain ⟨⟨before,hreached⟩,hheldu,-,-⟩ := htended early (b :: late) u rfl hu
    rw [List.append_cons] at htended hlatency hticks
    obtain ⟨z,hz,-⟩ := hheldu.cached
    rcases hheldu.cached_step hreached.run hv hservice hz with hkept | ⟨f,fill,n,e,rfl,hf,-,hp,-,hput⟩
    · exact absurd (hz.trans (hkept.symm.trans hvy)) hnot
    · cases hvy.symm.trans hput
      have hkeeps : Throughout (step cfg)
          (fun w => Tended cfg δ key horizon gap limit w ∧ w.cache.peek key = some ⟨e,n⟩) v late :=
        fun as bs w hsplit hw => ⟨htended.right hcome as bs w hsplit hw,hall as bs w hsplit hw⟩
      exact renewed ⟨hrest,hlatency.right hcome,hkeeps⟩ (fun d hd => hticks d (List.mem_append_right _ hd))
        (undue_of_put hreached hv hf hp hfull hbound) hbound

/-- Every resolve that begins with the token in demand is answered by its lookup. -/
theorem InDemand.answered (h : InDemand cfg key horizon gap limit s acts) (hpre : Run cfg pre s)
    (htimely : Timely cfg δ (pre ++ acts) t) (hheld : Held cfg key horizon s) (hx : s.cache.peek key = some x)
    (hundue : x.entry.refreshDue s.now = false)
    (hbound : 25 * (gap + limit + 4 * δ + 2 + cfg.l1Ttl / 2 ^ 53) ≤ 2 * cfg.l1Ttl)
    {c now : ℕ} {wall : ℤ} {phase : CallerPhase} (hnew : s.callers.length ≤ c)
    (hc : t.callers[c]? = some ⟨key,.resolve now wall,phase⟩) :
    phase = .started ∨ ∃ session n, phase = .answered (.ok (some session)) (.l1 n) := by
  obtain ⟨s',hs',hrun⟩ := exec_append_iff.mp htimely.run
  cases hpre.symm.trans hs'
  revert h htimely phase hc
  refine exec_induction (motive := fun acts t => InDemand cfg key horizon gap limit s acts →
    Timely cfg δ (pre ++ acts) t → ∀ phase, t.callers[c]? = some ⟨key,.resolve now wall,phase⟩ →
      phase = .started ∨ ∃ session n, phase = .answered (.ok (some session)) (.l1 n)) ?_ ?_ hrun
  · intro _ _ phase hc
    exact absurd (List.getElem?_eq_some_iff.mp hc).1 (Nat.not_lt.mpr hnew)
  · intro as m a u hm ih hu hdemand hreached phase hc
    rw [← List.append_assoc] at hreached
    have hmid := hreached.left (exec_append_iff.mpr ⟨s,hpre,hm⟩)
    obtain ⟨y,hy,hfull,hfresh⟩ := (hdemand.left hm).fresh hpre hmid hheld hx hundue hbound
    have hheldm := exec_held hpre hheld (along_append hdemand.service hm).1 hm
    rcases step_callers hu hc with hold | ⟨z,hz,hmove⟩ | ⟨-,hborn⟩
    · exact ih (hdemand.left hm) hmid phase hold
    · -- whoever looks up finds the entry fresh
      have hhit (hstarted : z = ⟨key,.resolve now wall,.started⟩) :
          judge y.entry now wall = .hit (y.entry.refreshDue now) := by
        subst hstarted
        have hwall := (hheldm.callers c _ hz rfl).2 now wall rfl
        exact judge_fresh (hfull.wallValid hwall) ((run_startedAt hmid.run hz rfl).trans_lt hfresh)
      generalize hz' : (⟨key,.resolve now wall,phase⟩ : Caller) = z' at hmove
      have hpast := fun phase' (hphase : z = ⟨key,.resolve now wall,phase'⟩) =>
        ih (hdemand.left hm) hmid phase' (hphase ▸ hz)
      cases hmove with
      | miss key' now' wall' hmiss =>
        cases hz'
        cases (hmiss y (run_get hmid.run hy)).symm.trans (hhit rfl)
      | expired key' now' wall' y' hy' hexp =>
        cases hz'
        cases hy.symm.trans hy'
        cases hexp.symm.trans (hhit rfl)
      | hit key' now' wall' y' hy' =>
        cases hz'
        cases hy.symm.trans hy'
        obtain ⟨session,houtcome,-⟩ := hfull.session
        exact Or.inr ⟨session,y.fetch, by rw [houtcome]⟩
      | forcedMiss | capture | join | receive | poisoned | cancel =>
        cases hz'
        simpa using hpast _ rfl
    · cases hborn with
      | resolve => exact Or.inl rfl

theorem throughout_instants {P : State → Prop} (hP : ∀ w d, P (w.later d) → P w)
    (h : Throughout (step cfg) P s acts) : Throughout (step cfg) P s (acts.flatMap Act.instants) := by
  obtain ⟨hs,halong⟩ := throughout_iff_along.mp h
  refine throughout_iff_along.mpr ⟨hs,along_flatMap exec_instants (fun w a ha => ?_) halong⟩
  cases a with
  | tick d =>
    induction d generalizing w with
    | zero => trivial
    | succ d ih =>
      have hlast : P ((w.later 1).later d) := by
        have hend := ha _ rfl
        rwa [Nat.add_comm d, ← Nat.add_assoc] at hend
      refine ⟨fun t ht => ?_,fun t ht => ?_⟩
      · cases ht
        exact hP _ _ hlast
      · cases ht
        refine ih (w.later 1) fun t ht => ?_
        cases ht
        exact hlast
  | _ => exact ⟨ha,fun _ _ => trivial⟩

theorem InDemand.instants (h : InDemand cfg key horizon gap limit s acts) :
    InDemand cfg key horizon gap limit s (acts.flatMap Act.instants) := by
  refine ⟨along_flatMap exec_instants (fun w a ha => ?_) h.service,
    throughout_instants (fun w d hw => ?_) h.recent,throughout_instants (fun w d hw => ?_) h.swift⟩
  · cases a with
    | tick d =>
      induction d generalizing w with
      | zero => trivial
      | succ d ih => exact ⟨trivial,fun t _ => ih t trivial⟩
    | _ => exact ⟨ha,fun _ _ => trivial⟩
  · obtain ⟨y,hy,hkey,now,hbegan,hle⟩ := hw
    exact ⟨y,hy,hkey,now,hbegan,(Nat.le_add_right w.now d).trans hle⟩
  · intro fill hfill hkey n hp y hy
    exact (Nat.le_add_right w.now d).trans (hw fill hfill hkey n hp y hy)

/-- Refresh-ahead does what it is for: where the gap between two resolves, the time of a fetch and
four delays of the runtime fit together into the last tenth of the shortest TTL, a token in demand is
in L1 and fresh at every instant, and no resolve of it waits for a fetch. -/
theorem answered_from_cache (hpre : Run cfg pre s) (hpunctual : Punctual cfg δ (pre ++ acts))
    (hheld : Held cfg key horizon s) (hx : s.cache.peek key = some x) (hundue : x.entry.refreshDue s.now = false)
    (hdemand : InDemand cfg key horizon gap limit s acts)
    (hbound : 25 * (gap + limit + 4 * δ + 2 + cfg.l1Ttl / 2 ^ 53) ≤ 2 * cfg.l1Ttl)
    (h : exec (step cfg) s acts = some t) :
    (∃ y, t.cache.peek key = some y ∧ t.now < y.entry.freshUntil) ∧
    ∀ (c : ℕ) now wall phase, s.callers.length ≤ c → t.callers[c]? = some ⟨key,.resolve now wall,phase⟩ →
      phase = .started ∨ ∃ session n, phase = .answered (.ok (some session)) (.l1 n) := by
  have htimely := timely_of_punctual (exec_append_iff.mpr ⟨s,hpre,h⟩) hpunctual
  rw [List.flatMap_append] at htimely
  have hpre' : Run cfg (pre.flatMap Act.instants) s := (exec_flatMap exec_instants _ _).trans hpre
  constructor
  · obtain ⟨y,hy,-,hfresh⟩ := hdemand.instants.fresh hpre' htimely hheld hx hundue hbound
    exact ⟨y,hy,hfresh⟩
  · intro c now wall phase hnew hc
    exact hdemand.instants.answered hpre' htimely hheld hx hundue hbound hnew hc

def warmUp : List Act :=
  coldResolve 0 0 "k" 0 ++ settle 0 0 (some longSession) 0 ++ [.tick 215,.resolve "k" 0,.lookup 1]

def hotToken : List Act :=
  [.tick 15,.resolve "k" 0,.lookup 2,.run 3,.callFetch 1] ++ settle 3 1 (some longSession) 0 ++
    [.tick 15,.resolve "k" 0,.lookup 4,.tick 15,.resolve "k" 0,.lookup 5]

theorem warmUp_state (h : Run { l1Ttl := 250 } warmUp s) : s.now = 215 ∧
    s.cache.peek "k" = some ⟨fillEntry { l1Ttl := 250 } 0 .one 0 (some longSession),0⟩ ∧
    Held { l1Ttl := 250 } "k" (secs 1) s := by
  let cfg : ResolverConfig := { l1Ttl := 250 }
  let e : Entry := fillEntry cfg 0 .one 0 (some longSession)
  have hstate : (exec (step cfg) (init cfg) warmUp).map (fun s =>
      (s.now,s.cache.peek "k",s.flight.fills,s.callers)) =
      some (215,some ⟨e,0⟩,[⟨0,"k",.done 0 (.ok e)⟩],
        [⟨"k",.resolve 0 0,.answered (.ok (some longSession)) (.joined 0 0)⟩,
          ⟨"k",.resolve 215 0,.answered (.ok (some longSession)) (.l1 0)⟩]) := by decide +kernel
  rw [h, Option.map_some, Option.some.injEq] at hstate
  simp only [Prod.mk.injEq] at hstate
  obtain ⟨hnow,hcached,hfills,hcallers⟩ := hstate
  refine ⟨hnow,hcached,⟨⟨_,hcached,fillEntry_full .one (by decide) (by decide)⟩,?_,?_⟩⟩
  · intro f fill hf _
    have hmem := List.mem_of_getElem? hf
    rw [hfills, List.mem_singleton] at hmem
    subst hmem
    trivial
  · intro c y hy _
    have hmem := List.mem_of_getElem? hy
    simp only [hcallers, List.mem_cons, List.not_mem_nil, or_false] at hmem
    rcases hmem with rfl | rfl <;>
      exact ⟨fun hp => (by cases hp),fun now wall hkind => (by cases hkind; decide)⟩

/-- The last of the resolves comes after the first entry has ended. -/
theorem answered_from_cache_hot : ∃ s t, Run { l1Ttl := 250 } warmUp s ∧
    InDemand { l1Ttl := 250 } "k" (secs 1) 18 0 s hotToken ∧ exec (step { l1Ttl := 250 }) s hotToken = some t ∧
    t.now = 260 ∧ (∃ y, t.cache.peek "k" = some y ∧ t.now < y.entry.freshUntil) ∧
    ∀ (c : ℕ) now wall phase, s.callers.length ≤ c → t.callers[c]? = some ⟨"k",.resolve now wall,phase⟩ →
      phase = .started ∨ ∃ session n, phase = .answered (.ok (some session)) (.l1 n) := by
  have hpre : (exec (step { l1Ttl := 250 }) (init { l1Ttl := 250 }) warmUp).isSome := by decide +kernel
  obtain ⟨s,hs⟩ := Option.isSome_iff_exists.mp hpre
  have hrun : (exec (step { l1Ttl := 250 }) (init { l1Ttl := 250 }) (warmUp ++ hotToken)).map State.now = some 260 := by
    decide +kernel
  obtain ⟨t,ht,hnow⟩ := Option.map_eq_some_iff.mp hrun
  obtain ⟨s',hs',hexec⟩ := exec_append_iff.mp ht
  cases hs.symm.trans hs'
  obtain ⟨hstart,hcached,hheld⟩ := warmUp_state hs
  have hconditions : ∀ s ∈ exec (step { l1Ttl := 250 }) (init { l1Ttl := 250 }) warmUp,
      Along (step { l1Ttl := 250 }) (InService { l1Ttl := 250 } "k" (secs 1)) s hotToken ∧
      Throughout (step { l1Ttl := 250 }) (Recent "k" 18) s hotToken ∧
      Throughout (step { l1Ttl := 250 }) (Swift "k" 0) s hotToken := by decide +kernel
  obtain ⟨hservice,hrecent,hswift⟩ := hconditions s hs
  have hdemand : InDemand { l1Ttl := 250 } "k" (secs 1) 18 0 s hotToken := ⟨hservice,hrecent,hswift⟩
  have hpunctual : Punctual { l1Ttl := 250 } 0 (warmUp ++ hotToken) := punctual_of_rests (by decide +kernel)
  refine ⟨s,t,hs,hdemand,hexec,hnow,?_⟩
  refine answered_from_cache hs hpunctual hheld hcached ?_ hdemand (by decide) hexec
  rw [hstart]
  decide +kernel

end NioClient.Session
