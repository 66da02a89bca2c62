import NioClient.Session.Provenance

/-! # Confining what later callers can see

Fix a key and a predicate on fetch numbers. When in some state the predicate
holds of the cached value of the key, of the call of its live fill and of every
call still to be made, it holds of every answer to a caller that starts later.
-/
namespace NioClient.Session
open Execution
variable {cfg : ResolverConfig} {s t : State} {a : Act} {acts as : List Act} {P : ℕ → Prop}
  {key : TokenHash} {C : ℕ}

/-- Whatever caller `x` holds, awaits or was answered with comes from a fetch in `P`. -/
def CallerConfined (P : ℕ → Prop) (s : State) (x : Caller) : Prop :=
  match x.phase with
  | .flying stale => ∀ y ∈ stale, P y.fetch
  | .waiting f stale => (∀ (fill : Fill) (n : ℕ), s.flight.fills[f]? = some fill →
      fill.phase.fetch? = some n → P n) ∧ ∀ y ∈ stale, P y.fetch
  | .answered _ source => P source.fetch
  | _ => True

def InFlight (flight : SingleFlight) (key : TokenHash) (n : ℕ) : Prop :=
  ∃ (f : ℕ) (fill : Fill), flight.fills[f]? = some fill ∧ fill.key = key ∧ fill.phase.live ∧
    fill.phase.fetch? = some n

theorem InFlight.earlier {n : ℕ} (h : InFlight t.flight key n) (hs : step cfg s a = some t) :
    InFlight s.flight key n ∨ n = s.flight.fetches.length := by
  obtain ⟨f,fill',hf',hkey',hlive',hn⟩ := h
  rcases (step_flight hs).fetch_earlier hf' hn with ⟨fill,hf,hkey,hn,hlive⟩ | rfl
  · exact Or.inl ⟨f,fill,hf,hkey.trans hkey',hlive hlive',hn⟩
  · exact Or.inr rfl

/-- From caller number `C` on, all that callers of `key` can see is in `P`. -/
structure Confined (P : ℕ → Prop) (key : TokenHash) (C : ℕ) (s : State) : Prop where
  later : ∀ n, s.flight.fetches.length ≤ n → P n
  cached : ∀ x, s.cache.peek key = some x → P x.fetch
  flying : ∀ n, InFlight s.flight key n → P n
  callers : ∀ c x, C ≤ c → s.callers[c]? = some x → x.key = key → CallerConfined P s x

theorem confined_start (later : ∀ n, s.flight.fetches.length ≤ n → P n)
    (cached : ∀ x, s.cache.peek key = some x → P x.fetch)
    (flying : ∀ n, InFlight s.flight key n → P n) : Confined P key s.callers.length s := by
  refine ⟨later,cached,flying,fun c x hc hx => ?_⟩
  have hlt := (List.getElem?_eq_some_iff.mp hx).1
  omega

protected theorem CallerConfined.step {x : Caller} (h : CallerConfined P s x)
    (later : ∀ n, s.flight.fetches.length ≤ n → P n) (hs : step cfg s a = some t) :
    CallerConfined P t x := by
  obtain ⟨key,kind,phase⟩ := x
  cases phase with
  | waiting f stale =>
    refine ⟨fun fill' n hf' hn => ?_,h.2⟩
    rcases (step_flight hs).fetch_earlier hf' hn with ⟨fill,hf,-,hn,-⟩ | rfl
    · exact h.1 fill n hf hn
    · exact later _ le_rfl
  | flying | answered => exact h
  | started | expired | missed | cancelled | panicked => trivial

theorem conclude_confined {f n : ℕ} {result : Except ResolveError Entry} {kind : CallerKind}
    {stale : Option Candidate} (hn : P n) (hstale : ∀ y ∈ stale, P y.fetch) :
    CallerConfined P s ⟨key, kind, State.conclude f n result stale⟩ := by
  cases result with
  | ok e => exact hn
  | error e =>
    simp only [State.conclude]
    split
    · cases stale with
      | none => exact hn
      | some y => exact hstale y rfl
    · exact hn

theorem candidate_confined (hcached : ∀ x, s.cache.peek key = some x → P x.fetch) {now : ℕ} {wall : ℤ} :
    ∀ y ∈ s.candidate cfg key now wall, P y.fetch := by
  intro y hy
  simp only [State.candidate, Option.bind_eq_bind, Option.mem_def, Option.bind_eq_some_iff] at hy
  obtain ⟨x,hx,⟨session,fetchedAt⟩,-,hy⟩ := hy
  cases hy
  exact hcached x hx

protected theorem Confined.step (h : Confined P key C s) (hw : s.flight.WellFormed) (hcs : CacheSane cfg s)
    (hs : step cfg s a = some t) : Confined P key C t := by
  have hmove := step_flight hs
  have hflying : ∀ n, InFlight t.flight key n → P n := by
    intro n hn
    rcases hn.earlier hs with hold | rfl
    · exact h.flying n hold
    · exact h.later _ le_rfl
  constructor
  · exact fun n hn => h.later n (hmove.fetches_length.trans hn)
  · intro x hx
    rcases step_peek hcs hs hx with ⟨hold,-⟩ | ⟨f,fill,n,e,rfl,hf,hp,hkey,rfl⟩
    · exact h.cached x hold
    · exact h.flying n ⟨f,fill,hf,hkey, by simp [hp, Phase.live], by simp [hp, Phase.fetch?]⟩
  · exact hflying
  · intro c y hc hy hkey
    rcases step_callers hs hy with hold | ⟨x,hx,hxy⟩ | ⟨-,hborn⟩
    · exact (h.callers c y hc hold hkey).step h.later hs
    · have hxc : x.key = key → CallerConfined P s x := h.callers c x hc hx
      cases hxy with
      | miss | expired | forcedMiss | poisoned | cancel => trivial
      | hit key' now wall z hz => cases hkey; exact h.cached z hz
      | capture key' now wall => cases hkey; exact candidate_confined h.cached
      | join key' kind stale id f hf =>
        obtain ⟨fill,hfill,hfkey,-,hlive⟩ := (hw.move hmove).owner key' id f hf
        refine ⟨fun fill' n hf' hn => ?_,hxc hkey⟩
        cases hfill.symm.trans hf'
        exact hflying n ⟨f,fill,hfill,hfkey.trans hkey,hlive,hn⟩
      | receive key' kind f stale fill n result hf hp =>
        obtain ⟨hfetch,hstale⟩ := hxc hkey
        exact conclude_confined (hfetch fill n hf (by simp [hp, Phase.fetch?])) hstale
    · cases hborn with
      | resolve => trivial
      | refresh => intro y hy; cases hy

theorem Confined.run (h : Confined P key C s) (hrun : Run cfg acts s)
    (hexec : exec (step cfg) s as = some t) : Confined P key C t := by
  refine exec_induction (motive := fun _ t => Confined P key C t) h ?_ hexec
  intro as m a u hm ih hu
  have hrun' : Run cfg (acts ++ as) m := exec_append_iff.mpr ⟨s,hrun,hm⟩
  exact ih.step (run_wellFormed hrun') (run_cacheSane hrun') hu

theorem Confined.answer (h : Confined P key C s) {c : ℕ} (hc : C ≤ c) {kind : CallerKind}
    {answer : ResolveResult} {source : Source}
    (hx : s.callers[c]? = some ⟨key, kind, .answered answer source⟩) : P source.fetch :=
  h.callers c _ hc hx rfl

end NioClient.Session
