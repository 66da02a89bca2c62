import NioClient.Session.Confinement
import NioClient.Session.Staleness

/-! # Monotonic reads

A fill puts its entry before it leaves the in-flight map, and only one fill of a
key is live; so once a fetch is stored nothing older can be cached or in flight.
-/
namespace NioClient.Session
open Execution
variable {cfg : ResolverConfig} {s t : State} {a : Act} {acts pre post : List Act} {key : TokenHash}
  {i : ℕ}

/-- Nothing older than fetch `i` is cached or in flight under `key`. -/
structure Newest (s : State) (key : TokenHash) (i : ℕ) : Prop where
  cached : ∀ x, s.cache.peek key = some x → i ≤ x.fetch
  flying : ∀ n, InFlight s.flight key n → i ≤ n

theorem Stored.lt_fetches (hl : s.flight.Logged cfg) {e : Entry} (h : Stored s.flight key i e) :
    i < s.flight.fetches.length := by
  obtain ⟨-,x,hx,-⟩ := h.fetched hl
  exact (List.getElem?_eq_some_iff.mp hx).1

theorem newest_put (h : Run cfg acts s) {f : ℕ} {fill : Fill} {e : Entry}
    (hs : step cfg s (.put f) = some t) (hf : s.flight.fills[f]? = some fill)
    (hp : fill.phase = .storing i e) : Newest t fill.key i := by
  have hlive : fill.phase.live := by simp [hp, Phase.live]
  have hfetch : fill.phase.fetch? = some i := by simp [hp, Phase.fetch?]
  constructor
  · intro x hx
    rcases step_peek (run_cacheSane h) hs hx with ⟨-,hne⟩ | ⟨g,fill',n,e',hg,hfill',hp',-,rfl⟩
    · exact absurd rfl (hne f fill rfl hf)
    · cases hg
      cases hf.symm.trans hfill'
      cases hp.symm.trans hp'
      exact le_rfl
  · intro n hn
    rcases hn.earlier hs with ⟨g,fill',hg,hkey,hlive',hn⟩ | rfl
    · obtain rfl := (run_wellFormed h).unique hf hg hlive hlive' hkey.symm
      cases hf.symm.trans hg
      exact (Option.some.inj (hfetch.symm.trans hn)).le
    · obtain ⟨x,hx,-⟩ := (run_logged h).call f fill i hf hfetch
      exact (List.getElem?_eq_some_iff.mp hx).1.le

protected theorem Newest.step (h : Newest s key i) (hrun : Run cfg acts s) (hi : i < s.flight.fetches.length)
    (hs : step cfg s a = some t) : Newest t key i := by
  constructor
  · intro x hx
    rcases step_peek (run_cacheSane hrun) hs hx with ⟨hold,-⟩ | ⟨f,fill,n,e,rfl,hf,hp,hkey,rfl⟩
    · exact h.cached x hold
    · exact h.flying n ⟨f,fill,hf,hkey, by simp [hp, Phase.live], by simp [hp, Phase.fetch?]⟩
  · intro n hn
    rcases hn.earlier hs with hold | rfl
    · exact h.flying n hold
    · exact hi.le

theorem run_newest (h : Run cfg acts s) {e : Entry} (hst : Stored s.flight key i e) : Newest s key i := by
  refine exec_induction (motive := fun _ s => Stored s.flight key i e → Newest s key i) ?_ ?_ h hst
  · rintro ⟨f,fill,hf,-⟩
    simp [init, SingleFlight.default] at hf
  · intro acts s a t hrun ih hs hst
    rcases hst.earlier hs with hold | ⟨f,fill,rfl,hf,rfl,hp⟩
    · exact (ih hold).step hrun (hold.lt_fetches (run_logged hrun)) hs
    · exact newest_put hrun hs hf hp

def Fetched (log : List Fetch) (key : TokenHash) (n : ℕ) (v : Option ResolvedSession) : Prop :=
  ∃ x, log[n]? = some x ∧ x.key = key ∧ x.returned = some (.ok v)

/-- A resolve that begins after another of the same key has answered from fetch
`i` answers from fetch `i` or a later one. -/
theorem monotonic_reads (h : Run cfg pre s) {c : ℕ} {now : ℕ} {wall : ℤ} {v : Option ResolvedSession}
    {source : Source} (hc : s.callers[c]? = some ⟨key, .resolve now wall, .answered (.ok v) source⟩)
    (h' : exec (step cfg) s post = some t) {c' now' : ℕ} {wall' : ℤ} {v' : Option ResolvedSession}
    {source' : Source} (hlate : s.callers.length ≤ c')
    (hc' : t.callers[c']? = some ⟨key, .resolve now' wall', .answered (.ok v') source'⟩) :
    Fetched s.flight.fetches key source.fetch v ∧ Fetched t.flight.fetches key source'.fetch v' ∧
      source.fetch ≤ source'.fetch := by
  obtain ⟨e,x,hfrom⟩ := answer_provenance h hc
  obtain ⟨e',x',hfrom'⟩ := answer_provenance (exec_append_iff.mpr ⟨s,h,h'⟩) hc'
  have hnewest := run_newest h hfrom.stored
  have hconf : Confined (source.fetch ≤ ·) key s.callers.length s :=
    confined_start (fun n hn => (hfrom.stored.lt_fetches (run_logged h)).le.trans hn)
      hnewest.cached hnewest.flying
  exact ⟨⟨x,hfrom.fetch,hfrom.fetch_key,hfrom.returned⟩,⟨x',hfrom'.fetch,hfrom'.fetch_key,hfrom'.returned⟩,
    (hconf.run h h').answer hlate hc'⟩

theorem monotonic_reads_refetch : let session : ResolvedSession := ⟨"alice", "acme", secs 3600⟩
    let first := coldResolve 0 0 "k" 0 ++ settle 0 0 (some session) 0
    let second := .tick (secs 31) :: coldResolve 1 1 "k" 0 ++ settle 1 1 none 0
    ∃ s t, Run {} first s ∧ exec (step {}) s second = some t ∧
      Fetched s.flight.fetches "k" 0 (some session) ∧ Fetched t.flight.fetches "k" 1 none ∧ 0 ≤ 1 := by
  intro session first second
  have hfirst : (exec (step {}) (init {}) first).map State.callers =
      some [⟨"k", .resolve 0 0, .answered (.ok (some session)) (.joined 0 0)⟩] := by decide +kernel
  have hsecond : (exec (step {}) (init {}) (first ++ second)).map (fun t => t.callers[1]?) =
      some (some ⟨"k", .resolve (secs 31) 0, .answered (.ok none) (.joined 1 1)⟩) := by decide +kernel
  obtain ⟨s,h,hs⟩ := Option.map_eq_some_iff.mp hfirst
  obtain ⟨t,h',ht⟩ := Option.map_eq_some_iff.mp hsecond
  obtain ⟨s',hs',hst⟩ := exec_append_iff.mp h'
  cases h.symm.trans hs'
  have hreads := monotonic_reads h (c := 0) (by rw [hs]; rfl) hst (by rw [hs]; exact le_rfl) ht
  exact ⟨s,t,h,hst,hreads⟩

end NioClient.Session
