import NioClient.Session.MonotonicReads

/-! # Sign-out on the local node

`evict` empties the cache under one key and does not touch the single flight. A
fill whose fetch has begun when `evict` runs still delivers its session, to the
cache and to whoever joins it.
-/
namespace NioClient.Session
open Execution
variable {cfg : ResolverConfig} {s t u : State} {acts pre post : List Act} {key : TokenHash}

/-- After each `evict` of the run, a resolve that begins later answers with a
session only from a fetch that began later too. -/
def SignOutFinal (cfg : ResolverConfig) (acts : List Act) (s : State) : Prop :=
  ∀ pre key post u, acts = pre ++ .evict key :: post → Run cfg (pre ++ [.evict key]) u →
    ∀ c now wall session source, u.callers.length ≤ c →
      s.callers[c]? = some ⟨key, .resolve now wall, .answered (.ok (some session)) source⟩ →
      u.flight.fetches.length ≤ source.fetch ∧ Fetched s.flight.fetches key source.fetch (some session)

/-- No `evict` falls between the beginning of a fetch of its key that returns a
session and the clean-up of that fetch's fill. -/
def EvictsClear (cfg : ResolverConfig) (acts : List Act) (s : State) : Prop :=
  ∀ pre key post u, acts = pre ++ .evict key :: post → Run cfg pre u →
    ∀ n session, InFlight u.flight key n → ¬ Fetched s.flight.fetches key n (some session)

theorem evict_confined (hs : step cfg s (.evict key) = some t) :
    Confined (fun n => s.flight.fetches.length ≤ n ∨ InFlight s.flight key n) key
      t.callers.length t := by
  cases hs
  refine confined_start (fun n hn => Or.inl hn) (fun x hx => ?_) fun n hn => Or.inr hn
  simp at hx

/-- When every `evict` of a run is clear of the fills that return a session,
sign-out is final in the run. -/
theorem signOut_final (h : Run cfg acts s) (hclear : EvictsClear cfg acts s) :
    SignOutFinal cfg acts s := by
  rintro pre key post t rfl ht c now wall session source hc hans
  obtain ⟨u,hu,hevict⟩ := exec_concat_iff.mp ht
  have hpost : exec (step cfg) t post = some s := by
    rw [List.append_cons] at h
    obtain ⟨t',ht',hpost⟩ := exec_append_iff.mp h
    cases ht.symm.trans ht'
    exact hpost
  obtain ⟨e,x,hfrom⟩ := answer_provenance h hans
  have hfetched : Fetched s.flight.fetches key source.fetch (some session) :=
    ⟨x,hfrom.fetch,hfrom.fetch_key,hfrom.returned⟩
  refine ⟨?_,hfetched⟩
  rcases ((evict_confined hevict).run ht hpost).answer hc hans with hlate | hflying
  · cases hevict
    exact hlate
  · exact absurd hfetched (hclear pre key post u rfl hu source.fetch session hflying)

theorem signOut_final_refetch : let session : ResolvedSession := ⟨"alice", "acme", secs 3600⟩
    let first := coldResolve 0 0 "k" 0 ++ settle 0 0 (some session) 0
    let second := coldResolve 1 1 "k" 0 ++ settle 1 1 (some session) 0
    ∃ s, Run {} (first ++ .evict "k" :: second) s ∧ SignOutFinal {} (first ++ .evict "k" :: second) s := by
  intro session first second
  have hrun : (exec (step {}) (init {}) (first ++ .evict "k" :: second)).isSome := by decide +kernel
  obtain ⟨s,h⟩ := Option.isSome_iff_exists.mp hrun
  refine ⟨s,h,signOut_final h ?_⟩
  intro pre key post u hsplit hu n y hflying
  have hfirst : .evict key ∉ first := by simp [first, coldResolve, settle]
  have hsecond : .evict key ∉ second := by simp [second, coldResolve, settle]
  obtain ⟨rfl,hkey,rfl⟩ := (List.append_cons_inj_of_notMem hfirst hsecond).mp hsplit
  have hfills : (exec (step {}) (init {}) first).map (fun u => u.flight.fills.map (·.phase.live)) =
      some [false] := by decide +kernel
  obtain ⟨u',hu',hlive⟩ := Option.map_eq_some_iff.mp hfills
  cases hu.symm.trans hu'
  obtain ⟨f,fill,hf,-,hlivef,-⟩ := hflying
  have hmem : fill.phase.live ∈ u.flight.fills.map (·.phase.live) :=
    List.mem_map_of_mem (List.mem_of_getElem? hf)
  simp [hlive, hlivef] at hmem

/-- A key is evicted while its fetch is under way, and a later resolve joins the fill. -/
def lateFill (session : ResolvedSession) : List Act :=
  coldResolve 0 0 "k" 0 ++ .evict "k" :: [.resolve "k" 0, .lookup 1, .captureStale 1, .run 1] ++
    settle 1 0 (some session) 0

theorem lateFill_not_signOutFinal : let session : ResolvedSession := ⟨"alice", "acme", secs 3600⟩
    ∃ s, Run {} (lateFill session) s ∧ ¬ SignOutFinal {} (lateFill session) s := by
  intro session
  have hcaller : (exec (step {}) (init {}) (lateFill session)).map (fun s => s.callers[1]?) =
      some (some ⟨"k", .resolve 0 0, .answered (.ok (some session)) (.joined 0 0)⟩) := by decide +kernel
  have hevict : (exec (step {}) (init {}) (coldResolve 0 0 "k" 0 ++ [.evict "k"])).map
      (fun u => (u.callers.length, u.flight.fetches.length)) = some (1, 1) := by decide +kernel
  obtain ⟨s,h,hs⟩ := Option.map_eq_some_iff.mp hcaller
  obtain ⟨u,hu,hlen⟩ := Option.map_eq_some_iff.mp hevict
  obtain ⟨hcallers,hfetches⟩ := Prod.mk.inj hlen
  refine ⟨s,h,fun hfinal => ?_⟩
  obtain ⟨hlate,-⟩ := hfinal _ "k" _ u rfl hu 1 0 0 session _ hcallers.le hs
  rw [hfetches] at hlate
  exact absurd hlate (by decide)

end NioClient.Session
