import NioClient.Session.LruRefinement
import NioClient.Session.MonotonicReads

/-! # How entries leave the cache

A forced miss inspects an entry in one section and removes by key in another. A
fill of the same key which puts a valid entry in between loses it.
-/
namespace NioClient.Session
open Execution RecencyList
variable {cfg : ResolverConfig} {s t : State} {a : Act} {acts : List Act} {key : TokenHash} {x : Cached}

/-- How the entry `x` of `key` may leave the cache in a step from `s` into `t`. -/
inductive Departure (cfg : ResolverConfig) (s t : State) (key : TokenHash) (x : Cached) : Act → Prop
  | evicted : Departure cfg s t key x (.evict key)
  /-- The cache is full, and the `put` is of a key which it does not hold. -/
  | overflow (f fill n e) (hp : s.flight.pending f = some (fill, n, e)) (hne : key ≠ fill.key)
      (hnew : s.cache.peek fill.key = none) (hfull : cfg.capacity ≤ s.cache.len) :
      Departure cfg s t key x (.put f)
  /-- The `put` is that of a later fill of the key. -/
  | replaced (f fill n e) (hp : s.flight.pending f = some (fill, n, e)) (hkey : fill.key = key)
      (hlater : x.fetch < n) (hput : t.cache.peek key = some ⟨e, n⟩) : Departure cfg s t key x (.put f)
  /-- The session has expired at the wall time which the removing resolve has read. -/
  | expired (c now wall) (hc : s.callers[c]? = some ⟨key, .resolve now wall, .expired⟩)
      (hexp : x.entry.wallValid wall = false) : Departure cfg s t key x (.forcedMiss c)

/-- In every step of the run, what leaves the cache leaves it in one of these ways. -/
def FillsKept (cfg : ResolverConfig) (acts : List Act) : Prop :=
  ∀ pre a post s t, acts = pre ++ a :: post → Run cfg pre s → step cfg s a = some t →
    ∀ key x, s.cache.peek key = some x → t.cache.peek key ≠ some x → Departure cfg s t key x a

def CallerKind.wall? : CallerKind → Option ℤ
  | .resolve _ wall => some wall
  | .refresh => none

/-- While a resolve has yet to remove the expired session that it has found, no fill
puts an entry under its key that is valid at the wall time it read. -/
def PutsClear (s : State) : Act → Prop
  | .put f => ∀ p ∈ s.flight.pending f, ∀ y ∈ s.callers, y.key = p.1.key → y.phase = .expired →
    ∀ wall ∈ y.kind.wall?, p.2.2.wallValid wall = false
  | _ => True

instance (s : State) (a : Act) : Decidable (PutsClear s a) := by
  unfold PutsClear
  split <;> infer_instance

theorem judge_expired {e : Entry} {now : ℕ} {wall : ℤ} (h : judge e now wall = .expired) :
    e.wallValid wall = false := by
  unfold judge at h
  split at h
  · split at h <;> cases h
  · rename_i hvalid
    exact Bool.eq_false_of_not_eq_true hvalid

def RemovesExpired (s : State) : Prop :=
  ∀ (c : ℕ) key kind, s.callers[c]? = some ⟨key, kind, .expired⟩ →
    ∃ now wall, kind = .resolve now wall ∧
      ∀ x, s.cache.peek key = some x → x.entry.wallValid wall = false

protected theorem RemovesExpired.step (h : RemovesExpired s) (hsane : CacheSane cfg s)
    (hclear : PutsClear s a) (hs : step cfg s a = some t) : RemovesExpired t := by
  intro c key kind hc
  rcases step_callers hs hc with hc | ⟨z,hz,hmove⟩ | ⟨-,hborn⟩
  · obtain ⟨now,wall,rfl,hexp⟩ := h c key kind hc
    refine ⟨now,wall,rfl,fun x hx => ?_⟩
    rcases step_peek hsane hs hx with ⟨hold,-⟩ | ⟨f,fill,n,e,rfl,hf,hp,rfl,rfl⟩
    · exact hexp x hold
    · have hpend : s.flight.pending f = some (fill,n,e) := by simp [SingleFlight.pending, hf, hp]
      exact hclear (fill,n,e) hpend _ (List.mem_of_getElem? hc) rfl rfl wall rfl
  · generalize hc' : (⟨key,kind,.expired⟩ : Caller) = z' at hmove
    cases hmove with
    | expired key now wall y hy hexp =>
      cases hc'
      refine ⟨now,wall,rfl,fun x hx => ?_⟩
      rcases step_peek hsane hs hx with ⟨hold,-⟩ | ⟨f,fill,n,e,rfl,-⟩
      · cases hold.symm.trans hy
        exact judge_expired hexp
      · -- a `put` moves no caller
        obtain ⟨fill',n',e',-,rfl⟩ := put_eq hs
        cases hz.symm.trans hc
    | receive key' kind' f stale fill n result hf hp =>
      have hjoined := conclude_joined f n result stale
      rw [← (Caller.mk.inj hc').2.2] at hjoined
      cases hjoined
    | _ => cases hc'
  · cases hborn

theorem run_removesExpired (h : Run cfg acts s) (hclear : Along (step cfg) PutsClear (init cfg) acts) :
    RemovesExpired s := by
  refine exec_induction_along (motive := fun _ s => RemovesExpired s) ?_ ?_ hclear h
  · intro c key kind hc
    simp [init] at hc
  · intro as m a u hm hG ih hu
    exact ih.step (run_cacheSane hm) hG hu

theorem run_refines (h : Run cfg acts s) : ∃ es, Lru.Refines s.cache es := by
  refine exec_invariant (I := fun s => ∃ es, Lru.Refines s.cache es) ?_ ⟨[],Lru.refines_new cfg.capacity⟩ h
  rintro s a t ⟨es,hes⟩ hs
  cases step_cache hs with
  | stay he => exact ⟨es,he ▸ hes⟩
  | get key he => exact ⟨_,he ▸ (hes.get key).2⟩
  | remove key he => exact ⟨_,he ▸ hes.remove key⟩
  | put f fill n e ha hf hp he => exact ⟨_,he ▸ hes.put fill.key ⟨e,n⟩⟩

theorem replaced_earlier (h : Run cfg acts s) {f n : ℕ} {fill : Fill} {e : Entry}
    (hf : s.flight.fills[f]? = some fill) (hp : fill.phase = .storing n e)
    (hx : s.cache.peek fill.key = some x) : x.fetch < n := by
  have hstored := run_cached h hx
  have hfetch : fill.phase.fetch? = some n := by simp [hp, Phase.fetch?]
  have hle : x.fetch ≤ n :=
    (run_newest h hstored).flying n ⟨f,fill,hf,rfl, by simp [hp, Phase.live],hfetch⟩
  have hne : x.fetch ≠ n := by
    rintro rfl
    -- the fill that stored `x` is past its put, the one about to put is not
    obtain ⟨g,fill',hg,-,hfetch',hentry⟩ := hstored
    obtain ⟨y,hy,hyf,-⟩ := (run_logged h).call f fill x.fetch hf hfetch
    obtain ⟨y',hy',hyg,-⟩ := (run_logged h).call g fill' x.fetch hg hfetch'
    cases hy.symm.trans hy'
    obtain rfl : f = g := hyf.symm.trans hyg
    cases hf.symm.trans hg
    simp [hp, Phase.stored?] at hentry
  omega

theorem put_departure (h : Run cfg acts s) {f : ℕ} (hs : step cfg s (.put f) = some t)
    (hx : s.cache.peek key = some x) (hgone : t.cache.peek key ≠ some x) :
    Departure cfg s t key x (.put f) := by
  have hsane := run_cacheSane h
  obtain ⟨fill,n,e,hpend,rfl⟩ := put_eq hs
  obtain ⟨hf,hp⟩ := SingleFlight.pending_eq hpend
  obtain ⟨es,hes⟩ := run_refines h
  by_cases hkey : key = fill.key
  · subst hkey
    have hcap : 0 < cfg.capacity := by
      by_contra hzero
      have hnone := hsane.2 (Nat.eq_zero_of_not_pos hzero) fill.key
      simp [hx] at hnone
    have hput : (s.cache.put fill.key ⟨e,n⟩).peek fill.key = some ⟨e,n⟩ := by
      rw [(hes.put fill.key ⟨e,n⟩).peek, hsane.1]
      exact find_store_self fill.key _ es hcap
    exact .replaced f fill n e hpend rfl (replaced_earlier h hf hp hx) hput
  · obtain ⟨hnew,hfull⟩ := hes.overflow hkey hx hgone
    rw [hsane.1] at hfull
    exact .overflow f fill n e hpend hkey hnew hfull

/-- When no valid entry is put between the two sections of a forced miss, no
completed fill is lost. -/
theorem fills_kept (hclear : Along (step cfg) PutsClear (init cfg) acts) : FillsKept cfg acts := by
  rintro pre a post s t rfl hpre hs key x hx hgone
  have hexpired := run_removesExpired hpre (along_append hclear hpre).1
  cases step_cache hs with
  | stay he => exact absurd (by rw [he, hx]) hgone
  | get key' he => exact absurd (by rw [he, Lru.peek_get, hx]) hgone
  | put f fill n e ha =>
    subst ha
    exact put_departure hpre hs hx hgone
  | remove key' he ha =>
    by_cases hkey : key = key'
    · subst hkey
      rcases ha with rfl | ⟨c,⟨key',kind,phase⟩,rfl,hc,rfl,rfl⟩
      · exact .evicted
      · obtain ⟨now,wall,rfl,hexp⟩ := hexpired c key' kind hc
        exact .expired c now wall hc (hexp x hx)
    · exact absurd (by rw [he, Lru.peek_remove_ne hkey, hx]) hgone

def shortSession : ResolvedSession := ⟨"alice", "acme", secs 100⟩
def longSession : ResolvedSession := ⟨"alice", "acme", secs 3600⟩

theorem fills_kept_refill :
    FillsKept {} (coldResolve 0 0 "k" 0 ++ settle 0 0 (some shortSession) 0 ++
      [.resolve "k" (secs 101), .lookup 1, .forcedMiss 1, .captureStale 1, .run 1, .callFetch 1] ++
      settle 1 1 (some longSession) (secs 101)) :=
  fills_kept (by decide +kernel)

/-- Two resolves find the expired session. The first removes it and its fill stores
another; then the second removes what that fill has stored. -/
def staleRemoval : List Act :=
  coldResolve 0 0 "k" 0 ++ settle 0 0 (some shortSession) 0 ++
    [.resolve "k" (secs 101), .lookup 1, .resolve "k" (secs 101), .lookup 2, .forcedMiss 1,
      .captureStale 1, .run 1, .callFetch 1] ++
    settle 1 1 (some longSession) (secs 101)

theorem staleRemoval_not_fillsKept : ¬ FillsKept {} (staleRemoval ++ [.forcedMiss 2]) := by
  have hrun : (exec (step {}) (init {}) staleRemoval).map
      (fun s => (s.callers[2]?, (s.cache.peek "k").map fun x => x.entry.outcome)) =
      some (some ⟨"k", .resolve 0 (secs 101), .expired⟩, some (some longSession)) := by decide +kernel
  obtain ⟨s,h,hs⟩ := Option.map_eq_some_iff.mp hrun
  obtain ⟨hc,hcached⟩ := Prod.mk.inj hs
  obtain ⟨x,hx,houtcome⟩ := Option.map_eq_some_iff.mp hcached
  intro hkept
  have hmiss : step {} s (.forcedMiss 2) =
      some ({ s with cache := s.cache.remove "k" }.setCaller 2 ⟨"k", .resolve 0 (secs 101), .expired⟩
        .missed) := by
    simp [step, State.forcedMiss, hc]
  have hdeparture := hkept staleRemoval (.forcedMiss 2) [] s _ rfl h hmiss "k" x hx (by simp [State.setCaller])
  cases hdeparture with
  | expired _ now wall hc' hexp =>
    cases hc.symm.trans hc'
    rw [Entry.wallValid, houtcome] at hexp
    exact absurd hexp (by decide)

end NioClient.Session
