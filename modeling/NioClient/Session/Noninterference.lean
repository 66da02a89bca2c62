import Mathlib.Data.Finset.Card
import NioClient.Session.TokenView

/-! # Tokens do not interfere below capacity

As long as nothing overflows, a run of the resolver is seen from one token as a run of
that token by itself, whatever the other tokens do.
-/
namespace NioClient.Session
open Execution
variable {cfg : ResolverConfig} {s t s₁ s₂ : State} {a : Act} {pre acts as acts₁ acts₂ : List Act}
  {key : TokenHash} {K : Finset TokenHash}

def CachesWithin (cfg : ResolverConfig) (K : Finset TokenHash) (acts : List Act) : Prop :=
  ∀ pre post s, acts = pre ++ post → Run cfg pre s → ∀ key x, s.cache.peek key = some x → key ∈ K

/-- The run stores no more distinct keys than the cache can hold. -/
def BelowCapacity (cfg : ResolverConfig) (acts : List Act) : Prop :=
  ∃ K : Finset TokenHash, K.card ≤ cfg.capacity ∧ CachesWithin cfg K acts

def observed (cfg : ResolverConfig) (key : TokenHash) : State → List Act → List Event
  | _, [] => []
  | s, a :: as =>
    (observe key s a).toList ++ ((step cfg s a).map fun t => observed cfg key t as).getD []

theorem observed_concat (h : exec (step cfg) s as = some t) (a : Act) :
    observed cfg key s (as ++ [a]) = observed cfg key s as ++ (observe key t a).toList := by
  induction as generalizing s with
  | nil =>
    cases h
    have hend : ((step cfg t a).map fun u => observed cfg key u []).getD [] = [] := by
      cases step cfg t a <;> rfl
    calc observed cfg key t [a] = (observe key t a).toList ++
          ((step cfg t a).map fun u => observed cfg key u []).getD [] := rfl
      _ = (observe key t a).toList := by rw [hend, List.append_nil]
  | cons b as ih =>
    obtain ⟨u,hu,hrest⟩ := exec_cons_iff.mp h
    rw [List.cons_append, observed, observed, hu, Option.map_some, Option.map_some, Option.getD_some,
      Option.getD_some, ih hrest, List.append_assoc]

/-- A key that is not cached leaves the cached keys fewer than all that are ever cached. -/
theorem length_lt_card {l : Lru TokenHash Cached} {es : List (TokenHash × Cached)} (hl : Lru.Refines l es)
    (hall : ∀ key x, l.peek key = some x → key ∈ K) (hkey : key ∈ K) (hnew : l.peek key = none) :
    es.length < K.card := by
  have hnot : key ∉ (es.map Prod.fst).toFinset := by
    intro hk
    obtain ⟨y,hy⟩ := hl.mem_keys.mp (List.mem_toFinset.mp hk)
    rw [hnew] at hy
    cases hy
  have hsub : insert key (es.map Prod.fst).toFinset ⊆ K := by
    intro k hk
    rcases Finset.mem_insert.mp hk with rfl | hk
    · exact hkey
    · obtain ⟨y,hy⟩ := hl.mem_keys.mp (List.mem_toFinset.mp hk)
      exact hall k y hy
  have hle := Finset.card_le_card hsub
  rw [Finset.card_insert_of_notMem hnot, List.toFinset_card_of_nodup hl.keys_nodup, List.length_map] at hle
  omega

theorem put_peek_other (hrun : Run cfg pre s) {f : ℕ} {fill : Fill} (h : s.put f = some t)
    (hf : s.flight.fills[f]? = some fill) (hkey : fill.key ≠ key) (hcard : K.card ≤ cfg.capacity)
    (hs : ∀ key x, s.cache.peek key = some x → key ∈ K) (ht : ∀ key x, t.cache.peek key = some x → key ∈ K) :
    t.cache.peek key = s.cache.peek key := by
  have hsane := run_cacheSane hrun
  obtain ⟨fill',n,e,hpend,rfl⟩ := put_eq h
  obtain ⟨hf',-⟩ := SingleFlight.pending_eq hpend
  cases hf.symm.trans hf'
  obtain ⟨es,hes⟩ := run_refines hrun
  cases hpeek : s.cache.peek key with
  | none =>
    cases hput : (s.cache.put fill.key ⟨e,n⟩).peek key with
    | none => rfl
    | some y =>
      by_cases hcap : s.cache.capacity = 0
      · rw [Lru.put, if_pos hcap, hpeek] at hput
        cases hput
      · rcases Lru.peek_put hcap hput with ⟨heq,-⟩ | ⟨-,hold⟩
        · exact absurd heq.symm hkey
        · exact hpeek.symm.trans hold ▸ rfl
  | some x =>
    by_contra hgone
    obtain ⟨hnew,hfull⟩ := hes.overflow (Ne.symm hkey) hpeek hgone
    rw [hsane.1, hes.len_eq] at hfull
    have hput : fill.key ∈ K := by
      by_cases hcap : cfg.capacity = 0
      · have hnone := hsane.2 hcap key
        rw [hpeek] at hnone
        cases hnone
      · refine ht fill.key ⟨e,n⟩ ?_
        rw [(hes.put fill.key ⟨e,n⟩).peek, hsane.1]
        exact RecencyList.find_store_self _ _ _ (Nat.pos_of_ne_zero hcap)
    have hroom := length_lt_card hes hs hput hnew
    omega

theorem step_seen (hrun : Run cfg pre s) (hs : step cfg s a = some t)
    (hkept : ∀ f, a = .put f → ∀ fill ∈ s.flight.fills[f]?, fill.key ≠ key →
      t.cache.peek key = s.cache.peek key) : Seen cfg key s t a := by
  cases a with
  | tick d => cases hs; rfl
  | resolve key' wall => cases hs; exact resolve_seen s key key' wall
  | lookup c => exact lookup_seen (run_cacheSane hrun) hs
  | forcedMiss c => exact forcedMiss_seen hs
  | captureStale c => exact captureStale_seen hs
  | run c => exact run_seen hrun hs
  | receive c => exact receive_seen hrun hs
  | cancel c => exact cancel_seen hs
  | callFetch f =>
    obtain ⟨flight,hflight,rfl⟩ := Option.map_eq_some_iff.mp hs
    exact callFetch_seen hrun hflight
  | fetchReturns f returned jitter wall =>
    obtain ⟨flight,hflight,rfl⟩ := Option.map_eq_some_iff.mp hs
    exact fetchReturns_seen hflight
  | fetchTimesOut f =>
    obtain ⟨flight,hflight,rfl⟩ := Option.map_eq_some_iff.mp hs
    exact fetchTimesOut_seen hflight
  | fetchPanics f =>
    obtain ⟨flight,hflight,rfl⟩ := Option.map_eq_some_iff.mp hs
    exact fetchPanics_seen hflight
  | put f => exact put_seen hrun hs (hkept f rfl)
  | cleanUp f =>
    obtain ⟨flight,hflight,rfl⟩ := Option.map_eq_some_iff.mp hs
    exact cleanUp_seen hrun hflight
  | evict key' => cases hs; exact evict_seen s key key'

/-- Seen from one token, a run below capacity is a run of that token by itself. -/
theorem run_view (h : Run cfg acts s) (hbelow : BelowCapacity cfg acts) (key : TokenHash) :
    exec (Token.step cfg) .start (observed cfg key (init cfg) acts) = some (view key s) := by
  obtain ⟨K,hcard,hwithin⟩ := hbelow
  refine exec_induction (motive := fun acts s => CachesWithin cfg K acts →
    exec (Token.step cfg) .start (observed cfg key (init cfg) acts) = some (view key s)) ?_ ?_ h hwithin
  · intro _
    rfl
  · intro as s a t has ih hs hwithin
    have hprev := ih fun pre post u hsplit => hwithin pre (post ++ [a]) u (by simp [hsplit])
    have hseen : Seen cfg key s t a := by
      refine step_seen has hs fun f ha fill hf hkey => ?_
      subst ha
      exact put_peek_other has hs hf hkey hcard (hwithin as [.put f] s rfl has)
        (hwithin _ [] t (by simp) (exec_concat_iff.mpr ⟨s,has,hs⟩))
    rw [observed_concat has, exec_append, hprev, Option.bind_some]
    rw [Seen] at hseen
    cases hobs : observe key s a with
    | none =>
      rw [hobs] at hseen
      rw [hseen]
      rfl
    | some event =>
      rw [hobs] at hseen
      exact exec_cons_iff.mpr ⟨_,hseen,rfl⟩

def CallerPhase.answer? : CallerPhase → Option ResolveResult
  | .answered answer _ => some answer
  | _ => none

def State.answersOf (s : State) (key : TokenHash) : List (CallerKind × Option ResolveResult) :=
  (s.callers.filter (Caller.ofKey key)).map fun x => (x.kind, x.phase.answer?)

def State.fetchesOf (s : State) (key : TokenHash) : List ℕ :=
  (s.flight.fetches.filter fun x => x.key = key).map Fetch.beganAt

def CallStage.answer? : CallStage → Option ResolveResult
  | .answered answer => some answer
  | _ => none

theorem answersOf_view (s : State) (key : TokenHash) :
    s.answersOf key = (view key s).callers.map fun x => (x.1, x.2.answer?) := by
  rw [State.answersOf, view, List.map_map]
  refine List.map_congr_left fun x _ => ?_
  obtain ⟨key',kind,phase⟩ := x
  cases phase <;> rfl

theorem fetchesOf_view (s : State) (key : TokenHash) : s.fetchesOf key = (view key s).fetches := by
  rw [State.fetchesOf, view, ← List.filterMap_eq_map, List.filterMap_filter]
  refine List.filterMap_congr fun x _ => ?_
  by_cases hkey : x.key = key <;> simp [seeFetch, hkey]

/-- Two runs below capacity that take the same steps on a token answer its callers
alike and fetch it at the same points, whatever else they do. -/
theorem tokens_independent (h₁ : Run cfg acts₁ s₁) (h₂ : Run cfg acts₂ s₂)
    (hbelow₁ : BelowCapacity cfg acts₁) (hbelow₂ : BelowCapacity cfg acts₂)
    (hsame : observed cfg key (init cfg) acts₁ = observed cfg key (init cfg) acts₂) :
    s₁.answersOf key = s₂.answersOf key ∧ s₁.fetchesOf key = s₂.fetchesOf key := by
  have hview₁ := run_view h₁ hbelow₁ key
  rw [hsame, run_view h₂ hbelow₂ key, Option.some.injEq] at hview₁
  rw [answersOf_view, answersOf_view, fetchesOf_view, fetchesOf_view, hview₁]
  exact ⟨rfl,rfl⟩

theorem cachesWithin_of_resolved (hall : ∀ key wall, .resolve key wall ∈ acts → key ∈ K) :
    CachesWithin cfg K acts := by
  rintro pre post s rfl hpre key x hx
  have hkeys : (∀ (c : ℕ) y, s.callers[c]? = some y → y.key ∈ K) ∧
      ∀ (f : ℕ) y, s.flight.fills[f]? = some y → y.key ∈ K := by
    refine exec_induction (motive := fun as s => (∀ key wall, .resolve key wall ∈ as → key ∈ K) →
      (∀ (c : ℕ) y, s.callers[c]? = some y → y.key ∈ K) ∧
        ∀ (f : ℕ) y, s.flight.fills[f]? = some y → y.key ∈ K) ?_ ?_ hpre
      fun key wall hmem => hall key wall (List.mem_append_left _ hmem)
    · intro _
      constructor <;> intro i y hy <;> simp [init, SingleFlight.default] at hy
    · intro as s a t _ ih hs hall
      obtain ⟨hcallers,hfills⟩ := ih fun key wall hmem => hall key wall (List.mem_append_left _ hmem)
      constructor
      · intro c y hy
        rcases step_callers hs hy with hold | ⟨z,hz,-⟩ | ⟨rfl,-⟩
        · exact hcallers c y hold
        · obtain ⟨y',hy',hkey,-⟩ := step_caller_later hs hz
          cases hy.symm.trans hy'
          exact hkey ▸ hcallers c z hz
        · rcases step_born hs hy with ⟨key,wall,rfl,rfl⟩ | ⟨c,z,-,hz,rfl⟩
          · exact hall key wall (by simp)
          · exact hcallers c z hz
      · intro f y hy
        rcases (step_flight hs).origin hy with ⟨z,hz,hkey,-⟩ | ⟨rfl,-⟩
        · exact hkey ▸ hfills f z hz
        · obtain ⟨c,z,-,hz,hkey,-⟩ := step_registered hs hy
          exact hkey ▸ hcallers c z hz
  obtain ⟨f,fill,hf,rfl,-⟩ := run_cached hpre hx
  exact hkeys.2 f fill hf

def alone : List Act := coldResolve 0 0 "k" 0 ++ settle 0 0 (some longSession) 0

def amid : List Act :=
  [.resolve "j" 0, .resolve "k" 0, .lookup 0, .lookup 1, .captureStale 0, .run 0, .callFetch 0, .captureStale 1,
    .run 1, .callFetch 1, .fetchReturns 0 (.ok none) .one 0] ++ settle 1 1 (some longSession) 0 ++
    [.put 0, .cleanUp 0, .receive 0]

theorem tokens_independent_amid : ∃ s₁ s₂, Run {} alone s₁ ∧ Run {} amid s₂ ∧
    s₁.answersOf "k" = s₂.answersOf "k" ∧ s₁.fetchesOf "k" = s₂.fetchesOf "k" := by
  have halone : (exec (step {}) (init {}) alone).isSome := by decide +kernel
  have hamid : (exec (step {}) (init {}) amid).isSome := by decide +kernel
  obtain ⟨s₁,h₁⟩ := Option.isSome_iff_exists.mp halone
  obtain ⟨s₂,h₂⟩ := Option.isSome_iff_exists.mp hamid
  have hbelow {acts : List Act} (hall : ∀ key wall, .resolve key wall ∈ acts → key ∈ ({"k","j"} : Finset TokenHash)) :
      BelowCapacity {} acts := ⟨{"k","j"}, by decide +kernel,cachesWithin_of_resolved hall⟩
  refine ⟨s₁,s₂,h₁,h₂,tokens_independent h₁ h₂ (hbelow ?_) (hbelow ?_) ?_⟩
  · intro key wall hmem
    simp [alone, coldResolve, settle] at hmem
    simp [hmem]
  · intro key wall hmem
    simp [amid, settle] at hmem
    rcases hmem with ⟨rfl,-⟩ | ⟨rfl,-⟩ <;> simp
  · decide +kernel

end NioClient.Session
