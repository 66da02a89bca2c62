import NioClient.Session.Deadlines
import NioClient.Session.LruRefinement
import NioClient.Session.Staleness

/-! # Refresh-ahead

The last tenth in which a hit spawns a refresh is that of the TTL drawn for the entry.
`fill` may cut the fresh window of the entry to what remains of its session, which can be
as short as the whole of that tenth. Where just a tenth remains, it is the rounding of
doubles that decides.
-/
namespace NioClient.Session
open Execution FloatingPoint MachineTime
variable {cfg : ResolverConfig} {s t : State} {a : Act} {acts : List Act} {key : TokenHash} {e : Entry}
  {c now : ℕ}

/-- Less than a tenth of the fresh window of a positive entry remains. -/
def Entry.LastTenth (e : Entry) (now : ℕ) : Prop :=
  e.outcome.isSome ∧ 10 * (e.freshUntil - now) < e.freshUntil - e.fetchedAt

instance (e : Entry) (now : ℕ) : Decidable (e.LastTenth now) := inferInstanceAs (Decidable (_ ∧ _))

/-- Resolve `c` of `key`, which began at `now`, is about to look up, and it will hit `e`. -/
structure Hits (s : State) (c : ℕ) (key : TokenHash) (now : ℕ) (e : Entry) : Prop where
  started : ∃ wall, s.callers[c]? = some ⟨key, .resolve now wall, .started⟩ ∧ e.wallValid wall
  cached : ∃ n, (s.cache.get key).1 = some ⟨e,n⟩
  fetched : e.fetchedAt ≤ now
  fresh : now < e.freshUntil

/-- A hit on the entry spawns a refresh in the last tenth of its fresh window alone; before
that it is answered, and nothing is left that would fetch. -/
structure RefreshConfined (e : Entry) : Prop where
  spawns_iff : ∀ s t c key now, Hits s c key now e → s.lookup c = some t →
    (t.callers[s.callers.length]? = some ⟨key, .refresh, .flying none⟩ ↔ e.LastTenth now)
  quiet : ∀ s t c key now, Hits s c key now e → s.lookup c = some t → ¬ e.LastTenth now →
    t.flight = s.flight ∧ t.callers.length = s.callers.length ∧
      ∃ kind n, t.callers[c]? = some ⟨key, kind, .answered (.ok e.outcome) (.l1 n)⟩

/-- The window is empty, or the doubles that are compared change places at a tenth of it: the
first whole nanosecond from which on no less than a tenth remains is not due, and the one
before it is. -/
def TenthKept (ttl remaining : ℕ) : Prop :=
  let tenth := (min ttl remaining + 9) / 10
  min ttl remaining = 0 ∨ secsF64 (tenth - 1) < tenthF64 ttl ∧ tenthF64 ttl ≤ secsF64 tenth

instance (ttl remaining : ℕ) : Decidable (TenthKept ttl remaining) := inferInstanceAs (Decidable (_ ∨ _ ∧ _))

theorem tenthF64_pos {ttl : ℕ} (h : 0 < ttl) : 0 < tenthF64 ttl := by
  have hsecs : 0 < secsF64 ttl := by
    have hnear := (abs_le.mp (abs_secsF64_sub_le ttl)).1
    have hpos : (0 : ℚ) < ttl / 1000000000 := by positivity
    norm_num at hnear
    linarith
  exact round_pos (mul_pos (round_pos (by norm_num)) hsecs)

theorem abs_tenthF64_sub_le (ttl : ℕ) : |tenthF64 ttl - ttl / 10000000000| ≤ ttl / 10000000000 * (10 / 2 ^ 54) := by
  have htenth := abs_le.mp (abs_round_sub_le_mul (p := 52) (q := 1 / 10) (by norm_num))
  have hsecs := abs_le.mp (abs_secsF64_sub_le ttl)
  have hnonneg := secsF64_nonneg ttl
  have hround := abs_le.mp (abs_round_sub_le_mul (p := 52)
    (mul_nonneg (round_nonneg (p := 52) (q := 1 / 10) (by norm_num)) hnonneg))
  have hcast : (0 : ℚ) ≤ ttl := Nat.cast_nonneg ttl
  norm_num at htenth hsecs
  have hlow := mul_le_mul_of_nonneg_right htenth.1 hnonneg
  have hhigh := mul_le_mul_of_nonneg_right htenth.2 hnonneg
  rw [abs_le]
  unfold tenthF64
  norm_num at hround hlow hhigh ⊢
  constructor <;> linarith

/-- Where clearly less than a tenth remains a refresh is due. -/
theorem secsF64_lt_tenthF64 {n ttl : ℕ} (h : 10 * n + ttl / 2 ^ 50 < ttl) : secsF64 n < tenthF64 ttl := by
  have hn := (abs_le.mp (abs_secsF64_sub_le n)).2
  have httl := (abs_le.mp (abs_tenthF64_sub_le ttl)).1
  have hscaled : 2 ^ 50 * (10 * n) ≤ (2 ^ 50 - 1) * ttl := by
    norm_num at h ⊢
    omega
  have hcast : (1125899906842624 : ℚ) * (10 * n) ≤ 1125899906842623 * ttl := by exact_mod_cast hscaled
  have hpos : (0 : ℚ) < ttl := by
    have hlt : 0 < ttl := by omega
    exact_mod_cast hlt
  norm_num at hn httl
  linarith

theorem tenthF64_le_secsF64 {n ttl : ℕ} (h : ttl + 10 * n / 2 ^ 50 < 10 * n) : tenthF64 ttl ≤ secsF64 n := by
  have hn := (abs_le.mp (abs_secsF64_sub_le n)).1
  have httl := (abs_le.mp (abs_tenthF64_sub_le ttl)).2
  have hscaled : 2 ^ 50 * ttl ≤ (2 ^ 50 - 1) * (10 * n) := by
    norm_num at h ⊢
    omega
  have hcast : (1125899906842624 : ℚ) * ttl ≤ 1125899906842623 * (10 * n) := by exact_mod_cast hscaled
  have hnonneg : (0 : ℚ) ≤ ttl := Nat.cast_nonneg ttl
  norm_num at hn httl
  linarith

/-- The doubles decide as exact numbers do, unless just a tenth remains. -/
theorem secsF64_lt_tenthF64_iff {n ttl : ℕ} (hshort : ttl < 2 ^ 50) (hne : 10 * n ≠ ttl) :
    secsF64 n < tenthF64 ttl ↔ 10 * n < ttl := by
  rcases Nat.lt_or_gt_of_ne hne with hlt | hgt
  · simp only [hlt, iff_true]
    exact secsF64_lt_tenthF64 (by omega)
  · simp only [hgt.not_gt, iff_false, not_lt]
    exact tenthF64_le_secsF64 (by omega)

/-- A TTL below `2 ^ 50` nanoseconds, which is thirteen days: what remains of the session, rounded up
to tens of nanoseconds, covers it, and a tenth of it, if whole, does not round to less. -/
theorem tenthKept_iff {ttl remaining : ℕ} (hshort : ttl < 2 ^ 50) : TenthKept ttl remaining ↔
    min ttl remaining = 0 ∨ ttl ≤ 10 * ((remaining + 9) / 10) ∧
      (10 ∣ ttl → tenthF64 ttl ≤ secsF64 (ttl / 10)) := by
  unfold TenthKept
  refine or_congr_right' fun hwindow => ?_
  have hbefore : secsF64 ((min ttl remaining + 9) / 10 - 1) < tenthF64 ttl :=
    (secsF64_lt_tenthF64_iff hshort (by omega)).mpr (by omega)
  simp only [hbefore, true_and]
  by_cases hexact : 10 * ((min ttl remaining + 9) / 10) = ttl
  · have htenth : (min ttl remaining + 9) / 10 = ttl / 10 := by omega
    have hcovers : ttl ≤ 10 * ((remaining + 9) / 10) := by omega
    have hdvd : 10 ∣ ttl := ⟨_,hexact.symm⟩
    simp only [htenth, hcovers, hdvd, true_and, true_imp_iff]
  · rw [← not_lt, secsF64_lt_tenthF64_iff hshort hexact]
    have hdvd : ttl ≤ 10 * ((remaining + 9) / 10) → ¬ 10 ∣ ttl := by omega
    constructor
    · intro h
      have hcovers : ttl ≤ 10 * ((remaining + 9) / 10) := by omega
      exact ⟨hcovers,fun h => absurd h (hdvd hcovers)⟩
    · rintro ⟨hcovers,-⟩
      omega

theorem judge_fresh {wall : ℤ} (hvalid : e.wallValid wall) (hfresh : now < e.freshUntil) :
    judge e now wall = .hit (e.refreshDue now) := by
  rw [judge, if_pos hvalid, if_pos hfresh]

theorem Hits.lookup (h : Hits s c key now e) (hs : s.lookup c = some t) : ∃ wall n, c < s.callers.length ∧
    let left := { s with cache := (s.cache.get key).2 }.setCaller c ⟨key, .resolve now wall, .started⟩
      (.answered (.ok e.outcome) (.l1 n))
    t = if e.refreshDue now then left.spawnRefresh key else left := by
  obtain ⟨wall,hc,hvalid⟩ := h.started
  obtain ⟨n,hcached⟩ := h.cached
  obtain ⟨key',now',wall',hc',rfl⟩ := lookup_eq hs
  cases hc.symm.trans hc'
  refine ⟨wall,n,(List.getElem?_eq_some_iff.mp hc).1,?_⟩
  simp only [State.afterLookup, found, hcached, judge_fresh hvalid h.fresh]

theorem Hits.exists_lookup (h : Hits s c key now e) : ∃ t, s.lookup c = some t := by
  obtain ⟨wall,hc,hvalid⟩ := h.started
  obtain ⟨n,hcached⟩ := h.cached
  simp [State.lookup, hc, hcached, judge_fresh hvalid h.fresh]

theorem exists_hits (key : TokenHash) (hfetched : e.fetchedAt ≤ now) (hfresh : now < e.freshUntil) :
    ∃ s, Hits s 0 key now e := by
  obtain ⟨wall,hvalid⟩ : ∃ wall, e.wallValid wall := by
    cases ho : e.outcome with
    | none => exact ⟨0, by simp [Entry.wallValid, ho]⟩
    | some session => exact ⟨session.expiresAt - 1, by simp [Entry.wallValid, ho]⟩
  let hit : Cached := ⟨e,0⟩
  let cache : Lru TokenHash Cached := (Lru.new 1).put key hit
  have hget : (cache.get key).1 = some hit := by
    have hput : Lru.Refines cache (RecencyList.store 1 key hit []) := (Lru.refines_new 1).put key hit
    rw [(hput.get key).1]
    exact RecencyList.find_store_self key _ [] Nat.one_pos
  exact ⟨⟨now,cache,.default,[⟨key, .resolve now wall, .started⟩]⟩,⟨wall,rfl,hvalid⟩,⟨0,hget⟩,hfetched,hfresh⟩

theorem refreshConfined_iff : RefreshConfined e ↔
    ∀ now, e.fetchedAt ≤ now → now < e.freshUntil → (e.refreshDue now ↔ e.LastTenth now) := by
  constructor
  · intro h now hfetched hfresh
    obtain ⟨s,hhit⟩ := exists_hits "k" hfetched hfresh
    obtain ⟨t,hs⟩ := hhit.exists_lookup
    rw [← h.spawns_iff s t 0 "k" now hhit hs]
    obtain ⟨wall,n,-,rfl⟩ := hhit.lookup hs
    cases e.refreshDue now <;> simp [State.setCaller, State.spawnRefresh]
  · intro h
    constructor
    · intro s t c key now hhit hs
      rw [← h now hhit.fetched hhit.fresh]
      obtain ⟨wall,n,-,rfl⟩ := hhit.lookup hs
      cases e.refreshDue now <;> simp [State.setCaller, State.spawnRefresh]
    · intro s t c key now hhit hs hlast
      have hdue : e.refreshDue now = false := by
        rw [← h now hhit.fetched hhit.fresh] at hlast
        simpa using hlast
      obtain ⟨wall,n,hc,rfl⟩ := hhit.lookup hs
      rw [hdue, if_neg Bool.false_ne_true]
      exact ⟨rfl,List.length_set,_,n,List.getElem?_set_self hc⟩

theorem tenths_agree (due : ℕ → Prop) (window start : ℕ) (hdown : ∀ m n, m ≤ n → due n → due m)
    (hzero : window ≠ 0 → due 0) :
    (∀ now, start ≤ now → now < start + window →
      (due (start + window - now) ↔ 10 * (start + window - now) < start + window - start)) ↔
      window = 0 ∨ due ((window + 9) / 10 - 1) ∧ ¬ due ((window + 9) / 10) := by
  constructor
  · intro h
    by_cases hwindow : window = 0
    · exact Or.inl hwindow
    · refine Or.inr ⟨?_,fun hdue => ?_⟩
      · by_cases hone : (window + 9) / 10 = 1
        · rw [hone]
          exact hzero hwindow
        · have hlast := h (start + window - ((window + 9) / 10 - 1)) (by omega) (by omega)
          rw [show start + window - (start + window - ((window + 9) / 10 - 1)) = (window + 9) / 10 - 1 by omega]
            at hlast
          exact hlast.mpr (by omega)
      · have hfirst := h (start + window - (window + 9) / 10) (by omega) (by omega)
        rw [show start + window - (start + window - (window + 9) / 10) = (window + 9) / 10 by omega] at hfirst
        have hlt := hfirst.mp hdue
        omega
  · rintro (hwindow | ⟨hlast,hfirst⟩) now hstart hnow
    · omega
    · constructor
      · intro hdue
        by_contra hlate
        exact hfirst (hdown _ _ (by omega) hdue)
      · intro hlt
        exact hdown _ _ (by omega) hlast

theorem confined_tombstone (h : e.outcome = none) : RefreshConfined e := by
  rw [refreshConfined_iff]
  simp [Entry.refreshDue, Entry.LastTenth, h]

theorem confined_iff {remaining : ℕ} (hsome : e.outcome.isSome)
    (hfresh : e.freshUntil = e.fetchedAt + min e.effectiveTtl remaining) :
    RefreshConfined e ↔ TenthKept e.effectiveTtl remaining := by
  have hagree := tenths_agree (fun n => secsF64 n < tenthF64 e.effectiveTtl) (min e.effectiveTtl remaining)
    e.fetchedAt (fun m n hle hdue => (secsF64_mono hle).trans_lt hdue) fun hwindow => by
      rw [secsF64_zero]
      exact tenthF64_pos (by omega)
  rw [refreshConfined_iff, TenthKept, ← not_lt, ← hagree]
  simp only [Entry.refreshDue, Entry.LastTenth, hsome, hfresh, Bool.true_and, true_and, decide_eq_true_eq]

theorem fillEntry_confined (cfg : ResolverConfig) (now : ℕ) (jitter : Jitter) (wall : ℤ)
    (fetched : Option ResolvedSession) : RefreshConfined (fillEntry cfg now jitter wall fetched) ↔
      ∀ session ∈ fetched, TenthKept (effectiveTtl cfg jitter) (wallRemaining session wall) := by
  cases fetched with
  | none => simpa using confined_tombstone (fillEntry_outcome cfg now jitter wall none)
  | some session =>
    have hsession : RefreshConfined (fillEntry cfg now jitter wall (some session)) ↔
        TenthKept (effectiveTtl cfg jitter) (wallRemaining session wall) := confined_iff rfl rfl
    simpa using hsession

theorem Machine.fillEntry_confined {cfg : Machine.ResolverConfig} {start now : Instant} {jitter : Machine.Jitter}
    {wall : Machine.DateTime} {fetched : Option Machine.ResolvedSession} {e : Machine.Entry} (hstart : start ≤ now)
    (h : Machine.fillEntry cfg now jitter wall fetched = some e) : RefreshConfined (e.since start) ↔
      ∀ session ∈ fetched, TenthKept (ttlNanos cfg jitter) (session.expiresAt.val - wall.val).toNat := by
  obtain ⟨rfl,rfl,httl,hfresh,-⟩ := fillEntry_toNanos h
  rw [Instant.le_iff] at hstart
  cases hout : e.outcome with
  | none => simpa using confined_tombstone (e := e.since start) (by simp [Entry.since, hout])
  | some session =>
    simp only [hout, keptTtl, window] at httl hfresh
    have hwindow : (e.since start).freshUntil = (e.since start).fetchedAt +
        min (e.since start).effectiveTtl (session.expiresAt.val - wall.val).toNat := by
      simp only [Entry.since, httl]
      omega
    rw [confined_iff (by simp [Entry.since, hout]) hwindow]
    simp [Entry.since, httl]

theorem run_built (h : Run cfg acts s) {f : ℕ} {fill : Fill} (hf : s.flight.fills[f]? = some fill)
    (he : fill.phase.entry? = some e) : ∃ now fetched jitter wall,
      .fetchReturns f (.ok fetched) jitter wall ∈ acts ∧ e = fillEntry cfg now jitter wall fetched := by
  revert f fill e
  refine exec_induction (motive := fun acts s => ∀ {f : ℕ} {fill : Fill} {e : Entry},
    s.flight.fills[f]? = some fill → fill.phase.entry? = some e → ∃ now fetched jitter wall,
      .fetchReturns f (.ok fetched) jitter wall ∈ acts ∧ e = fillEntry cfg now jitter wall fetched) ?_ ?_ h
  · intro f fill e hf
    simp [init, SingleFlight.default] at hf
  · intro as s a t _ ih hs f fill' e hf he
    obtain ⟨fill,hfill,-,-,hold | ⟨fetched,jitter,wall,hevent,rfl⟩⟩ := (step_flight hs).entry_earlier hf he
    · obtain ⟨now,fetched,jitter,wall,hmem,rfl⟩ := ih hfill hold
      exact ⟨now,fetched,jitter,wall,List.mem_append_left _ hmem,rfl⟩
    · cases Act.event_built.mp hevent
      exact ⟨s.now,fetched,jitter,wall, by simp,rfl⟩

/-- Refresh-ahead is confined to the end of an entry's life exactly when the doubles change places
at a tenth of its window, for which its session has to outlive the TTL drawn for it; and in a
run it is so for all that is ever cached if it is so for all that is fetched. -/
theorem refreshAhead_confined (cfg : Machine.ResolverConfig) :
    (∀ start now jitter wall fetched e, start ≤ now → Machine.fillEntry cfg now jitter wall fetched = some e →
      (RefreshConfined (e.since start) ↔ ∀ session ∈ fetched,
        TenthKept (Machine.ttlNanos cfg jitter) (session.expiresAt.val - wall.val).toNat)) ∧
    (∀ (start now : Instant) (e : Machine.Entry), start ≤ now →
      (e.since start).refreshDue (now.toNanos - start.toNanos).toNat = e.refreshDue now) ∧
    (∀ ttl remaining, ttl < 2 ^ 50 → (TenthKept ttl remaining ↔ min ttl remaining = 0 ∨
      ttl ≤ 10 * ((remaining + 9) / 10) ∧ (10 ∣ ttl → tenthF64 ttl ≤ secsF64 (ttl / 10)))) ∧
    ∀ acts s, Run cfg.exact acts s →
      (∀ f session jitter wall, .fetchReturns f (.ok (some session)) jitter wall ∈ acts →
        TenthKept (effectiveTtl cfg.exact jitter) (wallRemaining session wall)) →
      ∀ key x, s.cache.peek key = some x → RefreshConfined x.entry := by
  refine ⟨fun start now jitter wall fetched e hstart h => Machine.fillEntry_confined hstart h,
    fun start now e h => Machine.refreshDue_since h,fun ttl remaining h => tenthKept_iff h,
    fun acts s h hall key x hx => ?_⟩
  obtain ⟨f,fill,hf,-,-,hstored⟩ := run_cached h hx
  obtain ⟨now,fetched,jitter,wall,hmem,hbuilt⟩ := run_built h hf (entry?_of_stored? hstored)
  rw [hbuilt, fillEntry_confined]
  rintro session rfl
  exact hall f session jitter wall hmem

/-- Just a tenth of three seconds is due, and just a tenth of thirty is not. -/
example : ¬ TenthKept (secs 3) (secs 3600) ∧ TenthKept (secs 30) (secs 3600) := by decide +kernel

def briefSession : ResolvedSession := ⟨"alice", "acme", secs 2⟩

def briefEntry : Entry := fillEntry {} 0 .one 0 (some briefSession)

/-- The hit at the very start of the window spawns a refresh, and what `fill` computes in machine
words from the largest draw is the very entry that is hit. -/
theorem briefSession_refreshed : ∃ e s t,
    Machine.fillEntry {} ⟨0,0⟩ ⟨2 ^ 53 - 1, by decide, by decide⟩ ⟨0, by decide⟩
      (some ⟨"alice", "acme",⟨2 * 1000000000, by decide⟩⟩) = some e ∧
    Run {} (coldResolve 0 0 "k" 0 ++ settle 0 0 (some briefSession) 0 ++ [.resolve "k" 0]) s ∧
    Hits s 1 "k" 0 (e.since ⟨0,0⟩) ∧ ¬ (e.since ⟨0,0⟩).LastTenth 0 ∧ step {} s (.lookup 1) = some t ∧
    t.callers[2]? = some ⟨"k", .refresh, .flying none⟩ ∧ ¬ RefreshConfined (e.since ⟨0,0⟩) := by
  have hbuilt : (Machine.fillEntry {} ⟨0,0⟩ ⟨2 ^ 53 - 1, by decide, by decide⟩ ⟨0, by decide⟩
      (some ⟨"alice", "acme",⟨2 * 1000000000, by decide⟩⟩)).map (·.since ⟨0,0⟩) = some briefEntry := by decide +kernel
  obtain ⟨e,he,hsame⟩ := Option.map_eq_some_iff.mp hbuilt
  have hrun : (exec (step {}) (init {})
      (coldResolve 0 0 "k" 0 ++ settle 0 0 (some briefSession) 0 ++ [.resolve "k" 0])).map
        (fun s => (s.callers.length, s.callers[1]?, (s.cache.get "k").1)) =
      some (2, some ⟨"k", .resolve 0 0, .started⟩, some ⟨briefEntry,0⟩) := by decide +kernel
  obtain ⟨s,h,hs⟩ := Option.map_eq_some_iff.mp hrun
  simp only [Prod.mk.injEq] at hs
  obtain ⟨hlen,hcaller,hcached⟩ := hs
  have hhit : Hits s 1 "k" 0 briefEntry :=
    ⟨⟨0,hcaller, by decide⟩,⟨0,hcached⟩, by decide, by decide +kernel⟩
  have hlast : ¬ briefEntry.LastTenth 0 := by decide +kernel
  have hdue : briefEntry.refreshDue 0 := by decide +kernel
  obtain ⟨t,ht⟩ := hhit.exists_lookup
  have hspawned : t.callers[2]? = some ⟨"k", .refresh, .flying none⟩ := by
    obtain ⟨wall,n,-,rfl⟩ := hhit.lookup ht
    simp [hdue, State.setCaller, State.spawnRefresh, hlen]
  refine ⟨e,s,t,he,h,hsame ▸ hhit,hsame ▸ hlast,ht,hspawned,fun hconfined => hlast ?_⟩
  rw [hsame] at hconfined
  rw [← hconfined.spawns_iff s t 1 "k" 0 hhit ht, hlen]
  exact hspawned

end NioClient.Session
