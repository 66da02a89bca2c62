import NioClient.Session.SingleFlightRuns

/-! # Fills that fail and fills that panic

The clean-up is the end of the shared future itself, so a fill which returns an
error leaves the in-flight map like any other. A panic ends the future before its
clean-up: the poisoned future stays in the map, and whoever resolves its key joins it.
-/
namespace NioClient.Session
open Execution
variable {cfg : ResolverConfig} {s t : State} {a : Act} {acts : List Act}

structure NeverFrozen (cfg : ResolverConfig) (acts : List Act) : Prop where
  /-- In every state reached, what is in flight has still its clean-up to do. -/
  unfinished : ∀ pre post s, acts = pre ++ post → Run cfg pre s → ∀ key id f,
    s.flight.inflight.lookup key = some (id, f) →
    ∃ fill, s.flight.fills[f]? = some fill ∧ fill.key = key ∧ fill.phase.ended = false
  /-- A resolve that begins after the end of a fill of its key joins a later fill,
  which has called a later fetch or is about to. -/
  renewed : ∀ pre post s t f fill, acts = pre ++ post → Run cfg pre s → Run cfg acts t →
    s.flight.fills[f]? = some fill → fill.phase.ended →
    ∀ c now wall g, s.callers.length ≤ c → JoinedAt cfg acts c fill.key (.resolve now wall) g →
      f < g ∧ ∃ n fill', fill.phase.fetch? = some n ∧ t.flight.fills[g]? = some fill' ∧
        fill'.key = fill.key ∧
        ((step cfg t (.callFetch g)).isSome ∨ ∃ m, fill'.phase.fetch? = some m ∧ n < m)

namespace SingleFlight
variable {now : ℕ} {event : Option (ℕ × FillEvent)} {sf sf' : SingleFlight}

def Ordered (sf : SingleFlight) : Prop :=
  ∀ (f g : ℕ) x y, sf.fills[f]? = some x → sf.fills[g]? = some y → x.key = y.key → f < g →
    ∃ n, (∃ r, x.phase = .done n r) ∧ ∀ m, y.phase.fetch? = some m → n < m

theorem ordered_default : Ordered .default := by
  intro f g x y hf
  simp [SingleFlight.default] at hf

theorem done_of_not_live {p : Phase} (h : ¬ p.live) : ∃ n r, p = .done n r := by
  cases p with
  | done n r => exact ⟨n,r,rfl⟩
  | _ => exact absurd rfl h

theorem Ordered.move (ho : Ordered sf) (hw : WellFormed sf) (hl : Logged cfg sf)
    (h : Move cfg now sf event sf') : Ordered sf' := by
  intro f g x' y' hf hg hkey hfg
  rcases h.origin hg with ⟨y,hy,hykey,-,-⟩ | ⟨rfl,hreg,rfl⟩
  · rcases h.origin hf with ⟨x,hx,hxkey,-,-⟩ | ⟨rfl,-,-⟩
    · obtain ⟨n,⟨r,hdone⟩,hlt⟩ := ho f g x y hx hy ((hxkey.trans hkey).trans hykey.symm) hfg
      obtain ⟨x'',hx'',-,hlater⟩ := h.later hx
      cases hf.symm.trans hx''
      refine ⟨n,⟨r,hlater.done n r hdone⟩,fun m hm => ?_⟩
      rcases h.fetch_earlier hg hm with ⟨y₀,hy₀,-,hm₀,-⟩ | rfl
      · cases hy.symm.trans hy₀
        exact hlt m hm₀
      · obtain ⟨z,hz,-⟩ := hl.call f x n hx (by simp [hdone, Phase.fetch?])
        exact (List.getElem?_eq_some_iff.mp hz).1
    · have hbound := (List.getElem?_eq_some_iff.mp hy).1
      omega
  · -- `g` has just been registered, so nothing was in flight under its key
    cases h with
    | stay =>
      have hbound := (List.getElem?_eq_some_iff.mp hg).1
      omega
    | register key hnone =>
      rcases getElem?_register hf with hx | ⟨rfl,-⟩
      · rcases getElem?_register hg with hy | ⟨-,rfl⟩
        · have hbound := (List.getElem?_eq_some_iff.mp hy).1
          omega
        · have hdead : ¬ x'.phase.live := by
            intro hlive
            have hheld := hw.held f x' hx hlive
            rw [hkey, hnone] at hheld
            cases hheld
          obtain ⟨n,r,hdone⟩ := done_of_not_live hdead
          exact ⟨n,⟨r,hdone⟩,fun m hm => by cases hm⟩
      · omega

end SingleFlight

theorem run_ordered (h : Run cfg acts s) : s.flight.Ordered := by
  refine exec_induction (motive := fun _ s => s.flight.Ordered) SingleFlight.ordered_default ?_ h
  intro acts s a t hrun ih hs
  exact ih.move (run_wellFormed hrun) (run_logged hrun) (step_flight hs)

theorem inflight_unfinished (h : Run cfg acts s) (hpanic : ∀ f, .fetchPanics f ∉ acts) {key : TokenHash}
    {id : UInt64} {f : ℕ} (hlook : s.flight.inflight.lookup key = some (id, f)) :
    ∃ fill, s.flight.fills[f]? = some fill ∧ fill.key = key ∧ fill.phase.ended = false := by
  obtain ⟨fill,hf,hkey,-,hlive⟩ := (run_wellFormed h).owner key id f hlook
  refine ⟨fill,hf,hkey,?_⟩
  cases hp : fill.phase with
  | panicked n => exact absurd (run_panicked h hf hp) (hpanic f)
  | done n r => simp [hp, Phase.live] at hlive
  | _ => rfl

theorem ended_done (h : Run cfg acts s) (hpanic : ∀ f, .fetchPanics f ∉ acts) {f : ℕ} {fill : Fill}
    (hf : s.flight.fills[f]? = some fill) (hended : fill.phase.ended) : ∃ n r, fill.phase = .done n r := by
  cases hp : fill.phase with
  | done n r => exact ⟨n,r,rfl⟩
  | panicked n => exact absurd (run_panicked h hf hp) (hpanic f)
  | _ => simp [hp, Phase.ended] at hended

/-- Whoever has joined a fill after the end of another has joined a later one. -/
theorem joined_later {pre post : List Act} (hpre : Run cfg pre s) (hpanic : ∀ f, .fetchPanics f ∉ pre)
    {f : ℕ} {fill : Fill} (hf : s.flight.fills[f]? = some fill) (hended : fill.phase.ended) {c g : ℕ}
    {kind : CallerKind} (hc : s.callers.length ≤ c)
    (hjoined : JoinedAt cfg (pre ++ post) c fill.key kind g) : f < g := by
  obtain ⟨pre',post',m,stale,id,hsplit,hm,hcm,hlook⟩ := hjoined
  -- the caller is there when it joins, so it joins after `pre`
  obtain ⟨as,rfl,hexec⟩ : ∃ as, pre' = pre ++ as ∧ exec (step cfg) s as = some m := by
    rcases List.append_eq_append_iff.mp hsplit with ⟨as,rfl,-⟩ | ⟨as,rfl,-⟩
    · obtain ⟨s',hs',hexec⟩ := exec_append_iff.mp hm
      cases hpre.symm.trans hs'
      exact ⟨as,rfl,hexec⟩
    · obtain ⟨m',hm',hexec⟩ := exec_append_iff.mp hpre
      cases hm.symm.trans hm'
      have hgrow : m.callers.length ≤ s.callers.length :=
        exec_invariant (I := fun t => m.callers.length ≤ t.callers.length)
          (fun _ _ _ hle hs => hle.trans (step_callers_length hs)) le_rfl hexec
      have hlt := (List.getElem?_eq_some_iff.mp hcm).1
      omega
  obtain ⟨fill',hg,hkey,-,hlive⟩ := (run_wellFormed hm).owner fill.key id g hlook
  obtain ⟨n,r,hp⟩ := ended_done hpre hpanic hf hended
  obtain ⟨fill'',hf',hkey',hlater⟩ := exec_later hexec hf
  have hdone := hlater.done n r hp
  rcases Nat.lt_trichotomy f g with hlt | rfl | hgt
  · exact hlt
  · cases hf'.symm.trans hg
    simp [hdone, Phase.live] at hlive
  · obtain ⟨n',⟨r',hdone'⟩,-⟩ := run_ordered hm g f fill' fill'' hg hf' (hkey.trans hkey'.symm) hgt
    simp [hdone', Phase.live] at hlive

/-- No token freezes exactly when no fill panics. -/
theorem neverFrozen_iff (h : Run cfg acts s) : NeverFrozen cfg acts ↔ ∀ f, .fetchPanics f ∉ acts := by
  constructor
  · intro hfrozen f hmem
    obtain ⟨n,hp⟩ := (run_tally h f).panics.mp hmem
    obtain ⟨fill,hf,hphase⟩ : ∃ fill, s.flight.fills[f]? = some fill ∧ fill.phase = .panicked n := by
      cases hf : s.flight.fills[f]? with
      | none => simp [SingleFlight.phaseAt, hf] at hp
      | some fill => exact ⟨fill,rfl, by rwa [phaseAt_eq hf] at hp⟩
    -- a panicked fill is live for ever, so it is still in the map
    have hheld := (run_wellFormed h).held f fill hf (by simp [hphase, Phase.live])
    obtain ⟨fill',hf',-,hended⟩ := hfrozen.unfinished acts [] s (List.append_nil acts).symm h _ _ f hheld
    cases hf.symm.trans hf'
    simp [hphase, Phase.ended] at hended
  · intro hpanic
    constructor
    · rintro pre post s rfl hpre key id f hlook
      exact inflight_unfinished hpre (fun f hf => hpanic f (List.mem_append_left _ hf)) hlook
    · rintro pre post s t f fill rfl hpre hrun hf hended c now wall g hc hjoined
      have hpanic' : ∀ f, .fetchPanics f ∉ pre := fun f hf => hpanic f (List.mem_append_left _ hf)
      have hlt := joined_later hpre hpanic' hf hended hc hjoined
      obtain ⟨fill',hg,hkey⟩ := hjoined.fill hrun
      obtain ⟨s',hs',hpost⟩ := exec_append_iff.mp hrun
      cases hpre.symm.trans hs'
      obtain ⟨n,r,hp⟩ := ended_done hpre hpanic' hf hended
      obtain ⟨fill'',hf'',hkey'',hlater⟩ := exec_later hpost hf
      obtain ⟨n',⟨r',hdone'⟩,hfetch⟩ := run_ordered hrun f g fill'' fill' hf'' hg (hkey''.trans hkey.symm) hlt
      obtain ⟨rfl,-⟩ : n = n' ∧ r = r' := by
        simpa [hlater.done n r hp] using hdone'
      refine ⟨hlt,n,fill', by simp [hp, Phase.fetch?],hg,hkey,?_⟩
      cases hphase : fill'.phase with
      | registered => exact Or.inl (by simp [step, SingleFlight.callFetch, hg, hphase])
      | fetching m | storing m _ | cleaning m _ | done m _ | panicked m =>
        exact Or.inr ⟨m,rfl,hfetch m (by simp [hphase, Phase.fetch?])⟩

theorem neverFrozen_failedFetch : NeverFrozen {} (coldResolve 0 0 "k" 0 ++
    [.fetchReturns 0 (.error (.backend "unavailable")) .one 0, .cleanUp 0, .receive 0] ++
    coldResolve 1 1 "k" 0) := by
  have hrun : (exec (step {}) (init {}) (coldResolve 0 0 "k" 0 ++
      [.fetchReturns 0 (.error (.backend "unavailable")) .one 0, .cleanUp 0, .receive 0] ++
      coldResolve 1 1 "k" 0)).isSome := by decide +kernel
  obtain ⟨s,h⟩ := Option.isSome_iff_exists.mp hrun
  exact (neverFrozen_iff h).mpr (by simp [coldResolve])

/-- The fetcher panics; the next resolve of the token joins the poisoned future and
panics with it. -/
def frozenToken : List Act :=
  coldResolve 0 0 "k" 0 ++
    [.fetchPanics 0, .receive 0, .resolve "k" 0, .lookup 1, .captureStale 1, .run 1, .receive 1]

theorem frozenToken_frozen : ∃ s, Run {} frozenToken s ∧
    s.callers[1]? = some ⟨"k", .resolve 0 0, .panicked⟩ ∧ s.flight.fetches.length = 1 ∧
    ¬ NeverFrozen {} frozenToken := by
  have hrun : (exec (step {}) (init {}) frozenToken).map
      (fun s => (s.callers[1]?, s.flight.fetches.length, s.flight.inflight.lookup "k", s.flight.fills)) =
      some (some ⟨"k", .resolve 0 0, .panicked⟩, 1, some (0, 0), [⟨0, "k", .panicked 0⟩]) := by
    decide +kernel
  obtain ⟨s,h,hs⟩ := Option.map_eq_some_iff.mp hrun
  simp only [Prod.mk.injEq] at hs
  obtain ⟨hc,hfetches,hlook,hfills⟩ := hs
  refine ⟨s,h,hc,hfetches,fun hfrozen => ?_⟩
  obtain ⟨fill,hf,-,hended⟩ :=
    hfrozen.unfinished frozenToken [] s (List.append_nil _).symm h "k" 0 0 hlook
  rw [hfills] at hf
  cases hf
  cases hended

end NioClient.Session
