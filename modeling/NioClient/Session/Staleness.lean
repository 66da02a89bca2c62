import NioClient.Session.Provenance

/-! # The provenance and the age of every answer

An `Ok` answer is exactly what one fetch of its own key returned. How old that
fetch may be is bounded on each of the three paths an answer can take.
-/
namespace NioClient.Session
open Execution
variable {cfg : ResolverConfig} {s t : State} {a : Act} {acts : List Act}

/-- At some moment of the run caller `c` awaited fill `f`, and the in-flight map
held that fill under `key`. -/
def JoinedAt (cfg : ResolverConfig) (acts : List Act) (c : ℕ) (key : TokenHash) (kind : CallerKind)
    (f : ℕ) : Prop :=
  ∃ pre post m stale id, acts = pre ++ post ∧ Run cfg pre m ∧
    m.callers[c]? = some ⟨key, kind, .waiting f stale⟩ ∧
    m.flight.inflight.lookup key = some (id, f)

theorem JoinedAt.append {c f : ℕ} {key : TokenHash} {kind : CallerKind}
    (h : JoinedAt cfg acts c key kind f) (as : List Act) : JoinedAt cfg (acts ++ as) c key kind f := by
  obtain ⟨pre,post,m,stale,id,rfl,hrest⟩ := h
  exact ⟨pre,post ++ as,m,stale,id,List.append_assoc ..,hrest⟩

def CallerPhase.joined? : CallerPhase → Option ℕ
  | .waiting f _ | .answered _ (.joined f _) | .answered _ (.stale f _) => some f
  | _ => none

@[simp] theorem conclude_joined (f n : ℕ) (result : Except ResolveError Entry)
    (stale : Option Candidate) : (State.conclude f n result stale).joined? = some f := by
  cases result with
  | ok e => rfl
  | error e =>
    simp only [State.conclude]
    split
    · cases stale <;> rfl
    · rfl

theorem run_joinedAt (h : Run cfg acts s) {c f : ℕ} {x : Caller} (hx : s.callers[c]? = some x)
    (hf : x.phase.joined? = some f) : JoinedAt cfg acts c x.key x.kind f := by
  revert c f x
  refine exec_induction (motive := fun acts s => ∀ {c f : ℕ} {x : Caller}, s.callers[c]? = some x →
    x.phase.joined? = some f → JoinedAt cfg acts c x.key x.kind f) ?_ ?_ h
  · intro c f x hx
    simp [init] at hx
  · intro acts s a t hrun ih hs c f y hy hf
    rcases step_callers hs hy with hold | ⟨x,hx,hxy⟩ | ⟨-,hborn⟩
    · exact (ih hold hf).append [a]
    · cases hxy with
      | miss | expired | hit | forcedMiss | capture | poisoned | cancel => cases hf
      | join key kind stale id g hg =>
        cases hf
        have hrun' : Run cfg (acts ++ [a]) t := exec_concat_iff.mpr ⟨s,hrun,hs⟩
        exact ⟨acts ++ [a],[],t,stale,id,(List.append_nil _).symm,hrun',hy,hg⟩
      | receive key kind g stale fill n result hg hp =>
        rw [conclude_joined, Option.some.injEq] at hf
        exact (ih hx (hf ▸ rfl)).append [a]
    · cases hborn <;> cases hf

/-- How far a caller which has joined fill `f` can have come. -/
inductive Receipt (flight : SingleFlight) (f : ℕ) : CallerPhase → Prop
  | waiting (stale) : Receipt flight f (.waiting f stale)
  | received (phase fill n result stale) (hf : flight.fills[f]? = some fill)
      (hp : fill.phase = .done n result) (heq : phase = State.conclude f n result stale) :
      Receipt flight f phase
  | cancelled : Receipt flight f .cancelled
  | poisoned (fill n) (hf : flight.fills[f]? = some fill) (hp : fill.phase = .panicked n) :
      Receipt flight f .panicked

theorem Receipt.answered {flight : SingleFlight} {f : ℕ} {answer : ResolveResult} {source : Source}
    (h : Receipt flight f (.answered answer source)) :
    (CallerPhase.answered answer source).joined? = some f := by
  cases h with
  | received _ fill n result stale hf hp heq => rw [heq, conclude_joined]

protected theorem Receipt.step {f : ℕ} {phase : CallerPhase} (h : Receipt s.flight f phase)
    (hs : step cfg s a = some t) : Receipt t.flight f phase := by
  cases h with
  | waiting stale => exact .waiting stale
  | received _ fill n result stale hf hp heq =>
    obtain ⟨fill',hf',-,hlater⟩ := (step_flight hs).later hf
    exact .received phase fill' n result stale hf' (hlater.done n result hp) heq
  | cancelled => exact .cancelled
  | poisoned fill n hf hp =>
    obtain ⟨fill',hf',-,hlater⟩ := (step_flight hs).later hf
    exact .poisoned fill' n hf' (hlater.panicked n hp)

theorem Receipt.move {f : ℕ} {x y : Caller} (h : Receipt s.flight f x.phase)
    (hmove : CallerMove cfg s t x y) (hs : step cfg s a = some t) : Receipt t.flight f y.phase := by
  have hjoined : x.phase.joined? = some f ∨ x.phase = .cancelled ∨ x.phase = .panicked := by
    generalize x.phase = phase at h
    cases h with
    | waiting => exact Or.inl rfl
    | received _ fill n result stale hf hp heq => exact Or.inl (by rw [heq, conclude_joined])
    | cancelled => exact Or.inr (Or.inl rfl)
    | poisoned => exact Or.inr (Or.inr rfl)
  cases hmove with
  | miss | expired | hit | forcedMiss | capture | join => simp [CallerPhase.joined?] at hjoined
  | receive key kind g stale fill n result hg hp =>
    obtain rfl : g = f := by simpa [CallerPhase.joined?] using hjoined
    exact Receipt.step (.received _ fill n result stale hg hp rfl) hs
  | poisoned key kind g stale fill n hg hp =>
    obtain rfl : g = f := by simpa [CallerPhase.joined?] using hjoined
    exact Receipt.step (.poisoned fill n hg hp) hs
  | cancel => exact .cancelled

/-- Whoever joined a fill stays with it, and receives nothing but its result. -/
theorem JoinedAt.receipt {c f : ℕ} {key : TokenHash} {kind : CallerKind}
    (h : JoinedAt cfg acts c key kind f) (hrun : Run cfg acts s) :
    ∃ phase, s.callers[c]? = some ⟨key, kind, phase⟩ ∧ Receipt s.flight f phase := by
  obtain ⟨pre,post,m,stale,id,rfl,hm,hx,-⟩ := h
  obtain ⟨m',hm',hpost⟩ := exec_append_iff.mp hrun
  cases hm.symm.trans hm'
  refine exec_induction (motive := fun _ s => ∃ phase, s.callers[c]? = some ⟨key, kind, phase⟩ ∧
    Receipt s.flight f phase) ⟨_,hx,.waiting stale⟩ ?_ hpost
  rintro as s a t - ⟨phase,hphase,hreceipt⟩ hs
  obtain ⟨⟨key',kind',phase'⟩,hy,hkey,hkind,hcase⟩ := step_caller_later hs hphase
  dsimp only at hkey hkind
  subst hkey hkind
  refine ⟨phase',hy,?_⟩
  rcases hcase with heq | hmove
  · cases heq
    exact hreceipt.step hs
  · exact hreceipt.move hmove hs

/-- The three paths of an `Ok(v)` answer to the resolve `c` of `key`, which read
`now` and `wall` at its start. The answer came from fetch `x`, whose fill built `e`. -/
inductive AnswerPath (cfg : ResolverConfig) (acts : List Act) (s : State) (c : ℕ) (key : TokenHash)
    (now : ℕ) (wall : ℤ) (e : Entry) (x : Fetch) : Option ResolvedSession → Source → Prop
  /-- The resolve joined the fill itself. -/
  | joined (v n) (hjoined : JoinedAt cfg acts c key (.resolve now wall) x.fill) :
      AnswerPath cfg acts s c key now wall e x v (.joined x.fill n)
  | l1Session (y n) (hfresh : now < e.freshUntil) (hage : now < e.fetchedAt + cfg.l1Ttl)
      (hexp : wall < y.expiresAt) :
      AnswerPath cfg acts s c key now wall e x (some y) (.l1 n)
  | l1Tombstone (n) (hage : now < e.fetchedAt + cfg.negTtl) :
      AnswerPath cfg acts s c key now wall e x none (.l1 n)
  /-- The fill which the resolve joined failed in transport. -/
  | staleIfError (y f n) (fill : Fill) (m : ℕ) (msg : String)
      (hjoined : JoinedAt cfg acts c key (.resolve now wall) f) (hf : s.flight.fills[f]? = some fill)
      (hp : fill.phase = .done m (.error (.transport msg))) (hwindow : 0 < cfg.staleIfError)
      (hage : now < e.fetchedAt + cfg.l1Ttl + cfg.staleIfError) (hexp : wall < y.expiresAt) :
      AnswerPath cfg acts s c key now wall e x (some y) (.stale f n)

/-- What stands behind an `Ok(v)` answer from `source`. -/
structure AnsweredFrom (cfg : ResolverConfig) (acts : List Act) (s : State) (c : ℕ) (key : TokenHash)
    (now : ℕ) (wall : ℤ) (v : Option ResolvedSession) (source : Source) (e : Entry) (x : Fetch) :
    Prop where
  stored : Stored s.flight key source.fetch e
  outcome : e.outcome = v
  fetch : s.flight.fetches[source.fetch]? = some x
  fetch_key : x.key = key
  returned : x.returned = some (.ok v)
  path : AnswerPath cfg acts s c key now wall e x v source

theorem Entry.Capped.l1Path {e : Entry} (hcap : e.Capped cfg) {c : ℕ} {key : TokenHash} {now : ℕ}
    {wall : ℤ} {x : Fetch} {n : ℕ} (hvalid : e.wallValid wall) (hfresh : now < e.freshUntil) :
    AnswerPath cfg acts s c key now wall e x e.outcome (.l1 n) := by
  cases ho : e.outcome with
  | none => exact .l1Tombstone n (hfresh.trans_le (hcap.fresh_tombstone ho))
  | some y =>
    have hage := hfresh.trans_le (hcap.fresh_session (by simp [ho]))
    exact .l1Session y n hfresh hage (Entry.wallValid_some hvalid ho)

/-- Every `Ok` answer is what one fetch of its key returned, and no older than
its path allows. -/
theorem answer_provenance (h : Run cfg acts s) {c : ℕ} {key : TokenHash} {now : ℕ} {wall : ℤ}
    {v : Option ResolvedSession} {source : Source}
    (hc : s.callers[c]? = some ⟨key, .resolve now wall, .answered (.ok v) source⟩) :
    ∃ e x, AnsweredFrom cfg acts s c key now wall v source e x := by
  have hl := run_logged h
  have htraced : Traced cfg s key (.resolve now wall) (.ok v) source := run_callers h hc
  generalize hans : (Except.ok v : ResolveResult) = answer at htraced
  cases htraced with
  | l1 now wall e n hkind hstored hvalid hfresh =>
    cases hkind
    cases hans
    obtain ⟨hcap,x,hx,hkey,hret⟩ := hstored.fetched hl
    exact ⟨e,x,hstored,rfl,hx,hkey,hret,hcap.l1Path hvalid hfresh⟩
  | joined f fill n result hf hkey hp =>
    cases result with
    | error err => cases hans
    | ok e =>
      cases hans
      have hfetch : fill.phase.fetch? = some n := by simp [hp, Phase.fetch?]
      have hstored : Stored s.flight key n e := ⟨f,fill,hf,hkey,hfetch, by simp [hp, Phase.stored?]⟩
      obtain ⟨hcap,x,hx,hxkey,hret⟩ := hstored.fetched hl
      obtain ⟨x',hx',rfl,-⟩ := hl.call f fill n hf hfetch
      cases hx.symm.trans hx'
      exact ⟨e,x,hstored,rfl,hx,hxkey,hret,.joined _ n (run_joinedAt h hc rfl)⟩
  | stale f fill n err y e now wall hf hkey hp herr hy =>
    cases hans
    cases hy.kind
    obtain ⟨hcap,x,hx,hxkey,hret⟩ := hy.stored.fetched hl
    have hsession : e.outcome.isSome := by simp [hy.session]
    have hage : now < e.fetchedAt + cfg.l1Ttl + cfg.staleIfError :=
      hy.fresh.trans_le (hcap.stale_session hsession)
    cases err with
    | backend msg => cases herr
    | transport msg =>
      exact ⟨e,x,hy.stored,hy.session,hx,hxkey,hret.trans (by rw [hy.session]),
        .staleIfError y.session f y.fetch fill n msg (run_joinedAt h hc rfl) hf hp hy.window hage
          hy.unexpired⟩

def coldResolve (c f : ℕ) (key : TokenHash) (wall : ℤ) : List Act :=
  [.resolve key wall, .lookup c, .captureStale c, .run c, .callFetch f]

def settle (c f : ℕ) (fetched : Option ResolvedSession) (wall : ℤ) : List Act :=
  [.fetchReturns f (.ok fetched) .one wall, .put f, .cleanUp f, .receive c]

def outage (session : ResolvedSession) : List Act :=
  coldResolve 0 0 "k" 0 ++ settle 0 0 (some session) 0 ++ .tick (secs 31) :: coldResolve 1 1 "k" 0 ++
    [.fetchReturns 1 (.error (.transport "unavailable")) .one 0, .cleanUp 1, .receive 1]

theorem answer_provenance_outage : let cfg : ResolverConfig := { staleIfError := secs 60 }
    let session : ResolvedSession := ⟨"alice", "acme", secs 3600⟩
    ∃ s e x, Run cfg (outage session) s ∧
      AnsweredFrom cfg (outage session) s 1 "k" (secs 31) 0 (some session) (.stale 1 0) e x := by
  intro cfg session
  have hcaller : (exec (step cfg) (init cfg) (outage session)).map (fun s => s.callers[1]?) =
      some (some ⟨"k", .resolve (secs 31) 0, .answered (.ok (some session)) (.stale 1 0)⟩) := by
    decide +kernel
  obtain ⟨s,h,hs⟩ := Option.map_eq_some_iff.mp hcaller
  obtain ⟨e,x,hex⟩ := answer_provenance h hs
  exact ⟨s,e,x,h,hex⟩

end NioClient.Session
