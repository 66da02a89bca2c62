import NioClient.Webapp.Serving

/-! # What one step of the app does

All that is proved about the steps of the app follows from these cases.
-/
namespace NioClient.Webapp
open Environment Execution Axum Check Session
variable {H E : Type} {site : Site H E} {s t : State H} {a : Action H}

def State.moved (s : State H) (a : Act) (resolver : Session.State) : State H :=
  { s with resolver, acts := s.acts ++ [a] }

inductive Effect (site : Site H E) (s : State H) : Action H → State H → Prop
  | arrive {route parts} (hadmits : route.admits parts.method) : Effect site s (.arrive route parts)
      { s with requests := s.requests ++ [⟨route,parts,s.arrival,[],.running (handle site parts route)⟩] }
  | resolve {r wall x hash next resolver} (hx : s.requests[r]? = some x)
      (hstage : x.stage = .running (.call (.extractor (.resolve hash)) next))
      (hstep : Session.step site.cfg s.resolver (.resolve hash wall) = some resolver) :
      Effect site s (.resolve r wall) ((s.moved (.resolve hash wall) resolver).setStage r x
        (.resolving s.resolver.callers.length hash next))
  | answered {r x c hash next caller answer source} (hx : s.requests[r]? = some x)
      (hstage : x.stage = .resolving c hash next) (hc : s.resolver.callers[c]? = some caller)
      (hphase : caller.phase = .answered answer source) :
      Effect site s (.answered r) (s.goOn r x (.extractor (.resolve hash)) answer (next answer))
  | panicked {r x c hash next caller} (hx : s.requests[r]? = some x)
      (hstage : x.stage = .resolving c hash next) (hc : s.resolver.callers[c]? = some caller)
      (hphase : caller.phase = .panicked) : Effect site s (.answered r) (s.setStage r x .panicked)
  | rpc {r lost x rpc next reply} (hx : s.requests[r]? = some x)
      (hstage : x.stage = .running (.call (.extractor (.rpc rpc)) next))
      (hreply : reply = s.backend.reply rpc ∨ ∃ status, reply = lostRpc status rpc) :
      Effect site s (.rpc r lost) (s.goOn r x (.extractor (.rpc rpc)) reply (next reply))
  | createSession {r bytes nowUnix x principal next raw backend} (hx : s.requests[r]? = some x)
      (hstage : x.stage = .running (.call (.createSession principal) next))
      (hcreate : s.backend.createSession site.crates principal bytes nowUnix = (raw,backend)) :
      Effect site s (.createSession r bytes nowUnix)
        ({ s with backend }.goOn r x (.createSession principal) raw (next raw))
  | removeSession {r x hash next} (hx : s.requests[r]? = some x)
      (hstage : x.stage = .running (.call (.removeSession hash) next)) :
      Effect site s (.removeSession r) ({ s with backend := s.backend.removeSession hash }.goOn r x
        (.removeSession hash) () (next ()))
  | evict {r x hash next resolver} (hx : s.requests[r]? = some x)
      (hstage : x.stage = .running (.call (.evict hash) next))
      (hstep : Session.step site.cfg s.resolver (.evict hash) = some resolver) :
      Effect site s (.evict r) ((s.moved (.evict hash) resolver).goOn r x (.evict hash) () (next ()))
  | drop {r x rpc next} (hx : s.requests[r]? = some x)
      (hstage : x.stage = .running (.call (.extractor (.rpc rpc)) next)) :
      Effect site s (.drop r) (s.setStage r x .dropped)
  | cancel {r x c hash next resolver} (hx : s.requests[r]? = some x)
      (hstage : x.stage = .resolving c hash next)
      (hstep : Session.step site.cfg s.resolver (.cancel c) = some resolver) :
      Effect site s (.drop r) ((s.moved (.cancel c) resolver).setStage r x .dropped)
  | serve {n nowUnix x} (hx : s.resolver.flight.fetches[n]? = some x) (hnew : s.served.lookup n = none) :
      Effect site s (.serve n nowUnix)
        { s with served := s.served.insert n (s.backend.resolve nowUnix ⟨x.key⟩) }
  | fetchReturns {f lost decodedAt jitter wall fill n reply resolver}
      (hf : s.resolver.flight.fills[f]? = some fill) (hn : fill.phase.fetch? = some n)
      (hreply : ∀ resp, reply = .ok resp → s.served.lookup n = some resp)
      (hstep : Session.step site.cfg s.resolver
        (.fetchReturns f (fetched site fill.key reply decodedAt) jitter wall) = some resolver) :
      Effect site s (.fetchReturns f lost decodedAt jitter wall)
        (s.moved (.fetchReturns f (fetched site fill.key reply decodedAt) jitter wall) resolver)
  | resolver {a resolver} (ha : internal a) (hstep : Session.step site.cfg s.resolver a = some resolver) :
      Effect site s (.resolver a) (s.moved a resolver)

theorem act_eq {a : Act} (h : s.act site a = some t) :
    ∃ resolver, Session.step site.cfg s.resolver a = some resolver ∧ t = s.moved a resolver := by
  obtain ⟨resolver,hstep,rfl⟩ := Option.map_eq_some_iff.mp h
  exact ⟨resolver,hstep,rfl⟩

theorem fetched_ok {key : TokenHash} {reply : Except Status Session.Pb.ResolveResponse} {decodedAt : ℤ}
    {v : Option ResolvedSession} (h : fetched site key reply decodedAt = .ok v) :
    ∃ resp, reply = .ok resp ∧ Backend.principal? resp = v.map (·.principal) := by
  rcases reply with status | ⟨_ | outcome⟩
  · cases h
  · cases h
    exact ⟨_,rfl,rfl⟩
  · cases outcome with
    | notFound =>
      cases h
      exact ⟨_,rfl,rfl⟩
    | session principal e tenantId =>
      have hrun : fetched site key (.ok ⟨some (.session principal e tenantId)⟩) decodedAt =
          .ok (some ⟨principal,tenantId,(site.fromTimestamp e).getD decodedAt⟩) := fetch_session rfl
      cases hrun.symm.trans h
      exact ⟨_,rfl,rfl⟩

theorem arrive_effect {route : Route} {parts : Parts H} (h : s.arrive site route parts = some t) :
    Effect site s (.arrive route parts) t := by
  unfold State.arrive at h
  split at h
  · next hadmits =>
    cases h
    exact .arrive hadmits
  · cases h

theorem resolve_effect {r : ℕ} {wall : ℤ} (h : s.resolve site r wall = some t) :
    Effect site s (.resolve r wall) t := by
  obtain ⟨x,hx,h⟩ := Option.bind_eq_some_iff.mp h
  split at h
  · next hash next hstage =>
    obtain ⟨s',hact,h⟩ := Option.bind_eq_some_iff.mp h
    obtain ⟨resolver,hstep,rfl⟩ := act_eq hact
    cases h
    exact .resolve hx hstage hstep
  · cases h

theorem answered_effect {r : ℕ} (h : s.answered r = some t) : Effect site s (.answered r) t := by
  obtain ⟨x,hx,h⟩ := Option.bind_eq_some_iff.mp h
  split at h
  · next c hash next hstage =>
    obtain ⟨caller,hc,h⟩ := Option.bind_eq_some_iff.mp h
    split at h
    · next answer source hphase =>
      cases h
      exact .answered hx hstage hc hphase
    · next hphase =>
      cases h
      exact .panicked hx hstage hc hphase
    · cases h
  · cases h

theorem rpc_effect {r : ℕ} {lost : Option Status} (h : s.rpc r lost = some t) :
    Effect site s (.rpc r lost) t := by
  obtain ⟨x,hx,h⟩ := Option.bind_eq_some_iff.mp h
  split at h
  · next rpc next hstage =>
    cases h
    refine .rpc hx hstage ?_
    cases lost with
    | none => exact Or.inl rfl
    | some status => exact Or.inr ⟨status,rfl⟩
  · cases h

theorem createSession_effect {r : ℕ} {bytes : Vector UInt8 32} {nowUnix : Int64}
    (h : s.createSession site r bytes nowUnix = some t) :
    Effect site s (.createSession r bytes nowUnix) t := by
  obtain ⟨x,hx,h⟩ := Option.bind_eq_some_iff.mp h
  split at h
  · next principal next hstage =>
    cases h
    exact .createSession hx hstage rfl
  · cases h

theorem removeSession_effect {r : ℕ} (h : s.removeSession r = some t) :
    Effect site s (.removeSession r) t := by
  obtain ⟨x,hx,h⟩ := Option.bind_eq_some_iff.mp h
  split at h
  · next hash next hstage =>
    cases h
    exact .removeSession hx hstage
  · cases h

theorem evict_effect {r : ℕ} (h : s.evict site r = some t) : Effect site s (.evict r) t := by
  obtain ⟨x,hx,h⟩ := Option.bind_eq_some_iff.mp h
  split at h
  · next hash next hstage =>
    obtain ⟨s',hact,h⟩ := Option.bind_eq_some_iff.mp h
    obtain ⟨resolver,hstep,rfl⟩ := act_eq hact
    cases h
    exact .evict hx hstage hstep
  · cases h

theorem drop_effect {r : ℕ} (h : s.drop site r = some t) : Effect site s (.drop r) t := by
  obtain ⟨x,hx,h⟩ := Option.bind_eq_some_iff.mp h
  split at h
  · next rpc next hstage =>
    cases h
    exact .drop hx hstage
  · next c hash next hstage =>
    obtain ⟨s',hact,h⟩ := Option.bind_eq_some_iff.mp h
    obtain ⟨resolver,hstep,rfl⟩ := act_eq hact
    cases h
    exact .cancel hx hstage hstep
  · cases h

theorem serve_effect {n : ℕ} {nowUnix : Int64} (h : s.serve n nowUnix = some t) :
    Effect site s (.serve n nowUnix) t := by
  obtain ⟨x,hx,h⟩ := Option.bind_eq_some_iff.mp h
  split at h
  · cases h
  · next hnew =>
    cases h
    exact .serve hx hnew

theorem fetchReturns_effect {f : ℕ} {lost : Option Status} {decodedAt : ℤ} {jitter : Jitter} {wall : ℤ}
    (h : s.fetchReturns site f lost decodedAt jitter wall = some t) :
    Effect site s (.fetchReturns f lost decodedAt jitter wall) t := by
  obtain ⟨fill,hf,h⟩ := Option.bind_eq_some_iff.mp h
  obtain ⟨n,hn,h⟩ := Option.bind_eq_some_iff.mp h
  obtain ⟨reply,hreply,h⟩ := Option.bind_eq_some_iff.mp h
  obtain ⟨resolver,hstep,rfl⟩ := act_eq h
  refine .fetchReturns hf hn ?_ hstep
  rintro resp rfl
  cases lost with
  | none =>
    obtain ⟨resp',hresp,hok⟩ := Option.map_eq_some_iff.mp hreply
    cases hok
    exact hresp
  | some status => cases hreply

theorem step_effect (h : step site s a = some t) : Effect site s a t := by
  cases a with
  | arrive route parts => exact arrive_effect h
  | resolve r wall => exact resolve_effect h
  | answered r => exact answered_effect h
  | rpc r lost => exact rpc_effect h
  | createSession r bytes nowUnix => exact createSession_effect h
  | removeSession r => exact removeSession_effect h
  | evict r => exact evict_effect h
  | drop r => exact drop_effect h
  | serve n nowUnix => exact serve_effect h
  | fetchReturns f lost decodedAt jitter wall => exact fetchReturns_effect h
  | resolver a =>
    simp only [step] at h
    split at h
    · next ha =>
      obtain ⟨resolver,hstep,rfl⟩ := act_eq h
      exact .resolver ha hstep
    · cases h

/-- The resolver rests or takes one of its steps; what a fetch returns comes from the reply that
the backend has given to it. -/
theorem step_resolver (h : step site s a = some t) : t.resolver = s.resolver ∧ t.acts = s.acts ∨
    ∃ act, Session.step site.cfg s.resolver act = some t.resolver ∧ t.acts = s.acts ++ [act] ∧
      ∀ f returned jitter wall, act = .fetchReturns f returned jitter wall → ∃ fill n reply decodedAt,
        s.resolver.flight.fills[f]? = some fill ∧ fill.phase.fetch? = some n ∧
        (∀ resp, reply = .ok resp → s.served.lookup n = some resp) ∧
        returned = fetched site fill.key reply decodedAt := by
  cases step_effect h with
  | arrive | answered | panicked | rpc | createSession | removeSession | drop | serve => exact Or.inl ⟨rfl,rfl⟩
  | resolve hx hstage hstep => exact Or.inr ⟨_,hstep,rfl,fun _ _ _ _ ha => by cases ha⟩
  | evict hx hstage hstep => exact Or.inr ⟨_,hstep,rfl,fun _ _ _ _ ha => by cases ha⟩
  | cancel hx hstage hstep => exact Or.inr ⟨_,hstep,rfl,fun _ _ _ _ ha => by cases ha⟩
  | fetchReturns hf hn hreply hstep =>
    refine Or.inr ⟨_,hstep,rfl,fun _ _ _ _ ha => ?_⟩
    cases ha
    exact ⟨_,_,_,_,hf,hn,hreply,rfl⟩
  | resolver ha hstep =>
    refine Or.inr ⟨_,hstep,rfl,fun f returned jitter wall hreturns => ?_⟩
    rw [hreturns] at ha
    cases ha

theorem step_sessions (h : step site s a = some t) {hash : TokenHash} {y : Backend.Session}
    (hy : t.backend.sessions.lookup hash = some y) : s.backend.sessions.lookup hash = some y ∨
      ∃ r bytes nowUnix x, a = .createSession r bytes nowUnix ∧
        tokenHash site.crates (hexEncode bytes.toList) = hash ∧ t.requests[r]? = some x ∧
        ⟨.createSession y.principal,hexEncode bytes.toList⟩ ∈ x.log := by
  cases step_effect h with
  | @createSession r bytes nowUnix x principal next raw backend hx hstage hcreate =>
    cases hcreate
    by_cases hhash : tokenHash site.crates (hexEncode bytes.toList) = hash
    · subst hhash
      obtain rfl := Option.some.inj ((AList.lookup_insert _).symm.trans hy)
      refine Or.inr ⟨r,bytes,nowUnix,_,rfl,rfl,List.getElem?_set_self (List.getElem?_eq_some_iff.mp hx).1,?_⟩
      exact List.mem_append_right _ (List.mem_singleton_self _)
    · exact Or.inl ((AList.lookup_insert_ne (Ne.symm hhash)).symm.trans hy)
  | @removeSession r x hash' next hx =>
    by_cases hhash : hash = hash'
    · subst hhash
      cases (AList.lookup_erase hash s.backend.sessions).symm.trans hy
    · exact Or.inl ((AList.lookup_erase_ne hhash).symm.trans hy)
  | _ => exact Or.inl hy

theorem step_served (h : step site s a = some t) {n : ℕ} {resp : Session.Pb.ResolveResponse}
    (hn : t.served.lookup n = some resp) : s.served.lookup n = some resp ∨
      ∃ nowUnix x, a = .serve n nowUnix ∧ s.resolver.flight.fetches[n]? = some x ∧
        resp = s.backend.resolve nowUnix ⟨x.key⟩ := by
  cases step_effect h with
  | @serve m nowUnix x hx hnew =>
    by_cases hm : n = m
    · subst hm
      exact Or.inr ⟨nowUnix,x,rfl,hx,(Option.some.inj ((AList.lookup_insert _).symm.trans hn)).symm⟩
    · exact Or.inl ((AList.lookup_insert_ne hm).symm.trans hn)
  | _ => exact Or.inl hn

theorem step_fetch (h : step site s a = some t) {n : ℕ} {x : Fetch}
    (hx : s.resolver.flight.fetches[n]? = some x) : ∃ y, t.resolver.flight.fetches[n]? = some y ∧
      y.key = x.key ∧ y.beganAt = x.beganAt := by
  rcases step_resolver h with ⟨hsame,-⟩ | ⟨act,hstep,-⟩
  · exact ⟨x,hsame ▸ hx,rfl,rfl⟩
  · obtain ⟨y,hy,-,hkey,hbegan⟩ := (step_flight hstep).fetch_later hx
    exact ⟨y,hy,hkey,hbegan⟩

/-- A fetch which has returned had returned, or it returns what the backend has replied to it. -/
theorem step_fetched (h : step site s a = some t) (hl : s.resolver.flight.Logged site.cfg) {n : ℕ}
    {x : Fetch} {v : Option ResolvedSession} (hx : t.resolver.flight.fetches[n]? = some x)
    (hret : x.returned = some (.ok v)) : s.resolver.flight.fetches[n]? = some x ∨
      ∃ resp y, s.served.lookup n = some resp ∧ Backend.principal? resp = v.map (·.principal) ∧
        s.resolver.flight.fetches[n]? = some y ∧ y.key = x.key := by
  rcases step_resolver h with ⟨hsame,-⟩ | ⟨act,hstep,-,hreturns⟩
  · exact Or.inl (hsame ▸ hx)
  · rcases step_returned hstep hx hret with hold | ⟨f,jitter,wall,fill,ha,hf,hp⟩
    · exact Or.inl hold
    · obtain ⟨fill',m,reply,decodedAt,hf',hm,hreply,hfetched⟩ := hreturns f _ jitter wall ha
      cases hf.symm.trans hf'
      rw [hp] at hm
      cases hm
      obtain ⟨y,hy,-,-⟩ := hl.call f fill n hf (by rw [hp]; rfl)
      obtain ⟨x',hx',-,hkey,-⟩ := (step_flight hstep).fetch_later hy
      cases hx.symm.trans hx'
      obtain ⟨resp,rfl,hprincipal⟩ := fetched_ok hfetched.symm
      exact Or.inr ⟨resp,y,hreply resp rfl,hprincipal,hy,hkey.symm⟩

end NioClient.Webapp
