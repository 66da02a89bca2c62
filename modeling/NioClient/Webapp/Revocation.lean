import NioClient.Session.AnswerAge
import NioClient.Webapp.Knowledge

/-! # How a sign-out takes effect

The handler removes the session at the backend, and evicts it from the resolver's cache. A
reply which the backend has given before is the one way in which the session lives on.
-/
namespace NioClient.Webapp
open Environment Execution Axum Check Session
variable {H E : Type} {site : Site H E} {b : Backend} {s t u : State H} {a : Action H}
  {pre post : List (Action H)} {hash : TokenHash}

def Action.issues (site : Site H E) (hash : TokenHash) : Action H → Prop
  | .createSession _ bytes _ => tokenHash site.crates (hexEncode bytes.toList) = hash
  | _ => False

theorem step_gone (h : step site s a = some t) (hgone : s.backend.sessions.lookup hash = none)
    (ha : ¬ a.issues site hash) : t.backend.sessions.lookup hash = none := by
  by_contra hheld
  obtain ⟨y,hy⟩ := Option.ne_none_iff_exists'.mp hheld
  rcases step_sessions h hy with hold | ⟨r,bytes,nowUnix,x,rfl,hhash,-⟩
  · cases hgone.symm.trans hold
  · exact ha hhash

/-- Of a token without a session the backend tells that there is none. -/
theorem along_gone (hgone : u.backend.sessions.lookup hash = none) (hfresh : ∀ a ∈ post, ¬ a.issues site hash) :
    Along (step site) (Tells (· = none) hash) u post := by
  induction post generalizing u with
  | nil => trivial
  | cons a post ih =>
    refine ⟨fun n nowUnix _ => ?_,fun t ht => ih ?_ fun c hc => hfresh c (List.mem_cons_of_mem _ hc)⟩
    · rw [Backend.principal?_resolve, hgone]
      rfl
    · exact step_gone ht hgone (hfresh a List.mem_cons_self)

/-- Once the backend holds no session of a token, the cache holds nothing of it, and no fetch in
flight has come to know one, no later request is shown an article for it. -/
theorem signedOut_denied (hb : b.sessions = ∅) (hpre : exec (step site) (init site b) pre = some u)
    (hgone : u.backend.sessions.lookup hash = none) (huncached : u.resolver.cache.peek hash = none)
    (hquiet : ∀ n, InFlight u.resolver.flight hash n → Knows (· = none) u n)
    (hfresh : ∀ a ∈ post, ¬ a.issues site hash) (hpost : exec (step site) u post = some s) {r : ℕ}
    {x : Request H} {A : AuthScheme} {token : String} {response : Response Body}
    (hr : u.requests.length ≤ r) (hx : s.requests[r]? = some x) (hscheme : x.route.scheme? = some A)
    (htoken : A.token site.crates x.parts.headers = some token) (hhash : tokenHash site.crates token = hash)
    (hdone : x.response? = some response) : ∀ body, response.body = some body → body.viewed = false := by
  intro body hbody
  by_contra hviewed
  have hs := (run_sound hb hpre).exec hpost
  obtain ⟨token',id,principal,session,c,now,wall,source,hgrant,-⟩ :=
    hs.grant hx hdone hbody (by simpa using hviewed)
  obtain rfl := hgrant.token hscheme htoken
  have hresolved := hgrant.resolved
  rw [hhash] at hresolved
  cases later_answer hb hpre (fun z hz => by cases huncached.symm.trans hz) hquiet (along_gone hgone hfresh)
    hpost hr hx hresolved

def demoSignout : List (Action (Option String)) :=
  demoRead ++ [.arrive .signout ⟨.post,some "/signout",some demoToken⟩,.removeSession 2,.evict 2]

def demoReturn : List (Action (Option String)) := demoVisit .publicArticle "/public/articles/1" 3 1

theorem demoSignout_state {u : State (Option String)}
    (h : exec (step demoSite) (init demoSite (seed .new)) demoSignout = some u) :
    u.backend.sessions.lookup (tokenHash demoSite.crates demoToken) = none ∧
    u.resolver.cache.peek (tokenHash demoSite.crates demoToken) = none ∧
    (∀ n, ¬ InFlight u.resolver.flight (tokenHash demoSite.crates demoToken) n) ∧
    u.requests.length = 3 ∧ u.now = 0 := by
  have hstate : (exec (step demoSite) (init demoSite (seed .new)) demoSignout).map (fun u =>
      (u.backend.sessions.lookup (tokenHash demoSite.crates demoToken),
        u.resolver.cache.peek (tokenHash demoSite.crates demoToken),
        u.resolver.flight.fills.map (·.phase.live),u.requests.length,u.now)) =
      some (none,none,[false],3,0) := by decide +kernel
  rw [h, Option.map_some, Option.some.injEq] at hstate
  simp only [Prod.mk.injEq] at hstate
  obtain ⟨hgone,huncached,hlive,hlen,hnow⟩ := hstate
  refine ⟨hgone,huncached,?_,hlen,hnow⟩
  rintro n ⟨f,fill,hf,-,hlivef,-⟩
  have hmem : fill.phase.live ∈ u.resolver.flight.fills.map (·.phase.live) :=
    List.mem_map_of_mem (List.mem_of_getElem? hf)
  simp [hlive, hlivef] at hmem

theorem signedOut_denied_alice : ∃ s x,
    exec (step demoSite) (init demoSite (seed .new)) (demoSignout ++ demoReturn) = some s ∧
    s.requests[3]? = some x ∧
    x.response? = some { status := 200, body := some (publicPage "1" none) } ∧
    ∀ body, some (publicPage "1" none) = some body → body.viewed = false := by
  have hrun : (exec (step demoSite) (init demoSite (seed .new)) (demoSignout ++ demoReturn)).map (fun s =>
      s.requests[3]?.map fun x => (x.route,x.parts.headers,x.response?)) =
      some (some (.publicArticle,some demoToken,
        some { status := 200, body := some (publicPage "1" none) })) := by decide +kernel
  obtain ⟨s,h,hs⟩ := Option.map_eq_some_iff.mp hrun
  obtain ⟨x,hx,hs⟩ := Option.map_eq_some_iff.mp hs
  simp only [Prod.mk.injEq] at hs
  obtain ⟨hroute,hheaders,hdone⟩ := hs
  obtain ⟨u,hu,hpost⟩ := exec_append_iff.mp h
  obtain ⟨hgone,huncached,hquiet,hlen,-⟩ := demoSignout_state hu
  have hscheme : x.route.scheme? = some .sessionCookieAuth := by
    rw [hroute]
    rfl
  have htoken : AuthScheme.sessionCookieAuth.token demoSite.crates x.parts.headers = some demoToken := by
    rw [hheaders]
    rfl
  refine ⟨s,x,h,hx,hdone,?_⟩
  refine signedOut_denied rfl hu hgone huncached (fun n hn => absurd hn (hquiet n)) ?_ hpost hlen.le hx hscheme
    htoken rfl hdone
  simp [demoReturn, demoVisit, Action.issues]

/-- A runtime which delays nothing by more than `δ` lets nobody in with a token for longer, once
the backend holds no session of it, than the timeout, the caching windows and three delays. -/
theorem revoked_denied {δ : ℕ} (hb : b.sessions = ∅) (hpre : exec (step site) (init site b) pre = some u)
    (hgone : u.backend.sessions.lookup hash = none) (hfresh : ∀ a ∈ post, ¬ a.issues site hash)
    (hpost : exec (step site) u post = some s) (hpunctual : Punctual site.cfg δ s.acts) {r : ℕ}
    {x : Request H} {A : AuthScheme} {token : String} {response : Response Body}
    (hx : s.requests[r]? = some x) (hscheme : x.route.scheme? = some A)
    (htoken : A.token site.crates x.parts.headers = some token) (hhash : tokenHash site.crates token = hash)
    (hlate : u.now + RESOLVE_TIMEOUT + (site.cfg.l1Ttl + site.cfg.staleIfError) + 3 * δ < x.arrival.now)
    (hdone : x.response? = some response) : ∀ body, response.body = some body → body.viewed = false := by
  intro body hbody
  by_contra hviewed
  have hu := run_sound hb hpre
  have hs := hu.exec hpost
  have hlearned : Learned (· = none) hash (fun n => u.resolver.flight.fetches.length ≤ n) u := by
    intro n y hle hy
    exact absurd (List.getElem?_eq_some_iff.mp hy).1 (Nat.not_lt.mpr hle)
  obtain ⟨token',id,principal,session,c,now,wall,source,hgrant,hbefore,hc⟩ :=
    hs.grant hx hdone hbody (by simpa using hviewed)
  obtain rfl := hgrant.token hscheme htoken
  obtain ⟨y,hy,hkey,hret,hage⟩ := answer_began hs.run hpunctual hc
  by_cases hlt : source.fetch < u.resolver.flight.fetches.length
  · obtain ⟨y',hy',-,hbegan⟩ := exec_fetch hpost (List.getElem?_eq_getElem hlt)
    cases hy.symm.trans hy'
    obtain ⟨fill,hf,hn⟩ := (run_logged hu.run).caller _ _ (List.getElem?_eq_getElem hlt)
    have hthen := run_began hu.run ⟨fill,_,_,hf,hn,List.getElem?_eq_getElem hlt,rfl⟩
    have harrived := hbefore.2
    simp only [ResolverConfig.window] at hage
    unfold State.now at hlate
    omega
  · have hknows := hlearned.exec hu (along_gone hgone hfresh) hpost _ y (Nat.not_lt.mp hlt) hy (hkey.trans hhash)
    cases hknows.returned y _ hy hret

def demoActs : List Act :=
  let hash := tokenHash demoSite.crates demoToken
  let wall := 1700000000000000000
  coldResolve 0 0 hash wall ++ settle 0 0 (some ⟨ALICE,"demo",wall + secs 3600⟩) wall ++ [.evict hash] ++
    [.tick (secs 36)] ++ coldResolve 1 1 hash wall ++ settle 1 1 none wall

theorem demoActs_punctual : Punctual {} 0 demoActs := punctual_of_rests (by decide +kernel)

theorem revoked_denied_alice : ∃ s x,
    exec (step demoSite) (init demoSite (seed .new))
      (demoSignout ++ .resolver (.tick (secs 36)) :: demoReturn) = some s ∧
    s.requests[3]? = some x ∧
    x.response? = some { status := 200, body := some (publicPage "1" none) } ∧
    ∀ body, some (publicPage "1" none) = some body → body.viewed = false := by
  have hrun : (exec (step demoSite) (init demoSite (seed .new))
      (demoSignout ++ .resolver (.tick (secs 36)) :: demoReturn)).map (fun s =>
      s.requests[3]?.map fun x => (x.route,x.parts.headers,x.response?)) =
      some (some (.publicArticle,some demoToken,
        some { status := 200, body := some (publicPage "1" none) })) := by decide +kernel
  have hlog : (exec (step demoSite) (init demoSite (seed .new))
      (demoSignout ++ .resolver (.tick (secs 36)) :: demoReturn)).map (fun s =>
      (s.acts,s.requests[3]?.map (·.arrival.now))) = some (demoActs,some (secs 36)) := by decide +kernel
  obtain ⟨s,h,hs⟩ := Option.map_eq_some_iff.mp hrun
  obtain ⟨x,hx,hs⟩ := Option.map_eq_some_iff.mp hs
  simp only [Prod.mk.injEq] at hs
  obtain ⟨hroute,hheaders,hdone⟩ := hs
  rw [h, Option.map_some, hx, Option.map_some, Option.some.injEq] at hlog
  simp only [Prod.mk.injEq, Option.some.injEq] at hlog
  obtain ⟨hacts,harrived⟩ := hlog
  obtain ⟨u,hu,hpost⟩ := exec_append_iff.mp h
  obtain ⟨hgone,-,-,-,hnow⟩ := demoSignout_state hu
  have hscheme : x.route.scheme? = some .sessionCookieAuth := by
    rw [hroute]
    rfl
  have htoken : AuthScheme.sessionCookieAuth.token demoSite.crates x.parts.headers = some demoToken := by
    rw [hheaders]
    rfl
  refine ⟨s,x,h,hx,hdone,?_⟩
  refine revoked_denied rfl hu hgone ?_ hpost (hacts ▸ demoActs_punctual) hx hscheme htoken rfl ?_ hdone
  · simp [demoReturn, demoVisit, Action.issues]
  · rw [hnow, harrived]
    decide

end NioClient.Webapp
