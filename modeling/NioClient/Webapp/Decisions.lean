import NioClient.Webapp.Knowledge

/-! # What a session is good for

As long as the backend holds a session, whoever presents its token is told what the tuples
say of its principal.
-/
namespace NioClient.Webapp
open Environment Execution Axum Check Session
variable {H E : Type} {site : Site H E} {b : Backend} {s u : State H} {pre post : List (Action H)}
  {hash : TokenHash} {y : Backend.Session}

/-- What the tuples say of a request by the principal. -/
def Route.decision (b : Backend) (route : Route) (id principal : String) : Response Body :=
  if b.Allows (articleRequest id route.relation principal) then
    { status := 200, body := route.page? id ⟨principal⟩ }
  else { status := 403 }

theorem Route.decision_tuples {b' : Backend} (h : b'.tuples = b.tuples) (route : Route) (id principal : String) :
    route.decision b' id principal = route.decision b id principal := by
  have hallows (req : Check.Pb.CheckRequest) : b'.Allows req ↔ b.Allows req := by rw [Backend.Allows, Backend.Allows, h]
  simp only [decision, hallows]

theorem respond_checked (route : Route) (id : String) (session : ResolvedSession) :
    route.respond (.ofCheck ⟨id⟩ (checkResult (.ok (b.check (articleRequest id route.relation session.principal)))) :
      Verdict ArticleResource E) = route.decision b id session.principal := by
  rw [Route.decision]
  split
  · next hallows =>
    rw [Backend.check_of_allows hallows]
    rfl
  · next hdenied =>
    rw [Backend.check_of_not_allows hdenied]
    split <;> rfl

theorem along_held (hheld : Along (step site) (fun v _ => v.backend.sessions.lookup hash = some y) u post)
    (hunexpired : ∀ n nowUnix, .serve n nowUnix ∈ post → nowUnix < y.expiresAtUnix) :
    Along (step site) (Tells (· = some y.principal) hash) u post := by
  induction post generalizing u with
  | nil => trivial
  | cons a post ih =>
    obtain ⟨hhere,hrest⟩ := hheld
    refine ⟨?_,fun t ht => ih (hrest t ht) fun n nowUnix hn => hunexpired n nowUnix (List.mem_cons_of_mem _ hn)⟩
    rintro n nowUnix rfl
    rw [Backend.principal?_resolve, hhere]
    simp [Option.filter, hunexpired n nowUnix List.mem_cons_self]

theorem admits_possible {route : Route} {parts : Parts H} {A : AuthScheme} (hadmits : route.admits parts.method)
    (hscheme : route.scheme? = some A) : (articleRel parts.method).val ≠ Rel.IMPOSSIBLE := by
  rw [articleRel_relation hadmits (by rw [hscheme]; rfl)]
  cases route with
  | uiArticle | publicArticle | apiGet | apiUpdate => decide
  | _ => cases hscheme

/-- While the backend holds a session of the token, unexpired by its own clock, a later request
for an article has the decision of the tuples on the session's principal, or an internal error. -/
theorem held_decided (hb : b.sessions = ∅) (hpre : exec (step site) (init site b) pre = some u)
    (hcached : ∀ z, u.resolver.cache.peek hash = some z → Knows (· = some y.principal) u z.fetch)
    (hflying : ∀ n, InFlight u.resolver.flight hash n → Knows (· = some y.principal) u n)
    (hheld : Along (step site) (fun v _ => v.backend.sessions.lookup hash = some y) u post)
    (hunexpired : ∀ n nowUnix, .serve n nowUnix ∈ post → nowUnix < y.expiresAtUnix)
    (hpost : exec (step site) u post = some s) {r : ℕ} {x : Request H} {A : AuthScheme} {token id : String}
    {response : Response Body} (hr : u.requests.length ≤ r) (hx : s.requests[r]? = some x)
    (hscheme : x.route.scheme? = some A) (htoken : A.token site.crates x.parts.headers = some token)
    (hhash : tokenHash site.crates token = hash) (hpath : site.path x.parts = .ok id)
    (hdone : x.response? = some response) :
    response = x.route.decision b id y.principal ∨ response = { status := 500 } := by
  have hs := (run_sound hb hpre).exec hpost
  have hok := hs.requests r x hx
  have hreaches := hs.reaches hx hdone
  obtain ⟨own,verdict,hlog,rfl,hown⟩ := handle_verdict hscheme hreaches
  have hresolved (v : Option ResolvedSession) (hv : ⟨.resolve (tokenHash site.crates token),.ok v⟩ ∈ own) :
      v.map (·.principal) = some y.principal := by
    have hmem := List.mem_map_of_mem (f := extractorEntry) hv
    rw [← hlog] at hmem
    exact later_answer hb hpre hcached hflying (along_held hheld hunexpired) hpost hr hx (hhash ▸ hmem)
  cases (identified_article hpath htoken).reaches hown with
  | fault err => exact Or.inr rfl
  | unknown => cases hresolved none List.mem_cons_self
  | impossible session hrel => exact absurd hrel (admits_possible hok.admitted hscheme)
  | checked session hrel reply =>
    have hprincipal : session.principal = y.principal := Option.some.inj (hresolved _ List.mem_cons_self)
    rw [guardRequest_article, articleRel_relation hok.admitted (by rw [hscheme]; rfl)] at hlog
    let req := articleRequest id x.route.relation session.principal
    have hfounded := hok.founded ⟨.extractor (.rpc (.check req)),reply⟩ (by simp [hlog, extractorEntry, req])
    rcases hfounded with hreply | ⟨status,hlost⟩
    · obtain rfl : reply = .ok (s.backend.check (articleRequest id x.route.relation session.principal)) := hreply
      exact Or.inl ((respond_checked ..).trans (hprincipal ▸ Route.decision_tuples hs.tuples _ _ _))
    · obtain rfl : reply = .error status := hlost
      exact Or.inr rfl

theorem held_decided_alice : ∃ s x,
    exec (step demoSite) (init demoSite (seed .new)) demoRead = some s ∧ s.requests[1]? = some x ∧
    x.response? = some { status := 200, body := some (articlePage "1" ⟨ALICE⟩) } ∧
    (({ status := 200, body := some (articlePage "1" ⟨ALICE⟩) } : Response Body) =
      x.route.decision (seed .new) "1" ALICE ∨
      ({ status := 200, body := some (articlePage "1" ⟨ALICE⟩) } : Response Body) = { status := 500 }) := by
  let hash := tokenHash demoSite.crates demoToken
  let y : Backend.Session := ⟨ALICE,1700003600⟩
  let post := demoVisit .uiArticle "/articles/1" 1 0 ++ [.rpc 1 none]
  have hpre : (exec (step demoSite) (init demoSite (seed .new)) demoSignin).map (fun u =>
      (u.resolver.cache.peek hash,u.resolver.flight.fills,u.requests.length,
        decide (Along (step demoSite) (fun v _ => v.backend.sessions.lookup hash = some y) u post))) =
      some (none,[],1,true) := by decide +kernel
  have hrun : (exec (step demoSite) (init demoSite (seed .new)) demoRead).map (fun s =>
      s.requests[1]?.map fun x => (x.route,x.response?)) =
      some (some (.uiArticle,some { status := 200, body := some (articlePage "1" ⟨ALICE⟩) })) := by decide +kernel
  have hsent : (exec (step demoSite) (init demoSite (seed .new)) demoRead).map (fun s =>
      s.requests[1]?.map fun x => (x.parts.headers,x.parts.pathAndQuery)) =
      some (some (some demoToken,some "/articles/1")) := by decide +kernel
  obtain ⟨u,hu,hstate⟩ := Option.map_eq_some_iff.mp hpre
  simp only [Prod.mk.injEq] at hstate
  obtain ⟨huncached,hfills,hlen,hheld⟩ := hstate
  obtain ⟨s,h,hs⟩ := Option.map_eq_some_iff.mp hrun
  obtain ⟨x,hx,hs⟩ := Option.map_eq_some_iff.mp hs
  obtain ⟨hroute,hdone⟩ := Prod.mk.inj hs
  rw [h, Option.map_some, hx, Option.map_some, Option.some.injEq, Option.some.injEq] at hsent
  obtain ⟨hheaders,hquery⟩ := Prod.mk.inj hsent
  obtain ⟨v,hv,hpost⟩ := exec_append_iff.mp (show exec _ _ (demoSignin ++ post) = some s from h)
  cases hu.symm.trans hv
  have hscheme : x.route.scheme? = some .sessionCookieAuth := by
    rw [hroute]
    rfl
  have htoken : AuthScheme.sessionCookieAuth.token demoSite.crates x.parts.headers = some demoToken := by
    rw [hheaders]
    rfl
  have hpath : demoSite.path x.parts = .ok "1" := by simp [demoSite, hquery]
  refine ⟨s,x,h,hx,hdone,?_⟩
  refine held_decided (y := y) rfl hu (fun z hz => by cases huncached.symm.trans hz) ?_ (of_decide_eq_true hheld) ?_
    hpost hlen.le hx hscheme htoken rfl hpath hdone
  · rintro n ⟨f,fill,hf,-⟩
    rw [hfills] at hf
    cases hf
  · simp [post, demoVisit, y]

end NioClient.Webapp
