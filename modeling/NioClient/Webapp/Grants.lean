import NioClient.Webapp.App

/-! # What the handlers show, and on which replies -/
namespace NioClient.Webapp
open Environment Axum Check Session
variable {H E : Type} {site : Site H E} {parts : Parts H} {route : Route} {response : Response Body} {body : Body}

abbrev CallLog := List (Σ call, AppCall.Reply call)

variable {log : CallLog}

def Route.scheme? : Route → Option AuthScheme
  | .uiArticle | .publicArticle => some .sessionCookieAuth
  | .apiGet | .apiUpdate => some .bearerTokenAuth
  | _ => none

def Route.relation : Route → String
  | .apiUpdate => REL_UPDATE
  | _ => REL_GET

def Route.page? (id : String) (principal : Principal) : Route → Option Body
  | .uiArticle => some (articlePage id principal)
  | .publicArticle => some (publicPage id (some principal))
  | .apiGet => some (viewJson id principal)
  | .apiUpdate => some (updateJson id principal)
  | _ => none

/-- The response of a route with a guard. Without a session there is the public page, or the
way to sign in. -/
def Route.respond (route : Route) : Verdict ArticleResource E → Response Body
  | .granted principal resource => { status := 200, body := route.page? resource.id principal }
  | .noSession resource location =>
    if route = .publicArticle then { status := 200, body := some (publicPage resource.id none) }
    else .redirectTo location
  | .failed err => err.intoResponse

/-- The body is of an article, and names its viewer. -/
def Body.viewed : Body → Bool
  | .article .. | .view .. | .update .. => true
  | .publicArticle _ _ _ viewer => viewer.isSome
  | _ => false

def articleRequest (id relation principal : String) : Check.Pb.CheckRequest :=
  ⟨NAMESPACE,id,relation,principal,Timestamp.EMPTY⟩

/-- The body is what the route shows of article `id` to `principal`. The resolver has replied
with `session` for the token of the request, and the backend has allowed its principal. -/
structure Grant (site : Site H E) (parts : Parts H) (route : Route) (log : CallLog) (body : Body)
    (token id principal : String) (session : ResolvedSession) : Prop where
  page : route.page? id ⟨principal⟩ = some body
  path : site.path parts = .ok id
  presented : ∃ A, route.scheme? = some A ∧ A.token site.crates parts.headers = some token
  resolved : ⟨.extractor (.resolve (tokenHash site.crates token)),.ok (some session)⟩ ∈ log
  checked : ⟨.extractor (.rpc (.check (articleRequest id route.relation session.principal))),
    .ok ⟨some principal,true⟩⟩ ∈ log

theorem Grant.token {A : AuthScheme} {token token' id principal : String} {session : ResolvedSession}
    (h : Grant site parts route log body token' id principal session) (hscheme : route.scheme? = some A)
    (htoken : A.token site.crates parts.headers = some token) : token' = token := by
  obtain ⟨A',hscheme',htoken'⟩ := h.presented
  cases hscheme.symm.trans hscheme'
  exact Option.some.inj (htoken'.symm.trans htoken)

theorem articleRel_relation (h : route.admits parts.method) (hguard : route.scheme?.isSome) :
    articleRel parts.method = ⟨route.relation⟩ := by
  cases route with
  | uiArticle | publicArticle | apiGet =>
    have hmethod : parts.method = .get ∨ parts.method = .head := by simpa [Route.admits] using h
    rcases hmethod with hm | hm <;> rw [hm] <;> rfl
  | apiUpdate =>
    have hmethod : parts.method = .post := by simpa [Route.admits] using h
    rw [hmethod]
    rfl
  | _ => cases hguard

def extractorEntry (e : Σ call, Call.Reply call) : Σ call, AppCall.Reply call := ⟨.extractor e.1,e.2⟩

theorem viaExtractor_reaches {α : Type} {handler : Handler α} {a : α}
    (h : (viaExtractor handler).Reaches log (.pure a)) : ∃ own : List (Σ call, Call.Reply call),
      log = own.map extractorEntry ∧ handler.Reaches own (.pure a) := by
  obtain ⟨own,hlog,hown⟩ := Program.Reaches.of_lift h
  have hid : own.map (fun e => (⟨e.1,e.2⟩ : Σ call, Call.Reply call)) = own := List.map_id own
  exact ⟨own,hlog,hid ▸ hown⟩

theorem guarded_verdict {A : AuthScheme} {page : String → Principal → Body}
    (hpage : ∀ id principal, route.page? id principal = some (page id principal)) (hroute : route ≠ .publicArticle)
    (h : (guarded site A parts page).Reaches log (.pure response)) : ∃ own verdict,
      log = own.map extractorEntry ∧ response = route.respond verdict ∧
      (courseOf site.crates (articleResource site) id A parts site.auth).Reaches own (.pure verdict) := by
  obtain ⟨first,rest,result,rfl,hfirst,hrest⟩ := Program.Reaches.of_bind h
  obtain ⟨own,rfl,hown⟩ := viaExtractor_reaches hfirst
  obtain ⟨verdict,hverdict,rfl⟩ := withPrincipal_reaches hown
  cases verdict <;> obtain ⟨rfl,hresponse⟩ := hrest.of_pure <;> cases hresponse <;>
    refine ⟨own,_,List.append_nil _,?_,hverdict⟩
  · simp [Route.respond, hpage]
  · simp [Route.respond, hroute, WebResourceError.intoResponse]
  · rfl

theorem publicArticle_verdict (h : (publicArticle site parts).Reaches log (.pure response)) :
    ∃ own verdict, log = own.map extractorEntry ∧ response = Route.publicArticle.respond verdict ∧
      (courseOf site.crates (articleResource site) id .sessionCookieAuth parts site.auth).Reaches own
        (.pure verdict) := by
  obtain ⟨first,rest,result,rfl,hfirst,hrest⟩ := Program.Reaches.of_bind h
  obtain ⟨own,rfl,hown⟩ := viaExtractor_reaches hfirst
  obtain ⟨verdict,hverdict,rfl⟩ := withOptPrincipal_reaches id hown
  cases verdict <;> obtain ⟨rfl,hresponse⟩ := hrest.of_pure <;> cases hresponse <;>
    exact ⟨own,_,List.append_nil _,rfl,hverdict⟩

theorem handle_verdict {A : AuthScheme} (hscheme : route.scheme? = some A)
    (h : (handle site parts route).Reaches log (.pure response)) : ∃ own verdict,
      log = own.map extractorEntry ∧ response = route.respond verdict ∧
      (courseOf site.crates (articleResource site) id A parts site.auth).Reaches own (.pure verdict) := by
  cases route with
  | home | signinForm | signinSubmit | signout => cases hscheme
  | uiArticle =>
    cases hscheme
    exact guarded_verdict (fun _ _ => rfl) nofun h
  | publicArticle =>
    cases hscheme
    exact publicArticle_verdict h
  | apiGet =>
    cases hscheme
    exact guarded_verdict (fun _ _ => rfl) nofun h
  | apiUpdate =>
    cases hscheme
    exact guarded_verdict (fun _ _ => rfl) nofun h

theorem guardRequest_article (resource : ArticleResource) (rel : Rel) (session : ResolvedSession) :
    guardRequest (articleResource site) resource rel session =
      articleRequest resource.id rel.val session.principal := rfl

/-- The guards' `parse` leaves the request as it is, and every method has a relation. -/
theorem identified_article {A : AuthScheme} {id token : String} {auth : AuthState}
    (hpath : site.path parts = .ok id) (htoken : A.token site.crates parts.headers = some token) :
    Identified site.crates (articleResource site) A parts auth ⟨id⟩ parts token (articleRel parts.method) :=
  ⟨by simp [articleResource, hpath, Except.map],htoken,rfl⟩

theorem handle_viewed (h : (handle site parts route).Reaches log (.pure response))
    (hbody : response.body = some body) (hviewed : body.viewed) : ∃ A, route.scheme? = some A := by
  cases route with
  | uiArticle | publicArticle | apiGet | apiUpdate => exact ⟨_,rfl⟩
  | home | signinForm =>
    obtain ⟨-,hresponse⟩ := h.of_pure
    cases hresponse
    cases hbody
    cases hviewed
  | signinSubmit form =>
    simp only [handle, signinSubmit] at h
    split at h
    · obtain ⟨-,hresponse⟩ := h.of_pure
      cases hresponse
      cases hbody
      cases hviewed
    · obtain ⟨first,rest,token,-,-,hrest⟩ := h.of_bind
      obtain ⟨-,hresponse⟩ := hrest.of_pure
      cases hresponse
      cases hbody
      cases hviewed
  | signout =>
    rw [handle, signout] at h
    obtain ⟨first,rest,u,-,-,hrest⟩ := h.of_bind
    obtain ⟨-,hresponse⟩ := hrest.of_pure
    cases hresponse
    cases hbody

theorem handle_grant (hadmits : route.admits parts.method)
    (h : (handle site parts route).Reaches log (.pure response)) (hbody : response.body = some body)
    (hviewed : body.viewed) :
    ∃ token id principal session, Grant site parts route log body token id principal session := by
  obtain ⟨A,hscheme⟩ := handle_viewed h hbody hviewed
  obtain ⟨own,verdict,rfl,rfl,hown⟩ := handle_verdict hscheme h
  cases verdict with
  | failed err => cases err <;> cases hbody
  | noSession resource location =>
    simp only [Route.respond] at hbody
    split at hbody <;> cases hbody
    cases hviewed
  | granted principal resource =>
    obtain ⟨parts',token,rel,session,⟨hparse,htoken,hrel⟩,rfl⟩ := courseOf_granted hown
    obtain ⟨hpath,rfl⟩ := Prod.mk.inj hparse
    cases hrel
    refine ⟨token,resource.id,principal.val,session,hbody,?_,⟨A,hscheme,htoken⟩, by simp [extractorEntry],?_⟩
    · cases hid : site.path parts with
      | error err =>
        rw [hid] at hpath
        cases hpath
      | ok id =>
        rw [hid] at hpath
        cases hpath
        rfl
    · rw [guardRequest_article, articleRel_relation hadmits (by rw [hscheme]; rfl)]
      simp [extractorEntry]

/-- A route issues sessions to those who have authenticated, and revokes that of its caller. -/
def Route.mayCall (site : Site H E) (parts : Parts H) (route : Route) : AppCall → Prop
  | .extractor _ => route.scheme?.isSome
  | .createSession principal => ∃ form, route = .signinSubmit form ∧
      authenticate form.username form.password = some principal
  | .removeSession hash | .evict hash => route = .signout ∧ ∃ token,
      AuthScheme.sessionCookieAuth.token site.crates parts.headers = some token ∧
      hash = tokenHash site.crates token

theorem guarded_only {ok : AppCall → Prop} {A : AuthScheme} {page : String → Principal → Body}
    (hok : ∀ call, ok (.extractor call)) : (guarded site A parts page).Only ok := by
  refine Program.Only.bind (Program.only_lift hok) fun result => ?_
  cases result <;> trivial

theorem handle_only (site : Site H E) (parts : Parts H) (route : Route) :
    (handle site parts route).Only (route.mayCall site parts) := by
  cases route with
  | home | signinForm => trivial
  | signinSubmit form =>
    simp only [handle, signinSubmit]
    split
    · trivial
    · next principal hprincipal =>
      exact Program.Only.bind (Program.only_ask.mpr ⟨form,rfl,hprincipal⟩) fun _ => trivial
  | signout =>
    rw [handle, signout]
    refine Program.Only.bind ?_ fun _ => Program.only_pure _
    cases htoken : (site.crates.typedGetCookie parts.headers).bind fun c => c "session" with
    | none => trivial
    | some token =>
      rw [revoke]
      exact Program.Only.bind (Program.only_ask.mpr ⟨rfl,token,htoken,rfl⟩) fun _ =>
        Program.only_ask.mpr ⟨rfl,token,htoken,rfl⟩
  | uiArticle | apiGet | apiUpdate => exact guarded_only fun _ => rfl
  | publicArticle =>
    refine Program.Only.bind (Program.only_lift fun _ => rfl) fun result => ?_
    cases result <;> trivial

end NioClient.Webapp
