import NioClient.Axum.MethodGate
import NioClient.Check.Codec
import NioClient.Webapp.Requests

/-! # Who is shown an article

Whoever a page names as its viewer holds a session that was issued for its password, and
the tuple for what it asked for.
-/
namespace NioClient.Webapp
open Environment Execution Axum Check Session
variable {H E : Type} {site : Site H E} {b : Backend} {s t : State H} {a : Action H} {acts : List (Action H)}

/-- Some request has had a session created for the principal, under the token hash. -/
def Issued (site : Site H E) (s : State H) (principal : String) (hash : TokenHash) : Prop :=
  ∃ (r : ℕ) (x : Request H) (raw : String), s.requests[r]? = some x ∧
    ⟨.createSession principal,raw⟩ ∈ x.log ∧ tokenHash site.crates raw = hash

/-- What is true of the app in every state of a run with the tuples of `b`: each session that
the backend holds, has replied with, or that a fetch has returned, was issued. -/
structure Sound (site : Site H E) (b : Backend) (s : State H) : Prop where
  run : Session.Run site.cfg s.acts s.resolver
  tuples : s.backend.tuples = b.tuples
  requests : RequestsOk site s s
  sessions : ∀ hash y, s.backend.sessions.lookup hash = some y → Issued site s y.principal hash
  served : ∀ n resp, s.served.lookup n = some resp → ∃ x, s.resolver.flight.fetches[n]? = some x ∧
    ∀ principal, Backend.principal? resp = some principal → Issued site s principal x.key
  fetched : ∀ (n : ℕ) x session, s.resolver.flight.fetches[n]? = some x →
    x.returned = some (.ok (some session)) → Issued site s session.principal x.key

theorem sound_init (h : b.sessions = ∅) : Sound site b (init site b) where
  run := rfl
  tuples := rfl
  requests _ _ hx := by cases hx
  sessions hash y hy := by
    rw [init, h] at hy
    cases hy
  served n resp hn := by cases hn
  fetched n x session hx := by cases hx

theorem Issued.later {principal : String} {hash : TokenHash} (h : Issued site s principal hash)
    (hlater : Later s t) : Issued site t principal hash := by
  obtain ⟨r,x,raw,hx,hlog,hhash⟩ := h
  obtain ⟨y,hy,-,hkept⟩ := hlater.requests r x hx
  exact ⟨r,y,raw,hy,hkept _ hlog,hhash⟩

theorem step_run (h : step site s a = some t) (hrun : Session.Run site.cfg s.acts s.resolver) :
    Session.Run site.cfg t.acts t.resolver := by
  rcases step_resolver h with ⟨hresolver,hacts⟩ | ⟨act,hstep,hacts,-⟩
  · rwa [hresolver, hacts]
  · rw [hacts]
    exact exec_concat_iff.mpr ⟨_,hrun,hstep⟩

protected theorem Sound.step (hs : Sound site b s) (h : step site s a = some t) : Sound site b t := by
  have hlater := step_later h
  refine ⟨step_run h hs.run,hlater.tuples.trans hs.tuples,step_requests h hs.requests,?_,?_,?_⟩
  · intro hash y hy
    rcases step_sessions h hy with hold | ⟨r,bytes,nowUnix,x,-,hhash,hx,hlog⟩
    · exact (hs.sessions hash y hold).later hlater
    · exact ⟨r,x,_,hx,hlog,hhash⟩
  · intro n resp hn
    rcases step_served h hn with hold | ⟨nowUnix,x,-,hx,rfl⟩
    · obtain ⟨x,hx,hissued⟩ := hs.served n resp hold
      obtain ⟨y,hy,hkey,-⟩ := step_fetch h hx
      exact ⟨y,hy,fun principal hp => hkey ▸ (hissued principal hp).later hlater⟩
    · obtain ⟨y,hy,hkey,-⟩ := step_fetch h hx
      refine ⟨y,hy,fun principal hp => ?_⟩
      obtain ⟨z,hz,rfl⟩ := Backend.resolve_held hp
      exact hkey ▸ (hs.sessions x.key z hz).later hlater
  · intro n x session hx hret
    rcases step_fetched h (run_logged hs.run) hx hret with hold | ⟨resp,y,hn,hprincipal,hy,hkey⟩
    · exact (hs.fetched n x session hold hret).later hlater
    · obtain ⟨y',hy',hissued⟩ := hs.served n resp hn
      cases hy.symm.trans hy'
      exact hkey ▸ (hissued _ hprincipal).later hlater

theorem run_sound (hb : b.sessions = ∅) (h : exec (step site) (init site b) acts = some s) : Sound site b s :=
  exec_invariant (I := Sound site b) (fun _ _ _ hs h => hs.step h) (sound_init hb) h

def SignedIn (site : Site H E) (s : State H) (principal : String) (hash : TokenHash) : Prop :=
  ∃ (r : ℕ) (x : Request H) (form : SigninForm) (raw : String), s.requests[r]? = some x ∧
    x.route = .signinSubmit form ∧ authenticate form.username form.password = some principal ∧
    ⟨.createSession principal,raw⟩ ∈ x.log ∧ tokenHash site.crates raw = hash

theorem Issued.signedIn (h : Sound site b s) {principal : String} {hash : TokenHash}
    (hissued : Issued site s principal hash) : SignedIn site s principal hash := by
  obtain ⟨r,x,raw,hx,hlog,hhash⟩ := hissued
  obtain ⟨p,hreaches,-⟩ := (h.requests r x hx).follows
  obtain ⟨form,hroute,hform⟩ := ((handle_only site x.parts x.route).reaches hreaches).1 _ hlog
  exact ⟨r,x,form,raw,hx,hroute,hform,hlog,hhash⟩

/-- A request for `relation` on article `id` comes from whoever has signed in as `principal`,
and the principal holds the tuple for it, or everyone does. -/
structure Entitled (site : Site H E) (b : Backend) (s : State H) (x : Request H) (token id principal : String) :
    Prop where
  path : site.path x.parts = .ok id
  presented : ∃ A, x.route.scheme? = some A ∧ A.token site.crates x.parts.headers = some token
  signedIn : SignedIn site s principal (tokenHash site.crates token)
  tuple : (NAMESPACE,id,x.route.relation,principal) ∈ b.tuples ∨
    (NAMESPACE,id,x.route.relation,ALL_USERS) ∈ b.tuples

theorem Sound.reaches (hs : Sound site b s) {r : ℕ} {x : Request H} {response : Response Body}
    (hx : s.requests[r]? = some x) (hdone : x.response? = some response) :
    (handle site x.parts x.route).Reaches x.log (.pure response) := by
  obtain ⟨p,hreaches,hfollows⟩ := (hs.requests r x hx).follows
  rw [Request.response?_eq.mp hdone] at hfollows
  cases hfollows
  exact hreaches

/-- A response that names a viewer rests on a grant, and on what a caller of the resolver was
answered. -/
theorem Sound.grant (hs : Sound site b s) {r : ℕ} {x : Request H} {response : Response Body} {body : Body}
    (hx : s.requests[r]? = some x) (hdone : x.response? = some response) (hbody : response.body = some body)
    (hviewed : body.viewed) : ∃ token id principal session c now wall source,
      Grant site x.parts x.route x.log body token id principal session ∧ x.arrival.Before c now ∧
      s.resolver.callers[c]? = some
        ⟨tokenHash site.crates token,.resolve now wall,.answered (.ok (some session)) source⟩ := by
  have hok := hs.requests r x hx
  obtain ⟨token,id,principal,session,hgrant⟩ := handle_grant hok.admitted (hs.reaches hx hdone) hbody hviewed
  obtain ⟨c,now,wall,source,harrived,hc⟩ := hok.founded _ hgrant.resolved
  exact ⟨token,id,principal,session,c,now,wall,source,hgrant,harrived,hc⟩

theorem Sound.entitled (hs : Sound site b s) {r : ℕ} {x : Request H} {response : Response Body} {body : Body}
    (hx : s.requests[r]? = some x) (hdone : x.response? = some response) (hbody : response.body = some body)
    (hviewed : body.viewed) : ∃ token id principal, x.route.page? id ⟨principal⟩ = some body ∧
      Entitled site b s x token id principal := by
  obtain ⟨token,id,principal,session,c,now,wall,source,hgrant,-,hc⟩ := hs.grant hx hdone hbody hviewed
  obtain ⟨y,hy,hkey,hret⟩ := answer_fetch hs.run hc
  have hissued := hs.fetched _ y session hy hret
  rw [hkey] at hissued
  rcases (hs.requests r x hx).founded _ hgrant.checked with hallowed | ⟨status,hlost⟩
  · obtain ⟨rfl,htuple⟩ := Backend.check_allowed (Except.ok.inj hallowed).symm
    rw [Backend.Allows, hs.tuples] at htuple
    exact ⟨token,id,_,hgrant.page,hgrant.path,hgrant.presented,hissued.signedIn hs,htuple⟩
  · cases hlost

/-- In every run of the app, a response that names the viewer of an article shows it to a
principal which is entitled to it. -/
theorem viewer_entitled (hb : b.sessions = ∅) (h : exec (step site) (init site b) acts = some s) {r : ℕ}
    {x : Request H} {response : Response Body} {body : Body} (hx : s.requests[r]? = some x)
    (hdone : x.response? = some response) (hbody : response.body = some body) (hviewed : body.viewed) :
    ∃ token id principal, x.route.page? id ⟨principal⟩ = some body ∧
      Entitled site b s x token id principal := (run_sound hb h).entitled hx hdone hbody hviewed

def demoSite : Site (Option String) Unit where
  crates := { cookieCrates with
    sha256 := fun input => if input = List.replicate 64 48 then
        [0x60,0xe0,0x5b,0xd1,0xb1,0x95,0xaf,0x2f,0x94,0x11,0x2f,0xa7,0x19,0x7a,0x5c,0x88,
          0x28,0x90,0x58,0x84,0x0c,0xe7,0xc6,0xdf,0x96,0x93,0x75,0x6b,0xc6,0x25,0x0f,0x55]
      else [] }
  path parts := if parts.pathAndQuery = some "/articles/1" ∨ parts.pathAndQuery = some "/public/articles/1" then
      .ok "1" else .error ()
  fromTimestamp := chronoFromTimestamp
  auth := .new none
  cfg := {}

def demoToken : String := hexEncode (List.replicate 32 0)

def demoSignin : List (Action (Option String)) :=
  [.arrive (.signinSubmit ⟨"alice","alice",none⟩) ⟨.post,some "/signin",none⟩,
    .createSession 0 (.replicate 32 0) 1700000000]

def demoVisit (route : Route) (path : String) (r c : ℕ) : List (Action (Option String)) :=
  [.arrive route ⟨.get,some path,some demoToken⟩,.resolve r 1700000000000000000,.resolver (.lookup c),
    .resolver (.captureStale c),.resolver (.run c),.resolver (.callFetch c),.serve c 1700000000,
    .fetchReturns c none 1700000000000000000 .one 1700000000000000000,.resolver (.put c),
    .resolver (.cleanUp c),.resolver (.receive c),.answered r]

def demoRead : List (Action (Option String)) :=
  demoSignin ++ demoVisit .uiArticle "/articles/1" 1 0 ++ [.rpc 1 none]

theorem viewer_entitled_alice : ∃ s x,
    exec (step demoSite) (init demoSite (seed .new)) demoRead = some s ∧
    s.requests[1]? = some x ∧
    x.response? = some { status := 200, body := some (articlePage "1" ⟨ALICE⟩) } ∧
    ∃ token id principal, x.route.page? id ⟨principal⟩ = some (articlePage "1" ⟨ALICE⟩) ∧
      Entitled demoSite (seed .new) s x token id principal := by
  have hrun : (exec (step demoSite) (init demoSite (seed .new)) demoRead).map (fun s =>
      s.requests[1]?.bind Request.response?) =
      some (some { status := 200, body := some (articlePage "1" ⟨ALICE⟩) }) := by decide +kernel
  obtain ⟨s,h,hs⟩ := Option.map_eq_some_iff.mp hrun
  obtain ⟨x,hx,hdone⟩ := Option.bind_eq_some_iff.mp hs
  exact ⟨s,x,h,hx,hdone,viewer_entitled rfl h hx hdone rfl rfl⟩

end NioClient.Webapp
