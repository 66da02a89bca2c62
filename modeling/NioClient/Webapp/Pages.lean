import NioClient.Axum.SigninLocation
import NioClient.Webapp.Entitlement

/-! # What goes into a page

Templates are filled with strings of the request, of the backend and of the app. Those that
come from the request are escaped, and no other has a character that needs it.
-/
namespace NioClient.Webapp
open Environment Execution Axum Check Session PercentEncoding
variable {H E : Type} {site : Site H E} {b : Backend} {s : State H} {acts : List (Action H)}

/-- How a browser reads the four entities. -/
def unescapeChars : List Char → List Char
  | '&' :: 'a' :: 'm' :: 'p' :: ';' :: rest => '&' :: unescapeChars rest
  | '&' :: 'l' :: 't' :: ';' :: rest => '<' :: unescapeChars rest
  | '&' :: 'g' :: 't' :: ';' :: rest => '>' :: unescapeChars rest
  | '&' :: 'q' :: 'u' :: 'o' :: 't' :: ';' :: rest => '"' :: unescapeChars rest
  | c :: rest => c :: unescapeChars rest
  | [] => []

def htmlUnescape (s : String) : String := String.ofList (unescapeChars s.toList)

theorem unescapeChars_cons {c : Char} (hc : c ≠ '&') (rest : List Char) :
    unescapeChars (c :: rest) = c :: unescapeChars rest := by
  rw [unescapeChars] <;> simp [hc]

theorem htmlUnescape_escape (s : String) : htmlUnescape (htmlEscape s) = s := by
  rw [htmlUnescape, htmlEscape, String.toList_ofList]
  conv_rhs => rw [← String.ofList_toList (s := s)]
  congr 1
  induction s.toList with
  | nil => rfl
  | cons c rest ih =>
    rw [List.flatMap_cons]
    split
    · exact congrArg ('&' :: ·) ih
    · exact congrArg ('<' :: ·) ih
    · exact congrArg ('>' :: ·) ih
    · exact congrArg ('"' :: ·) ih
    · next hamp _ _ _ => rw [List.singleton_append, unescapeChars_cons hamp, ih]

/-- No character of the string ends a text or a quoted attribute. -/
def Inert (s : String) : Prop := ∀ c ∈ s.toList, c ≠ '<' ∧ c ≠ '>' ∧ c ≠ '"'

instance (s : String) : Decidable (Inert s) := List.decidableBAll _ s.toList

theorem inert_escape (s : String) : Inert (htmlEscape s) := by
  intro c hc
  rw [htmlEscape, String.toList_ofList, List.mem_flatMap] at hc
  obtain ⟨d,-,hc⟩ := hc
  split at hc
  · exact (by decide : Inert "&amp;") c hc
  · exact (by decide : Inert "&lt;") c hc
  · exact (by decide : Inert "&gt;") c hc
  · exact (by decide : Inert "&quot;") c hc
  · rw [List.mem_singleton.mp hc]
    exact ⟨by assumption,by assumption,by assumption⟩

theorem inert_hexEncode (bytes : List UInt8) : Inert (hexEncode bytes) := by
  intro c hc
  rw [hexEncode, String.toList_ofList, List.mem_flatMap] at hc
  obtain ⟨d,-,hc⟩ := hc
  have hdigit : ∀ n < 16, Nat.digitChar n ≠ '<' ∧ Nat.digitChar n ≠ '>' ∧ Nat.digitChar n ≠ '"' := by decide
  have hlt := d.toNat_lt
  rcases List.mem_cons.mp hc with rfl | hc
  · exact hdigit _ (by omega)
  · obtain rfl := List.mem_singleton.mp hc
    exact hdigit _ (by omega)

/-- The strings that the HTML template is filled with; the bodies of the API are no HTML. -/
def Body.fields : Body → List String
  | .signinForm back => [back]
  | .signedIn name token back => name :: token :: back.toList
  | .article id name principal title text => [id,name,principal,title,text]
  | .publicArticle id title text viewer => id :: title :: text :: viewer.toList
  | _ => []

theorem inert_displayName (principal : String) : Inert (displayName principal) := by
  unfold displayName
  split
  · decide
  · split <;> decide

theorem inert_article (id : String) : Inert (article id).1 ∧ Inert (article id).2 := by
  unfold article
  split <;> decide

theorem inert_authenticated {username password principal : String}
    (h : authenticate username password = some principal) : Inert principal := by
  unfold authenticate at h
  split at h <;> cases h <;> decide

theorem inert_publicPage (id : String) (principal : Option Principal) :
    ∀ field ∈ (publicPage id principal).fields, Inert field := by
  intro field hfield
  simp only [publicPage, Body.fields, List.mem_cons, Option.mem_toList, Option.map_eq_some_iff] at hfield
  rcases hfield with rfl | rfl | rfl | ⟨p,-,rfl⟩
  · exact inert_escape id
  · exact (inert_article id).1
  · exact (inert_article id).2
  · exact inert_displayName p.val

theorem inert_page {route : Route} {id principal : String} {body : Body} (hprincipal : Inert principal)
    (h : route.page? id ⟨principal⟩ = some body) : ∀ field ∈ body.fields, Inert field := by
  cases route with
  | uiArticle =>
    cases h
    intro field hfield
    simp only [articlePage, Body.fields, List.mem_cons, List.not_mem_nil, or_false] at hfield
    rcases hfield with rfl | rfl | rfl | rfl | rfl
    · exact inert_escape id
    · exact inert_displayName principal
    · exact hprincipal
    · exact (inert_article id).1
    · exact (inert_article id).2
  | publicArticle =>
    cases h
    exact inert_publicPage id _
  | apiGet | apiUpdate =>
    cases h
    exact fun _ hfield => absurd hfield List.not_mem_nil
  | _ => cases h

theorem signinSubmit_reaches {form : SigninForm} {log : CallLog} {response : Response Body}
    (h : (signinSubmit form).Reaches log (.pure response)) : response.body = some .signinFailed ∨
      ∃ principal token, ⟨.createSession principal,token⟩ ∈ log ∧ response.body = some (.signedIn
        (displayName principal) token ((safeBack (form.back.filter fun b => b ≠ "")).map htmlEscape)) := by
  unfold signinSubmit at h
  split at h
  · obtain ⟨-,hresponse⟩ := h.of_pure
    cases hresponse
    exact Or.inl rfl
  · next principal _ =>
    obtain ⟨first,rest,token,rfl,hfirst,hrest⟩ := h.of_bind
    obtain ⟨rfl,hresponse⟩ := hrest.of_pure
    cases hresponse
    rcases Program.Reaches.of_first hfirst with ⟨-,hpure⟩ | ⟨raw,rest',rfl,hnext⟩
    · cases hpure
    obtain ⟨rfl,hraw⟩ := hnext.of_pure
    cases hraw
    exact Or.inr ⟨principal,token,List.mem_cons_self,rfl⟩

theorem guarded_page {route : Route} {parts : Parts H} {A : AuthScheme} {log : CallLog} {response : Response Body}
    {body : Body} (hscheme : route.scheme? = some A) (h : (handle site parts route).Reaches log (.pure response))
    (hbody : response.body = some body) :
    (∃ id principal, route.page? id principal = some body) ∨ ∃ id, body = publicPage id none := by
  obtain ⟨own,verdict,-,rfl,-⟩ := handle_verdict hscheme h
  cases verdict with
  | granted principal resource => exact Or.inl ⟨_,_,hbody⟩
  | noSession resource location =>
    simp only [Route.respond] at hbody
    split at hbody <;> cases hbody
    exact Or.inr ⟨_,rfl⟩
  | failed err => cases err <;> cases hbody

theorem page_viewed {route : Route} {id : String} {principal : Principal} {body : Body}
    (h : route.page? id principal = some body) : body.viewed := by
  cases route <;> cases h <;> rfl

/-- In every run of the app, no string that goes into a page can break out of its place. -/
theorem pages_inert (hb : b.sessions = ∅) (h : exec (step site) (init site b) acts = some s) {r : ℕ}
    {x : Request H} {response : Response Body} {body : Body} (hx : s.requests[r]? = some x)
    (hdone : x.response? = some response) (hbody : response.body = some body) :
    ∀ field ∈ body.fields, Inert field := by
  have hs := run_sound hb h
  have hok := hs.requests r x hx
  have hreaches := hs.reaches hx hdone
  have hguarded {A : AuthScheme} (hscheme : x.route.scheme? = some A) : ∀ field ∈ body.fields, Inert field := by
    rcases guarded_page hscheme hreaches hbody with ⟨id,principal,hpage⟩ | ⟨id,rfl⟩
    · obtain ⟨token,id,principal,hpage,hentitled⟩ := hs.entitled hx hdone hbody (page_viewed hpage)
      obtain ⟨r',y,form,raw,-,-,hform,-⟩ := hentitled.signedIn
      exact inert_page (inert_authenticated hform) hpage
    · exact inert_publicPage id none
  cases hroute : x.route with
  | uiArticle | publicArticle | apiGet | apiUpdate => exact hguarded (by rw [hroute]; rfl)
  | home =>
    rw [hroute] at hreaches
    cases hreaches.of_pure.2
    cases hbody
    exact fun _ hfield => absurd hfield List.not_mem_nil
  | signinForm back =>
    rw [hroute] at hreaches
    cases hreaches.of_pure.2
    cases hbody
    intro field hfield
    obtain rfl := List.mem_singleton.mp hfield
    exact inert_escape _
  | signinSubmit form =>
    rw [hroute] at hreaches
    rcases signinSubmit_reaches hreaches with hfailed | ⟨principal,token,hlog,hsigned⟩
    · cases hbody.symm.trans hfailed
      exact fun _ hfield => absurd hfield List.not_mem_nil
    · cases hbody.symm.trans hsigned
      obtain ⟨bytes,rfl⟩ : ∃ bytes : Vector UInt8 32, token = hexEncode bytes.toList := hok.founded _ hlog
      intro field hfield
      simp only [Body.fields, List.mem_cons, Option.mem_toList, Option.map_eq_some_iff] at hfield
      rcases hfield with rfl | rfl | ⟨path,-,rfl⟩
      · exact inert_displayName principal
      · exact inert_hexEncode bytes.toList
      · exact inert_escape path
  | signout =>
    rw [hroute, handle, signout] at hreaches
    obtain ⟨first,rest,u,-,-,hrest⟩ := hreaches.of_bind
    cases hrest.of_pure.2
    cases hbody

theorem pages_inert_script : let route : Route := .signinForm (some "\"><script>")
    ∃ s x, exec (step demoSite) (init demoSite (seed .new)) [.arrive route ⟨.get,some "/signin",none⟩] = some s ∧
      s.requests[0]? = some x ∧
      x.response? = some { status := 200, body := some (.signinForm "&quot;&gt;&lt;script&gt;") } ∧
      ∀ field ∈ (Body.signinForm "&quot;&gt;&lt;script&gt;").fields, Inert field := by
  intro route
  have hrun : (exec (step demoSite) (init demoSite (seed .new)) [.arrive route ⟨.get,some "/signin",none⟩]).map
      (fun s => s.requests[0]?.bind Request.response?) =
      some (some { status := 200, body := some (.signinForm "&quot;&gt;&lt;script&gt;") }) := by decide +kernel
  obtain ⟨s,h,hs⟩ := Option.map_eq_some_iff.mp hrun
  obtain ⟨x,hx,hdone⟩ := Option.bind_eq_some_iff.mp hs
  exact ⟨s,x,h,hx,hdone,pages_inert rfl h hx hdone rfl⟩

theorem safeBack_nonempty (back : Option String) : safeBack (back.filter fun b => b ≠ "") = safeBack back := by
  rcases back with _ | b
  · rfl
  · by_cases hb : b = ""
    · subst hb
      decide +kernel
    · simp [Option.filter, hb]

theorem location_signin {route : Route} {parts : Parts H} {A : AuthScheme} {log : CallLog} {response : Response Body}
    {location : String} (hscheme : route.scheme? = some A)
    (h : (handle site parts route).Reaches log (.pure response)) (hsent : response.location = some location) :
    location = site.auth.signinLocation parts := by
  obtain ⟨own,verdict,-,rfl,hown⟩ := handle_verdict hscheme h
  refine courseOf_location hown ?_
  cases verdict with
  | granted => cases hsent
  | noSession resource loc =>
    simp only [Route.respond] at hsent
    split at hsent <;> cases hsent
    exact Or.inl ⟨resource,rfl⟩
  | failed err =>
    cases err <;> cases hsent
    exact Or.inr rfl

/-- A request which is sent to sign in is led back, by the form of the sign-in page and by the
link of the page after it, to the path it came from, unless that leads off the site. -/
theorem signin_returns (hb : b.sessions = ∅) (h : exec (step site) (init site b) acts = some s) {r r' r'' : ℕ}
    {x x' x'' : Request H} {response response' response'' : Response Body} {A : AuthScheme}
    {location e back hidden username password name token : String} {link : Option String}
    (hx : s.requests[r]? = some x) (hscheme : x.route.scheme? = some A) (hdone : x.response? = some response)
    (hsent : response.location = some location) (hquery : location = site.auth.signinPrefix ++ "/signin?back=" ++ e)
    (hback : decodeForm (bytesOf e) = bytesOf back)
    (hx' : s.requests[r']? = some x') (hroute' : x'.route = .signinForm (some back))
    (hdone' : x'.response? = some response') (hform : response'.body = some (.signinForm hidden))
    (hx'' : s.requests[r'']? = some x'')
    (hroute'' : x''.route = .signinSubmit ⟨username,password,some (htmlUnescape hidden)⟩)
    (hdone'' : x''.response? = some response'') (hsigned : response''.body = some (.signedIn name token link)) :
    link.map htmlUnescape = safeBack (some (x.parts.pathAndQuery.getD "/")) := by
  have hs := run_sound hb h
  have hpath : back = x.parts.pathAndQuery.getD "/" := by
    have hlocation := location_signin hscheme (hs.reaches hx hdone) hsent
    rw [hquery, signinLocation_eq, String.append_right_inj] at hlocation
    rw [hlocation, urlencode_bytes, decodeForm_encode (by decide) (by decide)] at hback
    exact (bytesOf_inj hback).symm
  have hhidden : htmlUnescape hidden = back := by
    have hreaches := hs.reaches hx' hdone'
    rw [hroute'] at hreaches
    cases hreaches.of_pure.2
    cases hform
    exact htmlUnescape_escape back
  have hreaches := hs.reaches hx'' hdone''
  rw [hroute'', hhidden, hpath] at hreaches
  rcases signinSubmit_reaches hreaches with hfailed | ⟨principal,raw,-,hpage⟩
  · cases hsigned.symm.trans hfailed
  · cases hsigned.symm.trans hpage
    rw [safeBack_nonempty, Option.map_map]
    exact (congrArg (Option.map · _) (funext htmlUnescape_escape)).trans Option.map_id_apply

def demoReturned : List (Action (Option String)) :=
  [.arrive .uiArticle ⟨.get,some "/articles/1",none⟩,.arrive (.signinForm (some "/articles/1")) ⟨.get,none,none⟩,
    .arrive (.signinSubmit ⟨"alice","alice",some "/articles/1"⟩) ⟨.post,none,none⟩,
    .createSession 2 (.replicate 32 0) 1700000000]

theorem signin_returns_alice : ∃ s x,
    exec (step demoSite) (init demoSite (seed .new)) demoReturned = some s ∧ s.requests[0]? = some x ∧
    x.response? = some (.redirectTo "/signin?back=%2Farticles%2F1") ∧
    (some "/articles/1").map htmlUnescape = safeBack (some (x.parts.pathAndQuery.getD "/")) := by
  have hrun : (exec (step demoSite) (init demoSite (seed .new)) demoReturned).map (fun s =>
      s.requests.map fun x => (x.route,x.response?)) = some
      [(.uiArticle,some (.redirectTo "/signin?back=%2Farticles%2F1")),
        (.signinForm (some "/articles/1"),some { status := 200, body := some (.signinForm "/articles/1") }),
        (.signinSubmit ⟨"alice","alice",some "/articles/1"⟩,some
          { status := 200, setCookie := some s!"session={demoToken}; Path=/; HttpOnly; SameSite=Lax",
            body := some (.signedIn "alice" demoToken (some "/articles/1")) })] := by decide +kernel
  obtain ⟨s,h,hs⟩ := Option.map_eq_some_iff.mp hrun
  have hget (i : ℕ) {y : Route × Option (Response Body)}
      (hy : (s.requests.map fun x => (x.route,x.response?))[i]? = some y) :
      ∃ x, s.requests[i]? = some x ∧ x.route = y.1 ∧ x.response? = y.2 := by
    rw [List.getElem?_map] at hy
    obtain ⟨x,hx,rfl⟩ := Option.map_eq_some_iff.mp hy
    exact ⟨x,hx,rfl,rfl⟩
  obtain ⟨x,hx,hroute,hdone⟩ := hget 0 (by rw [hs]; rfl)
  obtain ⟨x',hx',hroute',hdone'⟩ := hget 1 (by rw [hs]; rfl)
  obtain ⟨x'',hx'',hroute'',hdone''⟩ := hget 2 (by rw [hs]; rfl)
  have hscheme : x.route.scheme? = some .sessionCookieAuth := by
    rw [hroute]
    rfl
  have hquery : "/signin?back=%2Farticles%2F1" =
      demoSite.auth.signinPrefix ++ "/signin?back=" ++ "%2Farticles%2F1" := by decide +kernel
  have hback : decodeForm (bytesOf "%2Farticles%2F1") = bytesOf "/articles/1" := by decide +kernel
  exact ⟨s,x,h,hx,hdone,signin_returns rfl h hx hscheme hdone rfl hquery hback hx' hroute' hdone' rfl hx'' hroute''
    hdone'' rfl⟩

end NioClient.Webapp
