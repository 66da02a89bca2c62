import NioClient.Axum.Responses
import NioClient.Webapp.Backend

/-! # The example app

Its handlers are programs which call the extractors' environment, the backend and the
resolver. The body of a response is what its template is filled with.
-/
namespace NioClient.Webapp
open Environment Axum Check Session
variable {H E : Type}

def NAMESPACE : String := "article"
def REL_GET : String := "article.get"
def REL_UPDATE : String := "article.update"

def ALICE : String := "11111111-1111-1111-1111-111111111111"
def BOB : String := "22222222-2222-2222-2222-222222222222"

def seed (b : Backend) : Backend :=
  (b.registerPrincipal ALICE "alice").registerPrincipal BOB "bob"
    |>.grant NAMESPACE "1" REL_GET ALICE
    |>.grant NAMESPACE "1" REL_UPDATE ALICE
    |>.grant NAMESPACE "2" REL_GET BOB
    |>.grant NAMESPACE "2" REL_UPDATE BOB
    |>.grant NAMESPACE "2" REL_GET ALICE
    |>.grant NAMESPACE "3" REL_GET "allUsers"

structure ArticleResource where
  id : String
deriving DecidableEq, Repr

/-- What the app is made with: the crates, axum's `Path` extractor, which leaves the parts
of a request as they are, chrono's `from_timestamp`, the sign-in prefix, and the
configuration of its resolver. -/
structure Site (H E : Type) where
  crates : Crates H
  path : Parts H → Except E String
  fromTimestamp : Int64 → Option ℤ
  auth : AuthState
  cfg : ResolverConfig

def articleRel : Method → Rel
  | .get | .head => ⟨REL_GET⟩
  | .post => ⟨REL_UPDATE⟩
  | _ => ⟨Rel.IMPOSSIBLE⟩

def articleResource (site : Site H E) : WebResource H AuthState ArticleResource E where
  namespaceOf _ := ⟨NAMESPACE⟩
  rel _ method := some (articleRel method)
  parse parts _ := ((site.path parts).map ArticleResource.mk,parts)
  object article := ⟨article.id⟩

inductive AppCall where
  | extractor (call : Axum.Call)
  | createSession (principal : String)
  | removeSession (hash : TokenHash)
  | evict (hash : TokenHash)
deriving DecidableEq

def AppCall.Reply : AppCall → Type
  | .extractor call => call.Reply
  | .createSession _ => String
  | .removeSession _ | .evict _ => Unit

abbrev App := Program AppCall AppCall.Reply

def viaExtractor {α : Type} (handler : Handler α) : App α := handler.lift AppCall.extractor fun _ reply => reply

def createSession (principal : String) : App String := .ask (AppCall.createSession principal)
def removeSession (hash : TokenHash) : App Unit := .ask (AppCall.removeSession hash)
def evict (hash : TokenHash) : App Unit := .ask (AppCall.evict hash)

inductive Body where
  | home
  | signinForm (back : String)
  | signinFailed
  | signedIn (name token : String) (back : Option String)
  | article (id name principal title text : String)
  | publicArticle (id title text : String) (viewer : Option String)
  | view (id principal user title text : String)
  | update (id principal user message : String)
deriving DecidableEq, Repr

def authenticate (username password : String) : Option String :=
  match username, password with
  | "alice", "alice" => some ALICE
  | "bob", "bob" => some BOB
  | _, _ => none

def displayName (principal : String) : String :=
  if principal = ALICE then "alice" else if principal = BOB then "bob" else "unknown"

def article : String → String × String
  | "1" => ("Getting started with nio","Relationship-based access control, wired end to end.")
  | "2" => ("Zookies and consistency","How opaque timestamps buy you read-your-writes.")
  | "3" => ("Public announcement","Anyone may read this one — it is granted to allUsers.")
  | _ => ("(no such article)","This article has no content.")

/-- Only local paths. -/
def safeBack (back : Option String) : Option String :=
  back.filter fun b => b.startsWith "/" && !b.startsWith "//"

def htmlEscape (s : String) : String :=
  String.ofList <| s.toList.flatMap fun
    | '&' => "&amp;".toList
    | '<' => "&lt;".toList
    | '>' => "&gt;".toList
    | '"' => "&quot;".toList
    | c => [c]

structure SigninForm where
  username : String
  password : String
  back : Option String
deriving DecidableEq, Repr

variable (site : Site H E)

def signinForm (back : Option String) : App (Response Body) :=
  return { status := 200, body := some (.signinForm (htmlEscape (back.getD ""))) }

def signinSubmit (form : SigninForm) : App (Response Body) :=
  match authenticate form.username form.password with
  | none => return { status := 401, body := some .signinFailed }
  | some principal => do
    let token ← createSession principal
    let cookie := s!"session={token}; Path=/; HttpOnly; SameSite=Lax"
    let back := form.back.filter fun b => b ≠ ""
    let body := Body.signedIn (displayName principal) token ((safeBack back).map htmlEscape)
    return { status := 200, setCookie := some cookie, body := some body }

/-- The session is dropped at the source, and then from the resolver's cache. -/
def revoke : Option String → App Unit
  | some token => do
    let hash := tokenHash site.crates token
    removeSession hash
    evict hash
  | none => return ()

def signout (headers : H) : App (Response Body) := do
  revoke site ((site.crates.typedGetCookie headers).bind fun c => c "session")
  let clear := "session=; Path=/; HttpOnly; SameSite=Lax; Max-Age=0"
  return { Response.redirectTo "/" with setCookie := some clear }

/-- A handler guarded by `WithPrincipal`. -/
def guarded (A : AuthScheme) (parts : Parts H) (page : String → Principal → Body) : App (Response Body) := do
  match ← viaExtractor (WithPrincipal.fromRequestParts site.crates (articleResource site) id A parts site.auth) with
  | .error err => return err.intoResponse
  | .ok auth => return { status := 200, body := some (page auth.resource.id auth.principal) }

def articlePage (id : String) (principal : Principal) : Body :=
  let (title, body) := article id
  .article (htmlEscape id) (displayName principal.val) principal.val title body

def uiArticle (parts : Parts H) : App (Response Body) := guarded site .sessionCookieAuth parts articlePage

def publicPage (id : String) (principal : Option Principal) : Body :=
  let (title, body) := article id
  .publicArticle (htmlEscape id) title body (principal.map fun p => displayName p.val)

def publicArticle (parts : Parts H) : App (Response Body) := do
  match ← viaExtractor (WithOptPrincipal.fromRequestParts site.crates (articleResource site) parts site.auth) with
  | .error err => return err.intoResponse
  | .ok auth => return { status := 200, body := some (publicPage auth.resource.id auth.principal) }

def viewJson (id : String) (principal : Principal) : Body :=
  let (title, body) := article id
  .view id principal.val (displayName principal.val) title body

def apiGet (parts : Parts H) : App (Response Body) := guarded site .bearerTokenAuth parts viewJson

def updateJson (id : String) (principal : Principal) : Body :=
  .update id principal.val (displayName principal.val) s!"article {id} updated"

def apiUpdate (parts : Parts H) : App (Response Body) := guarded site .bearerTokenAuth parts updateJson

inductive Route where
  | home
  | signinForm (back : Option String)
  | signinSubmit (form : SigninForm)
  | signout
  | uiArticle
  | publicArticle
  | apiGet
  | apiUpdate
deriving DecidableEq, Repr

/-- axum's `get` takes HEAD requests too. -/
def Route.admits (method : Method) : Route → Bool
  | .signinSubmit _ | .signout | .apiUpdate => method = .post
  | _ => method = .get || method = .head

def handle (parts : Parts H) : Route → App (Response Body)
  | .home => return { status := 200, body := some .home }
  | .signinForm back => signinForm back
  | .signinSubmit form => signinSubmit form
  | .signout => signout site parts.headers
  | .uiArticle => uiArticle site parts
  | .publicArticle => publicArticle site parts
  | .apiGet => apiGet site parts
  | .apiUpdate => apiUpdate site parts

end NioClient.Webapp
