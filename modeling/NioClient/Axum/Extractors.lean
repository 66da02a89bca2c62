import NioClient.Check.Client
import NioClient.Session.Entry

/-! # The axum extractors

`H` is the header map of a request, `S` the state of the router, `R` the resource
and `E` the rejection of its `parse`. Logging is left out.
-/
namespace NioClient.Axum
open Environment Check Session
variable {H S R E : Type}

/-- What the extractors use of the `headers` and `sha2` crates. A cookie header
is its lookup by name, a bearer header its token. -/
structure Crates (H : Type) where
  typedGetCookie : H → Option (String → Option String)
  typedTryGetBearer : H → Except Unit (Option String)
  sha256 : List UInt8 → List UInt8

inductive Method where
  | options
  | get
  | post
  | put
  | delete
  | head
  | trace
  | connect
  | patch
  | extension (name : String)
deriving DecidableEq, Repr

/-- The parts of a request; of its URI, the path and query. -/
structure Parts (H : Type) where
  method : Method
  pathAndQuery : Option String
  headers : H

structure WebResource (H S R E : Type) where
  namespaceOf : R → Namespace
  rel : R → Method → Option Rel
  parse : Parts H → S → Except E R × Parts H
  object : R → Obj

inductive Fault where
  | resolve (err : ResolveError)
  | call (err : CallError)
deriving DecidableEq, Repr

inductive WebResourceError (E : Type) where
  | missingSession (location : String)
  | forbidden
  | methodNotAllowed
  | internalServerError (err : Fault)
  | parse (err : E)

inductive Call where
  | resolve (tokenHash : TokenHash)
  | rpc (r : Rpc)
deriving DecidableEq, Repr

def Call.Reply : Call → Type
  | .resolve _ => ResolveResult
  | .rpc r => r.Reply

abbrev Handler := Program Call Call.Reply

def resolverResolve (tokenHash : TokenHash) : Handler ResolveResult := .ask (Call.resolve tokenHash)

def viaRpc {α : Type} (client : Client α) : Handler α := client.lift Call.rpc fun _ reply => reply

/-- A behaviour of the session resolver and of the check server. -/
structure World where
  resolve : TokenHash → ResolveResult
  check : Pb.CheckRequest → Except Status Pb.CheckResponse
  list : Pb.ListRequest → Except Status Pb.ListResponse

def World.reply (world : World) : ∀ call, Call.Reply call
  | .resolve tokenHash => world.resolve tokenHash
  | .rpc (.check r) => world.check r
  | .rpc (.list r) => world.list r

def Call.hash? : Call → Option TokenHash
  | .resolve tokenHash => some tokenHash
  | .rpc _ => none

def Call.checkRequest? : Call → Option Pb.CheckRequest
  | .rpc (.check r) => some r
  | _ => none

variable (crates : Crates H)

def hexEncode (bytes : List UInt8) : String :=
  String.ofList (bytes.flatMap fun b => [Nat.digitChar (b.toNat / 16), Nat.digitChar (b.toNat % 16)])

def tokenHash (rawToken : String) : TokenHash :=
  hexEncode (crates.sha256 rawToken.toByteArray.data.toList)

/-- The bytes which `urlencode` lets through. -/
def isUnreserved (b : UInt8) : Bool :=
  let c := Char.ofNat b.toNat
  c.isAlphanum || c == '-' || c == '.' || c == '_' || c == '~'

def percent (b : UInt8) : List Char :=
  ['%', (Nat.digitChar (b.toNat / 16)).toUpper, (Nat.digitChar (b.toNat % 16)).toUpper]

def urlencode (s : String) : String :=
  String.ofList (s.toByteArray.data.toList.flatMap fun b =>
    if isUnreserved b then [Char.ofNat b.toNat] else percent b)

/-- Of the `AuthState`, the prefix of the sign-in location; its client and its
resolver are the environment. -/
structure AuthState where
  signinPrefix : String

def AuthState.new : Option String → AuthState
  | none => ⟨""⟩
  | some p => if p = "/" then ⟨""⟩ else ⟨p⟩

def AuthState.signinLocation (authState : AuthState) (parts : Parts H) : String :=
  let back := parts.pathAndQuery.getD "/"
  s!"{authState.signinPrefix}/signin?back={urlencode back}"

inductive AuthScheme where
  | sessionCookieAuth
  | bearerTokenAuth
deriving DecidableEq, Repr

def AuthScheme.token : AuthScheme → H → Option String
  | .sessionCookieAuth, headers => (crates.typedGetCookie headers).bind fun c => c "session"
  | .bearerTokenAuth, headers =>
    match crates.typedTryGetBearer headers with
    | .ok (some bearer) => some bearer
    | .ok none | .error _ => none

inductive Subject (E : Type) where
  | principal (u : UserId)
  | notFound
  | error (err : WebResourceError E)

def resolveSubject (token : String) : Handler (Subject E) := do
  match ← resolverResolve (tokenHash crates token) with
  | .ok (some session) => return .principal ⟨session.principal⟩
  | .ok none => return .notFound
  | .error err => return .error (.internalServerError (.resolve err))

structure WithPrincipal (R : Type) where
  principal : Principal
  resource : R

structure WithOptPrincipal (R : Type) where
  principal : Option Principal
  resource : R

variable (web : WebResource H S R E) (fromRef : S → AuthState)

/-- The two implementations for the two schemes differ in the token alone. -/
def WithPrincipal.fromRequestParts (A : AuthScheme) (parts : Parts H) (state : S) :
    Handler (Except (WebResourceError E) (WithPrincipal R)) :=
  let authState := fromRef state
  match web.parse parts state with
  | (.error err, _) => return .error (.parse err)
  | (.ok resource, parts) =>
    match A.token crates parts.headers with
    | none => return .error (.missingSession (authState.signinLocation parts))
    | some token =>
      let ns := web.namespaceOf resource
      let obj := web.object resource
      match web.rel resource parts.method with
      | none => return .error .methodNotAllowed
      | some rel => do
        match ← resolveSubject crates token with
        | .notFound => return .error (.missingSession (authState.signinLocation parts))
        | .error err => return .error err
        | .principal u =>
          match ← viaRpc (check ns obj rel u none) with
          | .error err => return .error (.internalServerError (.call err))
          | .ok (.ok principal) => return .ok { principal, resource }
          | .ok (.forbidden _) => return .error .forbidden
          | .ok .unknownPutativeUser => return .error .forbidden

/-- A request without a token, or with an unknown one, is let through without a
principal. -/
def WithOptPrincipal.fromRequestParts (parts : Parts H) (state : S) :
    Handler (Except (WebResourceError E) (WithOptPrincipal R)) :=
  match web.parse parts state with
  | (.error err, _) => return .error (.parse err)
  | (.ok resource, parts) =>
    match AuthScheme.sessionCookieAuth.token crates parts.headers with
    | none => return .ok { principal := none, resource }
    | some token =>
      let ns := web.namespaceOf resource
      let obj := web.object resource
      match web.rel resource parts.method with
      | none => return .error .methodNotAllowed
      | some rel => do
        match ← resolveSubject crates token with
        | .notFound => return .ok { principal := none, resource }
        | .error err => return .error err
        | .principal u =>
          match ← viaRpc (check ns obj rel u none) with
          | .error err => return .error (.internalServerError (.call err))
          | .ok (.ok principal) => return .ok { principal := some principal, resource }
          | .ok (.forbidden _) => return .error .forbidden
          | .ok .unknownPutativeUser => return .error .forbidden

variable (world : World) {crates}

@[simp] theorem run_resolverResolve (hash : TokenHash) :
    (resolverResolve hash).run world.reply = world.resolve hash := rfl

@[simp] theorem calls_resolverResolve (hash : TokenHash) :
    (resolverResolve hash).calls world.reply = [.resolve hash] := rfl

theorem run_resolveSubject (token : String) :
    (resolveSubject (E := E) crates token).run world.reply =
      match world.resolve (tokenHash crates token) with
      | .ok (some session) => .principal ⟨session.principal⟩
      | .ok none => .notFound
      | .error err => .error (.internalServerError (.resolve err)) := by
  simp only [resolveSubject, Program.run_bind, run_resolverResolve]
  split <;> rfl

theorem calls_resolveSubject (token : String) :
    (resolveSubject (E := E) crates token).calls world.reply = [.resolve (tokenHash crates token)] := by
  simp only [resolveSubject, Program.calls_bind, calls_resolverResolve, run_resolverResolve]
  split <;> rfl

variable {ns : Namespace} {obj : Obj} {rel : Rel} {u : UserId}

theorem run_viaRpc_check : (viaRpc (check ns obj rel u none)).run world.reply =
    if rel.val = Rel.IMPOSSIBLE then .ok (.forbidden ⟨""⟩)
    else checkResult (world.check (checkRequest ns obj rel u none)) := by
  split
  · next h => rw [check_impossible h]; rfl
  · next h => rw [check_possible h]; rfl

theorem calls_viaRpc_check : (viaRpc (check ns obj rel u none)).calls world.reply =
    if rel.val = Rel.IMPOSSIBLE then []
    else [.rpc (.check (checkRequest ns obj rel u none))] := by
  split
  · next h => rw [check_impossible h]; rfl
  · next h => rw [check_possible h]; rfl

end NioClient.Axum
