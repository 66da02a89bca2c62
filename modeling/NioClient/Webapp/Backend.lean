import Mathlib.Data.Finset.Insert
import Mathlib.Data.List.AList
import NioClient.Axum.Extractors
import NioClient.Session.GrpcFetcher

/-! # The in-process backend of the example app

It serves the two services that the extractors call. A method is one section under the
lock of its one store; what it prints is left out.
-/
namespace NioClient.Webapp
open Axum Check Session
variable {H : Type}

/-- A tuple with this subject grants the relation to everyone. -/
def ALL_USERS : String := "allUsers"

def SESSION_TTL_SECONDS : Int64 := 3600

structure Backend.Session where
  principal : String
  expiresAtUnix : Int64
deriving DecidableEq

/-- The shared state: issued sessions by token hash, tuples (namespace, object, relation,
subject), and the name of each principal. -/
structure Backend where
  sessions : AList fun _ : TokenHash => Backend.Session
  tuples : Finset (String × String × String × String)
  names : AList fun _ : String => String

namespace Backend

def new : Backend := ⟨∅,∅,∅⟩

def registerPrincipal (b : Backend) (principal name : String) : Backend :=
  { b with names := b.names.insert principal name }

def grant (b : Backend) (ns obj rel subject : String) : Backend :=
  { b with tuples := insert (ns,obj,rel,subject) b.tuples }

def createSession (crates : Crates H) (b : Backend) (principal : String) (bytes : Vector UInt8 32)
    (nowUnix : Int64) : String × Backend :=
  let raw := hexEncode bytes.toList
  let expiresAtUnix := nowUnix + SESSION_TTL_SECONDS
  (raw,{ b with sessions := b.sessions.insert (tokenHash crates raw) ⟨principal,expiresAtUnix⟩ })

def removeSession (b : Backend) (hash : TokenHash) : Backend :=
  { b with sessions := b.sessions.erase hash }

def resolve (b : Backend) (nowUnix : Int64) (request : Session.Pb.ResolveRequest) :
    Session.Pb.ResolveResponse where
  outcome := some <|
    match b.sessions.lookup request.tokenHash with
    | some s => if nowUnix < s.expiresAtUnix then .session s.principal s.expiresAtUnix "demo" else .notFound
    | none => .notFound

def principal? (resp : Session.Pb.ResolveResponse) : Option String :=
  match resp.outcome with
  | some (.session principal _ _) => some principal
  | _ => none

def check (b : Backend) (req : Check.Pb.CheckRequest) : Check.Pb.CheckResponse :=
  let key := fun subject => (req.ns,req.obj,req.rel,subject)
  let granted := decide (key req.userId ∈ b.tuples)
  let toAll := decide (key ALL_USERS ∈ b.tuples)
  let known := (b.names.lookup req.userId).isSome
  let allowed := granted || toAll
  { principal := if known || granted || toAll then some req.userId else none
    ok := allowed }

/-- `CheckService::list`, with code `Unimplemented`. -/
def list (_ : Check.Pb.ListRequest) : Except Status Check.Pb.ListResponse :=
  .error ⟨12,"not used in the webapp example"⟩

/-- What the backend replies to an RPC of the check client. -/
def reply (b : Backend) : ∀ rpc : Rpc, rpc.Reply
  | .check req => .ok (b.check req)
  | .list req => list req

variable {b : Backend}

theorem principal?_resolve (hash : TokenHash) (nowUnix : Int64) : principal? (b.resolve nowUnix ⟨hash⟩) =
    ((b.sessions.lookup hash).filter fun y => nowUnix < y.expiresAtUnix).map (·.principal) := by
  rw [principal?, resolve]
  cases b.sessions.lookup hash with
  | none => rfl
  | some y => by_cases hlt : nowUnix < y.expiresAtUnix <;> simp [hlt, Option.filter]

theorem resolve_held {hash : TokenHash} {nowUnix : Int64} {principal : String}
    (h : principal? (b.resolve nowUnix ⟨hash⟩) = some principal) :
    ∃ y, b.sessions.lookup hash = some y ∧ y.principal = principal := by
  rw [principal?_resolve] at h
  obtain ⟨y,hy,hprincipal⟩ := Option.map_eq_some_iff.mp h
  exact ⟨y,(Option.filter_eq_some_iff.mp hy).1,hprincipal⟩

theorem createSession_keeps {crates : Crates H} {principal raw : String} {bytes : Vector UInt8 32}
    {nowUnix : Int64} {b' : Backend} (h : b.createSession crates principal bytes nowUnix = (raw,b')) :
    b'.tuples = b.tuples ∧ b'.names = b.names := by
  cases h
  exact ⟨rfl,rfl⟩

/-- The principal that is asked for has a tuple of its own, or everyone does. -/
def Allows (b : Backend) (req : Check.Pb.CheckRequest) : Prop :=
  (req.ns,req.obj,req.rel,req.userId) ∈ b.tuples ∨ (req.ns,req.obj,req.rel,ALL_USERS) ∈ b.tuples

instance (b : Backend) (req : Check.Pb.CheckRequest) : Decidable (b.Allows req) :=
  inferInstanceAs (Decidable (_ ∨ _))

theorem check_of_allows {req : Check.Pb.CheckRequest} (h : b.Allows req) :
    b.check req = ⟨some req.userId,true⟩ := by
  rcases h with hown | hall
  · simp [check, hown]
  · simp [check, hall]

theorem check_of_not_allows {req : Check.Pb.CheckRequest} (h : ¬ b.Allows req) :
    b.check req = ⟨if (b.names.lookup req.userId).isSome then some req.userId else none,false⟩ := by
  obtain ⟨hown,hall⟩ := not_or.mp h
  simp [check, hown, hall]

theorem check_allowed {req : Check.Pb.CheckRequest} {principal : String}
    (h : b.check req = ⟨some principal,true⟩) : principal = req.userId ∧ b.Allows req := by
  by_cases hallows : b.Allows req
  · rw [check_of_allows hallows] at h
    exact ⟨(Option.some.inj (Check.Pb.CheckResponse.mk.inj h).1).symm,hallows⟩
  · rw [check_of_not_allows hallows] at h
    cases (Check.Pb.CheckResponse.mk.inj h).2

end Backend
end NioClient.Webapp
