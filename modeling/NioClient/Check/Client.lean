import NioClient.Library.Program
import NioClient.Check.Wire

/-! # The check client's `check` and `list`

The calls of the client are its RPCs. Observers are left out: they are told of an
RPC after it and answer nothing.
-/
namespace NioClient.Check
open Environment

structure Principal where
  val : String
deriving DecidableEq, Repr

inductive CheckResult where
  | ok (principal : Principal)
  | forbidden (principal : Principal)
  | unknownPutativeUser
deriving DecidableEq, Repr

inductive CallError where
  | unexpectedResponseFormat
  | status (status : Status)
deriving DecidableEq, Repr

structure ListResult where
  ts : Timestamp
  objs : List String
deriving DecidableEq, Repr

namespace Pb

structure CheckRequest where
  ns : String
  obj : String
  rel : String
  userId : String
  ts : String
deriving DecidableEq, Repr

/-- A `Principal` message is its `id`. -/
structure CheckResponse where
  principal : Option String
  ok : Bool
deriving DecidableEq, Repr

structure ListRequest where
  ns : String
  rel : String
  userId : String
  ts : String
deriving DecidableEq, Repr

structure ListResponse where
  ts : String
  objs : List String
deriving DecidableEq, Repr

end Pb

inductive Rpc where
  | check (r : Pb.CheckRequest)
  | list (r : Pb.ListRequest)
deriving DecidableEq, Repr

def Rpc.Reply : Rpc → Type
  | .check _ => Except Status Pb.CheckResponse
  | .list _ => Except Status Pb.ListResponse

abbrev Client := Program Rpc Rpc.Reply

def checkRpc (r : Pb.CheckRequest) : Client (Except Status Pb.CheckResponse) := .ask (Rpc.check r)

def listRpc (r : Pb.ListRequest) : Client (Except Status Pb.ListResponse) := .ask (Rpc.list r)

/-- The mapping at the end of `check`. -/
def checkResult : Except Status Pb.CheckResponse → Except CallError CheckResult
  | .ok { principal := some id, ok } => if ok then .ok (.ok ⟨id⟩) else .ok (.forbidden ⟨id⟩)
  | .ok { principal := none, ok := false } => .ok .unknownPutativeUser
  | .ok { principal := none, ok := true } => .error .unexpectedResponseFormat
  | .error status => .error (.status status)

def checkRequest (ns : Namespace) (obj : Obj) (rel : Rel) (userId : UserId)
    (timestamp : Option Timestamp) : Pb.CheckRequest where
  ns := ns.val
  obj := obj.val
  rel := rel.val
  userId := userId.val
  ts := (timestamp.getD Timestamp.empty).val

def check (ns : Namespace) (obj : Obj) (rel : Rel) (userId : UserId) (timestamp : Option Timestamp) :
    Client (Except CallError CheckResult) :=
  if rel.val = Rel.IMPOSSIBLE then
    return .ok (.forbidden ⟨""⟩)
  else do
    let result ← checkRpc (checkRequest ns obj rel userId timestamp)
    return checkResult result

def listResult : Except Status Pb.ListResponse → Except CallError ListResult
  | .ok response => .ok ⟨⟨response.ts⟩,response.objs⟩
  | .error e => .error (.status e)

def listRequest (ns : Namespace) (rel : Rel) (userId : UserId) (timestamp : Option Timestamp) :
    Pb.ListRequest where
  ns := ns.val
  rel := rel.val
  userId := userId.val
  ts := (timestamp.getD Timestamp.empty).val

def list (ns : Namespace) (rel : Rel) (userId : UserId) (timestamp : Option Timestamp) :
    Client (Except CallError ListResult) := do
  let result ← listRpc (listRequest ns rel userId timestamp)
  return listResult result

variable {ns : Namespace} {obj : Obj} {rel : Rel} {userId : UserId} {timestamp : Option Timestamp}
  {reply : Except Status Pb.CheckResponse}

theorem check_impossible (h : rel.val = Rel.IMPOSSIBLE) :
    check ns obj rel userId timestamp = .pure (.ok (.forbidden ⟨""⟩)) := if_pos h

theorem check_possible (h : rel.val ≠ Rel.IMPOSSIBLE) : check ns obj rel userId timestamp =
    .call (.check (checkRequest ns obj rel userId timestamp)) fun reply => .pure (checkResult reply) :=
  if_neg h

@[simp] theorem checkResult_eq_ok {principal : Principal} :
    checkResult reply = .ok (.ok principal) ↔ reply = .ok ⟨some principal.val,true⟩ := by
  obtain ⟨id⟩ := principal
  rcases reply with status | ⟨_ | id',_ | _⟩ <;> simp [checkResult]

end NioClient.Check
