import NioClient.Check.Client
import NioClient.Check.Read
import NioClient.Check.Watch

/-! # The other calls of the check client

`check`, `list` and the Read call are programs of fewer RPCs, and stand among the
others here.
-/
namespace NioClient.Check
open Environment

def Rel.PARENT : String := "parent"
def Rel.UNSPECIFIED : String := "..."
def Rel.parent : Rel := ⟨PARENT⟩
def Rel.unspecified : Rel := ⟨UNSPECIFIED⟩

namespace Pb

structure ExpandRequest where
  ns : String
  obj : String
  rel : String
  ts : String
deriving DecidableEq, Repr

structure ExpandResponse where
  ts : String
  userIds : List String
  usersets : List UserSet
deriving DecidableEq, Repr

structure ContentChangeCheckRequest where
  ns : String
  obj : String
  rel : String
  userId : String
deriving DecidableEq, Repr

structure ContentChangeCheckResponse where
  ok : Bool
  ts : String
deriving DecidableEq, Repr

structure WatchRequest where
  ns : String
  startTs : String
deriving DecidableEq, Repr

structure RelationMeta where
  name : String
  kind : String
deriving DecidableEq, Repr

structure NamespaceMeta where
  name : String
  relations : List RelationMeta
deriving DecidableEq, Repr

structure ListNamespacesResponse where
  namespaces : List NamespaceMeta
deriving DecidableEq, Repr

structure WriteRequest where
  ts : Option String
  addTuples : List Tuple
  delTuples : List Tuple
deriving DecidableEq

structure WriteResponse where
  ts : String
deriving DecidableEq, Repr

end Pb

structure ExpandResult where
  ts : Timestamp
  userIds : List String
  usersets : List UserSet
deriving DecidableEq, Repr

structure ContentChangeCheckResult where
  ok : Bool
  ts : Timestamp
deriving DecidableEq, Repr

structure RelationMeta where
  name : String
  kind : String
deriving DecidableEq, Repr

structure NamespaceMeta where
  name : String
  relations : List RelationMeta
deriving DecidableEq, Repr

structure WriteError where
  status : Status
deriving DecidableEq, Repr

/-- The RPCs of the check and the namespace service. -/
inductive Service where
  | rpc (r : Rpc)
  | read (r : Pb.ReadRequest)
  | expand (r : Pb.ExpandRequest)
  | contentChangeCheck (r : Pb.ContentChangeCheckRequest)
  | watch (r : Pb.WatchRequest)
  | write (r : Pb.WriteRequest)
  | listNamespaces
deriving DecidableEq

/-- A Watch is answered by the items of its stream. -/
def Service.Reply : Service → Type
  | .rpc r => r.Reply
  | .read _ => Except Status Pb.ReadResponse
  | .expand _ => Except Status Pb.ExpandResponse
  | .contentChangeCheck _ => Except Status Pb.ContentChangeCheckResponse
  | .watch _ => Except Status (List (Except Status Pb.WatchResponse))
  | .write _ => Except Status Pb.WriteResponse
  | .listNamespaces => Except Status Pb.ListNamespacesResponse

abbrev CheckClient := Program Service Service.Reply

def viaCheck {α : Type} (client : Client α) : CheckClient α := client.lift Service.rpc fun _ reply => reply

def viaRead {α : Type} (reader : Reader α) : CheckClient α := reader.lift Service.read fun _ reply => reply

def expandRequest (ns : Namespace) (obj : Obj) (rel : Rel) (timestamp : Option Timestamp) :
    Pb.ExpandRequest where
  ns := ns.val
  obj := obj.val
  rel := rel.val
  ts := (timestamp.getD Timestamp.empty).val

def expandResult : Except Status Pb.ExpandResponse → Except ReadError ExpandResult
  | .ok response => .ok
      { ts := ⟨response.ts⟩
        userIds := response.userIds
        usersets := response.usersets.map fun us => ⟨⟨us.ns⟩,⟨us.obj⟩,⟨us.rel⟩⟩ }
  | .error status => .error (.grpc status)

def expand (ns : Namespace) (obj : Obj) (rel : Rel) (timestamp : Option Timestamp) :
    CheckClient (Except ReadError ExpandResult) :=
  .call (.expand (expandRequest ns obj rel timestamp)) fun reply => .pure (expandResult reply)

def contentChangeCheckResult :
    Except Status Pb.ContentChangeCheckResponse → Except CallError ContentChangeCheckResult
  | .ok response => .ok { ok := response.ok, ts := ⟨response.ts⟩ }
  | .error status => .error (.status status)

def contentChangeCheck (ns : Namespace) (obj : Obj) (rel : Rel) (userId : UserId) :
    CheckClient (Except CallError ContentChangeCheckResult) :=
  .call (.contentChangeCheck ⟨ns.val,obj.val,rel.val,userId.val⟩) fun reply =>
    .pure (contentChangeCheckResult reply)

def listNamespacesResult : Except Status Pb.ListNamespacesResponse → Except ReadError (List NamespaceMeta)
  | .ok resp => .ok (resp.namespaces.map fun ns => ⟨ns.name,ns.relations.map fun r => ⟨r.name,r.kind⟩⟩)
  | .error status => .error (.grpc status)

def listNamespaces : CheckClient (Except ReadError (List NamespaceMeta)) :=
  .call .listNamespaces fun reply => .pure (listNamespacesResult reply)

def watchRequest (ns : Namespace) (startTs : Timestamp) : Pb.WatchRequest := ⟨ns.val,startTs.val⟩

def watchResult : Except Status (List (Except Status Pb.WatchResponse)) → Except CallError WatchStream
  | .ok inner => .ok ⟨inner⟩
  | .error status => .error (.status status)

def watch (ns : Namespace) (startTs : Timestamp) : CheckClient (Except CallError WatchStream) :=
  .call (.watch (watchRequest ns startTs)) fun reply => .pure (watchResult reply)

section Reads
variable (fromTimestamp : Int64 → Option ℤ)

def getAll (ns : Namespace) (obj : Obj) : CheckClient (Except ReadError ReadResult) :=
  viaRead (read fromTimestamp [.byObject ns obj none])

def getAllRel (ns : Namespace) (obj : Obj) (rel : Rel) : CheckClient (Except ReadError ReadResult) :=
  viaRead (read fromTimestamp [.byObject ns obj (some rel)])

def readByUser (ns : Namespace) (userId : UserId) (rel : Option Rel) :
    CheckClient (Except ReadError ReadResult) :=
  viaRead (read fromTimestamp [.byUser ns userId rel])

def readByUserSet (ns : Namespace) (userSet : UserSet) (rel : Option Rel) :
    CheckClient (Except ReadError ReadResult) :=
  viaRead (read fromTimestamp [.byUserSet ns userSet rel])

end Reads

section Writes
variable (timestamp : ℤ → Int64)

def writeRequest (add del : List Tuple) (precondition : Option Timestamp) : Pb.WriteRequest where
  ts := precondition.map Timestamp.val
  addTuples := add.map (tupleToPb timestamp)
  delTuples := del.map (tupleToPb timestamp)

def writeResult : Except Status Pb.WriteResponse → Except WriteError Timestamp
  | .ok r => .ok ⟨r.ts⟩
  | .error status => .error ⟨status⟩

def write (add del : List Tuple) (precondition : Option Timestamp) :
    CheckClient (Except WriteError Timestamp) :=
  .call (.write (writeRequest timestamp add del precondition)) fun reply => .pure (writeResult reply)

def addOne (tuple : Tuple) : CheckClient (Except WriteError Timestamp) := write timestamp [tuple] [] none

def addMany (tuples : List Tuple) : CheckClient (Except WriteError Timestamp) :=
  write timestamp tuples [] none

/-- `ns:obj#parent@parent_ns:parent_obj#...` -/
def addParent (ns : Namespace) (obj : Obj) (parentNs : Namespace) (parentObj : Obj) :
    CheckClient (Except WriteError Timestamp) :=
  addOne timestamp ⟨ns,obj,.parent,.userSet parentNs parentObj .unspecified,none⟩

def deleteOne (tuple : Tuple) : CheckClient (Except WriteError Timestamp) :=
  write timestamp [] [tuple] none

end Writes
end NioClient.Check
