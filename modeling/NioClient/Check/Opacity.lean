import NioClient.Check.Calls

/-! # Zookies are opaque to the client

The client stores and echoes zookies, and only tells the empty one from the others. So if
the server's zookies and those of the caller are renamed, all that the client sends and
returns is renamed alike.
-/
namespace NioClient.Check
open Environment

/-- A call of the client; a Watch is opened and then read `calls` times. -/
inductive Invocation where
  | check (ns : Namespace) (obj : Obj) (rel : Rel) (userId : UserId) (timestamp : Option Timestamp)
  | list (ns : Namespace) (rel : Rel) (userId : UserId) (timestamp : Option Timestamp)
  | expand (ns : Namespace) (obj : Obj) (rel : Rel) (timestamp : Option Timestamp)
  | contentChangeCheck (ns : Namespace) (obj : Obj) (rel : Rel) (userId : UserId)
  | watch (ns : Namespace) (startTs : Timestamp) (calls : ℕ)
  | readWithTimestamp (ts : Timestamp) (filters : List ReadFilter)
  | write (add del : List Tuple) (precondition : Option Timestamp)
  | listNamespaces

inductive Outcome where
  | check (result : Except CallError CheckResult)
  | list (result : Except CallError ListResult)
  | expand (result : Except ReadError ExpandResult)
  | contentChangeCheck (result : Except CallError ContentChangeCheckResult)
  | watch (result : Except CallError (List (Except ReadError (Option WatchEvent))))
  | readWithTimestamp (result : Except ReadError ReadResult)
  | write (result : Except WriteError Timestamp)
  | listNamespaces (result : Except ReadError (List NamespaceMeta))

section Conversation
variable (fromTimestamp : Int64 → Option ℤ) (timestamp : ℤ → Int64)

def invoke : Invocation → CheckClient Outcome
  | .check ns obj rel userId ts => Outcome.check <$> viaCheck (check ns obj rel userId ts)
  | .list ns rel userId ts => Outcome.list <$> viaCheck (list ns rel userId ts)
  | .expand ns obj rel ts => Outcome.expand <$> expand ns obj rel ts
  | .contentChangeCheck ns obj rel userId =>
    Outcome.contentChangeCheck <$> contentChangeCheck ns obj rel userId
  | .watch ns startTs calls =>
    (fun stream => .watch (stream.map fun stream => stream.recvs fromTimestamp calls)) <$> watch ns startTs
  | .readWithTimestamp ts filters =>
    Outcome.readWithTimestamp <$> viaRead (readWithTimestamp fromTimestamp ts filters)
  | .write add del precondition => Outcome.write <$> write timestamp add del precondition
  | .listNamespaces => Outcome.listNamespaces <$> listNamespaces

/-- How the server answers at one moment. -/
abbrev Server := ∀ q : Service, q.Reply

/-- A caller makes its next call in view of all it has been answered, and finds the server
as it is at that moment. The outcomes and the RPCs, in order. -/
def converse (caller : List Outcome → Invocation) : List Outcome → List Server → List Outcome × List Service
  | _, [] => ([],[])
  | history, server :: servers =>
    let call := invoke fromTimestamp timestamp (caller history)
    let outcome := call.run server
    let rest := converse caller (history ++ [outcome]) servers
    (outcome :: rest.1,call.calls server ++ rest.2)

end Conversation

section Renaming
variable (σ : String → String)

def Timestamp.rename (ts : Timestamp) : Timestamp := ⟨σ ts.val⟩

def Invocation.rename : Invocation → Invocation
  | .check ns obj rel userId ts => .check ns obj rel userId (ts.map (·.rename σ))
  | .list ns rel userId ts => .list ns rel userId (ts.map (·.rename σ))
  | .expand ns obj rel ts => .expand ns obj rel (ts.map (·.rename σ))
  | .contentChangeCheck ns obj rel userId => .contentChangeCheck ns obj rel userId
  | .watch ns startTs calls => .watch ns (startTs.rename σ) calls
  | .readWithTimestamp ts filters => .readWithTimestamp (ts.rename σ) filters
  | .write add del precondition => .write add del (precondition.map (·.rename σ))
  | .listNamespaces => .listNamespaces

def WatchEvent.rename (event : WatchEvent) : WatchEvent := { event with ts := event.ts.rename σ }

def Outcome.rename : Outcome → Outcome
  | .check result => .check result
  | .list result => .list (result.map fun r => { r with ts := r.ts.rename σ })
  | .expand result => .expand (result.map fun r => { r with ts := r.ts.rename σ })
  | .contentChangeCheck result => .contentChangeCheck (result.map fun r => { r with ts := r.ts.rename σ })
  | .watch result => .watch (result.map fun events => events.map fun e => e.map fun e => e.map (·.rename σ))
  | .readWithTimestamp result => .readWithTimestamp (result.map fun r => { r with ts := r.ts.rename σ })
  | .write result => .write (result.map (·.rename σ))
  | .listNamespaces result => .listNamespaces result

def Rpc.rename : Rpc → Rpc
  | .check r => .check { r with ts := σ r.ts }
  | .list r => .list { r with ts := σ r.ts }

def Service.rename : Service → Service
  | .rpc r => .rpc (r.rename σ)
  | .read r => .read { r with ts := r.ts.map σ }
  | .expand r => .expand { r with ts := σ r.ts }
  | .contentChangeCheck r => .contentChangeCheck r
  | .watch r => .watch { r with startTs := σ r.startTs }
  | .write r => .write { r with ts := r.ts.map σ }
  | .listNamespaces => .listNamespaces

def Pb.WatchResponse.rename (resp : Pb.WatchResponse) : Pb.WatchResponse := { resp with ts := σ resp.ts }

def Service.renameReply : ∀ q : Service, q.Reply → (q.rename σ).Reply
  | .rpc (.check _), reply => reply
  | .rpc (.list _), reply => Except.map (fun x : Pb.ListResponse => { x with ts := σ x.ts }) reply
  | .read _, reply => Except.map (fun x : Pb.ReadResponse => { x with ts := σ x.ts }) reply
  | .expand _, reply => Except.map (fun x : Pb.ExpandResponse => { x with ts := σ x.ts }) reply
  | .contentChangeCheck _, reply =>
    Except.map (fun x : Pb.ContentChangeCheckResponse => { x with ts := σ x.ts }) reply
  | .watch _, reply =>
    Except.map (fun items : List (Except Status Pb.WatchResponse) => items.map fun e => e.map (·.rename σ)) reply
  | .write _, reply => Except.map (fun x : Pb.WriteResponse => { x with ts := σ x.ts }) reply
  | .listNamespaces, reply => reply

/-- The second server answers the renamed requests with the renamed replies of the first. -/
def Renamed (server server' : Server) : Prop := ∀ q : Service, server' (q.rename σ) = q.renameReply σ (server q)

end Renaming

variable {fromTimestamp : Int64 → Option ℤ} {timestamp : ℤ → Int64} {σ : String → String}
  {server server' : Server} {ns : Namespace} {obj : Obj} {rel : Rel} {userId : UserId} {ts : Timestamp}

/-- A call and the renamed one, against a server and the renamed one. -/
def Alike (fromTimestamp : Int64 → Option ℤ) (timestamp : ℤ → Int64) (σ : String → String)
    (server server' : Server) (call : Invocation) : Prop :=
  (invoke fromTimestamp timestamp (call.rename σ)).run server' =
      ((invoke fromTimestamp timestamp call).run server).rename σ ∧
    (invoke fromTimestamp timestamp (call.rename σ)).calls server' =
      ((invoke fromTimestamp timestamp call).calls server).map (Service.rename σ)

/-- A call is one RPC, made of the renamed request where the call is renamed, and its mapping
of the reply only passes the zookie on. -/
theorem Alike.of_call {call : Invocation} {q : Service} {f : q.Reply → Outcome}
    {g : (q.rename σ).Reply → Outcome} (h : Renamed σ server server')
    (hcall : invoke fromTimestamp timestamp call = .call q fun reply => .pure (f reply))
    (hcall' : invoke fromTimestamp timestamp (call.rename σ) = .call (q.rename σ) fun reply => .pure (g reply))
    (hf : ∀ reply, g (q.renameReply σ reply) = (f reply).rename σ) :
    Alike fromTimestamp timestamp σ server server' call := by
  rw [Alike, hcall, hcall']
  refine ⟨?_,rfl⟩
  change g (server' (q.rename σ)) = (f (server q)).rename σ
  rw [h q, hf]

theorem Timestamp.rename_empty (hσ : σ EMPTY = EMPTY) : Timestamp.empty.rename σ = Timestamp.empty :=
  congrArg Timestamp.mk hσ

theorem check_alike (h : Renamed σ server server') (ts : Timestamp) :
    Alike fromTimestamp timestamp σ server server' (.check ns obj rel userId (some ts)) := by
  by_cases himp : rel.val = Rel.IMPOSSIBLE
  · simp only [Alike, Invocation.rename, invoke, check_impossible himp]
    exact ⟨rfl,rfl⟩
  · refine .of_call (q := .rpc (.check (checkRequest ns obj rel userId (some ts))))
      (f := fun reply => .check (checkResult reply)) (g := fun reply => .check (checkResult reply)) h ?_ ?_
      fun _ => rfl
    · simp only [invoke, check_possible himp]
      rfl
    · simp only [Invocation.rename, invoke, check_possible himp]
      rfl

theorem list_alike (h : Renamed σ server server') (ts : Timestamp) :
    Alike fromTimestamp timestamp σ server server' (.list ns rel userId (some ts)) := by
  refine .of_call (q := .rpc (.list (listRequest ns rel userId (some ts))))
    (f := fun reply => .list (listResult reply)) (g := fun reply => .list (listResult reply)) h rfl rfl ?_
  rintro (status | response) <;> rfl

theorem expand_alike (h : Renamed σ server server') (ts : Timestamp) :
    Alike fromTimestamp timestamp σ server server' (.expand ns obj rel (some ts)) := by
  refine .of_call (q := .expand (expandRequest ns obj rel (some ts)))
    (f := fun reply => .expand (expandResult reply)) (g := fun reply => .expand (expandResult reply)) h rfl rfl ?_
  rintro (status | response) <;> rfl

theorem contentChangeCheck_alike (h : Renamed σ server server') :
    Alike fromTimestamp timestamp σ server server' (.contentChangeCheck ns obj rel userId) := by
  refine .of_call (q := .contentChangeCheck ⟨ns.val,obj.val,rel.val,userId.val⟩)
    (f := fun reply => .contentChangeCheck (contentChangeCheckResult reply))
    (g := fun reply => .contentChangeCheck (contentChangeCheckResult reply)) h rfl rfl ?_
  rintro (status | response) <;> rfl

theorem write_alike (h : Renamed σ server server') (add del : List Tuple) (precondition : Option Timestamp) :
    Alike fromTimestamp timestamp σ server server' (.write add del precondition) := by
  cases precondition <;>
  · refine .of_call (q := .write (writeRequest timestamp add del _))
      (f := fun reply => .write (writeResult reply)) (g := fun reply => .write (writeResult reply)) h rfl rfl ?_
    rintro (status | response) <;> rfl

theorem listNamespaces_alike (h : Renamed σ server server') :
    Alike fromTimestamp timestamp σ server server' .listNamespaces :=
  .of_call (q := .listNamespaces) (f := fun reply => .listNamespaces (listNamespacesResult reply))
    (g := fun reply => .listNamespaces (listNamespacesResult reply)) h rfl rfl fun _ => rfl

theorem recvs_rename (items : List (Except Status Pb.WatchResponse)) (n : ℕ) :
    (WatchStream.mk (items.map fun e => e.map (·.rename σ))).recvs fromTimestamp n =
      ((WatchStream.mk items).recvs fromTimestamp n).map fun e => e.map fun e => e.map (·.rename σ) := by
  induction n generalizing items with
  | zero => rfl
  | succ n ih =>
    rcases items with _ | ⟨status | resp,items⟩
    · exact congrArg (_ :: ·) (ih [])
    · exact congrArg (_ :: ·) (ih items)
    · have hresp : (watchEventFromPb fromTimestamp (resp.rename σ)).map some =
          ((watchEventFromPb fromTimestamp resp).map some).map fun e => e.map (·.rename σ) := by
        simp only [watchEventFromPb_map, Pb.WatchResponse.rename]
        cases updatesFromPb fromTimestamp 0 resp.updates <;> rfl
      rw [List.map_cons, recvs_ok, List.map_cons, ← ih]
      exact congrArg (· :: _) hresp

theorem watch_alike (h : Renamed σ server server') (calls : ℕ) :
    Alike fromTimestamp timestamp σ server server' (.watch ns ts calls) := by
  refine .of_call (q := .watch (watchRequest ns ts))
    (f := fun reply => .watch ((watchResult reply).map fun stream => stream.recvs fromTimestamp calls))
    (g := fun reply => .watch ((watchResult reply).map fun stream => stream.recvs fromTimestamp calls))
    h rfl rfl ?_
  rintro (status | items)
  · rfl
  · exact congrArg (Outcome.watch ∘ Except.ok) (recvs_rename items calls)

theorem readWithTimestamp_call {filters : List ReadFilter} (hfilters : filters ≠ []) :
    readWithTimestamp fromTimestamp ts filters =
      .call (readRequest ts filters) fun reply => .pure (readResult fromTimestamp reply) :=
  if_neg (by simpa using hfilters)

theorem readResult_rename (reply : Except Status Pb.ReadResponse) :
    readResult fromTimestamp (reply.map fun x => { x with ts := σ x.ts }) =
      (readResult fromTimestamp reply).map fun r => { r with ts := r.ts.rename σ } := by
  rcases reply with status | response
  · rfl
  · simp only [readResult, Except.map]
    cases tuplesFromPb fromTimestamp response.tuples <;> rfl

theorem read_alike (hσ : ∀ zookie, σ zookie = Timestamp.EMPTY ↔ zookie = Timestamp.EMPTY)
    (h : Renamed σ server server') (filters : List ReadFilter) :
    Alike fromTimestamp timestamp σ server server' (.readWithTimestamp ts filters) := by
  by_cases hfilters : filters = []
  · subst hfilters
    exact ⟨rfl,rfl⟩
  · -- the request has the zookie exactly if it is not the empty one
    have hrequest : readRequest (ts.rename σ) filters =
        { readRequest ts filters with ts := (readRequest ts filters).ts.map σ } := by
      have hts : ts.rename σ = Timestamp.empty ↔ ts = Timestamp.empty := by
        obtain ⟨zookie⟩ := ts
        simp [Timestamp.rename, Timestamp.empty, hσ]
      simp only [readRequest, ne_eq, hts]
      split <;> rfl
    have hcall (q : Pb.ReadRequest) : Outcome.readWithTimestamp <$>
        viaRead (.call q fun reply => .pure (readResult fromTimestamp reply)) =
          Program.call (.read q) fun reply => .pure (.readWithTimestamp (readResult fromTimestamp reply)) := rfl
    refine .of_call (q := .read (readRequest ts filters))
      (f := fun reply => .readWithTimestamp (readResult fromTimestamp reply))
      (g := fun reply => .readWithTimestamp (readResult fromTimestamp reply)) h ?_ ?_
      fun reply => congrArg Outcome.readWithTimestamp (readResult_rename reply)
    · rw [invoke, readWithTimestamp_call hfilters, hcall]
    · rw [Invocation.rename, invoke, readWithTimestamp_call hfilters, hcall, hrequest]
      rfl

theorem Alike.of_eq {call call' : Invocation}
    (h : Alike fromTimestamp timestamp σ server server' call')
    (hcall : invoke fromTimestamp timestamp call = invoke fromTimestamp timestamp call')
    (hrename : call.rename σ = call) (hrename' : call'.rename σ = call') :
    Alike fromTimestamp timestamp σ server server' call := by
  rw [Alike, hrename'] at h
  rwa [Alike, hrename, hcall]

theorem invoke_alike (hσ : ∀ zookie, σ zookie = Timestamp.EMPTY ↔ zookie = Timestamp.EMPTY)
    (h : Renamed σ server server') (call : Invocation) :
    Alike fromTimestamp timestamp σ server server' call := by
  have hempty : Timestamp.empty.rename σ = Timestamp.empty :=
    Timestamp.rename_empty ((hσ _).mpr rfl)
  -- without a zookie a request has the empty one, which is its own renaming
  cases call with
  | check ns obj rel userId ts =>
    cases ts with
    | none => exact (check_alike h .empty).of_eq rfl rfl (by rw [Invocation.rename, Option.map_some, hempty])
    | some ts => exact check_alike h ts
  | list ns rel userId ts =>
    cases ts with
    | none => exact (list_alike h .empty).of_eq rfl rfl (by rw [Invocation.rename, Option.map_some, hempty])
    | some ts => exact list_alike h ts
  | expand ns obj rel ts =>
    cases ts with
    | none => exact (expand_alike h .empty).of_eq rfl rfl (by rw [Invocation.rename, Option.map_some, hempty])
    | some ts => exact expand_alike h ts
  | contentChangeCheck => exact contentChangeCheck_alike h
  | watch ns startTs calls => exact watch_alike h calls
  | readWithTimestamp ts filters => exact read_alike hσ h filters
  | write add del precondition => exact write_alike h add del precondition
  | listNamespaces => exact listNamespaces_alike h

/-- Whatever the server answers from call to call, and however the caller goes on from what
it has been told: if the caller too treats zookies as opaque, then with renamed zookies the
conversation is the same up to their names, in all that is returned and all that is sent. -/
theorem converse_rename (hσ : ∀ zookie, σ zookie = Timestamp.EMPTY ↔ zookie = Timestamp.EMPTY)
    {caller caller' : List Outcome → Invocation}
    (hcaller : ∀ history, caller' (history.map (Outcome.rename σ)) = (caller history).rename σ)
    {servers servers' : List Server} (h : List.Forall₂ (Renamed σ) servers servers') (history : List Outcome) :
    converse fromTimestamp timestamp caller' (history.map (Outcome.rename σ)) servers' =
      ((converse fromTimestamp timestamp caller history servers).1.map (Outcome.rename σ),
        (converse fromTimestamp timestamp caller history servers).2.map (Service.rename σ)) := by
  induction h generalizing history with
  | nil => rfl
  | @cons server _ _ _ hserver _ ih =>
    have halike : Alike fromTimestamp timestamp σ _ _ (caller history) := invoke_alike hσ hserver _
    obtain ⟨hrun,hcalls⟩ := halike
    simp only [converse, hcaller, hrun, hcalls]
    have hrest := ih (history ++ [(invoke fromTimestamp timestamp (caller history)).run server])
    rw [List.map_append] at hrest
    simp only [List.map_cons, List.map_nil] at hrest
    rw [hrest, List.map_cons, List.map_append]

/-- A server which lists one object at the snapshot `zookie`, and is otherwise down. -/
def snapshotServer (zookie : String) : Server
  | .rpc (.list _) => .ok ⟨zookie,["1"]⟩
  | .rpc (.check _) | .read _ | .expand _ | .contentChangeCheck _ | .watch _ | .write _ | .listNamespaces =>
    .error ⟨14,"unavailable"⟩

/-- A caller which lists, and then reads at the snapshot of the list. -/
def listThenRead : List Outcome → Invocation
  | [.list (.ok r)] => .readWithTimestamp r.ts [.byUser ⟨"doc"⟩ ⟨"u1"⟩ none]
  | _ => .list ⟨"doc"⟩ ⟨"viewer"⟩ ⟨"u1"⟩ none

theorem converse_rename_listThenRead :
    let σ zookie := if zookie = Timestamp.EMPTY then Timestamp.EMPTY else "Ag=="
    converse chronoFromTimestamp chronoTimestamp listThenRead [] [snapshotServer "Ag==",snapshotServer "Ag=="] =
      let first := converse chronoFromTimestamp chronoTimestamp listThenRead []
        [snapshotServer "Aw==",snapshotServer "Aw=="]
      (first.1.map (Outcome.rename σ),first.2.map (Service.rename σ)) := by
  intro σ
  have hσ : ∀ zookie, σ zookie = Timestamp.EMPTY ↔ zookie = Timestamp.EMPTY := by
    intro zookie
    have hother : "Ag==" ≠ Timestamp.EMPTY := by decide
    by_cases h : zookie = Timestamp.EMPTY <;> simp [σ, h, hother]
  have hserver : Renamed σ (snapshotServer "Aw==") (snapshotServer "Ag==") := by
    rintro ((_ | _) | _ | _ | _ | _ | _ | _) <;> rfl
  refine converse_rename hσ (fun history => ?_) (.cons hserver (.cons hserver .nil)) []
  rcases history with _ | ⟨outcome,_ | ⟨outcome',history⟩⟩
  · rfl
  · rcases outcome with _ | (_ | _) | _ | _ | _ | _ | _ | _ <;> rfl
  · rcases outcome with _ | (_ | _) | _ | _ | _ | _ | _ | _ <;> rfl

end NioClient.Check
