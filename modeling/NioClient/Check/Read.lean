import NioClient.Library.Program
import NioClient.Check.Codec

/-! # The Read call, and what Read and Watch responses are mapped to -/
namespace NioClient.Check
open Environment Traversal

namespace Pb

structure TupleSpec where
  obj : String
  rel : String
  user : Option User
deriving DecidableEq, Repr

structure ObjectSpec where
  obj : String
  rel : Option String
deriving DecidableEq, Repr

structure UserSetSpec where
  user : Option User
  rel : Option String
deriving DecidableEq, Repr

inductive Spec where
  | tupleSpec (spec : TupleSpec)
  | objectSpec (spec : ObjectSpec)
  | usersetSpec (spec : UserSetSpec)
deriving DecidableEq, Repr

structure TupleSet where
  ns : String
  spec : Option Spec
deriving DecidableEq, Repr

structure ReadRequest where
  ts : Option String
  tupleSets : List TupleSet
deriving DecidableEq, Repr

structure ReadResponse where
  ts : String
  tuples : List Tuple
deriving DecidableEq

end Pb

structure UserSet where
  ns : Namespace
  obj : Obj
  rel : Rel
deriving DecidableEq, Repr

/-- One filter of a Read. The three functions below are the only ones that build it. -/
structure ReadFilter where
  set : Pb.TupleSet
deriving DecidableEq, Repr

namespace ReadFilter

def byObject (ns : Namespace) (obj : Obj) (rel : Option Rel) : ReadFilter where
  set := ⟨ns.val,some (.objectSpec ⟨obj.val,rel.map Rel.val⟩)⟩

def byUser (ns : Namespace) (userId : UserId) (rel : Option Rel) : ReadFilter where
  set := ⟨ns.val,some (.usersetSpec ⟨some (.userId userId.val),rel.map Rel.val⟩)⟩

def byUserSet (ns : Namespace) (userSet : UserSet) (rel : Option Rel) : ReadFilter where
  set := ⟨ns.val,some (.usersetSpec
    ⟨some (.userSet ⟨userSet.ns.val,userSet.obj.val,userSet.rel.val⟩),rel.map Rel.val⟩)⟩

end ReadFilter

structure ReadResult where
  ts : Timestamp
  tuples : List Tuple
deriving DecidableEq, Repr

abbrev Reader := Program Pb.ReadRequest fun _ => Except Status Pb.ReadResponse

section Mapping
variable (fromTimestamp : Int64 → Option ℤ)

def readRequest (ts : Timestamp) (filters : List ReadFilter) : Pb.ReadRequest where
  ts := if ts ≠ Timestamp.empty then some ts.val else none
  tupleSets := filters.map ReadFilter.set

def tuplesFromPb : List Pb.Tuple → Except ReadError (List Tuple)
  | [] => .ok []
  | tup :: tups => do
    let tuple ← tupleFromPb fromTimestamp tup
    let tuples ← tuplesFromPb tups
    return tuple :: tuples

def readResult : Except Status Pb.ReadResponse → Except ReadError ReadResult
  | .error status => .error (.grpc status)
  | .ok response => do
    let tuples ← tuplesFromPb fromTimestamp response.tuples
    return { ts := ⟨response.ts⟩, tuples }

def readWithTimestamp (ts : Timestamp) (filters : List ReadFilter) : Reader (Except ReadError ReadResult) :=
  if filters.isEmpty then
    return .error (.invalidResponse "read: at least one filter required")
  else do
    let result ← Program.ask (readRequest ts filters)
    return readResult fromTimestamp result

def read (filters : List ReadFilter) : Reader (Except ReadError ReadResult) :=
  readWithTimestamp fromTimestamp Timestamp.empty filters

end Mapping

/-- The errors about a tuple that cannot be mapped. -/
inductive Pb.Tuple.Complaint (fromTimestamp : Int64 → Option ℤ) (tup : Pb.Tuple) : ReadError → Prop where
  | missingUser (h : tup.user = none) : Complaint fromTimestamp tup
      (.invalidResponse s!"tuple {tup.ns}:{tup.obj}#{tup.rel} missing user field")
  | outOfRange {user : Pb.User} {secs : Int64} (hu : tup.user = some user)
      (hc : tup.condition = some (.expires secs)) (h : fromTimestamp secs = none) :
      Complaint fromTimestamp tup
        (.invalidResponse s!"tuple {tup.ns}:{tup.obj}#{tup.rel} expires out of range: {secs}")

/-- The errors about update number `i` when it cannot be mapped. -/
inductive Pb.Update.Complaint (fromTimestamp : Int64 → Option ℤ) (i : ℕ) (u : Pb.Update) :
    ReadError → Prop where
  | missingTuple (h : u.tuple = none) : Complaint fromTimestamp i u
      (.invalidResponse s!"watch update[{i}]: missing tuple")
  | tuple {tup : Pb.Tuple} {e : ReadError} (hu : u.tuple = some tup)
      (h : tup.Complaint fromTimestamp e) : Complaint fromTimestamp i u e

variable {fromTimestamp : Int64 → Option ℤ} {timestamp : ℤ → Int64} {tup : Pb.Tuple} {t : Tuple}
  {u : Pb.Update} {w : WatchUpdate} {e : ReadError} {i : ℕ}

theorem tupleFromPb_eq_error (h : tupleFromPb fromTimestamp tup = .error e) :
    tup.Complaint fromTimestamp e := by
  obtain ⟨ns,obj,rel,user,condition⟩ := tup
  cases user with
  | none =>
    cases h
    exact .missingUser rfl
  | some user =>
    have hcondition : conditionFromPb fromTimestamp ⟨ns,obj,rel,some user,condition⟩ = .error e := by
      cases hc : conditionFromPb fromTimestamp ⟨ns,obj,rel,some user,condition⟩ with
      | ok c => cases user <;> simp [tupleFromPb, subjectFromPb, hc, bind, Except.bind, pure, Except.pure] at h
      | error e' =>
        cases user <;> simp [tupleFromPb, subjectFromPb, hc, bind, Except.bind] at h <;> rw [h]
    rcases condition with _ | ⟨⟨secs⟩⟩
    · cases hcondition
    · cases hsecs : fromTimestamp secs with
      | some dt => simp [conditionFromPb, hsecs] at hcondition
      | none =>
        simp only [conditionFromPb, hsecs, Except.error.injEq] at hcondition
        subst hcondition
        exact .outOfRange rfl rfl hsecs

theorem updateFromPb_eq_error (h : updateFromPb fromTimestamp i u = .error e) :
    u.Complaint fromTimestamp i e := by
  obtain ⟨tuple,deleted⟩ := u
  cases tuple with
  | none =>
    cases h
    exact .missingTuple rfl
  | some tup =>
    refine .tuple rfl (tupleFromPb_eq_error ?_)
    cases ht : tupleFromPb fromTimestamp tup with
    | ok t => simp [updateFromPb, ht, bind, Except.bind, pure, Except.pure] at h
    | error e' => simpa [updateFromPb, ht, bind, Except.bind] using h

/-- What is read of a tuple names the tuple it was read of. -/
theorem tupleToPb_of_tupleFromPb (htime : ∀ secs dt, fromTimestamp secs = some dt → timestamp dt = secs)
    (h : tupleFromPb fromTimestamp tup = .ok t) : tupleToPb timestamp t = tup := by
  obtain ⟨ns,obj,rel,user,condition⟩ := tup
  obtain ⟨sbj,hsbj,c,hc,rfl⟩ := by simpa only [tupleFromPb, bind_eq_ok, pure_eq_ok] using h
  have huser : some (userToPb sbj) = user := by
    rcases user with _ | ⟨id | set⟩ <;> cases hsbj <;> rfl
  have hcondition : c.map (conditionToPb timestamp) = condition := by
    rcases condition with _ | ⟨⟨secs⟩⟩
    · cases hc
      rfl
    · cases hsecs : fromTimestamp secs with
      | none => simp [conditionFromPb, hsecs] at hc
      | some dt =>
        have hdt : c = some (.expires dt) := by simpa [conditionFromPb, hsecs, eq_comm] using hc
        rw [hdt, Option.map_some, conditionToPb, htime secs dt hsecs]
  rw [tupleToPb, huser, hcondition]

theorem tuplesFromPb_mapFrom {tups : List Pb.Tuple} :
    tuplesFromPb fromTimestamp tups = mapFrom (fun _ => tupleFromPb fromTimestamp) i tups := by
  induction tups generalizing i with
  | nil => rfl
  | cons tup tups ih =>
    rw [tuplesFromPb, mapFrom, ← ih]
    cases tupleFromPb fromTimestamp tup with
    | error e => rfl
    | ok t => cases tuplesFromPb fromTimestamp tups <;> rfl

theorem readWithTimestamp_run {ts : Timestamp} {filters : List ReadFilter}
    {env : Pb.ReadRequest → Except Status Pb.ReadResponse} {response : Pb.ReadResponse}
    (hfilters : filters ≠ []) (henv : env (readRequest ts filters) = .ok response) :
    (readWithTimestamp fromTimestamp ts filters).run env =
      (tuplesFromPb fromTimestamp response.tuples).map fun tuples => ⟨⟨response.ts⟩,tuples⟩ := by
  have hne : filters.isEmpty = false := by simpa using hfilters
  rw [readWithTimestamp, hne]
  change readResult fromTimestamp (env (readRequest ts filters)) = _
  rw [henv]
  cases h : tuplesFromPb fromTimestamp response.tuples <;>
    simp [readResult, h, bind, Except.bind, Except.map, pure, Except.pure]

theorem tuplesFromPb_allOrNothing
    (htime : ∀ secs dt, fromTimestamp secs = some dt → timestamp dt = secs) (tups : List Pb.Tuple) :
    AllOrNothing (Pb.Tuple.Mappable fromTimestamp) (fun tup t => tupleToPb timestamp t = tup)
      (fun _ tup e => tup.Complaint fromTimestamp e) tups (tuplesFromPb fromTimestamp tups) := by
  rw [tuplesFromPb_mapFrom]
  exact mapFrom_allOrNothing (fun _ _ _ => Iff.rfl) tupleFromPb_ok
    (fun _ _ h => tupleToPb_of_tupleFromPb htime h) fun _ _ _ => tupleFromPb_eq_error

theorem updatesFromPb_allOrNothing
    (htime : ∀ secs dt, fromTimestamp secs = some dt → timestamp dt = secs) (us : List Pb.Update) :
    AllOrNothing (Pb.Update.Mappable fromTimestamp)
      (fun u w => u = ⟨some (tupleToPb timestamp w.tuple),w.deleted⟩)
      (fun i u e => u.Complaint fromTimestamp i e) us (updatesFromPb fromTimestamp 0 us) := by
  rw [updatesFromPb_mapFrom]
  refine mapFrom_allOrNothing (fun _ _ _ => updateFromPb_eq_ok) (fun _ => delivers_iff) ?_
    fun _ _ _ => updateFromPb_eq_error
  rintro ⟨tuple,deleted⟩ w ⟨tup,rfl,htup,rfl⟩
  rw [tupleToPb_of_tupleFromPb htime htup]

theorem watchEventFromPb_map {resp : Pb.WatchResponse} : watchEventFromPb fromTimestamp resp =
    (updatesFromPb fromTimestamp 0 resp.updates).map fun updates => ⟨⟨resp.ts⟩,updates⟩ := by
  cases h : updatesFromPb fromTimestamp 0 resp.updates <;>
    simp [watchEventFromPb, h, bind, Except.bind, Except.map, pure, Except.pure]

/-- Read and Watch map a response item by item, under its own zookie, to items that name
the wire's tuples; or they fail with the error of the first item that cannot be mapped. -/
theorem responses_allOrNothing (htime : ∀ secs dt, fromTimestamp secs = some dt → timestamp dt = secs) :
    (∀ (ts : Timestamp) (filters : List ReadFilter) (env : Pb.ReadRequest → Except Status Pb.ReadResponse)
        (response : Pb.ReadResponse), filters ≠ [] → env (readRequest ts filters) = .ok response →
      let result := (readWithTimestamp fromTimestamp ts filters).run env
      (∀ r, result = .ok r → r.ts = ⟨response.ts⟩) ∧
        AllOrNothing (Pb.Tuple.Mappable fromTimestamp) (fun tup t => tupleToPb timestamp t = tup)
          (fun _ tup e => tup.Complaint fromTimestamp e) response.tuples (result.map ReadResult.tuples)) ∧
    ∀ resp : Pb.WatchResponse,
      let result := watchEventFromPb fromTimestamp resp
      (∀ event, result = .ok event → event.ts = ⟨resp.ts⟩) ∧
        AllOrNothing (Pb.Update.Mappable fromTimestamp)
          (fun u w => u = ⟨some (tupleToPb timestamp w.tuple),w.deleted⟩)
          (fun i u e => u.Complaint fromTimestamp i e) resp.updates (result.map WatchEvent.updates) := by
  constructor
  · intro ts filters env response hfilters henv result
    have hresult : result = _ := readWithTimestamp_run hfilters henv
    rw [hresult]
    exact (tuplesFromPb_allOrNothing htime response.tuples).wrapped fun tuples => ⟨rfl,rfl⟩
  · intro resp result
    have hresult : result = _ := watchEventFromPb_map
    rw [hresult]
    exact (updatesFromPb_allOrNothing htime resp.updates).wrapped fun updates => ⟨rfl,rfl⟩

def threeTuples : Pb.ReadResponse where
  ts := "Aw=="
  tuples := [⟨"doc","1","viewer",some (.userId "u1"),none⟩,⟨"doc","2","viewer",none,none⟩,
    ⟨"doc","3","viewer",some (.userId "u1"),some (.expires 8210266876800)⟩]

theorem responses_allOrNothing_missingUser :
    AllOrNothing (Pb.Tuple.Mappable chronoFromTimestamp) (fun tup t => tupleToPb chronoTimestamp t = tup)
      (fun _ tup e => tup.Complaint chronoFromTimestamp e) threeTuples.tuples
      (.error (.invalidResponse "tuple doc:2#viewer missing user field")) :=
  ((responses_allOrNothing chronoTimestamp_of_fromTimestamp).1 ⟨"Ag=="⟩ [.byUser ⟨"doc"⟩ ⟨"u1"⟩ none]
    (fun _ => .ok threeTuples) threeTuples (by decide) rfl).2

end NioClient.Check
