import NioClient.Check.Calls
import NioClient.Check.Codec

/-! # Reads by name

What the reads for an object and the reverse reads for a subject return of the tuples
which the server holds, where the edge that `add_parent` writes is found, and what
becomes of tuples that are written back as they were read.
-/
namespace NioClient.Check
open Environment

/-- Whether a filter of this client is for the tuple. The service also knows filters for
single tuples, which the client never builds. -/
def Pb.TupleSet.selects (set : Pb.TupleSet) (tup : Pb.Tuple) : Bool :=
  tup.ns = set.ns && match set.spec with
    | some (.objectSpec spec) => tup.obj = spec.obj && spec.rel.all (tup.rel = ·)
    | some (.usersetSpec spec) => tup.user = spec.user && spec.rel.all (tup.rel = ·)
    | some (.tupleSpec _) | none => false

/-- The server holds the tuples as this client writes them, and answers a Read at any
current snapshot with those for which there is a filter. -/
def Holds (timestamp : ℤ → Int64) (held : List Tuple) (zookie : String) (server : ∀ q : Service, q.Reply) :
    Prop :=
  ∀ sets, server (.read ⟨none,sets⟩) =
    .ok ⟨zookie,(held.map (tupleToPb timestamp)).filter fun tup => sets.any (·.selects tup)⟩

/-- The result of a Read for the tuples with `p`. -/
def readBack (zookie : String) (held : List Tuple) (p : Tuple → Bool) : Except ReadError ReadResult :=
  .ok ⟨⟨zookie⟩,(held.filter p).map Tuple.floored⟩

variable {Representable : ℤ → Prop} {timestamp : ℤ → Int64} {fromTimestamp : Int64 → Option ℤ}
  {held : List Tuple} {zookie : String} {server : ∀ q : Service, q.Reply} {ns : Namespace} {obj : Obj}

theorem selects_object {name : String} {spec : Pb.ObjectSpec} {tup : Pb.Tuple} :
    (Pb.TupleSet.mk name (some (.objectSpec spec))).selects tup ↔
      tup.ns = name ∧ tup.obj = spec.obj ∧ ∀ r ∈ spec.rel, tup.rel = r := by
  simp [Pb.TupleSet.selects, Option.all_eq_true]

theorem selects_userset {name : String} {spec : Pb.UserSetSpec} {tup : Pb.Tuple} :
    (Pb.TupleSet.mk name (some (.usersetSpec spec))).selects tup ↔
      tup.ns = name ∧ tup.user = spec.user ∧ ∀ r ∈ spec.rel, tup.rel = r := by
  simp [Pb.TupleSet.selects, Option.all_eq_true]

theorem map_val_iff {rel : Option Rel} {r : Rel} :
    (∀ name ∈ rel.map Rel.val, r.val = name) ↔ ∀ r' ∈ rel, r = r' := by
  rcases rel with _ | ⟨rel⟩
  · simp
  · simp only [Option.map_some, Option.mem_def, Option.some.injEq, forall_eq']
    exact Rel.ext_iff.symm

theorem userToPb_inj (u u' : User) : some (userToPb u) = some (userToPb u') ↔ u = u' := by
  rcases u with id | ⟨⟨_⟩,⟨_⟩,⟨_⟩⟩ <;> rcases u' with id' | ⟨⟨_⟩,⟨_⟩,⟨_⟩⟩ <;> simp [userToPb]

theorem selects_byObject {rel : Option Rel} {t : Tuple} :
    (ReadFilter.byObject ns obj rel).set.selects (tupleToPb timestamp t) ↔
      t.ns = ns ∧ t.obj = obj ∧ ∀ r ∈ rel, t.rel = r :=
  selects_object.trans (and_congr Namespace.ext_iff.symm (and_congr Obj.ext_iff.symm map_val_iff))

theorem selects_byUser {userId : UserId} {rel : Option Rel} {t : Tuple} :
    (ReadFilter.byUser ns userId rel).set.selects (tupleToPb timestamp t) ↔
      t.ns = ns ∧ t.sbj = .userId userId.val ∧ ∀ r ∈ rel, t.rel = r :=
  selects_userset.trans
    (and_congr Namespace.ext_iff.symm (and_congr (userToPb_inj t.sbj (.userId userId.val)) map_val_iff))

theorem selects_byUserSet {userSet : UserSet} {rel : Option Rel} {t : Tuple} :
    (ReadFilter.byUserSet ns userSet rel).set.selects (tupleToPb timestamp t) ↔
      t.ns = ns ∧ t.sbj = .userSet userSet.ns userSet.obj userSet.rel ∧ ∀ r ∈ rel, t.rel = r :=
  selects_userset.trans
    (and_congr Namespace.ext_iff.symm
      (and_congr (userToPb_inj t.sbj (.userSet userSet.ns userSet.obj userSet.rel)) map_val_iff))

theorem tuplesFromPb_toPb (hc : Chrono Representable timestamp fromTimestamp)
    (hdated : ∀ t ∈ held, t.Dated Representable) :
    tuplesFromPb fromTimestamp (held.map (tupleToPb timestamp)) = .ok (held.map Tuple.floored) := by
  induction held with
  | nil => rfl
  | cons t held ih =>
    rw [List.map_cons, tuplesFromPb, tupleFromPb_toPb hc (hdated t (by simp)),
      ih fun t' ht' => hdated t' (List.mem_cons_of_mem _ ht')]
    rfl

/-- A Read with one filter returns what the server holds for it. -/
theorem run_read (hc : Chrono Representable timestamp fromTimestamp)
    (hdated : ∀ t ∈ held, t.Dated Representable) (hserver : Holds timestamp held zookie server)
    {filter : ReadFilter} {p : Tuple → Bool} (hp : ∀ t, filter.set.selects (tupleToPb timestamp t) ↔ p t) :
    (viaRead (read fromTimestamp [filter])).run server = readBack zookie held p := by
  have hreply : server (.read ⟨none,[filter.set]⟩) =
      .ok ⟨zookie,(held.filter p).map (tupleToPb timestamp)⟩ := by
    rw [hserver, List.filter_map]
    have hfilter : (fun t => filter.set.selects (tupleToPb timestamp t)) = p :=
      funext fun t => Bool.eq_iff_iff.mpr (hp t)
    simp only [List.any_cons, List.any_nil, Bool.or_false, Function.comp_def, hfilter]
    rfl
  have hrun : (viaRead (read fromTimestamp [filter])).run server =
      readResult fromTimestamp (server (.read ⟨none,[filter.set]⟩)) := rfl
  rw [hrun, hreply, readResult, tuplesFromPb_toPb hc fun t ht => hdated t (List.mem_filter.mp ht).1]
  rfl

section
variable (hc : Chrono Representable timestamp fromTimestamp) (hdated : ∀ t ∈ held, t.Dated Representable)
  (hserver : Holds timestamp held zookie server)
include hc hdated hserver

theorem run_getAll (ns : Namespace) (obj : Obj) : (getAll fromTimestamp ns obj).run server =
    readBack zookie held fun t => t.ns = ns ∧ t.obj = obj := by
  refine run_read hc hdated hserver fun t => ?_
  rw [decide_eq_true_iff, selects_byObject]
  simp

theorem run_getAllRel (ns : Namespace) (obj : Obj) (rel : Rel) : (getAllRel fromTimestamp ns obj rel).run server =
    readBack zookie held fun t => t.ns = ns ∧ t.obj = obj ∧ t.rel = rel := by
  refine run_read hc hdated hserver fun t => ?_
  rw [decide_eq_true_iff, selects_byObject]
  simp

theorem run_readByUser (ns : Namespace) (userId : UserId) (rel : Option Rel) :
    (readByUser fromTimestamp ns userId rel).run server =
      readBack zookie held fun t => t.ns = ns ∧ t.sbj = .userId userId.val ∧ ∀ r ∈ rel, t.rel = r := by
  refine run_read hc hdated hserver fun t => ?_
  rw [decide_eq_true_iff]
  exact selects_byUser

theorem run_readByUserSet (ns : Namespace) (userSet : UserSet) (rel : Option Rel) :
    (readByUserSet fromTimestamp ns userSet rel).run server =
      readBack zookie held fun t =>
        t.ns = ns ∧ t.sbj = .userSet userSet.ns userSet.obj userSet.rel ∧ ∀ r ∈ rel, t.rel = r := by
  refine run_read hc hdated hserver fun t => ?_
  rw [decide_eq_true_iff]
  exact selects_byUserSet

/-- Of the edge that `add_parent` writes, both the child and the parent can be asked. -/
theorem addParent_found (parentNs : Namespace) (parentObj : Obj) :
    ∃ edge, (addParent timestamp ns obj parentNs parentObj).calls server =
        [.write (writeRequest timestamp [edge] [] none)] ∧
      (edge ∈ held →
        (∃ r, (getAllRel fromTimestamp ns obj .parent).run server = .ok r ∧ edge ∈ r.tuples) ∧
        ∃ r, (readByUserSet fromTimestamp ns ⟨parentNs,parentObj,.unspecified⟩ (some .parent)).run server =
          .ok r ∧ edge ∈ r.tuples) := by
  refine ⟨_,rfl,fun hmem => ?_⟩
  have hfound {p : Tuple → Bool} (hp : p ⟨ns,obj,.parent,.userSet parentNs parentObj .unspecified,none⟩) :
      ∃ r, readBack zookie held p = .ok r ∧
        ⟨ns,obj,.parent,.userSet parentNs parentObj .unspecified,none⟩ ∈ r.tuples :=
    ⟨_,rfl,List.mem_map.mpr ⟨_,List.mem_filter.mpr ⟨hmem,hp⟩,rfl⟩⟩
  rw [run_getAllRel hc hdated hserver, run_readByUserSet hc hdated hserver]
  exact ⟨hfound (by simp),hfound (by simp)⟩

end

/-- What was read can be written back, and deleted: on the wire it is what the server holds. -/
theorem readBack_written (hc : Chrono Representable timestamp fromTimestamp)
    (hdated : ∀ t ∈ held, t.Dated Representable) {p : Tuple → Bool} {r : ReadResult}
    (hr : readBack zookie held p = .ok r) :
    (addMany timestamp r.tuples).calls server =
        [.write ⟨none,(held.filter p).map (tupleToPb timestamp),[]⟩] ∧
      ∀ t ∈ r.tuples, ∃ t' ∈ held,
        (deleteOne timestamp t).calls server = [.write ⟨none,[],[tupleToPb timestamp t']⟩] := by
  have hwire : ∀ t ∈ held.filter p, tupleToPb timestamp t.floored = tupleToPb timestamp t := fun t ht =>
    tupleToPb_floored hc (hdated t (List.mem_filter.mp ht).1)
  cases hr
  constructor
  · have hadd : ((held.filter p).map Tuple.floored).map (tupleToPb timestamp) =
        (held.filter p).map (tupleToPb timestamp) := by
      rw [List.map_map]
      exact List.map_congr_left hwire
    exact congrArg (fun added => [Service.write ⟨none,added,[]⟩]) hadd
  · intro t ht
    obtain ⟨t',ht',rfl⟩ := List.mem_map.mp ht
    refine ⟨t',(List.mem_filter.mp ht').1,?_⟩
    exact congrArg (fun tup => [Service.write ⟨none,[],[tup]⟩]) (hwire t' ht')

/-- The reads by name return those of the held tuples which they are named for, in the
server's order, with the expiries rounded down to the second. -/
theorem reads_byName (hc : Chrono Representable timestamp fromTimestamp)
    (hdated : ∀ t ∈ held, t.Dated Representable) (hserver : Holds timestamp held zookie server) :
    (∀ ns obj, (getAll fromTimestamp ns obj).run server =
      readBack zookie held fun t => t.ns = ns ∧ t.obj = obj) ∧
    (∀ ns obj rel, (getAllRel fromTimestamp ns obj rel).run server =
      readBack zookie held fun t => t.ns = ns ∧ t.obj = obj ∧ t.rel = rel) ∧
    (∀ ns userId rel, (readByUser fromTimestamp ns userId rel).run server =
      readBack zookie held fun t => t.ns = ns ∧ t.sbj = .userId userId.val ∧ ∀ r ∈ rel, t.rel = r) ∧
    ∀ ns userSet rel, (readByUserSet fromTimestamp ns userSet rel).run server =
      readBack zookie held fun t =>
        t.ns = ns ∧ t.sbj = .userSet userSet.ns userSet.obj userSet.rel ∧ ∀ r ∈ rel, t.rel = r :=
  ⟨run_getAll hc hdated hserver,run_getAllRel hc hdated hserver,run_readByUser hc hdated hserver,
    run_readByUserSet hc hdated hserver⟩

/-- A server which holds the tuples, and nothing else. -/
def tupleServer (timestamp : ℤ → Int64) (held : List Tuple) (zookie : String) : ∀ q : Service, q.Reply
  | .read request => .ok ⟨zookie,(held.map (tupleToPb timestamp)).filter fun tup =>
      request.tupleSets.any (·.selects tup)⟩
  | .rpc (.list _) | .rpc (.check _) | .expand _ | .contentChangeCheck _ | .watch _ | .write _ | .listNamespaces =>
    .error ⟨12,"unimplemented"⟩

def sharedDocs : List Tuple :=
  [⟨⟨"doc"⟩,⟨"1"⟩,⟨"viewer"⟩,.userId "u1",some (.expires 1700000000500000000)⟩,
    ⟨⟨"doc"⟩,⟨"1"⟩,.parent,.userSet ⟨"folder"⟩ ⟨"a"⟩ .unspecified,none⟩]

theorem reads_byName_sharedDocs :
    let server := tupleServer chronoTimestamp sharedDocs "Ag=="
    (∀ ns obj, (getAll chronoFromTimestamp ns obj).run server =
      readBack "Ag==" sharedDocs fun t => t.ns = ns ∧ t.obj = obj) ∧
    (∀ ns obj rel, (getAllRel chronoFromTimestamp ns obj rel).run server =
      readBack "Ag==" sharedDocs fun t => t.ns = ns ∧ t.obj = obj ∧ t.rel = rel) ∧
    (∀ ns userId rel, (readByUser chronoFromTimestamp ns userId rel).run server =
      readBack "Ag==" sharedDocs fun t => t.ns = ns ∧ t.sbj = .userId userId.val ∧ ∀ r ∈ rel, t.rel = r) ∧
    ∀ ns userSet rel, (readByUserSet chronoFromTimestamp ns userSet rel).run server =
      readBack "Ag==" sharedDocs fun t =>
        t.ns = ns ∧ t.sbj = .userSet userSet.ns userSet.obj userSet.rel ∧ ∀ r ∈ rel, t.rel = r :=
  reads_byName chrono (by simp [sharedDocs, Tuple.Dated, InChrono, minSecond, maxSecond]) fun _ => rfl

end NioClient.Check
