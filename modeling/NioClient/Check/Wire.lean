import Mathlib.Data.Int.Notation
import Mathlib.Data.Nat.Notation
import NioClient.Library.Traversal

/-! # Tuples on the wire and in the client

`Pb` holds the generated message types. `chrono`'s `DateTime::from_timestamp` is
a parameter: it takes seconds since the epoch, and refuses those out of its range.
-/
namespace NioClient.Check
open Traversal

@[ext] structure Namespace where
  val : String
deriving DecidableEq, Repr

@[ext] structure Obj where
  val : String
deriving DecidableEq, Repr

@[ext] structure Rel where
  val : String
deriving DecidableEq, Repr

def Rel.IMPOSSIBLE : String := "impossible"

structure UserId where
  val : String
deriving DecidableEq, Repr

/-- An opaque zookie. -/
structure Timestamp where
  val : String
deriving DecidableEq, Repr

def Timestamp.EMPTY : String := "AQAAAAAAAA=="

def Timestamp.empty : Timestamp := ⟨EMPTY⟩

inductive User where
  | userId (id : String)
  | userSet (ns : Namespace) (obj : Obj) (rel : Rel)
deriving DecidableEq, Repr

inductive Condition where
  | expires (at' : ℤ)
deriving DecidableEq, Repr

structure Tuple where
  ns : Namespace
  obj : Obj
  rel : Rel
  sbj : User
  condition : Option Condition
deriving DecidableEq, Repr

structure WatchUpdate where
  tuple : Tuple
  deleted : Bool
deriving DecidableEq, Repr

structure WatchEvent where
  ts : Timestamp
  updates : List WatchUpdate
deriving DecidableEq, Repr

/-- A gRPC status. -/
structure Status where
  code : ℕ
  message : String
deriving DecidableEq, Repr

inductive ReadError where
  | grpc (status : Status)
  | invalidResponse (msg : String)
deriving DecidableEq, Repr

namespace Pb

structure UserSet where
  ns : String
  obj : String
  rel : String
deriving DecidableEq, Repr

inductive User where
  | userId (id : String)
  | userSet (set : UserSet)
deriving DecidableEq, Repr

inductive Condition where
  | expires (secs : Int64)
deriving DecidableEq

structure Tuple where
  ns : String
  obj : String
  rel : String
  user : Option User
  condition : Option Condition
deriving DecidableEq

structure Update where
  tuple : Option Tuple
  deleted : Bool
deriving DecidableEq

structure WatchResponse where
  ts : String
  updates : List Update
deriving DecidableEq

end Pb

variable (fromTimestamp : Int64 → Option ℤ)

def subjectFromPb (tup : Pb.Tuple) : Except ReadError User :=
  match tup.user with
  | none => .error (.invalidResponse s!"tuple {tup.ns}:{tup.obj}#{tup.rel} missing user field")
  | some (.userId id) => .ok (.userId id)
  | some (.userSet set) => .ok (.userSet ⟨set.ns⟩ ⟨set.obj⟩ ⟨set.rel⟩)

def conditionFromPb (tup : Pb.Tuple) : Except ReadError (Option Condition) :=
  match tup.condition with
  | none => .ok none
  | some (.expires secs) =>
    match fromTimestamp secs with
    | some dt => .ok (some (.expires dt))
    | none => .error
        (.invalidResponse s!"tuple {tup.ns}:{tup.obj}#{tup.rel} expires out of range: {secs}")

def tupleFromPb (tup : Pb.Tuple) : Except ReadError Tuple := do
  let sbj ← subjectFromPb tup
  let condition ← conditionFromPb fromTimestamp tup
  return { ns := ⟨tup.ns⟩, obj := ⟨tup.obj⟩, rel := ⟨tup.rel⟩, sbj, condition }

/-- One round of the loop of `watch_event_from_pb`. -/
def updateFromPb (i : ℕ) (u : Pb.Update) : Except ReadError WatchUpdate := do
  let tuple ← match u.tuple with
    | none => .error (.invalidResponse s!"watch update[{i}]: missing tuple")
    | some t => tupleFromPb fromTimestamp t
  return { tuple, deleted := u.deleted }

/-- The loop of `watch_event_from_pb` from update number `i` on. -/
def updatesFromPb : ℕ → List Pb.Update → Except ReadError (List WatchUpdate)
  | _, [] => .ok []
  | i, u :: us => do
    let update ← updateFromPb fromTimestamp i u
    let updates ← updatesFromPb (i + 1) us
    return update :: updates

def watchEventFromPb (resp : Pb.WatchResponse) : Except ReadError WatchEvent := do
  let updates ← updatesFromPb fromTimestamp 0 resp.updates
  return { ts := ⟨resp.ts⟩, updates }

/-- The subject is there, and an expiry is in range. -/
def Pb.Tuple.Mappable (tup : Pb.Tuple) : Prop :=
  tup.user.isSome ∧ ∀ secs, tup.condition = some (.expires secs) → (fromTimestamp secs).isSome

def Pb.Update.Mappable (u : Pb.Update) : Prop :=
  ∃ tup, u.tuple = some tup ∧ tup.Mappable fromTimestamp

def Pb.WatchResponse.Mappable (resp : Pb.WatchResponse) : Prop :=
  ∀ u ∈ resp.updates, u.Mappable fromTimestamp

/-- The client's update `w` is the wire update `u`. -/
def Delivers (u : Pb.Update) (w : WatchUpdate) : Prop :=
  ∃ tup, u.tuple = some tup ∧ tupleFromPb fromTimestamp tup = .ok w.tuple ∧ w.deleted = u.deleted

variable {fromTimestamp}

@[simp] theorem bind_eq_ok {ε α β : Type} {x : Except ε α} {f : α → Except ε β} {b : β} :
    (x >>= f) = .ok b ↔ ∃ a, x = .ok a ∧ f a = .ok b := by
  cases x <;> simp [bind, Except.bind]

@[simp] theorem pure_eq_ok {ε α : Type} {a b : α} : (pure a : Except ε α) = .ok b ↔ a = b := by
  simp [pure, Except.pure]

theorem subjectFromPb_ok (tup : Pb.Tuple) : (∃ sbj, subjectFromPb tup = .ok sbj) ↔ tup.user.isSome := by
  unfold subjectFromPb
  split <;> simp_all

theorem conditionFromPb_ok (tup : Pb.Tuple) : (∃ c, conditionFromPb fromTimestamp tup = .ok c) ↔
    ∀ secs, tup.condition = some (.expires secs) → (fromTimestamp secs).isSome := by
  unfold conditionFromPb
  split
  · simp_all
  · split <;> simp_all

theorem tupleFromPb_ok (tup : Pb.Tuple) :
    (∃ t, tupleFromPb fromTimestamp tup = .ok t) ↔ tup.Mappable fromTimestamp := by
  rw [Pb.Tuple.Mappable, ← subjectFromPb_ok, ← conditionFromPb_ok]
  constructor
  · rintro ⟨t,ht⟩
    obtain ⟨sbj,hsbj,condition,hcondition,-⟩ := by simpa only [tupleFromPb, bind_eq_ok] using ht
    exact ⟨⟨sbj,hsbj⟩,condition,hcondition⟩
  · rintro ⟨⟨sbj,hsbj⟩,condition,hcondition⟩
    exact ⟨_, by simpa only [tupleFromPb, bind_eq_ok] using ⟨sbj,hsbj,condition,hcondition,rfl⟩⟩

theorem updateFromPb_eq_ok {i : ℕ} {u : Pb.Update} {w : WatchUpdate} :
    updateFromPb fromTimestamp i u = .ok w ↔ Delivers fromTimestamp u w := by
  obtain ⟨tuple,deleted⟩ := u
  obtain ⟨t,deleted'⟩ := w
  cases tuple with
  | none => simp [updateFromPb, Delivers]
  | some tup =>
    simp only [updateFromPb, Delivers, bind_eq_ok, pure_eq_ok, WatchUpdate.mk.injEq]
    constructor
    · rintro ⟨t,ht,rfl,rfl⟩
      exact ⟨tup,rfl,ht,rfl⟩
    · rintro ⟨tup',htup,ht,rfl⟩
      cases htup
      exact ⟨t,ht,rfl,rfl⟩

theorem delivers_iff {u : Pb.Update} : (∃ w, Delivers fromTimestamp u w) ↔ u.Mappable fromTimestamp := by
  constructor
  · rintro ⟨w,tup,hu,htup,-⟩
    exact ⟨tup,hu,(tupleFromPb_ok tup).mp ⟨_,htup⟩⟩
  · rintro ⟨tup,hu,hmap⟩
    obtain ⟨t,ht⟩ := (tupleFromPb_ok tup).mpr hmap
    exact ⟨⟨t,u.deleted⟩,tup,hu,ht,rfl⟩

theorem updatesFromPb_mapFrom {i : ℕ} {us : List Pb.Update} :
    updatesFromPb fromTimestamp i us = mapFrom (updateFromPb fromTimestamp) i us := by
  induction us generalizing i with
  | nil => rfl
  | cons u us ih =>
    rw [updatesFromPb, mapFrom, ih]
    cases updateFromPb fromTimestamp i u with
    | error e => rfl
    | ok w => cases mapFrom (updateFromPb fromTimestamp) (i + 1) us <;> rfl

/-- The loop maps the updates in order, and all of them or none. -/
theorem updatesFromPb_eq_ok {i : ℕ} {us : List Pb.Update} {ws : List WatchUpdate} :
    updatesFromPb fromTimestamp i us = .ok ws ↔ List.Forall₂ (Delivers fromTimestamp) us ws := by
  rw [updatesFromPb_mapFrom]
  exact mapFrom_eq_ok fun _ _ _ => updateFromPb_eq_ok

theorem watchEventFromPb_eq_ok {resp : Pb.WatchResponse} {event : WatchEvent} :
    watchEventFromPb fromTimestamp resp = .ok event ↔ event.ts = ⟨resp.ts⟩ ∧
      List.Forall₂ (Delivers fromTimestamp) resp.updates event.updates := by
  obtain ⟨ts,updates⟩ := event
  simp only [watchEventFromPb, bind_eq_ok, pure_eq_ok, updatesFromPb_eq_ok, WatchEvent.mk.injEq]
  constructor
  · rintro ⟨ws,hws,rfl,rfl⟩
    exact ⟨rfl,hws⟩
  · rintro ⟨rfl,hws⟩
    exact ⟨updates,hws,rfl,rfl⟩

/-- A response is mapped exactly when each of its updates can be. -/
theorem watchEventFromPb_ok (resp : Pb.WatchResponse) :
    (∃ event, watchEventFromPb fromTimestamp resp = .ok event) ↔ resp.Mappable fromTimestamp := by
  simp only [watchEventFromPb_eq_ok, Pb.WatchResponse.Mappable, ← delivers_iff, ← exists_forall₂]
  constructor
  · rintro ⟨event,-,hall⟩
    exact ⟨event.updates,hall⟩
  · rintro ⟨ws,hall⟩
    exact ⟨⟨⟨resp.ts⟩,ws⟩,rfl,hall⟩

end NioClient.Check
