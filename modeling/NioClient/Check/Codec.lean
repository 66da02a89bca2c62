import Mathlib.Data.Int.Order.Basic
import Mathlib.Tactic.Common
import NioClient.Check.Wire

/-! # Tuples to the wire and back

The wire carries an expiry in whole seconds. `chrono`'s `DateTime::timestamp` is a
parameter here, next to `DateTime::from_timestamp`.
-/
namespace NioClient.Check

section Encoding
variable (timestamp : ℤ → Int64)

def userToPb : User → Pb.User
  | .userId id => .userId id
  | .userSet ns obj rel => .userSet ⟨ns.val,obj.val,rel.val⟩

def conditionToPb : Condition → Pb.Condition
  | .expires exp => .expires (timestamp exp)

def tupleToPb (t : Tuple) : Pb.Tuple where
  ns := t.ns.val
  obj := t.obj.val
  rel := t.rel.val
  user := some (userToPb t.sbj)
  condition := t.condition.map (conditionToPb timestamp)

end Encoding

/-- What is relied on of `chrono`, whose `DateTime<Utc>` are the representable instants:
`timestamp` is the floor in seconds; `from_timestamp` returns a `DateTime` at the whole
second it is given, and it accepts every second of a `DateTime`. -/
structure Chrono (Representable : ℤ → Prop) (timestamp : ℤ → Int64) (fromTimestamp : Int64 → Option ℤ) :
    Prop where
  floor : ∀ dt, Representable dt → (timestamp dt).toInt = dt / 1000000000
  exact : ∀ secs dt, fromTimestamp secs = some dt → dt = secs.toInt * 1000000000 ∧ Representable dt
  accepts : ∀ dt, Representable dt → (fromTimestamp (timestamp dt)).isSome

/-- Every expiry is a `DateTime<Utc>`. -/
def Tuple.Dated (Representable : ℤ → Prop) (t : Tuple) : Prop :=
  ∀ exp, t.condition = some (.expires exp) → Representable exp

/-- The last whole second at or before an instant. -/
def floorSecond (dt : ℤ) : ℤ := dt / 1000000000 * 1000000000

def Condition.floored : Condition → Condition
  | .expires exp => .expires (floorSecond exp)

def Tuple.floored (t : Tuple) : Tuple := { t with condition := t.condition.map Condition.floored }

theorem floorSecond_le (dt : ℤ) : floorSecond dt ≤ dt ∧ dt < floorSecond dt + 1000000000 := by
  unfold floorSecond
  omega

theorem floorSecond_whole {dt : ℤ} (h : 1000000000 ∣ dt) : floorSecond dt = dt :=
  Int.ediv_mul_cancel h

variable {Representable : ℤ → Prop} {timestamp : ℤ → Int64} {fromTimestamp : Int64 → Option ℤ}
  {t u : Tuple} {dt : ℤ}

theorem subjectFromPb_toPb (t : Tuple) : subjectFromPb (tupleToPb timestamp t) = .ok t.sbj := by
  obtain ⟨ns,obj,rel,sbj,condition⟩ := t
  cases sbj <;> rfl

theorem Chrono.fromTimestamp_timestamp (hc : Chrono Representable timestamp fromTimestamp)
    (h : Representable dt) : fromTimestamp (timestamp dt) = some (floorSecond dt) := by
  obtain ⟨dt',hdt'⟩ := Option.isSome_iff_exists.mp (hc.accepts dt h)
  obtain ⟨heq,-⟩ := hc.exact _ dt' hdt'
  rw [hdt', heq, hc.floor dt h, floorSecond]

theorem Chrono.representable_floor (hc : Chrono Representable timestamp fromTimestamp)
    (h : Representable dt) : Representable (floorSecond dt) :=
  (hc.exact _ _ (hc.fromTimestamp_timestamp h)).2

theorem Chrono.timestamp_floor (hc : Chrono Representable timestamp fromTimestamp)
    (h : Representable dt) : timestamp (floorSecond dt) = timestamp dt := by
  apply Int64.toInt_inj.mp
  rw [hc.floor _ (hc.representable_floor h), hc.floor dt h, floorSecond]
  omega

theorem conditionFromPb_toPb (hc : Chrono Representable timestamp fromTimestamp) (ht : t.Dated Representable) :
    conditionFromPb fromTimestamp (tupleToPb timestamp t) = .ok t.floored.condition := by
  obtain ⟨ns,obj,rel,sbj,condition⟩ := t
  rcases condition with _ | ⟨⟨exp⟩⟩
  · rfl
  · have hfloor := hc.fromTimestamp_timestamp (ht exp rfl)
    simp [conditionFromPb, tupleToPb, conditionToPb, hfloor, Tuple.floored, Condition.floored]

theorem tupleFromPb_toPb (hc : Chrono Representable timestamp fromTimestamp) (ht : t.Dated Representable) :
    tupleFromPb fromTimestamp (tupleToPb timestamp t) = .ok t.floored := by
  rw [tupleFromPb, subjectFromPb_toPb, conditionFromPb_toPb hc ht]
  rfl

theorem tupleToPb_floored (hc : Chrono Representable timestamp fromTimestamp) (ht : t.Dated Representable) :
    tupleToPb timestamp t.floored = tupleToPb timestamp t := by
  obtain ⟨ns,obj,rel,sbj,condition⟩ := t
  rcases condition with _ | ⟨⟨exp⟩⟩
  · rfl
  · have hfloor := hc.timestamp_floor (ht exp rfl)
    simp [tupleToPb, conditionToPb, Tuple.floored, Condition.floored, hfloor]

/-- Decoding undoes encoding up to the whole second, and the wire tells any two tuples
apart that differ after this rounding. -/
theorem tuple_roundTrip (hc : Chrono Representable timestamp fromTimestamp) (ht : t.Dated Representable) :
    tupleFromPb fromTimestamp (tupleToPb timestamp t) = .ok t.floored ∧
    (∀ exp, t.condition = some (.expires exp) → t.floored.condition = some (.expires (floorSecond exp)) ∧
      floorSecond exp ≤ exp ∧ exp < floorSecond exp + 1000000000 ∧
      (1000000000 ∣ exp → floorSecond exp = exp)) ∧
    tupleToPb timestamp t.floored = tupleToPb timestamp t ∧
    ∀ u : Tuple, u.Dated Representable →
      (tupleToPb timestamp t = tupleToPb timestamp u ↔ t.floored = u.floored) := by
  refine ⟨tupleFromPb_toPb hc ht,?_,tupleToPb_floored hc ht,fun u hu => ⟨fun h => ?_,fun h => ?_⟩⟩
  · intro exp hexp
    obtain ⟨hle,hlt⟩ := floorSecond_le exp
    exact ⟨by rw [Tuple.floored, hexp]; rfl,hle,hlt,floorSecond_whole⟩
  · have hok := tupleFromPb_toPb hc ht
    rw [h, tupleFromPb_toPb hc hu] at hok
    exact (Except.ok.inj hok).symm
  · calc tupleToPb timestamp t = tupleToPb timestamp t.floored := (tupleToPb_floored hc ht).symm
      _ = tupleToPb timestamp u.floored := by rw [h]
      _ = tupleToPb timestamp u := tupleToPb_floored hc hu

/-- The first and the last second of `DateTime<Utc>`. -/
def minSecond : ℤ := -8334601228800
def maxSecond : ℤ := 8210266876799

def InChrono (dt : ℤ) : Prop := minSecond ≤ dt / 1000000000 ∧ dt / 1000000000 ≤ maxSecond

instance (dt : ℤ) : Decidable (InChrono dt) := inferInstanceAs (Decidable (_ ∧ _))

def chronoTimestamp (dt : ℤ) : Int64 := Int64.ofInt (dt / 1000000000)

def chronoFromTimestamp (secs : Int64) : Option ℤ :=
  if minSecond ≤ secs.toInt ∧ secs.toInt ≤ maxSecond then some (secs.toInt * 1000000000) else none

theorem chrono : Chrono InChrono chronoTimestamp chronoFromTimestamp := by
  have htoInt {dt : ℤ} (h : InChrono dt) : (chronoTimestamp dt).toInt = dt / 1000000000 := by
    obtain ⟨hmin,hmax⟩ := h
    unfold minSecond at hmin
    unfold maxSecond at hmax
    exact Int64.toInt_ofInt_of_le (by omega) (by omega)
  refine ⟨fun dt h => htoInt h,fun secs dt h => ?_,fun dt h => ?_⟩
  · unfold chronoFromTimestamp at h
    split at h
    · rename_i hrange
      cases h
      refine ⟨rfl,?_⟩
      rwa [InChrono, Int.mul_ediv_cancel _ (by decide)]
    · cases h
  · rw [chronoFromTimestamp, htoInt h]
    exact (if_pos h).symm ▸ rfl

theorem chronoTimestamp_of_fromTimestamp (secs : Int64) (dt : ℤ) (h : chronoFromTimestamp secs = some dt) :
    chronoTimestamp dt = secs := by
  obtain ⟨rfl,-⟩ := chrono.exact secs dt h
  rw [chronoTimestamp, Int.mul_ediv_cancel _ (by decide), Int64.ofInt_toInt]

/-- An expiry half a second before the epoch comes back a second before it. -/
theorem tuple_roundTrip_negative : let t : Tuple := ⟨⟨"doc"⟩,⟨"1"⟩,⟨"viewer"⟩,.userId "u1",some (.expires (-500000000))⟩
    tupleFromPb chronoFromTimestamp (tupleToPb chronoTimestamp t) =
      .ok { t with condition := some (.expires (-1000000000)) } := by
  intro t
  have ht : t.Dated InChrono := by
    intro exp hexp
    cases hexp
    decide
  exact (tuple_roundTrip chrono ht).1

end NioClient.Check
