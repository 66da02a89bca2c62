import Mathlib.Logic.Function.Basic
import NioClient.Library.Execution
import NioClient.Library.Program

/-! # A map of once-cells

A caller looks up the cell of its key, which is created if need be, and returns
the value of the cell, or initialises it by a program of its own. A cell has one
permit, so that one initialiser runs at a time; it stores a success for good, and
its permit is free again after a failure or when the caller is dropped.
-/
namespace NioClient.OnceCells
open Environment

structure Cell (V : Type) where
  value : Option V
  /-- The caller with the permit. -/
  holder : Option ℕ

inductive Phase (V E Q : Type) (A : Q → Type) where
  | called
  | located (cell : ℕ)
  /-- The observer has been told whether the cell has a value. -/
  | reported (cell : ℕ)
  | waiting (cell : ℕ)
  | calling (cell : ℕ) (q : Q) (next : A q → Program Q A (Except E V))
  | returned (result : Except E V)
  | dropped

/-- The calls issued and the replies to them are history. -/
structure Caller (X V E Q : Type) (A : Q → Type) where
  arg : X
  phase : Phase V E Q A
  hit : Option Bool
  issued : List Q
  replies : List (Σ q, A q)

structure Record (K V : Type) where
  key : K
  caller : ℕ
  value : V

/-- `recorded` is the history of the values stored. -/
structure State (X K V E Q : Type) (A : Q → Type) where
  map : K → Option ℕ
  cells : List (Cell V)
  callers : List (Caller X V E Q A)
  recorded : List (Record K V)

/-- In `reply`, the caller takes the reply which the environment gives at that time. -/
inductive Action (X Q : Type) (A : Q → Type) where
  | call (arg : X)
  | locate (c : ℕ)
  | report (c : ℕ)
  | enter (c : ℕ)
  | acquire (c : ℕ)
  | reply (c : ℕ) (env : ∀ q, A q)
  | drop (c : ℕ)

variable {X K V E Q : Type} {A : Q → Type} [DecidableEq K]

namespace State

def init : State X K V E Q A := ⟨fun _ => none,[],[],[]⟩

def valueAt (s : State X K V E Q A) (i : ℕ) : Option V := s.cells[i]?.bind Cell.value

def valueOf (s : State X K V E Q A) (k : K) : Option V := (s.map k).bind s.valueAt

def setCaller (s : State X K V E Q A) (c : ℕ) (x : Caller X V E Q A) : State X K V E Q A :=
  { s with callers := s.callers.set c x }

def setCell (s : State X K V E Q A) (i : ℕ) (cell : Cell V) : State X K V E Q A :=
  { s with cells := s.cells.set i cell }

end State

variable (key : X → K) (initialise : X → Program Q A (Except E V))

def call (s : State X K V E Q A) (arg : X) : State X K V E Q A :=
  { s with callers := s.callers ++ [⟨arg,.called,none,[],[]⟩] }

def locate (s : State X K V E Q A) (c : ℕ) : Option (State X K V E Q A) := do
  let x ← s.callers[c]?
  match x.phase with
  | .called =>
    match s.map (key x.arg) with
    | some i => some (s.setCaller c { x with phase := .located i })
    | none =>
      some { s.setCaller c { x with phase := .located s.cells.length } with
        map := Function.update s.map (key x.arg) (some s.cells.length)
        cells := s.cells ++ [⟨none,none⟩] }
  | _ => none

def report (s : State X K V E Q A) (c : ℕ) : Option (State X K V E Q A) := do
  let x ← s.callers[c]?
  match x.phase with
  | .located i => some (s.setCaller c { x with phase := .reported i, hit := some (s.valueAt i).isSome })
  | _ => none

def enter (s : State X K V E Q A) (c : ℕ) : Option (State X K V E Q A) := do
  let x ← s.callers[c]?
  match x.phase with
  | .reported i =>
    match s.valueAt i with
    | some v => some (s.setCaller c { x with phase := .returned (.ok v) })
    | none => some (s.setCaller c { x with phase := .waiting i })
  | _ => none

/-- The caller with the permit goes on with its initialiser, up to its next call
or to its end. -/
def proceed (s : State X K V E Q A) (c i : ℕ) (x : Caller X V E Q A) :
    Program Q A (Except E V) → State X K V E Q A
  | .call q next => (s.setCell i ⟨none,some c⟩).setCaller c
      { x with phase := .calling i q next, issued := x.issued ++ [q] }
  | .pure (.ok v) =>
    { (s.setCell i ⟨some v,none⟩).setCaller c { x with phase := .returned (.ok v) } with
      recorded := s.recorded ++ [⟨key x.arg,c,v⟩] }
  | .pure (.error e) => (s.setCell i ⟨none,none⟩).setCaller c { x with phase := .returned (.error e) }

/-- A caller which waits gets the value or the permit. -/
def acquire (s : State X K V E Q A) (c : ℕ) : Option (State X K V E Q A) := do
  let x ← s.callers[c]?
  match x.phase with
  | .waiting i =>
    match s.cells[i]? with
    | some ⟨some v,_⟩ => some (s.setCaller c { x with phase := .returned (.ok v) })
    | some ⟨none,none⟩ => some (proceed key s c i x (initialise x.arg))
    | _ => none
  | _ => none

def reply (s : State X K V E Q A) (c : ℕ) (env : ∀ q, A q) : Option (State X K V E Q A) := do
  let x ← s.callers[c]?
  match x.phase with
  | .calling i q next =>
    some (proceed key s c i { x with replies := x.replies ++ [⟨q,env q⟩] } (next (env q)))
  | _ => none

def drop (s : State X K V E Q A) (c : ℕ) : Option (State X K V E Q A) := do
  let x ← s.callers[c]?
  match x.phase with
  | .returned _ | .dropped => none
  | .calling i _ _ => some ((s.setCell i ⟨none,none⟩).setCaller c { x with phase := .dropped })
  | _ => some (s.setCaller c { x with phase := .dropped })

def step (s : State X K V E Q A) : Action X Q A → Option (State X K V E Q A)
  | .call arg => some (call s arg)
  | .locate c => locate key s c
  | .report c => report s c
  | .enter c => enter s c
  | .acquire c => acquire key initialise s c
  | .reply c env => reply key s c env
  | .drop c => drop s c

end NioClient.OnceCells
