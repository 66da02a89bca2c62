import NioClient.Check.Client
import NioClient.Library.OnceCellsAgreement

/-! # Request-scoped memoization of checks and lists

A `RequestMemo` holds two maps of once-cells, whose initialisers are `check` and
`list` with the arguments of the caller and the timestamp of the memo. Its
observer is told of a hit in the step `report`.
-/
namespace NioClient.Check
open Environment Execution OnceCells

abbrev CheckKey := String × String × String × String

abbrev ListKey := String × String × String

structure CheckArgs where
  ns : Namespace
  obj : Obj
  rel : Rel
  userId : UserId

structure ListArgs where
  ns : Namespace
  rel : Rel
  userId : UserId

def CheckArgs.key (args : CheckArgs) : CheckKey :=
  (args.ns.val,args.obj.val,args.rel.val,args.userId.val)

def ListArgs.key (args : ListArgs) : ListKey := (args.ns.val,args.rel.val,args.userId.val)

def checkInit (ts : Option Timestamp) (args : CheckArgs) : Client (Except CallError CheckResult) :=
  check args.ns args.obj args.rel args.userId ts

def listInit (ts : Option Timestamp) (args : ListArgs) : Client (Except CallError ListResult) :=
  list args.ns args.rel args.userId ts

structure RequestMemo where
  ts : Option Timestamp
  checks : State CheckArgs CheckKey CheckResult CallError Rpc Rpc.Reply
  lists : State ListArgs ListKey ListResult CallError Rpc Rpc.Reply

namespace RequestMemo

def new : RequestMemo := ⟨none,.init,.init⟩

def withTimestamp (memo : RequestMemo) (ts : Option Timestamp) : RequestMemo := { memo with ts }

inductive Action where
  | check (a : OnceCells.Action CheckArgs Rpc Rpc.Reply)
  | list (a : OnceCells.Action ListArgs Rpc Rpc.Reply)

/-- One step of one of the calls of `check` and `list`. -/
def step (memo : RequestMemo) : Action → Option RequestMemo
  | .check a => (OnceCells.step CheckArgs.key (checkInit memo.ts) memo.checks a).map
      fun checks => { memo with checks }
  | .list a => (OnceCells.step ListArgs.key (listInit memo.ts) memo.lists a).map
      fun lists => { memo with lists }

end RequestMemo

/-- The answer to an impossible relation, which is no RPC's. -/
def checkDenied (k : CheckKey) : Option CheckResult :=
  if k.2.2.1 = Rel.IMPOSSIBLE then some (.forbidden ⟨""⟩) else none

def checkKeyRpc (ts : Option Timestamp) (k : CheckKey) : Rpc :=
  .check { ns := k.1, obj := k.2.1, rel := k.2.2.1, userId := k.2.2.2, ts := (ts.getD .empty).val }

def listKeyRpc (ts : Option Timestamp) (k : ListKey) : Rpc :=
  .list { ns := k.1, rel := k.2.1, userId := k.2.2, ts := (ts.getD .empty).val }

theorem checkInit_oneCall (ts : Option Timestamp) : OneCall CheckArgs.key (checkInit ts) checkDenied
    (checkKeyRpc ts) fun _ reply => checkResult reply where
  denies := by
    intro args v hv
    obtain ⟨himp,hv⟩ := Option.ite_none_right_eq_some.mp hv
    cases hv
    exact check_impossible himp
  calls := by
    intro args hnone
    refine check_possible fun himp => ?_
    simp [checkDenied, CheckArgs.key, himp] at hnone

theorem listInit_oneCall (ts : Option Timestamp) : OneCall ListArgs.key (listInit ts) (fun _ => none)
    (listKeyRpc ts) fun _ reply => listResult reply where
  denies := nofun
  calls _ _ := rfl

structure MemoAgreement (ts : Option Timestamp) (memo : RequestMemo) : Prop where
  pinned : memo.ts = ts
  checks : Agreement CheckArgs.key (checkInit ts) checkDenied (checkKeyRpc ts)
    (fun _ reply => checkResult reply) memo.checks
  lists : Agreement ListArgs.key (listInit ts) (fun _ => none) (listKeyRpc ts)
    (fun _ reply => listResult reply) memo.lists

/-- The invariant of the two maps. -/
structure MemoWellFormed (ts : Option Timestamp) (memo : RequestMemo) : Prop where
  pinned : memo.ts = ts
  checks : WellFormed CheckArgs.key (checkInit ts) memo.checks
  lists : WellFormed ListArgs.key (listInit ts) memo.lists

theorem memoStep_wellFormed {ts : Option Timestamp} {memo memo' : RequestMemo} {a : RequestMemo.Action}
    (h : MemoWellFormed ts memo) (hstep : memo.step a = some memo') : MemoWellFormed ts memo' := by
  obtain ⟨rfl,hchecks,hlists⟩ := h
  cases a with
  | check a =>
    obtain ⟨checks,ha,rfl⟩ := Option.map_eq_some_iff.mp hstep
    exact ⟨rfl,step_wellFormed hchecks ha,hlists⟩
  | list a =>
    obtain ⟨lists,ha,rfl⟩ := Option.map_eq_some_iff.mp hstep
    exact ⟨rfl,hchecks,step_wellFormed hlists ha⟩

theorem memo_agreement {ts : Option Timestamp} {acts : List RequestMemo.Action} {memo : RequestMemo}
    (h : exec RequestMemo.step (RequestMemo.new.withTimestamp ts) acts = some memo) :
    MemoAgreement ts memo := by
  have hinit : MemoWellFormed ts (RequestMemo.new.withTimestamp ts) :=
    ⟨rfl,wellFormed_init,wellFormed_init⟩
  obtain ⟨hts,hchecks,hlists⟩ :=
    exec_invariant (fun _ _ _ hm hstep => memoStep_wellFormed hm hstep) hinit h
  exact ⟨hts,hchecks.agreement (checkInit_oneCall ts),hlists.agreement (listInit_oneCall ts)⟩

/-- A server that answers every RPC alike. -/
def replyWith (check : Except Status Pb.CheckResponse) (list : Except Status Pb.ListResponse) :
    ∀ rpc, Rpc.Reply rpc
  | .check _ => check
  | .list _ => list

/-- Of two calls for one key, the one in its RPC is dropped and the one which
waits fails; a third call brings the answer, and a fourth is a hit. -/
def handover (args : CheckArgs) (id : String) : List RequestMemo.Action :=
  let failing := replyWith (.error ⟨14,"unavailable"⟩) (.error ⟨14,"unavailable"⟩)
  let granting := replyWith (.ok ⟨some id,true⟩) (.error ⟨14,"unavailable"⟩)
  [.call args,.locate 0,.report 0,.enter 0,.acquire 0,.call args,.locate 1,.report 1,.enter 1,.drop 0,
    .acquire 1,.reply 1 failing,.call args,.locate 2,.report 2,.enter 2,.acquire 2,.reply 2 granting,
    .call args,.locate 3,.report 3,.enter 3].map .check

/-- What each call of `check` was told of a hit, and returned. -/
def RequestMemo.answers (memo : RequestMemo) :
    List (Option Bool × Option (Except CallError CheckResult)) :=
  memo.checks.callers.map fun x => (x.hit, match x.phase with
    | .returned result => some result
    | _ => none)

theorem memo_agreement_handover : ∃ memo, exec RequestMemo.step (RequestMemo.new.withTimestamp none)
      (handover ⟨⟨"doc"⟩,⟨"1"⟩,⟨"viewer"⟩,⟨"u1"⟩⟩ "u1") = some memo ∧
    memo.answers = [(some false,none),(some false,some (.error (.status ⟨14,"unavailable"⟩))),
      (some false,some (.ok (.ok ⟨"u1"⟩))),(some true,some (.ok (.ok ⟨"u1"⟩)))] ∧
    MemoAgreement none memo := by
  have hrun : (exec RequestMemo.step (RequestMemo.new.withTimestamp none)
      (handover ⟨⟨"doc"⟩,⟨"1"⟩,⟨"viewer"⟩,⟨"u1"⟩⟩ "u1")).map RequestMemo.answers =
      some [(some false,none),(some false,some (.error (.status ⟨14,"unavailable"⟩))),
        (some false,some (.ok (.ok ⟨"u1"⟩))),(some true,some (.ok (.ok ⟨"u1"⟩)))] := by
    decide +kernel
  obtain ⟨memo,hmemo,hanswers⟩ := Option.map_eq_some_iff.mp hrun
  exact ⟨memo,hmemo,hanswers,memo_agreement hmemo⟩

end NioClient.Check
