import NioClient.Library.OnceCellsLabels
import NioClient.Check.Memo

/-! # The zookie a memo is pinned to

`with_timestamp` takes the memo by value, so that no call of `check` or `list` is in
progress. It leaves the maps as they are, and their keys leave the timestamp out.
-/
namespace NioClient.Check
open Environment Execution OnceCells

def RequestMemo.idle (memo : RequestMemo) : Bool :=
  memo.checks.callers.all (fun x => x.phase.settled) && memo.lists.callers.all fun x => x.phase.settled

/-- A memo, with the timestamps that were pinned at the calls of `check` and of `list` as
history. -/
structure PinnedMemo where
  memo : RequestMemo
  checkPins : List (Option Timestamp)
  listPins : List (Option Timestamp)

def zookie (ts : Option Timestamp) : Timestamp := ts.getD Timestamp.empty

def Possible (k : CheckKey) : Prop := k.2.2.1 ≠ Rel.IMPOSSIBLE

instance : DecidablePred Possible := fun k => inferInstanceAs (Decidable (k.2.2.1 ≠ Rel.IMPOSSIBLE))

namespace PinnedMemo

def new : PinnedMemo := ⟨.new,[],[]⟩

inductive Action where
  | check (a : OnceCells.Action CheckArgs Rpc Rpc.Reply)
  | list (a : OnceCells.Action ListArgs Rpc Rpc.Reply)
  | withTimestamp (ts : Option Timestamp)

def step (m : PinnedMemo) : Action → Option PinnedMemo
  | .check a => (m.memo.step (.check a)).map fun memo =>
    { m with memo, checkPins := m.checkPins ++ a.labels m.memo.ts }
  | .list a => (m.memo.step (.list a)).map fun memo =>
    { m with memo, listPins := m.listPins ++ a.labels m.memo.ts }
  | .withTimestamp ts => if m.memo.idle then some { m with memo := m.memo.withTimestamp ts } else none

/-- No call asks a question which the memo has answered under another zookie. -/
def Timely (m : PinnedMemo) : Action → Prop
  | .check a => OnceCells.Timely CheckArgs.key zookie Possible m.memo.ts m.checkPins
    m.memo.checks.recorded a
  | .list a => OnceCells.Timely ListArgs.key zookie (fun _ => True) m.memo.ts m.listPins
    m.memo.lists.recorded a
  | .withTimestamp _ => True

instance Timely.decidable (m : PinnedMemo) : ∀ a, Decidable (Timely m a)
  | .check a => inferInstanceAs (Decidable
    (OnceCells.Timely CheckArgs.key zookie Possible m.memo.ts m.checkPins m.memo.checks.recorded a))
  | .list a => inferInstanceAs (Decidable
    (OnceCells.Timely ListArgs.key zookie (fun _ => True) m.memo.ts m.listPins m.memo.lists.recorded a))
  | .withTimestamp _ => isTrue trivial

/-- Every value that `check` has returned, the denial of an impossible relation apart, and
every value that `list` has returned came with an RPC at the zookie pinned at the call. -/
structure AnswersPinned (m : PinnedMemo) : Prop where
  checks : ∀ (c : ℕ) x v, m.memo.checks.callers[c]? = some x → x.phase = .returned (.ok v) →
    x.arg.rel.val ≠ Rel.IMPOSSIBLE → ∃ pin, m.checkPins[c]? = some pin ∧
      ∃ y ∈ m.memo.checks.callers, ∃ reply,
        y.replies = [⟨checkKeyRpc pin x.arg.key,reply⟩] ∧ checkResult reply = .ok v
  lists : ∀ (c : ℕ) x v, m.memo.lists.callers[c]? = some x → x.phase = .returned (.ok v) →
    ∃ pin, m.listPins[c]? = some pin ∧
      ∃ y ∈ m.memo.lists.callers, ∃ reply,
        y.replies = [⟨listKeyRpc pin x.arg.key,reply⟩] ∧ listResult reply = .ok v

/-- The callers of either map can be labelled with the timestamps pinned at their calls. -/
structure Labelled (m : PinnedMemo) : Prop where
  checks : Labelling CheckArgs.key checkInit zookie Possible m.memo.ts m.checkPins m.memo.checks
  lists : Labelling ListArgs.key listInit zookie (fun _ => True) m.memo.ts m.listPins m.memo.lists

theorem labelled_new : Labelled new := ⟨labelling_init,labelling_init⟩

variable {m m' : PinnedMemo} {a : Action} {acts : List Action}

theorem labelled_step (h : Labelled m) (htimely : Timely m a) (hstep : m.step a = some m') :
    Labelled m' := by
  obtain ⟨hchecks,hlists⟩ := h
  cases a with
  | check a =>
    obtain ⟨memo,hmemo,rfl⟩ := Option.map_eq_some_iff.mp hstep
    obtain ⟨checks,ha,rfl⟩ := Option.map_eq_some_iff.mp hmemo
    exact ⟨hchecks.step htimely ha,hlists⟩
  | list a =>
    obtain ⟨memo,hmemo,rfl⟩ := Option.map_eq_some_iff.mp hstep
    obtain ⟨lists,ha,rfl⟩ := Option.map_eq_some_iff.mp hmemo
    exact ⟨hchecks,hlists.step htimely ha⟩
  | withTimestamp ts =>
    obtain ⟨hidle,hm⟩ := Option.ite_none_right_eq_some.mp hstep
    cases hm
    simp only [RequestMemo.idle, Bool.and_eq_true, List.all_eq_true] at hidle
    exact ⟨hchecks.settled hidle.1 ts,hlists.settled hidle.2 ts⟩

theorem labelled_run (htimely : Along step Timely new acts) (h : exec step new acts = some m) :
    Labelled m :=
  exec_induction_along (motive := fun _ m => Labelled m) labelled_new
    (fun _ _ _ _ _ hG hm hstep => labelled_step hm hG hstep) htimely h

theorem checkReply_zookie {pin pin' : Option Timestamp} (h : zookie pin = zookie pin') {k : CheckKey}
    (reply : Except Status Pb.CheckResponse) : (⟨checkKeyRpc pin k,reply⟩ : Σ q, Rpc.Reply q) =
      ⟨checkKeyRpc pin' k,reply⟩ :=
  congrArg (fun z : Timestamp => (⟨.check ⟨k.1,k.2.1,k.2.2.1,k.2.2.2,z.val⟩,reply⟩ : Σ q, Rpc.Reply q)) h

theorem listReply_zookie {pin pin' : Option Timestamp} (h : zookie pin = zookie pin') {k : ListKey}
    (reply : Except Status Pb.ListResponse) : (⟨listKeyRpc pin k,reply⟩ : Σ q, Rpc.Reply q) =
      ⟨listKeyRpc pin' k,reply⟩ :=
  congrArg (fun z : Timestamp => (⟨.list ⟨k.1,k.2.1,k.2.2,z.val⟩,reply⟩ : Σ q, Rpc.Reply q)) h

theorem Labelled.answersPinned (h : Labelled m) : AnswersPinned m := by
  constructor
  · intro c x v hx hphase hrel
    obtain ⟨pin,hpin,y,hy,pin',hz,reply,hlog,hresult⟩ :=
      h.checks.answer_call checkInit_oneCall hx hphase hrel (if_neg hrel)
    rw [checkReply_zookie hz reply] at hlog
    exact ⟨pin,hpin,y,hy,reply,hlog,hresult⟩
  · intro c x v hx hphase
    obtain ⟨pin,hpin,y,hy,pin',hz,reply,hlog,hresult⟩ :=
      h.lists.answer_call listInit_oneCall hx hphase trivial rfl
    rw [listReply_zookie hz reply] at hlog
    exact ⟨pin,hpin,y,hy,reply,hlog,hresult⟩

/-- As long as no call repeats a question from before the zookie changed, every answer is
one at the zookie pinned at its call. -/
theorem answers_pinned (htimely : Along step Timely new acts) (h : exec step new acts = some m) :
    AnswersPinned m := (labelled_run htimely h).answersPinned

def firstCheck (args : CheckArgs) (c : ℕ) (env : ∀ rpc, Rpc.Reply rpc) : List Action :=
  [.call args,.locate c,.report c,.enter c,.acquire c,.reply c env].map .check

def repeatedCheck (args : CheckArgs) (c : ℕ) : List Action :=
  [.call args,.locate c,.report c,.enter c].map .check

def views (doc : String) : CheckArgs := ⟨⟨"doc"⟩,⟨doc⟩,⟨"viewer"⟩,⟨"u1"⟩⟩

def granting : ∀ rpc, Rpc.Reply rpc := replyWith (.ok ⟨some "u1",true⟩) (.error ⟨14,"unavailable"⟩)

/-- Of a call of `check`, the question, what it returned, and its RPCs. -/
structure CheckReport where
  key : CheckKey
  result : Option (Except CallError CheckResult)
  rpcs : List Rpc
deriving DecidableEq

def reportOf (x : Caller CheckArgs CheckResult CallError Rpc Rpc.Reply) : CheckReport where
  key := x.arg.key
  result := x.phase.result
  rpcs := x.replies.map Sigma.fst

def reports (m : PinnedMemo) : List (Option Timestamp) × List CheckReport :=
  (m.checkPins,m.memo.checks.callers.map reportOf)

/-- A check is answered at one zookie, and after the memo is pinned to another the same
check returns that answer again. -/
def repinned : List Action :=
  .withTimestamp (some ⟨"Ag=="⟩) :: firstCheck (views "1") 0 granting ++
    .withTimestamp (some ⟨"Aw=="⟩) :: repeatedCheck (views "1") 1

theorem repinned_not_answersPinned : ∃ m, exec step new repinned = some m ∧ ¬ AnswersPinned m := by
  have hrun : (exec step new repinned).map reports = some ([some ⟨"Ag=="⟩,some ⟨"Aw=="⟩],
      [⟨(views "1").key,some (.ok (.ok ⟨"u1"⟩)),[checkKeyRpc (some ⟨"Ag=="⟩) (views "1").key]⟩,
        ⟨(views "1").key,some (.ok (.ok ⟨"u1"⟩)),[]⟩]) := by
    decide +kernel
  obtain ⟨m,hm,hreports⟩ := Option.map_eq_some_iff.mp hrun
  obtain ⟨hpins,hcallers⟩ := Prod.mk.inj hreports
  refine ⟨m,hm,fun h => ?_⟩
  have hsecond : (m.memo.checks.callers.map reportOf)[1]? =
      some ⟨(views "1").key,some (.ok (.ok ⟨"u1"⟩)),[]⟩ := by rw [hcallers]; rfl
  rw [List.getElem?_map] at hsecond
  obtain ⟨x,hx,hreport⟩ := Option.map_eq_some_iff.mp hsecond
  obtain ⟨hkey,hresult,-⟩ := CheckReport.mk.inj hreport
  have hrel : x.arg.rel.val ≠ Rel.IMPOSSIBLE := by
    have hpossible : Possible x.arg.key := by rw [hkey]; decide
    exact hpossible
  obtain ⟨pin,hpin,y,hy,reply,hlog,-⟩ := h.checks 1 x _ hx (Phase.result_eq_some.mp hresult) hrel
  rw [hpins] at hpin
  cases hpin
  -- No call of the run has an RPC at the second zookie.
  have hrpc : reportOf y ∈ m.memo.checks.callers.map reportOf := List.mem_map_of_mem hy
  have hrpcs : (reportOf y).rpcs = [checkKeyRpc (some ⟨"Aw=="⟩) (views "1").key] := by
    rw [reportOf, hlog, hkey]
    rfl
  rw [hcallers] at hrpc
  rcases List.mem_pair.mp hrpc with heq | heq <;> rw [heq] at hrpcs <;> revert hrpcs <;> decide

theorem answers_pinned_newQuestion : ∃ m, exec step new
      (.withTimestamp (some ⟨"Ag=="⟩) :: firstCheck (views "1") 0 granting ++
        .withTimestamp (some ⟨"Aw=="⟩) :: firstCheck (views "2") 1 granting) = some m ∧
    m.reports = ([some ⟨"Ag=="⟩,some ⟨"Aw=="⟩],
      [⟨(views "1").key,some (.ok (.ok ⟨"u1"⟩)),[checkKeyRpc (some ⟨"Ag=="⟩) (views "1").key]⟩,
        ⟨(views "2").key,some (.ok (.ok ⟨"u1"⟩)),[checkKeyRpc (some ⟨"Aw=="⟩) (views "2").key]⟩]) ∧
    AnswersPinned m := by
  have hrun : (exec step new
      (.withTimestamp (some ⟨"Ag=="⟩) :: firstCheck (views "1") 0 granting ++
        .withTimestamp (some ⟨"Aw=="⟩) :: firstCheck (views "2") 1 granting)).map reports =
      some ([some ⟨"Ag=="⟩,some ⟨"Aw=="⟩],
        [⟨(views "1").key,some (.ok (.ok ⟨"u1"⟩)),[checkKeyRpc (some ⟨"Ag=="⟩) (views "1").key]⟩,
          ⟨(views "2").key,some (.ok (.ok ⟨"u1"⟩)),[checkKeyRpc (some ⟨"Aw=="⟩) (views "2").key]⟩]) := by
    decide +kernel
  obtain ⟨m,hm,hreports⟩ := Option.map_eq_some_iff.mp hrun
  exact ⟨m,hm,hreports,answers_pinned (by decide +kernel) hm⟩

end PinnedMemo
end NioClient.Check
