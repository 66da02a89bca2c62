import NioClient.Check.Memo
import NioClient.Library.OnceCellsLoad

/-! # What a memo costs

A request that asks the same question many times, one after the other or at once, makes one
RPC for it, and one more for each RPC that fails or whose caller is dropped. Every lookup
comes to an end.
-/
namespace NioClient.Check
open Environment Execution OnceCells
variable {ts : Option Timestamp} {memo memo' : RequestMemo} {a : RequestMemo.Action}
  {acts : List RequestMemo.Action}

/-- The RPCs for a key are at most one more than those that brought no answer. -/
structure MemoLoad (memo : RequestMemo) : Prop where
  checks : ∀ k, (issuedFor CheckArgs.key memo.checks k).length ≤ wastedFor CheckArgs.key memo.checks k + 1
  lists : ∀ k, (issuedFor ListArgs.key memo.lists k).length ≤ wastedFor ListArgs.key memo.lists k + 1

structure MemoAccounted (ts : Option Timestamp) (memo : RequestMemo) : Prop where
  wellFormed : MemoWellFormed ts memo
  checks : Accounted CheckArgs.key memo.checks
  lists : Accounted ListArgs.key memo.lists

theorem memoStep_accounted (h : MemoAccounted ts memo) (hstep : memo.step a = some memo') :
    MemoAccounted ts memo' := by
  have hkept := memoStep_wellFormed h.wellFormed hstep
  obtain ⟨⟨rfl,hchecks,hlists⟩,hpaid,hpaid'⟩ := h
  cases a with
  | check a =>
    obtain ⟨checks,ha,rfl⟩ := Option.map_eq_some_iff.mp hstep
    exact ⟨hkept,hpaid.step (checkInit_oneCall memo.ts) hchecks ha,hpaid'⟩
  | list a =>
    obtain ⟨lists,ha,rfl⟩ := Option.map_eq_some_iff.mp hstep
    exact ⟨hkept,hpaid,hpaid'.step (listInit_oneCall memo.ts) hlists ha⟩

theorem memo_accounted_init (ts : Option Timestamp) : MemoAccounted ts (RequestMemo.new.withTimestamp ts) :=
  ⟨⟨rfl,wellFormed_init,wellFormed_init⟩,accounted_init,accounted_init⟩

theorem memo_accounted (h : exec RequestMemo.step (RequestMemo.new.withTimestamp ts) acts = some memo) :
    MemoAccounted ts memo :=
  exec_invariant (fun _ _ _ hm hstep => memoStep_accounted hm hstep) (memo_accounted_init ts) h

theorem memo_load (h : exec RequestMemo.step (RequestMemo.new.withTimestamp ts) acts = some memo) :
    MemoLoad memo := by
  obtain ⟨⟨-,hchecks,hlists⟩,hpaid,hpaid'⟩ := memo_accounted h
  exact ⟨issuedFor_le_wastedFor hchecks hpaid,issuedFor_le_wastedFor hlists hpaid'⟩

/-- Of three RPCs for four lookups, one is dropped and one fails. -/
theorem memo_load_handover : let args : CheckArgs := ⟨⟨"doc"⟩,⟨"1"⟩,⟨"viewer"⟩,⟨"u1"⟩⟩
    ∃ memo, exec RequestMemo.step (RequestMemo.new.withTimestamp none) (handover args "u1") = some memo ∧
      (issuedFor CheckArgs.key memo.checks args.key).length = 3 ∧
      wastedFor CheckArgs.key memo.checks args.key = 2 ∧ MemoLoad memo := by
  intro args
  have hrun : (exec RequestMemo.step (RequestMemo.new.withTimestamp none) (handover args "u1")).map (fun memo =>
      ((issuedFor CheckArgs.key memo.checks args.key).length,wastedFor CheckArgs.key memo.checks args.key)) =
      some (3,2) := by decide +kernel
  obtain ⟨memo,h,hmemo⟩ := Option.map_eq_some_iff.mp hrun
  obtain ⟨hissued,hwasted⟩ := Prod.mk.inj hmemo
  exact ⟨memo,h,hissued,hwasted,memo_load h⟩

namespace RequestMemo

def Action.isCall : Action → Bool
  | .check a => a.isCall
  | .list a => a.isCall

/-- The steps that lookups take by themselves, with the replies that they get. -/
def Action.own : Action → Bool
  | .check a => a.own
  | .list a => a.own

def left (memo : RequestMemo) : ℕ := memo.checks.left + memo.lists.left

end RequestMemo

structure MemoRest (acts : List RequestMemo.Action) (memo : RequestMemo) : Prop where
  /-- The lookups are over where none of them can take a step. -/
  rest_iff : (∀ x ∈ memo.checks.callers, x.phase.settled) ∧ (∀ x ∈ memo.lists.callers, x.phase.settled) ↔
    ∀ a : RequestMemo.Action, a.own → memo.step a = none
  /-- Until then there are at most five steps for each. -/
  steps : acts.countP (fun a => !a.isCall) + memo.left ≤ 5 * acts.countP RequestMemo.Action.isCall

theorem memoStep_left (h : MemoWellFormed ts memo) (hstep : memo.step a = some memo') :
    memo'.left + (if !a.isCall then 1 else 0) ≤ memo.left + if a.isCall then 5 else 0 := by
  obtain ⟨rfl,hchecks,hlists⟩ := h
  cases a with
  | check a =>
    obtain ⟨checks,ha,rfl⟩ := Option.map_eq_some_iff.mp hstep
    have hleft := step_left (checkInit_oneCall memo.ts) hchecks ha
    change checks.left + memo.lists.left + (if !a.isCall then 1 else 0) ≤
      memo.checks.left + memo.lists.left + if a.isCall then 5 else 0
    omega
  | list a =>
    obtain ⟨lists,ha,rfl⟩ := Option.map_eq_some_iff.mp hstep
    have hleft := step_left (listInit_oneCall memo.ts) hlists ha
    change memo.checks.left + lists.left + (if !a.isCall then 1 else 0) ≤
      memo.checks.left + memo.lists.left + if a.isCall then 5 else 0
    omega

theorem memo_rest (h : exec RequestMemo.step (RequestMemo.new.withTimestamp ts) acts = some memo) :
    MemoRest acts memo := by
  let env := replyWith (.error ⟨14,"unavailable"⟩) (.error ⟨14,"unavailable"⟩)
  obtain ⟨rfl,hchecks,hlists⟩ := (memo_accounted h).wellFormed
  refine ⟨?_,?_⟩
  · rw [hchecks.all_settled env, hlists.all_settled env]
    constructor
    · rintro ⟨hc,hl⟩ (a | a) ha
      · rw [RequestMemo.step, hc a ha]
        rfl
      · rw [RequestMemo.step, hl a ha]
        rfl
    · intro hstuck
      exact ⟨fun a ha => Option.map_eq_none_iff.mp (hstuck (.check a) ha),
        fun a ha => Option.map_eq_none_iff.mp (hstuck (.list a) ha)⟩
  · have hpaid := exec_potential_within (fun _ _ _ hm hstep => memoStep_wellFormed hm hstep)
      (fun m a m' hm (hstep : RequestMemo.step m a = some m') => memoStep_left hm hstep)
      (memo_accounted_init memo.ts).wellFormed h
    rw [sum_map_count, sum_map_count, Nat.one_mul, Nat.add_comm] at hpaid
    exact hpaid.trans (Nat.zero_add _).le

theorem memo_rest_handover : let acts := handover ⟨⟨"doc"⟩,⟨"1"⟩,⟨"viewer"⟩,⟨"u1"⟩⟩ "u1"
    ∃ memo, exec RequestMemo.step (RequestMemo.new.withTimestamp none) acts = some memo ∧ MemoRest acts memo := by
  intro acts
  have hrun : (exec RequestMemo.step (RequestMemo.new.withTimestamp none) acts).isSome := by decide +kernel
  obtain ⟨memo,h⟩ := Option.isSome_iff_exists.mp hrun
  exact ⟨memo,h,memo_rest h⟩

end NioClient.Check
