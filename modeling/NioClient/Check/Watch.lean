import NioClient.Check.Wire

/-! # The Watch stream and its watermark

A `WatchStream` is what is left of the server's stream: messages, and the status
of a failed read. `recv` takes the next message off the stream before it maps it.
-/
namespace NioClient.Check
variable (fromTimestamp : Int64 → Option ℤ)

structure WatchStream where
  inner : List (Except Status Pb.WatchResponse)

namespace WatchStream

def recv (stream : WatchStream) : Except ReadError (Option WatchEvent) × WatchStream :=
  match stream.inner with
  | [] => (.ok none, stream)
  | .ok resp :: rest => ((watchEventFromPb fromTimestamp resp).map some, ⟨rest⟩)
  | .error status :: rest => (.error (.grpc status), ⟨rest⟩)

def recvs : ℕ → WatchStream → List (Except ReadError (Option WatchEvent))
  | 0, _ => []
  | n + 1, stream => (stream.recv fromTimestamp).1 :: recvs n (stream.recv fromTimestamp).2

end WatchStream

def delivered (results : List (Except ReadError (Option WatchEvent))) : List WatchUpdate :=
  results.flatMap fun
    | .ok (some event) => event.updates
    | _ => []

def carried (items : List (Except Status Pb.WatchResponse)) : List Pb.Update :=
  items.flatMap fun
    | .ok resp => resp.updates
    | .error _ => []

/-- Whenever one of the first `n` calls returns an event, the updates delivered by
then are those carried by the stream by then, in order and each of them once. -/
def Truthful (stream : WatchStream) (n : ℕ) : Prop :=
  ∀ i < n, ∀ event, (stream.recvs fromTimestamp (i + 1)).getLast? = some (.ok (some event)) →
    ∃ resp, stream.inner[i]? = some (.ok resp) ∧ event.ts = ⟨resp.ts⟩ ∧
      List.Forall₂ (Delivers fromTimestamp) (carried (stream.inner.take (i + 1)))
        (delivered (stream.recvs fromTimestamp (i + 1)))

variable {fromTimestamp} {n : ℕ} {status : Status} {resp : Pb.WatchResponse} {event : WatchEvent}
  {rest : List (Except Status Pb.WatchResponse)} {results : List (Except ReadError (Option WatchEvent))}

@[simp] theorem recvs_nil : (WatchStream.mk []).recvs fromTimestamp (n + 1) =
    .ok none :: (WatchStream.mk []).recvs fromTimestamp n := rfl

@[simp] theorem recvs_error : (WatchStream.mk (.error status :: rest)).recvs fromTimestamp (n + 1) =
    .error (.grpc status) :: (WatchStream.mk rest).recvs fromTimestamp n := rfl

@[simp] theorem recvs_ok : (WatchStream.mk (.ok resp :: rest)).recvs fromTimestamp (n + 1) =
    (watchEventFromPb fromTimestamp resp).map some :: (WatchStream.mk rest).recvs fromTimestamp n := rfl

@[simp] theorem delivered_nil : delivered [] = [] := rfl
@[simp] theorem delivered_none : delivered (.ok none :: results) = delivered results := rfl
@[simp] theorem delivered_error {e : ReadError} : delivered (.error e :: results) = delivered results := rfl
@[simp] theorem delivered_event :
    delivered (.ok (some event) :: results) = event.updates ++ delivered results := rfl
@[simp] theorem carried_nil : carried [] = [] := rfl
@[simp] theorem carried_error : carried (.error status :: rest) = carried rest := rfl
@[simp] theorem carried_ok : carried (.ok resp :: rest) = resp.updates ++ carried rest := rfl

/-- Call number `i` returns an event exactly when item `i` of the stream is a
message that can be mapped. -/
theorem recvs_getLast {i : ℕ} {inner : List (Except Status Pb.WatchResponse)} :
    ((WatchStream.mk inner).recvs fromTimestamp (i + 1)).getLast? = some (.ok (some event)) ↔
      ∃ resp, inner[i]? = some (.ok resp) ∧ watchEventFromPb fromTimestamp resp = .ok event := by
  induction i generalizing inner with
  | zero =>
    rcases inner with _ | ⟨_ | resp,rest⟩
    · simp [WatchStream.recvs, WatchStream.recv]
    · simp [WatchStream.recvs, WatchStream.recv]
    · cases h : watchEventFromPb fromTimestamp resp <;>
        simp [WatchStream.recvs, WatchStream.recv, h, Except.map]
  | succ i ih =>
    have hne (stream : WatchStream) : stream.recvs fromTimestamp (i + 1) ≠ [] := by
      simp [WatchStream.recvs]
    rw [WatchStream.recvs, List.getLast?_cons, List.getLast?_eq_some_getLast (hne _), Option.getD_some,
      ← List.getLast?_eq_some_getLast (hne _)]
    rcases inner with _ | ⟨_ | resp,rest⟩
    · refine Iff.trans ih ?_
      simp
    · refine ih.trans ?_
      simp
    · refine ih.trans ?_
      simp

theorem delivered_all {inner : List (Except Status Pb.WatchResponse)}
    (h : ∀ resp, .ok resp ∈ inner.take n → resp.Mappable fromTimestamp) :
    List.Forall₂ (Delivers fromTimestamp) (carried (inner.take n))
      (delivered ((WatchStream.mk inner).recvs fromTimestamp n)) := by
  induction n generalizing inner with
  | zero => exact .nil
  | succ n ih =>
    rcases inner with _ | ⟨status | resp,rest⟩
    · have hnil := @ih [] (by simp)
      simpa using hnil
    · have hrest : ∀ resp, .ok resp ∈ rest.take n → resp.Mappable fromTimestamp :=
        fun resp hresp => h resp (by simp [hresp])
      simpa using ih hrest
    · have hrest : ∀ resp, .ok resp ∈ rest.take n → resp.Mappable fromTimestamp :=
        fun resp hresp => h resp (by simp [hresp])
      obtain ⟨event,hevent⟩ := (watchEventFromPb_ok resp).mpr (h resp (by simp))
      simpa [hevent, Except.map] using List.rel_append (watchEventFromPb_eq_ok.mp hevent).2 (ih hrest)

theorem Pb.WatchResponse.Mappable.of_nil (h : resp.updates = []) : resp.Mappable fromTimestamp := by
  simp [Pb.WatchResponse.Mappable, h]

theorem delivered_length (inner : List (Except Status Pb.WatchResponse)) (n : ℕ) :
    (delivered ((WatchStream.mk inner).recvs fromTimestamp n)).length ≤ (carried (inner.take n)).length ∧
    ((∃ resp, .ok resp ∈ inner.take n ∧ ¬ resp.Mappable fromTimestamp) →
      (delivered ((WatchStream.mk inner).recvs fromTimestamp n)).length <
        (carried (inner.take n)).length) := by
  induction n generalizing inner with
  | zero => simp [WatchStream.recvs]
  | succ n ih =>
    rcases inner with _ | ⟨status | head,rest⟩
    · simpa using (ih []).1
    · obtain ⟨hle,hlt⟩ := ih rest
      refine ⟨by simpa using hle,?_⟩
      rintro ⟨resp,hmem,hbad⟩
      rcases List.mem_cons.mp hmem with heq | hmem
      · cases heq
      · simpa using hlt ⟨resp,hmem,hbad⟩
    · obtain ⟨hle,hlt⟩ := ih rest
      cases hevent : watchEventFromPb fromTimestamp head with
      | error e =>
        have hpos : 0 < head.updates.length := by
          by_contra hzero
          have hnil : head.updates = [] :=
            List.eq_nil_of_length_eq_zero (Nat.eq_zero_of_not_pos hzero)
          have hmap : head.Mappable fromTimestamp := .of_nil hnil
          obtain ⟨event,hok⟩ := (watchEventFromPb_ok head).mpr hmap
          cases hevent.symm.trans hok
        simp only [recvs_ok, hevent, Except.map, delivered_error, List.take_succ_cons, carried_ok,
          List.length_append]
        exact ⟨by omega,fun _ => by omega⟩
      | ok event =>
        have hhead : head.Mappable fromTimestamp := (watchEventFromPb_ok head).mp ⟨event,hevent⟩
        have hlength := (watchEventFromPb_eq_ok.mp hevent).2.length_eq
        simp only [recvs_ok, hevent, Except.map, delivered_event, List.take_succ_cons, carried_ok,
          List.length_append]
        refine ⟨by omega,?_⟩
        rintro ⟨resp,hmem,hbad⟩
        rcases List.mem_cons.mp hmem with heq | hmem
        · cases heq
          exact absurd hhead hbad
        · have := hlt ⟨resp,hmem,hbad⟩
          omega

/-- The watermark is truthful over the first `n` calls of `recv` exactly when no
message that cannot be mapped comes before one of theirs that can. -/
theorem truthful_iff (inner : List (Except Status Pb.WatchResponse)) (n : ℕ) :
    Truthful fromTimestamp ⟨inner⟩ n ↔
      ∀ i < n, ∀ resp, inner[i]? = some (.ok resp) → resp.Mappable fromTimestamp →
        ∀ earlier, .ok earlier ∈ inner.take i → earlier.Mappable fromTimestamp := by
  constructor
  · intro h i hi resp hresp hmap earlier hearlier
    obtain ⟨event,hevent⟩ := (watchEventFromPb_ok resp).mpr hmap
    obtain ⟨-,-,-,hall⟩ := h i hi event (recvs_getLast.mpr ⟨resp,hresp,hevent⟩)
    by_contra hbad
    have hmem : .ok earlier ∈ inner.take (i + 1) := by
      rw [List.take_add_one]
      exact List.mem_append_left _ hearlier
    have hlt := (delivered_length inner (i + 1)).2 ⟨earlier,hmem,hbad⟩
    exact absurd hall.length_eq (Nat.ne_of_gt hlt)
  · intro h i hi event hevent
    obtain ⟨resp,hresp,hok⟩ := recvs_getLast.mp hevent
    have hmap : resp.Mappable fromTimestamp := (watchEventFromPb_ok resp).mp ⟨event,hok⟩
    refine ⟨resp,hresp,(watchEventFromPb_eq_ok.mp hok).1,delivered_all fun resp' hmem => ?_⟩
    rw [List.take_add_one, hresp] at hmem
    rcases List.mem_append.mp hmem with hearlier | hlast
    · exact h i hi resp hresp hmap resp' hearlier
    · cases List.mem_singleton.mp hlast
      exact hmap

/-- A batch whose first update has no tuple is consumed by the failing call, and
the watermark of the heartbeat after it covers the skipped batch. -/
theorem skippedBatch_not_truthful :
    ¬ Truthful (fun secs => some (secs.toInt * 1000000000))
      ⟨[.ok ⟨"Ag==",[⟨none,false⟩]⟩,.ok ⟨"Aw==",[]⟩]⟩ 2 := by
  intro h
  obtain ⟨resp,-,-,hall⟩ := h 1 (by decide) ⟨⟨"Aw=="⟩,[]⟩ rfl
  cases hall

end NioClient.Check
