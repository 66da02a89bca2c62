import Mathlib.Data.List.Perm.Basic
import NioClient.Library.Changelog
import NioClient.Library.Execution
import NioClient.Check.Calls

/-! # Tailing a namespace over broken streams

The check server logs the writes to each namespace and serves Watch streams of them; the
network may end a stream at any moment and lose what is in flight. A consumer tails one
namespace: it leaves a stream at its first error or at its end, and opens the next one
with the `ts` of an event it has received. The server decides what to send and when; the
guards of its steps are what it promises of its messages.
-/
namespace NioClient.Check
open Changelog Execution

/-- How the server writes a time below `limit` as a zookie, and reads it back; the client
does neither. -/
structure Zookies where
  limit : ℕ
  pack : ℕ → String
  unpack : String → Option ℕ

structure Zookies.Lawful (z : Zookies) : Prop where
  unpack_pack : ∀ time < z.limit, z.unpack (z.pack time) = some time
  unpack_lt : ∀ zookie time, z.unpack zookie = some time → time < z.limit

structure Commit where
  time : ℕ
  updates : List Pb.Update
deriving DecidableEq

def response (z : Zookies) (m : Message Commit) : Pb.WatchResponse where
  ts := z.pack m.mark
  updates := m.batch.flatMap Commit.updates

/-- A Watch stream: what it is of, the mark up to which the server has sent it, whether
the server is still at it, and the client's end. -/
structure Connection where
  ns : String
  mark : ℕ
  serving : Bool
  stream : WatchStream

structure Tail where
  log : String → List Commit
  /-- Every commit yet to come is later than this. -/
  quiet : ℕ
  connection : Option Connection
  events : List WatchEvent

namespace Tail

def init : Tail := ⟨fun _ => [],0,none,[]⟩

inductive Act where
  | commit (ns : String) (time : ℕ) (updates : List Pb.Update)
  | advance (time : ℕ)
  /-- The consumer goes back to the event number `kept`, and opens a stream from there. -/
  | watch (kept : ℕ)
  | send (mark : ℕ)
  /-- The stream ends behind the first `arriving` of the messages in flight. -/
  | hangUp (arriving : ℕ) (status : Option Status)
  | recv
  | drop

/-- Where the consumer takes up the log: behind the last event it holds. -/
def resumePoint (start : Timestamp) (events : List WatchEvent) : Timestamp :=
  (events.getLast?.map WatchEvent.ts).getD start

variable (z : Zookies) (fromTimestamp : Int64 → Option ℤ) (ns : Namespace) (start : Timestamp)

def commit (s : Tail) (name : String) (time : ℕ) (updates : List Pb.Update) : Option Tail :=
  if s.quiet < time ∧ time < z.limit ∧ (∀ c ∈ s.log name, c.time < time) ∧ updates ≠ [] then
    some { s with log := Function.update s.log name (s.log name ++ [⟨time,updates⟩]) }
  else none

def watch (s : Tail) (kept : ℕ) : Option Tail :=
  if s.connection.isNone ∧ kept ≤ s.events.length then
    let events := s.events.take kept
    let request := watchRequest ns (resumePoint start events)
    (z.unpack request.startTs).map fun mark =>
      { s with events, connection := some ⟨request.ns,mark,true,⟨[]⟩⟩ }
  else none

/-- A message carries all that was committed since the one before, which may be one commit. -/
def send (s : Tail) (mark : ℕ) : Option Tail := do
  let conn ← s.connection
  if conn.serving ∧ conn.mark ≤ mark ∧ mark ≤ s.quiet ∧
      ∀ c ∈ span Commit.time conn.mark mark (s.log conn.ns), c.time = mark then
    let resp := response z ⟨mark,span Commit.time conn.mark mark (s.log conn.ns)⟩
    some { s with connection := some { conn with mark, stream := ⟨conn.stream.inner ++ [.ok resp]⟩ } }
  else none

def hangUp (s : Tail) (arriving : ℕ) (status : Option Status) : Option Tail := do
  let conn ← s.connection
  if conn.serving then
    let inner := conn.stream.inner.take arriving ++ (status.map Except.error).toList
    some { s with connection := some { conn with serving := false, stream := ⟨inner⟩ } }
  else none

/-- A call of `recv`, which waits as long as the stream is open and there is nothing on it. -/
def recv (s : Tail) : Option Tail := do
  let conn ← s.connection
  if conn.serving ∧ conn.stream.inner = [] then none
  else
    match conn.stream.recv fromTimestamp with
    | (.ok (some event),stream) =>
      some { s with events := s.events ++ [event], connection := some { conn with stream } }
    | (.ok none,_) | (.error _,_) => some { s with connection := none }

def step (s : Tail) : Act → Option Tail
  | .commit name time updates => s.commit z name time updates
  | .advance time => if s.quiet ≤ time ∧ time < z.limit then some { s with quiet := time } else none
  | .watch kept => s.watch z ns start kept
  | .send mark => s.send z mark
  | .hangUp arriving status => s.hangUp arriving status
  | .recv => s.recv fromTimestamp
  | .drop => some { s with connection := none }

abbrev Run (acts : List Act) (s : Tail) : Prop := exec (step z fromTimestamp ns start) init acts = some s

def Received (m : Message Commit) (event : WatchEvent) : Prop :=
  watchEventFromPb fromTimestamp (response z m) = .ok event

/-- The stream leads on from `mark`, message by message, and may end with an error. -/
structure InFlight (log : List Commit) (mark bound : ℕ) (conn : Connection) : Prop where
  carried : ∃ ms hi, Chain Commit.time log mark ms hi ∧ hi ≤ bound ∧
    (conn.serving = true → conn.mark = hi) ∧
    ∃ ending, conn.stream.inner = ms.map (fun m => .ok (response z m)) ++ ending ∧
      (ending = [] ∨ conn.serving = false ∧ ∃ status, ending = [.error status])

/-- The events and what is in flight are one chain from the start on. -/
structure Sound (origin : ℕ) (s : Tail) : Prop where
  ordered : ∀ name, Ordered Commit.time (s.log name)
  written : ∀ name, ∀ c ∈ s.log name, c.updates ≠ [] ∧ c.time < z.limit
  below : max origin s.quiet < z.limit
  chain : ∃ ms mark, Chain Commit.time (s.log ns.val) origin ms mark ∧ mark ≤ max origin s.quiet ∧
    List.Forall₂ (Received z fromTimestamp) ms s.events ∧
    ∀ conn, s.connection = some conn →
      conn.ns = ns.val ∧ InFlight z (s.log ns.val) mark (max origin s.quiet) conn

variable {z fromTimestamp ns start} {origin : ℕ} {s t : Tail}

theorem InFlight.nil {log : List Commit} {mark bound : ℕ} {name : String} (h : mark ≤ bound) :
    InFlight z log mark bound ⟨name,mark,true,⟨[]⟩⟩ :=
  ⟨[],mark,.nil mark,h,fun _ => rfl,[],rfl,Or.inl rfl⟩

theorem InFlight.concat {log : List Commit} {mark bound : ℕ} {conn : Connection} {c : Commit}
    (h : InFlight z log mark bound conn) (hc : c.time ≤ mark ∨ bound < c.time) :
    InFlight z (log ++ [c]) mark bound conn := by
  obtain ⟨ms,hi,hchain,hhi,hrest⟩ := h
  exact ⟨ms,hi,hchain.concat (by omega),hhi,hrest⟩

theorem InFlight.mono {log : List Commit} {mark bound bound' : ℕ} {conn : Connection}
    (h : InFlight z log mark bound conn) (hb : bound ≤ bound') : InFlight z log mark bound' conn := by
  obtain ⟨ms,hi,hchain,hhi,hrest⟩ := h
  exact ⟨ms,hi,hchain,Nat.le_trans hhi hb,hrest⟩

theorem commit_sound (hs : Sound z fromTimestamp ns origin s) {name : String} {time : ℕ}
    {updates : List Pb.Update} (h : s.commit z name time updates = some t) :
    Sound z fromTimestamp ns origin t := by
  obtain ⟨hordered,hwritten,hbelow,ms,mark,hchain,hmark,hreceived,hconn⟩ := hs
  obtain ⟨⟨hquiet,hlimit,hlater,hupdates⟩,h⟩ := Option.ite_none_right_eq_some.mp h
  obtain rfl := Option.some.inj h
  refine ⟨fun name' => ?_,fun name' c hc => ?_,hbelow,ms,mark,?_,hmark,hreceived,fun conn hc => ?_⟩
  · dsimp only
    by_cases hname : name' = name
    · subst hname
      rw [Function.update_self]
      exact (hordered name').concat hlater
    · rw [Function.update_of_ne hname]
      exact hordered name'
  · dsimp only at hc
    by_cases hname : name' = name
    · subst hname
      rw [Function.update_self] at hc
      rcases List.mem_append.mp hc with hc | hc
      · exact hwritten name' c hc
      · rw [List.mem_singleton.mp hc]
        exact ⟨hupdates,hlimit⟩
    · rw [Function.update_of_ne hname] at hc
      exact hwritten name' c hc
  · dsimp only
    by_cases hname : ns.val = name
    · rw [hname, Function.update_self, ← hname]
      exact hchain.concat (by dsimp only; omega)
    · rwa [Function.update_of_ne hname]
  · obtain ⟨hns,hflight⟩ := hconn conn hc
    refine ⟨hns,?_⟩
    dsimp only
    have hle := hchain.le
    by_cases hname : ns.val = name
    · rw [hname, Function.update_self, ← hname]
      exact hflight.concat (by dsimp only; omega)
    · rwa [Function.update_of_ne hname]

theorem Sound.dropped (hs : Sound z fromTimestamp ns origin s) :
    Sound z fromTimestamp ns origin { s with connection := none } := by
  obtain ⟨hordered,hwritten,hbelow,ms,mark,hchain,hmark,hreceived,-⟩ := hs
  exact ⟨hordered,hwritten,hbelow,ms,mark,hchain,hmark,hreceived,fun conn hconn => (by cases hconn)⟩

theorem advance_sound (hs : Sound z fromTimestamp ns origin s) {time : ℕ} (h : s.quiet ≤ time)
    (hlimit : time < z.limit) : Sound z fromTimestamp ns origin { s with quiet := time } := by
  obtain ⟨hordered,hwritten,hbelow,ms,mark,hchain,hmark,hreceived,hconn⟩ := hs
  refine ⟨hordered,hwritten, by dsimp only; omega, ms,mark,hchain, by dsimp only; omega, hreceived,fun conn hc => ?_⟩
  obtain ⟨hns,hflight⟩ := hconn conn hc
  exact ⟨hns,hflight.mono (by dsimp only; omega)⟩

theorem resumePoint_cons (event : WatchEvent) (events : List WatchEvent) :
    resumePoint start (event :: events) = resumePoint event.ts events := by
  unfold resumePoint
  rw [List.getLast?_cons]
  cases events.getLast? <;> rfl

theorem unpack_resumePoint (hz : z.Lawful) (hstart : z.unpack start.val = some origin) {log : List Commit}
    {ms : List (Message Commit)} {mark : ℕ} {events : List WatchEvent}
    (hchain : Chain Commit.time log origin ms mark) (hmark : mark < z.limit)
    (hreceived : List.Forall₂ (Received z fromTimestamp) ms events) :
    z.unpack (resumePoint start events).val = some mark := by
  induction hchain generalizing start events with
  | nil =>
    cases hreceived
    exact hstart
  | cons _ hms ih =>
    obtain _ | ⟨hm,hrest⟩ := hreceived
    rw [resumePoint_cons]
    refine ih ?_ hmark hrest
    rw [(watchEventFromPb_eq_ok.mp hm).1]
    exact hz.unpack_pack _ (Nat.lt_of_le_of_lt hms.le hmark)

theorem watch_sound (hz : z.Lawful) (hstart : z.unpack start.val = some origin)
    (hs : Sound z fromTimestamp ns origin s) {kept : ℕ} (h : s.watch z ns start kept = some t) :
    Sound z fromTimestamp ns origin t := by
  obtain ⟨hordered,hwritten,hbelow,ms,mark,hchain,hmark,hreceived,-⟩ := hs
  obtain ⟨-,h⟩ := Option.ite_none_right_eq_some.mp h
  obtain ⟨reached,hreached,rfl⟩ := Option.map_eq_some_iff.mp h
  rw [← List.take_append_drop kept ms] at hchain
  obtain ⟨mid,hfirst,hsecond⟩ := hchain.split
  have htaken := List.forall₂_take kept hreceived
  have hle : mid ≤ max origin s.quiet := Nat.le_trans hsecond.le hmark
  obtain rfl : mid = reached := Option.some.inj
    ((unpack_resumePoint hz hstart hfirst (Nat.lt_of_le_of_lt hle hbelow) htaken).symm.trans hreached)
  refine ⟨hordered,hwritten,hbelow,_,mid,hfirst,hle,htaken,fun conn hconn => ?_⟩
  obtain rfl := Option.some.inj hconn
  exact ⟨rfl,.nil hle⟩

theorem send_sound (hs : Sound z fromTimestamp ns origin s) {mark : ℕ} (h : s.send z mark = some t) :
    Sound z fromTimestamp ns origin t := by
  obtain ⟨hordered,hwritten,hbelow,ms,start,hchain,hstart,hreceived,hconn⟩ := hs
  obtain ⟨conn,hc,h⟩ := Option.bind_eq_some_iff.mp h
  obtain ⟨⟨hserving,hlo,hquiet,hone⟩,h⟩ := Option.ite_none_right_eq_some.mp h
  obtain rfl := Option.some.inj h
  refine ⟨hordered,hwritten,hbelow,ms,start,hchain,hstart,hreceived,fun conn' hc' => ?_⟩
  obtain rfl := Option.some.inj hc'
  obtain ⟨hns,sent,hi,hsent,hhi,hat,ending,hinner,hending⟩ := hconn conn hc
  obtain rfl := hat hserving
  have hnil : ending = [] := hending.resolve_right fun hend => by simp [hserving] at hend
  have hcomplete : (⟨mark,span Commit.time conn.mark mark (s.log conn.ns)⟩ : Message Commit).Complete
      Commit.time (s.log ns.val) conn.mark := by
    rw [← hns]
    exact ⟨hlo,rfl,hone⟩
  refine ⟨hns,_,mark,hsent.append (.cons hcomplete (.nil mark)), by dsimp only; omega, fun _ => rfl,[],?_,Or.inl rfl⟩
  simp [hinner, hnil]

theorem hangUp_sound (hs : Sound z fromTimestamp ns origin s) {arriving : ℕ} {status : Option Status}
    (h : s.hangUp arriving status = some t) : Sound z fromTimestamp ns origin t := by
  obtain ⟨hordered,hwritten,hbelow,ms,mark,hchain,hmark,hreceived,hconn⟩ := hs
  obtain ⟨conn,hc,h⟩ := Option.bind_eq_some_iff.mp h
  obtain ⟨hserving,h⟩ := Option.ite_none_right_eq_some.mp h
  obtain rfl := Option.some.inj h
  refine ⟨hordered,hwritten,hbelow,ms,mark,hchain,hmark,hreceived,fun conn' hc' => ?_⟩
  obtain rfl := Option.some.inj hc'
  obtain ⟨hns,sent,hi,hsent,hhi,-,ending,hinner,hending⟩ := hconn conn hc
  have hnil : ending = [] := hending.resolve_right fun hend => by simp [hserving] at hend
  rw [← List.take_append_drop arriving sent] at hsent
  obtain ⟨mid,hfirst,hsecond⟩ := hsent.split
  refine ⟨hns,_,mid,hfirst,Nat.le_trans hsecond.le hhi,fun h => (by cases h),
    (status.map Except.error).toList,?_,?_⟩
  · simp [hinner, hnil]
  · cases status with
    | none => exact Or.inl rfl
    | some status => exact Or.inr ⟨rfl,status,rfl⟩

theorem recv_eq (h : s.recv fromTimestamp = some t) : t = { s with connection := none } ∨
    ∃ conn resp rest event, s.connection = some conn ∧ conn.stream.inner = .ok resp :: rest ∧
      watchEventFromPb fromTimestamp resp = .ok event ∧
      t = { s with events := s.events ++ [event], connection := some { conn with stream := ⟨rest⟩ } } := by
  obtain ⟨conn,hc,h⟩ := Option.bind_eq_some_iff.mp h
  obtain ⟨name,mark,serving,⟨inner⟩⟩ := conn
  split at h
  · cases h
  · rcases inner with _ | ⟨status | resp,rest⟩
    · exact Or.inl (Option.some.inj h).symm
    · exact Or.inl (Option.some.inj h).symm
    · cases hevent : watchEventFromPb fromTimestamp resp with
      | error e =>
        simp only [WatchStream.recv, hevent, Except.map] at h
        exact Or.inl (Option.some.inj h).symm
      | ok event =>
        simp only [WatchStream.recv, hevent, Except.map] at h
        exact Or.inr ⟨_,resp,rest,event,hc,rfl,hevent,(Option.some.inj h).symm⟩

theorem recv_sound (hs : Sound z fromTimestamp ns origin s) (h : s.recv fromTimestamp = some t) :
    Sound z fromTimestamp ns origin t := by
  rcases recv_eq h with rfl | ⟨conn,resp,rest,event,hc,hfirst,hevent,rfl⟩
  · exact hs.dropped
  · obtain ⟨hordered,hwritten,hbelow,ms,mark,hchain,hmark,hreceived,hconn⟩ := hs
    obtain ⟨hns,sent,hi,hsent,hhi,hat,ending,hinner,hending⟩ := hconn conn hc
    rw [hfirst] at hinner
    cases hsent with
    | nil =>
      -- behind the last message there is an error or nothing
      rcases hending with rfl | ⟨-,status,rfl⟩ <;> cases hinner
    | @cons _ _ m sent hm hrest =>
      obtain ⟨hresp,htail⟩ := List.cons.inj hinner
      obtain rfl := Except.ok.inj hresp
      refine ⟨hordered,hwritten,hbelow,ms ++ [m],m.mark,hchain.append (.cons hm (.nil _)),
        Nat.le_trans hrest.le hhi,List.rel_append hreceived (.cons hevent .nil),fun conn' hc' => ?_⟩
      obtain rfl := Option.some.inj hc'
      exact ⟨hns,sent,hi,hrest,hhi,hat,ending,htail,hending⟩

theorem step_sound (hz : z.Lawful) (hstart : z.unpack start.val = some origin)
    (hs : Sound z fromTimestamp ns origin s) {a : Act} (h : step z fromTimestamp ns start s a = some t) :
    Sound z fromTimestamp ns origin t := by
  cases a with
  | commit name time updates => exact commit_sound hs h
  | advance time =>
    obtain ⟨⟨hquiet,hlimit⟩,h⟩ := Option.ite_none_right_eq_some.mp h
    obtain rfl := Option.some.inj h
    exact advance_sound hs hquiet hlimit
  | watch kept => exact watch_sound hz hstart hs h
  | send mark => exact send_sound hs h
  | hangUp arriving status => exact hangUp_sound hs h
  | recv => exact recv_sound hs h
  | drop =>
    obtain rfl := Option.some.inj h
    exact hs.dropped

theorem exec_sound (hz : z.Lawful) (hstart : z.unpack start.val = some origin)
    (hs : Sound z fromTimestamp ns origin s) {acts : List Act}
    (h : exec (step z fromTimestamp ns start) s acts = some t) : Sound z fromTimestamp ns origin t :=
  exec_invariant (fun _ _ _ hs => step_sound hz hstart hs) hs h

theorem run_sound (hz : z.Lawful) (hstart : z.unpack start.val = some origin) {acts : List Act}
    (h : Run z fromTimestamp ns start acts s) : Sound z fromTimestamp ns origin s := by
  refine exec_sound hz hstart ?_ h
  have hbelow : max origin 0 < z.limit := by simpa using hz.unpack_lt _ _ hstart
  exact ⟨fun _ => .nil,fun _ c hc => (by cases hc),hbelow,[],origin,.nil origin,Nat.le_max_left ..,.nil,
    fun conn hconn => (by cases hconn)⟩

def Carries (z : Zookies) (fromTimestamp : Int64 → Option ℤ) (c : Commit) (event : WatchEvent) : Prop :=
  event.ts = ⟨z.pack c.time⟩ ∧ List.Forall₂ (Delivers fromTimestamp) c.updates event.updates

def firstZookies : Zookies where
  limit := 4
  pack time := ["AQAAAAAAAA==","AQAAAAAAAQ==","AQAAAAAAAg==","AQAAAAAAAw=="].getD time ""
  unpack zookie := ["AQAAAAAAAA==","AQAAAAAAAQ==","AQAAAAAAAg==","AQAAAAAAAw=="].idxOf? zookie

theorem firstZookies_lawful : firstZookies.Lawful := by
  constructor
  · decide
  · intro zookie time h
    exact (List.findIdx?_eq_some_iff_getElem.mp h).1

def grant (obj : String) : Pb.Update := ⟨some ⟨"doc",obj,"viewer",some (.userId "u1"),none⟩,false⟩

/-- The second of two writes is sent twice, as the first stream breaks before it arrives. -/
def brokenTail : List Act :=
  [.commit "doc" 1 [grant "1"],.advance 1,.watch 0,.send 1,.recv,.commit "doc" 2 [grant "2"],.advance 2,
    .send 2,.hangUp 0 (some ⟨14,"unavailable"⟩),.recv,.watch 1,.send 2,.recv]

theorem received_event {log : List Commit} (hlog : ∀ c ∈ log, c.updates ≠ []) {m : Message Commit}
    {event : WatchEvent} (hm : Received z fromTimestamp m event) :
    (m.batch = [] → event.updates.isEmpty = true) ∧ ∀ c ∈ log, c.time = m.mark → m.batch = [c] →
      event.updates.isEmpty = false ∧ Carries z fromTimestamp c event := by
  obtain ⟨mark,batch⟩ := m
  obtain ⟨ts,updates⟩ := event
  obtain ⟨hts,hupdates⟩ := watchEventFromPb_eq_ok.mp hm
  constructor
  · rintro rfl
    cases hupdates
    rfl
  · rintro ⟨time,written⟩ hc rfl rfl
    have hcarried : List.Forall₂ (Delivers fromTimestamp) written updates := by
      simpa [response] using hupdates
    refine ⟨?_,hts,hcarried⟩
    cases hcarried with
    | nil => exact absurd rfl (hlog _ hc)
    | cons => rfl

theorem Sound.exactly_once (hz : z.Lawful) (hstart : z.unpack start.val = some origin)
    (hs : Sound z fromTimestamp ns origin s) (kept : ℕ) :
    ∃ mark, z.unpack (resumePoint start (s.events.take kept)).val = some mark ∧ origin ≤ mark ∧
      mark ≤ max origin s.quiet ∧
      List.Forall₂ (Carries z fromTimestamp) (span Commit.time origin mark (s.log ns.val))
        ((s.events.take kept).filter fun event => !event.updates.isEmpty) := by
  obtain ⟨hordered,hwritten,hbelow,ms,mark,hchain,hmark,hreceived,-⟩ := hs
  rw [← List.take_append_drop kept ms] at hchain
  obtain ⟨mid,hfirst,hsecond⟩ := hchain.split
  have htaken := List.forall₂_take kept hreceived
  have hle : mid ≤ max origin s.quiet := Nat.le_trans hsecond.le hmark
  refine ⟨mid,unpack_resumePoint hz hstart hfirst (Nat.lt_of_le_of_lt hle hbelow) htaken,hfirst.le,hle,?_⟩
  refine hfirst.deliveries (hordered ns.val) (htaken.imp fun m event hm => ?_)
  exact received_event (fun c hc => (hwritten ns.val c hc).1) hm

/-- However often the stream breaks and wherever the consumer resumes: at each event the
writes up to its zookie have been received, every one of them once, whole and in order. -/
theorem tail_exactly_once (hz : z.Lawful) (hstart : z.unpack start.val = some origin) {acts : List Act}
    (h : Run z fromTimestamp ns start acts s) (kept : ℕ) :
    ∃ mark, z.unpack (resumePoint start (s.events.take kept)).val = some mark ∧ origin ≤ mark ∧
      mark ≤ max origin s.quiet ∧
      List.Forall₂ (Carries z fromTimestamp) (span Commit.time origin mark (s.log ns.val))
        ((s.events.take kept).filter fun event => !event.updates.isEmpty) :=
  (run_sound hz hstart h).exactly_once hz hstart kept

theorem tail_exactly_once_broken : ∃ s, Run firstZookies chronoFromTimestamp ⟨"doc"⟩ .empty brokenTail s ∧
    s.events.length = 2 ∧ ∃ mark,
      firstZookies.unpack (resumePoint .empty (s.events.take 2)).val = some mark ∧ 0 ≤ mark ∧
      mark ≤ max 0 s.quiet ∧
      List.Forall₂ (Carries firstZookies chronoFromTimestamp) (span Commit.time 0 mark (s.log "doc"))
        ((s.events.take 2).filter fun event => !event.updates.isEmpty) := by
  have hrun : (exec (step firstZookies chronoFromTimestamp ⟨"doc"⟩ .empty) init brokenTail).map
      (fun s => s.events.length) = some 2 := by decide +kernel
  obtain ⟨s,h,hlength⟩ := Option.map_eq_some_iff.mp hrun
  exact ⟨s,h,hlength,tail_exactly_once firstZookies_lawful (by decide +kernel) h 2⟩

def Act.writes : Act → Bool
  | .commit .. => true
  | _ => false

theorem step_log {a : Act} (ha : a.writes = false) (h : step z fromTimestamp ns start s a = some t) :
    t.log = s.log := by
  cases a with
  | commit => cases ha
  | advance | watch =>
    obtain ⟨-,h⟩ := Option.ite_none_right_eq_some.mp h
    first
      | obtain rfl := Option.some.inj h; rfl
      | obtain ⟨mark,-,rfl⟩ := Option.map_eq_some_iff.mp h; rfl
  | send mark =>
    obtain ⟨conn,-,h⟩ := Option.bind_eq_some_iff.mp h
    obtain ⟨-,h⟩ := Option.ite_none_right_eq_some.mp h
    obtain rfl := Option.some.inj h
    rfl
  | hangUp arriving status =>
    obtain ⟨conn,-,h⟩ := Option.bind_eq_some_iff.mp h
    obtain ⟨-,h⟩ := Option.ite_none_right_eq_some.mp h
    obtain rfl := Option.some.inj h
    rfl
  | recv => rcases recv_eq h with rfl | ⟨-,-,-,-,-,-,-,rfl⟩ <;> rfl
  | drop =>
    obtain rfl := Option.some.inj h
    rfl

theorem exec_log {more : List Act} (hmore : ∀ a ∈ more, a.writes = false)
    (h : exec (step z fromTimestamp ns start) s more = some t) : t.log = s.log := by
  induction more generalizing s with
  | nil => cases h; rfl
  | cons a more ih =>
    obtain ⟨m,hm,ht⟩ := exec_cons_iff.mp h
    rw [ih (fun b hb => hmore b (List.mem_cons_of_mem _ hb)) ht, step_log (hmore a (by simp)) hm]

theorem deliver_next {mark : ℕ} {c : Commit} (hconn : s.connection = some ⟨ns.val,mark,true,⟨[]⟩⟩)
    (hnext : span Commit.time mark c.time (s.log ns.val) = [c]) (hmark : mark ≤ c.time)
    (hquiet : c.time ≤ s.quiet) (hmap : ∀ u ∈ c.updates, u.Mappable fromTimestamp) :
    ∃ event, Carries z fromTimestamp c event ∧
      exec (step z fromTimestamp ns start) s [.send c.time,.recv] =
        some { s with
          events := s.events ++ [event]
          connection := some ⟨ns.val,c.time,true,⟨[]⟩⟩ } := by
  obtain ⟨event,hevent⟩ : ∃ event, watchEventFromPb fromTimestamp (response z ⟨c.time,[c]⟩) = .ok event := by
    refine (watchEventFromPb_ok _).mpr fun u hu => hmap u ?_
    simpa [response] using hu
  have hcarried := watchEventFromPb_eq_ok.mp hevent
  refine ⟨event,⟨hcarried.1, by simpa [response] using hcarried.2⟩,?_⟩
  have hsend : s.send z c.time = some { s with
      connection := some ⟨ns.val,c.time,true,⟨[.ok (response z ⟨c.time,[c]⟩)]⟩⟩ } := by
    rw [send, hconn, Option.bind_eq_bind, Option.bind_some]
    dsimp only
    rw [hnext, if_pos ⟨rfl,hmark,hquiet, by simp⟩]
    rfl
  simp [exec, step, hsend, recv, WatchStream.recv, hevent, Except.map]

theorem span_next {log : List Commit} (hlog : Ordered Commit.time log) {mark hi : ℕ} {d : Commit}
    {rest : List Commit} (h : span Commit.time mark hi log = d :: rest) :
    span Commit.time mark d.time log = [d] := by
  have hd : d ∈ span Commit.time mark hi log := h ▸ List.mem_cons_self ..
  obtain ⟨-,hlo,hhi⟩ := mem_span.mp hd
  have hsorted : Ordered Commit.time (d :: rest) := h ▸ hlog.filter _
  have hsplit := span_append hlog (Nat.le_of_lt hlo) hhi
  rw [h] at hsplit
  rcases hfirst : span Commit.time mark d.time log with _ | ⟨e,_ | ⟨f,more⟩⟩
  · have hmem : d ∈ span Commit.time mark d.time log := mem_span.mpr ⟨(mem_span.mp hd).1,hlo,Nat.le_refl _⟩
    simp [hfirst] at hmem
  · rw [hfirst] at hsplit
    rw [(List.cons.inj hsplit).1]
  · -- a second one would be later than `d`
    have hf : f ∈ span Commit.time mark d.time log := by simp [hfirst]
    rw [hfirst] at hsplit
    have hrest : f ∈ rest := by
      rw [← (List.cons.inj hsplit).2]
      simp
    have hlt := (List.pairwise_cons.mp hsorted).1 f hrest
    have hle := (mem_span.mp hf).2.2
    omega

theorem catch_up {mark : ℕ} {c : Commit} (hlog : Ordered Commit.time (s.log ns.val))
    (hconn : s.connection = some ⟨ns.val,mark,true,⟨[]⟩⟩) (hc : c ∈ s.log ns.val) (hmark : mark < c.time)
    (hquiet : c.time ≤ s.quiet)
    (hmap : ∀ d ∈ span Commit.time mark c.time (s.log ns.val), ∀ u ∈ d.updates, u.Mappable fromTimestamp) :
    ∃ more t, (∀ a ∈ more, a.writes = false) ∧ exec (step z fromTimestamp ns start) s more = some t ∧
      ∃ event ∈ t.events, Carries z fromTimestamp c event := by
  induction hgap : c.time - mark using Nat.strongRecOn generalizing s mark with
  | ind gap ih =>
    have hspan : c ∈ span Commit.time mark c.time (s.log ns.val) := mem_span.mpr ⟨hc,hmark,Nat.le_refl _⟩
    rcases hnext : span Commit.time mark c.time (s.log ns.val) with _ | ⟨d,rest⟩
    · simp [hnext] at hspan
    have hd : d ∈ span Commit.time mark c.time (s.log ns.val) := hnext ▸ List.mem_cons_self ..
    obtain ⟨-,hlo,hhi⟩ := mem_span.mp hd
    have hdeliver : ∃ event, Carries z fromTimestamp d event ∧
        exec (step z fromTimestamp ns start) s [.send d.time,.recv] = some { s with
          events := s.events ++ [event]
          connection := some ⟨ns.val,d.time,true,⟨[]⟩⟩ } :=
      deliver_next hconn (span_next hlog hnext) (Nat.le_of_lt hlo) (Nat.le_trans hhi hquiet) (hmap d hd)
    obtain ⟨event,hcarries,hexec⟩ := hdeliver
    by_cases hlast : d.time = c.time
    · -- the write itself is next
      have hone : span Commit.time mark d.time (s.log ns.val) = [d] := span_next hlog hnext
      rw [hlast, hnext] at hone
      obtain rfl : c = d := by simpa [hnext, hone] using hspan
      exact ⟨_,_, by simp [Act.writes], hexec,event, by simp, hcarries⟩
    · have hlt : d.time < c.time := Nat.lt_of_le_of_ne hhi hlast
      have hlater : ∀ e ∈ span Commit.time d.time c.time (s.log ns.val), ∀ u ∈ e.updates,
          u.Mappable fromTimestamp := by
        intro e he
        obtain ⟨hlogged,hde,hec⟩ := mem_span.mp he
        exact hmap e (mem_span.mpr ⟨hlogged,Nat.lt_trans hlo hde,hec⟩)
      obtain ⟨more,t,hmore,ht,hdelivered⟩ := ih (c.time - d.time) (by omega)
        (s := { s with events := s.events ++ [event], connection := some ⟨ns.val,d.time,true,⟨[]⟩⟩ })
        hlog rfl hc hlt hquiet hlater rfl
      refine ⟨[.send d.time,.recv] ++ more,t,fun a ha => ?_,exec_append_iff.mpr ⟨_,hexec,ht⟩,hdelivered⟩
      rcases List.mem_append.mp ha with ha | ha
      · rcases List.mem_pair.mp ha with rfl | rfl <;> rfl
      · exact hmore a ha

theorem mappable_of_delivers {us : List Pb.Update} {ws : List WatchUpdate}
    (h : List.Forall₂ (Delivers fromTimestamp) us ws) : ∀ u ∈ us, u.Mappable fromTimestamp :=
  fun u hu => delivers_iff.mp (Traversal.exists_forall₂.mp ⟨ws,h⟩ u hu)

theorem mappable_of_carries (hz : z.Lawful) (hstart : z.unpack start.val = some origin)
    (hs : Sound z fromTimestamp ns origin s) {c : Commit} {event : WatchEvent} (hevent : event ∈ s.events)
    (hlimit : c.time < z.limit) (hcarries : Carries z fromTimestamp c event) :
    ∀ d ∈ span Commit.time origin c.time (s.log ns.val), ∀ u ∈ d.updates, u.Mappable fromTimestamp := by
  obtain ⟨front,back,hsplit⟩ := List.append_of_mem hevent
  obtain ⟨mark,hmark,-,-,hall⟩ := hs.exactly_once hz hstart (front.length + 1)
  have htake : s.events.take (front.length + 1) = front ++ [event] := by
    rw [hsplit, List.append_cons]
    exact List.take_left' (by simp)
  rw [htake, resumePoint, List.getLast?_append, List.getLast?_singleton, Option.some_or, Option.map_some,
    Option.getD_some, hcarries.1, hz.unpack_pack _ hlimit] at hmark
  obtain rfl := Option.some.inj hmark
  intro d hd
  obtain ⟨event',-,hd'⟩ := exists_delivery hall hd
  exact mappable_of_delivers hd'.2

theorem Sound.delivers_iff (hz : z.Lawful) (hstart : z.unpack start.val = some origin)
    (hs : Sound z fromTimestamp ns origin s) {c : Commit} (hc : c ∈ s.log ns.val) (horigin : origin < c.time) :
    (∃ more t, (∀ a ∈ more, a.writes = false) ∧ exec (step z fromTimestamp ns start) s more = some t ∧
      ∃ event ∈ t.events, Carries z fromTimestamp c event) ↔
    ∀ d ∈ s.log ns.val, origin < d.time → d.time ≤ c.time → ∀ u ∈ d.updates, u.Mappable fromTimestamp := by
  have hlimit := (hs.written ns.val c hc).2
  constructor
  · rintro ⟨more,t,hmore,ht,event,hevent,hcarries⟩ d hd hlo hhi
    have hmap := mappable_of_carries hz hstart (exec_sound hz hstart hs ht) hevent hlimit hcarries
    rw [exec_log hmore ht] at hmap
    exact hmap d (mem_span.mpr ⟨hd,hlo,hhi⟩)
  · intro hmap
    obtain ⟨mark,hmark,hlo,-,hall⟩ := hs.exactly_once hz hstart s.events.length
    by_cases hgot : c.time ≤ mark
    · obtain ⟨event,hevent,hcarries⟩ := exists_delivery hall (mem_span.mpr ⟨hc,horigin,hgot⟩)
      have hmem := List.mem_of_mem_take (List.mem_of_mem_filter hevent)
      exact ⟨[],s, by simp, rfl,event,hmem,hcarries⟩
    · -- the consumer leaves the stream it may have, and opens one from where it has got to
      let u : Tail := { s with
        quiet := max s.quiet c.time
        connection := some ⟨ns.val,mark,true,⟨[]⟩⟩ }
      have hopen : exec (step z fromTimestamp ns start) s
          [.drop,.advance (max s.quiet c.time),.watch s.events.length] = some u := by
        rw [List.take_length] at hmark
        have hquiet : s.quiet ≤ max s.quiet c.time ∧ max s.quiet c.time < z.limit := by
          have := hs.below
          omega
        simp only [exec, step, Option.bind_some, if_pos hquiet]
        simp [Tail.watch, watchRequest, hmark, u]
      have hbehind : ∀ d ∈ span Commit.time mark c.time (s.log ns.val), ∀ v ∈ d.updates,
          v.Mappable fromTimestamp := by
        intro d hd
        obtain ⟨hlogged,hmark,hhi⟩ := mem_span.mp hd
        exact hmap d hlogged (Nat.lt_of_le_of_lt hlo hmark) hhi
      obtain ⟨more,t,hmore,ht,hdelivered⟩ := catch_up (s := u) (hs.ordered ns.val) rfl hc (by omega)
        (Nat.le_max_right ..) hbehind
      refine ⟨_,t,fun a ha => ?_,exec_append_iff.mpr ⟨u,hopen,ht⟩,hdelivered⟩
      rcases List.mem_append.mp ha with ha | ha
      · simp only [List.mem_cons, List.not_mem_nil, or_false] at ha
        rcases ha with rfl | rfl | rfl <;> rfl
      · exact hmore a ha

/-- From every state which a run can reach, however broken, a write behind the start can
still be delivered, or has been, exactly when the client can map it and all before it. -/
theorem tail_delivers_iff (hz : z.Lawful) (hstart : z.unpack start.val = some origin) {acts : List Act}
    (h : Run z fromTimestamp ns start acts s) {c : Commit} (hc : c ∈ s.log ns.val) (horigin : origin < c.time) :
    (∃ more t, (∀ a ∈ more, a.writes = false) ∧ exec (step z fromTimestamp ns start) s more = some t ∧
      ∃ event ∈ t.events, Carries z fromTimestamp c event) ↔
    ∀ d ∈ s.log ns.val, origin < d.time → d.time ≤ c.time → ∀ u ∈ d.updates, u.Mappable fromTimestamp :=
  (run_sound hz hstart h).delivers_iff hz hstart hc horigin

theorem tail_delivers_iff_cutOff : ∃ s,
    Run firstZookies chronoFromTimestamp ⟨"doc"⟩ .empty (brokenTail.take 9) s ∧
    ((∃ more t, (∀ a ∈ more, a.writes = false) ∧
        exec (step firstZookies chronoFromTimestamp ⟨"doc"⟩ .empty) s more = some t ∧
        ∃ event ∈ t.events, Carries firstZookies chronoFromTimestamp ⟨2,[grant "2"]⟩ event) ↔
      ∀ d ∈ s.log "doc", 0 < d.time → d.time ≤ 2 → ∀ u ∈ d.updates, u.Mappable chronoFromTimestamp) := by
  have hrun : (exec (step firstZookies chronoFromTimestamp ⟨"doc"⟩ .empty) init (brokenTail.take 9)).map
      (fun s => s.log "doc") = some [⟨1,[grant "1"]⟩,⟨2,[grant "2"]⟩] := by decide +kernel
  obtain ⟨s,h,hlog⟩ := Option.map_eq_some_iff.mp hrun
  exact ⟨s,h,tail_delivers_iff firstZookies_lawful (by decide +kernel) h (by simp [hlog]) (by decide)⟩

def changes (name : String) (request : Pb.WriteRequest) : List Pb.Update :=
  (request.addTuples.filter (·.ns = name)).map (⟨some ·,false⟩) ++
    (request.delTuples.filter (·.ns = name)).map (⟨some ·,true⟩)

/-- What a watcher of the namespace is to see of a write. -/
def seen (name : Namespace) (add del : List Tuple) : List WatchUpdate :=
  (add.filter (·.ns = name)).map (⟨·.floored,false⟩) ++ (del.filter (·.ns = name)).map (⟨·.floored,true⟩)

variable {Representable : ℤ → Prop} {timestamp : ℤ → Int64} {add del : List Tuple}

/-- The server logs under `name` what some write of the client has changed there, in any order. -/
def Written (Representable : ℤ → Prop) (timestamp : ℤ → Int64) (name : Namespace) (add del : List Tuple)
    (updates : List Pb.Update) : Prop :=
  (∀ tuple ∈ add ++ del, tuple.Dated Representable) ∧
    ∃ precondition, updates.Perm (changes name.val (writeRequest timestamp add del precondition))

theorem delivers_written (hc : Chrono Representable timestamp fromTimestamp) (deleted : Bool)
    {tuples : List Tuple} (h : ∀ tuple ∈ tuples, tuple.Dated Representable) :
    List.Forall₂ (Delivers fromTimestamp)
      (((tuples.map (tupleToPb timestamp)).filter (·.ns = ns.val)).map (⟨some ·,deleted⟩))
      ((tuples.filter (·.ns = ns)).map (⟨·.floored,deleted⟩)) := by
  induction tuples with
  | nil => exact .nil
  | cons tuple tuples ih =>
    have hrest := ih fun t ht => h t (List.mem_cons_of_mem _ ht)
    have hns : (tupleToPb timestamp tuple).ns = ns.val ↔ tuple.ns = ns := by
      cases tuple with
      | mk name => cases name; cases ns; simp [tupleToPb]
    rw [List.map_cons, List.filter_cons, List.filter_cons]
    simp only [hns]
    split
    · exact .cons ⟨_,rfl,tupleFromPb_toPb hc (h tuple (by simp)),rfl⟩ hrest
    · exact hrest

theorem delivers_changes (hc : Chrono Representable timestamp fromTimestamp)
    (h : ∀ tuple ∈ add ++ del, tuple.Dated Representable) (precondition : Option Timestamp) :
    List.Forall₂ (Delivers fromTimestamp) (changes ns.val (writeRequest timestamp add del precondition))
      (seen ns add del) :=
  List.rel_append (delivers_written hc false fun t ht => h t (List.mem_append_left _ ht))
    (delivers_written hc true fun t ht => h t (List.mem_append_right _ ht))

theorem delivers_unique : Relator.RightUnique (Delivers fromTimestamp) := by
  rintro u ⟨t,deleted⟩ ⟨t',deleted'⟩ ⟨tup,htup,hok,rfl⟩ ⟨tup',htup',hok',rfl⟩
  obtain rfl := Option.some.inj (htup.symm.trans htup')
  obtain rfl := Except.ok.inj (hok.symm.trans hok')
  rfl

theorem run_log {acts : List Act} (h : Run z fromTimestamp ns start acts s) {name : String} {c : Commit}
    (hc : c ∈ s.log name) : .commit name c.time c.updates ∈ acts := by
  refine exec_induction (motive := fun acts s => ∀ c ∈ s.log name, .commit name c.time c.updates ∈ acts)
    (fun _ hc => (by cases hc)) (fun acts s a t _ ih hs c hc => ?_) h c hc
  cases a with
  | commit name' time updates =>
    obtain ⟨-,hs⟩ := Option.ite_none_right_eq_some.mp hs
    obtain rfl := Option.some.inj hs
    dsimp only at hc
    by_cases hname : name = name'
    · subst hname
      rw [Function.update_self] at hc
      rcases List.mem_append.mp hc with hc | hc
      · exact List.mem_append_left _ (ih c hc)
      · rw [List.mem_singleton.mp hc]
        simp
    · rw [Function.update_of_ne hname] at hc
      exact List.mem_append_left _ (ih c hc)
  | _ =>
    rw [step_log rfl hs] at hc
    exact List.mem_append_left _ (ih c hc)

/-- Where all writes to the namespace are made by this client, every one of them can still
reach the watcher from every state; and once it has, the watcher holds its tuples, rounded
down to the second, and no others. -/
theorem tail_of_writes (hc : Chrono Representable timestamp fromTimestamp) (hz : z.Lawful)
    (hstart : z.unpack start.val = some origin) {acts : List Act} (h : Run z fromTimestamp ns start acts s)
    (hwrites : ∀ time updates, .commit ns.val time updates ∈ acts →
      ∃ add del, Written Representable timestamp ns add del updates) :
    ∀ c ∈ s.log ns.val, origin < c.time →
      (∃ more t, (∀ a ∈ more, a.writes = false) ∧ exec (step z fromTimestamp ns start) s more = some t ∧
        ∃ event ∈ t.events, Carries z fromTimestamp c event) ∧
      ∀ event, Carries z fromTimestamp c event → ∀ add del,
        Written Representable timestamp ns add del c.updates → event.updates.Perm (seen ns add del) := by
  intro c hcommit horigin
  constructor
  · refine ((run_sound hz hstart h).delivers_iff hz hstart hcommit horigin).mpr fun d hd _ _ u hu => ?_
    obtain ⟨add,del,hdated,precondition,hperm⟩ := hwrites _ _ (run_log h hd)
    exact mappable_of_delivers (delivers_changes hc hdated precondition) u (hperm.mem_iff.mp hu)
  · rintro event ⟨-,hcarried⟩ add del ⟨hdated,precondition,hperm⟩
    have hall : List.Forall₂ (Delivers fromTimestamp) _ (seen ns add del) :=
      delivers_changes hc hdated precondition
    exact List.rel_perm_imp delivers_unique hcarried hall hperm

theorem tail_of_writes_broken : ∃ s, Run firstZookies chronoFromTimestamp ⟨"doc"⟩ .empty brokenTail s ∧
    ∀ c ∈ s.log "doc", 0 < c.time →
      (∃ more t, (∀ a ∈ more, a.writes = false) ∧
        exec (step firstZookies chronoFromTimestamp ⟨"doc"⟩ .empty) s more = some t ∧
        ∃ event ∈ t.events, Carries firstZookies chronoFromTimestamp c event) ∧
      ∀ event, Carries firstZookies chronoFromTimestamp c event → ∀ add del,
        Written InChrono chronoTimestamp ⟨"doc"⟩ add del c.updates →
        event.updates.Perm (seen ⟨"doc"⟩ add del) := by
  have hrun : (exec (step firstZookies chronoFromTimestamp ⟨"doc"⟩ .empty) init brokenTail).isSome := by
    decide +kernel
  obtain ⟨s,h⟩ := Option.isSome_iff_exists.mp hrun
  refine ⟨s,h,tail_of_writes chrono firstZookies_lawful (by decide +kernel) h fun time updates hmem => ?_⟩
  have hgrant (obj : String) : Written InChrono chronoTimestamp ⟨"doc"⟩
      [⟨⟨"doc"⟩,⟨obj⟩,⟨"viewer"⟩,.userId "u1",none⟩] [] [grant obj] :=
    ⟨by simp [Tuple.Dated],none, by simp [changes, writeRequest, tupleToPb, userToPb, grant]⟩
  simp only [brokenTail, List.mem_cons, Act.commit.injEq, reduceCtorEq, false_or, List.not_mem_nil, or_false] at hmem
  rcases hmem with ⟨-,-,rfl⟩ | ⟨-,-,rfl⟩
  · exact ⟨_,_,hgrant "1"⟩
  · exact ⟨_,_,hgrant "2"⟩

end Tail
end NioClient.Check
