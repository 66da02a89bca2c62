import NioClient.Library.Budget
import NioClient.Session.Work
import NioClient.Webapp.Entitlement

/-! # Every request comes to an end

A request waits for nothing but the replies to its calls, of which there are few. The reply
to an RPC has no time limit, and that of `resolve` can stay away if a fetch has panicked.
-/
namespace NioClient.Webapp
open Environment Execution Axum Check Session
variable {H E : Type} {site : Site H E} {b : Backend} {s t : State H} {a : Action H} {acts : List (Action H)}

def Stage.caller? : Stage → Option ℕ
  | .resolving c _ _ => some c
  | _ => none

/-- No two requests await one caller, and nobody drops a caller that a request awaits. -/
structure Owned (s : State H) : Prop where
  caller : ∀ (r : ℕ) (x : Request H) (c : ℕ), s.requests[r]? = some x → x.stage.caller? = some c →
    ∃ y, s.resolver.callers[c]? = some y ∧ y.phase ≠ .cancelled
  alone : ∀ (r r' : ℕ) (x x' : Request H) (c : ℕ), s.requests[r]? = some x → s.requests[r']? = some x' →
    x.stage.caller? = some c → x'.stage.caller? = some c → r = r'

theorem caller_set {r r' c : ℕ} {x y : Request H} {requests : List (Request H)} (hx : x.stage.caller? = none)
    (hy : (requests.set r x)[r']? = some y) (hc : y.stage.caller? = some c) : requests[r']? = some y := by
  by_cases hr : r = r'
  · subst hr
    obtain ⟨hlt,hget⟩ := List.getElem?_eq_some_iff.mp hy
    rw [List.getElem_set_self] at hget
    rw [← hget, hx] at hc
    cases hc
  · rwa [List.getElem?_set_ne hr] at hy

theorem step_awaits (h : step site s a = some t) {r c : ℕ} {y : Request H} (hy : t.requests[r]? = some y)
    (hc : y.stage.caller? = some c) : s.requests[r]? = some y ∨ c = s.resolver.callers.length ∧
      (∃ wall, a = .resolve r wall) ∧ ∃ z, t.resolver.callers[c]? = some z ∧ z.phase = .started := by
  cases step_effect h with
  | arrive =>
    left
    by_cases hlt : r < s.requests.length
    · exact (List.getElem?_append_left hlt).symm.trans hy
    · obtain rfl := List.mem_singleton.mp
        (List.mem_of_getElem? ((List.getElem?_append_right (Nat.not_lt.mp hlt)).symm.trans hy))
      cases hc
  | @resolve r' wall x hash next resolver hx hstage hstep =>
    by_cases hr : r' = r
    · subst hr
      obtain ⟨hlt,hget⟩ := List.getElem?_eq_some_iff.mp hy
      simp only [State.setStage, State.moved, List.getElem_set_self] at hget
      subst hget
      cases hc
      cases hstep
      exact Or.inr ⟨rfl,⟨wall,rfl⟩,_,List.getElem?_concat_length,rfl⟩
    · exact Or.inl ((List.getElem?_set_ne hr).symm.trans hy)
  | answered | panicked | rpc | createSession | removeSession | evict | drop | cancel =>
    exact Or.inl (caller_set rfl hy hc)
  | serve | fetchReturns | resolver => exact Or.inl hy

theorem step_dropped (h : step site s a = some t) {c : ℕ} {z : Caller} (hz : t.resolver.callers[c]? = some z)
    (hcancelled : z.phase = .cancelled) : s.resolver.callers[c]? = some z ∨
      ∃ (r : ℕ) (x : Request H), s.requests[r]? = some x ∧ x.stage.caller? = some c ∧
        ∀ y : Request H, t.requests[r]? = some y → y.stage.caller? = none := by
  cases step_effect h with
  | @cancel r x d hash next resolver hx hstage hstep =>
    by_cases hd : d = c
    · subst hd
      refine Or.inr ⟨r,x,hx, by rw [hstage]; rfl, fun y hy => ?_⟩
      obtain ⟨hlt,hget⟩ := List.getElem?_eq_some_iff.mp hy
      simp only [State.setStage, State.moved, List.getElem_set_self] at hget
      rw [← hget]
      rfl
    · exact Or.inl (step_cancelled hstep hz hcancelled fun ha => hd (Act.cancel.inj ha))
  | resolve hx hstage hstep => exact Or.inl (step_cancelled hstep hz hcancelled fun ha => by cases ha)
  | evict hx hstage hstep => exact Or.inl (step_cancelled hstep hz hcancelled fun ha => by cases ha)
  | fetchReturns hf hn hreply hstep => exact Or.inl (step_cancelled hstep hz hcancelled fun ha => by cases ha)
  | resolver ha hstep =>
    refine Or.inl (step_cancelled hstep hz hcancelled fun hcancel => ?_)
    rw [hcancel] at ha
    cases ha
  | _ => exact Or.inl hz

theorem owned_init : Owned (init site b) where
  caller r x c hx := by cases hx
  alone r r' x x' c hx := by cases hx

protected theorem Owned.step (hs : Owned s) (h : step site s a = some t) : Owned t := by
  constructor
  · intro r y c hy hc
    rcases step_awaits h hy hc with hold | ⟨-,-,z,hz,hstarted⟩
    · obtain ⟨z,hz,hlive⟩ := hs.caller r y c hold hc
      obtain ⟨z',hz',-⟩ := (step_later h).callers c z hz
      refine ⟨z',hz',fun hcancelled => ?_⟩
      rcases step_dropped h hz' hcancelled with hsame | ⟨r',x,hx,hxc,hgone⟩
      · cases hz.symm.trans hsame
        exact hlive hcancelled
      · obtain rfl := hs.alone r r' y x c hold hx hc hxc
        cases hc.symm.trans (hgone y hy)
    · exact ⟨z,hz, by rw [hstarted]; nofun⟩
  · intro r r' y y' c hy hy' hc hc'
    have hfresh {r : ℕ} {x : Request H} (hx : s.requests[r]? = some x) (hxc : x.stage.caller? = some c) :
        c ≠ s.resolver.callers.length := by
      obtain ⟨z,hz,-⟩ := hs.caller r x c hx hxc
      exact ((List.getElem?_eq_some_iff.mp hz).1).ne
    rcases step_awaits h hy hc with hold | ⟨hnew,⟨wall,ha⟩,-⟩ <;>
      rcases step_awaits h hy' hc' with hold' | ⟨hnew',⟨wall',ha'⟩,-⟩
    · exact hs.alone r r' y y' c hold hold' hc hc'
    · exact absurd hnew' (hfresh hold hc)
    · exact absurd hnew (hfresh hold' hc')
    · cases ha.symm.trans ha'
      rfl

theorem run_owned (h : exec (step site) (init site b) acts = some s) : Owned s :=
  exec_invariant (I := Owned) (fun _ _ _ hs h => hs.step h) owned_init h

/-- The steps which the handlers and the resolver's tasks take by themselves. -/
def Action.own : Action H → Bool
  | .resolve .. | .answered _ | .createSession .. | .removeSession _ | .evict _ => true
  | .resolver a => a.own
  | .arrive .. | .drop _ | .rpc .. | .serve .. | .fetchReturns .. => false

/-- The step is possible, and a handler or a task of the resolver is awake to take it. -/
structure Due (site : Site H E) (s : State H) (a : Action H) : Prop where
  own : a.own
  possible : (step site s a).isSome
  awake : ∀ act, a = .resolver act → Session.Due site.cfg s.resolver act

def Stage.ended : Stage → Bool
  | .running (.pure _) | .dropped | .panicked => true
  | _ => false

/-- The request waits for the reply to an RPC, for which the client sets no time limit. -/
def Stage.awaitsRpc : Stage → Bool
  | .running (.call (.extractor (.rpc _)) _) => true
  | _ => false

/-- The request awaits a caller of the resolver which waits for a fill whose fetch panicked. -/
def State.Stranded (s : State H) (x : Request H) : Prop :=
  ∃ c y, x.stage.caller? = some c ∧ s.resolver.callers[c]? = some y ∧ s.resolver.Stranded y

def State.later (s : State H) (d : ℕ) : State H := { s with resolver := s.resolver.later d }

/-- The resolver is at rest, and all requests have their response, or were dropped or poisoned, or
wait for an RPC or for a fetch that panicked. -/
structure AtRest (s : State H) : Prop where
  resolver : Settled s.resolver
  requests : ∀ x ∈ s.requests, x.stage.ended ∨ x.stage.awaitsRpc ∨ s.Stranded x

theorem internal_of_own {act : Act} (h : act.own) : internal act := by
  cases act <;> first | rfl | cases h

theorem due_of_possible (ha : a.own) (hnot : ∀ act, a ≠ .resolver act) (h : (step site s a).isSome) :
    Due site s a :=
  ⟨ha,h,fun act hact => absurd hact (hnot act)⟩

theorem handler_due (site : Site H E) {r : ℕ} {x : Request H} {call : AppCall}
    {next : call.Reply → App (Response Body)} (hx : s.requests[r]? = some x)
    (hstage : x.stage = .running (.call call next)) (hrpc : x.stage.awaitsRpc = false) : ∃ a, Due site s a := by
  cases call with
  | extractor call =>
    cases call with
    | resolve hash =>
      exact ⟨.resolve r 0,due_of_possible rfl (by simp)
        (by simp [step, State.resolve, hx, hstage, State.act, Session.step])⟩
    | rpc rpc => simp [hstage, Stage.awaitsRpc] at hrpc
  | createSession principal =>
    exact ⟨.createSession r (.replicate 32 0) 0,due_of_possible rfl (by simp)
      (by simp [step, State.createSession, hx, hstage])⟩
  | removeSession hash =>
    exact ⟨.removeSession r,due_of_possible rfl (by simp) (by simp [step, State.removeSession, hx, hstage])⟩
  | evict hash =>
    exact ⟨.evict r,due_of_possible rfl (by simp)
      (by simp [step, State.evict, hx, hstage, State.act, Session.step])⟩

theorem answer_due (site : Site H E) {r c : ℕ} {x : Request H} {hash : TokenHash}
    {next : ResolveResult → App (Response Body)} {y : Caller} (hx : s.requests[r]? = some x)
    (hstage : x.stage = .resolving c hash next) (hy : s.resolver.callers[c]? = some y) (hended : y.phase.ended)
    (hlive : y.phase ≠ .cancelled) : Due site s (.answered r) := by
  refine due_of_possible rfl (by simp) ?_
  cases hp : y.phase with
  | answered answer source => simp [step, State.answered, hx, hstage, hy, hp]
  | panicked => simp [step, State.answered, hx, hstage, hy, hp]
  | cancelled => exact absurd hp hlive
  | _ => simp [hp, CallerPhase.ended] at hended

theorem ended_not_stranded {resolver : Session.State} {y : Caller} (hended : y.phase.ended) :
    ¬ resolver.Stranded y := by
  rintro ⟨f,stale,fill,n,hp,-⟩
  rw [hp] at hended
  cases hended

theorem AtRest.not_due (hs : AtRest s) (d : ℕ) : ¬ Due site (s.later d) a := by
  rintro ⟨ha,hpossible,hawake⟩
  obtain ⟨t,hstep⟩ := Option.isSome_iff_exists.mp hpossible
  -- a request with a step other than an answer has ended, or waits for an RPC
  have hrest {r : ℕ} {x : Request H} (hx : (s.later d).requests[r]? = some x) (hcaller : x.stage.caller? = none) :
      x.stage.ended ∨ x.stage.awaitsRpc := by
    rcases hs.requests x (List.mem_of_getElem? hx) with hended | hrpc | ⟨c,y,hc,-⟩
    · exact Or.inl hended
    · exact Or.inr hrpc
    · cases hcaller.symm.trans hc
  have hanswer {r c : ℕ} {x : Request H} {hash : TokenHash} {next : ResolveResult → App (Response Body)} {y : Caller}
      (hx : (s.later d).requests[r]? = some x) (hstage : x.stage = .resolving c hash next)
      (hy : s.resolver.callers[c]? = some y) (hended : y.phase.ended) : False := by
    rcases hs.requests x (List.mem_of_getElem? hx) with hover | hrpc | ⟨c',y',hc,hy',hstranded⟩
    · rw [hstage] at hover
      cases hover
    · rw [hstage] at hrpc
      cases hrpc
    · rw [hstage] at hc
      cases hc
      cases hy.symm.trans hy'
      exact ended_not_stranded hended hstranded
  cases step_effect hstep with
  | resolve hx hstage | createSession hx hstage | removeSession hx hstage | evict hx hstage =>
    have hover := hrest hx (by rw [hstage]; rfl)
    rw [hstage] at hover
    rcases hover with hended | hrpc
    · cases hended
    · cases hrpc
  | answered hx hstage hy hphase => exact hanswer hx hstage hy (by rw [hphase]; rfl)
  | panicked hx hstage hy hphase => exact hanswer hx hstage hy (by rw [hphase]; rfl)
  | resolver => exact hs.resolver.not_due d (hawake _ rfl)
  | rpc | arrive | drop | cancel | serve | fetchReturns => cases ha

theorem run_resolver (h : exec (step site) (init site b) acts = some s) :
    Session.Run site.cfg s.acts s.resolver :=
  exec_invariant (I := fun s => Session.Run site.cfg s.acts s.resolver) (fun _ _ _ hrun h => step_run h hrun) rfl h

theorem atRest_of_quiet (h : exec (step site) (init site b) acts = some s)
    (hquiet : ∀ a, ¬ Due site (s.later RESOLVE_TIMEOUT) a) : AtRest s := by
  have hrun : Session.Run site.cfg s.acts s.resolver := run_resolver h
  have hsettled : Settled s.resolver := by
    refine settled_of_quiet hrun fun act hdue => hquiet (.resolver act) ⟨hdue.own,?_,fun _ heq => ?_⟩
    · simp only [step, internal_of_own hdue.own, if_true, State.act, Option.isSome_map]
      exact hdue.possible
    · cases heq
      exact hdue
  refine ⟨hsettled,fun x hx => ?_⟩
  obtain ⟨r,hx⟩ := List.getElem?_of_mem hx
  cases hstage : x.stage with
  | running p =>
    cases p with
    | pure response => exact Or.inl rfl
    | call call next =>
      rw [← hstage]
      cases hrpc : x.stage.awaitsRpc with
      | true => exact Or.inr (Or.inl rfl)
      | false =>
        obtain ⟨a,hdue⟩ := handler_due site (s := s.later RESOLVE_TIMEOUT) hx hstage hrpc
        exact absurd hdue (hquiet a)
  | resolving c hash next =>
    obtain ⟨y,hy,hlive⟩ := (run_owned h).caller r x c hx (by rw [hstage]; rfl)
    rcases hsettled.callers y (List.mem_of_getElem? hy) with hended | hstranded
    · have hdue := answer_due site (s := s.later RESOLVE_TIMEOUT) hx hstage hy hended hlive
      exact absurd hdue (hquiet _)
    · exact Or.inr (Or.inr ⟨c,y, by rw [hstage]; rfl,hy,hstranded⟩)
  | dropped | panicked => exact Or.inl rfl

/-- Where no fetch has panicked and no RPC is under way, nothing is left unfinished at rest. -/
theorem AtRest.ended (hs : AtRest s) (hrun : Session.Run site.cfg s.acts s.resolver)
    (hpanic : ∀ f, .fetchPanics f ∉ s.acts) {x : Request H} (hx : x ∈ s.requests) (hrpc : x.stage.awaitsRpc = false) :
    x.stage.ended := by
  rcases hs.requests x hx with hended | hwaits | ⟨c,y,-,-,f,stale,fill,n,-,hf,hp⟩
  · exact hended
  · rw [hrpc] at hwaits
    cases hwaits
  · exact absurd (run_panicked hrun hf hp) (hpanic f)

/-- No request of the app gets stuck: where no step of the app is due, even after the fetch timeout,
it is at rest; and unless a fetch has panicked, each request whose RPC has its reply is then over. -/
theorem atRest_iff (h : exec (step site) (init site b) acts = some s) :
    (AtRest s ↔ ∀ a, ¬ Due site (s.later RESOLVE_TIMEOUT) a) ∧
    (AtRest s → (∀ f, .fetchPanics f ∉ s.acts) → s.resolver.resting ∧
      ∀ x ∈ s.requests, x.stage.awaitsRpc = false → x.stage.ended) := by
  have hrun : Session.Run site.cfg s.acts s.resolver := run_resolver h
  exact ⟨⟨fun hs _ => hs.not_due _,atRest_of_quiet h⟩,fun hs hpanic => ⟨hs.resolver.resting hrun hpanic,
    fun x hx hrpc => hs.ended hrun hpanic hx hrpc⟩⟩

theorem atRest_iff_read : ∃ s, exec (step demoSite) (init demoSite (seed .new)) demoRead = some s ∧
    (AtRest s ↔ ∀ a, ¬ Due demoSite (s.later RESOLVE_TIMEOUT) a) := by
  have hrun : (exec (step demoSite) (init demoSite (seed .new)) demoRead).isSome := by decide +kernel
  obtain ⟨s,h⟩ := Option.isSome_iff_exists.mp hrun
  exact ⟨s,h,(atRest_iff h).1⟩

/-- The call of `resolve` and its reply are a step each, and bring in nine of the resolver. -/
def AppCall.price : AppCall → ℕ
  | .extractor (.resolve _) => 11
  | _ => 1

def Route.budget : Route → ℕ
  | .uiArticle | .publicArticle | .apiGet | .apiUpdate => 12
  | .signinSubmit _ => 1
  | .signout => 2
  | .home | .signinForm _ => 0

theorem courseOf_within {S R : Type} {price : Axum.Call → ℕ} {m n : ℕ}
    (hresolve : ∀ hash, price (.resolve hash) ≤ m) (hrpc : ∀ rpc, price (.rpc rpc) ≤ n) (crates : Crates H)
    (web : WebResource H S R E) (fromRef : S → AuthState) (A : AuthScheme) (parts : Parts H) (state : S) :
    (courseOf crates web fromRef A parts state).Within price (m + n) := by
  have hsubject (token : String) : (resolveSubject (E := E) crates token).Within price m := by
    refine Program.Within.bind (n := 0) ((Program.within_ask _).mono (hresolve _)) fun reply => ?_
    split <;> exact Program.within_pure
  have hcheck (resource : R) (rel : Rel) (u : UserId) :
      (viaRpc (check (web.namespaceOf resource) (web.object resource) rel u none)).Within price n := by
    refine Program.within_lift ?_
    by_cases hrel : rel.val = Rel.IMPOSSIBLE
    · rw [check_impossible hrel]
      trivial
    · rw [check_possible hrel]
      exact ⟨hrpc _,fun _ => trivial⟩
  unfold courseOf
  split
  · exact Program.within_pure
  split
  · exact Program.within_pure
  split
  · exact Program.within_pure
  refine (hsubject _).bind fun subject => ?_
  split
  · exact Program.within_pure
  · exact Program.within_pure
  · exact Program.Within.bind (n := 0) (hcheck ..) fun _ => Program.within_pure

theorem handle_within (parts : Parts H) (route : Route) :
    (handle site parts route).Within AppCall.price route.budget := by
  have hguard (A : AuthScheme) :
      (courseOf site.crates (articleResource site) id A parts site.auth).Within
        (AppCall.price ∘ AppCall.extractor) (11 + 1) :=
    courseOf_within (fun _ => le_rfl) (fun _ => le_rfl) ..
  have hguarded (A : AuthScheme) (page : String → Principal → Body) :
      (guarded site A parts page).Within AppCall.price 12 := by
    refine Program.Within.bind (n := 0) (Program.within_lift ?_) fun result => ?_
    · rw [WithPrincipal.fromRequestParts_eq]
      exact (hguard A).map _
    · split <;> exact Program.within_pure
  cases route with
  | home | signinForm => trivial
  | signinSubmit form =>
    simp only [handle, signinSubmit, Route.budget]
    split
    · trivial
    · exact Program.Within.bind (n := 0) (Program.within_ask _) fun _ => Program.within_pure
  | signout =>
    simp only [handle, signout, Route.budget]
    refine Program.Within.bind (n := 0) ?_ fun _ => Program.within_pure
    unfold revoke
    split
    · exact Program.Within.bind (Program.within_ask _) fun _ => Program.within_ask _
    · trivial
  | uiArticle => exact hguarded _ _
  | apiGet => exact hguarded _ _
  | apiUpdate => exact hguarded _ _
  | publicArticle =>
    refine Program.Within.bind (n := 0) (Program.within_lift ?_) fun result => ?_
    · rw [WithOptPrincipal.fromRequestParts_eq site.crates (articleResource site) id]
      exact (hguard .sessionCookieAuth).map _
    · split <;> exact Program.within_pure

def Request.due (x : Request H) : ℕ :=
  match x.stage with
  | .running _ => x.route.budget - Program.spent AppCall.price x.log
  | .resolving .. => x.route.budget - Program.spent AppCall.price x.log - 10
  | .dropped | .panicked => 0

/-- The next call of a request is within its budget. -/
theorem RequestOk.affords {x : Request H} (h : RequestOk site s x) (call : AppCall)
    (next : call.Reply → App (Response Body))
    (hawaits : ∀ p, Follows s x.arrival p x.stage → p = .call call next) :
    Program.spent AppCall.price x.log + call.price ≤ x.route.budget := by
  obtain ⟨p,hreaches,hfollows⟩ := h.follows
  obtain rfl := hawaits p hfollows
  obtain ⟨hspent,hprice,-⟩ := (handle_within x.parts x.route).reaches hreaches
  omega

/-- The work that is left to the resolver and to the requests. -/
def State.due (cfg : ResolverConfig) (s : State H) : ℕ :=
  (workWeights cfg).potential s.resolver + (s.requests.map Request.due).sum

/-- The steps other than those of the outside world. -/
def Action.driven : Action H → Bool
  | .arrive .. | .serve .. => false
  | .resolver a => a.driven
  | _ => true

def Action.budget : Action H → ℕ
  | .arrive route _ => route.budget
  | _ => 0

/-- The resolver takes a step, which a resolve pays for with nine. -/
theorem due_moved {cfg : ResolverConfig} {act : Act} {resolver : Session.State}
    (h : Session.step cfg s.resolver act = some resolver) : (s.moved act resolver).due cfg +
      (if act.driven then 1 else 0) ≤ s.due cfg + if act.isResolve then 9 else 0 := by
  have hwork := step_work h
  simp only [State.due, State.moved]
  omega

theorem due_set (cfg : ResolverConfig) {r : ℕ} {x : Request H} (hx : s.requests[r]? = some x) (y : Request H) :
    ({ s with requests := s.requests.set r y } : State H).due cfg + x.due = s.due cfg + y.due := by
  have hsum := sum_map_set Request.due hx y
  simp only [State.due]
  omega

theorem due_setStage (cfg : ResolverConfig) {r : ℕ} {x : Request H} (hx : s.requests[r]? = some x) (stage : Stage) :
    (s.setStage r x stage).due cfg + x.due = s.due cfg + { x with stage }.due := due_set cfg hx _

theorem AppCall.price_pos (call : AppCall) : 0 < call.price := by
  unfold price
  split <;> decide

theorem due_goOn (cfg : ResolverConfig) {r : ℕ} {x : Request H} (hx : s.requests[r]? = some x) (call : AppCall)
    (hdue : x.route.budget - Program.spent AppCall.price x.log - call.price < x.due) (reply : call.Reply)
    (rest : App (Response Body)) : (s.goOn r x call reply rest).due cfg + 1 ≤ s.due cfg := by
  have hset := due_set cfg hx { x with log := x.log ++ [⟨call,reply⟩], stage := .running rest }
  have hrest : ({ x with log := x.log ++ [⟨call,reply⟩], stage := .running rest } : Request H).due =
      x.route.budget - Program.spent AppCall.price x.log - call.price := by
    simp only [Request.due, Program.spent_concat, Nat.sub_add_eq]
  unfold State.goOn
  omega

theorem RequestOk.due_running {x : Request H} (h : RequestOk site s x) {call : AppCall}
    {next : call.Reply → App (Response Body)} (hstage : x.stage = .running (.call call next)) :
    call.price ≤ x.due ∧ x.route.budget - Program.spent AppCall.price x.log - call.price < x.due := by
  have hpaid := h.affords call next fun p hp => by
    rw [hstage] at hp
    cases hp
    rfl
  have hpos := call.price_pos
  simp only [Request.due, hstage]
  omega

theorem RequestOk.due_resolving {x : Request H} (h : RequestOk site s x) {c : ℕ} {hash : TokenHash}
    {next : ResolveResult → App (Response Body)} (hstage : x.stage = .resolving c hash next) :
    x.route.budget - Program.spent AppCall.price x.log - 11 < x.due := by
  have hpaid := h.affords (.extractor (.resolve hash)) next fun p hp => by
    rw [hstage] at hp
    cases hp
    rfl
  simp only [Request.due, hstage]
  simp only [AppCall.price] at hpaid
  omega

theorem step_due (h : step site s a = some t) (hok : RequestsOk site s s) :
    t.due site.cfg + (if a.driven then 1 else 0) ≤ s.due site.cfg + a.budget := by
  cases step_effect h with
  | @arrive route parts hadmits =>
    simp only [State.due, sum_map_concat, Action.driven, Action.budget, Request.due, Program.spent_nil,
      Bool.false_eq_true, if_false]
    omega
  | @resolve r wall x hash next resolver hx hstage hstep =>
    have hdue := ((hok r x hx).due_running hstage).1
    have hmoved : (s.moved (.resolve hash wall) resolver).due site.cfg ≤ s.due site.cfg + 9 := due_moved hstep
    have hset := due_setStage (s := s.moved (.resolve hash wall) resolver) site.cfg hx
      (.resolving s.resolver.callers.length hash next)
    have hleft : ({ x with stage := .resolving s.resolver.callers.length hash next } : Request H).due =
        x.due - 10 := by simp only [Request.due, hstage]
    simp only [AppCall.price] at hdue
    simp only [Action.driven, Action.budget, if_true]
    omega
  | @answered r x c hash next caller answer source hx hstage =>
    exact due_goOn site.cfg hx (.extractor (.resolve hash)) ((hok r x hx).due_resolving hstage) answer (next answer)
  | @panicked r x c hash next caller hx hstage =>
    have hdue := (hok r x hx).due_resolving hstage
    have hset : _ = s.due site.cfg + 0 := due_setStage site.cfg hx .panicked
    simp only [Action.driven, Action.budget, if_true]
    omega
  | @rpc r lost x rpc next reply hx hstage =>
    exact due_goOn site.cfg hx _ ((hok r x hx).due_running hstage).2 reply (next reply)
  | @createSession r bytes nowUnix x principal next raw backend hx hstage =>
    exact due_goOn (s := { s with backend }) site.cfg hx _ ((hok r x hx).due_running hstage).2 raw (next raw)
  | @removeSession r x hash next hx hstage =>
    exact due_goOn (s := { s with backend := s.backend.removeSession hash }) site.cfg hx _
      ((hok r x hx).due_running hstage).2 () (next ())
  | @evict r x hash next resolver hx hstage hstep =>
    have hmoved : (s.moved (.evict hash) resolver).due site.cfg ≤ s.due site.cfg := due_moved hstep
    exact (due_goOn (s := s.moved (.evict hash) resolver) site.cfg hx _ ((hok r x hx).due_running hstage).2
      () (next ())).trans hmoved
  | @drop r x rpc next hx hstage =>
    have hdue := ((hok r x hx).due_running hstage).2
    have hset : _ = s.due site.cfg + 0 := due_setStage site.cfg hx .dropped
    simp only [Action.driven, Action.budget, if_true]
    omega
  | @cancel r x c hash next resolver hx hstage hstep =>
    have hmoved : (s.moved (.cancel c) resolver).due site.cfg + 1 ≤ s.due site.cfg := due_moved hstep
    have hset : _ = (s.moved (.cancel c) resolver).due site.cfg + 0 :=
      due_setStage (s := s.moved (.cancel c) resolver) site.cfg hx .dropped
    simp only [Action.driven, Action.budget, if_true]
    omega
  | serve => exact le_rfl
  | fetchReturns hf hn hreply hstep => exact due_moved hstep
  | @resolver act resolver ha hstep =>
    have hresolve : act.isResolve = false := by cases act <;> first | rfl | cases ha
    have hmoved := due_moved hstep
    rw [hresolve] at hmoved
    exact hmoved

/-- The app does not run on: the steps of its handlers and of the resolver's tasks, those of the
fetches and the drops included, are at most twelve for each request for an article, two for each
sign-out and one for each sign-in, in whatever order they are taken. -/
theorem serving_work (h : exec (step site) (init site b) acts = some s) :
    acts.countP Action.driven ≤ (acts.map Action.budget).sum := by
  have hkeep (s : State H) (a : Action H) (t : State H) (hs : RequestsOk site s s)
      (h : step site s a = some t) : RequestsOk site t t := step_requests h hs
  have hstep (s : State H) (a : Action H) (t : State H) (hs : RequestsOk site s s)
      (h : step site s a = some t) :
      t.due site.cfg + (if a.driven then 1 else 0) ≤ s.due site.cfg + a.budget := step_due h hs
  have hok : RequestsOk site (init site b) (init site b) := fun _ _ hx => by cases hx
  have hpaid := exec_potential_within hkeep hstep hok h
  have hinit : (init site b).due site.cfg = 0 := rfl
  rw [sum_map_count, hinit] at hpaid
  omega

theorem serving_work_read : (exec (step demoSite) (init demoSite (seed .new)) demoRead).isSome ∧
    demoRead.countP Action.driven = 12 ∧ demoRead.countP Action.driven ≤ (demoRead.map Action.budget).sum := by
  have hrun : (exec (step demoSite) (init demoSite (seed .new)) demoRead).isSome := by decide +kernel
  obtain ⟨s,h⟩ := Option.isSome_iff_exists.mp hrun
  exact ⟨hrun, by decide, serving_work h⟩

end NioClient.Webapp
