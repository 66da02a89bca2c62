import NioClient.Webapp.ServingStep

/-! # The requests of a running app

Each request has gone through its handler as far as its calls say, and each reply to them
has come from the resolver or from the backend.
-/
namespace NioClient.Webapp
open Environment Execution Axum Check Session
variable {H E : Type} {site : Site H E} {b : Backend} {s t u : State H} {a : Action H} {acts : List (Action H)}

structure Later (s t : State H) : Prop where
  now : s.now ≤ t.now
  length : s.resolver.callers.length ≤ t.resolver.callers.length
  callers : ∀ (c : ℕ) (x : Caller), s.resolver.callers[c]? = some x → ∃ y, t.resolver.callers[c]? = some y ∧
    y.key = x.key ∧ y.kind = x.kind ∧ ∀ answer source, x.phase = .answered answer source → y = x
  tuples : t.backend.tuples = s.backend.tuples
  names : t.backend.names = s.backend.names
  requests : ∀ (r : ℕ) (x : Request H), s.requests[r]? = some x → ∃ y, t.requests[r]? = some y ∧
    y.route = x.route ∧ ∀ e ∈ x.log, e ∈ y.log

theorem Later.trans (h : Later s t) (h' : Later t u) : Later s u := by
  refine ⟨h.now.trans h'.now,h.length.trans h'.length,fun c x hx => ?_,h'.tuples.trans h.tuples,
    h'.names.trans h.names,fun r x hx => ?_⟩
  · obtain ⟨y,hy,hkey,hkind,hanswered⟩ := h.callers c x hx
    obtain ⟨z,hz,hkey',hkind',hanswered'⟩ := h'.callers c y hy
    refine ⟨z,hz,hkey'.trans hkey,hkind'.trans hkind,fun answer source hp => ?_⟩
    obtain rfl := hanswered answer source hp
    exact hanswered' answer source hp
  · obtain ⟨y,hy,hroute,hlog⟩ := h.requests r x hx
    obtain ⟨z,hz,hroute',hlog'⟩ := h'.requests r y hy
    exact ⟨z,hz,hroute'.trans hroute,fun e he => hlog' e (hlog e he)⟩

theorem later_moved {act : Act} {resolver : Session.State}
    (h : Session.step site.cfg s.resolver act = some resolver) : Later s (s.moved act resolver) := by
  refine ⟨step_now h,step_callers_length h,fun c x hx => ?_,rfl,rfl,fun r x hx => ⟨x,hx,rfl,fun _ he => he⟩⟩
  obtain ⟨y,hy,hkey,hkind,hmove⟩ := step_caller_later h hx
  refine ⟨y,hy,hkey,hkind,fun answer source hp => ?_⟩
  rcases hmove with hsame | hmove
  · exact hsame
  · cases hmove <;> cases hp

theorem later_callers (s : State H) (c : ℕ) (x : Caller) (hx : s.resolver.callers[c]? = some x) :
    ∃ y, s.resolver.callers[c]? = some y ∧ y.key = x.key ∧ y.kind = x.kind ∧
      ∀ answer source, x.phase = .answered answer source → y = x :=
  ⟨x,hx,rfl,rfl,fun _ _ _ => rfl⟩

theorem later_set {r : ℕ} {x y : Request H} (hx : s.requests[r]? = some x) (hroute : y.route = x.route)
    (hlog : ∀ e ∈ x.log, e ∈ y.log) : Later s { s with requests := s.requests.set r y } := by
  refine ⟨le_rfl,le_rfl,later_callers s,rfl,rfl,fun r' z hz => ?_⟩
  have hlt := (List.getElem?_eq_some_iff.mp hx).1
  by_cases hr : r = r'
  · subst hr
    cases hx.symm.trans hz
    exact ⟨y, by simp [hlt], hroute,hlog⟩
  · exact ⟨z, by simpa [hr] using hz, rfl,fun _ he => he⟩

theorem later_push (s : State H) (y : Request H) : Later s { s with requests := s.requests ++ [y] } := by
  refine ⟨le_rfl,le_rfl,later_callers s,rfl,rfl,fun r x hx => ⟨x,?_,rfl,fun _ he => he⟩⟩
  exact (List.getElem?_append_left (List.getElem?_eq_some_iff.mp hx).1).trans hx

theorem Later.refl (s : State H) : Later s s :=
  ⟨le_rfl,le_rfl,later_callers s,rfl,rfl,fun _ x hx => ⟨x,hx,rfl,fun _ he => he⟩⟩

theorem later_backend (s : State H) {backend : Backend} (htuples : backend.tuples = s.backend.tuples)
    (hnames : backend.names = s.backend.names) : Later s { s with backend } :=
  ⟨le_rfl,le_rfl,later_callers s,htuples,hnames,fun _ x hx => ⟨x,hx,rfl,fun _ he => he⟩⟩

theorem later_served (s : State H) (served : AList fun _ : ℕ => Session.Pb.ResolveResponse) :
    Later s { s with served } :=
  ⟨le_rfl,le_rfl,later_callers s,rfl,rfl,fun _ x hx => ⟨x,hx,rfl,fun _ he => he⟩⟩

theorem Later.setStage (h : Later s t) {r : ℕ} {x : Request H} (hx : t.requests[r]? = some x) (stage : Stage) :
    Later s (t.setStage r x stage) := h.trans (later_set hx rfl fun _ he => he)

theorem Later.goOn (h : Later s t) {r : ℕ} {x : Request H} (hx : t.requests[r]? = some x) (call : AppCall)
    (reply : call.Reply) (rest : App (Response Body)) : Later s (t.goOn r x call reply rest) :=
  h.trans (later_set hx rfl fun _ he => List.mem_append_left _ he)

theorem step_later (h : step site s a = some t) : Later s t := by
  cases step_effect h with
  | arrive => exact later_push s _
  | resolve hx hstage hstep => exact (later_moved hstep).setStage hx _
  | answered hx => exact (Later.refl s).goOn hx _ _ _
  | panicked hx => exact (Later.refl s).setStage hx _
  | rpc hx => exact (Later.refl s).goOn hx _ _ _
  | createSession hx hstage hcreate =>
    obtain ⟨htuples,hnames⟩ := Backend.createSession_keeps hcreate
    exact (later_backend s htuples hnames).goOn hx _ _ _
  | @removeSession r x hash next hx =>
    have hbackend : Later s { s with backend := s.backend.removeSession hash } := later_backend s rfl rfl
    exact hbackend.goOn hx _ _ _
  | evict hx hstage hstep => exact (later_moved hstep).goOn hx _ _ _
  | drop hx => exact (Later.refl s).setStage hx _
  | cancel hx hstage hstep => exact (later_moved hstep).setStage hx _
  | serve => exact later_served s _
  | fetchReturns hf hn hreply hstep => exact later_moved hstep
  | resolver ha hstep => exact later_moved hstep

theorem check_later (h : Later s t) (req : Check.Pb.CheckRequest) : t.backend.check req = s.backend.check req := by
  rw [Backend.check, Backend.check, h.tuples, h.names]

/-- What stands behind a reply to a request which has come at `arrival`. -/
def Founded (s : State H) (arrival : Arrival) : ∀ call : AppCall, call.Reply → Prop
  | .extractor (.resolve hash), answer => ∃ (c now : ℕ) (wall : ℤ) (source : Source), arrival.Before c now ∧
      s.resolver.callers[c]? = some ⟨hash,.resolve now wall,.answered answer source⟩
  | .extractor (.rpc (.check req)), reply => reply = .ok (s.backend.check req) ∨ ∃ status, reply = .error status
  | .createSession _, raw => ∃ bytes : Vector UInt8 32, raw = hexEncode bytes.toList
  | _, _ => True

/-- Where the handler is, and what it waits for. -/
inductive Follows (s : State H) (arrival : Arrival) : App (Response Body) → Stage → Prop
  | running (p) : Follows s arrival p (.running p)
  | resolving (c hash next now wall phase) (harrived : arrival.Before c now)
      (hc : s.resolver.callers[c]? = some ⟨hash,.resolve now wall,phase⟩) :
      Follows s arrival (.call (.extractor (.resolve hash)) next) (.resolving c hash next)
  | dropped (p) : Follows s arrival p .dropped
  | panicked (p) : Follows s arrival p .panicked

structure RequestOk (site : Site H E) (s : State H) (x : Request H) : Prop where
  admitted : x.route.admits x.parts.method
  arrived : x.arrival.Before s.resolver.callers.length s.now
  founded : ∀ e ∈ x.log, Founded s x.arrival e.1 e.2
  follows : ∃ p, (handle site x.parts x.route).Reaches x.log p ∧ Follows s x.arrival p x.stage

theorem Arrival.Before.later {arrival : Arrival} (h : arrival.Before s.resolver.callers.length s.now)
    (hlater : Later s t) : arrival.Before t.resolver.callers.length t.now :=
  ⟨h.1.trans hlater.length,h.2.trans hlater.now⟩

theorem Founded.later {arrival : Arrival} {call : AppCall} {reply : call.Reply}
    (h : Founded s arrival call reply) (hlater : Later s t) : Founded t arrival call reply := by
  cases call with
  | extractor call =>
    cases call with
    | resolve hash =>
      obtain ⟨c,now,wall,source,harrived,hc⟩ := h
      obtain ⟨y,hy,-,-,hanswered⟩ := hlater.callers c _ hc
      obtain rfl := hanswered _ _ rfl
      exact ⟨c,now,wall,source,harrived,hy⟩
    | rpc rpc =>
      cases rpc with
      | check req =>
        rcases h with hok | herr
        · exact Or.inl (hok.trans (by rw [check_later hlater]))
        · exact Or.inr herr
      | list req => exact h
  | createSession | removeSession | evict => exact h

theorem Follows.later {arrival : Arrival} {p : App (Response Body)} {stage : Stage}
    (h : Follows s arrival p stage) (hlater : Later s t) : Follows t arrival p stage := by
  cases h with
  | running => exact .running p
  | resolving c hash next now wall phase harrived hc =>
    obtain ⟨⟨key,kind,phase'⟩,hy,hkey,hkind,-⟩ := hlater.callers c _ hc
    cases hkey
    cases hkind
    exact .resolving c hash next now wall phase' harrived hy
  | dropped => exact .dropped p
  | panicked => exact .panicked p

theorem RequestOk.later {x : Request H} (h : RequestOk site s x) (hlater : Later s t) : RequestOk site t x := by
  obtain ⟨p,hreaches,hfollows⟩ := h.follows
  exact ⟨h.admitted,h.arrived.later hlater,fun e he => (h.founded e he).later hlater,
    p,hreaches,hfollows.later hlater⟩

theorem RequestOk.goOn {x : Request H} (h : RequestOk site s x) (hlater : Later s t) {call : AppCall}
    {reply : call.Reply} {next : call.Reply → App (Response Body)}
    (hawaits : ∀ p, Follows s x.arrival p x.stage → p = .call call next)
    (hfounded : Founded t x.arrival call reply) :
    RequestOk site t { x with log := x.log ++ [⟨call,reply⟩], stage := .running (next reply) } := by
  obtain ⟨p,hreaches,hfollows⟩ := h.follows
  obtain rfl := hawaits p hfollows
  refine ⟨h.admitted,h.arrived.later hlater,fun e he => ?_,_,hreaches.reply reply,.running _⟩
  rcases List.mem_append.mp he with hold | hnew
  · exact (h.founded e hold).later hlater
  · rw [List.mem_singleton.mp hnew]
    exact hfounded

theorem RequestOk.setStage {x : Request H} (h : RequestOk site s x) (hlater : Later s t) {stage : Stage}
    (hstage : ∀ p, Follows s x.arrival p x.stage → Follows t x.arrival p stage) :
    RequestOk site t { x with stage } := by
  obtain ⟨p,hreaches,hfollows⟩ := h.follows
  exact ⟨h.admitted,h.arrived.later hlater,fun e he => (h.founded e he).later hlater,
    p,hreaches,hstage p hfollows⟩

def RequestsOk (site : Site H E) (s t : State H) : Prop :=
  ∀ (r : ℕ) (x : Request H), s.requests[r]? = some x → RequestOk site t x

theorem RequestsOk.set (h : RequestsOk site s t) {r : ℕ} {y : Request H} (hy : RequestOk site t y) {r' : ℕ}
    {z : Request H} (hz : (s.requests.set r y)[r']? = some z) : RequestOk site t z := by
  by_cases hr : r = r'
  · subst hr
    have hmem := List.getElem?_eq_some_iff.mp hz
    obtain ⟨hlt,hget⟩ := hmem
    rw [List.getElem_set_self] at hget
    exact hget ▸ hy
  · rw [List.getElem?_set_ne hr] at hz
    exact h r' z hz

theorem step_requests (h : step site s a = some t) (hok : RequestsOk site s s) : RequestsOk site t t := by
  have hlater := step_later h
  have hold : RequestsOk site s t := fun r x hx => (hok r x hx).later hlater
  -- a running handler is at the call that the step makes
  have hrunning {x : Request H} {call : AppCall} {next : call.Reply → App (Response Body)}
      (hstage : x.stage = .running (.call call next)) (p : App (Response Body))
      (hp : Follows s x.arrival p x.stage) : p = .call call next := by
    rw [hstage] at hp
    cases hp
    rfl
  cases step_effect h with
  | @arrive route parts hadmits =>
    intro r x hx
    by_cases hlt : r < s.requests.length
    · exact hold r x ((List.getElem?_append_left hlt).symm.trans hx)
    · obtain rfl := List.mem_singleton.mp
        (List.mem_of_getElem? ((List.getElem?_append_right (Nat.not_lt.mp hlt)).symm.trans hx))
      exact ⟨hadmits,⟨le_rfl,le_rfl⟩,fun _ he => absurd he List.not_mem_nil,_,.refl _,.running _⟩
  | @resolve r wall x hash next resolver hx hstage hstep =>
    refine fun _ _ => hold.set ((hok r x hx).setStage hlater fun p hp => ?_)
    obtain rfl := hrunning hstage p hp
    refine .resolving _ hash next s.resolver.now wall .started (hok r x hx).arrived ?_
    cases hstep
    simp [State.setStage, State.moved, Session.State.resolve]
  | @answered r x c hash next caller answer source hx hstage hc hphase =>
    have hresolving (p : App (Response Body)) (hp : Follows s x.arrival p x.stage) :
        p = .call (.extractor (.resolve hash)) next ∧ Founded s x.arrival (.extractor (.resolve hash)) answer := by
      rw [hstage] at hp
      cases hp with
      | resolving _ _ _ now wall phase harrived hc' =>
        cases hc.symm.trans hc'
        cases hphase
        exact ⟨rfl,c,now,wall,source,harrived,hc⟩
    obtain ⟨p,-,hp⟩ := (hok r x hx).follows
    exact fun _ _ => hold.set ((hok r x hx).goOn hlater (fun p hp => (hresolving p hp).1)
      ((hresolving p hp).2.later hlater))
  | @panicked r x c hash next caller hx =>
    exact fun _ _ => hold.set ((hok r x hx).setStage hlater fun p _ => .panicked p)
  | @rpc r lost x rpc next reply hx hstage hreply =>
    refine fun _ _ => hold.set ((hok r x hx).goOn hlater (hrunning hstage) ?_)
    cases rpc with
    | check req => exact hreply
    | list req => trivial
  | @createSession r bytes nowUnix x principal next raw backend hx hstage hcreate =>
    cases hcreate
    exact fun _ _ => hold.set ((hok r x hx).goOn hlater (hrunning hstage) ⟨bytes,rfl⟩)
  | @removeSession r x hash next hx hstage =>
    exact fun _ _ => hold.set ((hok r x hx).goOn hlater (hrunning hstage) trivial)
  | @evict r x hash next resolver hx hstage =>
    exact fun _ _ => hold.set ((hok r x hx).goOn hlater (hrunning hstage) trivial)
  | @drop r x rpc next hx =>
    exact fun _ _ => hold.set ((hok r x hx).setStage hlater fun p _ => .dropped p)
  | @cancel r x c hash next resolver hx =>
    exact fun _ _ => hold.set ((hok r x hx).setStage hlater fun p _ => .dropped p)
  | serve | fetchReturns | resolver => exact hold

end NioClient.Webapp
