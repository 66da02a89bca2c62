import NioClient.Axum.Extractors

/-! # Complete mediation by the extractors

A request goes through stages: `parse`, the token, the relation of its method,
the session of the token, and the check. The predicates below say of a request and
a world which stage is the first to fail, if one does.
-/
namespace NioClient.Axum
open Environment Check Session
variable {H S R E : Type} (crates : Crates H) (web : WebResource H S R E) (fromRef : S → AuthState)
  (A : AuthScheme) (world : World) (parts : Parts H) (state : S)

/-- The stages before the session pass. -/
def Identified (resource : R) (parts' : Parts H) (token : String) (rel : Rel) : Prop :=
  web.parse parts state = (.ok resource,parts') ∧ A.token crates parts'.headers = some token ∧
    web.rel resource parts'.method = some rel

/-- The stages before the check pass. -/
def Authenticated (resource : R) (rel : Rel) (session : ResolvedSession) : Prop :=
  ∃ parts' token, Identified crates web A parts state resource parts' token rel ∧
    world.resolve (tokenHash crates token) = .ok (some session)

/-- What is asked of the check server for a session. -/
def guardRequest (resource : R) (rel : Rel) (session : ResolvedSession) : Pb.CheckRequest where
  ns := (web.namespaceOf resource).val
  obj := (web.object resource).val
  rel := rel.val
  userId := session.principal
  ts := Timestamp.EMPTY

/-- The request gets as far as the RPC `req`. -/
def Asks (resource : R) (req : Pb.CheckRequest) : Prop :=
  ∃ rel session, Authenticated crates web A world parts state resource rel session ∧
    rel.val ≠ Rel.IMPOSSIBLE ∧ req = guardRequest web resource rel session

/-- There is no token, or it is unknown. -/
@[mk_iff]
inductive NoSession : R → String → Prop where
  | token {resource : R} {parts' : Parts H} (hparse : web.parse parts state = (.ok resource,parts'))
      (htoken : A.token crates parts'.headers = none) :
      NoSession resource ((fromRef state).signinLocation parts')
  | unknown {resource : R} {parts' : Parts H} {token : String} {rel : Rel}
      (h : Identified crates web A parts state resource parts' token rel)
      (hunknown : world.resolve (tokenHash crates token) = .ok none) :
      NoSession resource ((fromRef state).signinLocation parts')

/-- The other ways to fail, stage by stage. -/
@[mk_iff]
inductive Fails : WebResourceError E → Prop where
  | parse {err : E} {parts' : Parts H} (h : web.parse parts state = (.error err,parts')) :
      Fails (.parse err)
  | rel {resource : R} {parts' : Parts H} {token : String}
      (hparse : web.parse parts state = (.ok resource,parts'))
      (htoken : A.token crates parts'.headers = some token)
      (hrel : web.rel resource parts'.method = none) : Fails .methodNotAllowed
  | resolver {resource : R} {parts' : Parts H} {token : String} {rel : Rel} {err : ResolveError}
      (h : Identified crates web A parts state resource parts' token rel)
      (herr : world.resolve (tokenHash crates token) = .error err) :
      Fails (.internalServerError (.resolve err))
  | impossible {resource : R} {rel : Rel} {session : ResolvedSession}
      (h : Authenticated crates web A world parts state resource rel session)
      (hrel : rel.val = Rel.IMPOSSIBLE) : Fails .forbidden
  | denied {resource : R} {req : Pb.CheckRequest} {id : String}
      (h : Asks crates web A world parts state resource req)
      (hreply : world.check req = .ok ⟨some id,false⟩) : Fails .forbidden
  | unknownUser {resource : R} {req : Pb.CheckRequest}
      (h : Asks crates web A world parts state resource req)
      (hreply : world.check req = .ok ⟨none,false⟩) : Fails .forbidden
  | malformed {resource : R} {req : Pb.CheckRequest}
      (h : Asks crates web A world parts state resource req)
      (hreply : world.check req = .ok ⟨none,true⟩) :
      Fails (.internalServerError (.call .unexpectedResponseFormat))
  | status {resource : R} {req : Pb.CheckRequest} {status : Status}
      (h : Asks crates web A world parts state resource req)
      (hreply : world.check req = .error status) :
      Fails (.internalServerError (.call (.status status)))

/-- The calls made for a request: the resolver is asked for the hash of the token
once the stages before the session pass, and the check server once those before
the check do; each of them once, and no other call is made. -/
structure CallsMediated (calls : List Call) : Prop where
  resolve_one : ∀ resource parts' token rel, Identified crates web A parts state resource parts' token rel →
    calls.filterMap Call.hash? = [tokenHash crates token]
  resolve_zero : (¬ ∃ resource parts' token rel,
    Identified crates web A parts state resource parts' token rel) → calls.filterMap Call.hash? = []
  check_one : ∀ resource req, Asks crates web A world parts state resource req →
    calls.filterMap Call.checkRequest? = [req]
  check_zero : (¬ ∃ resource req, Asks crates web A world parts state resource req) →
    calls.filterMap Call.checkRequest? = []
  no_list : ∀ r, Call.rpc (.list r) ∉ calls

structure Mediated (handler : Handler (Except (WebResourceError E) (WithPrincipal R))) : Prop where
  ok_iff : ∀ principal resource, handler.run world.reply = .ok ⟨principal,resource⟩ ↔
    ∃ req, Asks crates web A world parts state resource req ∧
      (handler.calls world.reply).filterMap Call.checkRequest? = [req] ∧
      world.check req = .ok ⟨some principal.val,true⟩
  error_iff : ∀ err, handler.run world.reply = .error err ↔ Fails crates web A world parts state err ∨
    ∃ resource location, NoSession crates web fromRef A world parts state resource location ∧
      err = .missingSession location
  calls : CallsMediated crates web A world parts state (handler.calls world.reply)

structure OptMediated (handler : Handler (Except (WebResourceError E) (WithOptPrincipal R))) : Prop where
  some_iff : ∀ principal resource, handler.run world.reply = .ok ⟨some principal,resource⟩ ↔
    ∃ req, Asks crates web .sessionCookieAuth world parts state resource req ∧
      (handler.calls world.reply).filterMap Call.checkRequest? = [req] ∧
      world.check req = .ok ⟨some principal.val,true⟩
  none_iff : ∀ resource, handler.run world.reply = .ok ⟨none,resource⟩ ↔
    ∃ location, NoSession crates web fromRef .sessionCookieAuth world parts state resource location
  error_iff : ∀ err, handler.run world.reply = .error err ↔
    Fails crates web .sessionCookieAuth world parts state err
  calls : CallsMediated crates web .sessionCookieAuth world parts state (handler.calls world.reply)

inductive Verdict (R E : Type) where
  | granted (principal : Principal) (resource : R)
  | noSession (resource : R) (location : String)
  | failed (err : WebResourceError E)

def Verdict.ofCheck (resource : R) : Except CallError CheckResult → Verdict R E
  | .ok (.ok principal) => .granted principal resource
  | .ok (.forbidden _) => .failed .forbidden
  | .ok .unknownPutativeUser => .failed .forbidden
  | .error err => .failed (.internalServerError (.call err))

/-- `WithPrincipal` needs a session. -/
def Verdict.withPrincipal : Verdict R E → Except (WebResourceError E) (WithPrincipal R)
  | .granted principal resource => .ok ⟨principal,resource⟩
  | .noSession _ location => .error (.missingSession location)
  | .failed err => .error err

/-- `WithOptPrincipal` does not. -/
def Verdict.withOptPrincipal : Verdict R E → Except (WebResourceError E) (WithOptPrincipal R)
  | .granted principal resource => .ok ⟨some principal,resource⟩
  | .noSession resource _ => .ok ⟨none,resource⟩
  | .failed err => .error err

/-- All that can happen to a request: the calls made for it, and the verdict. -/
inductive Course : List Call → Verdict R E → Prop where
  | unparsed {err : E} {parts' : Parts H} (h : web.parse parts state = (.error err,parts')) :
      Course [] (.failed (.parse err))
  | noToken {resource : R} {parts' : Parts H} (hparse : web.parse parts state = (.ok resource,parts'))
      (htoken : A.token crates parts'.headers = none) :
      Course [] (.noSession resource ((fromRef state).signinLocation parts'))
  | noRel {resource : R} {parts' : Parts H} {token : String}
      (hparse : web.parse parts state = (.ok resource,parts'))
      (htoken : A.token crates parts'.headers = some token)
      (hrel : web.rel resource parts'.method = none) : Course [] (.failed .methodNotAllowed)
  | fault {resource : R} {parts' : Parts H} {token : String} {rel : Rel} {err : ResolveError}
      (h : Identified crates web A parts state resource parts' token rel)
      (herr : world.resolve (tokenHash crates token) = .error err) :
      Course [.resolve (tokenHash crates token)] (.failed (.internalServerError (.resolve err)))
  | unknown {resource : R} {parts' : Parts H} {token : String} {rel : Rel}
      (h : Identified crates web A parts state resource parts' token rel)
      (hunknown : world.resolve (tokenHash crates token) = .ok none) :
      Course [.resolve (tokenHash crates token)]
        (.noSession resource ((fromRef state).signinLocation parts'))
  | impossible {resource : R} {parts' : Parts H} {token : String} {rel : Rel} {session : ResolvedSession}
      (h : Identified crates web A parts state resource parts' token rel)
      (hsession : world.resolve (tokenHash crates token) = .ok (some session))
      (hrel : rel.val = Rel.IMPOSSIBLE) :
      Course [.resolve (tokenHash crates token)] (.failed .forbidden)
  | checked {resource : R} {parts' : Parts H} {token : String} {rel : Rel} {session : ResolvedSession}
      (h : Identified crates web A parts state resource parts' token rel)
      (hsession : world.resolve (tokenHash crates token) = .ok (some session))
      (hrel : rel.val ≠ Rel.IMPOSSIBLE) :
      Course [.resolve (tokenHash crates token),.rpc (.check (guardRequest web resource rel session))]
        (.ofCheck resource (checkResult (world.check (guardRequest web resource rel session))))

theorem checkRequest_eq_guardRequest (resource : R) (rel : Rel) (session : ResolvedSession) :
    checkRequest (web.namespaceOf resource) (web.object resource) rel ⟨session.principal⟩ none =
      guardRequest web resource rel session := rfl

/-- What both extractors do of a request, up to its verdict. -/
def courseOf : Handler (Verdict R E) :=
  match web.parse parts state with
  | (.error err, _) => return .failed (.parse err)
  | (.ok resource, parts) =>
    match A.token crates parts.headers with
    | none => return .noSession resource ((fromRef state).signinLocation parts)
    | some token =>
      match web.rel resource parts.method with
      | none => return .failed .methodNotAllowed
      | some rel => do
        match ← resolveSubject crates token with
        | .notFound => return .noSession resource ((fromRef state).signinLocation parts)
        | .error err => return .failed err
        | .principal u =>
          let result ← viaRpc (check (web.namespaceOf resource) (web.object resource) rel u none)
          return .ofCheck resource result

theorem WithPrincipal.fromRequestParts_eq :
    WithPrincipal.fromRequestParts crates web fromRef A parts state =
      Verdict.withPrincipal <$> courseOf crates web fromRef A parts state := by
  rw [WithPrincipal.fromRequestParts, courseOf]
  rcases web.parse parts state with ⟨err | resource,parts'⟩
  · rfl
  dsimp only
  cases A.token crates parts'.headers with
  | none => rfl
  | some token =>
    dsimp only
    cases web.rel resource parts'.method with
    | none => rfl
    | some rel =>
      dsimp only
      rw [map_bind]
      apply bind_congr
      rintro (u | _ | err)
      · simp only [map_bind]
        apply bind_congr
        rintro (err | principal | principal | _) <;> rfl
      · rfl
      · rfl

theorem WithOptPrincipal.fromRequestParts_eq :
    WithOptPrincipal.fromRequestParts crates web parts state =
      Verdict.withOptPrincipal <$> courseOf crates web fromRef .sessionCookieAuth parts state := by
  rw [WithOptPrincipal.fromRequestParts, courseOf]
  rcases web.parse parts state with ⟨err | resource,parts'⟩
  · rfl
  dsimp only
  cases AuthScheme.sessionCookieAuth.token crates parts'.headers with
  | none => rfl
  | some token =>
    dsimp only
    cases web.rel resource parts'.method with
    | none => rfl
    | some rel =>
      dsimp only
      rw [map_bind]
      apply bind_congr
      rintro (u | _ | err)
      · simp only [map_bind]
        apply bind_congr
        rintro (err | principal | principal | _) <;> rfl
      · rfl
      · rfl

theorem courseOf_run : Course crates web fromRef A world parts state
    ((courseOf crates web fromRef A parts state).calls world.reply)
    ((courseOf crates web fromRef A parts state).run world.reply) := by
  rw [courseOf]
  rcases hparse : web.parse parts state with ⟨err | resource,parts'⟩
  · exact .unparsed hparse
  dsimp only
  cases htoken : A.token crates parts'.headers with
  | none => exact .noToken hparse htoken
  | some token =>
    dsimp only
    cases hrel : web.rel resource parts'.method with
    | none => exact .noRel hparse htoken hrel
    | some rel =>
      have hid : Identified crates web A parts state resource parts' token rel := ⟨hparse,htoken,hrel⟩
      simp only [Program.run_bind, Program.calls_bind, run_resolveSubject, calls_resolveSubject]
      rcases hres : world.resolve (tokenHash crates token) with err | _ | session
      · exact .fault hid hres
      · exact .unknown hid hres
      simp only [Program.run_bind, Program.calls_bind, run_viaRpc_check, calls_viaRpc_check]
      by_cases himp : rel.val = Rel.IMPOSSIBLE
      · simp only [if_pos himp]
        exact .impossible hid hres himp
      · simp only [if_neg himp, checkRequest_eq_guardRequest]
        exact .checked hid hres himp

theorem WithPrincipal.course : ∃ verdict, Course crates web fromRef A world parts state
    ((WithPrincipal.fromRequestParts crates web fromRef A parts state).calls world.reply) verdict ∧
    (WithPrincipal.fromRequestParts crates web fromRef A parts state).run world.reply =
      verdict.withPrincipal := by
  rw [WithPrincipal.fromRequestParts_eq, Program.run_map, Program.calls_map]
  exact ⟨_,courseOf_run crates web fromRef A world parts state,rfl⟩

theorem WithOptPrincipal.course : ∃ verdict, Course crates web fromRef .sessionCookieAuth world parts state
    ((WithOptPrincipal.fromRequestParts crates web parts state).calls world.reply) verdict ∧
    (WithOptPrincipal.fromRequestParts crates web parts state).run world.reply =
      verdict.withOptPrincipal := by
  rw [WithOptPrincipal.fromRequestParts_eq crates web fromRef, Program.run_map, Program.calls_map]
  exact ⟨_,courseOf_run crates web fromRef .sessionCookieAuth world parts state,rfl⟩

variable {crates web fromRef A world parts state} {calls : List Call} {verdict : Verdict R E}
  {resource : R} {parts' : Parts H} {token : String} {rel : Rel} {session : ResolvedSession}

theorem Identified.iff (h : Identified crates web A parts state resource parts' token rel)
    {r : R} {p : Parts H} {t : String} {rel' : Rel} :
    Identified crates web A parts state r p t rel' ↔
      r = resource ∧ p = parts' ∧ t = token ∧ rel' = rel := by
  constructor
  · rintro ⟨hparse,htoken,hrel⟩
    cases h.1.symm.trans hparse
    cases h.2.1.symm.trans htoken
    cases h.2.2.symm.trans hrel
    exact ⟨rfl,rfl,rfl,rfl⟩
  · rintro ⟨rfl,rfl,rfl,rfl⟩
    exact h

theorem Identified.authenticated_iff (h : Identified crates web A parts state resource parts' token rel)
    {r : R} {rel' : Rel} : Authenticated crates web A world parts state r rel' session ↔
      r = resource ∧ rel' = rel ∧ world.resolve (tokenHash crates token) = .ok (some session) := by
  simp only [Authenticated, h.iff]
  constructor
  · rintro ⟨_,_,⟨rfl,rfl,rfl,rfl⟩,hsession⟩
    exact ⟨rfl,rfl,hsession⟩
  · rintro ⟨rfl,rfl,hsession⟩
    exact ⟨_,_,⟨rfl,rfl,rfl,rfl⟩,hsession⟩

theorem Identified.asks_iff (h : Identified crates web A parts state resource parts' token rel)
    {r : R} {req : Pb.CheckRequest} : Asks crates web A world parts state r req ↔
      r = resource ∧ rel.val ≠ Rel.IMPOSSIBLE ∧ ∃ session,
        world.resolve (tokenHash crates token) = .ok (some session) ∧
        req = guardRequest web resource rel session := by
  simp only [Asks, h.authenticated_iff]
  constructor
  · rintro ⟨_,session,⟨rfl,rfl,hsession⟩,himp,rfl⟩
    exact ⟨rfl,himp,session,hsession,rfl⟩
  · rintro ⟨rfl,himp,session,hsession,rfl⟩
    exact ⟨_,session,⟨rfl,rfl,hsession⟩,himp,rfl⟩

theorem not_asks (h : ∀ r p t rel, ¬ Identified crates web A parts state r p t rel) {r : R}
    {req : Pb.CheckRequest} : ¬ Asks crates web A world parts state r req := by
  rintro ⟨rel,session,⟨p,t,hid,-⟩,-⟩
  exact h r p t rel hid

theorem not_authenticated (h : ∀ r p t rel, ¬ Identified crates web A parts state r p t rel) {r : R}
    {rel : Rel} : ¬ Authenticated crates web A world parts state r rel session := by
  rintro ⟨p,t,hid,-⟩
  exact h r p t rel hid

theorem not_identified_of_unparsed {err : E} (hparse : web.parse parts state = (.error err,parts'))
    (r : R) (p : Parts H) (t : String) (rel : Rel) : ¬ Identified crates web A parts state r p t rel :=
  fun h => by cases hparse.symm.trans h.1

theorem not_identified_of_noToken (hparse : web.parse parts state = (.ok resource,parts'))
    (htoken : A.token crates parts'.headers = none) (r : R) (p : Parts H) (t : String) (rel : Rel) :
    ¬ Identified crates web A parts state r p t rel := by
  intro h
  cases hparse.symm.trans h.1
  cases htoken.symm.trans h.2.1

theorem not_identified_of_noRel (hparse : web.parse parts state = (.ok resource,parts'))
    (hrel : web.rel resource parts'.method = none) (r : R) (p : Parts H) (t : String) (rel : Rel) :
    ¬ Identified crates web A parts state r p t rel := by
  intro h
  cases hparse.symm.trans h.1
  cases hrel.symm.trans h.2.2

theorem calls_nil (h : ∀ r p t rel, ¬ Identified crates web A parts state r p t rel) :
    CallsMediated crates web A world parts state [] := by
  constructor <;> simp [h, not_asks h]

theorem Identified.calls_resolve (h : Identified crates web A parts state resource parts' token rel)
    (hno : ∀ r req, ¬ Asks crates web A world parts state r req) :
    CallsMediated crates web A world parts state [.resolve (tokenHash crates token)] where
  resolve_one := by
    intro r p t rel' hid
    obtain ⟨-,-,rfl,-⟩ := h.iff.mp hid
    rfl
  resolve_zero hnone := absurd ⟨_,_,_,_,h⟩ hnone
  check_one r req hasks := absurd hasks (hno r req)
  check_zero _ := rfl
  no_list := by simp

theorem Identified.calls_check (h : Identified crates web A parts state resource parts' token rel)
    (hsession : world.resolve (tokenHash crates token) = .ok (some session))
    (himp : rel.val ≠ Rel.IMPOSSIBLE) : CallsMediated crates web A world parts state
      [.resolve (tokenHash crates token),.rpc (.check (guardRequest web resource rel session))] where
  resolve_one := by
    intro r p t rel' hid
    obtain ⟨-,-,rfl,-⟩ := h.iff.mp hid
    rfl
  resolve_zero hnone := absurd ⟨_,_,_,_,h⟩ hnone
  check_one := by
    intro r req hasks
    obtain ⟨-,-,session',hsession',rfl⟩ := h.asks_iff.mp hasks
    cases hsession.symm.trans hsession'
    rfl
  check_zero hnone := absurd ⟨_,_,h.asks_iff.mpr ⟨rfl,himp,_,hsession,rfl⟩⟩ hnone
  no_list := by simp

theorem Course.calls_mediated (h : Course crates web fromRef A world parts state calls verdict) :
    CallsMediated crates web A world parts state calls := by
  cases h with
  | unparsed hparse => exact calls_nil (not_identified_of_unparsed hparse)
  | noToken hparse htoken => exact calls_nil (not_identified_of_noToken hparse htoken)
  | noRel hparse htoken hrel => exact calls_nil (not_identified_of_noRel hparse hrel)
  | fault hid herr => exact hid.calls_resolve fun r req => by simp [hid.asks_iff, herr]
  | unknown hid hunknown => exact hid.calls_resolve fun r req => by simp [hid.asks_iff, hunknown]
  | impossible hid hsession himp => exact hid.calls_resolve fun r req => by simp [hid.asks_iff, himp]
  | checked hid hsession himp => exact hid.calls_check hsession himp

theorem Verdict.ofCheck_eq_granted {resource' : R} {principal : Principal}
    {result : Except CallError CheckResult} :
    (ofCheck resource result : Verdict R E) = .granted principal resource' ↔
      resource' = resource ∧ result = .ok (.ok principal) := by
  rcases result with err | principal' | principal' | _ <;> simp [ofCheck, and_comm, eq_comm]

theorem Verdict.ofCheck_ne_noSession {resource' : R} {location : String}
    {result : Except CallError CheckResult} :
    (ofCheck resource result : Verdict R E) ≠ .noSession resource' location := by
  rcases result with err | principal' | principal' | _ <;> simp [ofCheck]

theorem Course.granted_iff (h : Course crates web fromRef A world parts state calls verdict)
    {principal : Principal} {resource : R} : verdict = .granted principal resource ↔
      ∃ req, Asks crates web A world parts state resource req ∧
        world.check req = .ok ⟨some principal.val,true⟩ := by
  cases h with
  | unparsed hparse => simp [not_asks (not_identified_of_unparsed hparse)]
  | noToken hparse htoken => simp [not_asks (not_identified_of_noToken hparse htoken)]
  | noRel hparse htoken hrel => simp [not_asks (not_identified_of_noRel hparse hrel)]
  | fault hid herr => simp [hid.asks_iff, herr]
  | unknown hid hunknown => simp [hid.asks_iff, hunknown]
  | impossible hid hsession himp => simp [hid.asks_iff, himp]
  | checked hid hsession himp => simp [hid.asks_iff, hsession, himp, Verdict.ofCheck_eq_granted]

theorem Course.noSession_iff (h : Course crates web fromRef A world parts state calls verdict)
    {resource : R} {location : String} : .noSession resource location = verdict ↔
      NoSession crates web fromRef A world parts state resource location := by
  rw [Axum.noSession_iff]
  cases h with
  | unparsed hparse => simp [hparse, not_identified_of_unparsed hparse]
  | noToken hparse htoken =>
    simp [hparse, htoken, not_identified_of_noToken hparse htoken, eq_comm]
  | noRel hparse htoken hrel => simp [hparse, htoken, not_identified_of_noRel hparse hrel]
  | fault hid herr => simp [hid.iff, hid.1, hid.2.1, herr]
  | unknown hid hunknown => simp [hid.iff, hid.1, hid.2.1, hunknown]
  | impossible hid hsession himp => simp [hid.iff, hid.1, hid.2.1, hsession]
  | checked hid hsession himp =>
    simp [hid.iff, hid.1, hid.2.1, hsession, Verdict.ofCheck_ne_noSession.symm]

theorem Verdict.failed_eq_ofCheck {err : WebResourceError E} {reply : Except Status Pb.CheckResponse} :
    .failed err = ofCheck resource (checkResult reply) ↔
      (∃ id, reply = .ok ⟨some id,false⟩) ∧ err = .forbidden ∨
      reply = .ok ⟨none,false⟩ ∧ err = .forbidden ∨
      reply = .ok ⟨none,true⟩ ∧ err = .internalServerError (.call .unexpectedResponseFormat) ∨
      ∃ status, reply = .error status ∧ err = .internalServerError (.call (.status status)) := by
  rcases reply with status | ⟨_ | id,_ | _⟩ <;> simp [checkResult, ofCheck]

theorem Course.failed_iff (h : Course crates web fromRef A world parts state calls verdict)
    {err : WebResourceError E} : .failed err = verdict ↔
      Fails crates web A world parts state err := by
  rw [fails_iff]
  cases h with
  | unparsed hparse =>
    have hno : ∀ r p t rel, ¬ Identified crates web A parts state r p t rel :=
      not_identified_of_unparsed hparse
    simp [hparse, hno, not_authenticated hno, not_asks hno]
  | noToken hparse htoken =>
    have hno := not_identified_of_noToken hparse htoken
    simp [hparse, htoken, hno, not_authenticated hno, not_asks hno]
  | noRel hparse htoken hrel =>
    have hno : ∀ r p t rel, ¬ Identified crates web A parts state r p t rel :=
      not_identified_of_noRel hparse hrel
    simp [hparse, htoken, hrel, hno, not_authenticated hno, not_asks hno]
  | fault hid herr =>
    simp [hid.iff, hid.1, hid.2.1, hid.2.2, hid.authenticated_iff, hid.asks_iff, herr]
  | unknown hid hunknown =>
    simp [hid.iff, hid.1, hid.2.1, hid.2.2, hid.authenticated_iff, hid.asks_iff, hunknown]
  | impossible hid hsession himp =>
    simp [hid.iff, hid.1, hid.2.1, hid.2.2, hid.authenticated_iff, hid.asks_iff, hsession, himp]
  | checked hid hsession himp =>
    simp [hid.iff, hid.1, hid.2.1, hid.2.2, hid.authenticated_iff, hid.asks_iff, hsession, himp,
      Verdict.failed_eq_ofCheck]

theorem Verdict.withPrincipal_eq_ok {principal : Principal} :
    verdict.withPrincipal = .ok ⟨principal,resource⟩ ↔ verdict = .granted principal resource := by
  cases verdict <;> simp [withPrincipal]

theorem Verdict.withPrincipal_eq_error {err : WebResourceError E} :
    verdict.withPrincipal = .error err ↔ .failed err = verdict ∨
      ∃ resource location, .noSession resource location = verdict ∧ err = .missingSession location := by
  cases verdict <;> simp [withPrincipal, eq_comm]

theorem Verdict.withOptPrincipal_eq_some {principal : Principal} :
    verdict.withOptPrincipal = .ok ⟨some principal,resource⟩ ↔ verdict = .granted principal resource := by
  cases verdict <;> simp [withOptPrincipal]

theorem Verdict.withOptPrincipal_eq_none : verdict.withOptPrincipal = .ok ⟨none,resource⟩ ↔
    ∃ location, .noSession resource location = verdict := by
  cases verdict <;> simp [withOptPrincipal, eq_comm]

theorem Verdict.withOptPrincipal_eq_error {err : WebResourceError E} :
    verdict.withOptPrincipal = .error err ↔ .failed err = verdict := by
  cases verdict <;> simp [withOptPrincipal, eq_comm]

theorem Course.granted_iff_asked (h : Course crates web fromRef A world parts state calls verdict)
    {principal : Principal} : verdict = .granted principal resource ↔
      ∃ req, Asks crates web A world parts state resource req ∧
        calls.filterMap Call.checkRequest? = [req] ∧ world.check req = .ok ⟨some principal.val,true⟩ := by
  rw [h.granted_iff]
  constructor
  · rintro ⟨req,hasks,hreply⟩
    exact ⟨req,hasks,h.calls_mediated.check_one resource req hasks,hreply⟩
  · rintro ⟨req,hasks,-,hreply⟩
    exact ⟨req,hasks,hreply⟩

variable (crates web fromRef A world parts state)

theorem WithPrincipal.mediated : Mediated crates web fromRef A world parts state
    (WithPrincipal.fromRequestParts crates web fromRef A parts state) := by
  obtain ⟨verdict,hcourse,hrun⟩ := WithPrincipal.course crates web fromRef A world parts state
  refine ⟨fun principal resource => ?_,fun err => ?_,hcourse.calls_mediated⟩
  · rw [hrun, Verdict.withPrincipal_eq_ok, hcourse.granted_iff_asked]
  · simp only [hrun, Verdict.withPrincipal_eq_error, hcourse.failed_iff, hcourse.noSession_iff]

theorem WithOptPrincipal.mediated : OptMediated crates web fromRef world parts state
    (WithOptPrincipal.fromRequestParts crates web parts state) := by
  obtain ⟨verdict,hcourse,hrun⟩ := WithOptPrincipal.course crates web fromRef world parts state
  refine ⟨fun principal resource => ?_,fun resource => ?_,fun err => ?_,hcourse.calls_mediated⟩
  · rw [hrun, Verdict.withOptPrincipal_eq_some, hcourse.granted_iff_asked]
  · simp only [hrun, Verdict.withOptPrincipal_eq_none, hcourse.noSession_iff]
  · rw [hrun, Verdict.withOptPrincipal_eq_error, hcourse.failed_iff]

/-- No extractor lets a request through that the check server has not allowed,
or, with an optional principal, that comes without a session. -/
theorem complete_mediation : Mediated crates web fromRef A world parts state
      (WithPrincipal.fromRequestParts crates web fromRef A parts state) ∧
    OptMediated crates web fromRef world parts state
      (WithOptPrincipal.fromRequestParts crates web parts state) :=
  ⟨WithPrincipal.mediated crates web fromRef A world parts state,
    WithOptPrincipal.mediated crates web fromRef world parts state⟩

end NioClient.Axum
