import NioClient.Axum.Mediation

/-! # The response to a refused request, and the replies behind a grant -/
namespace NioClient.Axum
open Environment Check Session
variable {H S R E B : Type}

/-- Of a response, its status, two of its headers, and its body. -/
structure Response (B : Type) where
  status : ℕ
  location : Option String := none
  setCookie : Option String := none
  body : Option B := none
deriving DecidableEq, Repr

def Response.redirectTo (location : String) : Response B := { status := 303, location := some location }

def WebResourceError.intoResponse : WebResourceError E → Response B
  | .missingSession loc => .redirectTo loc
  | .forbidden => { status := 403 }
  | .methodNotAllowed => { status := 405 }
  | .internalServerError _ => { status := 500 }
  | .parse _ => { status := 400 }

variable {crates : Crates H} {web : WebResource H S R E} {fromRef : S → AuthState} {A : AuthScheme}
  {parts : Parts H} {state : S} {principal : Principal} {resource : R} {log : List (Σ call, Call.Reply call)}

def Subject.ofReply : ResolveResult → Subject E
  | .ok (some session) => .principal ⟨session.principal⟩
  | .ok none => .notFound
  | .error err => .error (.internalServerError (.resolve err))

theorem resolveSubject_reaches {token : String} {subject : Subject E}
    (h : (resolveSubject crates token).Reaches log (.pure subject)) : ∃ reply : ResolveResult,
      log = [⟨.resolve (tokenHash crates token),reply⟩] ∧ subject = .ofReply reply := by
  rw [resolveSubject] at h
  obtain ⟨first,rest,reply,rfl,hfirst,hrest⟩ := h.of_bind
  rcases Program.Reaches.of_first hfirst with ⟨-,hpure⟩ | ⟨reply',rest',rfl,hnext⟩
  · cases hpure
  obtain ⟨rfl,hreply⟩ := hnext.of_pure
  cases hreply
  rcases reply with err | _ | session <;> obtain ⟨rfl,hsubject⟩ := hrest.of_pure <;> cases hsubject <;>
    exact ⟨_,rfl,rfl⟩

theorem viaRpc_check_reaches {ns : Namespace} {obj : Obj} {rel : Rel} {u : UserId}
    {result : Except CallError CheckResult} (hrel : rel.val ≠ Rel.IMPOSSIBLE)
    (h : (viaRpc (check ns obj rel u none)).Reaches log (.pure result)) :
    ∃ reply, log = [⟨.rpc (.check (checkRequest ns obj rel u none)),reply⟩] ∧ result = checkResult reply := by
  rw [check_possible hrel] at h
  rcases Program.Reaches.of_first h with ⟨-,hpure⟩ | ⟨reply,rest,rfl,hnext⟩
  · cases hpure
  obtain ⟨rfl,hreply⟩ := hnext.of_pure
  exact ⟨reply,rfl,Program.pure.inj hreply⟩

/-- What an identified request is told, and on which replies. -/
inductive Answered (crates : Crates H) (web : WebResource H S R E) (location : String) (resource : R)
    (token : String) (rel : Rel) : List (Σ call, Call.Reply call) → Verdict R E → Prop
  | fault (err : ResolveError) : Answered crates web location resource token rel
      [⟨.resolve (tokenHash crates token),.error err⟩] (.failed (.internalServerError (.resolve err)))
  | unknown : Answered crates web location resource token rel
      [⟨.resolve (tokenHash crates token),.ok none⟩] (.noSession resource location)
  | impossible (session : ResolvedSession) (hrel : rel.val = Rel.IMPOSSIBLE) :
      Answered crates web location resource token rel
        [⟨.resolve (tokenHash crates token),.ok (some session)⟩] (.failed .forbidden)
  | checked (session : ResolvedSession) (hrel : rel.val ≠ Rel.IMPOSSIBLE) (reply : Except Status Pb.CheckResponse) :
      Answered crates web location resource token rel
        [⟨.resolve (tokenHash crates token),.ok (some session)⟩,
          ⟨.rpc (.check (guardRequest web resource rel session)),reply⟩]
        (.ofCheck resource (checkResult reply))

variable {parts' : Parts H} {token : String} {rel : Rel} {verdict : Verdict R E}

theorem Identified.reaches (hid : Identified crates web A parts state resource parts' token rel)
    (h : (courseOf crates web fromRef A parts state).Reaches log (.pure verdict)) :
    Answered crates web ((fromRef state).signinLocation parts') resource token rel log verdict := by
  obtain ⟨hparse,htoken,hrel⟩ := hid
  rw [courseOf, hparse] at h
  simp only [htoken, hrel] at h
  obtain ⟨first,rest,subject,rfl,hfirst,hrest⟩ := h.of_bind
  obtain ⟨reply,rfl,rfl⟩ := resolveSubject_reaches hfirst
  rcases reply with err | _ | session
  · obtain ⟨rfl,hverdict⟩ := hrest.of_pure
    cases hverdict
    exact .fault err
  · obtain ⟨rfl,hverdict⟩ := hrest.of_pure
    cases hverdict
    exact .unknown
  · obtain ⟨first',rest',result,rfl,hcheck,hpure⟩ := hrest.of_bind
    obtain ⟨rfl,hverdict⟩ := hpure.of_pure
    cases hverdict
    by_cases himp : rel.val = Rel.IMPOSSIBLE
    · rw [check_impossible himp] at hcheck
      obtain ⟨rfl,hresult⟩ := hcheck.of_pure
      cases hresult
      exact .impossible session himp
    · obtain ⟨reply,rfl,rfl⟩ := viaRpc_check_reaches himp hcheck
      exact .checked session himp reply

/-- What a request is told, and on which replies. -/
inductive Told (crates : Crates H) (web : WebResource H S R E) (fromRef : S → AuthState) (A : AuthScheme)
    (parts : Parts H) (state : S) : List (Σ call, Call.Reply call) → Verdict R E → Prop
  | unparsed {err : E} {parts' : Parts H} (hparse : web.parse parts state = (.error err,parts')) :
      Told crates web fromRef A parts state [] (.failed (.parse err))
  | noToken {resource : R} {parts' : Parts H} (hparse : web.parse parts state = (.ok resource,parts'))
      (htoken : A.token crates parts'.headers = none) :
      Told crates web fromRef A parts state [] (.noSession resource ((fromRef state).signinLocation parts'))
  | noRel {resource : R} {parts' : Parts H} {token : String}
      (hparse : web.parse parts state = (.ok resource,parts'))
      (htoken : A.token crates parts'.headers = some token) (hrel : web.rel resource parts'.method = none) :
      Told crates web fromRef A parts state [] (.failed .methodNotAllowed)
  | identified {resource : R} {parts' : Parts H} {token : String} {rel : Rel} {log verdict}
      (hid : Identified crates web A parts state resource parts' token rel)
      (h : Answered crates web ((fromRef state).signinLocation parts') resource token rel log verdict) :
      Told crates web fromRef A parts state log verdict

theorem courseOf_told (h : (courseOf crates web fromRef A parts state).Reaches log (.pure verdict)) :
    Told crates web fromRef A parts state log verdict := by
  have hfull := h
  rw [courseOf] at h
  rcases hparse : web.parse parts state with ⟨err | resource,parts'⟩
  · rw [hparse] at h
    obtain ⟨rfl,hpure⟩ := h.of_pure
    cases hpure
    exact .unparsed hparse
  rw [hparse] at h
  dsimp only at h
  cases htoken : A.token crates parts'.headers with
  | none =>
    rw [htoken] at h
    obtain ⟨rfl,hpure⟩ := h.of_pure
    cases hpure
    exact .noToken hparse htoken
  | some token =>
    rw [htoken] at h
    dsimp only at h
    cases hrel : web.rel resource parts'.method with
    | none =>
      rw [hrel] at h
      obtain ⟨rfl,hpure⟩ := h.of_pure
      cases hpure
      exact .noRel hparse htoken hrel
    | some rel =>
      have hid : Identified crates web A parts state resource parts' token rel := ⟨hparse,htoken,hrel⟩
      exact .identified hid (hid.reaches hfull)

theorem courseOf_location (h : (courseOf crates web fromRef A parts state).Reaches log (.pure verdict))
    {location : String} (hloc : (∃ resource, verdict = .noSession resource location) ∨
      verdict = .failed (.missingSession location)) :
    location = (fromRef state).signinLocation (web.parse parts state).2 := by
  cases courseOf_told h with
  | unparsed | noRel => rcases hloc with ⟨resource,hloc⟩ | hloc <;> cases hloc
  | noToken hparse =>
    rw [hparse]
    rcases hloc with ⟨resource,hloc⟩ | hloc <;> cases hloc
    rfl
  | identified hid hanswered =>
    rw [hid.1]
    cases hanswered with
    | fault | impossible => rcases hloc with ⟨resource,hloc⟩ | hloc <;> cases hloc
    | unknown =>
      rcases hloc with ⟨resource,hloc⟩ | hloc <;> cases hloc
      rfl
    | checked session himp reply =>
      generalize checkResult reply = result at hloc
      rcases result with err | (_ | _ | _) <;> rcases hloc with ⟨resource,hloc⟩ | hloc <;> cases hloc

/-- A request is granted on two replies: the resolver has called its token a session, and
the check server has allowed the principal of that session what the request asks for. -/
theorem courseOf_granted (h : (courseOf crates web fromRef A parts state).Reaches log
    (.pure (.granted principal resource))) : ∃ parts' token rel session,
      Identified crates web A parts state resource parts' token rel ∧
      log = [⟨.resolve (tokenHash crates token),.ok (some session)⟩,
        ⟨.rpc (.check (guardRequest web resource rel session)),.ok ⟨some principal.val,true⟩⟩] := by
  have htold := courseOf_told h
  generalize hv : (Verdict.granted principal resource : Verdict R E) = verdict at htold
  cases htold with
  | unparsed | noToken | noRel => cases hv
  | identified hid hanswered =>
    cases hanswered with
    | fault | unknown | impossible => cases hv
    | checked session himp reply =>
      obtain ⟨rfl,hok⟩ := Verdict.ofCheck_eq_granted.mp hv.symm
      obtain rfl := checkResult_eq_ok.mp hok
      exact ⟨_,_,_,session,hid,rfl⟩

theorem withPrincipal_reaches {result : Except (WebResourceError E) (WithPrincipal R)}
    (h : (WithPrincipal.fromRequestParts crates web fromRef A parts state).Reaches log (.pure result)) :
    ∃ verdict, (courseOf crates web fromRef A parts state).Reaches log (.pure verdict) ∧
      verdict.withPrincipal = result := by
  rw [WithPrincipal.fromRequestParts_eq] at h
  exact h.of_map

theorem withOptPrincipal_reaches (fromRef : S → AuthState)
    {result : Except (WebResourceError E) (WithOptPrincipal R)}
    (h : (WithOptPrincipal.fromRequestParts crates web parts state).Reaches log (.pure result)) :
    ∃ verdict, (courseOf crates web fromRef .sessionCookieAuth parts state).Reaches log (.pure verdict) ∧
      verdict.withOptPrincipal = result := by
  rw [WithOptPrincipal.fromRequestParts_eq crates web fromRef] at h
  exact h.of_map

end NioClient.Axum
