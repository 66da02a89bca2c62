import NioClient.Axum.MethodGate
import NioClient.Axum.Responses

/-! # Handlers behind an extractor

The router runs a handler once its extractor has passed. Whatever calls the handler makes, those of
the resolver and of the check server among them, come after the extractor's.
-/
namespace NioClient.Axum
open Environment Check Session
variable {H S R E B Q T : Type} {A' : Q → Type}

/-- Of `Authenticated<BearerTokenAuth>`, its principal. There is no check. -/
def Authenticated.fromRequestParts (crates : Crates H) (fromRef : S → AuthState) (parts : Parts H) (state : S) :
    Handler (Except (WebResourceError E) UserId) :=
  let authState := fromRef state
  match AuthScheme.bearerTokenAuth.token crates parts.headers with
  | none => return .error (.missingSession (authState.signinLocation parts))
  | some token => do
    match ← resolveSubject crates token with
    | .principal principal => return .ok principal
    | .notFound => return .error (.missingSession (authState.signinLocation parts))
    | .error err => return .error err

section Routed
variable (f : Call → Q) (back : ∀ call, A' (f call) → call.Reply)

/-- The router answers a rejection by itself. -/
def orReject (handler : T → Program Q A' (Response B)) :
    Except (WebResourceError E) T → Program Q A' (Response B)
  | .error err => return err.intoResponse
  | .ok extracted => handler extracted

def routed (extractor : Handler (Except (WebResourceError E) T)) (handler : T → Program Q A' (Response B)) :
    Program Q A' (Response B) := extractor.lift f back >>= orReject handler

def checked (web : WebResource H S R E) (resource : R) (rel : Rel)
    (handler : WithPrincipal R → Program Q A' (Response B)) (u : UserId) : Program Q A' (Response B) := do
  let result ← (viaRpc (check (web.namespaceOf resource) (web.object resource) rel u none)).lift f back
  orReject handler (Verdict.ofCheck (E := E) resource result).withPrincipal

end Routed

variable {f : Call → Q} {back : ∀ call, A' (f call) → call.Reply} {log : List (Σ q, A' q)}
  {p : Program Q A' (Response B)}

/-- How far a request has come: to some part of the extractor, which may have refused it, or to the
handler. -/
inductive Routed (f : Call → Q) (back : ∀ call, A' (f call) → call.Reply)
    (extractor : Handler (Except (WebResourceError E) T)) (handler : T → Program Q A' (Response B)) :
    List (Σ q, A' q) → Program Q A' (Response B) → Prop
  | extractor {own : List (Σ call, A' (f call))} {r : Handler (Except (WebResourceError E) T)}
      (h : extractor.Reaches (own.map fun e => ⟨e.1,back e.1 e.2⟩) r)
      (hr : ∀ extracted, r ≠ .pure (.ok extracted)) :
      Routed f back extractor handler (own.map fun e => ⟨f e.1,e.2⟩) (routed f back r handler)
  | handler {own : List (Σ call, A' (f call))} {extracted : T} {rest : List (Σ q, A' q)}
      {p : Program Q A' (Response B)}
      (h : extractor.Reaches (own.map fun e => ⟨e.1,back e.1 e.2⟩) (.pure (.ok extracted)))
      (hrest : (handler extracted).Reaches rest p) :
      Routed f back extractor handler (own.map (fun e => ⟨f e.1,e.2⟩) ++ rest) p

theorem routed_reaches {extractor : Handler (Except (WebResourceError E) T)}
    {handler : T → Program Q A' (Response B)} (h : (routed f back extractor handler).Reaches log p) :
    Routed f back extractor handler log p := by
  rcases h.of_parts with ⟨q,next,hfirst,rfl⟩ | ⟨first,rest,result,rfl,hfirst,hrest⟩
  · obtain ⟨own,r,rfl,hown,hr⟩ := hfirst.of_lifted
    rw [hr]
    refine .extractor hown fun extracted hpassed => ?_
    rw [hpassed] at hr
    cases hr
  · obtain ⟨own,rfl,hown⟩ := hfirst.of_lift
    cases result with
    | error err =>
      obtain ⟨rfl,rfl⟩ := hrest.of_pure
      rw [List.append_nil]
      exact .extractor hown fun extracted hpassed => by cases hpassed
    | ok extracted => exact .handler hown hrest

theorem own_cons {own : List (Σ call, A' (f call))} {call : Call} {reply : call.Reply}
    {rest : List (Σ call, Call.Reply call)} (h : own.map (fun e => ⟨e.1,back e.1 e.2⟩) = ⟨call,reply⟩ :: rest) :
    ∃ raw own', own = ⟨call,raw⟩ :: own' ∧ back call raw = reply ∧
      own'.map (fun e => (⟨e.1,back e.1 e.2⟩ : Σ call, Call.Reply call)) = rest := by
  obtain ⟨⟨call',raw⟩,own',rfl,hhead,hrest⟩ := List.map_eq_cons_iff.mp h
  obtain ⟨rfl,hreply⟩ := Sigma.mk.inj hhead
  exact ⟨raw,own',rfl,eq_of_heq hreply,hrest⟩

variable {crates : Crates H} {web : WebResource H S R E} {fromRef : S → AuthState} {A : AuthScheme}
  {parts : Parts H} {state : S}

/-- How far a request to a guarded handler has come: it reaches the handler on two replies, where the
resolver has found the session of its token, and the check server has allowed the principal of that
session what the request asks for. -/
inductive Guarded (f : Call → Q) (back : ∀ call, A' (f call) → call.Reply) (crates : Crates H)
    (web : WebResource H S R E) (fromRef : S → AuthState) (A : AuthScheme) (parts : Parts H) (state : S)
    (handler : WithPrincipal R → Program Q A' (Response B)) :
    List (Σ q, A' q) → Program Q A' (Response B) → Prop
  | extractor {own : List (Σ call, A' (f call))} {r : Handler (Except (WebResourceError E) (WithPrincipal R))}
      (h : (WithPrincipal.fromRequestParts crates web fromRef A parts state).Reaches
        (own.map fun e => ⟨e.1,back e.1 e.2⟩) r) (hr : ∀ auth, r ≠ .pure (.ok auth)) :
      Guarded f back crates web fromRef A parts state handler (own.map fun e => ⟨f e.1,e.2⟩)
        (routed f back r handler)
  | handler {auth : WithPrincipal R} {parts' : Parts H} {token : String} {rel : Rel} {session : ResolvedSession}
      {resolved : A' (f (.resolve (tokenHash crates token)))}
      {allowed : A' (f (.rpc (.check (guardRequest web auth.resource rel session))))} {rest : List (Σ q, A' q)}
      {p : Program Q A' (Response B)}
      (hid : Identified crates web A parts state auth.resource parts' token rel)
      (hresolved : back _ resolved = .ok (some session))
      (hallowed : back _ allowed = .ok ⟨some auth.principal.val,true⟩) (h : (handler auth).Reaches rest p) :
      Guarded f back crates web fromRef A parts state handler (⟨_,resolved⟩ :: ⟨_,allowed⟩ :: rest) p

/-- Complete mediation, whatever the handler does. -/
theorem handler_mediated {handler : WithPrincipal R → Program Q A' (Response B)}
    (h : (routed f back (WithPrincipal.fromRequestParts crates web fromRef A parts state) handler).Reaches log p) :
    Guarded f back crates web fromRef A parts state handler log p := by
  cases routed_reaches h with
  | extractor hown hr => exact .extractor hown hr
  | @handler own auth rest p hown hrest =>
    obtain ⟨principal,resource⟩ := auth
    obtain ⟨verdict,hreaches,hpassed⟩ := withPrincipal_reaches hown
    obtain rfl := Verdict.withPrincipal_eq_ok.mp hpassed
    obtain ⟨parts',token,rel,session,hid,hlog⟩ := courseOf_granted hreaches
    obtain ⟨resolved,own,rfl,hresolved,hlog⟩ := own_cons hlog
    obtain ⟨allowed,own,rfl,hallowed,hlog⟩ := own_cons hlog
    obtain rfl := List.map_eq_nil_iff.mp hlog
    exact .handler hid hresolved hallowed hrest

def listing (auth : WithPrincipal Obj) : Handler (Response Unit) :=
  (fun _ => { status := 200 }) <$> viaRpc (list ⟨"article"⟩ ⟨"article.get"⟩ ⟨auth.principal.val⟩ none)

theorem handler_mediated_page :
    let parts : Parts (Option String) := ⟨.get,some "/articles/3",some "tok"⟩
    let log : List (Σ call, Call.Reply call) := [⟨.resolve "",.ok (some ⟨"reader","tenant",0⟩)⟩,
      ⟨.rpc (.check ⟨"article","3","article.get","reader",Timestamp.EMPTY⟩),.ok ⟨some "reader",true⟩⟩]
    (routed id (fun _ reply => reply) (WithPrincipal.fromRequestParts cookieCrates readOnlyPage
        (fun _ => .new none) .sessionCookieAuth parts ()) listing).Reaches log (listing ⟨⟨"reader"⟩,⟨"3"⟩⟩) ∧
      Guarded id (fun _ reply => reply) cookieCrates readOnlyPage (fun _ => .new none) .sessionCookieAuth
        parts () listing log (listing ⟨⟨"reader"⟩,⟨"3"⟩⟩) := by
  intro parts log
  have hreaches : (routed id (fun _ reply => reply) (WithPrincipal.fromRequestParts cookieCrates readOnlyPage
      (fun _ => .new none) .sessionCookieAuth parts ()) listing).Reaches log (listing ⟨⟨"reader"⟩,⟨"3"⟩⟩) :=
    .cons (.cons (.refl _))
  exact ⟨hreaches,handler_mediated hreaches⟩

theorem authenticated_reaches {log : List (Σ call, Call.Reply call)} {u : UserId}
    (h : (Authenticated.fromRequestParts (E := E) crates fromRef parts state).Reaches log (.pure (.ok u))) :
    ∃ token session, AuthScheme.bearerTokenAuth.token crates parts.headers = some token ∧
      log = [⟨.resolve (tokenHash crates token),.ok (some session)⟩] ∧ u = ⟨session.principal⟩ := by
  unfold Authenticated.fromRequestParts at h
  dsimp only at h
  split at h
  · cases h.of_pure.2
  · next token htoken =>
    obtain ⟨first,rest,subject,rfl,hfirst,hrest⟩ := h.of_bind
    obtain ⟨reply,rfl,rfl⟩ := resolveSubject_reaches hfirst
    rcases reply with err | _ | session
    · cases hrest.of_pure.2
    · cases hrest.of_pure.2
    · obtain ⟨rfl,hu⟩ := hrest.of_pure
      cases hu
      exact ⟨token,session,htoken,rfl,rfl⟩

def bearerCrates : Crates (Option String) where
  typedGetCookie _ := none
  typedTryGetBearer bearer := .ok bearer
  sha256 _ := []

/-- A handler that takes `Authenticated` and runs the check itself is the same as one behind the guard,
call by call, where `parse` finds the resource and the relation in the request and leaves it as it is. -/
theorem deferred_check {resource : R} {rel : Rel} (hparse : web.parse parts state = (.ok resource,parts))
    (hrel : web.rel resource parts.method = some rel) (handler : WithPrincipal R → Program Q A' (Response B)) :
    routed f back (WithPrincipal.fromRequestParts crates web fromRef .bearerTokenAuth parts state) handler =
      routed f back (Authenticated.fromRequestParts (E := E) crates fromRef parts state)
        (checked (E := E) f back web resource rel handler) := by
  rw [WithPrincipal.fromRequestParts_eq, courseOf, hparse, Authenticated.fromRequestParts]
  dsimp only
  cases AuthScheme.bearerTokenAuth.token crates parts.headers with
  | none => rfl
  | some token =>
    simp only [hrel, routed, map_eq_pure_bind, Program.lift_bind, bind_assoc]
    apply bind_congr
    rintro (u | _ | err)
    · simp only [Program.lift_bind, Program.lift_pure, bind_assoc, pure_bind, orReject, checked]
    · rfl
    · rfl

theorem deferred_check_page :
    routed id (fun _ reply => reply) (WithPrincipal.fromRequestParts bearerCrates readOnlyPage
        (fun _ => .new none) .bearerTokenAuth ⟨.get,some "/articles/3",some "tok"⟩ ()) listing =
      routed id (fun _ reply => reply) (Authenticated.fromRequestParts (E := Empty) bearerCrates
        (fun _ => .new none) ⟨.get,some "/articles/3",some "tok"⟩ ())
        (checked (E := Empty) id (fun _ reply => reply) readOnlyPage ⟨"3"⟩ ⟨"article.get"⟩ listing) :=
  deferred_check rfl rfl listing

/-- A handler which finds by calls of its own what it has to check, has come past its check: the resolver
has found the session of the token, and the check server has allowed the principal of that session what
was found. -/
inductive Deferred (f : Call → Q) (back : ∀ call, A' (f call) → call.Reply) (crates : Crates H)
    (web : WebResource H S R E) (parts : Parts H) (find : UserId → Program Q A' (R × Rel))
    (handler : WithPrincipal R → Program Q A' (Response B)) :
    List (Σ q, A' q) → Program Q A' (Response B) → Prop
  | handler {token : String} {session : ResolvedSession} {auth : WithPrincipal R} {rel : Rel}
      {resolved : A' (f (.resolve (tokenHash crates token)))}
      {allowed : A' (f (.rpc (.check (guardRequest web auth.resource rel session))))}
      {found rest : List (Σ q, A' q)} {p : Program Q A' (Response B)}
      (htoken : AuthScheme.bearerTokenAuth.token crates parts.headers = some token)
      (hresolved : back _ resolved = .ok (some session))
      (hallowed : back _ allowed = .ok ⟨some auth.principal.val,true⟩)
      (hfound : (find ⟨session.principal⟩).Reaches found (.pure (auth.resource,rel)))
      (h : (handler auth).Reaches rest p) :
      Deferred f back crates web parts find handler (⟨_,resolved⟩ :: (found ++ ⟨_,allowed⟩ :: rest)) p

/-- What the check is about need not be in the parts of the request. If the handler makes no call with
an effect before its check, it has none on a request that the check server has not allowed. -/
theorem deferred_mediated {ok : Q → Prop} {find : UserId → Program Q A' (R × Rel)}
    {handler : WithPrincipal R → Program Q A' (Response B)} (hcalls : ∀ call, ok (f call))
    (hfind : ∀ u, (find u).Only ok)
    (h : (routed f back (Authenticated.fromRequestParts (E := E) crates fromRef parts state) fun u =>
      find u >>= fun found => checked (E := E) f back web found.1 found.2 handler u).Reaches log p)
    (heffect : ∃ e ∈ log, ¬ ok e.1) : Deferred f back crates web parts find handler log p := by
  obtain ⟨e,he,hnot⟩ := heffect
  have hown (own : List (Σ call, A' (f call))) : ∀ e ∈ own.map (fun e => (⟨f e.1,e.2⟩ : Σ q, A' q)), ok e.1 := by
    intro e he
    obtain ⟨e',-,rfl⟩ := List.mem_map.mp he
    exact hcalls e'.1
  cases routed_reaches h with
  | @extractor own r _ _ => exact absurd (hown own e he) hnot
  | @handler own u rest p hauth hrest =>
    obtain ⟨token,session,htoken,hlog,rfl⟩ := authenticated_reaches hauth
    obtain ⟨resolved,own,rfl,hresolved,hlog⟩ := own_cons hlog
    obtain rfl := List.map_eq_nil_iff.mp hlog
    -- an effect is in none of the calls up to the check
    have hlate {pre post : List (Σ q, A' q)} (hpre : ∀ e ∈ pre, ok e.1) (he : e ∈ pre ++ post) : e ∈ post :=
      (List.mem_append.mp he).resolve_left fun hmem => hnot (hpre e hmem)
    have hrest' : e ∈ rest := hlate (hown [⟨_,resolved⟩]) he
    rcases hrest.of_parts with ⟨q,next,hfirst,-⟩ | ⟨found,rest,⟨resource,rel⟩,rfl,hfound,hchecked⟩
    · exact absurd (((hfind _).reaches hfirst).1 e hrest') hnot
    have hafter := hlate ((hfind _).reaches hfound).1 hrest'
    rcases hchecked.of_parts with ⟨q,next,hfirst,-⟩ | ⟨first,rest,result,rfl,hfirst,hend⟩
    · obtain ⟨own,r,rfl,-⟩ := hfirst.of_lifted
      exact absurd (hown own e hafter) hnot
    obtain ⟨own,rfl,hown'⟩ := hfirst.of_lift
    have hhandled := hlate (hown own) hafter
    by_cases himp : rel.val = Rel.IMPOSSIBLE
    · rw [check_impossible himp] at hown'
      cases hown'.of_pure.2
      cases hend.of_pure.1
      cases hhandled
    obtain ⟨reply,hlog,rfl⟩ := viaRpc_check_reaches himp hown'
    obtain ⟨allowed,own,rfl,hallowed,hlog⟩ := own_cons hlog
    obtain rfl := List.map_eq_nil_iff.mp hlog
    cases hverdict : (Verdict.ofCheck (E := E) resource (checkResult reply)).withPrincipal with
    | error err =>
      rw [hverdict] at hend
      cases hend.of_pure.1
      cases hhandled
    | ok auth =>
      rw [hverdict] at hend
      obtain ⟨rfl,hok⟩ := Verdict.ofCheck_eq_granted.mp (Verdict.withPrincipal_eq_ok.mp hverdict)
      obtain rfl := checkResult_eq_ok.mp hok
      exact .handler htoken hresolved hallowed hfound hend

def WritingReply : Option Call → Type
  | some call => call.Reply
  | none => Unit

def target (_ : UserId) : Program (Option Call) WritingReply (Obj × Rel) := return (⟨"3"⟩,⟨"article.update"⟩)

def writing (_ : WithPrincipal Obj) : Program (Option Call) WritingReply (Response Unit) :=
  .call none fun _ => return { status := 200 }

theorem deferred_mediated_write :
    let parts : Parts (Option String) := ⟨.post,some "/articles",some "tok"⟩
    let req := checkRequest ⟨"article"⟩ ⟨"3"⟩ ⟨"article.update"⟩ ⟨"writer"⟩ none
    Deferred some (fun _ reply => reply) bearerCrates readOnlyPage parts target writing
      [⟨some (.resolve ""),.ok (some ⟨"writer","tenant",0⟩)⟩,
        ⟨some (.rpc (.check req)),.ok ⟨some "writer",true⟩⟩,⟨none,()⟩] (.pure { status := 200 }) := by
  intro parts req
  have hreaches : (routed some (fun _ reply => reply) (Authenticated.fromRequestParts (E := Empty) bearerCrates
      (fun _ : Unit => .new none) parts ()) fun u => target u >>= fun found =>
        checked (E := Empty) some (fun _ reply => reply) readOnlyPage found.1 found.2 writing u).Reaches
      [⟨some (.resolve ""),.ok (some ⟨"writer","tenant",0⟩)⟩,
        ⟨some (.rpc (.check req)),.ok ⟨some "writer",true⟩⟩,⟨none,()⟩] (.pure { status := 200 }) :=
    .cons (.cons (.cons (.refl _)))
  have hfind (u : UserId) : (target u).Only fun call => call.isSome = true := trivial
  exact deferred_mediated (fun _ => rfl) hfind hreaches ⟨⟨none,()⟩, by simp, by simp⟩

end NioClient.Axum
