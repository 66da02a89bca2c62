import NioClient.Axum.Mediation

/-! # Methods a resource does not admit

`WithPrincipal` refuses them from every caller. `WithOptPrincipal` returns early for
a caller without a session, and does so before the relation of the method is looked at
where there is no token, and before it is checked where the token is unknown.
-/
namespace NioClient.Axum
open Environment Check Session
variable {H S R E : Type} (crates : Crates H) (web : WebResource H S R E) (fromRef : S → AuthState)
  (A : AuthScheme) (world : World) (parts parts' : Parts H) (state : S) (resource : R)

/-- The resource has no relation for the method, or the one that never holds. -/
def Refused (method : Method) : Prop :=
  web.rel resource method = none ∨ web.rel resource method = some ⟨Rel.IMPOSSIBLE⟩

structure NeverAdmitted : Prop where
  withPrincipal : ∀ A, ∃ err,
    (WithPrincipal.fromRequestParts crates web fromRef A parts state).run world.reply = .error err
  withOptPrincipal : ∃ err,
    (WithOptPrincipal.fromRequestParts crates web parts state).run world.reply = .error err

def PresentsSession : Prop :=
  ∃ token, A.token crates parts'.headers = some token ∧
    (web.rel resource parts'.method = none ∨ world.resolve (tokenHash crates token) ≠ .ok none)

variable {crates web fromRef A world parts parts' state resource} {calls : List Call}
  {verdict : Verdict R E}

/-- A request with a refused method fails, or it is taken to come without a session. -/
theorem Course.refused (h : Course crates web fromRef A world parts state calls verdict)
    (hparse : web.parse parts state = (.ok resource,parts')) (hrefused : Refused web resource parts'.method) :
    (∃ err, verdict = .failed err) ∧ PresentsSession crates web A world parts' resource ∨
    (∃ location, verdict = .noSession resource location) ∧
      ¬ PresentsSession crates web A world parts' resource := by
  cases h with
  | unparsed hparse' => cases hparse.symm.trans hparse'
  | noToken hparse' htoken =>
    cases hparse.symm.trans hparse'
    refine Or.inr ⟨⟨_,rfl⟩,?_⟩
    rintro ⟨token,htoken',-⟩
    cases htoken.symm.trans htoken'
  | noRel hparse' htoken hrel =>
    cases hparse.symm.trans hparse'
    exact Or.inl ⟨⟨_,rfl⟩,_,htoken,Or.inl hrel⟩
  | fault hid herr =>
    cases hparse.symm.trans hid.1
    exact Or.inl ⟨⟨_,rfl⟩,_,hid.2.1,Or.inr (by simp [herr])⟩
  | unknown hid hunknown =>
    cases hparse.symm.trans hid.1
    refine Or.inr ⟨⟨_,rfl⟩,?_⟩
    rintro ⟨token,htoken,hnone | hknown⟩
    · cases hid.2.2.symm.trans hnone
    · cases hid.2.1.symm.trans htoken
      exact hknown hunknown
  | impossible hid hsession himp =>
    cases hparse.symm.trans hid.1
    exact Or.inl ⟨⟨_,rfl⟩,_,hid.2.1,Or.inr (by simp [hsession])⟩
  | checked hid hsession hrel =>
    cases hparse.symm.trans hid.1
    rcases hrefused with hnone | himp
    · cases hid.2.2.symm.trans hnone
    · cases hid.2.2.symm.trans himp
      exact absurd rfl hrel

theorem withPrincipal_refused (hparse : web.parse parts state = (.ok resource,parts'))
    (hrefused : Refused web resource parts'.method) : ∃ err,
      (WithPrincipal.fromRequestParts crates web fromRef A parts state).run world.reply = .error err := by
  obtain ⟨verdict,hcourse,hrun⟩ := WithPrincipal.course crates web fromRef A world parts state
  rw [hrun]
  rcases hcourse.refused hparse hrefused with ⟨⟨err,rfl⟩,-⟩ | ⟨⟨location,rfl⟩,-⟩
  · exact ⟨err,rfl⟩
  · exact ⟨.missingSession location,rfl⟩

theorem withOptPrincipal_refused_iff (fromRef : S → AuthState)
    (hparse : web.parse parts state = (.ok resource,parts')) (hrefused : Refused web resource parts'.method) :
    (∃ err, (WithOptPrincipal.fromRequestParts crates web parts state).run world.reply = .error err) ↔
      PresentsSession crates web .sessionCookieAuth world parts' resource := by
  obtain ⟨verdict,hcourse,hrun⟩ := WithOptPrincipal.course crates web fromRef world parts state
  rw [hrun]
  rcases hcourse.refused hparse hrefused with ⟨⟨err,rfl⟩,hpresents⟩ | ⟨⟨location,rfl⟩,hanonymous⟩
  · exact ⟨fun _ => hpresents,fun _ => ⟨err,rfl⟩⟩
  · constructor
    · rintro ⟨err,herr⟩
      cases herr
    · intro hpresents
      exact absurd hpresents hanonymous

/-- A refused method is never admitted exactly when the caller presents a session, and two
callers of it fare alike exactly when both or neither do. -/
theorem neverAdmitted_iff (hparse : web.parse parts state = (.ok resource,parts'))
    (hrefused : Refused web resource parts'.method) :
    (NeverAdmitted crates web fromRef world parts state ↔
      PresentsSession crates web .sessionCookieAuth world parts' resource) ∧
    ∀ other other', web.parse other state = (.ok resource,other') → other'.method = parts'.method →
      ((NeverAdmitted crates web fromRef world parts state ↔
          NeverAdmitted crates web fromRef world other state) ↔
        (PresentsSession crates web .sessionCookieAuth world parts' resource ↔
          PresentsSession crates web .sessionCookieAuth world other' resource)) := by
  have hiff {p p' : Parts H} (hp : web.parse p state = (.ok resource,p'))
      (hr : Refused web resource p'.method) : NeverAdmitted crates web fromRef world p state ↔
        PresentsSession crates web .sessionCookieAuth world p' resource := by
    rw [← withOptPrincipal_refused_iff fromRef hp hr]
    exact ⟨fun h => h.withOptPrincipal,fun h => ⟨fun _ => withPrincipal_refused hp hr,h⟩⟩
  refine ⟨hiff hparse hrefused,fun other other' hother hmethod => ?_⟩
  rw [hiff hparse hrefused, hiff hother (hmethod.symm ▸ hrefused)]

def cookieCrates : Crates (Option String) where
  typedGetCookie cookie := cookie.map fun token name => if name = "session" then some token else none
  typedTryGetBearer _ := .ok none
  sha256 _ := []

def readOnlyPage : WebResource (Option String) Unit Obj Empty where
  namespaceOf _ := ⟨"article"⟩
  rel _ method := if method = .get then some ⟨"article.get"⟩ else none
  parse parts _ := (.ok ⟨"3"⟩,parts)
  object obj := obj

def strictWorld : World where
  resolve _ := .ok none
  check _ := .ok ⟨none,false⟩
  list _ := .ok ⟨"",[]⟩

/-- A POST without a cookie reaches the handler of the page, which does not admit it. -/
theorem anonymousPost_admitted : Refused readOnlyPage ⟨"3"⟩ .post ∧
    ¬ NeverAdmitted cookieCrates readOnlyPage (fun _ => AuthState.new none) strictWorld
      ⟨.post,some "/articles/3",none⟩ () := by
  refine ⟨Or.inl rfl,fun h => ?_⟩
  obtain ⟨err,herr⟩ := h.withOptPrincipal
  cases herr

theorem neverAdmitted_iff_cookie : NeverAdmitted cookieCrates readOnlyPage (fun _ => AuthState.new none)
    strictWorld ⟨.post,some "/articles/3",some "tok"⟩ () := by
  have hparse : readOnlyPage.parse ⟨.post,some "/articles/3",some "tok"⟩ () =
      (.ok ⟨"3"⟩,⟨.post,some "/articles/3",some "tok"⟩) := rfl
  exact (neverAdmitted_iff hparse (Or.inl rfl)).1.mpr ⟨"tok",rfl,Or.inl rfl⟩

end NioClient.Axum
