import NioClient.Session.Confinement
import NioClient.Webapp.Entitlement

/-! # What a later request can learn of a session

A fetch comes to know of a session by the reply that the backend gives to it, and from there
what it knows reaches the cache and those who wait for it.
-/
namespace NioClient.Webapp
open Environment Execution Axum Check Session
variable {H E : Type} {site : Site H E} {b : Backend} {s t u : State H} {a : Action H}
  {pre post : List (Action H)} {hash : TokenHash} {P : ℕ → Prop} {Q : Option String → Prop}

/-- What fetch `n` knows is in `Q`: the principal of a session, or that there is none. -/
structure Knows (Q : Option String → Prop) (s : State H) (n : ℕ) : Prop where
  served : ∀ resp, s.served.lookup n = some resp → Q (Backend.principal? resp)
  returned : ∀ x v, s.resolver.flight.fetches[n]? = some x → x.returned = some (.ok v) →
    Q (v.map (·.principal))

def Tells (Q : Option String → Prop) (hash : TokenHash) (s : State H) (a : Action H) : Prop :=
  ∀ n nowUnix, a = .serve n nowUnix → Q (Backend.principal? (s.backend.resolve nowUnix ⟨hash⟩))

/-- All that the fetches of the token in `P` know is in `Q`. -/
def Learned (Q : Option String → Prop) (hash : TokenHash) (P : ℕ → Prop) (s : State H) : Prop :=
  ∀ (n : ℕ) x, P n → s.resolver.flight.fetches[n]? = some x → x.key = hash → Knows Q s n

protected theorem Learned.step (hl : Learned Q hash P s) (hs : Sound site b s) (h : step site s a = some t)
    (ha : Tells Q hash s a) : Learned Q hash P t := by
  refine fun n x hP hx hkey => ⟨fun resp hn => ?_,fun y v hy hret => ?_⟩
  · rcases step_served h hn with hold | ⟨nowUnix,y,rfl,hy,rfl⟩
    · obtain ⟨y,hy,-⟩ := hs.served n resp hold
      obtain ⟨z,hz,hzy,-⟩ := step_fetch h hy
      cases hx.symm.trans hz
      exact (hl n y hP hy (hzy.symm.trans hkey)).served resp hold
    · obtain ⟨z,hz,hzy,-⟩ := step_fetch h hy
      cases hx.symm.trans hz
      rw [← hzy, hkey]
      exact ha n nowUnix rfl
  · cases hx.symm.trans hy
    rcases step_fetched h (run_logged hs.run) hx hret with hold | ⟨resp,y,hn,hprincipal,hy,hyx⟩
    · exact (hl n x hP hold hkey).returned x v hold hret
    · exact hprincipal ▸ (hl n y hP hy (hyx.trans hkey)).served resp hn

theorem Sound.exec (hs : Sound site b u) (h : exec (step site) u post = some s) : Sound site b s :=
  exec_invariant (I := Sound site b) (fun _ _ _ hs h => hs.step h) hs h

theorem Learned.exec (hl : Learned Q hash P u) (hs : Sound site b u) (hall : Along (step site) (Tells Q hash) u post)
    (h : exec (step site) u post = some s) : Learned Q hash P s := by
  refine exec_induction_along (motive := fun _ s => Learned Q hash P s) hl ?_ hall h
  exact fun as m a v hm ha ih hv => ih.step (hs.exec hm) hv ha

theorem exec_resolver (h : exec (step site) u post = some s) :
    ∃ acts, exec (Session.step site.cfg) u.resolver acts = some s.resolver := by
  refine exec_induction (motive := fun _ s => ∃ acts,
    exec (Session.step site.cfg) u.resolver acts = some s.resolver) ⟨[],rfl⟩ ?_ h
  rintro as m a v - ⟨acts,hm⟩ hv
  rcases step_resolver hv with ⟨hsame,-⟩ | ⟨act,hstep,-⟩
  · exact ⟨acts,hsame ▸ hm⟩
  · exact ⟨acts ++ [act],exec_concat_iff.mpr ⟨_,hm,hstep⟩⟩

theorem exec_fetch (h : exec (step site) u post = some s) {n : ℕ} {x : Fetch}
    (hx : u.resolver.flight.fetches[n]? = some x) :
    ∃ y, s.resolver.flight.fetches[n]? = some y ∧ y.key = x.key ∧ y.beganAt = x.beganAt := by
  refine exec_induction (motive := fun _ s => ∃ y, s.resolver.flight.fetches[n]? = some y ∧
    y.key = x.key ∧ y.beganAt = x.beganAt) ⟨x,hx,rfl,rfl⟩ ?_ h
  rintro as m a v - ⟨y,hy,hkey,hbegan⟩ hv
  obtain ⟨z,hz,hkey',hbegan'⟩ := step_fetch hv hy
  exact ⟨z,hz,hkey'.trans hkey,hbegan'.trans hbegan⟩

theorem step_arrival (h : step site s a = some t) {r : ℕ} {x : Request H} (hx : t.requests[r]? = some x) :
    (∃ y, s.requests[r]? = some y ∧ y.arrival = x.arrival) ∨ x.arrival = s.arrival := by
  have hset {r' : ℕ} {y z : Request H} (hx : (s.requests.set r' z)[r]? = some x)
      (hy : s.requests[r']? = some y) (hyz : z.arrival = y.arrival) :
      ∃ y, s.requests[r]? = some y ∧ y.arrival = x.arrival := by
    by_cases hr : r' = r
    · subst hr
      obtain ⟨hlt,hget⟩ := List.getElem?_eq_some_iff.mp hx
      rw [List.getElem_set_self] at hget
      exact ⟨y,hy,hget ▸ hyz.symm⟩
    · rw [List.getElem?_set_ne hr] at hx
      exact ⟨x,hx,rfl⟩
  cases step_effect h with
  | arrive =>
    by_cases hlt : r < s.requests.length
    · exact Or.inl ⟨x,(List.getElem?_append_left hlt).symm.trans hx,rfl⟩
    · obtain rfl := List.mem_singleton.mp
        (List.mem_of_getElem? ((List.getElem?_append_right (Nat.not_lt.mp hlt)).symm.trans hx))
      exact Or.inr rfl
  | resolve hy | answered hy | panicked hy | rpc hy | createSession hy | removeSession hy | evict hy | drop hy
  | cancel hy => exact Or.inl (hset hx hy rfl)
  | serve | fetchReturns | resolver => exact Or.inl ⟨x,hx,rfl⟩

theorem exec_arrival (h : exec (step site) u post = some s) {r : ℕ} {x : Request H}
    (hr : u.requests.length ≤ r) (hx : s.requests[r]? = some x) :
    u.resolver.callers.length ≤ x.arrival.callers := by
  have hlater (m : State H) (as : List (Action H)) (hm : exec (step site) u as = some m) :
      u.resolver.callers.length ≤ m.resolver.callers.length :=
    (exec_invariant (I := Later u) (fun _ _ _ hl hs => hl.trans (step_later hs)) (Later.refl u) hm).length
  revert x
  refine exec_induction (motive := fun _ s => ∀ {x : Request H}, s.requests[r]? = some x →
    u.resolver.callers.length ≤ x.arrival.callers) ?_ ?_ h
  · intro x hx
    exact absurd (List.getElem?_eq_some_iff.mp hx).1 (Nat.not_lt.mpr hr)
  · intro as m a v hm ih hv x hx
    rcases step_arrival hv hx with ⟨y,hy,harrival⟩ | harrival
    · exact harrival ▸ ih hy
    · exact harrival ▸ hlater m as hm

/-- Where the cache, the fetches in flight and the backend agree that the session is in `Q`, so
does all that the resolver answers to a later request. -/
theorem later_answer (hb : b.sessions = ∅) (hpre : exec (step site) (init site b) pre = some u)
    (hcached : ∀ z, u.resolver.cache.peek hash = some z → Knows Q u z.fetch)
    (hflying : ∀ n, InFlight u.resolver.flight hash n → Knows Q u n)
    (hall : Along (step site) (Tells Q hash) u post) (hpost : exec (step site) u post = some s) {r : ℕ}
    {x : Request H} {v : Option ResolvedSession} (hr : u.requests.length ≤ r) (hx : s.requests[r]? = some x)
    (hlog : ⟨.extractor (.resolve hash),.ok v⟩ ∈ x.log) : Q (v.map (·.principal)) := by
  let P (n : ℕ) : Prop := u.resolver.flight.fetches.length ≤ n ∨ Knows Q u n
  have hu := run_sound hb hpre
  have hs := hu.exec hpost
  have hlearned : Learned Q hash P u := by
    refine fun n y hP hy _ => hP.resolve_left fun hle => ?_
    exact absurd (List.getElem?_eq_some_iff.mp hy).1 (Nat.not_lt.mpr hle)
  obtain ⟨c,now,wall,source,hbefore,hc⟩ := (hs.requests r x hx).founded _ hlog
  obtain ⟨y,hy,hkey,hret⟩ := answer_fetch hs.run hc
  obtain ⟨acts,hacts⟩ := exec_resolver hpost
  have hconfined : Confined P hash u.resolver.callers.length u.resolver :=
    confined_start (fun n hn => Or.inl hn) (fun z hz => Or.inr (hcached z hz)) fun n hn => Or.inr (hflying n hn)
  have hP := (hconfined.run hu.run hacts).answer ((exec_arrival hpost hr hx).trans hbefore.1) hc
  exact (hlearned.exec hu hall hpost _ y hP hy hkey).returned y v hy hret

end NioClient.Webapp
