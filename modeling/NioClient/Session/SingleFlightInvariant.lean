import Mathlib.Data.List.Basic
import NioClient.Session.SingleFlight

/-! # Invariants of the single flight over its moves

A fill is in the in-flight map, under its own key and id, exactly while it is
live; the fetch log and the phases tell the same story.
-/
namespace NioClient.Session.SingleFlight
variable {cfg : ResolverConfig} {now : ℕ} {event : Option (ℕ × FillEvent)} {ev : FillEvent}
  {sf sf' : SingleFlight}

theorem getElem?_setPhase {f g : ℕ} {fill y : Fill} {phase : Phase} (hf : sf.fills[f]? = some fill)
    (h : (sf.setPhase f fill phase).fills[g]? = some y) :
    (g = f ∧ y = { fill with phase }) ∨ (g ≠ f ∧ sf.fills[g]? = some y) := by
  simp only [setPhase, List.getElem?_set] at h
  split at h
  · rename_i hfg
    have hlt : f < sf.fills.length := (List.getElem?_eq_some_iff.mp hf).1
    simp only [if_pos hlt, Option.some.injEq] at h
    exact Or.inl ⟨hfg.symm,h.symm⟩
  · rename_i hfg
    exact Or.inr ⟨fun he => hfg he.symm,h⟩

theorem setPhase_self {f : ℕ} {fill : Fill} {phase : Phase} (hf : sf.fills[f]? = some fill) :
    (sf.setPhase f fill phase).fills[f]? = some { fill with phase } := by
  have hlt : f < sf.fills.length := (List.getElem?_eq_some_iff.mp hf).1
  simp [setPhase, hlt]

theorem setPhase_ne {f g : ℕ} {fill : Fill} {phase : Phase} (h : g ≠ f) :
    (sf.setPhase f fill phase).fills[g]? = sf.fills[g]? := by
  simp [setPhase, List.getElem?_set_ne h.symm]

theorem getElem?_register {g : ℕ} {y : Fill} {key : TokenHash}
    (h : (sf.register key).fills[g]? = some y) :
    sf.fills[g]? = some y ∨ (g = sf.fills.length ∧ y = ⟨sf.nextId, key, .registered⟩) := by
  simp only [register, List.getElem?_append] at h
  split at h
  · exact Or.inl h
  · rename_i hge
    obtain ⟨h0,rfl⟩ := List.getElem?_eq_some_iff.mp h
    simp only [List.length_singleton] at h0
    exact Or.inr ⟨by omega, by simp⟩

theorem register_old {g : ℕ} {y : Fill} {key : TokenHash} (h : sf.fills[g]? = some y) :
    (sf.register key).fills[g]? = some y := by
  have hlt : g < sf.fills.length := (List.getElem?_eq_some_iff.mp h).1
  simp [register, List.getElem?_append_left hlt, h]

/-- What a move does to fill `f` of `key`: nothing, or the step which it names. -/
inductive Evolves (cfg : ResolverConfig) (now f : ℕ) (key : TokenHash) (log log' : List Fetch) :
    Option (ℕ × FillEvent) → Phase → Phase → Prop
  | rest (event p) (h : ∀ ev, event ≠ some (f, ev)) : Evolves cfg now f key log log' event p p
  | next (ev p q) (h : Next cfg now f key ev p log q log') :
      Evolves cfg now f key log log' (some (f, ev)) p q

/-- Fills are never removed, and keep their key and id. -/
theorem Move.evolves (h : Move cfg now sf event sf') {f : ℕ} {fill : Fill} (hf : sf.fills[f]? = some fill) :
    ∃ phase, sf'.fills[f]? = some { fill with phase } ∧
      Evolves cfg now f fill.key sf.fetches sf'.fetches event fill.phase phase := by
  cases h with
  | stay => exact ⟨fill.phase,hf,.rest _ _ nofun⟩
  | register key => exact ⟨fill.phase,register_old hf,.rest _ _ nofun⟩
  | advance g ev fill' phase log hg hn hlive =>
    by_cases hfg : f = g
    · subst hfg
      cases hf.symm.trans hg
      exact ⟨phase,setPhase_self hg,.next ev _ _ hn⟩
    · exact ⟨fill.phase,(setPhase_ne hfg).trans hf,.rest _ _ fun _ he => hfg (by cases he; rfl)⟩
  | clean g fill' n r hg hp =>
    by_cases hfg : f = g
    · subst hfg
      cases hf.symm.trans hg
      exact ⟨.done n r,setPhase_self hg, by rw [hp]; exact .next _ _ _ (.cleaned n r _)⟩
    · exact ⟨fill.phase,(setPhase_ne hfg).trans hf,.rest _ _ fun _ he => hfg (by cases he; rfl)⟩

theorem Move.origin (h : Move cfg now sf event sf') {f : ℕ} {fill' : Fill}
    (hf : sf'.fills[f]? = some fill') :
    (∃ fill, sf.fills[f]? = some fill ∧ fill.key = fill'.key ∧ fill.id = fill'.id ∧
      Evolves cfg now f fill.key sf.fetches sf'.fetches event fill.phase fill'.phase) ∨
    (f = sf.fills.length ∧ fill'.phase = .registered ∧ event = none) := by
  by_cases hlt : f < sf.fills.length
  · left
    obtain ⟨phase,hphase,hevolves⟩ := h.evolves (List.getElem?_eq_getElem hlt)
    cases hf.symm.trans hphase
    exact ⟨_,List.getElem?_eq_getElem hlt,rfl,rfl,hevolves⟩
  · cases h with
    | stay => exact absurd (List.getElem?_eq_some_iff.mp hf).1 hlt
    | register key =>
      rcases getElem?_register hf with hold | ⟨rfl,rfl⟩
      · exact absurd (List.getElem?_eq_some_iff.mp hold).1 hlt
      · exact Or.inr ⟨rfl,rfl,rfl⟩
    | advance g ev fill phase log hg hn =>
      rcases getElem?_setPhase hg hf with ⟨rfl,-⟩ | ⟨-,hold⟩
      · exact absurd (List.getElem?_eq_some_iff.mp hg).1 hlt
      · exact absurd (List.getElem?_eq_some_iff.mp hold).1 hlt
    | clean g fill n r hg hp =>
      rcases getElem?_setPhase hg hf with ⟨rfl,-⟩ | ⟨-,hold⟩
      · exact absurd (List.getElem?_eq_some_iff.mp hg).1 hlt
      · exact absurd (List.getElem?_eq_some_iff.mp hold).1 hlt

theorem Move.exists_fill {f : ℕ} (h : Move cfg now sf (some (f, ev)) sf') :
    ∃ fill, sf.fills[f]? = some fill := by
  cases h with
  | advance _ _ fill _ _ hf | clean _ fill _ _ hf => exact ⟨fill,hf⟩

theorem Next.not_ended {f : ℕ} {key : TokenHash} {p q : Phase} {log log' : List Fetch}
    (h : Next cfg now f key ev p log q log') : p.ended = false := by
  cases h <;> rfl

theorem Move.not_ended {f : ℕ} (h : Move cfg now sf (some (f, ev)) sf') :
    ∃ fill, sf.fills[f]? = some fill ∧ fill.phase.ended = false := by
  cases h with
  | advance _ _ fill _ _ hf hn => exact ⟨fill,hf,hn.not_ended⟩
  | clean _ fill _ _ hf hp => exact ⟨fill,hf,by rw [hp]; rfl⟩

structure Later (p q : Phase) : Prop where
  fetch : ∀ n, p.fetch? = some n → q.fetch? = some n
  stored : ∀ e, p.stored? = some e → q.stored? = some e
  done : ∀ n r, p = .done n r → q = .done n r
  panicked : ∀ n, p = .panicked n → q = .panicked n

theorem Later.refl (p : Phase) : Later p p := ⟨fun _ h => h,fun _ h => h,fun _ _ h => h,fun _ h => h⟩

theorem Later.trans {p q r : Phase} (h : Later p q) (h' : Later q r) : Later p r :=
  ⟨fun n hn => h'.fetch n (h.fetch n hn),fun e he => h'.stored e (h.stored e he),
    fun n r hp => h'.done n r (h.done n r hp),fun n hp => h'.panicked n (h.panicked n hp)⟩

theorem Next.later {f : ℕ} {key : TokenHash} {p q : Phase} {log log' : List Fetch}
    (h : Next cfg now f key ev p log q log') : Later p q := by
  cases h with
  | cleaned n r => cases r <;> constructor <;> simp [Phase.fetch?, Phase.stored?]
  | _ => constructor <;> simp [Phase.fetch?, Phase.stored?]

theorem Move.later (h : Move cfg now sf event sf') {f : ℕ} {fill : Fill} (hf : sf.fills[f]? = some fill) :
    ∃ fill', sf'.fills[f]? = some fill' ∧ fill'.key = fill.key ∧ Later fill.phase fill'.phase := by
  obtain ⟨phase,hphase,hevolves⟩ := h.evolves hf
  refine ⟨_,hphase,rfl,?_⟩
  generalize fill.phase = p at hevolves
  cases hevolves with
  | rest => exact .refl _
  | next ev _ _ hn => exact hn.later

theorem Move.fetch_earlier (h : Move cfg now sf event sf') {f n : ℕ} {fill' : Fill}
    (hf : sf'.fills[f]? = some fill') (hn : fill'.phase.fetch? = some n) :
    (∃ fill, sf.fills[f]? = some fill ∧ fill.key = fill'.key ∧ fill.phase.fetch? = some n ∧
      (fill'.phase.live → fill.phase.live)) ∨ n = sf.fetches.length := by
  rcases h.origin hf with ⟨fill,hfill,hkey,-,hevolves⟩ | ⟨-,hreg,-⟩
  · obtain ⟨id,key,p⟩ := fill
    obtain ⟨id',key',q⟩ := fill'
    cases hevolves with
    | rest => exact Or.inl ⟨_,hfill,hkey,hn,fun hlive => hlive⟩
    | next ev _ _ hnext =>
      generalize sf'.fetches = log at hnext
      cases hnext with
      | call => exact Or.inr (Option.some.inj hn).symm
      | _ => exact Or.inl ⟨_,hfill,hkey,hn,fun _ => rfl⟩
  · rw [hreg] at hn
    cases hn

theorem Move.stored_earlier (h : Move cfg now sf event sf') {f : ℕ} {fill' : Fill} {e : Entry}
    (hf : sf'.fills[f]? = some fill') (he : fill'.phase.stored? = some e) :
    ∃ fill, sf.fills[f]? = some fill ∧ fill.key = fill'.key ∧ fill.phase.fetch? = fill'.phase.fetch? ∧
      (fill.phase.stored? = some e ∨ (event = some (f, .put) ∧ ∃ n, fill.phase = .storing n e)) := by
  rcases h.origin hf with ⟨fill,hfill,hkey,-,hevolves⟩ | ⟨-,hreg,-⟩
  · obtain ⟨id,key,p⟩ := fill
    obtain ⟨id',key',q⟩ := fill'
    refine ⟨_,hfill,hkey,?_⟩
    cases hevolves with
    | rest => exact ⟨rfl,Or.inl he⟩
    | next ev _ _ hnext =>
      generalize sf'.fetches = log at hnext
      cases hnext with
      | stored n e' => cases he; exact ⟨rfl,Or.inr ⟨rfl,n,rfl⟩⟩
      | cleaned n r => exact ⟨rfl,Or.inl (by cases r <;> exact he)⟩
      | _ => cases he
  · rw [hreg] at he
    cases he

theorem Move.entry_earlier (h : Move cfg now sf event sf') {f : ℕ} {fill' : Fill} {e : Entry}
    (hf : sf'.fills[f]? = some fill') (he : fill'.phase.entry? = some e) :
    ∃ fill, sf.fills[f]? = some fill ∧ fill.key = fill'.key ∧ fill.phase.fetch? = fill'.phase.fetch? ∧
      (fill.phase.entry? = some e ∨ ∃ fetched jitter wall, event = some (f, .built fetched jitter wall) ∧
        e = fillEntry cfg now jitter wall fetched) := by
  rcases h.origin hf with ⟨fill,hfill,hkey,-,hevolves⟩ | ⟨-,hreg,-⟩
  · obtain ⟨id,key,p⟩ := fill
    obtain ⟨id',key',q⟩ := fill'
    refine ⟨_,hfill,hkey,?_⟩
    cases hevolves with
    | rest => exact ⟨rfl,Or.inl he⟩
    | next ev _ _ hnext =>
      generalize sf'.fetches = log at hnext
      cases hnext with
      | fetched n fetched jitter wall =>
        cases he
        exact ⟨rfl,Or.inr ⟨fetched,jitter,wall,rfl,rfl⟩⟩
      | stored => exact ⟨rfl,Or.inl he⟩
      | cleaned n r => exact ⟨rfl,Or.inl (by cases r <;> exact he)⟩
      | _ => cases he
  · rw [hreg] at he
    cases he

theorem Move.fetches_length (h : Move cfg now sf event sf') : sf.fetches.length ≤ sf'.fetches.length := by
  cases h with
  | stay | register | clean => exact le_rfl
  | advance f ev fill phase log hf hn =>
    generalize fill.phase = p at hn
    cases hn <;> simp

/-- The map holds exactly the live fills, each under its own key and id. -/
structure WellFormed (sf : SingleFlight) : Prop where
  held : ∀ f fill, sf.fills[f]? = some fill → fill.phase.live →
    sf.inflight.lookup fill.key = some (fill.id, f)
  owner : ∀ key id f, sf.inflight.lookup key = some (id, f) →
    ∃ fill, sf.fills[f]? = some fill ∧ fill.key = key ∧ fill.id = id ∧ fill.phase.live

theorem wellFormed_default : WellFormed .default := by
  constructor
  · intro f fill hf
    simp [SingleFlight.default] at hf
  · intro key id f h
    simp [SingleFlight.default] at h

/-- For each key at most one fill is live. -/
theorem WellFormed.unique (hw : WellFormed sf) {f g : ℕ} {x y : Fill} (hf : sf.fills[f]? = some x)
    (hg : sf.fills[g]? = some y) (hx : x.phase.live) (hy : y.phase.live) (hkey : x.key = y.key) :
    f = g := by
  have h := (hw.held f x hf hx).symm.trans (hkey ▸ hw.held g y hg hy)
  exact (Prod.mk.inj (Option.some.inj h)).2

theorem Next.live {f : ℕ} {key : TokenHash} {p q : Phase} {log log' : List Fetch}
    (h : Next cfg now f key ev p log q log') (hev : ev ≠ .cleaned) : p.live ∧ q.live := by
  cases h with
  | cleaned => exact absurd rfl hev
  | _ => exact ⟨rfl,rfl⟩

/-- The id test of the clean-up succeeds: the map still holds the fill's own id. -/
theorem WellFormed.own_id (hw : WellFormed sf) {f n : ℕ} {fill : Fill}
    {r : Except ResolveError Entry} (hf : sf.fills[f]? = some fill)
    (hp : fill.phase = .cleaning n r) :
    ((sf.inflight.lookup fill.key).map fun (gid, _) => gid == fill.id).getD false = true := by
  rw [hw.held f fill hf (by simp [hp, Phase.live])]
  simp

theorem WellFormed.register (hw : WellFormed sf) {key : TokenHash}
    (h : sf.inflight.lookup key = none) : WellFormed (sf.register key) := by
  constructor
  · intro f fill hf hlive
    rcases getElem?_register hf with hold | ⟨rfl,rfl⟩
    · have hheld := hw.held f fill hold hlive
      have hne : fill.key ≠ key := by rintro rfl; simp [h] at hheld
      simpa [SingleFlight.register, AList.lookup_insert_ne hne] using hheld
    · simp [SingleFlight.register]
  · intro key' id f hlook
    by_cases hk : key' = key
    · subst hk
      simp only [SingleFlight.register, AList.lookup_insert, Option.some.injEq, Prod.mk.injEq] at hlook
      obtain ⟨rfl,rfl⟩ := hlook
      exact ⟨⟨sf.nextId, key', .registered⟩, by simp [SingleFlight.register],rfl,rfl,rfl⟩
    · simp only [SingleFlight.register, AList.lookup_insert_ne hk] at hlook
      obtain ⟨fill,hf,hrest⟩ := hw.owner key' id f hlook
      exact ⟨fill,register_old hf,hrest⟩

theorem WellFormed.advance (hw : WellFormed sf) {f : ℕ} {fill : Fill} {phase : Phase}
    (log : List Fetch) (hf : sf.fills[f]? = some fill) (hlive : fill.phase.live)
    (hlive' : phase.live) : WellFormed { sf.setPhase f fill phase with fetches := log } := by
  constructor
  · intro g y hg hy
    rcases getElem?_setPhase hf hg with ⟨rfl,rfl⟩ | ⟨-,hold⟩
    · exact hw.held g fill hf hlive
    · exact hw.held g y hold hy
  · intro key id g hlook
    obtain ⟨y,hg,hkey,hid,hy⟩ := hw.owner key id g hlook
    by_cases hgf : g = f
    · subst hgf
      cases hg.symm.trans hf
      exact ⟨_,setPhase_self hf,hkey,hid,hlive'⟩
    · exact ⟨y,(setPhase_ne hgf).trans hg,hkey,hid,hy⟩

theorem WellFormed.clean (hw : WellFormed sf) {f n : ℕ} {fill : Fill}
    {r : Except ResolveError Entry} (hf : sf.fills[f]? = some fill)
    (hp : fill.phase = .cleaning n r) :
    WellFormed { sf.setPhase f fill (.done n r) with inflight := sf.inflight.erase fill.key } := by
  have hlive : fill.phase.live := by simp [hp, Phase.live]
  constructor
  · intro g y hg hy
    rcases getElem?_setPhase hf hg with ⟨rfl,rfl⟩ | ⟨hgf,hold⟩
    · simp [Phase.live] at hy
    · have hne : y.key ≠ fill.key := fun hkey => hgf (hw.unique hold hf hy hlive hkey)
      simpa only [AList.lookup_erase_ne hne] using hw.held g y hold hy
  · intro key id g hlook
    have hne : key ≠ fill.key := by rintro rfl; simp at hlook
    simp only [AList.lookup_erase_ne hne] at hlook
    obtain ⟨y,hg,hkey,hid,hy⟩ := hw.owner key id g hlook
    have hgf : g ≠ f := by
      rintro rfl
      cases hg.symm.trans hf
      exact hne hkey.symm
    exact ⟨y,(setPhase_ne hgf).trans hg,hkey,hid,hy⟩

theorem WellFormed.move (hw : WellFormed sf) (h : Move cfg now sf event sf') : WellFormed sf' := by
  cases h with
  | stay => exact hw
  | register key hnone => exact hw.register hnone
  | advance f ev fill phase log hf hn hlive =>
    exact hw.advance log hf (hn.live hlive).1 (hn.live hlive).2
  | clean f fill n r hf hp =>
    rw [if_pos (hw.own_id hf hp)]
    exact hw.clean hf hp

/-- A logged call keeps its fill, key and start; only the fetch in progress can
have its return written. -/
theorem Next.log_old {f m : ℕ} {key : TokenHash} {p q : Phase} {log log' : List Fetch} {x : Fetch}
    (h : Next cfg now f key ev p log q log') (hx : log[m]? = some x) :
    ∃ x', log'[m]? = some x' ∧ x'.fill = x.fill ∧ x'.key = x.key ∧ x'.beganAt = x.beganAt ∧
      (x'.returned = x.returned ∨ p = .fetching m) := by
  have hlt : m < log.length := (List.getElem?_eq_some_iff.mp hx).1
  cases h with
  | call => exact ⟨x,(List.getElem?_append_left hlt).trans hx,rfl,rfl,rfl,Or.inl rfl⟩
  | fetched n fetched jitter wall =>
    by_cases hn : n = m
    · subst hn
      exact ⟨x.returns (.ok fetched), by simp [hx], rfl, rfl, rfl, Or.inr rfl⟩
    · exact ⟨x, by simp [hn, hx], rfl, rfl, rfl, Or.inl rfl⟩
  | failed n e =>
    by_cases hn : n = m
    · subst hn
      exact ⟨x.returns (.error e), by simp [hx], rfl, rfl, rfl, Or.inr rfl⟩
    · exact ⟨x, by simp [hn, hx], rfl, rfl, rfl, Or.inl rfl⟩
  | timedOut => exact ⟨x,hx,rfl,rfl,rfl,Or.inl rfl⟩
  | panicked => exact ⟨x,hx,rfl,rfl,rfl,Or.inl rfl⟩
  | stored => exact ⟨x,hx,rfl,rfl,rfl,Or.inl rfl⟩
  | cleaned => exact ⟨x,hx,rfl,rfl,rfl,Or.inl rfl⟩

theorem Move.fetch_later (h : Move cfg now sf event sf') {m : ℕ} {x : Fetch}
    (hx : sf.fetches[m]? = some x) :
    ∃ x', sf'.fetches[m]? = some x' ∧ x'.fill = x.fill ∧ x'.key = x.key ∧ x'.beganAt = x.beganAt := by
  cases h with
  | stay | register | clean => exact ⟨x,hx,rfl,rfl,rfl⟩
  | advance f ev fill phase log hf hn =>
    obtain ⟨x',hx',hfill,hkey,hbegan,-⟩ := hn.log_old hx
    exact ⟨x',hx',hfill,hkey,hbegan⟩

theorem Next.log_new {f m : ℕ} {key : TokenHash} {p q : Phase} {log log' : List Fetch} {x' : Fetch}
    (h : Next cfg now f key ev p log q log') (hx : log'[m]? = some x') :
    (∃ x, log[m]? = some x) ∨ (p = .registered ∧ q = .fetching m ∧ x' = ⟨f, key, now, none⟩) := by
  by_cases hlt : m < log.length
  · exact Or.inl ⟨_,List.getElem?_eq_getElem hlt⟩
  · cases h with
    | call =>
      right
      have hm := (List.getElem?_eq_some_iff.mp hx).1
      simp only [List.length_append, List.length_singleton] at hm
      obtain rfl : m = log.length := by omega
      simp only [List.getElem?_concat_length, Option.some.injEq] at hx
      exact ⟨rfl,rfl,hx.symm⟩
    | fetched => exact absurd (by simpa using (List.getElem?_eq_some_iff.mp hx).1) hlt
    | failed => exact absurd (by simpa using (List.getElem?_eq_some_iff.mp hx).1) hlt
    | timedOut => exact absurd (List.getElem?_eq_some_iff.mp hx).1 hlt
    | panicked => exact absurd (List.getElem?_eq_some_iff.mp hx).1 hlt
    | stored => exact absurd (List.getElem?_eq_some_iff.mp hx).1 hlt
    | cleaned => exact absurd (List.getElem?_eq_some_iff.mp hx).1 hlt

/-- The log and the phases agree on who called which fetch and what it returned. -/
structure Logged (cfg : ResolverConfig) (sf : SingleFlight) : Prop where
  call : ∀ (f : ℕ) (fill : Fill) (n : ℕ), sf.fills[f]? = some fill → fill.phase.fetch? = some n →
    ∃ x : Fetch, sf.fetches[n]? = some x ∧ x.fill = f ∧ x.key = fill.key
  caller : ∀ (n : ℕ) (x : Fetch), sf.fetches[n]? = some x →
    ∃ fill : Fill, sf.fills[x.fill]? = some fill ∧ fill.phase.fetch? = some n
  entry : ∀ (f : ℕ) (fill : Fill) (e : Entry), sf.fills[f]? = some fill →
    fill.phase.entry? = some e → e.Capped cfg ∧ ∃ (n : ℕ) (x : Fetch),
      fill.phase.fetch? = some n ∧ sf.fetches[n]? = some x ∧ x.returned = some (.ok e.outcome)

theorem logged_default : Logged cfg .default := by
  constructor <;> simp [SingleFlight.default]

theorem Logged.register (hl : Logged cfg sf) (key : TokenHash) : Logged cfg (sf.register key) := by
  constructor
  · intro f fill n hf hn
    rcases getElem?_register hf with hold | ⟨-,rfl⟩
    · exact hl.call f fill n hold hn
    · simp [Phase.fetch?] at hn
  · intro n x hx
    obtain ⟨fill,hf,hn⟩ := hl.caller n x hx
    exact ⟨fill,register_old hf,hn⟩
  · intro f fill e hf he
    rcases getElem?_register hf with hold | ⟨-,rfl⟩
    · exact hl.entry f fill e hold he
    · simp [Phase.entry?] at he

theorem Logged.call_kept (hl : Logged cfg sf) {f g n : ℕ} {key : TokenHash} {p q : Phase}
    {log : List Fetch} (hn : Next cfg now f key ev p sf.fetches q log) {y : Fill}
    (hy : sf.fills[g]? = some y) (hm : y.phase.fetch? = some n) :
    ∃ x : Fetch, log[n]? = some x ∧ x.fill = g ∧ x.key = y.key := by
  obtain ⟨x,hx,hfill,hkey⟩ := hl.call g y n hy hm
  obtain ⟨x',hx',hfill',hkey',-⟩ := hn.log_old hx
  exact ⟨x',hx',hfill'.trans hfill,hkey'.trans hkey⟩

theorem Logged.entry_kept (hl : Logged cfg sf) {f g : ℕ} {fill : Fill} {phase : Phase}
    {log : List Fetch} (hf : sf.fills[f]? = some fill)
    (hn : Next cfg now f fill.key ev fill.phase sf.fetches phase log) {y : Fill} {e : Entry}
    (hy : sf.fills[g]? = some y) (he : y.phase.entry? = some e) :
    e.Capped cfg ∧ ∃ (n : ℕ) (x : Fetch), y.phase.fetch? = some n ∧ log[n]? = some x ∧
      x.returned = some (.ok e.outcome) := by
  obtain ⟨hcap,n,x,hfetch,hx,hret⟩ := hl.entry g y e hy he
  obtain ⟨x',hx',-,-,-,hsame | hfetching⟩ := hn.log_old hx
  · exact ⟨hcap,n,x',hfetch,hx',hsame.trans hret⟩
  · -- the fetch in progress is that of fill `f`, which has no entry yet
    obtain ⟨x₁,hx₁,hfill₁,-⟩ := hl.call f fill n hf (by simp [hfetching, Phase.fetch?])
    obtain ⟨x₂,hx₂,hfill₂,-⟩ := hl.call g y n hy hfetch
    cases hx₁.symm.trans hx₂
    obtain rfl : f = g := hfill₁.symm.trans hfill₂
    cases hy.symm.trans hf
    simp [hfetching, Phase.entry?] at he

theorem Logged.advance (hl : Logged cfg sf) {f : ℕ} {fill : Fill} {phase : Phase}
    {log : List Fetch} (hf : sf.fills[f]? = some fill)
    (hn : Next cfg now f fill.key ev fill.phase sf.fetches phase log) :
    Logged cfg { sf.setPhase f fill phase with fetches := log } := by
  constructor
  · intro g y m hg hm
    rcases getElem?_setPhase hf hg with ⟨rfl,rfl⟩ | ⟨-,hy⟩
    · by_cases hreg : fill.phase = .registered
      · rw [hreg] at hn
        cases hn
        simp only [Phase.fetch?, Option.some.injEq] at hm
        subst hm
        exact ⟨_,List.getElem?_concat_length,rfl,rfl⟩
      · refine hl.call_kept (y := fill) hn hf ?_
        generalize fill.phase = p at hn hreg
        cases hn with
        | call => exact absurd rfl hreg
        | fetched | failed | timedOut | panicked | stored | cleaned => exact hm
    · exact hl.call_kept hn hy hm
  · intro m x' hx'
    rcases hn.log_new hx' with ⟨x,hx⟩ | ⟨-,rfl,rfl⟩
    · obtain ⟨x'',hx'',hfill,-⟩ := hn.log_old hx
      cases hx'.symm.trans hx''
      obtain ⟨y,hy,hm⟩ := hl.caller m x hx
      rw [hfill]
      by_cases hxf : x.fill = f
      · rw [hxf] at hy ⊢
        cases hy.symm.trans hf
        exact ⟨_,setPhase_self hf,hn.later.fetch m hm⟩
      · exact ⟨y,(setPhase_ne hxf).trans hy,hm⟩
    · exact ⟨_,setPhase_self hf,rfl⟩
  · intro g y e hg he
    rcases getElem?_setPhase hf hg with ⟨rfl,rfl⟩ | ⟨-,hy⟩
    · have hkept : fill.phase.entry? = some e → _ := hl.entry_kept hf hn hf
      obtain ⟨id,key,p⟩ := fill
      cases hn with
      | call => simp [Phase.entry?] at he
      | fetched n fetched jitter wall =>
        simp only [Phase.entry?, Option.some.injEq] at he
        subst he
        obtain ⟨x,hx,-⟩ := hl.call g _ n hf rfl
        exact ⟨fillEntry_capped ..,n,x.returns (.ok fetched),rfl, by simp [hx], by simp [Fetch.returns]⟩
      | failed | timedOut | panicked => simp [Phase.entry?] at he
      | stored n e' => exact hkept he
      | cleaned n r => exact hkept (by cases r <;> exact he)
    · exact hl.entry_kept hf hn hy he

theorem Logged.clean (hl : Logged cfg sf) {f n : ℕ} {fill : Fill} {r : Except ResolveError Entry}
    (map : AList fun _ : TokenHash => UInt64 × ℕ) (hf : sf.fills[f]? = some fill)
    (hp : fill.phase = .cleaning n r) :
    Logged cfg { sf.setPhase f fill (.done n r) with inflight := map } := by
  have hnext : Next cfg 0 f fill.key .cleaned fill.phase sf.fetches (.done n r) sf.fetches :=
    hp ▸ .cleaned n r _
  have h := hl.advance hf hnext
  exact ⟨h.call,h.caller,h.entry⟩

theorem Logged.move (hl : Logged cfg sf) (h : Move cfg now sf event sf') : Logged cfg sf' := by
  cases h with
  | stay => exact hl
  | register key => exact hl.register key
  | advance f ev fill phase log hf hn => exact hl.advance hf hn
  | clean f fill n r hf hp => exact hl.clean _ hf hp

end NioClient.Session.SingleFlight
