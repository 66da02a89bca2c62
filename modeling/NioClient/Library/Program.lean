/-! # Programs that call their environment

A program either returns or makes a call and goes on with the reply. The calls
are those of a component to what lies outside it, such as another service.
-/
namespace NioClient.Environment
variable {Q Q' : Type} {A : Q → Type} {A' : Q' → Type} {α β : Type}

inductive Program (Q : Type) (A : Q → Type) (α : Type) where
  | pure (a : α)
  | call (q : Q) (next : A q → Program Q A α)

namespace Program

def bind : Program Q A α → (α → Program Q A β) → Program Q A β
  | .pure a, f => f a
  | .call q next, f => .call q fun a => (next a).bind f

theorem bind_pure (p : Program Q A α) : p.bind .pure = p := by
  induction p with
  | pure a => rfl
  | call q next ih => exact congrArg (call q) (funext ih)

theorem bind_assoc {γ : Type} (p : Program Q A α) (f : α → Program Q A β) (g : β → Program Q A γ) :
    (p.bind f).bind g = p.bind fun a => (f a).bind g := by
  induction p with
  | pure a => rfl
  | call q next ih => exact congrArg (call q) (funext ih)

instance : Monad (Program Q A) where
  pure := Program.pure
  bind := Program.bind

instance : LawfulMonad (Program Q A) := LawfulMonad.mk' _ bind_pure (fun _ _ => rfl) bind_assoc

def ask (q : Q) : Program Q A (A q) := .call q .pure

/-- The same program among more calls. -/
def lift (f : Q → Q') (back : ∀ q, A' (f q) → A q) : Program Q A α → Program Q' A' α
  | .pure a => .pure a
  | .call q next => .call (f q) fun a => (next (back q a)).lift f back

variable (env : ∀ q, A q)

/-- What the program returns in an environment which answers `q` with `env q`. -/
def run : Program Q A α → α
  | .pure a => a
  | .call q next => (next (env q)).run

/-- The calls the program makes, in order. -/
def calls : Program Q A α → List Q
  | .pure _ => []
  | .call q next => q :: (next (env q)).calls

@[simp] theorem run_pure (a : α) : run env (Pure.pure a : Program Q A α) = a := rfl
@[simp] theorem calls_pure (a : α) : calls env (Pure.pure a : Program Q A α) = [] := rfl
@[simp] theorem run_ask (q : Q) : run env (ask q) = env q := rfl
@[simp] theorem calls_ask (q : Q) : calls env (ask q) = [q] := rfl

@[simp] theorem run_bind (p : Program Q A α) (f : α → Program Q A β) :
    run env (p >>= f) = run env (f (run env p)) := by
  induction p with
  | pure a => rfl
  | call q next ih => exact ih (env q)

@[simp] theorem calls_bind (p : Program Q A α) (f : α → Program Q A β) :
    calls env (p >>= f) = calls env p ++ calls env (f (run env p)) := by
  induction p with
  | pure a => rfl
  | call q next ih => exact congrArg (q :: ·) (ih (env q))

@[simp] theorem run_map (p : Program Q A α) (f : α → β) : run env (f <$> p) = f (run env p) := by
  rw [map_eq_pure_bind, run_bind, run_pure]

@[simp] theorem calls_map (p : Program Q A α) (f : α → β) : calls env (f <$> p) = calls env p := by
  rw [map_eq_pure_bind, calls_bind, calls_pure, List.append_nil]

variable (env' : ∀ q, A' q) {f : Q → Q'} {back : ∀ q, A' (f q) → A q}

theorem lift_bind (p : Program Q A α) (g : α → Program Q A β) :
    (p >>= g).lift f back = p.lift f back >>= fun a => (g a).lift f back := by
  induction p with
  | pure a => rfl
  | call q next ih => exact congrArg (call (f q)) (funext fun a => ih _)

theorem lift_pure (a : α) : (Pure.pure a : Program Q A α).lift f back = Pure.pure a := rfl

@[simp] theorem run_lift (p : Program Q A α) :
    run env' (p.lift f back) = run (fun q => back q (env' (f q))) p := by
  induction p with
  | pure a => rfl
  | call q next ih => exact ih _

@[simp] theorem calls_lift (p : Program Q A α) :
    calls env' (p.lift f back) = (calls (fun q => back q (env' (f q))) p).map f := by
  induction p with
  | pure a => rfl
  | call q next ih => exact congrArg (f q :: ·) (ih _)

/-- The program goes through these calls and replies, and then goes on as another. -/
inductive Reaches : Program Q A α → List (Σ q, A q) → Program Q A α → Prop where
  | refl (p : Program Q A α) : Reaches p [] p
  | reply {p : Program Q A α} {log : List (Σ q, A q)} {q : Q} {next : A q → Program Q A α}
      (h : Reaches p log (.call q next)) (a : A q) : Reaches p (log ++ [⟨q,a⟩]) (next a)

theorem Reaches.of_pure {a : α} {log : List (Σ q, A q)} {p : Program Q A α}
    (h : (Program.pure a).Reaches log p) : log = [] ∧ p = .pure a := by
  induction h with
  | refl => exact ⟨rfl,rfl⟩
  | reply _ _ ih => cases ih.2

/-- A program with one call is before it or after it. -/
theorem Reaches.of_call {q : Q} {f : A q → α} {log : List (Σ q, A q)} {p : Program Q A α}
    (h : (Program.call q fun a => .pure (f a)).Reaches log p) :
    log = [] ∧ p = (.call q fun a => .pure (f a)) ∨ ∃ a, log = [⟨q,a⟩] ∧ p = .pure (f a) := by
  induction h with
  | refl => exact Or.inl ⟨rfl,rfl⟩
  | reply _ a ih =>
    rcases ih with ⟨rfl,hcall⟩ | ⟨_,-,hcall⟩
    · cases hcall
      exact Or.inr ⟨a,rfl,rfl⟩
    · cases hcall

theorem Reaches.cons {q : Q} {next : A q → Program Q A α} {a : A q} {log : List (Σ q, A q)}
    {p : Program Q A α} (h : (next a).Reaches log p) : (Program.call q next).Reaches (⟨q,a⟩ :: log) p := by
  induction h with
  | refl => exact .reply (.refl _) a
  | reply _ b ih => exact .reply ih b

theorem Reaches.of_first {q : Q} {next : A q → Program Q A α} {log : List (Σ q, A q)}
    {p : Program Q A α} (h : (Program.call q next).Reaches log p) :
    log = [] ∧ p = .call q next ∨ ∃ a rest, log = ⟨q,a⟩ :: rest ∧ (next a).Reaches rest p := by
  induction h with
  | refl => exact Or.inl ⟨rfl,rfl⟩
  | reply _ b ih =>
    rcases ih with ⟨rfl,hcall⟩ | ⟨a,rest,rfl,hrest⟩
    · cases hcall
      exact Or.inr ⟨b,[],rfl,.refl _⟩
    · exact Or.inr ⟨a,_,rfl,.reply hrest b⟩

/-- A program in two parts is in the first, or has gone through the first and is in the second. -/
theorem Reaches.of_parts {p : Program Q A α} {f : α → Program Q A β} {log : List (Σ q, A q)}
    {r : Program Q A β} (h : (p >>= f).Reaches log r) :
    (∃ q next, p.Reaches log (.call q next) ∧ r = .call q next >>= f) ∨ ∃ first rest a,
      log = first ++ rest ∧ p.Reaches first (.pure a) ∧ (f a).Reaches rest r := by
  induction p generalizing log with
  | pure a => exact Or.inr ⟨[],log,a,rfl,.refl _,h⟩
  | call q next ih =>
    rcases Reaches.of_first h with ⟨rfl,rfl⟩ | ⟨a,rest,rfl,hrest⟩
    · exact Or.inl ⟨q,next,.refl _,rfl⟩
    · rcases ih a hrest with ⟨q',next',hreaches,rfl⟩ | ⟨first,rest',b,rfl,hfirst,hr⟩
      · exact Or.inl ⟨q',next',hreaches.cons,rfl⟩
      · exact Or.inr ⟨⟨q,a⟩ :: first,rest',b,rfl,hfirst.cons,hr⟩

theorem Reaches.of_bind {p : Program Q A α} {f : α → Program Q A β} {log : List (Σ q, A q)} {b : β}
    (h : (p >>= f).Reaches log (.pure b)) : ∃ first rest a, log = first ++ rest ∧
      p.Reaches first (.pure a) ∧ (f a).Reaches rest (.pure b) := by
  rcases h.of_parts with ⟨q,next,-,hcall⟩ | hparts
  · cases hcall
  · exact hparts

theorem Reaches.of_map {p : Program Q A α} {f : α → β} {log : List (Σ q, A q)} {b : β}
    (h : (f <$> p).Reaches log (.pure b)) : ∃ a, p.Reaches log (.pure a) ∧ f a = b := by
  rw [map_eq_pure_bind] at h
  obtain ⟨first,rest,a,rfl,hfirst,hrest⟩ := h.of_bind
  obtain ⟨rfl,hb⟩ := hrest.of_pure
  cases hb
  exact ⟨a, by rwa [List.append_nil], rfl⟩

/-- A program among more calls goes through them as by itself. -/
theorem Reaches.of_lifted {p : Program Q A α} {log : List (Σ q, A' q)} {r : Program Q' A' α}
    (h : (p.lift f back).Reaches log r) : ∃ (own : List (Σ q, A' (f q))) (r' : Program Q A α),
      log = own.map (fun e => ⟨f e.1,e.2⟩) ∧ p.Reaches (own.map fun e => ⟨e.1,back e.1 e.2⟩) r' ∧
      r = r'.lift f back := by
  induction p generalizing log with
  | pure a =>
    obtain ⟨rfl,rfl⟩ := h.of_pure
    exact ⟨[],_,rfl,.refl _,rfl⟩
  | call q next ih =>
    rcases Reaches.of_first h with ⟨rfl,rfl⟩ | ⟨b,rest,rfl,hrest⟩
    · exact ⟨[],_,rfl,.refl _,rfl⟩
    · obtain ⟨own,r',rfl,hown,rfl⟩ := ih _ hrest
      exact ⟨⟨q,b⟩ :: own,r',rfl,hown.cons,rfl⟩

theorem Reaches.of_lift {p : Program Q A α} {log : List (Σ q, A' q)} {a : α}
    (h : (p.lift f back).Reaches log (.pure a)) : ∃ own : List (Σ q, A' (f q)),
      log = own.map (fun e => ⟨f e.1,e.2⟩) ∧ p.Reaches (own.map fun e => ⟨e.1,back e.1 e.2⟩) (.pure a) := by
  obtain ⟨own,r,hlog,hown,hr⟩ := h.of_lifted
  cases r with
  | pure b =>
    cases hr
    exact ⟨own,hlog,hown⟩
  | call q next => cases hr

/-- Each call that the program can make is one of `ok`. -/
def Only (ok : Q → Prop) : Program Q A α → Prop
  | .pure _ => True
  | .call q next => ok q ∧ ∀ a, (next a).Only ok

variable {ok : Q → Prop}

@[simp] theorem only_pure (a : α) : (Pure.pure a : Program Q A α).Only ok := trivial

@[simp] theorem only_ask {q : Q} : (ask q : Program Q A (A q)).Only ok ↔ ok q := by
  simp [ask, Only]

theorem Only.bind {p : Program Q A α} {f : α → Program Q A β} (h : p.Only ok) (hf : ∀ a, (f a).Only ok) :
    (p >>= f).Only ok := by
  induction p with
  | pure a => exact hf a
  | call q next ih => exact ⟨h.1,fun a => ih a (h.2 a)⟩

theorem only_lift {ok' : Q' → Prop} {p : Program Q A α} (h : ∀ q, ok' (f q)) :
    (p.lift f back).Only ok' := by
  induction p with
  | pure a => trivial
  | call q next ih => exact ⟨h q,fun a => ih _⟩

/-- So are the calls that it has made, and those it makes next. -/
theorem Only.reaches {p r : Program Q A α} {log : List (Σ q, A q)} (h : p.Only ok) (hr : p.Reaches log r) :
    (∀ e ∈ log, ok e.1) ∧ r.Only ok := by
  induction hr with
  | refl => exact ⟨by simp, h⟩
  | reply _ a ih =>
    obtain ⟨hlog,hcall⟩ := ih
    refine ⟨fun e he => ?_,hcall.2 a⟩
    rcases List.mem_append.mp he with hold | hnew
    · exact hlog e hold
    · rw [List.mem_singleton.mp hnew]
      exact hcall.1

end Program
end NioClient.Environment
