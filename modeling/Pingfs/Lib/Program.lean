import Mathlib.Tactic.Common

/-!
# Programs over calls

A `Program` returns, halts with an error, or makes a call and goes on with the reply. Nothing is
said in it about what a call does: a `Handler` answers the calls over a state, and `run` runs a
program under a handler, to an `Outcome` that keeps the state a halted program leaves behind.

## Main results

* `run_bind` — a sequence of two programs is run one after the other
* `Outcome.Meets.bind` — the sequence rule for postconditions
-/

/-- How a program ends, and the state it ends in. -/
inductive Outcome (ε σ α : Type) where
  | returned (a : α) (s : σ)
  | halted (e : ε) (s : σ)

namespace Outcome

variable {ε σ α β : Type}

/-- The state at the end, however the program ended. -/
def state : Outcome ε σ α → σ
  | returned _ s => s
  | halted _ s => s

/-- What the program returned, or how it failed. -/
def result : Outcome ε σ α → Except ε α
  | returned a _ => .ok a
  | halted e _ => .error e

/-- An end in the state `s`. -/
def of : Except ε α → σ → Outcome ε σ α
  | .ok a, s => returned a s
  | .error e, s => halted e s

@[simp] theorem result_of (r : Except ε α) (s : σ) : (of r s).result = r := by cases r <;> rfl

@[simp] theorem state_of (r : Except ε α) (s : σ) : (of r s).state = s := by cases r <;> rfl

/-- The same end, over another state. -/
def mapState {τ : Type} (f : σ → τ) : Outcome ε σ α → Outcome ε τ α
  | returned a s => returned a (f s)
  | halted e s => halted e (f s)

@[simp] theorem result_mapState {τ : Type} (f : σ → τ) (o : Outcome ε σ α) :
    (o.mapState f).result = o.result := by cases o <;> rfl

@[simp] theorem state_mapState {τ : Type} (f : σ → τ) (o : Outcome ε σ α) :
    (o.mapState f).state = f o.state := by cases o <;> rfl

/-- Go on with `f` if the program returned. -/
def bind (o : Outcome ε σ α) (f : α → σ → Outcome ε σ β) : Outcome ε σ β :=
  match o with
  | returned a s => f a s
  | halted e s => halted e s

@[simp] theorem state_returned (a : α) (s : σ) : (returned a s : Outcome ε σ α).state = s := rfl

@[simp] theorem state_halted (e : ε) (s : σ) : (halted e s : Outcome ε σ α).state = s := rfl

@[simp] theorem result_returned (a : α) (s : σ) :
    (returned a s : Outcome ε σ α).result = .ok a := rfl

@[simp] theorem result_halted (e : ε) (s : σ) :
    (halted e s : Outcome ε σ α).result = .error e := rfl

@[simp] theorem bind_returned (a : α) (s : σ) (f : α → σ → Outcome ε σ β) :
    (returned a s).bind f = f a s := rfl

@[simp] theorem bind_halted (e : ε) (s : σ) (f : α → σ → Outcome ε σ β) :
    (halted e s : Outcome ε σ α).bind f = halted e s := rfl

/-- A sequence that returns has returned after each part. -/
theorem bind_eq_returned {o : Outcome ε σ α} {f : α → σ → Outcome ε σ β} {b : β} {s' : σ} :
    o.bind f = returned b s' ↔ ∃ a s, o = returned a s ∧ f a s = returned b s' := by
  constructor
  · intro h
    cases o with
    | returned a s => exact ⟨a, s, rfl, h⟩
    | halted e s => cases h
  · rintro ⟨a, s, rfl, h⟩
    exact h

theorem bind_assoc {γ : Type} (o : Outcome ε σ α) (f : α → σ → Outcome ε σ β)
    (g : β → σ → Outcome ε σ γ) : (o.bind f).bind g = o.bind fun a s => (f a s).bind g := by
  cases o <;> rfl

/-- A program that returns meets `post`, one that halts meets `fails`. -/
def Meets (o : Outcome ε σ α) (post : α → σ → Prop) (fails : ε → σ → Prop) : Prop :=
  match o with
  | returned a s => post a s
  | halted e s => fails e s

@[simp] theorem meets_returned (a : α) (s : σ) (post : α → σ → Prop) (fails : ε → σ → Prop) :
    (returned a s).Meets post fails ↔ post a s := Iff.rfl

@[simp] theorem meets_halted (e : ε) (s : σ) (post : α → σ → Prop) (fails : ε → σ → Prop) :
    (halted e s).Meets post fails ↔ fails e s := Iff.rfl

theorem Meets.imp {o : Outcome ε σ α} {post post' : α → σ → Prop} {fails fails' : ε → σ → Prop}
    (h : o.Meets post fails) (hpost : ∀ a s, post a s → post' a s)
    (hfails : ∀ e s, fails e s → fails' e s) : o.Meets post' fails' := by
  cases o with
  | returned a s => exact hpost a s h
  | halted e s => exact hfails e s h

/-- **The sequence rule.** -/
theorem Meets.bind {o : Outcome ε σ α} {f : α → σ → Outcome ε σ β} {mid : α → σ → Prop}
    {post : β → σ → Prop} {fails fails' : ε → σ → Prop} (h : o.Meets mid fails)
    (hfails : ∀ e s, fails e s → fails' e s)
    (hf : ∀ a s, mid a s → (f a s).Meets post fails') : (o.bind f).Meets post fails' := by
  cases o with
  | returned a s => exact hf a s h
  | halted e s => exact hfails e s h

end Outcome

/-- Programs that make calls `q : Q` with replies of type `R q`, and may halt with an `ε`. -/
inductive Program (Q : Type) (R : Q → Type) (ε α : Type) where
  | ret (a : α)
  | halt (e : ε)
  | call (q : Q) (next : R q → Program Q R ε α)

namespace Program

variable {Q : Type} {R : Q → Type} {ε α β σ : Type}

/-- Run `f` on what the program returns. -/
def bind : Program Q R ε α → (α → Program Q R ε β) → Program Q R ε β
  | ret a, f => f a
  | halt e, _ => halt e
  | call q next, f => call q fun r => (next r).bind f

instance : Monad (Program Q R ε) where
  pure := ret
  bind := bind

/-- A single call. -/
def request (q : Q) : Program Q R ε (R q) := call q ret

/-- What a computation without calls gives. -/
def ofExcept : Except ε α → Program Q R ε α
  | .ok a => ret a
  | .error e => halt e

/-- What answers the calls. -/
abbrev Handler (Q : Type) (R : Q → Type) (ε σ : Type) := (q : Q) → σ → Outcome ε σ (R q)

/-- Run a program: each call is answered by the handler. -/
def run (h : Handler Q R ε σ) : Program Q R ε α → σ → Outcome ε σ α
  | ret a, s => .returned a s
  | halt e, s => .halted e s
  | call q next, s => (h q s).bind fun r s => (next r).run h s

variable (h : Handler Q R ε σ)

@[simp] theorem run_pure (a : α) (s : σ) : (pure a : Program Q R ε α).run h s = .returned a s := rfl

@[simp] theorem run_halt (e : ε) (s : σ) : (halt e : Program Q R ε α).run h s = .halted e s := rfl

@[simp] theorem run_request (q : Q) (s : σ) :
    (request q : Program Q R ε (R q)).run h s = h q s := by
  rw [request, run]
  cases h q s <;> rfl

@[simp] theorem run_ofExcept_ok (a : α) (s : σ) :
    (ofExcept (.ok a) : Program Q R ε α).run h s = .returned a s := rfl

@[simp] theorem run_ofExcept_error (e : ε) (s : σ) :
    (ofExcept (.error e) : Program Q R ε α).run h s = .halted e s := rfl

/-- **Sequencing.** -/
@[simp] theorem run_bind (p : Program Q R ε α) (f : α → Program Q R ε β) (s : σ) :
    (p >>= f).run h s = (p.run h s).bind fun a s => (f a).run h s := by
  change (p.bind f).run h s = _
  induction p generalizing s with
  | ret a => rfl
  | halt e => rfl
  | call q next ih =>
    simp only [bind, run]
    cases h q s with
    | returned r s' => exact ih r s'
    | halted e s' => rfl

theorem pure_bind (a : α) (f : α → Program Q R ε β) : pure a >>= f = f a := rfl

theorem ofExcept_ok_bind (a : α) (f : α → Program Q R ε β) : ofExcept (.ok a) >>= f = f a := rfl

/-- Three programs in sequence. -/
theorem bind_assoc {γ : Type} (p : Program Q R ε α) (f : α → Program Q R ε β)
    (g : β → Program Q R ε γ) : p >>= f >>= g = p >>= fun a => f a >>= g := by
  change (p.bind f).bind g = p.bind fun a => (f a).bind g
  induction p with
  | ret a => rfl
  | halt e => rfl
  | call q next ih =>
    rw [bind, bind, bind]
    congr 1
    funext r
    exact ih r

end Program
