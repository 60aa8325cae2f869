import Pingfs.Lib.ProgramCalls
import Pingfs.Lib.Run
import Mathlib.Logic.Function.Basic

/-!
# Programs that take turns

Several programs work on one state. At each step one of them makes its next call, whichever the
schedule says; the others stay where they are. A call is answered by the handler of the program that
makes it, so that a handler may note who has called. A run is a fold of `step` over a schedule.

What is true of the text of a program stays true while it is run. `Returns` speaks of its results,
`Until` of the calls up to the first that is a `stop`, `Closes` of those after it.

## Main results

* `returns_step`, `returns_run` — what every result of a program meets
* `until_bind` — a program on its way to a `stop`
-/

namespace Program

variable {Q : Type} {R : Q → Type} {ε α β σ : Type}

/-- The next call of a program, in a state. -/
def advance (h : Handler Q R ε σ) : Program Q R ε α → σ → Program Q R ε α × σ
  | ret a, s => (ret a, s)
  | halt e, s => (halt e, s)
  | call q next, s =>
    match h q s with
    | .returned r s' => (next r, s')
    | .halted e s' => (halt e, s')

/-- Whatever the program returns is a `P`. -/
def Returns (P : α → Prop) : Program Q R ε α → Prop
  | ret a => P a
  | halt _ => True
  | call _ next => ∀ r, (next r).Returns P

/-- The program makes calls of the kind `during` until it makes one of the kind `stop`; whatever it
returns without such a call is a `P`. -/
def Until (during stop : Q → Prop) (P : α → Prop) : Program Q R ε α → Prop
  | ret a => P a
  | halt _ => True
  | call q next => stop q ∨ during q ∧ ∀ r, (next r).Until during stop P

/-- Once the program has made a call of the kind `stop`, it makes only calls of the kind `after`. -/
def Closes (stop after : Q → Prop) : Program Q R ε α → Prop
  | ret _ => True
  | halt _ => True
  | call q next => stop q ∧ (∀ r, (next r).Only after) ∨ ¬ stop q ∧ ∀ r, (next r).Closes stop after

variable {h : Handler Q R ε σ} {P : α → Prop} {during stop after : Q → Prop}

theorem advance_of_returned {q : Q} {next : R q → Program Q R ε α} {s s' : σ} {r : R q}
    (hreply : h q s = .returned r s') : (call q next).advance h s = (next r, s') := by
  rw [advance, hreply]

theorem advance_of_halted {q : Q} {next : R q → Program Q R ε α} {s s' : σ} {e : ε}
    (hreply : h q s = .halted e s') : (call q next).advance h s = (halt e, s') := by
  rw [advance, hreply]

/-- What is left of a program after a call ends as the whole program does. -/
theorem run_advance (p : Program Q R ε α) (s : σ) :
    (p.advance h s).1.run h (p.advance h s).2 = p.run h s := by
  cases p with
  | ret a => rfl
  | halt e => rfl
  | call q next =>
    rw [Program.advance, run]
    cases h q s <;> rfl

theorem Returns.advance {p : Program Q R ε α} (hp : p.Returns P) (s : σ) :
    (p.advance h s).1.Returns P := by
  cases p with
  | ret a => exact hp
  | halt e => trivial
  | call q next =>
    rw [Program.advance]
    cases h q s with
    | returned r s' => exact hp r
    | halted e s' => trivial

theorem returns_bind {p : Program Q R ε α} {f : α → Program Q R ε β} {P : β → Prop}
    (hf : ∀ a, (f a).Returns P) : (p >>= f).Returns P := by
  change (p.bind f).Returns P
  induction p with
  | ret a => exact hf a
  | halt e => trivial
  | call q next ih => exact ih

theorem Only.advance {p : Program Q R ε α} (hp : p.Only during) (s : σ) :
    (p.advance h s).1.Only during := by
  cases p with
  | ret a => exact hp
  | halt e => trivial
  | call q next =>
    rw [Program.advance]
    cases h q s with
    | returned r s' => exact hp.2 r
    | halted e s' => trivial

/-- What the calls of a program keep, each of them keeps. -/
theorem Only.advance_state {I : σ → Prop} {p : Program Q R ε α} (hp : p.Only during)
    (hcall : ∀ q s, during q → I s → I (h q s).state) {s : σ} (hs : I s) :
    I (p.advance h s).2 := by
  cases p with
  | ret a => exact hs
  | halt e => exact hs
  | call q next =>
    have hstate := hcall q s hp.1 hs
    rw [Program.advance]
    cases hreply : h q s <;> simpa [hreply] using hstate

theorem closes_of_only {p : Program Q R ε α} (hp : p.Only fun q => ¬ stop q) :
    p.Closes stop after := by
  induction p with
  | ret a => trivial
  | halt e => trivial
  | call q next ih => exact Or.inr ⟨hp.1, fun r => ih r (hp.2 r)⟩

/-- A program that comes to its `stop` later. -/
theorem closes_bind_of_only {p : Program Q R ε α} {f : α → Program Q R ε β}
    (hp : p.Only fun q => ¬ stop q) (hf : ∀ a, (f a).Closes stop after) :
    (p >>= f).Closes stop after := by
  change (p.bind f).Closes stop after
  induction p with
  | ret a => exact hf a
  | halt e => trivial
  | call q next ih => exact Or.inr ⟨hp.1, fun r => ih r (hp.2 r)⟩

/-- A program that may have come to its `stop`. -/
theorem Closes.bind {p : Program Q R ε α} {f : α → Program Q R ε β} (hp : p.Closes stop after)
    (hafter : ∀ q, after q → ¬ stop q) (hf : ∀ a, (f a).Only after) :
    (p >>= f).Closes stop after := by
  change (p.bind f).Closes stop after
  induction p with
  | ret a => exact closes_of_only ((hf a).imp hafter)
  | halt e => trivial
  | call q next ih =>
    rcases hp with ⟨hstop, hnext⟩ | ⟨hstop, hnext⟩
    · exact Or.inl ⟨hstop, fun r => only_bind (hnext r) hf⟩
    · exact Or.inr ⟨hstop, fun r => ih r (hnext r)⟩

/-- **Sequencing.** -/
theorem until_bind {p : Program Q R ε α} {f : α → Program Q R ε β} {P : β → Prop}
    (hp : p.Only during) (hf : ∀ a, (f a).Until during stop P) :
    (p >>= f).Until during stop P := by
  change (p.bind f).Until during stop P
  induction p with
  | ret a => exact hf a
  | halt e => trivial
  | call q next ih => exact Or.inr ⟨hp.1, fun r => ih r (hp.2 r)⟩

end Program

/-- Programs with one state, each where it has come to. -/
structure Interleaving (ι Q : Type) (R : Q → Type) (ε α σ : Type) where
  programs : ι → Program Q R ε α
  state : σ

namespace Interleaving

open Program

variable {ι Q : Type} {R : Q → Type} {ε α σ : Type} [DecidableEq ι]
  (h : ι → Handler Q R ε σ) (c : Interleaving ι Q R ε α σ)

/-- The program `i` makes its next call. -/
def step (i : ι) : Interleaving ι Q R ε α σ where
  programs := Function.update c.programs i ((c.programs i).advance (h i) c.state).1
  state := ((c.programs i).advance (h i) c.state).2

@[simp] theorem programs_step_self (i : ι) :
    (c.step h i).programs i = ((c.programs i).advance (h i) c.state).1 := Function.update_self ..

@[simp] theorem programs_step_of_ne {i j : ι} (hne : j ≠ i) :
    (c.step h i).programs j = c.programs j := Function.update_of_ne hne ..

theorem state_step (i : ι) : (c.step h i).state = ((c.programs i).advance (h i) c.state).2 := rfl

variable {h c}

/-- What holds of a program and is kept by its own calls is kept by those of all. -/
theorem step_keeps {I : Program Q R ε α → Prop} {j : ι}
    (hkeeps : ∀ p s, I p → I (p.advance (h j) s).1) (i : ι) (hj : I (c.programs j)) :
    I ((c.step h i).programs j) := by
  by_cases hij : j = i
  · subst hij
    rw [programs_step_self]
    exact hkeeps _ _ hj
  · rwa [programs_step_of_ne h c hij]

theorem returns_step {P : α → Prop} {j : ι} (i : ι) (hj : (c.programs j).Returns P) :
    ((c.step h i).programs j).Returns P :=
  step_keeps (fun _ s hp => hp.advance s) i hj

theorem returns_run {P : α → Prop} {j : ι} (schedule : List ι) (hj : (c.programs j).Returns P) :
    ((schedule.foldl (step h) c).programs j).Returns P := by
  induction schedule generalizing c with
  | nil => exact hj
  | cons i schedule ih => exact ih (returns_step i hj)

end Interleaving
