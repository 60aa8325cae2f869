import Pingfs.Lib.Program

/-!
# The calls of a program

Two ways to speak of the calls that a program makes. `Only` is about its text: every call that may
be made, whatever the replies, is of a kind. `EveryCall` is about a run: a condition on the call
and the state it is made in holds at every call. `trace` collects what the calls of a run put out,
in order.

## Main results

* `only_bind`, `everyCall_bind` — sequencing
* `Only.everyCall` — what is true of the text is true of every run
* `EveryCall.trace` — an invariant of the trace and the state, from one call to a whole run
-/

namespace Program

variable {Q : Type} {R : Q → Type} {ε α β σ ω : Type}

/-! ### The text -/

/-- Every call in the program is a `P`. -/
def Only (P : Q → Prop) : Program Q R ε α → Prop
  | ret _ => True
  | halt _ => True
  | call q next => P q ∧ ∀ r, (next r).Only P

variable {P : Q → Prop}

@[simp] theorem only_pure (a : α) : (pure a : Program Q R ε α).Only P := trivial

@[simp] theorem only_halt (e : ε) : (halt e : Program Q R ε α).Only P := trivial

@[simp] theorem only_request (q : Q) : (request q : Program Q R ε (R q)).Only P ↔ P q :=
  ⟨fun h => h.1, fun h => ⟨h, fun _ => trivial⟩⟩

@[simp] theorem only_ofExcept (e : Except ε α) : (ofExcept e : Program Q R ε α).Only P := by
  cases e <;> exact trivial

theorem only_bind {p : Program Q R ε α} {f : α → Program Q R ε β} (hp : p.Only P)
    (hf : ∀ a, (f a).Only P) : (p >>= f).Only P := by
  change (p.bind f).Only P
  induction p with
  | ret a => exact hf a
  | halt e => trivial
  | call q next ih => exact ⟨hp.1, fun r => ih r (hp.2 r)⟩

theorem only_ite {c : Prop} [Decidable c] {p q : Program Q R ε α} (hp : p.Only P)
    (hq : q.Only P) : (if c then p else q).Only P := by
  split
  · exact hp
  · exact hq

theorem Only.imp {P' : Q → Prop} {p : Program Q R ε α} (h : p.Only P)
    (himp : ∀ q, P q → P' q) : p.Only P' := by
  induction p with
  | ret a => trivial
  | halt e => trivial
  | call q next ih => exact ⟨himp q h.1, fun r => ih r (h.2 r)⟩

/-! ### A run -/

variable (h : Handler Q R ε σ) (ok : Q → σ → Prop)

/-- Every call of the run from a state meets `ok` in the state it is made in. -/
def EveryCall : Program Q R ε α → σ → Prop
  | ret _, _ => True
  | halt _, _ => True
  | call q next, s => ok q s ∧ ∀ r s', h q s = .returned r s' → (next r).EveryCall s'

/-- What the calls of the run from a state put out. -/
def trace (out : Q → σ → List ω) : Program Q R ε α → σ → List ω
  | ret _, _ => []
  | halt _, _ => []
  | call q next, s =>
    out q s ++ match h q s with
      | .returned r s' => (next r).trace out s'
      | .halted _ _ => []

variable {h ok}

/-- The run is followed. -/
instance EveryCall.decidable [∀ q s, Decidable (ok q s)] :
    (p : Program Q R ε α) → (s : σ) → Decidable (p.EveryCall h ok s)
  | ret _, _ => isTrue trivial
  | halt _, _ => isTrue trivial
  | call q next, s =>
    match hreply : h q s with
    | .returned r s' =>
      haveI := EveryCall.decidable (next r) s'
      decidable_of_iff (ok q s ∧ (next r).EveryCall h ok s')
        ⟨fun hcall => ⟨hcall.1, fun _ _ heq => by
          rw [hreply] at heq
          obtain ⟨rfl, rfl⟩ := Outcome.returned.inj heq
          exact hcall.2⟩, fun hcall => ⟨hcall.1, hcall.2 r s' hreply⟩⟩
    | .halted e s' =>
      decidable_of_iff (ok q s)
        ⟨fun hok => ⟨hok, fun _ _ heq => by rw [hreply] at heq; cases heq⟩, fun hcall => hcall.1⟩

@[simp] theorem everyCall_pure (a : α) (s : σ) :
    (pure a : Program Q R ε α).EveryCall h ok s := trivial

@[simp] theorem everyCall_halt (e : ε) (s : σ) :
    (halt e : Program Q R ε α).EveryCall h ok s := trivial

@[simp] theorem everyCall_ofExcept (e : Except ε α) (s : σ) :
    (ofExcept e : Program Q R ε α).EveryCall h ok s := by
  cases e <;> exact trivial

theorem everyCall_request {q : Q} {s : σ} :
    (request q : Program Q R ε (R q)).EveryCall h ok s ↔ ok q s :=
  ⟨fun hcall => hcall.1, fun hok => ⟨hok, fun _ _ _ => trivial⟩⟩

theorem everyCall_ite {c : Prop} [Decidable c] {p q : Program Q R ε α} {s : σ}
    (hp : p.EveryCall h ok s) (hq : q.EveryCall h ok s) :
    (if c then p else q).EveryCall h ok s := by
  split
  · exact hp
  · exact hq

/-- **Sequencing.** The second program starts where the first one has returned. -/
theorem everyCall_bind {p : Program Q R ε α} {f : α → Program Q R ε β} {s : σ}
    (hp : p.EveryCall h ok s)
    (hf : ∀ a s', p.run h s = .returned a s' → (f a).EveryCall h ok s') :
    (p >>= f).EveryCall h ok s := by
  change (p.bind f).EveryCall h ok s
  induction p generalizing s with
  | ret a => exact hf a s rfl
  | halt e => trivial
  | call q next ih =>
    refine ⟨hp.1, fun r s' hreply => ih r (hp.2 r s' hreply) fun a s'' hrun => hf a s'' ?_⟩
    rw [run, hreply]
    exact hrun

/-- The second program starts where a lemma says. -/
theorem everyCall_bind_of_run {p : Program Q R ε α} {f : α → Program Q R ε β} {s s' : σ} {a : α}
    (hp : p.EveryCall h ok s) (hrun : p.run h s = .returned a s')
    (hf : (f a).EveryCall h ok s') : (p >>= f).EveryCall h ok s := by
  refine everyCall_bind hp fun b s'' hrun' => ?_
  rw [hrun] at hrun'
  obtain ⟨rfl, rfl⟩ := Outcome.returned.inj hrun'
  exact hf

theorem Only.everyCall {p : Program Q R ε α} (hp : p.Only P) (hok : ∀ q s, P q → ok q s) (s : σ) :
    p.EveryCall h ok s := by
  induction p generalizing s with
  | ret a => trivial
  | halt e => trivial
  | call q next ih => exact ⟨hok q s hp.1, fun r s' _ => ih r (hp.2 r) s'⟩

/-- **An invariant of the trace and the state**, which every call keeps that meets `ok`, is kept by
a run whose calls all do. -/
theorem EveryCall.trace {out : Q → σ → List ω} {I : List ω → σ → Prop}
    (hstep : ∀ log q s, I log s → ok q s → I (log ++ out q s) (h q s).state)
    {p : Program Q R ε α} {s : σ} (hp : p.EveryCall h ok s) {log : List ω} (hlog : I log s) :
    I (log ++ p.trace h out s) (p.run h s).state := by
  induction p generalizing s log with
  | ret a => simpa [Program.trace, run] using hlog
  | halt e => simpa [Program.trace, run] using hlog
  | call q next ih =>
    have hnext := hstep log q s hlog hp.1
    rw [Program.trace, run, ← List.append_assoc]
    cases hreply : h q s with
    | returned r s' =>
      rw [hreply] at hnext
      exact ih r (hp.2 r s' hreply) hnext
    | halted e s' =>
      rw [hreply] at hnext
      simpa using hnext

/-- A second program that puts out nothing. -/
theorem trace_bind_of_nil {out : Q → σ → List ω} {p : Program Q R ε α} {f : α → Program Q R ε β}
    (hf : ∀ a s', (f a).trace h out s' = []) (s : σ) :
    (p >>= f).trace h out s = p.trace h out s := by
  change (p.bind f).trace h out s = _
  induction p generalizing s with
  | ret a => exact hf a s
  | halt e => rfl
  | call q next ih =>
    rw [bind, Program.trace, Program.trace]
    cases h q s with
    | returned r s' => exact congrArg _ (ih r s')
    | halted e s' => rfl

/-- Calls that put out nothing. -/
theorem Only.trace_eq_nil {out : Q → σ → List ω} {p : Program Q R ε α} (hp : p.Only P)
    (hout : ∀ q s, P q → out q s = []) (s : σ) : p.trace h out s = [] := by
  induction p generalizing s with
  | ret a => rfl
  | halt e => rfl
  | call q next ih =>
    rw [Program.trace, hout q s hp.1, List.nil_append]
    cases h q s with
    | returned r s' => exact ih r (hp.2 r) s'
    | halted e s' => rfl

theorem only_true (p : Program Q R ε α) : p.Only fun _ => True := by
  induction p with
  | ret a => trivial
  | halt e => trivial
  | call q next ih => exact ⟨trivial, ih⟩

/-- An invariant that every call keeps. -/
theorem invariant_trace {out : Q → σ → List ω} {I : List ω → σ → Prop}
    (hstep : ∀ log q s, I log s → I (log ++ out q s) (h q s).state) (p : Program Q R ε α) {s : σ}
    {log : List ω} (hlog : I log s) : I (log ++ p.trace h out s) (p.run h s).state :=
  have hcalls : p.EveryCall h (fun _ _ => True) s :=
    (only_true p).everyCall (fun _ _ _ => trivial) s
  hcalls.trace (fun log q s hlog _ => hstep log q s hlog) hlog

/-- An invariant of the state, which every call keeps that meets `ok`. -/
theorem EveryCall.invariant {I : σ → Prop} (hstep : ∀ q s, I s → ok q s → I (h q s).state)
    {p : Program Q R ε α} {s : σ} (hp : p.EveryCall h ok s) (hs : I s) : I (p.run h s).state := by
  induction p generalizing s with
  | ret a => exact hs
  | halt e => exact hs
  | call q next ih =>
    have hnext := hstep q s hs hp.1
    rw [run]
    cases hreply : h q s with
    | returned r s' =>
      rw [hreply] at hnext
      exact ih r (hp.2 r s' hreply) hnext
    | halted e s' =>
      rw [hreply] at hnext
      exact hnext

/-- An invariant that every call keeps is kept by every program. -/
theorem invariant_run {I : σ → Prop} (hstep : ∀ q s, I s → I (h q s).state)
    (p : Program Q R ε α) {s : σ} (hs : I s) : I (p.run h s).state :=
  have hcalls : p.EveryCall h (fun _ _ => True) s :=
    (only_true p).everyCall (fun _ _ _ => trivial) s
  hcalls.invariant (fun q s hs _ => hstep q s hs) hs

end Program
