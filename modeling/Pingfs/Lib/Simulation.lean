import Pingfs.Lib.Interleaving

/-!
# Two handlers for one program

A program runs alike under two handlers when each call is answered alike in states that are related
(`Alike`). It may also be run where some replies are worse than those it was written for, such as a
missing value where there should be one. `Approximates` says that such a program goes on as the
other does, or halts with a `fault`: the relation `le` says of each call which replies are as good
as which, up to what is missing. A program that approximates itself `Tolerates` worse replies.

## Main results

* `EveryCall.run_alike`, `advance_alike` — the simulation rule, for a run and for one call
* `EveryCall.upTo` — what one side says about the other, as long as they are alike
* `approximates_bind` — sequencing
* `Follows.advance` — a program that goes on with worse replies than another one has got, one call
  at a time
-/

variable {Q : Type} {R : Q → Type} {ε α β σ τ : Type}

/-- The same end, in related states. -/
structure Outcome.Alike (Rel : σ → τ → Prop) (o : Outcome ε σ α) (o' : Outcome ε τ α) : Prop where
  result_eq : o'.result = o.result
  state : Rel o.state o'.state

theorem Outcome.Alike.of_returned {Rel : σ → τ → Prop} {o : Outcome ε σ α} {o' : Outcome ε τ α}
    {a : α} {s : σ} (h : o.Alike Rel o') (ho : o = .returned a s) :
    ∃ s', o' = .returned a s' ∧ Rel s s' := by
  subst ho
  obtain ⟨hresult, hstate⟩ := h
  cases o' with
  | returned b s' =>
    obtain rfl := Except.ok.inj hresult
    exact ⟨s', rfl, hstate⟩
  | halted e s' => cases hresult

theorem Outcome.Alike.of_halted {Rel : σ → τ → Prop} {o : Outcome ε σ α} {o' : Outcome ε τ α}
    {e : ε} {s : σ} (h : o.Alike Rel o') (ho : o = .halted e s) :
    ∃ s', o' = .halted e s' ∧ Rel s s' := by
  subst ho
  obtain ⟨hresult, hstate⟩ := h
  cases o' with
  | returned b s' => cases hresult
  | halted e' s' =>
    obtain rfl := Except.error.inj hresult
    exact ⟨s', rfl, hstate⟩

namespace Program

/-! ## Simulation -/

section

variable {h : Handler Q R ε σ} {h' : Handler Q R ε τ} {Rel : σ → τ → Prop}
  {ok : Q → σ → Prop} {ok' : Q → τ → Prop}

/-- **The simulation rule.** Calls are answered alike where each side meets its condition. -/
theorem EveryCall.run_alike
    (hcall : ∀ q s s', Rel s s' → ok q s → ok' q s' → (h q s).Alike Rel (h' q s'))
    {p : Program Q R ε α} {s : σ} {s' : τ} (hp : p.EveryCall h ok s) (hp' : p.EveryCall h' ok' s')
    (hs : Rel s s') : (p.run h s).Alike Rel (p.run h' s') := by
  induction p generalizing s s' with
  | ret a => exact ⟨rfl, hs⟩
  | halt e => exact ⟨rfl, hs⟩
  | call q next ih =>
    have halike := hcall q s s' hs hp.1 hp'.1
    rw [run, run]
    cases hreply : h q s with
    | returned r s₁ =>
      obtain ⟨s₁', hreply', hrel⟩ := halike.of_returned hreply
      rw [hreply']
      exact ih r (hp.2 r s₁ hreply) (hp'.2 r s₁' hreply') hrel
    | halted e s₁ =>
      obtain ⟨s₁', hreply', hrel⟩ := halike.of_halted hreply
      rw [hreply']
      exact ⟨rfl, hrel⟩

variable (h ok) in
/-- Up to the first call of the run from a state that does not meet `ok`, and at that call too,
`want` holds. -/
def UpTo (want : Q → σ → Prop) : Program Q R ε α → σ → Prop
  | ret _, _ => True
  | halt _, _ => True
  | call q next, s =>
    want q s ∧ (ok q s → ∀ r s', h q s = .returned r s' → (next r).UpTo want s')

/-- What follows of the calls of the other side holds as long as this side meets its condition. -/
theorem EveryCall.upTo {want : Q → σ → Prop}
    (hcall : ∀ q s s', Rel s s' → ok q s → ok' q s' → (h q s).Alike Rel (h' q s'))
    (hwant : ∀ q s s', Rel s s' → ok' q s' → want q s) {p : Program Q R ε α} {s : σ} {s' : τ}
    (hp' : p.EveryCall h' ok' s') (hs : Rel s s') : p.UpTo h ok want s := by
  induction p generalizing s s' with
  | ret a => trivial
  | halt e => trivial
  | call q next ih =>
    refine ⟨hwant q s s' hs hp'.1, fun hok r s₁ hreply => ?_⟩
    obtain ⟨s₁', hreply', hrel⟩ := (hcall q s s' hs hok hp'.1).of_returned hreply
    exact ih r (hp'.2 r s₁' hreply') hrel

/-- One call under both handlers. -/
theorem advance_alike (hcall : ∀ q s s', Rel s s' → (h q s).Alike Rel (h' q s'))
    (p : Program Q R ε α) {s : σ} {s' : τ} (hs : Rel s s') :
    (p.advance h' s').1 = (p.advance h s).1 ∧ Rel (p.advance h s).2 (p.advance h' s').2 := by
  cases p with
  | ret a => exact ⟨rfl, hs⟩
  | halt e => exact ⟨rfl, hs⟩
  | call q next =>
    have halike := hcall q s s' hs
    rw [advance, advance]
    cases hreply : h q s with
    | returned r s₁ =>
      obtain ⟨s₁', hreply', hrel⟩ := halike.of_returned hreply
      rw [hreply']
      exact ⟨rfl, hrel⟩
    | halted e s₁ =>
      obtain ⟨s₁', hreply', hrel⟩ := halike.of_halted hreply
      rw [hreply']
      exact ⟨rfl, hrel⟩

end

/-! ## Worse replies -/

variable (le : (q : Q) → R q → R q → Prop) (fault : ε → Prop)

/-- The first program goes as the second one does, to results related by `V`, as long as its replies
are as good; where they are not, it may halt with a `fault`. -/
def Approximates (V : α → β → Prop) : Program Q R ε α → Program Q R ε β → Prop
  | ret a', p => ∃ a, p = ret a ∧ V a' a
  | halt e, p => fault e ∨ p = halt e
  | call q next', p =>
    ∃ next, p = call q next ∧ ∀ r' r, le q r' r → (next' r').Approximates V (next r)

/-- The program goes on with worse replies, or halts with a `fault`. -/
abbrev Tolerates (p : Program Q R ε α) : Prop := p.Approximates le fault Eq p

variable {le fault}

/-- **Sequencing.** -/
theorem approximates_bind {γ δ : Type} {V : α → β → Prop} {W : γ → δ → Prop}
    {p' : Program Q R ε α} {p : Program Q R ε β} {f' : α → Program Q R ε γ}
    {f : β → Program Q R ε δ} (hp : p'.Approximates le fault V p)
    (hf : ∀ a' a, V a' a → (f' a').Approximates le fault W (f a)) :
    (p' >>= f').Approximates le fault W (p >>= f) := by
  change (p'.bind f').Approximates le fault W (p.bind f)
  induction p' generalizing p with
  | ret a' =>
    obtain ⟨a, rfl, hV⟩ := hp
    exact hf a' a hV
  | halt e =>
    rcases hp with hfault | rfl
    · exact Or.inl hfault
    · exact Or.inr rfl
  | call q next' ih =>
    obtain ⟨next, rfl, hnext⟩ := hp
    exact ⟨_, rfl, fun r' r hle => ih r' (hnext r' r hle)⟩

theorem tolerates_bind {p : Program Q R ε α} {f : α → Program Q R ε β}
    (hp : p.Tolerates le fault) (hf : ∀ a, (f a).Tolerates le fault) :
    (p >>= f).Tolerates le fault := by
  refine approximates_bind hp fun a' a heq => ?_
  subst heq
  exact hf a'

@[simp] theorem tolerates_pure (a : α) : (pure a : Program Q R ε α).Tolerates le fault :=
  ⟨a, rfl, rfl⟩

@[simp] theorem tolerates_halt (e : ε) : (halt e : Program Q R ε α).Tolerates le fault :=
  Or.inr rfl

@[simp] theorem tolerates_ofExcept (e : Except ε α) :
    (ofExcept e : Program Q R ε α).Tolerates le fault := by
  cases e with
  | ok a => exact tolerates_pure a
  | error e => exact tolerates_halt e

theorem tolerates_ite {c : Prop} [Decidable c] {p q : Program Q R ε α}
    (hp : p.Tolerates le fault) (hq : q.Tolerates le fault) :
    (if c then p else q).Tolerates le fault := by
  split
  · exact hp
  · exact hq

/-- A single call, and what is done with its reply. -/
theorem approximates_request_bind {q : Q} {f' : R q → Program Q R ε α} {f : R q → Program Q R ε β}
    {V : α → β → Prop} (hf : ∀ r' r, le q r' r → (f' r').Approximates le fault V (f r)) :
    (request q >>= f').Approximates le fault V (request q >>= f) :=
  ⟨f, rfl, hf⟩

/-- A computation that fails with a `fault` or gives what the other one gives. -/
theorem approximates_ofExcept_bind {γ : Type} {e' e : Except ε α} {f' : α → Program Q R ε β}
    {f : α → Program Q R ε γ} {V : β → γ → Prop}
    (he : (∃ err, e' = .error err ∧ fault err) ∨ e' = e)
    (hf : ∀ a, e = .ok a → (f' a).Approximates le fault V (f a)) :
    (ofExcept e' >>= f').Approximates le fault V (ofExcept e >>= f) := by
  rcases he with ⟨err, rfl, hfault⟩ | rfl
  · exact Or.inl hfault
  · cases e' with
    | ok a => exact hf a rfl
    | error e => exact Or.inr rfl

/-! ### Beside a state that does not change -/

variable (h : Handler Q R ε σ) (s : σ) (P : Q → Prop) (le fault)

/-- A program whose calls, answered from `s`, leave `s` as it is, and give `result` in the end; all
of them are of the kind `P`. -/
def Steady (result : Except ε α) : Program Q R ε α → Prop
  | ret a => result = .ok a
  | halt e => result = .error e
  | call q next => P q ∧ ∃ r, h q s = .returned r s ∧ (next r).Steady result

/-- The program goes on with worse replies than another one that is answered from `s`, which gives
`result`. -/
def Follows (result : Except ε α) (p' : Program Q R ε α) : Prop :=
  ∃ p, p'.Approximates le fault Eq p ∧ p.Steady h s P result

variable {le fault h s P} {result : Except ε α}

theorem EveryCall.steady {ok : Q → σ → Prop} {p : Program Q R ε α} (hp : p.EveryCall h ok s)
    (hP : p.Only P) (hkeeps : ∀ q, P q → ok q s → ∃ r, h q s = .returned r s) :
    p.Steady h s P (p.run h s).result := by
  induction p with
  | ret a => rfl
  | halt e => rfl
  | call q next ih =>
    obtain ⟨r, hreply⟩ := hkeeps q hP.1 hp.1
    refine ⟨hP.1, r, hreply, ?_⟩
    rw [run, hreply]
    exact ih r (hp.2 r s hreply) (hP.2 r)

theorem Follows.of_ret {a : α} (h' : Follows le fault h s P result (ret a)) :
    result = .ok a := by
  obtain ⟨p, ⟨b, rfl, rfl⟩, hsteady⟩ := h'
  exact hsteady

theorem Follows.of_halt {e : ε} (h' : Follows le fault h s P result (halt e)) :
    fault e ∨ result = .error e := by
  obtain ⟨p, hfault | rfl, hsteady⟩ := h'
  · exact Or.inl hfault
  · exact Or.inr hsteady

/-- **One call.** Another handler answers it, in another state, with a reply that is as good up to
what is missing. -/
theorem Follows.advance {g : Handler Q R ε τ} {t : τ} {p' : Program Q R ε α}
    (hp : Follows le fault h s P result p')
    (hcall : ∀ q r, P q → h q s = .returned r s →
      ∃ r' t', g q t = .returned r' t' ∧ le q r' r) :
    Follows le fault h s P result (p'.advance g t).1 := by
  obtain ⟨p, happrox, hsteady⟩ := hp
  cases p' with
  | ret a => exact ⟨p, happrox, hsteady⟩
  | halt e => exact ⟨p, happrox, hsteady⟩
  | call q next' =>
    obtain ⟨next, rfl, hnext⟩ := happrox
    obtain ⟨hkind, r, hreply, hrest⟩ := hsteady
    obtain ⟨r', t', hreply', hle⟩ := hcall q r hkind hreply
    rw [advance_of_returned hreply']
    exact ⟨next r, hnext r' r hle, hrest⟩

end Program
