import Mathlib.Tactic.Common

/-!
# Runs of a deterministic system

A system is a step function `step : σ → κ → σ` on states `σ`, driven by calls `κ`; a run is a
list of calls, and the state it ends in is `calls.foldl step s`. `EveryStep` says that a
condition on the state before a call and the call itself holds at each step of a run, and
`trace` collects what each step puts out.

## Main results

* `EveryStep.invariant` — what one step preserves, a whole run preserves
* `EveryStep.carrying` — and such an invariant holds at each of its steps
* `EveryStep.foldl_le_sub` — what each step of some kind brings nearer is reached
* `EveryStep.foldl_eq` — two systems that agree where the condition holds make the same run
* `EveryStep.and`, `EveryStep.imp` — conditions on steps combine and weaken
* `EveryStep.append_iff`, `trace_append` — a run and its two parts
* `everyStep_congr` — conditions that mean the same in every state reached
* `everyStep_map`, `everyStep_part` — a run of other calls, and of a part of the state
* `EveryStep.simulates` — each step of one system is matched by some steps of another one
-/

namespace Run

variable {σ κ ω : Type*} {step : σ → κ → σ} {P Q : σ → κ → Prop}

/-- `P` holds at every step of the run of `calls` from `s`: of the state the step starts in and
of the call made there. -/
def EveryStep (step : σ → κ → σ) (P : σ → κ → Prop) : σ → List κ → Prop
  | _, [] => True
  | s, c :: cs => P s c ∧ EveryStep step P (step s c) cs

@[simp] theorem everyStep_nil (s : σ) : EveryStep step P s [] := trivial

@[simp] theorem everyStep_cons (s : σ) (c : κ) (cs : List κ) :
    EveryStep step P s (c :: cs) ↔ P s c ∧ EveryStep step P (step s c) cs := Iff.rfl

instance EveryStep.decidable [∀ s c, Decidable (P s c)] :
    (s : σ) → (cs : List κ) → Decidable (EveryStep step P s cs)
  | _, [] => inferInstanceAs (Decidable True)
  | s, c :: cs =>
    haveI := EveryStep.decidable (step s c) cs
    inferInstanceAs (Decidable (P s c ∧ EveryStep step P (step s c) cs))

theorem EveryStep.append_iff (s : σ) (cs ds : List κ) :
    EveryStep step P s (cs ++ ds) ↔
      EveryStep step P s cs ∧ EveryStep step P (cs.foldl step s) ds := by
  induction cs generalizing s with
  | nil => simp
  | cons c cs ih => simp [ih, and_assoc]

theorem EveryStep.imp {s : σ} {cs : List κ} (h : EveryStep step P s cs)
    (himp : ∀ s c, P s c → Q s c) : EveryStep step Q s cs := by
  induction cs generalizing s with
  | nil => trivial
  | cons c cs ih => exact ⟨himp _ _ h.1, ih h.2⟩

theorem EveryStep.and {s : σ} {cs : List κ} (hP : EveryStep step P s cs)
    (hQ : EveryStep step Q s cs) : EveryStep step (fun s c => P s c ∧ Q s c) s cs := by
  induction cs generalizing s with
  | nil => trivial
  | cons c cs ih => exact ⟨⟨hP.1, hQ.1⟩, ih hP.2 hQ.2⟩

/-- Two systems that agree on the steps that meet `P` make the same run. -/
theorem EveryStep.foldl_eq {step' : σ → κ → σ} {s : σ} {cs : List κ} (h : EveryStep step P s cs)
    (hstep : ∀ s c, P s c → step' s c = step s c) : cs.foldl step' s = cs.foldl step s := by
  induction cs generalizing s with
  | nil => rfl
  | cons c cs ih =>
    rw [List.foldl_cons, List.foldl_cons, hstep s c h.1]
    exact ih h.2

/-- **The invariant rule.** If every step that meets `P` keeps `I`, a run whose steps all meet
`P` keeps `I`. -/
theorem EveryStep.invariant {I : σ → Prop} {s : σ} {cs : List κ} (h : EveryStep step P s cs)
    (hs : I s) (hstep : ∀ s c, I s → P s c → I (step s c)) : I (cs.foldl step s) := by
  induction cs generalizing s with
  | nil => exact hs
  | cons c cs ih => exact ih h.2 (hstep s c hs h.1)

/-- An invariant that the steps meeting `P` keep holds at each of them. -/
theorem EveryStep.carrying {I : σ → Prop} {s : σ} {cs : List κ} (h : EveryStep step P s cs)
    (hs : I s) (hstep : ∀ s c, I s → P s c → I (step s c)) :
    EveryStep step (fun s c => I s ∧ P s c) s cs := by
  induction cs generalizing s with
  | nil => trivial
  | cons c cs ih => exact ⟨⟨hs, h.1⟩, ih h.2 (hstep s c hs h.1)⟩

/-- Conditions that mean the same where an invariant holds. -/
theorem everyStep_congr {I : σ → Prop} {s : σ} {cs : List κ} (hs : I s)
    (hstep : ∀ s c, I s → I (step s c)) (hiff : ∀ s c, I s → (P s c ↔ Q s c)) :
    EveryStep step P s cs ↔ EveryStep step Q s cs := by
  induction cs generalizing s with
  | nil => exact Iff.rfl
  | cons c cs ih => exact and_congr (hiff s c hs) (ih (hstep s c hs))

/-- A condition that the calls meet in any state. -/
theorem everyStep_of_forall {cs : List κ} (h : ∀ c ∈ cs, ∀ s, P s c) (s : σ) :
    EveryStep step P s cs := by
  induction cs generalizing s with
  | nil => trivial
  | cons c cs ih =>
    obtain ⟨hc, hcs⟩ := List.forall_mem_cons.mp h
    exact ⟨hc s, ih hcs (step s c)⟩

/-- A run of calls that stand for others. -/
theorem everyStep_map {κ' : Type*} (g : κ' → κ) (s : σ) (cs : List κ') :
    EveryStep step P s (cs.map g) ↔
      EveryStep (fun s c => step s (g c)) (fun s c => P s (g c)) s cs := by
  induction cs generalizing s with
  | nil => exact Iff.rfl
  | cons c cs ih => exact and_congr Iff.rfl (ih (step s (g c)))

/-- A run of a part of the state, which steps on its own. -/
theorem everyStep_part {τ : Type*} {step' : τ → κ → τ} (f : σ → τ) (P : τ → κ → Prop)
    (hstep : ∀ s c, f (step s c) = step' (f s) c) (s : σ) (cs : List κ) :
    EveryStep step' P (f s) cs ↔ EveryStep step (fun s c => P (f s) c) s cs := by
  induction cs generalizing s with
  | nil => exact Iff.rfl
  | cons c cs ih =>
    have hrest := ih (step s c)
    rw [hstep] at hrest
    exact and_congr Iff.rfl hrest

/-- A number that the calls meeting `p`, and no others, raise by one. -/
theorem foldl_countP {f : σ → ℕ} {p : κ → Bool}
    (hstep : ∀ s c, f (step s c) = f s + if p c then 1 else 0) (s : σ) (cs : List κ) :
    f (cs.foldl step s) = f s + cs.countP p := by
  induction cs generalizing s with
  | nil => rfl
  | cons c cs ih =>
    rw [List.foldl_cons, ih, hstep, List.countP_cons]
    omega

/-- **The progress rule.** A number that the calls meeting `p` lower, until it is zero, and that no
call raises. -/
theorem EveryStep.foldl_le_sub {I : σ → Prop} {f : σ → ℕ} {p : κ → Bool} {s : σ} {cs : List κ}
    (h : EveryStep step P s cs) (hs : I s)
    (hstep : ∀ s c, I s → P s c → I (step s c) ∧ f (step s c) ≤ f s - if p c then 1 else 0) :
    f (cs.foldl step s) ≤ f s - cs.countP p := by
  induction cs generalizing s with
  | nil => exact Nat.le_refl _
  | cons c cs ih =>
    obtain ⟨hI, hle⟩ := hstep s c hs h.1
    have hrest := ih h.2 hI
    rw [List.foldl_cons, List.countP_cons]
    omega

/-- What the steps of a run put out, in order. -/
def trace (step : σ → κ → σ) (out : σ → κ → ω) : σ → List κ → List ω
  | _, [] => []
  | s, c :: cs => out s c :: trace step out (step s c) cs

/-- The calls of another system that those of a run stand for. -/
def refined {κ' : Type*} (step : σ → κ → σ) (calls : σ → κ → List κ') (s : σ) (cs : List κ) :
    List κ' := (trace step calls s cs).flatten

/-- Calls that stand for the same ones in any state. -/
theorem refined_eq_flatMap {κ' : Type*} (calls : κ → List κ') (s : σ) (cs : List κ) :
    refined step (fun _ c => calls c) s cs = cs.flatMap calls := by
  induction cs generalizing s with
  | nil => rfl
  | cons c cs ih => exact congrArg (calls c ++ ·) (ih (step s c))

/-- **The simulation rule.** If each step that meets `P`, in a state related by `R`, is matched by
steps that meet `Q`, to a related state, then so is a run. -/
theorem EveryStep.simulates {τ κ' : Type*} {step' : τ → κ' → τ} {Q : τ → κ' → Prop}
    {calls : σ → κ → List κ'} {R : σ → τ → Prop} {s : σ} {t : τ} {cs : List κ}
    (h : EveryStep step P s cs) (hs : R s t)
    (hstep : ∀ s t c, R s t → P s c → EveryStep step' Q t (calls s c) ∧
      R (step s c) ((calls s c).foldl step' t)) :
    EveryStep step' Q t (refined step calls s cs) ∧
      R (cs.foldl step s) ((refined step calls s cs).foldl step' t) := by
  induction cs generalizing s t with
  | nil => exact ⟨trivial, hs⟩
  | cons c cs ih =>
    obtain ⟨hmatched, hnext⟩ := hstep s t c hs h.1
    obtain ⟨hrest, hend⟩ := ih h.2 hnext
    have hrefined :
        refined step calls s (c :: cs) = calls s c ++ refined step calls (step s c) cs := rfl
    rw [hrefined, EveryStep.append_iff, List.foldl_append]
    exact ⟨⟨hmatched, hrest⟩, hend⟩

theorem trace_append (out : σ → κ → ω) (s : σ) (cs ds : List κ) :
    trace step out s (cs ++ ds) = trace step out s cs ++ trace step out (cs.foldl step s) ds := by
  induction cs generalizing s with
  | nil => rfl
  | cons c cs ih => exact congrArg (out s c :: ·) (ih (step s c))

end Run
