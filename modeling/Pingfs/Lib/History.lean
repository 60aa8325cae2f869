import Mathlib.Tactic.Common

/-!
# What happened before

A log is a list of events, and the last one stands at its end. Two things are said of it here:
that something has happened since which something else has not (`Since`), and that each event was
right when it happened, given the log up to it (`Historically`). Both are settled one event at a
time.

## Main results

* `since_concat`, `historically_concat` — one more event
-/

namespace History

variable {α : Type*} {A B : α → Prop} {P : List α → α → Prop} {log : List α} {e : α}

/-- An `A` has happened, and no `B` after it. -/
def Since (A B : α → Prop) (log : List α) : Prop :=
  ∃ before e after, log = before ++ e :: after ∧ A e ∧ ∀ later ∈ after, ¬ B later

/-- Each event meets `P` with what happened before it. -/
def Historically (P : List α → α → Prop) (log : List α) : Prop :=
  ∀ before e after, log = before ++ e :: after → P before e

/-- An event of a longer log is the last one or was there before. -/
theorem concat_eq_iff {before after : List α} {e' : α} : log ++ [e] = before ++ e' :: after ↔
    (before = log ∧ e' = e ∧ after = []) ∨
      ∃ after', after = after' ++ [e] ∧ log = before ++ e' :: after' := by
  rcases List.eq_nil_or_concat after with rfl | ⟨after', last, rfl⟩
  · constructor
    · intro h
      obtain ⟨rfl, hlast⟩ := List.append_inj' h rfl
      exact Or.inl ⟨rfl, (List.cons.inj hlast).1.symm, rfl⟩
    · rintro (⟨rfl, rfl, -⟩ | ⟨after', hnil, -⟩)
      · rfl
      · simp at hnil
  · rw [List.concat_eq_append, ← List.cons_append, ← List.append_assoc]
    constructor
    · intro h
      obtain ⟨rfl, hlast⟩ := List.append_inj' h rfl
      obtain rfl := (List.cons.inj hlast).1
      exact Or.inr ⟨after', rfl, rfl⟩
    · rintro (⟨-, -, hnil⟩ | ⟨after'', hafter, rfl⟩)
      · simp at hnil
      · obtain ⟨rfl, hlast⟩ := List.append_inj' hafter rfl
        rw [hlast]

@[simp] theorem not_since_nil : ¬ Since A B ([] : List α) := by
  rintro ⟨before, e, after, hlog, -⟩
  simp at hlog

/-- **One more event**: it is an `A`, or an earlier one counts and this is not a `B`. -/
theorem since_concat : Since A B (log ++ [e]) ↔ A e ∨ ¬ B e ∧ Since A B log := by
  constructor
  · rintro ⟨before, e', after, hlog, hA, hB⟩
    rcases concat_eq_iff.mp hlog with ⟨-, rfl, -⟩ | ⟨after', rfl, rfl⟩
    · exact Or.inl hA
    · rw [List.forall_mem_append, List.forall_mem_singleton] at hB
      exact Or.inr ⟨hB.2, before, e', after', rfl, hA, hB.1⟩
  · rintro (hA | ⟨hB, before, e', after, rfl, hA, hafter⟩)
    · exact ⟨log, e, [], rfl, hA, List.forall_mem_nil _⟩
    · refine ⟨before, e', after ++ [e], by rw [List.append_assoc, List.cons_append], hA, ?_⟩
      rw [List.forall_mem_append, List.forall_mem_singleton]
      exact ⟨hafter, hB⟩

@[simp] theorem historically_nil : Historically P [] := by
  intro before e after hlog
  simp at hlog

/-- **One more event** has to be right after those before it. -/
theorem historically_concat : Historically P (log ++ [e]) ↔ Historically P log ∧ P log e := by
  constructor
  · intro h
    refine ⟨fun before e' after hlog => ?_, h log e [] rfl⟩
    refine h before e' (after ++ [e]) ?_
    rw [hlog, List.append_assoc, List.cons_append]
  · rintro ⟨hlog, he⟩ before e' after hsplit
    rcases concat_eq_iff.mp hsplit with ⟨rfl, rfl, -⟩ | ⟨after', -, rfl⟩
    · exact he
    · exact hlog before e' after' rfl

end History
