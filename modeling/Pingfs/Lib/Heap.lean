import Mathlib.Data.Multiset.Count
import Mathlib.Data.Multiset.UnionInter
import Mathlib.Logic.Function.Basic
import Mathlib.Tactic.Common

/-!
# What a map holds

A map `m : κ → Option ω` holds a multiset of cells when its keys are the keys of the cells, each
once, and the value under the key of a cell is that cell's. Multisets add, so the cells of two
structures in one map are a sum, and a structure that is moved elsewhere leaves the rest of the
sum alone.

## Main results

* `Holds.add`, `Holds.insert`, `Holds.erase` — cells with new keys are added, a cell is removed
* `Holds.isSome_iff`, `Holds.get` — what is mapped, and to what
-/

namespace Heap

variable {κ ω β : Type} {key : β → κ} {val : β → ω} {m : κ → Option ω}
  {cells : Multiset β} {b : β} {k : κ}

/-- `m` maps the keys of `cells` to their values and nothing else, and the keys are distinct. -/
structure Holds (key : β → κ) (val : β → ω) (m : κ → Option ω) (cells : Multiset β) : Prop where
  nodup : (cells.map key).Nodup
  get : ∀ b ∈ cells, m (key b) = some (val b)
  mem : ∀ k, (m k).isSome → k ∈ cells.map key

theorem Holds.isSome_iff (h : Holds key val m cells) : (m k).isSome ↔ k ∈ cells.map key := by
  refine ⟨h.mem k, fun hk => ?_⟩
  obtain ⟨b, hb, rfl⟩ := Multiset.mem_map.mp hk
  rw [h.get b hb]
  rfl

theorem Holds.eq_none_iff (h : Holds key val m cells) : m k = none ↔ k ∉ cells.map key := by
  rw [← h.isSome_iff]
  cases m k <;> simp

/-- What is mapped is a cell. -/
theorem Holds.exists_of_eq_some (h : Holds key val m cells) {v : ω} (hv : m k = some v) :
    ∃ b ∈ cells, key b = k ∧ val b = v := by
  obtain ⟨b, hb, rfl⟩ := Multiset.mem_map.mp (h.mem k (by simp [hv]))
  refine ⟨b, hb, rfl, ?_⟩
  rw [h.get b hb] at hv
  exact Option.some.inj hv

theorem Holds.empty : Holds key val (fun _ => none) 0 :=
  ⟨Multiset.nodup_zero, by simp, by simp⟩

/-- **Cells with new keys are added.** -/
theorem Holds.add {m' : κ → Option ω} {new : Multiset β} (h : Holds key val m cells)
    (hnodup : (new.map key).Nodup) (hnew : ∀ b ∈ new, key b ∉ cells.map key)
    (hget : ∀ b ∈ new, m' (key b) = some (val b)) (hrest : ∀ k, k ∉ new.map key → m' k = m k) :
    Holds key val m' (new + cells) := by
  refine ⟨?_, fun a ha => ?_, fun k hk => ?_⟩
  · rw [Multiset.map_add]
    refine Multiset.nodup_add.mpr ⟨hnodup, h.nodup, ?_⟩
    refine Multiset.disjoint_iff_ne.mpr fun k hk k' hk' heq => ?_
    obtain ⟨b, hb, rfl⟩ := Multiset.mem_map.mp hk
    exact hnew b hb (heq ▸ hk')
  · rcases Multiset.mem_add.mp ha with ha | ha
    · exact hget a ha
    · have hold : key a ∉ new.map key := by
        intro hmem
        obtain ⟨b, hb, hsame⟩ := Multiset.mem_map.mp hmem
        exact hnew b hb (hsame ▸ Multiset.mem_map_of_mem key ha)
      rw [hrest _ hold, h.get a ha]
  · rw [Multiset.map_add, Multiset.mem_add]
    by_cases hkn : k ∈ new.map key
    · exact Or.inl hkn
    · rw [hrest k hkn] at hk
      exact Or.inr (h.mem k hk)

/-- A cell with a new key is added. -/
theorem Holds.insert [DecidableEq κ] (h : Holds key val m cells) (hnew : key b ∉ cells.map key) :
    Holds key val (Function.update m (key b) (some (val b))) (b ::ₘ cells) := by
  rw [← Multiset.singleton_add]
  refine h.add (Multiset.nodup_singleton _) (fun a ha => ?_) (fun a ha => ?_) fun k hk => ?_
  · obtain rfl := Multiset.mem_singleton.mp ha
    exact hnew
  · obtain rfl := Multiset.mem_singleton.mp ha
    exact Function.update_self ..
  · rw [Multiset.map_singleton, Multiset.mem_singleton] at hk
    exact Function.update_of_ne hk ..

/-- **A cell is removed.** -/
theorem Holds.erase [DecidableEq κ] (h : Holds key val m (b ::ₘ cells)) :
    Holds key val (Function.update m (key b) none) cells := by
  have hnodup := h.nodup
  rw [Multiset.map_cons, Multiset.nodup_cons] at hnodup
  refine ⟨hnodup.2, fun a ha => ?_, fun k hk => ?_⟩
  · have hne : key a ≠ key b := fun heq => hnodup.1 (heq ▸ Multiset.mem_map_of_mem key ha)
    rw [Function.update_of_ne hne, h.get a (Multiset.mem_cons_of_mem ha)]
  · have hkb : k ≠ key b := by
      rintro rfl
      simp at hk
    rw [Function.update_of_ne hkb] at hk
    have hmem := h.mem k hk
    rw [Multiset.map_cons, Multiset.mem_cons] at hmem
    exact hmem.resolve_left hkb

end Heap
