import Pingfs.Block.BlockData
import Pingfs.Lib.Run
import Mathlib.Data.List.ReduceOption
import Mathlib.Data.UInt

/-!
# Id suppliers

`CounterSupplier` counts up from `1` and throws once its 64-bit counter has come round to `0`.
`UpdatingIdSupplier` keeps the low byte of every id fixed, one value per node, and counts in the
56 bits above it; `update_if_less_than` moves the counter past an id seen on the wire.

Sources: `counter_supplier.cc`, `updating_id_suppler.cc`.

## Main results

* `UpdatingIdSupplier.floor_step` — what one call does to the next value to be handed out
* `UpdatingIdSupplier.dominates_of_clearsTie` — ids returned exceed everything seen, unless an
  id was passed in whose high part equals the counter and whose low byte is not below ours
* `UpdatingIdSupplier.never_reused_iff` — ids are distinct across nodes, and exhausted counters
  refuse, exactly in the runs that never ask an exhausted counter
-/

namespace Pingfs

/-- `class CounterSupplier`; `next` is `next_id_`. -/
structure CounterSupplier where
  next : UInt64
  deriving DecidableEq, Repr

namespace CounterSupplier

/-- `CounterSupplier::CounterSupplier`. -/
def new : CounterSupplier := ⟨1⟩

/-- `CounterSupplier::next_id`. -/
def nextId (s : CounterSupplier) : Except String (BlockId × CounterSupplier) :=
  if s.next = 0 then .error "Exhausted id space" else .ok (s.next, ⟨s.next + 1⟩)

theorem nextId_of_eq_zero {s : CounterSupplier} (h : s.next = 0) :
    s.nextId = .error "Exhausted id space" := if_pos h

theorem nextId_of_ne_zero {s : CounterSupplier} (h : s.next ≠ 0) :
    s.nextId = .ok (s.next, ⟨s.next + 1⟩) := if_neg h

end CounterSupplier

/-- `class UpdatingIdSupplier`. -/
structure UpdatingIdSupplier where
  fixedLowOrderBits : UInt8
  highOrderBits : UInt64
  deriving DecidableEq, Repr

namespace UpdatingIdSupplier

/-- `UpdatingIdSupplier::UpdatingIdSupplier`. -/
def new (fixedLowerOrderBits : UInt8) : UpdatingIdSupplier := ⟨fixedLowerOrderBits, 1⟩

/-- `UpdatingIdSupplier::next_id`: the id returned, and the supplier after. -/
def nextId (s : UpdatingIdSupplier) : BlockId × UpdatingIdSupplier :=
  ((s.highOrderBits <<< 8) + s.fixedLowOrderBits.toUInt64,
    { s with highOrderBits := s.highOrderBits + 1 })

/-- `UpdatingIdSupplier::update_if_less_than`. -/
def updateIfLessThan (s : UpdatingIdSupplier) (blockId : BlockId) : UpdatingIdSupplier :=
  let justHighOrder := blockId >>> 8
  if justHighOrder > s.highOrderBits then { s with highOrderBits := justHighOrder + 1 } else s

/-! ## Runs of one supplier -/

/-- The calls that read or move the counter. -/
inductive Call where
  | nextId
  | updateIfLessThan (blockId : BlockId)
  deriving DecidableEq, Repr

def step (s : UpdatingIdSupplier) : Call → UpdatingIdSupplier
  | .nextId => s.nextId.2
  | .updateIfLessThan b => s.updateIfLessThan b

/-- An id the supplier has seen: one it returned, or one passed to it. -/
inductive Event where
  | returned (blockId : BlockId)
  | passed (blockId : BlockId)
  deriving DecidableEq, Repr

def Event.blockId : Event → BlockId
  | .returned b => b
  | .passed b => b

def event (s : UpdatingIdSupplier) : Call → Event
  | .nextId => .returned s.nextId.1
  | .updateIfLessThan b => .passed b

/-- Everything a run sees, in order. -/
def events (s : UpdatingIdSupplier) (calls : List Call) : List Event := Run.trace step event s calls

/-- Each id returned is strictly greater than every id returned or passed in before it. -/
def Dominates (es : List Event) : Prop :=
  es.Pairwise fun e e' => ∀ b, e' = .returned b → e.blockId < b

/-- The counter and the high part of what is passed in stay below `2 ^ 56 - 1`. -/
def InRange (s : UpdatingIdSupplier) : Call → Prop
  | .nextId => s.highOrderBits < 2 ^ 56 - 1
  | .updateIfLessThan b => s.highOrderBits < 2 ^ 56 - 1 ∧ b >>> 8 < 2 ^ 56 - 1

/-- An id passed in with the high part the counter holds has a low byte below the fixed one. -/
def ClearsTie (s : UpdatingIdSupplier) : Call → Prop
  | .nextId => True
  | .updateIfLessThan b => b >>> 8 = s.highOrderBits → b.toUInt8 < s.fixedLowOrderBits

instance : (s : UpdatingIdSupplier) → (c : Call) → Decidable (InRange s c)
  | s, .nextId => inferInstanceAs (Decidable (s.highOrderBits < 2 ^ 56 - 1))
  | s, .updateIfLessThan b =>
    inferInstanceAs (Decidable (s.highOrderBits < 2 ^ 56 - 1 ∧ b >>> 8 < 2 ^ 56 - 1))

instance : (s : UpdatingIdSupplier) → (c : Call) → Decidable (ClearsTie s c)
  | _, .nextId => inferInstanceAs (Decidable True)
  | s, .updateIfLessThan b =>
    inferInstanceAs (Decidable (b >>> 8 = s.highOrderBits → b.toUInt8 < s.fixedLowOrderBits))

/-- The next value `next_id` hands out while the shift does not wrap. -/
def floor (s : UpdatingIdSupplier) : ℕ := s.highOrderBits.toNat * 256 + s.fixedLowOrderBits.toNat

theorem toNat_nextId {s : UpdatingIdSupplier} (h : s.highOrderBits.toNat < 2 ^ 56) :
    s.nextId.1.toNat = s.floor := by
  have hlow := s.fixedLowOrderBits.toNat_lt
  simp only [nextId, floor, UInt64.toNat_add, UInt64.toNat_shiftLeft, UInt8.toNat_toUInt64,
    Nat.shiftLeft_eq]
  have h8 : UInt64.toNat 8 % 64 = 8 := rfl
  rw [h8]
  omega

theorem toNat_eq_shift (b : BlockId) : b.toNat = (b >>> 8).toNat * 256 + b.toUInt8.toNat := by
  have h8 : UInt64.toNat 8 % 64 = 8 := rfl
  rw [UInt64.toNat_shiftRight, h8, Nat.shiftRight_eq_div_pow, UInt64.toNat_toUInt8]
  omega

/-- What one call does to the floor: it never falls, an id returned is the floor itself, and
after a call that clears the tie the floor is above the id seen. -/
theorem floor_step {s : UpdatingIdSupplier} {c : Call} (hr : InRange s c) (hc : ClearsTie s c) :
    s.floor ≤ (s.step c).floor ∧ (s.event c).blockId.toNat < (s.step c).floor ∧
      ∀ b, s.event c = .returned b → b.toNat = s.floor := by
  have hlow := s.fixedLowOrderBits.toNat_lt
  cases c with
  | nextId =>
    have hhigh : s.highOrderBits.toNat < 2 ^ 56 - 1 := UInt64.lt_iff_toNat_lt.mp hr
    have hid : s.nextId.1.toNat = s.floor := toNat_nextId (by omega)
    have hfloor : s.nextId.2.floor = s.floor + 256 := by
      simp only [nextId, floor, UInt64.toNat_add, UInt64.toNat_one]
      omega
    refine ⟨?_, ?_, ?_⟩
    · change s.floor ≤ s.nextId.2.floor
      omega
    · change s.nextId.1.toNat < s.nextId.2.floor
      omega
    · rintro b hb
      cases hb
      exact hid
  | updateIfLessThan b =>
    have hb : (b >>> 8).toNat < 2 ^ 56 - 1 := UInt64.lt_iff_toNat_lt.mp hr.2
    have hsplit := toNat_eq_shift b
    have hbyte := b.toUInt8.toNat_lt
    refine ⟨?_, ?_, fun _ h => nomatch h⟩
    · simp only [step, updateIfLessThan]
      split
      case isTrue hlt =>
        have := UInt64.lt_iff_toNat_lt.mp hlt
        simp only [floor, UInt64.toNat_add, UInt64.toNat_one]
        omega
      case isFalse => exact Nat.le_refl _
    · simp only [step, updateIfLessThan, event, Event.blockId]
      split
      case isTrue hlt =>
        simp only [floor, UInt64.toNat_add, UInt64.toNat_one]
        omega
      case isFalse hle =>
        have hle : (b >>> 8).toNat ≤ s.highOrderBits.toNat :=
          Nat.not_lt.mp fun h => hle (UInt64.lt_iff_toNat_lt.mpr h)
        rcases Nat.lt_or_eq_of_le hle with hlt | heq
        · simp only [floor]; omega
        · have := UInt8.lt_iff_toNat_lt.mp (hc (UInt64.toNat_inj.mp heq))
          simp only [floor]; omega

/-- Nothing a run returns is below the floor the run starts from. -/
theorem floor_le_of_returned {s : UpdatingIdSupplier} {calls : List Call}
    (h : Run.EveryStep step (fun s c => InRange s c ∧ ClearsTie s c) s calls) {b : BlockId}
    (hb : .returned b ∈ events s calls) : s.floor ≤ b.toNat := by
  induction calls generalizing s with
  | nil => cases hb
  | cons c cs ih =>
    obtain ⟨hmono, _, hret⟩ := floor_step h.1.1 h.1.2
    rcases List.mem_cons.mp hb with hhead | htail
    · exact (hret b hhead.symm).ge
    · exact hmono.trans (ih h.2 htail)

/-- A run whose calls all stay in range and clear the tie hands out dominating ids. -/
theorem dominates_of_steps {s : UpdatingIdSupplier} {calls : List Call}
    (h : Run.EveryStep step (fun s c => InRange s c ∧ ClearsTie s c) s calls) :
    Dominates (events s calls) := by
  induction calls generalizing s with
  | nil => exact List.Pairwise.nil
  | cons c cs ih =>
    refine List.Pairwise.cons ?_ (ih h.2)
    rintro e he b rfl
    obtain ⟨_, hlt, _⟩ := floor_step h.1.1 h.1.2
    exact UInt64.lt_iff_toNat_lt.mpr (hlt.trans_le (floor_le_of_returned h.2 he))

/-- **Fresh ids dominate.** From a new supplier, in every run that stays in range and in which
each id passed in with the counter's own high part has a low byte below the fixed one, every id
returned is strictly greater than everything returned or passed in before it. -/
theorem dominates_of_clearsTie (low : UInt8) (calls : List Call)
    (hrange : Run.EveryStep step InRange (new low) calls)
    (hclear : Run.EveryStep step ClearsTie (new low) calls) :
    Dominates (events (new low) calls) :=
  dominates_of_steps (hrange.and hclear)

theorem dominates_of_clearsTie_run :
    Dominates
      (events (new 7) [.updateIfLessThan 0x106, .nextId, .updateIfLessThan 0x500, .nextId]) :=
  dominates_of_clearsTie 7 _ (by decide) (by decide)

/-- A new supplier with low byte `0` that is passed `0x1ff` hands out `0x100`: the counter is
compared with the high part of the id by `>`, so it stays at `1`. -/
theorem not_dominates_of_tie :
    ¬ ∀ (low : UInt8) (calls : List Call), Run.EveryStep step InRange (new low) calls →
      Dominates (events (new low) calls) := by
  intro h
  have hdom := h 0 [.updateIfLessThan 0x1ff, .nextId] (by decide)
  have hlt := (List.pairwise_cons.mp hdom).1 (.returned 0x100)
    (List.mem_singleton.mpr rfl) 0x100 rfl
  exact absurd hlt (by decide)

/-- The tie is exactly what goes wrong: after an in-range id that does not clear it, the next id
handed out is not above it. -/
theorem nextId_le_of_not_clearsTie {s : UpdatingIdSupplier} {b : BlockId}
    (hr : s.highOrderBits < 2 ^ 56 - 1) (h : ¬ ClearsTie s (.updateIfLessThan b)) :
    (s.updateIfLessThan b).nextId.1 ≤ b := by
  obtain ⟨hhigh, hbyte⟩ := Classical.not_imp.mp h
  have hstay : s.updateIfLessThan b = s := by simp [updateIfLessThan, hhigh]
  have hlt : s.highOrderBits.toNat < 2 ^ 56 - 1 := UInt64.lt_iff_toNat_lt.mp hr
  have hle : s.fixedLowOrderBits.toNat ≤ b.toUInt8.toNat :=
    Nat.not_lt.mp fun h => hbyte (UInt8.lt_iff_toNat_lt.mpr h)
  rw [hstay, UInt64.le_iff_toNat_le, toNat_nextId (by omega), toNat_eq_shift b, hhigh, floor]
  omega

/-! ## Runs of a family of suppliers, one per node -/

section Family

variable {ι : Type*} [DecidableEq ι]

/-- One call on the supplier of one node. -/
def familyStep (fam : ι → UpdatingIdSupplier) (c : ι × Call) : ι → UpdatingIdSupplier :=
  Function.update fam c.1 ((fam c.1).step c.2)

/-- An id handed out: by which node, with which counter before the call. -/
structure Answer (ι : Type*) where
  node : ι
  counter : UInt64
  blockId : BlockId
  deriving DecidableEq

/-- The answer of one call; `none` for a call that hands nothing out. -/
def answer (fam : ι → UpdatingIdSupplier) (c : ι × Call) : Option (Answer ι) :=
  match c.2 with
  | .nextId => some ⟨c.1, (fam c.1).highOrderBits, (fam c.1).nextId.1⟩
  | .updateIfLessThan _ => none

/-- Every id a run hands out, in order. -/
def answers (fam : ι → UpdatingIdSupplier) (calls : List (ι × Call)) : List (Answer ι) :=
  (Run.trace familyStep answer fam calls).reduceOption

/-- No two ids handed out are equal, and no counter past its 56 bits handed one out. -/
def NeverReused (as : List (Answer ι)) : Prop :=
  (as.map Answer.blockId).Nodup ∧ ∀ a ∈ as, a.counter < 2 ^ 56

/-- The supplier asked for an id still has one: its counter fits in 56 bits. -/
def NotExhausted (fam : ι → UpdatingIdSupplier) (c : ι × Call) : Prop :=
  c.2 = .nextId → (fam c.1).highOrderBits < 2 ^ 56

instance (fam : ι → UpdatingIdSupplier) (c : ι × Call) : Decidable (NotExhausted fam c) :=
  inferInstanceAs (Decidable (_ → _))

/-- The suppliers a family starts from, by their low bytes. -/
def newFamily (low : ι → UInt8) : ι → UpdatingIdSupplier := fun i => new (low i)

@[simp] theorem answers_nil (fam : ι → UpdatingIdSupplier) : answers fam [] = [] := rfl

theorem answers_cons (fam : ι → UpdatingIdSupplier) (c : ι × Call) (cs : List (ι × Call)) :
    answers fam (c :: cs) = (answer fam c).toList ++ answers (familyStep fam c) cs := by
  cases h : answer fam c <;>
    simp [answers, Run.trace, h, List.reduceOption_cons_of_none, List.reduceOption_cons_of_some]

@[simp] theorem fixedLowOrderBits_step (s : UpdatingIdSupplier) (c : Call) :
    (s.step c).fixedLowOrderBits = s.fixedLowOrderBits := by
  cases c with
  | nextId => rfl
  | updateIfLessThan b => simp only [step, updateIfLessThan]; split <;> rfl

@[simp] theorem fixedLowOrderBits_familyStep (fam : ι → UpdatingIdSupplier) (c : ι × Call) (i : ι) :
    (familyStep fam c i).fixedLowOrderBits = (fam i).fixedLowOrderBits := by
  by_cases hi : i = c.1
  · subst hi; simp [familyStep]
  · simp [familyStep, Function.update_of_ne hi]

/-- A call on a supplier that is not exhausted does not lower its counter. -/
theorem highOrderBits_le_step {s : UpdatingIdSupplier} {c : Call}
    (h : c = .nextId → s.highOrderBits < 2 ^ 56) : s.highOrderBits ≤ (s.step c).highOrderBits := by
  rw [UInt64.le_iff_toNat_le]
  cases c with
  | nextId =>
    have hlt : s.highOrderBits.toNat < 2 ^ 56 := UInt64.lt_iff_toNat_lt.mp (h rfl)
    simp only [step, nextId, UInt64.toNat_add, UInt64.toNat_one]
    omega
  | updateIfLessThan b =>
    simp only [step, updateIfLessThan]
    split
    case isTrue hlt =>
      have hb : (b >>> 8).toNat < 2 ^ 56 := by
        have := toNat_eq_shift b
        have := b.toNat_lt
        omega
      have := UInt64.lt_iff_toNat_lt.mp hlt
      simp only [UInt64.toNat_add, UInt64.toNat_one]
      omega
    case isFalse => exact Nat.le_refl _

theorem highOrderBits_le_familyStep {fam : ι → UpdatingIdSupplier} {c : ι × Call}
    (h : NotExhausted fam c) (i : ι) :
    (fam i).highOrderBits ≤ (familyStep fam c i).highOrderBits := by
  by_cases hi : i = c.1
  · subst hi; simpa [familyStep] using highOrderBits_le_step h
  · simp [familyStep, Function.update_of_ne hi]

/-- Every answer of a run that asks no exhausted counter: its counter fits in 56 bits and is not
below the node's counter at the start, and its id is that counter over the node's low byte. -/
theorem answers_spec {fam : ι → UpdatingIdSupplier} {calls : List (ι × Call)}
    (h : Run.EveryStep familyStep NotExhausted fam calls) {a : Answer ι}
    (ha : a ∈ answers fam calls) :
    a.counter.toNat < 2 ^ 56 ∧ (fam a.node).highOrderBits ≤ a.counter ∧
      a.blockId.toNat = a.counter.toNat * 256 + (fam a.node).fixedLowOrderBits.toNat := by
  induction calls generalizing fam with
  | nil => cases ha
  | cons c cs ih =>
    rw [answers_cons] at ha
    rcases List.mem_append.mp ha with hhead | htail
    · obtain ⟨i, call⟩ := c
      cases call with
      | nextId =>
        obtain rfl : a = _ := by simpa [answer] using hhead
        have hlt : (fam i).highOrderBits.toNat < 2 ^ 56 := UInt64.lt_iff_toNat_lt.mp (h.1 rfl)
        exact ⟨hlt, UInt64.le_refl _, toNat_nextId hlt⟩
      | updateIfLessThan b => simp [answer] at hhead
    · obtain ⟨hlt, hle, hid⟩ := ih h.2 htail
      refine ⟨hlt, UInt64.le_trans (highOrderBits_le_familyStep h.1 a.node) hle, ?_⟩
      simpa using hid

/-- Two nodes' ids differ in their low bytes, one node's ids in their counters. -/
theorem nodup_answers {fam : ι → UpdatingIdSupplier}
    (hlow : Function.Injective fun i => (fam i).fixedLowOrderBits) {calls : List (ι × Call)}
    (h : Run.EveryStep familyStep NotExhausted fam calls) :
    ((answers fam calls).map Answer.blockId).Nodup := by
  induction calls generalizing fam with
  | nil => simp
  | cons c cs ih =>
    have htail := ih (by simpa using hlow) h.2
    obtain ⟨i, call⟩ := c
    cases call with
    | updateIfLessThan b => simpa [answers_cons, answer] using htail
    | nextId =>
      have hlt : (fam i).highOrderBits.toNat < 2 ^ 56 := UInt64.lt_iff_toNat_lt.mp (h.1 rfl)
      simp only [answers_cons, answer, Option.toList_some, List.singleton_append, List.map_cons,
        List.nodup_cons]
      refine ⟨fun hmem => ?_, htail⟩
      obtain ⟨a, ha, hid⟩ := List.mem_map.mp hmem
      obtain ⟨_, hle, hval⟩ := answers_spec h.2 ha
      have hhead : a.blockId.toNat = (fam i).floor := by rw [hid, toNat_nextId hlt]
      rw [fixedLowOrderBits_familyStep] at hval
      have hbyte := (fam a.node).fixedLowOrderBits.toNat_lt
      have hbyte' := (fam i).fixedLowOrderBits.toNat_lt
      by_cases hnode : a.node = i
      · -- the node's own counter has moved on
        rw [hnode] at hle hval
        have hnext : (familyStep fam (i, .nextId) i).highOrderBits.toNat
            = (fam i).highOrderBits.toNat + 1 := by
          simp only [familyStep, Function.update_self, step, nextId, UInt64.toNat_add,
            UInt64.toNat_one]
          omega
        have := UInt64.le_iff_toNat_le.mp hle
        simp only [floor] at hhead
        omega
      · have hne : (fam a.node).fixedLowOrderBits ≠ (fam i).fixedLowOrderBits :=
          fun heq => hnode (hlow heq)
        have hne' : (fam a.node).fixedLowOrderBits.toNat ≠ (fam i).fixedLowOrderBits.toNat :=
          fun heq => hne (UInt8.toNat_inj.mp heq)
        simp only [floor] at hhead
        omega

theorem notExhausted_of_counters {fam : ι → UpdatingIdSupplier} {calls : List (ι × Call)}
    (h : ∀ a ∈ answers fam calls, a.counter < 2 ^ 56) :
    Run.EveryStep familyStep NotExhausted fam calls := by
  induction calls generalizing fam with
  | nil => trivial
  | cons c cs ih =>
    rw [answers_cons] at h
    refine ⟨fun hc => ?_, ih fun a ha => h a (List.mem_append_right _ ha)⟩
    have hmem : (⟨c.1, (fam c.1).highOrderBits, (fam c.1).nextId.1⟩ : Answer ι)
        ∈ (answer fam c).toList := by simp [answer, hc]
    exact h _ (List.mem_append_left _ hmem)

/-- **Ids are never reused across nodes** exactly in the runs that never ask a supplier whose
56-bit counter is exhausted. -/
theorem never_reused_iff (low : ι → UInt8) (hlow : Function.Injective low)
    (calls : List (ι × Call)) :
    NeverReused (answers (newFamily low) calls) ↔
      Run.EveryStep familyStep NotExhausted (newFamily low) calls := by
  constructor
  · rintro ⟨_, hcounters⟩
    exact notExhausted_of_counters hcounters
  · intro h
    refine ⟨nodup_answers hlow h, fun a ha => ?_⟩
    exact UInt64.lt_iff_toNat_lt.mpr (answers_spec h ha).1

theorem never_reused_iff_two_nodes :
    NeverReused (answers (newFamily fun b : Bool => if b then 1 else 2)
        [(true, .nextId), (false, .nextId), (true, .updateIfLessThan 0x7ff), (true, .nextId)]) ↔
      Run.EveryStep familyStep NotExhausted (newFamily fun b : Bool => if b then 1 else 2)
        [(true, .nextId), (false, .nextId), (true, .updateIfLessThan 0x7ff), (true, .nextId)] :=
  never_reused_iff _ (fun a b => by cases a <;> cases b <;> decide) _

/-- One node with low byte `0`. The second call moves the counter to `2 ^ 56`; the shift then
wraps, and the last call hands out `0x100` again. -/
theorem reused_after_wrap :
    ¬ ∀ (low : Unit → UInt8), Function.Injective low → ∀ calls : List (Unit × Call),
      NeverReused (answers (newFamily low) calls) := by
  intro h
  have hreuse := (h (fun _ => 0) (fun _ _ _ => rfl) [((), .nextId),
    ((), .updateIfLessThan 0xffffffffffffffff), ((), .nextId), ((), .nextId)]).1
  revert hreuse
  decide

end Family

end UpdatingIdSupplier

end Pingfs
