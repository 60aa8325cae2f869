import Mathlib.Data.Nat.ModEq
import Mathlib.Tactic.Common

/-!
# The Internet checksum

Bytes are summed as big-endian 16-bit words in ones'-complement arithmetic: a carry out of the 16
bits is added back in at the other end. That is arithmetic modulo `0xFFFF`, in which `0xFFFF` is
the sum of anything that is a multiple of it and not zero throughout.

## Main results

* `onesSum_eq_iff` — when the words of a packet sum to `0xFFFF`
-/

namespace InternetChecksum

/-- The big-endian 16-bit words of some bytes. An odd byte at the end is padded with a zero. -/
def words : List UInt8 → List ℕ
  | [] => []
  | [b] => [b.toNat * 2 ^ 8]
  | b :: c :: bytes => (b.toNat * 2 ^ 8 + c.toNat) :: words bytes

/-- Addition with end-around carry. -/
def add (a b : ℕ) : ℕ := (a + b) % 2 ^ 16 + (a + b) / 2 ^ 16

/-- The ones'-complement sum of the words of some bytes. -/
def onesSum (bytes : List UInt8) : ℕ := (words bytes).foldl add 0

@[simp] theorem words_nil : words [] = [] := rfl

@[simp] theorem words_cons_cons (b c : UInt8) (bytes : List UInt8) :
    words (b :: c :: bytes) = (b.toNat * 2 ^ 8 + c.toNat) :: words bytes := rfl

theorem lt_of_mem_words {bytes : List UInt8} {w : ℕ} (h : w ∈ words bytes) : w < 2 ^ 16 := by
  induction bytes using words.induct with
  | case1 => cases h
  | case2 b =>
    have hb := b.toNat_lt
    obtain rfl := List.mem_singleton.mp h
    omega
  | case3 b c bytes ih =>
    have hb := b.toNat_lt
    have hc := c.toNat_lt
    rcases List.mem_cons.mp h with rfl | h
    · omega
    · exact ih h

theorem sum_words_le (bytes : List UInt8) :
    (words bytes).sum ≤ (2 ^ 16 - 1) * ((bytes.length + 1) / 2) := by
  induction bytes using words.induct with
  | case1 => simp
  | case2 b =>
    have hb := b.toNat_lt
    simp only [words, List.sum_cons, List.sum_nil, List.length_singleton]
    omega
  | case3 b c bytes ih =>
    have hb := b.toNat_lt
    have hc := c.toNat_lt
    simp only [words_cons_cons, List.sum_cons, List.length_cons]
    omega

theorem add_lt {a b : ℕ} (ha : a < 2 ^ 16) (hb : b < 2 ^ 16) : add a b < 2 ^ 16 := by
  unfold add
  omega

theorem add_modEq (a b : ℕ) : add a b ≡ a + b [MOD 2 ^ 16 - 1] := by
  unfold add Nat.ModEq
  omega

theorem add_eq_zero_iff {a b : ℕ} : add a b = 0 ↔ a + b = 0 := by
  unfold add
  omega

/-- What a sum of words is: below `2 ^ 16`, congruent to the plain sum, and zero only with it. -/
theorem foldl_add_spec {ws : List ℕ} (hws : ∀ w ∈ ws, w < 2 ^ 16) {acc : ℕ} (hacc : acc < 2 ^ 16) :
    ws.foldl add acc < 2 ^ 16 ∧ ws.foldl add acc ≡ acc + ws.sum [MOD 2 ^ 16 - 1] ∧
      (ws.foldl add acc = 0 ↔ acc + ws.sum = 0) := by
  induction ws generalizing acc with
  | nil => exact ⟨hacc, Nat.ModEq.refl _, Iff.rfl⟩
  | cons w ws ih =>
    have hw := hws w List.mem_cons_self
    obtain ⟨hlt, hmod, hzero⟩ := ih (fun v hv => hws v (List.mem_cons_of_mem _ hv)) (add_lt hacc hw)
    rw [List.foldl_cons, List.sum_cons]
    refine ⟨hlt, ?_, ?_⟩
    · calc ws.foldl add (add acc w)
          ≡ add acc w + ws.sum [MOD 2 ^ 16 - 1] := hmod
        _ ≡ acc + w + ws.sum [MOD 2 ^ 16 - 1] := (add_modEq acc w).add_right _
        _ = acc + (w + ws.sum) := Nat.add_assoc ..
    · rw [hzero]
      have hadd := add_eq_zero_iff (a := acc) (b := w)
      omega

/-- **The words of a packet sum to `0xFFFF`** exactly if their plain sum is a multiple of it other
than zero. -/
theorem onesSum_eq_iff (bytes : List UInt8) :
    onesSum bytes = 0xFFFF ↔ (words bytes).sum ≠ 0 ∧ (words bytes).sum % (2 ^ 16 - 1) = 0 := by
  obtain ⟨hlt, hmod, hzero⟩ := foldl_add_spec (fun w (hw : w ∈ words bytes) => lt_of_mem_words hw)
    (show 0 < 2 ^ 16 by omega)
  rw [Nat.zero_add] at hmod hzero
  change onesSum bytes < 2 ^ 16 at hlt
  change onesSum bytes % (2 ^ 16 - 1) = (words bytes).sum % (2 ^ 16 - 1) at hmod
  change onesSum bytes = 0 ↔ _ at hzero
  constructor
  · intro hsum
    refine ⟨fun hnone => ?_, ?_⟩
    · rw [hzero.mpr hnone] at hsum
      omega
    · omega
  · rintro ⟨hne, hmultiple⟩
    have hpos : onesSum bytes ≠ 0 := fun h => hne (hzero.mp h)
    omega

end InternetChecksum
