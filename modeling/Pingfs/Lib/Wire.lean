import Mathlib.Data.List.Basic
import Mathlib.Tactic.Common

/-!
# The tag-value wire format

A message on the wire is a sequence of fields, each a number with a payload: a base-128 integer
or a run of bytes that its length precedes. `encode` writes a list of fields, `parse` reads one
back, and the accessors pick what a reader of one field number sees: all payloads in order for a
repeated field, the last one otherwise.

## Main results

* `parseVarint_varint` — an integer is read back, whatever follows it
* `parse_encode` — a list of fields is read back
* `varintsOf_optVarint`, `bytesOf_optBytes` and their siblings — what an optional field shows to
  each accessor
-/

namespace Wire

/-- The payload of a field. -/
inductive Payload where
  | varint (n : UInt64)
  | bytes (b : List UInt8)
  deriving DecidableEq, Repr

/-- A field: its number and its payload. -/
abbrev Field := ℕ × Payload

/-! ## Base-128 integers -/

/-- Groups of seven bits, the lowest first, all but the last with the high bit set. -/
def varintLoop : ℕ → ℕ → List UInt8
  | 0, n => [.ofNat n]
  | fuel + 1, n =>
    if n < 128 then [.ofNat n] else .ofNat (n % 128 + 128) :: varintLoop fuel (n / 128)

/-- A number bounds the number of its groups. -/
def varint (n : ℕ) : List UInt8 := varintLoop n n

def parseVarint : List UInt8 → Option (ℕ × List UInt8)
  | [] => none
  | b :: rest =>
    if b < 128 then some (b.toNat, rest)
    else (parseVarint rest).map fun (n, rest) => (b.toNat - 128 + 128 * n, rest)

theorem parseVarint_varintLoop {fuel n : ℕ} (h : n ≤ fuel) (rest : List UInt8) :
    parseVarint (varintLoop fuel n ++ rest) = some (n, rest) := by
  induction fuel generalizing n with
  | zero =>
    obtain rfl : n = 0 := by omega
    rfl
  | succ fuel ih =>
    by_cases hn : n < 128
    · have hlt : UInt8.ofNat n < 128 := by
        rw [UInt8.lt_iff_toNat_lt, UInt8.toNat_ofNat', Nat.mod_eq_of_lt (by omega)]
        exact hn
      have htoNat : (UInt8.ofNat n).toNat = n := by
        rw [UInt8.toNat_ofNat', Nat.mod_eq_of_lt (by omega)]
      simp [varintLoop, hn, parseVarint, hlt, htoNat]
    · have htoNat : (UInt8.ofNat (n % 128 + 128)).toNat = n % 128 + 128 := by
        rw [UInt8.toNat_ofNat', Nat.mod_eq_of_lt (by omega)]
      have hge : ¬ UInt8.ofNat (n % 128 + 128) < 128 := by
        rw [UInt8.lt_iff_toNat_lt, htoNat]
        simp
      simp only [varintLoop, hn, if_false, List.cons_append, parseVarint, hge,
        ih (show n / 128 ≤ fuel by omega), Option.map_some, htoNat]
      rw [Nat.add_sub_cancel, Nat.mod_add_div]

@[simp] theorem parseVarint_varint (n : ℕ) (rest : List UInt8) :
    parseVarint (varint n ++ rest) = some (n, rest) := parseVarint_varintLoop (Nat.le_refl _) rest

theorem varint_ne_nil (n : ℕ) : varint n ≠ [] := by
  unfold varint
  cases n with
  | zero => simp [varintLoop]
  | succ n =>
    simp only [varintLoop]
    split <;> simp

/-! ## Fields -/

/-- The tag of a field holds its number above three bits that say how the payload is written. -/
def encodeField : Field → List UInt8
  | (number, .varint n) => varint (8 * number) ++ varint n.toNat
  | (number, .bytes b) => varint (8 * number + 2) ++ (varint b.length ++ b)

def encode (fields : List Field) : List UInt8 := fields.flatMap encodeField

def parseField (bs : List UInt8) : Option (Field × List UInt8) := do
  let (tag, bs) ← parseVarint bs
  match tag % 8 with
  | 0 =>
    let (n, bs) ← parseVarint bs
    some ((tag / 8, .varint (.ofNat n)), bs)
  | 2 =>
    let (len, bs) ← parseVarint bs
    if len ≤ bs.length then some ((tag / 8, .bytes (bs.take len)), bs.drop len) else none
  | _ => none

/-- Reads fields until the bytes end; each takes at least one byte. -/
def parseLoop : ℕ → List UInt8 → Option (List Field)
  | _, [] => some []
  | 0, _ :: _ => none
  | fuel + 1, bs => do
    let (field, bs) ← parseField bs
    let fields ← parseLoop fuel bs
    some (field :: fields)

def parse (bs : List UInt8) : Option (List Field) := parseLoop bs.length bs

theorem parseField_encodeField (field : Field) (rest : List UInt8) :
    parseField (encodeField field ++ rest) = some (field, rest) := by
  obtain ⟨number, payload⟩ := field
  cases payload with
  | varint n => simp [encodeField, parseField]
  | bytes b =>
    have htag : (8 * number + 2) % 8 = 2 ∧ (8 * number + 2) / 8 = number := by omega
    simp [encodeField, parseField, htag]

theorem encodeField_ne_nil (field : Field) : encodeField field ≠ [] := by
  obtain ⟨number, payload⟩ := field
  cases payload <;> simp [encodeField, varint_ne_nil]

theorem parseLoop_encode {fuel : ℕ} {fields : List Field} (h : (encode fields).length ≤ fuel) :
    parseLoop fuel (encode fields) = some fields := by
  induction fields generalizing fuel with
  | nil => cases fuel <;> rfl
  | cons field fields ih =>
    have hne := encodeField_ne_nil field
    have hcons : encode (field :: fields) = encodeField field ++ encode fields := rfl
    rw [hcons] at h ⊢
    have hlen : 0 < (encodeField field).length := List.length_pos_iff.mpr hne
    obtain ⟨fuel, rfl⟩ : ∃ k, fuel = k + 1 := ⟨fuel - 1, by grind⟩
    have ih := ih (show (encode fields).length ≤ fuel by simp at h; omega)
    obtain ⟨b, bs, hbs⟩ := List.exists_cons_of_ne_nil hne
    have hread := parseField_encodeField field (encode fields)
    rw [hbs] at hread ⊢
    simp only [List.cons_append] at hread ⊢
    simp [parseLoop, hread, ih]

/-- **A list of fields is read back.** -/
@[simp] theorem parse_encode (fields : List Field) : parse (encode fields) = some fields :=
  parseLoop_encode (Nat.le_refl _)

/-! ## Accessors -/

/-- The integers under a field number, in order. -/
def varintsOf (number : ℕ) (fields : List Field) : List UInt64 :=
  fields.filterMap fun
    | (k, .varint n) => if k = number then some n else none
    | _ => none

/-- The byte runs under a field number, in order. -/
def bytesOf (number : ℕ) (fields : List Field) : List (List UInt8) :=
  fields.filterMap fun
    | (k, .bytes b) => if k = number then some b else none
    | _ => none

/-- A singular field is the last one of its number. -/
def lastVarint (number : ℕ) (fields : List Field) : Option UInt64 :=
  (varintsOf number fields).getLast?

def lastBytes (number : ℕ) (fields : List Field) : Option (List UInt8) :=
  (bytesOf number fields).getLast?

/-- An optional field is written when it is set. -/
def optVarint (number : ℕ) (n : Option UInt64) : List Field := n.toList.map (number, .varint ·)

def optBytes (number : ℕ) (b : Option (List UInt8)) : List Field :=
  b.toList.map (number, .bytes ·)

/-- A repeated field is written once for each of its items. -/
def repVarint (number : ℕ) (ns : List UInt64) : List Field := ns.map (number, .varint ·)

variable (k number : ℕ)

@[simp] theorem varintsOf_append (fs gs : List Field) :
    varintsOf k (fs ++ gs) = varintsOf k fs ++ varintsOf k gs := List.filterMap_append ..

@[simp] theorem bytesOf_append (fs gs : List Field) :
    bytesOf k (fs ++ gs) = bytesOf k fs ++ bytesOf k gs := List.filterMap_append ..

@[simp] theorem varintsOf_repVarint (ns : List UInt64) :
    varintsOf k (repVarint number ns) = if number = k then ns else [] := by
  by_cases h : number = k <;> simp [varintsOf, repVarint, List.filterMap_map, h]

@[simp] theorem varintsOf_optVarint (n : Option UInt64) :
    varintsOf k (optVarint number n) = if number = k then n.toList else [] :=
  varintsOf_repVarint k number n.toList

@[simp] theorem varintsOf_optBytes (b : Option (List UInt8)) :
    varintsOf k (optBytes number b) = [] := by
  simp [varintsOf, optBytes, List.filterMap_map]

@[simp] theorem bytesOf_optBytes (b : Option (List UInt8)) :
    bytesOf k (optBytes number b) = if number = k then b.toList else [] := by
  by_cases h : number = k <;> simp [bytesOf, optBytes, List.filterMap_map, h]

@[simp] theorem bytesOf_repVarint (ns : List UInt64) : bytesOf k (repVarint number ns) = [] := by
  simp [bytesOf, repVarint, List.filterMap_map]

@[simp] theorem bytesOf_optVarint (n : Option UInt64) : bytesOf k (optVarint number n) = [] :=
  bytesOf_repVarint k number n.toList

@[simp] theorem getLast?_toList {α : Type*} (o : Option α) : o.toList.getLast? = o := by
  cases o <;> rfl

end Wire
