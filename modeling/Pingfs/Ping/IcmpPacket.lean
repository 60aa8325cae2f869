import Pingfs.Lib.InternetChecksum
import Pingfs.Ping.PingBlockService

/-!
# Echo requests as bytes

`operator<<` writes an `EchoRequest` with the checksum its constructor computed. The checksum is
summed up in 32 bits, and the upper half is added to the lower half once; where that carries
again, the carry is lost.

The host is taken to be little-endian; on a big-endian one `htons` and `ntohs` do nothing, and
the bytes written are the same.

Source: `echo_request.cc`.

## Main results

* `EchoRequest.checksum_correct_iff` — the packets whose checksum is right
-/

namespace Pingfs

open InternetChecksum

/-! ## Bytes in network order -/

/-- `ntohs`: the two bytes change places. -/
def ntohs (s : UInt16) : UInt16 := (s <<< 8) ||| (s >>> 8)

/-- `htons`. -/
def htons (s : UInt16) : UInt16 := (s <<< 8) ||| (s >>> 8)

/-- `put_short`. -/
def putShort (s : UInt16) : Bytes := [(s >>> 8).toUInt8, (s &&& 0x00FF).toUInt8]

theorem toNat_ntohs (s : UInt16) : (ntohs s).toNat = s.toNat % 2 ^ 8 * 2 ^ 8 + s.toNat / 2 ^ 8 := by
  have hs := s.toNat_lt
  have hhigh : s.toNat / 2 ^ 8 < 2 ^ 8 := by omega
  have hlow : s.toNat <<< 8 % 2 ^ 16 = (s.toNat % 2 ^ 8) <<< 8 := by
    rw [Nat.shiftLeft_eq, Nat.shiftLeft_eq]
    omega
  rw [ntohs, UInt16.toNat_or, UInt16.toNat_shiftLeft, UInt16.toNat_shiftRight]
  show s.toNat <<< 8 % 2 ^ 16 ||| s.toNat >>> 8 = _
  rw [hlow, Nat.shiftRight_eq_div_pow, ← Nat.shiftLeft_add_eq_or_of_lt hhigh, Nat.shiftLeft_eq]

@[simp] theorem htons_ntohs (s : UInt16) : htons (ntohs s) = s := by
  apply UInt16.toNat.inj
  have hs := s.toNat_lt
  have hin := toNat_ntohs s
  have hout := toNat_ntohs (ntohs s)
  show (ntohs (ntohs s)).toNat = s.toNat
  omega

theorem toNat_high (s : UInt16) : (s >>> 8).toUInt8.toNat = s.toNat / 2 ^ 8 := by
  have hs := s.toNat_lt
  rw [UInt16.toNat_toUInt8, UInt16.toNat_shiftRight]
  show s.toNat >>> 8 % 2 ^ 8 = _
  rw [Nat.shiftRight_eq_div_pow]
  omega

theorem toNat_low (s : UInt16) : (s &&& 0x00FF).toUInt8.toNat = s.toNat % 2 ^ 8 := by
  rw [UInt16.toNat_toUInt8, UInt16.toNat_and]
  show (s.toNat &&& (2 ^ 8 - 1)) % 2 ^ 8 = _
  rw [Nat.and_two_pow_sub_one_eq_mod, Nat.mod_mod]

/-- What `put_short` writes is a word of the packet. -/
@[simp] theorem words_putShort (s : UInt16) (bytes : Bytes) :
    words (putShort s ++ bytes) = s.toNat :: words bytes := by
  have hs := s.toNat_lt
  rw [putShort, List.cons_append, List.cons_append, List.nil_append, words_cons_cons, toNat_high,
    toNat_low]
  congr 1
  omega

namespace EchoRequest

def TYPE : UInt8 := 8

def CODE : UInt8 := 0

/-- The loop of `checksum`, from the index `i` on. -/
def addBody (sum : UInt32) (i : ℕ) : Bytes → UInt32
  | [] => sum
  | val :: body =>
    addBody (sum + if i % 2 = 0 then val.toUInt32 <<< 8 else val.toUInt32) (i + 1) body

/-- `EchoRequest::checksum`. -/
def checksum (identifier sequenceNumber : UInt16) (body : Bytes) : UInt16 :=
  let sum := (TYPE.toUInt32 <<< 8) + CODE.toUInt32 + identifier.toUInt32 + sequenceNumber.toUInt32
  let sum := addBody sum 0 body
  let sum := sum + (sum >>> 16)
  ntohs (~~~sum).toUInt16

/-- `operator<<`. -/
def serialize (request : EchoRequest) : Bytes :=
  [TYPE, CODE] ++
    putShort (htons (checksum request.identifier request.sequenceNumber request.body)) ++
    putShort request.identifier ++ putShort request.sequenceNumber ++ request.body

/-! ## What the checksum is -/

theorem toNat_shiftLeft_val (val : UInt8) : (val.toUInt32 <<< 8).toNat = val.toNat * 2 ^ 8 := by
  have hval := val.toNat_lt
  rw [UInt32.toNat_shiftLeft, UInt8.toNat_toUInt32]
  show val.toNat <<< 8 % 2 ^ 32 = _
  rw [Nat.shiftLeft_eq]
  omega

/-- The loop adds up the words of the body, if 32 bits are enough for them. -/
theorem toNat_addBody {sum : UInt32} {i : ℕ} (hi : i % 2 = 0) {body : Bytes}
    (hsum : sum.toNat + (words body).sum < 2 ^ 32) :
    (addBody sum i body).toNat = sum.toNat + (words body).sum := by
  induction body using words.induct generalizing sum i with
  | case1 => rfl
  | case2 val =>
    have hval := toNat_shiftLeft_val val
    simp only [words, List.sum_cons, List.sum_nil] at hsum ⊢
    rw [addBody, addBody, if_pos hi, UInt32.toNat_add, hval]
    omega
  | case3 val val' body ih =>
    have hval := toNat_shiftLeft_val val
    have hval' : val'.toUInt32.toNat = val'.toNat := UInt8.toNat_toUInt32 val'
    have hnext : (sum + val.toUInt32 <<< 8 + val'.toUInt32).toNat =
        sum.toNat + (val.toNat * 2 ^ 8 + val'.toNat) := by
      simp only [words_cons_cons, List.sum_cons] at hsum
      rw [UInt32.toNat_add, UInt32.toNat_add, hval, hval']
      omega
    simp only [words_cons_cons, List.sum_cons] at hsum ⊢
    rw [addBody, addBody, if_pos hi, if_neg (by omega), ih (by omega) (by omega), hnext]
    omega

/-- The plain sum of the words of a packet, its checksum field aside. -/
def wordSum (identifier sequenceNumber : UInt16) (body : Bytes) : ℕ :=
  (words ([TYPE, CODE] ++ putShort 0 ++ putShort identifier ++ putShort sequenceNumber ++ body)).sum

theorem wordSum_eq (identifier sequenceNumber : UInt16) (body : Bytes) :
    wordSum identifier sequenceNumber body =
      2 ^ 11 + identifier.toNat + sequenceNumber.toNat + (words body).sum := by
  simp only [wordSum, List.append_assoc, List.cons_append, List.nil_append, words_cons_cons,
    words_putShort, List.sum_cons]
  show 8 * 2 ^ 8 + 0 + (0 + _) = _
  omega

/-- The checksum is the complement of the sum, with the upper half added to the lower one. -/
theorem toNat_htons_checksum {identifier sequenceNumber : UInt16} {body : Bytes}
    (hbody : body.length ≤ 65507) :
    (htons (checksum identifier sequenceNumber body)).toNat = 65535 -
      (wordSum identifier sequenceNumber body + wordSum identifier sequenceNumber body / 65536) %
        65536 := by
  have hwords := sum_words_le body
  have hidentifier := identifier.toNat_lt
  have hsequence := sequenceNumber.toNat_lt
  have heq := wordSum_eq identifier sequenceNumber body
  have hhead : ((TYPE.toUInt32 <<< 8) + CODE.toUInt32 + identifier.toUInt32 +
      sequenceNumber.toUInt32).toNat = 2 ^ 11 + identifier.toNat + sequenceNumber.toNat := by
    simp only [UInt32.toNat_add, UInt16.toNat_toUInt32, toNat_shiftLeft_val]
    show (((8 * 2 ^ 8 + 0) % 2 ^ 32 + _) % 2 ^ 32 + _) % 2 ^ 32 = _
    omega
  rw [checksum, htons_ntohs]
  generalize (TYPE.toUInt32 <<< 8) + CODE.toUInt32 + identifier.toUInt32 +
    sequenceNumber.toUInt32 = head at hhead ⊢
  have hsum : (addBody head 0 body).toNat = wordSum identifier sequenceNumber body := by
    rw [heq, ← hhead]
    exact toNat_addBody rfl (by omega)
  generalize addBody head 0 body = sum at hsum ⊢
  have hfold : (sum + sum >>> 16).toNat = sum.toNat + sum.toNat / 65536 := by
    rw [UInt32.toNat_add, UInt32.toNat_shiftRight]
    show (sum.toNat + sum.toNat >>> 16) % 2 ^ 32 = _
    rw [Nat.shiftRight_eq_div_pow]
    omega
  show (~~~(sum + sum >>> 16)).toUInt16.toNat = _
  rw [UInt32.toNat_toUInt16, UInt32.toNat_not, hfold, hsum]
  show (2 ^ 32 - 1 - _) % 2 ^ 16 = _
  omega

/-- The complement of a sum folded once makes it a multiple of `0xFFFF` if that fold did not
carry. -/
theorem multiple_iff_of_folded {sum c : ℕ} (hpos : 0 < sum) (hlt : sum < 2 ^ 32)
    (hc : c + (sum + sum / 65536) % 65536 = 65535) :
    sum + c ≠ 0 ∧ (sum + c) % 65535 = 0 ↔ sum % 65536 + sum / 65536 < 65536 := by
  constructor
  · rintro ⟨-, hmultiple⟩
    -- a lost carry leaves the sum one above a multiple
    by_contra hcarry
    have hsum : sum + c = 65535 * (sum / 65536 + 2) + 1 := by omega
    omega
  · intro hfolded
    have hsum : sum + c = 65535 * (sum / 65536 + 1) := by omega
    omega

/-- **The packets whose checksum is right** are those whose sum needs its carries folded in only
once. -/
theorem checksum_correct_iff (identifier sequenceNumber : UInt16) (body : Bytes)
    (hbody : body.length ≤ 65507) :
    onesSum (serialize ⟨identifier, sequenceNumber, body⟩) = 0xFFFF ↔
      wordSum identifier sequenceNumber body % 65536 +
        wordSum identifier sequenceNumber body / 65536 < 65536 := by
  have hwords := sum_words_le body
  have hidentifier := identifier.toNat_lt
  have hsequence := sequenceNumber.toNat_lt
  have heq := wordSum_eq identifier sequenceNumber body
  have hall : (words (serialize ⟨identifier, sequenceNumber, body⟩)).sum =
      wordSum identifier sequenceNumber body +
        (htons (checksum identifier sequenceNumber body)).toNat := by
    rw [heq]
    simp only [serialize, List.append_assoc, List.cons_append, List.nil_append, words_cons_cons,
      words_putShort, List.sum_cons]
    show 8 * 2 ^ 8 + 0 + _ = _
    omega
  rw [onesSum_eq_iff, hall]
  exact multiple_iff_of_folded (by omega) (by omega) (by rw [toNat_htons_checksum hbody]; omega)

/-- An empty body. -/
theorem checksum_correct_iff_empty :
    onesSum (serialize ⟨35, 88, []⟩) = 0xFFFF ↔
      wordSum 35 88 [] % 65536 + wordSum 35 88 [] / 65536 < 65536 :=
  checksum_correct_iff 35 88 [] (by decide)

/-- **A wrong checksum**: these words sum to `1`. -/
theorem checksum_wrong : onesSum (serialize ⟨0xFFFF, 0xF800, []⟩) ≠ 0xFFFF := by decide

end EchoRequest

end Pingfs
