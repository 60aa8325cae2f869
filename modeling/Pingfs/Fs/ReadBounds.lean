import Pingfs.Fs.ByteStrings

/-!
# How much a read copies

`read` is given a size without a sign and an offset with one. It compares their sum with the length
of the contents, and the sum is taken modulo `2^64`: where it wraps around it is small again, and
the whole size is handed to `memcpy`.

Source: `BlockFuse::read` of `block_fuse.cc`, `read_file_contents` of `block_util.cc`.

## Main results

* `copiesWithin_iff` — no more is copied than there is, unless the sum wraps around
-/

namespace Pingfs

namespace BlockFuse

open FsM BlockUtil

variable {fuel : ℕ} {k : Bool} {s s' : BlockFuse} {path : Str} {contents : Bytes} {size : UInt64}
  {offset : Int64}

/-- The third argument of `memcpy`, and `0` where `read` does not get there. -/
def memcpySize (contents : Bytes) (size : UInt64) (offset : Int64) : ℕ :=
  if offset.toUInt64.toNat > contents.length then 0
  else if (offset.toUInt64 + size).toNat ≤ contents.length then size.toNat
  else (UInt64.ofNat contents.length - offset.toUInt64).toNat

/-- What there is to copy: nothing before the contents and past them, else `size` bytes or what is
left. -/
def bytesWithin (length : ℕ) (size : UInt64) (offset : Int64) : ℕ :=
  if offset.toInt < 0 ∨ length < offset.toInt then 0
  else min size.toNat (length - offset.toInt.toNat)

/-- At `path` there is a file, for which `read_file_contents` gives `contents`. -/
def ReadsContents (fuel : ℕ) (k : Bool) (s : BlockFuse) (path : Str) (contents : Bytes)
    (s' : BlockFuse) : Prop :=
  ∃ blocks file dirFile s₁, (getPath fuel path).run (handler k) s = .returned blocks s₁ ∧
    blocks.getLast? = some file ∧ file.tryCastDirFile = some dirFile ∧ dirFile.isDir = false ∧
    (readFileContents fuel dirFile).run (handler k) s₁ = .returned contents s'

/-- `read` copies what there is, and nothing else. -/
structure CopiesWithin (fuel : ℕ) (k : Bool) (s : BlockFuse) (path : Str) (size : UInt64)
    (offset : Int64) (contents : Bytes) (s' : BlockFuse) : Prop where
  count : memcpySize contents size offset = bytesWithin contents.length size offset
  inside : 0 < memcpySize contents size offset →
    0 ≤ offset.toInt ∧ offset.toInt + memcpySize contents size offset ≤ contents.length
  le_size : memcpySize contents size offset ≤ size.toNat
  returns : (read fuel path size offset).run (handler k) s =
    .returned (.ofNat (memcpySize contents size offset),
      (contents.drop offset.toInt.toNat).take (memcpySize contents size offset)) s'

/-! ## The arithmetic -/

/-- An offset without its sign: below zero it is past every string. -/
theorem toNat_toUInt64 (offset : Int64) : (offset.toUInt64.toNat : ℤ) =
    if offset.toInt < 0 then offset.toInt + 2 ^ 64 else offset.toInt := by
  have hcond := BitVec.toInt_eq_toNat_cond offset.toBitVec
  rw [Int64.toInt_toBitVec, Int64.toNat_toBitVec] at hcond
  have hlt := offset.toUInt64.toNat_lt
  split at hcond <;> split <;> omega

theorem memcpySize_of_past (hlength : contents.length < 2 ^ 63)
    (hpast : offset.toInt < 0 ∨ contents.length < offset.toInt) :
    memcpySize contents size offset = 0 := by
  refine if_pos ?_
  have hoffset := toNat_toUInt64 offset
  have hbound := offset.le_toInt
  split at hoffset <;> omega

/-- The sum does not wrap around. -/
theorem memcpySize_of_sum (hlength : contents.length < 2 ^ 63) (hfrom : 0 ≤ offset.toInt)
    (hwithin : offset.toInt ≤ contents.length) (hsum : offset.toInt + size.toNat < 2 ^ 64) :
    memcpySize contents size offset =
      min size.toNat (contents.length - offset.toInt.toNat) := by
  have hoffset := toNat_toUInt64 offset
  rw [if_neg (not_lt.mpr hfrom)] at hoffset
  have hadd : (offset.toUInt64 + size).toNat = offset.toUInt64.toNat + size.toNat := by
    rw [UInt64.toNat_add, Nat.mod_eq_of_lt (by omega)]
  have hofNat : (UInt64.ofNat contents.length).toNat = contents.length :=
    UInt64.toNat_ofNat_of_lt' (hlength.trans (by decide))
  have hrest : (UInt64.ofNat contents.length - offset.toUInt64).toNat =
      contents.length - offset.toUInt64.toNat := by
    rw [UInt64.toNat_sub_of_le _ _ (by rw [UInt64.le_iff_toNat_le, hofNat]; omega), hofNat]
  rw [memcpySize, if_neg (by omega), hadd, hrest]
  split <;> omega

/-- The sum wraps around, to less than the offset. -/
theorem memcpySize_of_wraps (hlength : contents.length < 2 ^ 63)
    (hwithin : offset.toInt ≤ contents.length) (hwraps : 2 ^ 64 ≤ offset.toInt + size.toNat) :
    memcpySize contents size offset = size.toNat := by
  have hoffset := toNat_toUInt64 offset
  have hsize := size.toNat_lt
  rw [if_neg (by omega)] at hoffset
  have hadd : (offset.toUInt64 + size).toNat = offset.toUInt64.toNat + size.toNat - 2 ^ 64 := by
    rw [UInt64.toNat_add, Nat.mod_eq_sub_mod (by omega), Nat.mod_eq_of_lt (by omega)]
  rw [memcpySize, if_neg (by omega), hadd, if_pos (by omega)]

/-- The right number of bytes is handed to `memcpy` unless the sum wraps around. -/
theorem memcpySize_eq_iff (hlength : contents.length < 2 ^ 63) :
    memcpySize contents size offset = bytesWithin contents.length size offset ↔
      (offset.toInt ≤ contents.length → offset.toInt + size.toNat < 2 ^ 64) := by
  have hsize := size.toNat_lt
  by_cases hpast : offset.toInt < 0 ∨ contents.length < offset.toInt
  · rw [memcpySize_of_past hlength hpast, bytesWithin, if_pos hpast]
    exact iff_of_true rfl fun hwithin => by omega
  · obtain ⟨hfrom, hwithin⟩ := not_or.mp hpast
    rw [bytesWithin, if_neg hpast]
    constructor
    · intro hcount _
      by_contra hwraps
      rw [memcpySize_of_wraps hlength (by omega) (by omega)] at hcount
      omega
    · intro hsum
      exact memcpySize_of_sum hlength (by omega) (by omega) (hsum (by omega))

/-! ## The copy -/

/-- `copyContents` in terms of the size. -/
theorem copyContents_eq_memcpySize (contents : Bytes) (size : UInt64) (offset : Int64) :
    copyContents contents size offset =
      if memcpySize contents size offset ≤ contents.length - offset.toUInt64.toNat then
        .ok (.ofNat (memcpySize contents size offset),
          (contents.drop offset.toUInt64.toNat).take (memcpySize contents size offset))
      else .error .outOfBounds := by
  rw [copyContents, memcpySize]
  dsimp only
  split
  · rw [if_pos (Nat.zero_le _), List.take_zero]
    rfl
  · case isFalse hpast =>
    have hinside : ∀ n, offset.toUInt64.toNat + n ≤ contents.length ↔
        n ≤ contents.length - offset.toUInt64.toNat := fun n => by omega
    simp only [hinside]
    split <;> rfl

/-- `read` ends with the copy. -/
theorem ReadsContents.run_read (h : ReadsContents fuel k s path contents s') (size : UInt64)
    (offset : Int64) : (read fuel path size offset).run (handler k) s =
      .of (copyContents contents size offset) s' := by
  obtain ⟨blocks, file, dirFile, s₁, hpath, hlast, hinode, hfile, hcontents⟩ := h
  rw [read, Program.run_bind, hpath, Outcome.bind_returned, hlast]
  simp only [hinode, hfile, Bool.false_eq_true, if_false]
  rw [Program.run_bind, hcontents, Outcome.bind_returned]
  cases copyContents contents size offset <;> rfl

/-- **No more is copied than there is**, in whatever state and for whatever file, if and only if the
offset lies past the contents or its sum with the size does not wrap around. No string is as long
as `2^63`. -/
theorem copiesWithin_iff (h : ReadsContents fuel k s path contents s')
    (hlength : contents.length < 2 ^ 63) (size : UInt64) (offset : Int64) :
    CopiesWithin fuel k s path size offset contents s' ↔
      (offset.toInt ≤ contents.length → offset.toInt + size.toNat < 2 ^ 64) := by
  constructor
  · intro hcopies
    exact (memcpySize_eq_iff hlength).mp hcopies.count
  · intro hsum
    have hcount : memcpySize contents size offset = bytesWithin contents.length size offset :=
      (memcpySize_eq_iff hlength).mpr hsum
    have hoffset := toNat_toUInt64 offset
    have hrun := h.run_read size offset
    rw [copyContents_eq_memcpySize] at hrun
    by_cases hpast : offset.toInt < 0 ∨ contents.length < offset.toInt
    · have hzero : bytesWithin contents.length size offset = 0 := if_pos hpast
      rw [hcount, hzero, if_pos (Nat.zero_le _), List.take_zero] at hrun
      refine ⟨hcount, fun hpos => absurd hpos ?_, ?_, ?_⟩
      · omega
      · omega
      · rw [hcount, hzero, List.take_zero]
        exact hrun
    · have hmin : bytesWithin contents.length size offset =
          min size.toNat (contents.length - offset.toInt.toNat) := if_neg hpast
      obtain ⟨hfrom, hwithin⟩ := not_or.mp hpast
      rw [if_neg hfrom] at hoffset
      have hsame : offset.toUInt64.toNat = offset.toInt.toNat := by omega
      rw [hsame, if_pos (by omega)] at hrun
      refine ⟨hcount, fun hpos => ⟨by omega, ?_⟩, ?_, hrun⟩
      · rw [hcount, hmin]
        omega
      · rw [hcount, hmin]
        exact Nat.min_le_left _ _

/-- A file of three bytes. -/
def threeBytes : BlockFuse :=
  ([(0, .create (below 0x61) 0o100644), (1, .write (below 0x61) [1, 2, 3] 0)] :
    List (Int64 × Call)).foldl (step plainEnv false) (new plainEnv 0)

theorem readsContents_threeBytes :
    ReadsContents threeBytes.fuel false threeBytes (below 0x61) [1, 2, 3] threeBytes :=
  ⟨_, _, _, _, rfl, rfl, rfl, rfl, rfl⟩

/-- A read across the end. -/
theorem copiesWithin_threeBytes :
    CopiesWithin threeBytes.fuel false threeBytes (below 0x61) 100 1 [1, 2, 3] threeBytes :=
  (copiesWithin_iff readsContents_threeBytes (by decide) 100 1).mpr fun _ => by decide

/-- From the second byte on, `2^64 - 1` bytes are copied. -/
theorem copies_beyond :
    ReadsContents threeBytes.fuel false threeBytes (below 0x61) [1, 2, 3] threeBytes ∧
    memcpySize [1, 2, 3] (.ofNat (2 ^ 64 - 1)) 1 = 2 ^ 64 - 1 ∧
    (exec plainEnv false threeBytes (2, .read (below 0x61) (.ofNat (2 ^ 64 - 1)) 1)).result =
      .error .outOfBounds ∧
    ¬ CopiesWithin threeBytes.fuel false threeBytes (below 0x61) (.ofNat (2 ^ 64 - 1)) 1 [1, 2, 3]
      threeBytes := by
  refine ⟨readsContents_threeBytes, by decide, by decide +kernel, fun hcopies => ?_⟩
  exact absurd hcopies.count (by decide)

end BlockFuse

end Pingfs
