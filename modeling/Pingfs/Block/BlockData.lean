import Mathlib.Data.Nat.Bitwise
import Mathlib.Tactic.Common

/-!
# Blocks and the data they carry

The unit of storage is a `Block`: a 64-bit id and one of three kinds of data. A directory or file
inode and a link carry the ids of their children; a contents block carries bytes. An inode's
`Stat` carries its `Mode`, which the system calls exchange as the bit field `mode_t`.

Sources: `block.cc`, `block_data/*.cc`, and the headers beside them.

## Main results

* `Mode.perms_ofModeT` — the nine permission bits survive the trip into `Mode` and back
* `Mode.ofModeT_or_dir`, `Mode.ofModeT_of_regular` — the file type a `mode_t` is read as
* `Block.equal_iff` — `operator==` of blocks is equality
-/

namespace Pingfs

/-- `typedef uint64_t BlockId`. -/
abbrev BlockId := UInt64

/-- A `std::string` used as a name or a path, byte by byte. -/
abbrev Str := List UInt8

/-- A `std::string` or buffer used as raw contents. -/
abbrev Bytes := List UInt8

/-- `mode_t`. -/
abbrev ModeT := UInt32

/-! ## Permission and file-type bits -/

abbrev S_IRUSR : ModeT := 0o400
abbrev S_IWUSR : ModeT := 0o200
abbrev S_IXUSR : ModeT := 0o100
abbrev S_IRGRP : ModeT := 0o040
abbrev S_IWGRP : ModeT := 0o020
abbrev S_IXGRP : ModeT := 0o010
abbrev S_IROTH : ModeT := 0o004
abbrev S_IWOTH : ModeT := 0o002
abbrev S_IXOTH : ModeT := 0o001
abbrev S_IFDIR : ModeT := 0o040000
abbrev S_IFREG : ModeT := 0o100000
abbrev S_IFMT : ModeT := 0o170000

/-- `enum class FileType`. -/
inductive FileType where
  | dir
  | regular
  deriving DecidableEq, Repr

/-- `enum class ReadWriteExecute`. -/
inductive ReadWriteExecute where
  | none
  | read
  | readWrite
  | readExecute
  | readWriteExecute
  | write
  | writeExecute
  | execute
  deriving DecidableEq, Repr

/-- `FileTypeFactory::to_mode`. -/
def FileType.toMode : FileType → ModeT
  | .dir => S_IFDIR
  | .regular => S_IFREG

/-- `FileTypeFactory::from_mode_t`. The directory bit is looked at first, so a mode with both
bits is a directory; a mode with neither is thrown out. -/
def FileType.fromModeT (mode : ModeT) : Except String FileType :=
  if mode &&& S_IFDIR > 0 then .ok .dir
  else if mode &&& S_IFREG > 0 then .ok .regular
  else .error "Unknown mode"

/-- `bits_set`: every bit of `bitsToCheck` is set in `target`. -/
def bitsSet (target bitsToCheck : ModeT) : Bool := target &&& bitsToCheck == bitsToCheck

/-- The common body of `user_mode_from_mode_t`, `group_mode_from_mode_t` and
`other_mode_from_mode_t`, over the three bits of the class. -/
def rweFromModeT (r w x mode : ModeT) : ReadWriteExecute :=
  if bitsSet mode (r ||| w ||| x) then .readWriteExecute
  else if bitsSet mode (r ||| w) then .readWrite
  else if bitsSet mode (r ||| x) then .readExecute
  else if bitsSet mode r then .read
  else if bitsSet mode (w ||| x) then .writeExecute
  else if bitsSet mode w then .write
  else if bitsSet mode x then .execute
  else .none

def userModeFromModeT (mode : ModeT) : ReadWriteExecute := rweFromModeT S_IRUSR S_IWUSR S_IXUSR mode
def groupModeFromModeT (mode : ModeT) : ReadWriteExecute :=
  rweFromModeT S_IRGRP S_IWGRP S_IXGRP mode
def otherModeFromModeT (mode : ModeT) : ReadWriteExecute :=
  rweFromModeT S_IROTH S_IWOTH S_IXOTH mode

/-- The common body of `get_user_mode_t`, `get_group_mode_t` and `get_other_mode_t`. -/
def rweToModeT (r w x : ModeT) : ReadWriteExecute → ModeT
  | .none => 0
  | .read => r
  | .readWrite => r ||| w
  | .readExecute => r ||| x
  | .readWriteExecute => r ||| w ||| x
  | .write => w
  | .writeExecute => w ||| x
  | .execute => x

def getUserModeT (m : ReadWriteExecute) : ModeT := rweToModeT S_IRUSR S_IWUSR S_IXUSR m
def getGroupModeT (m : ReadWriteExecute) : ModeT := rweToModeT S_IRGRP S_IWGRP S_IXGRP m
def getOtherModeT (m : ReadWriteExecute) : ModeT := rweToModeT S_IROTH S_IWOTH S_IXOTH m

/-- `class Mode`. -/
structure Mode where
  userMode : ReadWriteExecute
  groupMode : ReadWriteExecute
  otherMode : ReadWriteExecute
  fileType : FileType
  deriving DecidableEq, Repr

namespace Mode

/-- `Mode::Mode(const mode_t)`. The exception of `FileTypeFactory::from_mode_t` passes through. -/
def ofModeT (mode : ModeT) : Except String Mode := do
  let fileType ← FileType.fromModeT mode
  return ⟨userModeFromModeT mode, groupModeFromModeT mode, otherModeFromModeT mode, fileType⟩

/-- `Mode::to_mode_t`. -/
def toModeT (m : Mode) : ModeT :=
  m.fileType.toMode ||| getUserModeT m.userMode ||| getGroupModeT m.groupMode |||
    getOtherModeT m.otherMode

/-- The permission bits of a mode, without its file type. -/
def perms (m : Mode) : ModeT :=
  getUserModeT m.userMode ||| getGroupModeT m.groupMode ||| getOtherModeT m.otherMode

theorem toModeT_eq (m : Mode) : m.toModeT = m.fileType.toMode ||| m.perms := by
  rw [toModeT, perms, UInt32.or_assoc, UInt32.or_assoc, UInt32.or_assoc]

/-- The nine permission bits of a `mode_t`. -/
abbrev permBits : ModeT := 0o777

end Mode

/-! ### The permission bits survive the round trip -/

/-- A single bit of a `mode_t` is set or clear. -/
theorem and_twoPow_eq (m : ModeT) (i : Fin 32) :
    ∃ set : Bool, m &&& UInt32.ofNat (2 ^ (i : ℕ)) = bif set then .ofNat (2 ^ (i : ℕ)) else 0 := by
  have hi : 2 ^ (i : ℕ) < 2 ^ 32 := Nat.pow_lt_pow_right (by decide) i.isLt
  have hbit : (m &&& UInt32.ofNat (2 ^ (i : ℕ))).toNat =
      (m.toNat.testBit i).toNat * 2 ^ (i : ℕ) := by
    rw [UInt32.toNat_and, UInt32.toNat_ofNat', Nat.mod_eq_of_lt hi, Nat.and_two_pow]
  refine ⟨m.toNat.testBit i, UInt32.toNat.inj ?_⟩
  rw [hbit]
  cases m.toNat.testBit i with
  | false => simp
  | true => simpa using (Nat.mod_eq_of_lt hi).symm

theorem modeT_and_or (m a b : ModeT) : m &&& (a ||| b) = (m &&& a) ||| (m &&& b) :=
  UInt32.toBitVec_inj.mp BitVec.and_or_distrib_left

/-- Only the three bits of its class decide what `rweFromModeT` reads. -/
theorem rweFromModeT_and (r w x m : ModeT) :
    rweFromModeT r w x (m &&& (r ||| w ||| x)) = rweFromModeT r w x m := by
  have habs : ∀ b, (r ||| w ||| x) &&& b = b → bitsSet (m &&& (r ||| w ||| x)) b = bitsSet m b := by
    intro b hb
    rw [bitsSet, bitsSet, UInt32.and_assoc, hb]
  have hmask : ∀ b : ModeT, (∀ i (_ : i < 32), b.toBitVec[i] → (r ||| w ||| x).toBitVec[i]) →
      (r ||| w ||| x) &&& b = b := by
    intro b hb
    apply UInt32.toBitVec_inj.mp
    ext i hi
    have := hb i hi
    simp only [UInt32.toBitVec_and, BitVec.getElem_and]
    grind
  simp only [rweFromModeT]
  rw [habs (r ||| w ||| x) (hmask _ fun i hi h => h), habs (r ||| w) (hmask _ (by simp; grind)),
    habs (r ||| x) (hmask _ (by simp; grind)), habs r (hmask _ (by simp; grind)),
    habs (w ||| x) (hmask _ (by simp; grind)), habs w (hmask _ (by simp; grind)),
    habs x (hmask _ (by simp; grind))]

/-- Reading one class of a `mode_t` and writing it back keeps its three bits. The hypothesis is
a check over the eight values the class can have. -/
theorem rweToModeT_rweFromModeT {r w x : Fin 32} (m : ModeT)
    (hclass : ∀ a b c : Bool,
      let bits : ModeT := (bif a then .ofNat (2 ^ (r : ℕ)) else 0) |||
        (bif b then .ofNat (2 ^ (w : ℕ)) else 0) ||| (bif c then .ofNat (2 ^ (x : ℕ)) else 0)
      rweToModeT (.ofNat (2 ^ (r : ℕ))) (.ofNat (2 ^ (w : ℕ))) (.ofNat (2 ^ (x : ℕ)))
        (rweFromModeT (.ofNat (2 ^ (r : ℕ))) (.ofNat (2 ^ (w : ℕ))) (.ofNat (2 ^ (x : ℕ))) bits) =
        bits) :
    rweToModeT (.ofNat (2 ^ (r : ℕ))) (.ofNat (2 ^ (w : ℕ))) (.ofNat (2 ^ (x : ℕ)))
        (rweFromModeT (.ofNat (2 ^ (r : ℕ))) (.ofNat (2 ^ (w : ℕ))) (.ofNat (2 ^ (x : ℕ))) m)
      = m &&& (.ofNat (2 ^ (r : ℕ)) ||| .ofNat (2 ^ (w : ℕ)) ||| .ofNat (2 ^ (x : ℕ))) := by
  rw [← rweFromModeT_and, modeT_and_or, modeT_and_or]
  obtain ⟨a, ha⟩ := and_twoPow_eq m r
  obtain ⟨b, hb⟩ := and_twoPow_eq m w
  obtain ⟨c, hc⟩ := and_twoPow_eq m x
  rw [ha, hb, hc]
  exact hclass a b c

theorem getUserModeT_userModeFromModeT (m : ModeT) :
    getUserModeT (userModeFromModeT m) = m &&& 0o700 :=
  rweToModeT_rweFromModeT (r := 8) (w := 7) (x := 6) m (by decide)

theorem getGroupModeT_groupModeFromModeT (m : ModeT) :
    getGroupModeT (groupModeFromModeT m) = m &&& 0o070 :=
  rweToModeT_rweFromModeT (r := 5) (w := 4) (x := 3) m (by decide)

theorem getOtherModeT_otherModeFromModeT (m : ModeT) :
    getOtherModeT (otherModeFromModeT m) = m &&& 0o007 :=
  rweToModeT_rweFromModeT (r := 2) (w := 1) (x := 0) m (by decide)

namespace Mode

/-- **The nine permission bits survive the round trip** through `Mode`. -/
theorem perms_ofModeT {mode : ModeT} {m : Mode} (h : ofModeT mode = .ok m) :
    m.perms = mode &&& permBits := by
  obtain ⟨fileType, hft, hm⟩ : ∃ fileType, FileType.fromModeT mode = .ok fileType ∧
      m = ⟨userModeFromModeT mode, groupModeFromModeT mode, otherModeFromModeT mode, fileType⟩ := by
    cases hft : FileType.fromModeT mode with
    | error e => simp [ofModeT, hft] at h
    | ok fileType => exact ⟨fileType, rfl, by simpa [ofModeT, hft] using h.symm⟩
  subst hm
  rw [perms, getUserModeT_userModeFromModeT, getGroupModeT_groupModeFromModeT,
    getOtherModeT_otherModeFromModeT, ← modeT_and_or, ← modeT_and_or]
  rfl

/-- A `mode_t` or-ed with the directory bit, as `mkdir` does, is always read, as a directory. -/
theorem ofModeT_or_dir (mode : ModeT) :
    ofModeT (mode ||| S_IFDIR) = .ok ⟨userModeFromModeT (mode ||| S_IFDIR),
      groupModeFromModeT (mode ||| S_IFDIR), otherModeFromModeT (mode ||| S_IFDIR), .dir⟩ := by
  have hbit : (mode ||| S_IFDIR) &&& S_IFDIR > 0 := by
    have habs : (mode ||| S_IFDIR) &&& S_IFDIR = S_IFDIR := by
      rw [UInt32.and_comm]
      apply UInt32.toBitVec_inj.mp
      ext i hi
      simp only [UInt32.toBitVec_and, UInt32.toBitVec_or, BitVec.getElem_and, BitVec.getElem_or]
      grind
    rw [habs]
    decide
  simp [ofModeT, FileType.fromModeT, hbit]

/-- A `mode_t` whose file-type bits are those of a regular file is read as one. -/
theorem ofModeT_of_regular {mode : ModeT} (h : mode &&& S_IFMT = S_IFREG) :
    ofModeT mode = .ok ⟨userModeFromModeT mode, groupModeFromModeT mode, otherModeFromModeT mode,
      .regular⟩ := by
  have hdir : mode &&& S_IFDIR = 0 := by
    have hmask : S_IFDIR = S_IFMT &&& S_IFDIR := by decide
    rw [hmask, ← UInt32.and_assoc, h]
    decide
  have hreg : mode &&& S_IFREG > 0 := by
    have hmask : S_IFREG = S_IFMT &&& S_IFREG := by decide
    rw [hmask, ← UInt32.and_assoc, h]
    decide
  simp [ofModeT, FileType.fromModeT, hdir, hreg]

end Mode

/-! ## Stat -/

/-- `struct stat`, the fields `Stat::update_stat` fills. -/
structure StatBuf where
  stIno : UInt64
  stDev : UInt64
  stMode : ModeT
  stUid : UInt32
  stGid : UInt32
  stSize : Int64
  stAtime : Int64
  stMtime : Int64
  stCtime : Int64
  stNlink : UInt64
  deriving DecidableEq, Repr

/-- `class Stat`. -/
structure Stat where
  mode : Mode
  uid : UInt32
  gid : UInt32
  size : UInt64
  accessTime : Int64
  modTime : Int64
  statusChangeTime : Int64
  deriving DecidableEq, Repr

namespace Stat

/-- `Stat::Stat(const Stat&, uint64_t, time_t, time_t, time_t)`: mode and owner of `stat`, the
rest new. -/
def update (stat : Stat) (size : UInt64) (accessTime modTime statusChangeTime : Int64) : Stat :=
  ⟨stat.mode, stat.uid, stat.gid, size, accessTime, modTime, statusChangeTime⟩

/-- `Stat::update_stat`. -/
def updateStat (stat : Stat) (dev ino : UInt64) : StatBuf where
  stIno := ino
  stDev := dev
  stMode := stat.mode.toModeT
  stUid := stat.uid
  stGid := stat.gid
  stSize := stat.size.toInt64
  stAtime := stat.accessTime
  stMtime := stat.modTime
  stCtime := stat.statusChangeTime
  stNlink := 1

/-- `Stat::is_dir`. -/
def isDir (stat : Stat) : Bool := stat.mode.fileType == .dir

end Stat

/-! ## Block data -/

/-- `class DirFileBlockData`: the inode of a file or of a directory. -/
structure DirFileBlockData where
  name : Str
  stat : Stat
  children : List BlockId
  deriving DecidableEq, Repr

/-- `DirFileBlockData::is_dir`. -/
def DirFileBlockData.isDir (d : DirFileBlockData) : Bool := d.stat.isDir

/-- `class LinkBlockData`. -/
structure LinkBlockData where
  children : List BlockId
  deriving DecidableEq, Repr

/-- `class FileContentsBlockData`. -/
structure FileContentsBlockData where
  data : Bytes
  deriving DecidableEq, Repr

/-- `class BlockData`, by its three subclasses. -/
inductive BlockData where
  | dirFile (data : DirFileBlockData)
  | link (data : LinkBlockData)
  | fileContents (data : FileContentsBlockData)
  deriving DecidableEq, Repr

/-- `class Block`. -/
structure Block where
  id : BlockId
  data : BlockData
  deriving DecidableEq, Repr

namespace Block

/-- `block_util::try_cast_dir_file`. -/
def tryCastDirFile (block : Block) : Option DirFileBlockData :=
  match block.data with
  | .dirFile data => some data
  | _ => none

/-- `block_util::try_cast_link`. -/
def tryCastLink (block : Block) : Option LinkBlockData :=
  match block.data with
  | .link data => some data
  | _ => none

/-- `block_util::try_cast_contents`. -/
def tryCastContents (block : Block) : Option FileContentsBlockData :=
  match block.data with
  | .fileContents data => some data
  | _ => none

/-- `block_util::get_children`; `none` is its `false`. -/
def getChildren (block : Block) : Option (List BlockId) :=
  match block.tryCastLink with
  | some linkData => some linkData.children
  | none =>
    match block.tryCastDirFile with
    | some dirFile => some dirFile.children
    | none => none

/-- The children a block has, none for a contents block. -/
def children (block : Block) : List BlockId := block.getChildren.getD []

end Block

/-! ## Comparison -/

/-- `Mode::operator==`. -/
def Mode.equal (m other : Mode) : Bool :=
  m.userMode == other.userMode && m.groupMode == other.groupMode &&
    m.otherMode == other.otherMode && m.fileType == other.fileType

/-- `Stat::operator==`. -/
def Stat.equal (stat other : Stat) : Bool :=
  stat.mode.equal other.mode && stat.uid == other.uid && stat.gid == other.gid &&
    stat.size == other.size && stat.accessTime == other.accessTime &&
    stat.modTime == other.modTime && stat.statusChangeTime == other.statusChangeTime

/-- `operator==` of the subclasses of `BlockData`. -/
def BlockData.equal : BlockData → BlockData → Bool
  | .dirFile d, .dirFile other =>
    d.name == other.name && d.children == other.children && d.stat.equal other.stat
  | .link d, .link other => d.children == other.children
  | .fileContents d, .fileContents other => d.data == other.data
  | _, _ => false

/-- `Block::operator==`. -/
def Block.equal (block other : Block) : Bool :=
  block.id == other.id && block.data.equal other.data

theorem Mode.equal_iff {m other : Mode} : m.equal other = true ↔ m = other := by
  cases m
  cases other
  simp [equal, and_assoc]

theorem Stat.equal_iff {stat other : Stat} : stat.equal other = true ↔ stat = other := by
  cases stat
  cases other
  simp [equal, Mode.equal_iff, and_assoc]

theorem BlockData.equal_iff {data other : BlockData} : data.equal other = true ↔ data = other := by
  cases data with
  | dirFile d =>
    cases other with
    | dirFile other =>
      cases d
      cases other
      simp [equal, Stat.equal_iff]
      tauto
    | link other => simp [equal]
    | fileContents other => simp [equal]
  | link d =>
    cases other with
    | dirFile other => simp [equal]
    | link other => cases d; cases other; simp [equal]
    | fileContents other => simp [equal]
  | fileContents d =>
    cases other with
    | dirFile other => simp [equal]
    | link other => simp [equal]
    | fileContents other => cases d; cases other; simp [equal]

/-- The comparison of blocks is equality. -/
theorem Block.equal_iff {block other : Block} : block.equal other = true ↔ block = other := by
  cases block
  cases other
  simp [equal, BlockData.equal_iff]

end Pingfs
