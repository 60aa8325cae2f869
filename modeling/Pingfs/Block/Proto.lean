import Pingfs.Block.BlockData

/-!
# Blocks as protocol-buffer messages

`gen_proto` turns a block into a `BlockProto` message and the constructor `Block(BlockProto)`
turns a message back into a block. Every field of a message is optional: a getter of an unset
field returns the default of its type, which for an enum is the value declared first. The
conversion back throws on an enum value it does not know and on a message with no data.

The library that writes messages as bytes and parses them is not part of the repository; it is
a `Protobuf`, and what is relied on of it is `Protobuf.Sound`.

Sources: `block_data.proto`, `block.cc`, `block_data_factory.cc`, `gen_proto` and the proto
constructors of `block_data/*.cc`, `file_type.hpp`, `read_write_execute.hpp`.

## Main results

* `Block.ofProto_genProto` — a block is read back from the message it generates
* `Block.exists_ofProto_iff` — which messages a block is made of
-/

namespace Pingfs

/-! ## Messages -/

/-- `enum FileTypeProto`. -/
inductive FileTypeProto where
  | fileTypeProtoUnknown
  | dir
  | regular
  deriving DecidableEq, Repr, Inhabited

/-- `enum ReadWriteExecuteProto`. -/
inductive ReadWriteExecuteProto where
  | readWriteExecuteProtoUnknown
  | none
  | read
  | readWrite
  | readExecute
  | readWriteExecute
  | write
  | writeExecute
  | execute
  deriving DecidableEq, Repr, Inhabited

structure ModeProto where
  userMode : Option ReadWriteExecuteProto := none
  groupMode : Option ReadWriteExecuteProto := none
  otherMode : Option ReadWriteExecuteProto := none
  fileType : Option FileTypeProto := none
  deriving DecidableEq, Repr, Inhabited

structure StatProto where
  mode : Option ModeProto := none
  uid : Option UInt32 := none
  gid : Option UInt32 := none
  size : Option UInt64 := none
  accessTime : Option Int64 := none
  modTime : Option Int64 := none
  statusChangeTime : Option Int64 := none
  deriving DecidableEq, Repr, Inhabited

structure DirFileProto where
  name : Option Str := none
  stat : Option StatProto := none
  children : List UInt64 := []
  deriving DecidableEq, Repr, Inhabited

structure LinkProto where
  children : List UInt64 := []
  deriving DecidableEq, Repr, Inhabited

structure FileContentsProto where
  data : Option Bytes := none
  deriving DecidableEq, Repr, Inhabited

/-- `message BlockDataProto`, whose only field is a `oneof`. -/
inductive BlockDataProto where
  | unset
  | dirFile (proto : DirFileProto)
  | link (proto : LinkProto)
  | fileContents (proto : FileContentsProto)
  deriving DecidableEq, Repr, Inhabited

structure BlockProto where
  id : Option UInt64 := none
  data : Option BlockDataProto := none
  deriving DecidableEq, Repr, Inhabited

/-! ## From blocks to messages -/

/-- `FileTypeFactory::gen_proto`. -/
def FileType.genProto : FileType → FileTypeProto
  | .dir => .dir
  | .regular => .regular

/-- `ReadWriteExecuteFactory::gen_proto`. -/
def ReadWriteExecute.genProto : ReadWriteExecute → ReadWriteExecuteProto
  | .none => .none
  | .read => .read
  | .readWrite => .readWrite
  | .readExecute => .readExecute
  | .readWriteExecute => .readWriteExecute
  | .write => .write
  | .writeExecute => .writeExecute
  | .execute => .execute

/-- `Mode::gen_proto`. -/
def Mode.genProto (m : Mode) : ModeProto where
  userMode := some m.userMode.genProto
  groupMode := some m.groupMode.genProto
  otherMode := some m.otherMode.genProto
  fileType := some m.fileType.genProto

/-- `Stat::gen_proto`. -/
def Stat.genProto (stat : Stat) : StatProto where
  mode := some stat.mode.genProto
  uid := some stat.uid
  gid := some stat.gid
  size := some stat.size
  accessTime := some stat.accessTime
  modTime := some stat.modTime
  statusChangeTime := some stat.statusChangeTime

/-- `DirFileBlockData::gen_proto`. -/
def DirFileBlockData.genProto (d : DirFileBlockData) : DirFileProto where
  name := some d.name
  stat := some d.stat.genProto
  children := d.children

/-- `LinkBlockData::gen_proto`. -/
def LinkBlockData.genProto (d : LinkBlockData) : LinkProto where
  children := d.children

/-- `FileContentsBlockData::gen_proto`. -/
def FileContentsBlockData.genProto (d : FileContentsBlockData) : FileContentsProto where
  data := some d.data

/-- `BlockData::gen_block_data_proto`. -/
def BlockData.genBlockDataProto : BlockData → BlockDataProto
  | .dirFile data => .dirFile data.genProto
  | .link data => .link data.genProto
  | .fileContents data => .fileContents data.genProto

/-- `Block::gen_proto`. -/
def Block.genProto (block : Block) : BlockProto where
  id := some block.id
  data := some block.data.genBlockDataProto

/-! ## From messages to blocks -/

/-- `FileTypeFactory::from_proto`. -/
def FileType.fromProto : FileTypeProto → Except String FileType
  | .dir => .ok .dir
  | .regular => .ok .regular
  | .fileTypeProtoUnknown => .error "Unknown proto"

/-- `ReadWriteExecuteFactory::from_proto`. -/
def ReadWriteExecute.fromProto : ReadWriteExecuteProto → Except String ReadWriteExecute
  | .none => .ok .none
  | .read => .ok .read
  | .readWrite => .ok .readWrite
  | .readExecute => .ok .readExecute
  | .readWriteExecute => .ok .readWriteExecute
  | .write => .ok .write
  | .writeExecute => .ok .writeExecute
  | .execute => .ok .execute
  | .readWriteExecuteProtoUnknown => .error "Unknown proto"

/-- `Mode::Mode(const proto::ModeProto&)`. -/
def Mode.ofProto (proto : ModeProto) : Except String Mode := do
  let userMode ← ReadWriteExecute.fromProto (proto.userMode.getD default)
  let groupMode ← ReadWriteExecute.fromProto (proto.groupMode.getD default)
  let otherMode ← ReadWriteExecute.fromProto (proto.otherMode.getD default)
  let fileType ← FileType.fromProto (proto.fileType.getD default)
  return ⟨userMode, groupMode, otherMode, fileType⟩

/-- `Stat::Stat(const proto::StatProto&)`. -/
def Stat.ofProto (proto : StatProto) : Except String Stat := do
  let mode ← Mode.ofProto (proto.mode.getD default)
  return ⟨mode, proto.uid.getD 0, proto.gid.getD 0, proto.size.getD 0, proto.accessTime.getD 0,
    proto.modTime.getD 0, proto.statusChangeTime.getD 0⟩

/-- `DirFileBlockData::DirFileBlockData(const proto::DirFileProto&)`. -/
def DirFileBlockData.ofProto (proto : DirFileProto) : Except String DirFileBlockData := do
  let stat ← Stat.ofProto (proto.stat.getD default)
  return ⟨proto.name.getD [], stat, proto.children⟩

/-- `LinkBlockData::LinkBlockData(const proto::LinkProto&)`. -/
def LinkBlockData.ofProto (proto : LinkProto) : LinkBlockData := ⟨proto.children⟩

/-- `FileContentsBlockData::FileContentsBlockData(const proto::FileContentsProto&)`. -/
def FileContentsBlockData.ofProto (proto : FileContentsProto) : FileContentsBlockData :=
  ⟨proto.data.getD []⟩

/-- `BlockDataFactory::generate`. -/
def BlockDataFactory.generate : BlockDataProto → Except String BlockData
  | .dirFile proto => return .dirFile (← DirFileBlockData.ofProto proto)
  | .fileContents proto => return .fileContents (.ofProto proto)
  | .link proto => return .link (.ofProto proto)
  | .unset => .error "Unknown protocol buffer to deserialize"

/-- `Block::Block(const proto::BlockProto&)`. -/
def Block.ofProto (proto : BlockProto) : Except String Block := do
  let data ← BlockDataFactory.generate (proto.data.getD default)
  return ⟨proto.id.getD 0, data⟩

/-! ## The round trip -/

@[simp] theorem FileType.fromProto_genProto (t : FileType) : fromProto t.genProto = .ok t := by
  cases t <;> rfl

@[simp] theorem ReadWriteExecute.fromProto_genProto (m : ReadWriteExecute) :
    fromProto m.genProto = .ok m := by
  cases m <;> rfl

@[simp] theorem Mode.ofProto_genProto (m : Mode) : ofProto m.genProto = .ok m := by
  simp [ofProto, genProto, pure, bind, Except.pure, Except.bind]

@[simp] theorem Stat.ofProto_genProto (stat : Stat) : ofProto stat.genProto = .ok stat := by
  simp [ofProto, genProto, pure, bind, Except.pure, Except.bind]

@[simp] theorem DirFileBlockData.ofProto_genProto (d : DirFileBlockData) :
    ofProto d.genProto = .ok d := by
  simp [ofProto, genProto, pure, bind, Except.pure, Except.bind]

@[simp] theorem BlockDataFactory.generate_genBlockDataProto (data : BlockData) :
    generate data.genBlockDataProto = .ok data := by
  cases data with
  | dirFile data =>
    simp [BlockData.genBlockDataProto, generate, pure, bind, Except.pure, Except.bind]
  | link data => rfl
  | fileContents data => rfl

/-- **A block is read back from the message it generates.** -/
@[simp] theorem Block.ofProto_genProto (block : Block) : ofProto block.genProto = .ok block := by
  simp [ofProto, genProto, pure, bind, Except.pure, Except.bind]

/-! ## Complete messages -/

/-- All four fields are set, and to values that are known. -/
structure ModeProto.Complete (proto : ModeProto) : Prop where
  userMode : ∃ m ≠ .readWriteExecuteProtoUnknown, proto.userMode = some m
  groupMode : ∃ m ≠ .readWriteExecuteProtoUnknown, proto.groupMode = some m
  otherMode : ∃ m ≠ .readWriteExecuteProtoUnknown, proto.otherMode = some m
  fileType : ∃ t ≠ .fileTypeProtoUnknown, proto.fileType = some t

/-- One of the variants is set; an inode has a complete mode. -/
inductive BlockDataProto.Complete : BlockDataProto → Prop
  | dirFile {proto : DirFileProto} {stat : StatProto} {mode : ModeProto}
      (hstat : proto.stat = some stat) (hmode : stat.mode = some mode) (h : mode.Complete) :
      Complete (.dirFile proto)
  | link (proto : LinkProto) : Complete (.link proto)
  | fileContents (proto : FileContentsProto) : Complete (.fileContents proto)

def BlockProto.Complete (proto : BlockProto) : Prop :=
  ∃ data, proto.data = some data ∧ data.Complete

/-- A sequence that returns. -/
theorem exists_bind_eq_ok {ε α β : Type} {x : Except ε α} {f : α → Except ε β} :
    (∃ b, (x >>= f) = .ok b) ↔ ∃ a, x = .ok a ∧ ∃ b, f a = .ok b := by
  constructor
  · rintro ⟨b, hb⟩
    cases x with
    | error e => cases hb
    | ok a => exact ⟨a, rfl, b, hb⟩
  · rintro ⟨a, rfl, b, hb⟩
    exact ⟨b, hb⟩

/-- What returns is the first part. -/
theorem exists_bind_pure_eq_ok {ε α β : Type} {x : Except ε α} {f : α → β} :
    (∃ b, (x >>= fun a => pure (f a)) = .ok b) ↔ ∃ a, x = .ok a := by
  rw [exists_bind_eq_ok]
  exact exists_congr fun a => and_iff_left ⟨f a, rfl⟩

theorem ReadWriteExecute.exists_fromProto_iff (proto : Option ReadWriteExecuteProto) :
    (∃ m, fromProto (proto.getD default) = .ok m) ↔
      ∃ m ≠ .readWriteExecuteProtoUnknown, proto = some m := by
  rcases proto with _ | proto
  · simp [fromProto, default, instInhabitedReadWriteExecuteProto.default]
  · cases proto <;> simp [fromProto]

theorem FileType.exists_fromProto_iff (proto : Option FileTypeProto) :
    (∃ t, fromProto (proto.getD default) = .ok t) ↔
      ∃ t ≠ .fileTypeProtoUnknown, proto = some t := by
  rcases proto with _ | proto
  · simp [fromProto, default, instInhabitedFileTypeProto.default]
  · cases proto <;> simp [fromProto]

theorem Mode.exists_ofProto_iff (proto : ModeProto) :
    (∃ m, ofProto proto = .ok m) ↔ proto.Complete := by
  rw [ofProto]
  constructor
  · intro h
    obtain ⟨u, hu, h⟩ := exists_bind_eq_ok.mp h
    obtain ⟨g, hg, h⟩ := exists_bind_eq_ok.mp h
    obtain ⟨o, ho, h⟩ := exists_bind_eq_ok.mp h
    obtain ⟨t, ht, h⟩ := exists_bind_eq_ok.mp h
    exact ⟨(ReadWriteExecute.exists_fromProto_iff _).mp ⟨u, hu⟩,
      (ReadWriteExecute.exists_fromProto_iff _).mp ⟨g, hg⟩,
      (ReadWriteExecute.exists_fromProto_iff _).mp ⟨o, ho⟩,
      (FileType.exists_fromProto_iff _).mp ⟨t, ht⟩⟩
  · intro h
    obtain ⟨u, hu⟩ := (ReadWriteExecute.exists_fromProto_iff _).mpr h.userMode
    obtain ⟨g, hg⟩ := (ReadWriteExecute.exists_fromProto_iff _).mpr h.groupMode
    obtain ⟨o, ho⟩ := (ReadWriteExecute.exists_fromProto_iff _).mpr h.otherMode
    obtain ⟨t, ht⟩ := (FileType.exists_fromProto_iff _).mpr h.fileType
    rw [hu, hg, ho, ht]
    exact ⟨_, rfl⟩

/-- A mode that is not set has no field that is set. -/
theorem Stat.exists_ofProto_iff (proto : StatProto) : (∃ stat, ofProto proto = .ok stat) ↔
    ∃ mode, proto.mode = some mode ∧ mode.Complete := by
  rw [ofProto, exists_bind_pure_eq_ok, Mode.exists_ofProto_iff]
  cases proto.mode with
  | none =>
    refine iff_of_false (fun h => ?_) ?_
    · obtain ⟨m, -, hm⟩ := h.userMode
      cases hm
    · rintro ⟨mode, hnone, -⟩
      cases hnone
  | some mode => simp

theorem DirFileBlockData.exists_ofProto_iff (proto : DirFileProto) :
    (∃ d, ofProto proto = .ok d) ↔
      ∃ stat mode, proto.stat = some stat ∧ stat.mode = some mode ∧ mode.Complete := by
  rw [ofProto, exists_bind_pure_eq_ok, Stat.exists_ofProto_iff]
  cases proto.stat with
  | none =>
    refine iff_of_false ?_ ?_
    · rintro ⟨mode, hmode, -⟩
      cases hmode
    · rintro ⟨stat, mode, hnone, -⟩
      cases hnone
  | some stat => simp

theorem BlockDataFactory.exists_generate_iff (proto : BlockDataProto) :
    (∃ data, generate proto = .ok data) ↔ proto.Complete := by
  cases proto with
  | unset =>
    refine iff_of_false ?_ ?_
    · rintro ⟨data, hdata⟩
      cases hdata
    · intro h
      cases h
  | link proto => exact iff_of_true ⟨_, rfl⟩ (.link proto)
  | fileContents proto => exact iff_of_true ⟨_, rfl⟩ (.fileContents proto)
  | dirFile proto =>
    rw [generate, exists_bind_pure_eq_ok, DirFileBlockData.exists_ofProto_iff]
    constructor
    · rintro ⟨stat, mode, hstat, hmode, h⟩
      exact .dirFile hstat hmode h
    · intro h
      cases h with
      | dirFile hstat hmode h => exact ⟨_, _, hstat, hmode, h⟩

/-- **A block is made of the complete messages**, and an exception thrown at the others. -/
theorem Block.exists_ofProto_iff (proto : BlockProto) :
    (∃ block, ofProto proto = .ok block) ↔ proto.Complete := by
  rw [ofProto, exists_bind_pure_eq_ok, BlockDataFactory.exists_generate_iff, BlockProto.Complete]
  cases proto.data with
  | none =>
    refine iff_of_false (fun h => ?_) ?_
    · cases h
    · rintro ⟨data, hnone, -⟩
      cases hnone
  | some data => simp

/-! ## The library -/

/-- The two entry points of the protocol-buffer library. `ParseFromString` says whether the bytes
parsed and fills the message with what it read either way. -/
structure Protobuf where
  serializeToString : BlockProto → Bytes
  parseFromString : Bytes → Bool × BlockProto

/-- The library parses what it serialized. -/
def Protobuf.Sound (lib : Protobuf) : Prop :=
  ∀ proto, lib.parseFromString (lib.serializeToString proto) = (true, proto)

end Pingfs
