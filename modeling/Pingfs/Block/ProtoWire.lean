import Pingfs.Block.Proto
import Pingfs.Lib.Wire

/-!
# The messages on the wire

A `Protobuf` that can be run: each message of `block_data.proto` as the list of its fields in
the order of their numbers, in the tag-value wire format.

## Main results

* `Protobuf.wire_sound` — it parses what it serialized
-/

namespace Pingfs

open Wire

/-- A message field is written with the bytes of the message, and read back by its own parser. -/
def readMessage {α : Type} (parse : Bytes → Option α) : Option Bytes → Option (Option α)
  | none => some none
  | some bytes => (parse bytes).map some

theorem readMessage_map {α : Type} {parse : Bytes → Option α} {write : α → Bytes}
    (h : ∀ a, parse (write a) = some a) (o : Option α) :
    readMessage parse (o.map write) = some o := by
  cases o with
  | none => rfl
  | some a => simp [readMessage, h]

/-- An enum field is read as its last known number. -/
def readEnum {α : Type} (ofNumber : UInt64 → Option α) (numbers : List UInt64) : Option α :=
  (numbers.filterMap ofNumber).getLast?

theorem readEnum_map {α : Type} {ofNumber : UInt64 → Option α} {number : α → UInt64}
    (h : ∀ a, ofNumber (number a) = some a) (o : Option α) :
    readEnum ofNumber (o.map number).toList = o := by
  cases o with
  | none => rfl
  | some a => simp [readEnum, h]

/-! ## Enums -/

def FileTypeProto.number : FileTypeProto → UInt64
  | .fileTypeProtoUnknown => 1
  | .dir => 2
  | .regular => 3

def FileTypeProto.ofNumber (n : UInt64) : Option FileTypeProto :=
  [fileTypeProtoUnknown, dir, regular].find? (·.number == n)

def ReadWriteExecuteProto.number : ReadWriteExecuteProto → UInt64
  | .readWriteExecuteProtoUnknown => 1
  | .none => 2
  | .read => 3
  | .readWrite => 4
  | .readExecute => 5
  | .readWriteExecute => 6
  | .write => 7
  | .writeExecute => 8
  | .execute => 9

def ReadWriteExecuteProto.ofNumber (n : UInt64) : Option ReadWriteExecuteProto :=
  [readWriteExecuteProtoUnknown, none, read, readWrite, readExecute, readWriteExecute, write,
    writeExecute, execute].find? (·.number == n)

theorem FileTypeProto.ofNumber_number (t : FileTypeProto) : ofNumber t.number = some t := by
  cases t <;> rfl

theorem ReadWriteExecuteProto.ofNumber_number (m : ReadWriteExecuteProto) :
    ofNumber m.number = some m := by
  cases m <;> rfl

/-! ## Messages -/

namespace ModeProto

def toWire (p : ModeProto) : Bytes :=
  encode (optVarint 1 (p.userMode.map (·.number)) ++ optVarint 2 (p.groupMode.map (·.number)) ++
    optVarint 3 (p.otherMode.map (·.number)) ++ optVarint 4 (p.fileType.map (·.number)))

def ofWire (bytes : Bytes) : Option ModeProto := do
  let fields ← parse bytes
  return ⟨readEnum ReadWriteExecuteProto.ofNumber (varintsOf 1 fields),
    readEnum ReadWriteExecuteProto.ofNumber (varintsOf 2 fields),
    readEnum ReadWriteExecuteProto.ofNumber (varintsOf 3 fields),
    readEnum FileTypeProto.ofNumber (varintsOf 4 fields)⟩

theorem ofWire_toWire (p : ModeProto) : ofWire p.toWire = some p := by
  simp [ofWire, toWire, readEnum_map ReadWriteExecuteProto.ofNumber_number,
    readEnum_map FileTypeProto.ofNumber_number]

end ModeProto

namespace StatProto

def toWire (p : StatProto) : Bytes :=
  encode (optBytes 1 (p.mode.map (·.toWire)) ++ optVarint 2 (p.uid.map (·.toUInt64)) ++
    optVarint 3 (p.gid.map (·.toUInt64)) ++ optVarint 4 p.size ++
    optVarint 5 (p.accessTime.map (·.toUInt64)) ++ optVarint 6 (p.modTime.map (·.toUInt64)) ++
    optVarint 7 (p.statusChangeTime.map (·.toUInt64)))

def ofWire (bytes : Bytes) : Option StatProto := do
  let fields ← parse bytes
  let mode ← readMessage ModeProto.ofWire (lastBytes 1 fields)
  return ⟨mode, (lastVarint 2 fields).map (·.toUInt32), (lastVarint 3 fields).map (·.toUInt32),
    lastVarint 4 fields, (lastVarint 5 fields).map (·.toInt64),
    (lastVarint 6 fields).map (·.toInt64), (lastVarint 7 fields).map (·.toInt64)⟩

theorem ofWire_toWire (p : StatProto) : ofWire p.toWire = some p := by
  simp [ofWire, toWire, lastBytes, lastVarint, readMessage_map ModeProto.ofWire_toWire,
    Function.comp_def]

end StatProto

namespace DirFileProto

def toWire (p : DirFileProto) : Bytes :=
  encode (optBytes 1 p.name ++ optBytes 2 (p.stat.map (·.toWire)) ++ repVarint 3 p.children)

def ofWire (bytes : Bytes) : Option DirFileProto := do
  let fields ← parse bytes
  let stat ← readMessage StatProto.ofWire (lastBytes 2 fields)
  return ⟨lastBytes 1 fields, stat, varintsOf 3 fields⟩

theorem ofWire_toWire (p : DirFileProto) : ofWire p.toWire = some p := by
  simp [ofWire, toWire, lastBytes, readMessage_map StatProto.ofWire_toWire]

end DirFileProto

namespace LinkProto

def toWire (p : LinkProto) : Bytes := encode (repVarint 1 p.children)

def ofWire (bytes : Bytes) : Option LinkProto := do
  let fields ← parse bytes
  return ⟨varintsOf 1 fields⟩

theorem ofWire_toWire (p : LinkProto) : ofWire p.toWire = some p := by
  simp [ofWire, toWire]

end LinkProto

namespace FileContentsProto

def toWire (p : FileContentsProto) : Bytes := encode (optBytes 1 p.data)

def ofWire (bytes : Bytes) : Option FileContentsProto := do
  let fields ← parse bytes
  return ⟨lastBytes 1 fields⟩

theorem ofWire_toWire (p : FileContentsProto) : ofWire p.toWire = some p := by
  simp [ofWire, toWire, lastBytes]

end FileContentsProto

namespace BlockDataProto

def toWire : BlockDataProto → Bytes
  | .unset => encode []
  | .dirFile p => encode (optBytes 1 (some p.toWire))
  | .link p => encode (optBytes 2 (some p.toWire))
  | .fileContents p => encode (optBytes 3 (some p.toWire))

def ofWire (bytes : Bytes) : Option BlockDataProto := do
  let fields ← parse bytes
  match lastBytes 1 fields, lastBytes 2 fields, lastBytes 3 fields with
  | some bytes, _, _ => (DirFileProto.ofWire bytes).map .dirFile
  | none, some bytes, _ => (LinkProto.ofWire bytes).map .link
  | none, none, some bytes => (FileContentsProto.ofWire bytes).map .fileContents
  | none, none, none => some .unset

theorem ofWire_toWire (p : BlockDataProto) : ofWire p.toWire = some p := by
  cases p with
  | unset => rfl
  | dirFile p => simp [ofWire, toWire, lastBytes, DirFileProto.ofWire_toWire]
  | link p => simp [ofWire, toWire, lastBytes, LinkProto.ofWire_toWire]
  | fileContents p => simp [ofWire, toWire, lastBytes, FileContentsProto.ofWire_toWire]

end BlockDataProto

namespace BlockProto

def toWire (p : BlockProto) : Bytes :=
  encode (optVarint 1 p.id ++ optBytes 2 (p.data.map (·.toWire)))

def ofWire (bytes : Bytes) : Option BlockProto := do
  let fields ← parse bytes
  let data ← readMessage BlockDataProto.ofWire (lastBytes 2 fields)
  return ⟨lastVarint 1 fields, data⟩

theorem ofWire_toWire (p : BlockProto) : ofWire p.toWire = some p := by
  simp [ofWire, toWire, lastBytes, lastVarint, readMessage_map BlockDataProto.ofWire_toWire]

end BlockProto

/-- The wire format as a library. -/
def Protobuf.wire : Protobuf where
  serializeToString := BlockProto.toWire
  parseFromString bytes :=
    match BlockProto.ofWire bytes with
    | some proto => (true, proto)
    | none => (false, default)

/-- **The wire format parses what it serialized.** -/
theorem Protobuf.wire_sound : Protobuf.wire.Sound := by
  intro proto
  simp [wire, BlockProto.ofWire_toWire]

end Pingfs
