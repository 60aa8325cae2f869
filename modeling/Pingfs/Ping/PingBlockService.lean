import Pingfs.Block.Proto
import Mathlib.Data.Finset.Basic

/-!
# The ping block service

A block lives in a packet that bounces between the service and a remote host. `register_block`
sends the packet, `process` gets its echo, tells the subscribers and sends it off again, unless
the block was freed in between; a `TrackFreedService` keeps the freed ids in `freed_ids_`.

Sources: `ping_block_service.cc`, `track_freed_service.cc`, `pass_through_translator.cc`,
`echo_request.cc`, `echo_response.cc`.

## Main results

* `PassThroughTranslator.fromResponse_toRequest` — an echoed block is read back
* `TrackFreedService.process_echo` — what the echo of a block does to the service
-/

namespace Pingfs

/-- `class EchoRequest`, its checksum aside, which the other fields determine. -/
structure EchoRequest where
  identifier : UInt16
  sequenceNumber : UInt16
  body : Bytes
  deriving DecidableEq, Repr

/-- `class EchoResponse`. -/
structure EchoResponse where
  identifier : UInt16
  sequenceNumber : UInt16
  data : Bytes
  deriving DecidableEq, Repr

/-- `EchoRequest::EchoRequest(const EchoResponse&)`. -/
def EchoRequest.ofResponse (resp : EchoResponse) : EchoRequest :=
  ⟨resp.identifier, resp.sequenceNumber, resp.data⟩

/-- What a remote host answers: identifier, sequence number and body come back unchanged. -/
def EchoRequest.echo (request : EchoRequest) : EchoResponse :=
  ⟨request.identifier, request.sequenceNumber, request.body⟩

@[simp] theorem EchoRequest.ofResponse_echo (request : EchoRequest) :
    ofResponse request.echo = request := rfl

/-! ## PassThroughTranslator -/

namespace PassThroughTranslator

variable (lib : Protobuf)

/-- `PassThroughTranslator::from_response`. What `ParseFromString` returns is not looked at. -/
def fromResponse (response : EchoResponse) : Except String Block :=
  Block.ofProto (lib.parseFromString response.data).2

/-- `PassThroughTranslator::to_request`. -/
def toRequest (block : Block) (identifier sequenceNumber : UInt16) : EchoRequest :=
  ⟨identifier, sequenceNumber, lib.serializeToString block.genProto⟩

variable {lib}

@[simp] theorem fromResponse_toRequest (hlib : lib.Sound) (block : Block)
    (identifier sequenceNumber : UInt16) :
    fromResponse lib (toRequest lib block identifier sequenceNumber).echo = .ok block := by
  simp [fromResponse, toRequest, EchoRequest.echo, hlib block.genProto]

end PassThroughTranslator

/-! ## TrackFreedService -/

/-- `class TrackFreedService`, with the two ids it inherits from `PingBlockService`. -/
structure TrackFreedService where
  fsId : UInt16
  id : UInt16
  freedIds : Finset BlockId
  deriving DecidableEq

/-- What `process` leaves behind: the service, the block the subscribers were notified of and the
requests that were sent. -/
structure Processed where
  service : TrackFreedService
  notified : Option Block
  sent : List EchoRequest
  deriving DecidableEq

namespace TrackFreedService

variable (lib : Protobuf)

/-- `PingBlockService::translate`. -/
def translate (s : TrackFreedService) (block : Block) : EchoRequest :=
  PassThroughTranslator.toRequest lib block s.fsId s.id

/-- `PingBlockService::register_block`: the request that it sends. -/
def registerBlock (s : TrackFreedService) (block : Block) : EchoRequest := s.translate lib block

/-- `TrackFreedService::free_block`. -/
def freeBlock (s : TrackFreedService) (blockId : BlockId) : TrackFreedService :=
  { s with freedIds := insert blockId s.freedIds }

/-- `TrackFreedService::should_recycle`. A freed id is forgotten with the packet that is dropped
for it. -/
def shouldRecycle (s : TrackFreedService) (blockId : BlockId) : Bool × TrackFreedService :=
  if blockId ∈ s.freedIds then (false, { s with freedIds := s.freedIds.erase blockId })
  else (true, s)

/-- `PingBlockService::process`. -/
def process (s : TrackFreedService) (resp : EchoResponse) : Except String Processed :=
  if resp.identifier ≠ s.fsId then .ok ⟨s, none, []⟩
  else if resp.sequenceNumber ≠ s.id then .ok ⟨s, none, []⟩
  else do
    let block ← PassThroughTranslator.fromResponse lib resp
    match s.shouldRecycle block.id with
    | (true, s) => return ⟨s, some block, [.ofResponse resp]⟩
    | (false, s) => return ⟨s, some block, []⟩

/-- `process` up to the notification: the block it is about to publish, if any. -/
def received (s : TrackFreedService) (resp : EchoResponse) : Except String (Option Block) :=
  if resp.identifier ≠ s.fsId then .ok none
  else if resp.sequenceNumber ≠ s.id then .ok none
  else (PassThroughTranslator.fromResponse lib resp).map some

/-- `process` is the notification of a block, followed by `should_recycle`. -/
theorem process_eq (s : TrackFreedService) (resp : EchoResponse) :
    s.process lib resp = (s.received lib resp).map fun notified =>
      match notified with
      | none => ⟨s, none, []⟩
      | some block => ⟨(s.shouldRecycle block.id).2, some block,
          if (s.shouldRecycle block.id).1 then [.ofResponse resp] else []⟩ := by
  rw [process, received]
  split
  · rfl
  split
  · rfl
  cases PassThroughTranslator.fromResponse lib resp with
  | error what => rfl
  | ok block =>
    simp only [bind, Except.bind, Except.map]
    rcases s.shouldRecycle block.id with ⟨_ | _, s'⟩ <;> rfl

variable {lib}

theorem translate_injective (hlib : lib.Sound) (s : TrackFreedService) :
    Function.Injective (s.translate lib) := by
  intro b c h
  have hb := PassThroughTranslator.fromResponse_toRequest hlib b s.fsId s.id
  have hc := PassThroughTranslator.fromResponse_toRequest hlib c s.fsId s.id
  rw [translate, translate] at h
  rw [h, hc] at hb
  injection hb with hb
  exact hb.symm

@[simp] theorem translate_freeBlock (s : TrackFreedService) (id : BlockId) :
    (s.freeBlock id).translate lib = s.translate lib := rfl

/-- **The echo of a block.** Its subscribers hear of it either way; it is sent off again if it was
not freed, and dropped otherwise, and then its id leaves the freed ids. -/
theorem process_echo (hlib : lib.Sound) (s : TrackFreedService) (block : Block) :
    s.process lib (s.translate lib block).echo = .ok
      (if block.id ∈ s.freedIds
        then ⟨{ s with freedIds := s.freedIds.erase block.id }, some block, []⟩
        else ⟨s, some block, [s.translate lib block]⟩) := by
  have hread := PassThroughTranslator.fromResponse_toRequest hlib block s.fsId s.id
  have hident : (s.translate lib block).echo.identifier = s.fsId := rfl
  have hseq : (s.translate lib block).echo.sequenceNumber = s.id := rfl
  simp only [process, hident, hseq, ne_eq, not_true_eq_false, if_false]
  rw [translate, hread]
  by_cases hfreed : block.id ∈ s.freedIds
  · simp [shouldRecycle, hfreed, bind, Except.bind, pure, Except.pure]
  · simp [shouldRecycle, hfreed, bind, Except.bind, pure, Except.pure]

end TrackFreedService

end Pingfs
