import Pingfs.Block.ProtoWire
import Pingfs.Ping.PingBlockService

/-!
# A block in flight

The remote host echoes a request, and the echo is sent off again as the next request. However
often this happens, the requests stay the same, and the block is read back from the last echo.

Sources: `pass_through_translator.cc`, `echo_request.cc`, `echo_response.cc`.

## Main results

* `survives` — a block survives any number of bounces
-/

namespace Pingfs

namespace EchoRequest

/-- The request sent off for the echo of a request. -/
def retransmit (request : EchoRequest) : EchoRequest := ofResponse request.echo

/-- The request after `n` bounces. -/
def bounce (request : EchoRequest) : ℕ → EchoRequest
  | 0 => request
  | n + 1 => (request.bounce n).retransmit

theorem bounce_eq (request : EchoRequest) (n : ℕ) : request.bounce n = request := by
  induction n with
  | zero => rfl
  | succ n ih =>
    show (request.bounce n).retransmit = request
    rw [ih]
    exact ofResponse_echo request

end EchoRequest

namespace PassThroughTranslator

variable {lib : Protobuf}

/-- **A block survives the wire.** -/
theorem survives (hlib : lib.Sound) (block : Block) (identifier sequenceNumber : UInt16) (n : ℕ) :
    let first := toRequest lib block identifier sequenceNumber
    let last := first.bounce n
    (∃ received, fromResponse lib last.echo = .ok received ∧ received.equal block = true) ∧
      last.identifier = identifier ∧ last.sequenceNumber = sequenceNumber ∧
      last.body = first.body := by
  intro first last
  have hlast : last = first := first.bounce_eq n
  refine ⟨⟨block, ?_, Block.equal_iff.mpr rfl⟩, ?_, ?_, ?_⟩
  · rw [hlast]
    exact fromResponse_toRequest hlib block identifier sequenceNumber
  · rw [hlast]
    rfl
  · rw [hlast]
    rfl
  · rw [hlast]

/-- A directory without a name and without children, after three bounces. -/
theorem survives_wire :
    let block : Block := ⟨0xffffffffffffffff, .dirFile ⟨[], ⟨⟨.none, .write, .readExecute, .dir⟩,
      7, 8, 9, -1, 0, 2⟩, []⟩⟩
    let first := toRequest Protobuf.wire block 35 88
    let last := first.bounce 3
    (∃ received, fromResponse Protobuf.wire last.echo = .ok received ∧
        received.equal block = true) ∧
      last.identifier = 35 ∧ last.sequenceNumber = 88 ∧ last.body = first.body :=
  survives Protobuf.wire_sound _ 35 88 3

end PassThroughTranslator

end Pingfs
