import Pingfs.Block.ProtoWire
import Pingfs.Ping.PingBlockService

/-!
# Replies of others

Any host may send an echo reply, and identifier and sequence number may be those of the service.
`process` makes a block of whatever the payload is parsed to: it does not look at what
`ParseFromString` returns, and does not catch what the constructors of the block throw.

Sending is taken to succeed.

Sources: `PingBlockService::process`, `PassThroughTranslator::from_response`,
`BlockDataFactory::generate`, the proto constructors of `block_data/*.cc`.

## Main results

* `harmless_iff` — the replies that are ignored unless they carry a complete block
* `process_throws_iff`, `process_publishes_iff` — the two ways in which one is not
-/

namespace Pingfs

namespace TrackFreedService

variable (lib : Protobuf)

/-- Identifier and sequence number are those of the service. -/
def IsFor (s : TrackFreedService) (resp : EchoResponse) : Prop :=
  resp.identifier = s.fsId ∧ resp.sequenceNumber = s.id

/-- The payload is that of a complete block: it is parsed, and to a complete message. -/
def IsBlock (data : Bytes) : Prop :=
  (lib.parseFromString data).1 = true ∧ (lib.parseFromString data).2.Complete

/-- `process` does not throw, and if the payload is not that of a complete block, it notifies no
subscriber, sends nothing and leaves `freed_ids_`. -/
def Harmless (s : TrackFreedService) (resp : EchoResponse) : Prop :=
  ∃ out, s.process lib resp = .ok out ∧ (¬ IsBlock lib resp.data → out = ⟨s, none, []⟩)

variable {lib} {s : TrackFreedService} {resp : EchoResponse}

/-- Another's reply is ignored. -/
theorem process_of_not_isFor (h : ¬ s.IsFor resp) : s.process lib resp = .ok ⟨s, none, []⟩ := by
  rw [process_eq, received]
  by_cases hidentifier : resp.identifier = s.fsId
  · have hsequence : resp.sequenceNumber ≠ s.id := fun hsequence => h ⟨hidentifier, hsequence⟩
    rw [if_neg (not_not.mpr hidentifier), if_pos hsequence]
    rfl
  · rw [if_pos hidentifier]
    rfl

theorem received_of_isFor (h : s.IsFor resp) :
    s.received lib resp = (Block.ofProto (lib.parseFromString resp.data).2).map some := by
  rw [received, if_neg (not_not.mpr h.1), if_neg (not_not.mpr h.2)]
  rfl

/-- **When `process` throws**: the message is not complete. -/
theorem process_throws_iff : (∃ what, s.process lib resp = .error what) ↔
    s.IsFor resp ∧ ¬ (lib.parseFromString resp.data).2.Complete := by
  by_cases hfor : s.IsFor resp
  · rw [process_eq, received_of_isFor hfor, ← Block.exists_ofProto_iff]
    cases Block.ofProto (lib.parseFromString resp.data).2 with
    | error what => exact iff_of_true ⟨what, rfl⟩ ⟨hfor, by simp⟩
    | ok block =>
      refine iff_of_false ?_ fun h => h.2 ⟨block, rfl⟩
      rintro ⟨what, hwhat⟩
      cases hwhat
  · rw [process_of_not_isFor hfor]
    refine iff_of_false ?_ fun h => hfor h.1
    rintro ⟨what, hwhat⟩
    cases hwhat

/-- **When it publishes a block**: the message is complete, parsed or not. -/
theorem process_publishes_iff {block : Block} :
    (∃ out, s.process lib resp = .ok out ∧ out.notified = some block) ↔
      s.IsFor resp ∧ Block.ofProto (lib.parseFromString resp.data).2 = .ok block := by
  by_cases hfor : s.IsFor resp
  · rw [process_eq, received_of_isFor hfor]
    cases Block.ofProto (lib.parseFromString resp.data).2 with
    | error what =>
      refine iff_of_false ?_ fun h => ?_
      · rintro ⟨out, hout, -⟩
        cases hout
      · cases h.2
    | ok made =>
      constructor
      · rintro ⟨out, hout, hnotified⟩
        obtain rfl := Except.ok.inj hout
        obtain rfl := Option.some.inj hnotified
        exact ⟨hfor, rfl⟩
      · rintro ⟨-, hmade⟩
        obtain rfl := Except.ok.inj hmade
        exact ⟨_, rfl, rfl⟩
  · rw [process_of_not_isFor hfor]
    refine iff_of_false ?_ fun h => hfor h.1
    rintro ⟨out, hout, hnotified⟩
    obtain rfl := Except.ok.inj hout
    cases hnotified

/-- **A reply is harmless** if and only if it is another's, or its payload is the serialization of a
complete block. -/
theorem harmless_iff (lib : Protobuf) (s : TrackFreedService) (resp : EchoResponse) :
    Harmless lib s resp ↔ ¬ s.IsFor resp ∨ IsBlock lib resp.data := by
  by_cases hfor : s.IsFor resp
  · by_cases hcomplete : (lib.parseFromString resp.data).2.Complete
    · obtain ⟨block, hblock⟩ := (Block.exists_ofProto_iff _).mpr hcomplete
      obtain ⟨out, hout, hnotified⟩ := process_publishes_iff.mpr ⟨hfor, hblock⟩
      constructor
      · rintro ⟨out', hout', hignored⟩
        obtain rfl := Except.ok.inj (hout'.symm.trans hout)
        refine Or.inr ?_
        by_contra hnot
        rw [hignored hnot] at hnotified
        cases hnotified
      · intro h
        exact ⟨out, hout, fun hnot => absurd (h.resolve_left (not_not.mpr hfor)) hnot⟩
    · obtain ⟨what, hwhat⟩ := process_throws_iff.mpr ⟨hfor, hcomplete⟩
      refine iff_of_false ?_ fun h => hcomplete (h.resolve_left (not_not.mpr hfor)).2
      rintro ⟨out, hout, -⟩
      rw [hwhat] at hout
      cases hout
  · exact iff_of_true ⟨_, process_of_not_isFor hfor, fun _ => rfl⟩ (Or.inl hfor)

/-! ### Two replies that are not harmless -/

/-- A library that has read the message when it comes to a last byte that is no field. -/
def readsPrefix : Protobuf where
  serializeToString := Protobuf.wire.serializeToString
  parseFromString bytes :=
    match BlockProto.ofWire bytes with
    | some proto => (true, proto)
    | none => (false, (BlockProto.ofWire bytes.dropLast).getD default)

/-- **A reply without a payload** makes `process` throw, and a block with a byte after it, which is
not parsed, is published and sent. -/
theorem reply_not_harmless :
    (⟨3, 0, ∅⟩ : TrackFreedService).process Protobuf.wire ⟨3, 0, []⟩ =
      .error "Unknown protocol buffer to deserialize" ∧
    (let block : Block := ⟨1, .fileContents ⟨[7]⟩⟩
      let data := readsPrefix.serializeToString block.genProto ++ [0x80]
      (readsPrefix.parseFromString data).1 = false ∧
      (⟨3, 0, ∅⟩ : TrackFreedService).process readsPrefix ⟨3, 0, data⟩ =
        .ok ⟨⟨3, 0, ∅⟩, some block, [⟨3, 0, data⟩]⟩) := by
  decide

end TrackFreedService

end Pingfs
