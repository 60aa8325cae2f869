import Pingfs.Block.ProtoWire
import Pingfs.Lib.Run
import Pingfs.Ping.PingBlockService
import Mathlib.Data.Multiset.Filter
import Mathlib.Data.Multiset.ZeroCons

/-!
# Blocks in flight

One `TrackFreedService` and the network it sends to, as a system: the packets in flight, and a
record of which blocks were registered and which ids were freed. A step registers a block (from
`PingBlockManager::create_block`, from the delayed second send of
`DuplicatePingBlockManager::create_block`, or again as a root), frees an id, or delivers the echo
of a packet in flight.

## Main results

* `PingNetwork.conserved` — when every block is created once and freed at most once, each block
  that is not freed is in exactly one packet, and a freed one dies with its next echo
* `PingNetwork.freed_not_sent` — no packet of a freed block is sent, as long as no freed block is
  registered and no block with more than one copy in flight is freed
* `PingNetwork.resent_of_two_copies` — otherwise the second copy is sent for ever
-/

namespace Pingfs

/-- The service, the packets in flight, the blocks registered (the last one first) and the ids
`free_block` was called with. -/
structure PingNetwork where
  service : TrackFreedService
  inFlight : Multiset EchoRequest
  registered : List Block
  freed : Finset BlockId
  deriving DecidableEq

namespace PingNetwork

/-- A step of the system. -/
inductive Event where
  | register (block : Block)
  | free (id : BlockId)
  | arrive (packet : EchoRequest)
  deriving DecidableEq

/-- A service that has sent nothing. -/
def init (fsId id : UInt16) : PingNetwork := ⟨⟨fsId, id, ∅⟩, 0, [], ∅⟩

variable (lib : Protobuf)

/-- The requests a step sends. If `process` throws, it sends nothing. -/
def sent (n : PingNetwork) : Event → List EchoRequest
  | .register block => [n.service.registerBlock lib block]
  | .free _ => []
  | .arrive packet =>
    match n.service.process lib packet.echo with
    | .ok out => out.sent
    | .error _ => []

/-- One step. -/
def step (n : PingNetwork) (e : Event) : PingNetwork :=
  match e with
  | .register block =>
    { n with inFlight := n.inFlight + n.sent lib e, registered := block :: n.registered }
  | .free id => { n with service := n.service.freeBlock id, freed := insert id n.freed }
  | .arrive packet =>
    { n with
      inFlight := n.inFlight.erase packet + n.sent lib e
      service := match n.service.process lib packet.echo with
        | .ok out => out.service
        | .error _ => n.service }

/-- The network after a run. -/
def run (n : PingNetwork) (es : List Event) : PingNetwork := es.foldl (step lib) n

/-- A packet carries a block with the id `id`. -/
def carries (id : BlockId) (packet : EchoRequest) : Bool :=
  match PassThroughTranslator.fromResponse lib packet.echo with
  | .ok block => block.id == id
  | .error _ => false

/-- The packets in flight that carry a block with the id `id`. -/
def carriers (n : PingNetwork) (id : BlockId) : Multiset EchoRequest :=
  n.inFlight.filter fun packet => carries lib id packet

variable {lib} (hlib : lib.Sound)

include hlib in
@[simp] theorem carries_translate (s : TrackFreedService) (block : Block) (id : BlockId) :
    carries lib id (s.translate lib block) = (block.id == id) := by
  rw [carries, TrackFreedService.translate,
    PassThroughTranslator.fromResponse_toRequest hlib block s.fsId s.id]

@[simp] theorem translate_step (n : PingNetwork) (e : Event) :
    (n.step lib e).service.translate lib = n.service.translate lib := by
  cases e with
  | register block => rfl
  | free id => rfl
  | arrive packet =>
    simp only [step, TrackFreedService.process]
    split_ifs
    · rfl
    · rfl
    · cases PassThroughTranslator.fromResponse lib packet.echo with
      | error what => rfl
      | ok block =>
        simp only [TrackFreedService.shouldRecycle]
        by_cases hfreed : block.id ∈ n.service.freedIds
        · simp [hfreed, bind, Except.bind, pure, Except.pure]
          rfl
        · simp [hfreed, bind, Except.bind, pure, Except.pure]

/-! ### The arrival of a block -/

/-- The network without one packet of `block`, whose id is no longer among the freed ones. -/
def dropped (lib : Protobuf) (n : PingNetwork) (block : Block) : PingNetwork :=
  { n with
    inFlight := n.inFlight.erase (n.service.translate lib block)
    service := { n.service with freedIds := n.service.freedIds.erase block.id } }

include hlib

/-- The echo of a block that is not freed changes nothing: its packet is sent again. -/
theorem step_arrive_live {n : PingNetwork} {block : Block}
    (hin : n.service.translate lib block ∈ n.inFlight) (hlive : block.id ∉ n.service.freedIds) :
    n.step lib (.arrive (n.service.translate lib block)) = n := by
  have hsent : n.inFlight.erase (n.service.translate lib block) +
      ([n.service.translate lib block] : Multiset EchoRequest) = n.inFlight := by
    rw [Multiset.coe_singleton, Multiset.add_comm, Multiset.singleton_add, Multiset.cons_erase hin]
  simp only [step, sent, TrackFreedService.process_echo hlib, hlive, if_false, hsent]

theorem sent_arrive_live {n : PingNetwork} {block : Block}
    (hlive : block.id ∉ n.service.freedIds) :
    n.sent lib (.arrive (n.service.translate lib block)) = [n.service.translate lib block] := by
  simp only [sent, TrackFreedService.process_echo hlib, hlive, if_false]

/-- The echo of a freed block is dropped and its id forgotten. -/
theorem step_arrive_freed {n : PingNetwork} {block : Block}
    (hfreed : block.id ∈ n.service.freedIds) :
    n.step lib (.arrive (n.service.translate lib block)) = n.dropped lib block := by
  simp [step, sent, TrackFreedService.process_echo hlib, hfreed, dropped]

theorem sent_arrive_freed {n : PingNetwork} {block : Block}
    (hfreed : block.id ∈ n.service.freedIds) :
    n.sent lib (.arrive (n.service.translate lib block)) = [] := by
  simp only [sent, TrackFreedService.process_echo hlib, hfreed, if_true]

omit hlib

/-! ## Blocks created once and freed at most once -/

/-- What the manager promises of a step: `create_block` takes a fresh id, `free_block` is called
at most once, for an id that was created, and only what is in flight arrives. -/
def Orderly (n : PingNetwork) : Event → Prop
  | .register block => block.id ∉ n.registered.map (·.id)
  | .free id => id ∈ n.registered.map (·.id) ∧ id ∉ n.freed
  | .arrive packet => packet ∈ n.inFlight

instance (n : PingNetwork) : (e : Event) → Decidable (n.Orderly e)
  | .register _ => inferInstanceAs (Decidable (_ ∉ _))
  | .free _ => inferInstanceAs (Decidable (_ ∧ _))
  | .arrive _ => inferInstanceAs (Decidable (_ ∈ _))

/-- A block is in flight: it was not freed, or it was and its echo is still to come. -/
def alive (n : PingNetwork) (block : Block) : Bool :=
  decide (block.id ∉ n.freed ∨ block.id ∈ n.service.freedIds)

/-- The packets in flight are those of the blocks that are alive, one for each. -/
structure Conserved (lib : Protobuf) (n : PingNetwork) : Prop where
  nodup : (n.registered.map (·.id)).Nodup
  freed_registered : ∀ id ∈ n.freed, id ∈ n.registered.map (·.id)
  freedIds_freed : ∀ id ∈ n.service.freedIds, id ∈ n.freed
  inFlight_eq : n.inFlight = (n.registered.filter n.alive).map (n.service.translate lib)

namespace Conserved

theorem init (fsId id : UInt16) : Conserved lib (PingNetwork.init fsId id) :=
  ⟨List.nodup_nil, by simp [PingNetwork.init], by simp [PingNetwork.init], rfl⟩

/-- Two registered blocks with one id are the same block. -/
theorem eq_of_id {n : PingNetwork} (h : Conserved lib n) {b c : Block} (hb : b ∈ n.registered)
    (hc : c ∈ n.registered) (hid : b.id = c.id) : b = c :=
  List.inj_on_of_nodup_map h.nodup hb hc hid

theorem register {n : PingNetwork} (h : Conserved lib n) {block : Block}
    (hfresh : block.id ∉ n.registered.map (·.id)) :
    Conserved lib (n.step lib (.register block)) := by
  refine ⟨List.nodup_cons.mpr ⟨hfresh, h.nodup⟩,
    fun id hid => List.mem_cons_of_mem _ (h.freed_registered id hid), h.freedIds_freed, ?_⟩
  have hlive : block.id ∉ n.freed := fun hid => hfresh (h.freed_registered _ hid)
  have halive : n.alive block = true := by simp [alive, hlive]
  have hstep : (n.step lib (.register block)).alive = n.alive := rfl
  rw [hstep]
  simp only [step, sent, TrackFreedService.registerBlock, h.inFlight_eq, List.filter_cons, halive,
    if_true, List.map_cons]
  rw [Multiset.coe_add, Multiset.coe_eq_coe]
  exact List.perm_append_comm

theorem free {n : PingNetwork} (h : Conserved lib n) {id : BlockId}
    (hid : id ∈ n.registered.map (·.id)) (hnew : id ∉ n.freed) :
    Conserved lib (n.step lib (.free id)) := by
  refine ⟨h.nodup, ?_, ?_, ?_⟩
  · intro id' hid'
    rcases Finset.mem_insert.mp hid' with rfl | hid'
    · exact hid
    · exact h.freed_registered id' hid'
  · intro id' hid'
    rcases Finset.mem_insert.mp hid' with rfl | hid'
    · exact Finset.mem_insert_self _ _
    · exact Finset.mem_insert_of_mem (h.freedIds_freed id' hid')
  -- the freed block was alive before, and is until its echo comes
  · have halive : (n.step lib (.free id)).alive = n.alive := by
      funext block
      by_cases hb : block.id = id
      · simp [alive, step, TrackFreedService.freeBlock, hb, hnew]
      · simp [alive, step, TrackFreedService.freeBlock, hb]
    rw [halive]
    exact h.inFlight_eq

/-- A packet in flight is that of a registered block that is alive. -/
theorem of_mem {n : PingNetwork} (h : Conserved lib n) {packet : EchoRequest}
    (hin : packet ∈ n.inFlight) : ∃ block ∈ n.registered, n.alive block ∧
      packet = n.service.translate lib block := by
  rw [h.inFlight_eq] at hin
  simp only [Multiset.mem_coe, List.mem_map, List.mem_filter] at hin
  obtain ⟨block, ⟨hreg, halive⟩, rfl⟩ := hin
  exact ⟨block, hreg, halive, rfl⟩

include hlib in
theorem arrive {n : PingNetwork} (h : Conserved lib n) {packet : EchoRequest}
    (hin : packet ∈ n.inFlight) : Conserved lib (n.step lib (.arrive packet)) := by
  obtain ⟨block, hreg, halive, rfl⟩ := h.of_mem hin
  by_cases hfreed : block.id ∈ n.service.freedIds
  swap
  · rwa [step_arrive_live hlib hin hfreed]
  rw [step_arrive_freed hlib hfreed]
  refine ⟨h.nodup, h.freed_registered,
    fun id hid => h.freedIds_freed id (Finset.mem_of_mem_erase hid), ?_⟩
  -- only `block` dies
  have hdies : n.registered.filter (n.dropped lib block).alive =
      (n.registered.filter n.alive).erase block := by
    rw [(h.nodup.of_map.filter _).erase_eq_filter, List.filter_filter]
    refine List.filter_congr fun c hc => ?_
    by_cases hcb : c = block
    · subst hcb
      simp [alive, dropped, h.freedIds_freed _ hfreed]
    · have hne : c.id ≠ block.id := fun hid => hcb (h.eq_of_id hc hreg hid)
      have hbne : (c != block) = true := bne_iff_ne.mpr hcb
      simp [alive, dropped, hne, hbne]
  calc (n.dropped lib block).inFlight
      = n.inFlight.erase (n.service.translate lib block) := rfl
    _ = ((n.registered.filter n.alive).erase block : List Block).map (n.service.translate lib) := by
      rw [h.inFlight_eq, ← Multiset.map_coe, ← Multiset.map_coe, ← Multiset.coe_erase,
        Multiset.map_erase _ (TrackFreedService.translate_injective hlib n.service)]
    _ = (n.registered.filter (n.dropped lib block).alive).map (n.service.translate lib) := by
      rw [hdies]

include hlib in
/-- **One step keeps the blocks in flight.** -/
theorem step {n : PingNetwork} (h : Conserved lib n) {e : Event} (he : n.Orderly e) :
    Conserved lib (n.step lib e) := by
  cases e with
  | register block => exact h.register he
  | free id => exact h.free he.1 he.2
  | arrive packet => exact h.arrive hlib he

include hlib in
theorem run {n : PingNetwork} (h : Conserved lib n) {es : List Event}
    (hes : Run.EveryStep (PingNetwork.step lib) Orderly n es) : Conserved lib (n.run lib es) :=
  hes.invariant h fun _ _ h he => h.step hlib he

include hlib in
/-- The packets that carry a registered block's id: its own one, while it is alive. -/
theorem carriers_eq {n : PingNetwork} (h : Conserved lib n) {block : Block}
    (hreg : block ∈ n.registered) :
    n.carriers lib block.id = if n.alive block then {n.service.translate lib block} else 0 := by
  have hfilter : (n.registered.filter n.alive).filter (fun c => c.id == block.id) =
      if n.alive block then [block] else [] := by
    have hone : n.registered.filter (fun c => c.id == block.id) = [block] := by
      have hnodup : n.registered.Nodup := h.nodup.of_map
      rw [List.filter_congr (q := fun c => c == block), List.filter_beq,
        List.count_eq_one_of_mem hnodup hreg]
      · rfl
      · intro c hc
        by_cases hcb : c = block
        · simp [hcb]
        · have hne : c.id ≠ block.id := fun hid => hcb (h.eq_of_id hc hreg hid)
          simp [hcb, hne]
    rw [List.filter_comm, hone]
    by_cases halive : n.alive block <;> simp [halive]
  rw [carriers, h.inFlight_eq, ← Multiset.map_coe, Multiset.filter_map]
  simp only [Function.comp_def, carries_translate hlib, Multiset.filter_coe,
    Bool.decide_eq_true, hfilter]
  split_ifs <;> rfl

end Conserved

/-! ### Freed for good -/

/-- A block that was freed and whose packet is gone. -/
def Gone (n : PingNetwork) (id : BlockId) : Prop := id ∈ n.freed ∧ id ∉ n.service.freedIds

theorem Gone.free {n : PingNetwork} {id id' : BlockId} (h : n.Gone id) (hnew : id' ∉ n.freed) :
    (n.step lib (.free id')).Gone id := by
  have hne : id ≠ id' := fun hid => hnew (hid ▸ h.1)
  refine ⟨Finset.mem_insert_of_mem h.1, fun hid => ?_⟩
  rcases Finset.mem_insert.mp hid with rfl | hid
  · exact hne rfl
  · exact h.2 hid

include hlib in
theorem Gone.step {n : PingNetwork} {id : BlockId} {e : Event} (h : n.Gone id)
    (hn : Conserved lib n) (he : n.Orderly e) : (n.step lib e).Gone id := by
  cases e with
  | register block => exact h
  | free id' => exact h.free he.2
  | arrive packet =>
    obtain ⟨block, _, _, rfl⟩ := hn.of_mem he
    by_cases hfreed : block.id ∈ n.service.freedIds
    · rw [step_arrive_freed hlib hfreed]
      exact ⟨h.1, fun hid => h.2 (Finset.mem_of_mem_erase hid)⟩
    · rwa [step_arrive_live hlib he hfreed]

include hlib in
/-- **Blocks in flight are conserved.** After any orderly run, a block that was registered and not
freed is carried by exactly one packet, with the contents it was registered with; a freed one by
exactly one packet while its id is in `freed_ids_` and by none otherwise; and once a freed block
is carried by none, it is carried by none for the rest of the run. -/
theorem conserved (fsId id : UInt16) (es later : List Event)
    (h : Run.EveryStep (step lib) Orderly (init fsId id) (es ++ later)) (block : Block)
    (hreg : block ∈ ((init fsId id).run lib es).registered) :
    let n := (init fsId id).run lib es
    (block.id ∉ n.freed → ∃ packet, n.carriers lib block.id = {packet} ∧
      PassThroughTranslator.fromResponse lib packet.echo = .ok block) ∧
    (block.id ∈ n.freed → block.id ∈ n.service.freedIds →
      ∃ packet, n.carriers lib block.id = {packet}) ∧
    (block.id ∈ n.freed → block.id ∉ n.service.freedIds → n.carriers lib block.id = 0) ∧
    (block.id ∈ n.freed → n.carriers lib block.id = 0 →
      (n.run lib later).carriers lib block.id = 0) := by
  intro n
  rw [Run.EveryStep.append_iff] at h
  have hn : Conserved lib n := (Conserved.init fsId id).run hlib h.1
  have hcarriers := hn.carriers_eq hlib hreg
  refine ⟨fun hlive => ?_, fun _ hdying => ?_, fun hfreed hgone => ?_, fun hfreed hnone => ?_⟩
  · refine ⟨n.service.translate lib block, ?_,
      PassThroughTranslator.fromResponse_toRequest hlib block _ _⟩
    simpa [alive, hlive] using hcarriers
  · exact ⟨n.service.translate lib block, by simpa [alive, hdying] using hcarriers⟩
  · simpa [alive, hfreed, hgone] using hcarriers
  · -- no carrier means that the id is not waited for any more, and that lasts
    have hgone : n.Gone block.id := by
      refine ⟨hfreed, fun hdying => ?_⟩
      rw [hnone] at hcarriers
      simp [alive, hdying] at hcarriers
    have hend : Conserved lib (n.run lib later) ∧ (n.run lib later).Gone block.id ∧
        block ∈ (n.run lib later).registered := by
      refine h.2.invariant (I := fun m => Conserved lib m ∧ m.Gone block.id ∧ block ∈ m.registered)
        ⟨hn, hgone, hreg⟩ fun m e hm he => ⟨hm.1.step hlib he, hm.2.1.step hlib hm.1 he, ?_⟩
      cases e with
      | register c => exact List.mem_cons_of_mem _ hm.2.2
      | free id => exact hm.2.2
      | arrive packet => exact hm.2.2
    rw [hend.1.carriers_eq hlib hend.2.2]
    simp [alive, hend.2.1.1, hend.2.1.2]

/-- A block is created and freed, its echo comes, and another block is created. -/
theorem conserved_freed_block :
    let block : Block := ⟨1, .fileContents ⟨[7]⟩⟩
    let packet := (init 3 0).service.translate Protobuf.wire block
    let n := (init 3 0).run Protobuf.wire [.register block, .free 1, .arrive packet]
    n.carriers Protobuf.wire 1 = 0 ∧
      (n.run Protobuf.wire [.register ⟨2, .link ⟨[1]⟩⟩]).carriers Protobuf.wire 1 = 0 := by
  intro block packet n
  have h := conserved Protobuf.wire_sound 3 0 [.register block, .free 1, .arrive packet]
    [.register ⟨2, .link ⟨[1]⟩⟩] (by decide) block (by decide)
  have hnone := h.2.2.1 (by decide) (by decide)
  exact ⟨hnone, h.2.2.2 (by decide) hnone⟩

/-! ## Blocks registered more than once -/

/-- Only what is in flight arrives. -/
def Arrives (n : PingNetwork) : Event → Prop
  | .register _ => True
  | .free _ => True
  | .arrive packet => packet ∈ n.inFlight

instance (n : PingNetwork) : (e : Event) → Decidable (n.Arrives e)
  | .register _ => inferInstanceAs (Decidable True)
  | .free _ => inferInstanceAs (Decidable True)
  | .arrive _ => inferInstanceAs (Decidable (_ ∈ _))

/-- The step sends no packet of a block freed before. -/
def SendsNoFreed (lib : Protobuf) (n : PingNetwork) (e : Event) : Prop :=
  ∀ packet ∈ n.sent lib e, ∀ id ∈ n.freed, carries lib id packet = false

instance (n : PingNetwork) (e : Event) : Decidable (n.SendsNoFreed lib e) :=
  haveI (packet : EchoRequest) : Decidable (∀ id ∈ n.freed, carries lib id packet = false) :=
    Finset.decidableDforallFinset
  List.decidableBAll _ _

/-- No freed block is registered, and no block is freed while two of its copies are in flight. -/
def SingleCopy (lib : Protobuf) (n : PingNetwork) : Event → Prop
  | .register block => block.id ∉ n.freed
  | .free id => (n.carriers lib id).card ≤ 1
  | .arrive packet => packet ∈ n.inFlight

instance (n : PingNetwork) : (e : Event) → Decidable (n.SingleCopy lib e)
  | .register _ => inferInstanceAs (Decidable (_ ∉ _))
  | .free _ => inferInstanceAs (Decidable (_ ≤ _))
  | .arrive _ => inferInstanceAs (Decidable (_ ∈ _))

/-- Of a freed block at most one copy is in flight, and then its id is in `freed_ids_`. -/
structure Dying (lib : Protobuf) (n : PingNetwork) : Prop where
  packets : ∀ packet ∈ n.inFlight, ∃ block, packet = n.service.translate lib block
  single : ∀ id ∈ n.freed, (n.carriers lib id).card ≤ 1
  waiting : ∀ id ∈ n.freed, n.carriers lib id ≠ 0 → id ∈ n.service.freedIds

namespace Dying

theorem init (fsId id : UInt16) : Dying lib (PingNetwork.init fsId id) := by
  constructor <;> simp [PingNetwork.init]

include hlib in
theorem register {n : PingNetwork} (h : Dying lib n) {block : Block} (hlive : block.id ∉ n.freed) :
    Dying lib (n.step lib (.register block)) := by
  have hsame : ∀ id ∈ n.freed,
      (n.step lib (.register block)).carriers lib id = n.carriers lib id := by
    intro id hid
    have hne : block.id ≠ id := fun hb => hlive (hb ▸ hid)
    simp [carriers, PingNetwork.step, sent, TrackFreedService.registerBlock, Multiset.filter_add,
      Multiset.filter_singleton, carries_translate hlib, hne]
  refine ⟨fun packet hp => ?_, fun id hid => ?_, fun id hid => ?_⟩
  · rcases Multiset.mem_add.mp hp with hp | hp
    · exact h.packets packet hp
    · exact ⟨block, by simpa [sent, TrackFreedService.registerBlock] using hp⟩
  · rw [hsame id hid]
    exact h.single id hid
  · rw [hsame id hid]
    exact h.waiting id hid

theorem free {n : PingNetwork} (h : Dying lib n) {id : BlockId}
    (hone : (n.carriers lib id).card ≤ 1) : Dying lib (n.step lib (.free id)) := by
  refine ⟨h.packets, fun id' hid' => ?_, fun id' hid' hne => ?_⟩
  · rcases Finset.mem_insert.mp hid' with rfl | hid'
    · exact hone
    · exact h.single id' hid'
  · rcases Finset.mem_insert.mp hid' with rfl | hid'
    · exact Finset.mem_insert_self _ _
    · exact Finset.mem_insert_of_mem (h.waiting id' hid' hne)

/-- A packet in flight is one of the carriers of its block's id. -/
theorem carriers_ne_zero {n : PingNetwork} (hlib : lib.Sound) {block : Block}
    (hin : n.service.translate lib block ∈ n.inFlight) : n.carriers lib block.id ≠ 0 := by
  intro hnone
  have hmem : n.service.translate lib block ∈ n.carriers lib block.id :=
    Multiset.mem_filter.mpr ⟨hin, by simp [carries_translate hlib]⟩
  rw [hnone] at hmem
  exact Multiset.notMem_zero _ hmem

include hlib in
theorem arrive {n : PingNetwork} (h : Dying lib n) {packet : EchoRequest}
    (hin : packet ∈ n.inFlight) : Dying lib (n.step lib (.arrive packet)) := by
  obtain ⟨block, rfl⟩ := h.packets packet hin
  by_cases hfreed : block.id ∈ n.service.freedIds
  swap
  · rwa [step_arrive_live hlib hin hfreed]
  rw [step_arrive_freed hlib hfreed]
  have hle : ∀ id, (n.dropped lib block).carriers lib id ≤ n.carriers lib id := fun id =>
    Multiset.filter_le_filter _ (Multiset.erase_le _ _)
  refine ⟨fun packet hp => h.packets packet (Multiset.mem_of_mem_erase hp),
    fun id hid => (Multiset.card_le_card (hle id)).trans (h.single id hid),
    fun id hid hne => Finset.mem_erase.mpr ⟨?_, h.waiting id hid fun hnone => hne ?_⟩⟩
  · -- the only copy of `block` was dropped just now
    rintro rfl
    have hcarry : carries lib block.id (n.service.translate lib block) = true := by
      simp [carries_translate hlib]
    have hcons : n.carriers lib block.id =
        n.service.translate lib block ::ₘ (n.dropped lib block).carriers lib block.id := by
      rw [carriers, ← Multiset.cons_erase hin]
      exact Multiset.filter_cons_of_pos _ hcarry
    have hpos := Multiset.card_pos.mpr hne
    have hone := h.single block.id hid
    rw [hcons, Multiset.card_cons] at hone
    omega
  · exact Multiset.le_zero.mp (hnone ▸ hle id)

include hlib in
/-- **One step keeps at most one copy of a freed block.** -/
theorem step {n : PingNetwork} (h : Dying lib n) {e : Event} (he : n.SingleCopy lib e) :
    Dying lib (n.step lib e) := by
  cases e with
  | register block => exact h.register hlib he
  | free id => exact h.free he
  | arrive packet => exact h.arrive hlib he

include hlib in
theorem sendsNoFreed {n : PingNetwork} (h : Dying lib n) {e : Event} (he : n.SingleCopy lib e) :
    n.SendsNoFreed lib e := by
  intro packet hp id hid
  cases e with
  | register block =>
    have hne : block.id ≠ id := fun hb => he (hb ▸ hid)
    obtain rfl : packet = n.service.translate lib block := by
      simpa [sent, TrackFreedService.registerBlock] using hp
    simpa [carries_translate hlib] using hne
  | free id' => simp [sent] at hp
  | arrive echoed =>
    obtain ⟨block, rfl⟩ := h.packets echoed he
    by_cases hfreed : block.id ∈ n.service.freedIds
    · simp [sent_arrive_freed hlib hfreed] at hp
    · obtain rfl : packet = n.service.translate lib block := by
        simpa [sent_arrive_live hlib hfreed] using hp
      rw [carries_translate hlib, beq_eq_false_iff_ne]
      rintro rfl
      exact hfreed (h.waiting _ hid (carriers_ne_zero hlib he))

end Dying

include hlib in
/-- **A freed block is not sent again**, in any run that registers no freed block and frees no
block while two of its copies are in flight. -/
theorem freed_not_sent (fsId id : UInt16) (es : List Event)
    (h : Run.EveryStep (step lib) (SingleCopy lib) (init fsId id) es) :
    Run.EveryStep (step lib) (SendsNoFreed lib) (init fsId id) es :=
  (h.carrying (Dying.init fsId id) fun _ _ hn he => hn.step hlib he).imp
    fun _ _ hs => hs.1.sendsNoFreed hlib hs.2

/-- A block is freed between two of its echoes; the second one is dropped. -/
theorem freed_not_sent_run :
    let block : Block := ⟨1, .fileContents ⟨[7]⟩⟩
    let packet := (init 3 0).service.translate Protobuf.wire block
    Run.EveryStep (step Protobuf.wire) (SendsNoFreed Protobuf.wire) (init 3 0)
      [.register block, .arrive packet, .free 1, .arrive packet, .register ⟨2, .link ⟨[]⟩⟩] :=
  freed_not_sent Protobuf.wire_sound 3 0 _ (by decide)

/-- A block is registered twice and freed. The first echo is dropped, and with it goes the id;
the second is sent again. -/
theorem freed_sent_of_two_copies :
    ¬ ∀ lib : Protobuf, lib.Sound → ∀ (fsId id : UInt16) (es : List Event),
      Run.EveryStep (step lib) Arrives (init fsId id) es →
      Run.EveryStep (step lib) (SendsNoFreed lib) (init fsId id) es := by
  intro h
  let block : Block := ⟨1, .fileContents ⟨[7]⟩⟩
  let packet := (init 3 0).service.translate Protobuf.wire block
  have hrun := h Protobuf.wire Protobuf.wire_sound 3 0
    [.register block, .register block, .free 1, .arrive packet, .arrive packet] (by decide)
  exact absurd hrun (by decide)

include hlib in
/-- **Two copies are one too many.** If a block is freed while two of its packets are in flight
and both come back, the second is sent again. -/
theorem resent_of_two_copies {n : PingNetwork} {block : Block}
    (htwo : {n.service.translate lib block, n.service.translate lib block} ≤ n.inFlight) :
    let packet := n.service.translate lib block
    let m := n.run lib [.free block.id, .arrive packet]
    packet ∈ m.inFlight ∧ block.id ∈ m.freed ∧ m.sent lib (.arrive packet) = [packet] := by
  intro packet m
  have hfreed : block.id ∈ (n.step lib (.free block.id)).service.freedIds :=
    Finset.mem_insert_self _ _
  have hm : m = (n.step lib (.free block.id)).dropped lib block :=
    step_arrive_freed hlib hfreed
  have hlive : block.id ∉ m.service.freedIds := by
    rw [hm]
    exact Finset.notMem_erase _ _
  have hin : packet ∈ m.inFlight := by
    rw [hm]
    have hcons : packet ::ₘ {packet} ≤ n.inFlight := htwo
    have herase := Multiset.erase_le_erase packet hcons
    rw [Multiset.erase_cons_head] at herase
    exact Multiset.singleton_le.mp herase
  have htranslate : m.service.translate lib = n.service.translate lib := by
    rw [hm]
    rfl
  refine ⟨hin, ?_, ?_⟩
  · rw [hm]
    exact Finset.mem_insert_self _ _
  · have hsent := sent_arrive_live hlib hlive
    rwa [htranslate] at hsent

end PingNetwork

end Pingfs
