import Pingfs.Ping.PingNetwork
import Pingfs.Block.IdSupplier
import Mathlib.Algebra.Order.Group.Multiset

/-!
# Copies of a block

A block may be in flight more than once, and a packet may be lost. `LossyNetwork` is `PingNetwork`
with a record of what became of the packets that are no longer in flight: some were lost, and some
were discarded, when their echoes came back after the block was freed.

`DuplicatePingBlockManager::create_block` sends every block twice, the second time from a thread
that sleeps first. This makes a block outlive the loss of either packet, and it makes it outlive
`free_block` too, which one echo uses up.

Sources: `ping_block_service.cc`, `track_freed_service.cc`, `duplicate_ping_block_manager.cc`,
`counter_supplier.cc`.

## Main results

* `LossyNetwork.copies` — what was sent is in flight, lost or discarded
* `DuplicatePingBlockManager.two_copies` — and of each block that was created it is two packets
-/

namespace Pingfs

/-- A service and its packets. -/
structure LossyNetwork where
  network : PingNetwork
  /-- The ids `free_block` was called with, each as often as it was. -/
  freeCalls : Multiset BlockId
  lost : Multiset EchoRequest
  /-- The packets that came back and were not sent again. -/
  discarded : Multiset EchoRequest
  deriving DecidableEq

namespace LossyNetwork

/-- A step of the service, or the loss of a packet. -/
inductive Event where
  | register (block : Block)
  | free (id : BlockId)
  | arrive (packet : EchoRequest)
  | lose (packet : EchoRequest)
  deriving DecidableEq

/-- A service that has sent nothing. -/
def init (fsId id : UInt16) : LossyNetwork := ⟨.init fsId id, 0, 0, 0⟩

variable (lib : Protobuf)

/-- One step. -/
def step (c : LossyNetwork) : Event → LossyNetwork
  | .register block => { c with network := c.network.step lib (.register block) }
  | .free id =>
    { c with network := c.network.step lib (.free id), freeCalls := c.freeCalls + {id} }
  | .arrive packet =>
    { c with
      network := c.network.step lib (.arrive packet)
      discarded :=
        if c.network.sent lib (.arrive packet) = [] then c.discarded + {packet} else c.discarded }
  | .lose packet =>
    { c with
      network := { c.network with inFlight := c.network.inFlight.erase packet }
      lost := c.lost + {packet} }

/-- Only what is in flight arrives or is lost. -/
def Allowed (c : LossyNetwork) : Event → Prop
  | .register _ => True
  | .free _ => True
  | .arrive packet => packet ∈ c.network.inFlight
  | .lose packet => packet ∈ c.network.inFlight

instance (c : LossyNetwork) : (e : Event) → Decidable (c.Allowed e)
  | .register _ => .isTrue trivial
  | .free _ => .isTrue trivial
  | .arrive _ => inferInstanceAs (Decidable (_ ∈ _))
  | .lose _ => inferInstanceAs (Decidable (_ ∈ _))

/-- How many of some packets carry a block with the id `id`. -/
def copiesIn (id : BlockId) (packets : Multiset EchoRequest) : ℕ :=
  packets.countP fun packet => PingNetwork.carries lib id packet

/-- How often a block with the id `id` was sent. -/
def registrations (c : LossyNetwork) (id : BlockId) : ℕ :=
  c.network.registered.countP fun block => block.id = id

/-- The id is in `freed_ids_`. -/
def waiting (c : LossyNetwork) (id : BlockId) : ℕ :=
  if id ∈ c.network.service.freedIds then 1 else 0

/-- What was sent is in flight, lost or discarded, and each packet that was discarded used up a call
of `free_block`. -/
structure Balanced (c : LossyNetwork) : Prop where
  packets : c.network.inFlight + c.lost + c.discarded =
    (c.network.registered.map (c.network.service.translate lib) : List EchoRequest)
  discarded_le : ∀ id, copiesIn lib id c.discarded + c.waiting id ≤ c.freeCalls.count id

variable {lib}

theorem copiesIn_add (id : BlockId) (packets more : Multiset EchoRequest) :
    copiesIn lib id (packets + more) = copiesIn lib id packets + copiesIn lib id more :=
  Multiset.countP_add ..

theorem copiesIn_carriers (n : PingNetwork) (id : BlockId) :
    copiesIn lib id n.inFlight = (n.carriers lib id).card :=
  Multiset.countP_eq_card_filter _ _

theorem copiesIn_singleton (id : BlockId) (packet : EchoRequest) :
    copiesIn lib id {packet} = if PingNetwork.carries lib id packet then 1 else 0 := by
  rw [copiesIn, ← Multiset.cons_zero, Multiset.countP_cons, Multiset.countP_zero, Nat.zero_add]

theorem erase_add_singleton {packets : Multiset EchoRequest} {packet : EchoRequest}
    (hin : packet ∈ packets) : packets.erase packet + {packet} = packets := by
  rw [Multiset.add_comm, Multiset.singleton_add, Multiset.cons_erase hin]

theorem waiting_le (c : LossyNetwork) (id : BlockId) : c.waiting id ≤ 1 := by
  rw [waiting]
  split_ifs
  · exact Nat.le_refl 1
  · exact Nat.zero_le 1

variable (hlib : lib.Sound) {c : LossyNetwork}

include hlib in
theorem copiesIn_translate (s : TrackFreedService) (block : Block) (id : BlockId) :
    copiesIn lib id {s.translate lib block} = if block.id = id then 1 else 0 := by
  rw [copiesIn_singleton, PingNetwork.carries_translate hlib]
  simp only [beq_iff_eq]

include hlib in
theorem copiesIn_map_translate (s : TrackFreedService) (blocks : List Block) (id : BlockId) :
    copiesIn lib id (blocks.map (s.translate lib) : List EchoRequest) =
      blocks.countP fun block => block.id = id := by
  rw [copiesIn, Multiset.coe_countP, List.countP_map]
  refine List.countP_congr fun block _ => ?_
  simp [PingNetwork.carries_translate hlib]

namespace Balanced

theorem init (fsId id : UInt16) : Balanced lib (LossyNetwork.init fsId id) := by
  refine ⟨rfl, fun id => ?_⟩
  simp [LossyNetwork.init, PingNetwork.init, copiesIn, waiting]

theorem register (h : Balanced lib c) (block : Block) :
    Balanced lib (c.step lib (.register block)) := by
  refine ⟨?_, h.discarded_le⟩
  have hpackets := h.packets
  show c.network.inFlight + ({c.network.service.translate lib block} : Multiset EchoRequest) +
    c.lost + c.discarded =
      ((block :: c.network.registered).map (c.network.service.translate lib) : List EchoRequest)
  rw [List.map_cons, ← Multiset.cons_coe, ← hpackets, ← Multiset.singleton_add]
  ac_rfl

theorem free (h : Balanced lib c) (id : BlockId) : Balanced lib (c.step lib (.free id)) := by
  refine ⟨h.packets, fun id' => ?_⟩
  have hle := h.discarded_le id'
  by_cases hid : id' = id
  · subst hid
    have hcount : (c.step lib (.free id')).freeCalls.count id' = c.freeCalls.count id' + 1 := by
      simp [step]
    have hone := (c.step lib (.free id')).waiting_le id'
    show copiesIn lib id' c.discarded + _ ≤ _
    omega
  · have hsame : (c.step lib (.free id)).waiting id' = c.waiting id' := by
      simp [step, waiting, PingNetwork.step, TrackFreedService.freeBlock, hid]
    rw [hsame]
    simpa [step, hid] using hle

/-- A packet in flight is that of a registered block. -/
theorem of_mem (h : Balanced lib c) {packet : EchoRequest} (hin : packet ∈ c.network.inFlight) :
    ∃ block ∈ c.network.registered, packet = c.network.service.translate lib block := by
  have hmem : packet ∈ c.network.inFlight + c.lost + c.discarded :=
    Multiset.mem_add.mpr (Or.inl (Multiset.mem_add.mpr (Or.inl hin)))
  rw [h.packets] at hmem
  obtain ⟨block, hreg, rfl⟩ := List.mem_map.mp hmem
  exact ⟨block, hreg, rfl⟩

include hlib in
theorem arrive (h : Balanced lib c) {packet : EchoRequest} (hin : packet ∈ c.network.inFlight) :
    Balanced lib (c.step lib (.arrive packet)) := by
  obtain ⟨block, -, rfl⟩ := h.of_mem hin
  by_cases hfreed : block.id ∈ c.network.service.freedIds
  · have hstep : c.step lib (.arrive (c.network.service.translate lib block)) =
        { c with
          network := c.network.dropped lib block
          discarded := c.discarded + {c.network.service.translate lib block} } := by
      rw [step, PingNetwork.step_arrive_freed hlib hfreed,
        PingNetwork.sent_arrive_freed hlib hfreed, if_pos rfl]
    rw [hstep]
    refine ⟨?_, fun id => ?_⟩
    · show c.network.inFlight.erase (c.network.service.translate lib block) + c.lost +
        (c.discarded + {c.network.service.translate lib block}) = _
      refine Eq.trans ?_ h.packets
      conv_rhs => rw [← erase_add_singleton hin]
      ac_rfl
    -- the call that `block` was freed with is used up
    · have hle := h.discarded_le id
      rw [copiesIn_add, copiesIn_translate hlib]
      by_cases hid : block.id = id
      · subst hid
        simp only [waiting, PingNetwork.dropped, hfreed, if_true, Finset.notMem_erase, if_false]
          at hle ⊢
        exact hle
      · have hsame : (if id ∈ c.network.service.freedIds.erase block.id then 1 else 0) =
            c.waiting id := by
          simp [waiting, Ne.symm hid]
        rw [if_neg hid]
        show copiesIn lib id c.discarded + 0 +
          (if id ∈ c.network.service.freedIds.erase block.id then 1 else 0) ≤ _
        rw [hsame]
        exact hle
  · have hstep : c.step lib (.arrive (c.network.service.translate lib block)) = c := by
      rw [step, PingNetwork.step_arrive_live hlib hin hfreed,
        PingNetwork.sent_arrive_live hlib hfreed, if_neg (List.cons_ne_nil _ _)]
    rw [hstep]
    exact h

theorem lose (h : Balanced lib c) {packet : EchoRequest} (hin : packet ∈ c.network.inFlight) :
    Balanced lib (c.step lib (.lose packet)) := by
  refine ⟨?_, h.discarded_le⟩
  refine Eq.trans ?_ h.packets
  conv_rhs => rw [← erase_add_singleton hin]
  show c.network.inFlight.erase packet + (c.lost + {packet}) + c.discarded = _
  ac_rfl

include hlib in
/-- **One step keeps the balance.** -/
theorem step (h : Balanced lib c) {e : Event} (he : c.Allowed e) : Balanced lib (c.step lib e) := by
  cases e with
  | register block => exact h.register block
  | free id => exact h.free id
  | arrive packet => exact h.arrive hlib he
  | lose packet => exact h.lose he

include hlib in
theorem run (h : Balanced lib c) {es : List Event}
    (hes : Run.EveryStep (LossyNetwork.step lib) Allowed c es) :
    Balanced lib (es.foldl (LossyNetwork.step lib) c) :=
  hes.invariant h fun _ _ h he => h.step hlib he

include hlib in
/-- The copies of a block. -/
theorem card_carriers (h : Balanced lib c) (id : BlockId) :
    (c.network.carriers lib id).card + copiesIn lib id c.lost + copiesIn lib id c.discarded =
        c.registrations id ∧
      copiesIn lib id c.discarded ≤ c.freeCalls.count id := by
  refine ⟨?_, (Nat.le_add_right _ _).trans (h.discarded_le id)⟩
  rw [← copiesIn_carriers, ← copiesIn_add, ← copiesIn_add, h.packets, copiesIn_map_translate hlib]
  rfl

end Balanced

/-! ### What the record says of the run -/

/-- The step sends a block with the id `id` for another time. -/
def Event.registers (id : BlockId) : Event → Bool
  | .register block => block.id == id
  | _ => false

/-- The step loses a packet that carries a block with the id `id`. -/
def Event.loses (lib : Protobuf) (id : BlockId) : Event → Bool
  | .lose packet => PingNetwork.carries lib id packet
  | _ => false

theorem registrations_run (c : LossyNetwork) (es : List Event) (id : BlockId) :
    (es.foldl (step lib) c).registrations id = c.registrations id + es.countP (·.registers id) := by
  refine Run.foldl_countP (f := fun c => c.registrations id) (fun c e => ?_) c es
  cases e with
  | register block =>
    simp only [registrations, step, PingNetwork.step, List.countP_cons, Event.registers,
      decide_eq_true_eq, beq_iff_eq]
  | free id' => rfl
  | arrive packet => rfl
  | lose packet => rfl

theorem copiesIn_lost_run (c : LossyNetwork) (es : List Event) (id : BlockId) :
    copiesIn lib id (es.foldl (step lib) c).lost =
      copiesIn lib id c.lost + es.countP (·.loses lib id) := by
  refine Run.foldl_countP (f := fun c => copiesIn lib id c.lost) (fun c e => ?_) c es
  cases e with
  | lose packet => exact (copiesIn_add ..).trans (congrArg _ (copiesIn_singleton ..))
  | register block => rfl
  | free id' => rfl
  | arrive packet => rfl

theorem freeCalls_run (c : LossyNetwork) (es : List Event) (id : BlockId) :
    (es.foldl (step lib) c).freeCalls.count id = c.freeCalls.count id + es.count (.free id) := by
  refine Run.foldl_countP (f := fun c => c.freeCalls.count id) (fun c e => ?_) c es
  cases e with
  | free id' =>
    by_cases hid : id' = id
    · simp [step, hid]
    · simp [step, hid, Ne.symm hid]
  | register block => rfl
  | arrive packet => rfl
  | lose packet => rfl

include hlib in
/-- **The copies of a block.** After any run, whatever is sent more than once, freed, or lost on the
way, a block is in flight as often as it was sent, less the packets of it that were lost and those
that were discarded; and no more are discarded than `free_block` was called for it. -/
theorem copies (fsId id : UInt16) (es : List Event)
    (h : Run.EveryStep (step lib) Allowed (init fsId id) es) (blockId : BlockId) :
    ∃ discarded ≤ es.count (.free blockId),
      ((es.foldl (step lib) (init fsId id)).network.carriers lib blockId).card +
        es.countP (·.loses lib blockId) + discarded = es.countP (·.registers blockId) := by
  let c := es.foldl (step lib) (init fsId id)
  have hstart : Balanced lib (init fsId id) := .init fsId id
  obtain ⟨hpackets, hdiscarded⟩ := (hstart.run hlib h).card_carriers hlib blockId
  have hregistered : c.registrations blockId = es.countP (·.registers blockId) :=
    (registrations_run (init fsId id) es blockId).trans (Nat.zero_add _)
  have hlost : copiesIn lib blockId c.lost = es.countP (·.loses lib blockId) :=
    (copiesIn_lost_run (init fsId id) es blockId).trans (Nat.zero_add _)
  have hfreed : c.freeCalls.count blockId = es.count (.free blockId) :=
    (freeCalls_run (init fsId id) es blockId).trans (Nat.zero_add _)
  refine ⟨copiesIn lib blockId c.discarded, ?_, ?_⟩
  · rw [← hfreed]
    exact hdiscarded
  · rw [← hlost, ← hregistered]
    exact hpackets

end LossyNetwork

/-! ## Blocks that are sent twice -/

/-- `class DuplicatePingBlockManager`, its service and packets. -/
structure DuplicatePingBlockManager where
  /-- The id supplier of the block manager. -/
  idSupplier : CounterSupplier
  /-- What the threads of `delayed_send` have still to send. -/
  toSend : Multiset Block
  network : LossyNetwork
  /-- What `create_block` has returned. -/
  created : List Block
  deriving DecidableEq

namespace DuplicatePingBlockManager

/-- A step of the block manager, of one of its threads, of the service or of the network. -/
inductive Event where
  | createBlock (data : BlockData)
  | delayedSend (block : Block)
  | freeBlock (id : BlockId)
  | arrive (packet : EchoRequest)
  | lose (packet : EchoRequest)
  deriving DecidableEq

/-- A block manager that has created nothing. -/
def new (fsId id : UInt16) : DuplicatePingBlockManager := ⟨.new, 0, .init fsId id, []⟩

variable (lib : Protobuf)

/-- One step. `create_block` sends nothing if it gets no id. -/
def step (m : DuplicatePingBlockManager) : Event → DuplicatePingBlockManager
  | .createBlock data =>
    match m.idSupplier.nextId with
    | .error _ => m
    | .ok (id, idSupplier) =>
      { idSupplier
        toSend := m.toSend + {⟨id, data⟩}
        network := m.network.step lib (.register ⟨id, data⟩)
        created := ⟨id, data⟩ :: m.created }
  | .delayedSend block =>
    { m with
      toSend := m.toSend.erase block
      network := m.network.step lib (.register block) }
  | .freeBlock id => { m with network := m.network.step lib (.free id) }
  | .arrive packet => { m with network := m.network.step lib (.arrive packet) }
  | .lose packet => { m with network := m.network.step lib (.lose packet) }

/-- A thread sends its own block, and only what is in flight arrives or is lost. -/
def Allowed (m : DuplicatePingBlockManager) : Event → Prop
  | .createBlock _ => True
  | .delayedSend block => block ∈ m.toSend
  | .freeBlock _ => True
  | .arrive packet => packet ∈ m.network.network.inFlight
  | .lose packet => packet ∈ m.network.network.inFlight

instance (m : DuplicatePingBlockManager) : (e : Event) → Decidable (m.Allowed e)
  | .createBlock _ => .isTrue trivial
  | .delayedSend _ => inferInstanceAs (Decidable (_ ∈ _))
  | .freeBlock _ => .isTrue trivial
  | .arrive _ => inferInstanceAs (Decidable (_ ∈ _))
  | .lose _ => inferInstanceAs (Decidable (_ ∈ _))

/-- Each block that was created has its own id, and was sent or will be, twice in all. -/
structure Twice (m : DuplicatePingBlockManager) : Prop where
  balanced : LossyNetwork.Balanced lib m.network
  nodup : (m.created.map (·.id)).Nodup
  lt_next : m.idSupplier.next ≠ 0 → ∀ b ∈ m.created, b.id < m.idSupplier.next
  sent : (m.network.network.registered : Multiset Block) + m.toSend = m.created + m.created

variable {lib} (hlib : lib.Sound) {m : DuplicatePingBlockManager}

theorem lt_add_one_of_ne_zero {id : BlockId} (h : id + 1 ≠ 0) : id < id + 1 := by
  have hne : (id + 1).toNat ≠ 0 := fun hzero => h (UInt64.toNat_inj.mp hzero)
  have hlt : UInt64.toNat id < 2 ^ 64 := UInt64.toNat_lt id
  rw [UInt64.toNat_add, UInt64.toNat_one] at hne
  rw [UInt64.lt_iff_toNat_lt, UInt64.toNat_add, UInt64.toNat_one]
  omega

namespace Twice

theorem new (fsId id : UInt16) : Twice lib (.new fsId id) :=
  ⟨.init fsId id, List.nodup_nil, fun _ _ hb => absurd hb List.not_mem_nil, rfl⟩

theorem createBlock (h : Twice lib m) (data : BlockData) :
    Twice lib (m.step lib (.createBlock data)) := by
  rw [DuplicatePingBlockManager.step, CounterSupplier.nextId]
  by_cases hnext : m.idSupplier.next = 0
  · rw [if_pos hnext]
    exact h
  · rw [if_neg hnext]
    refine ⟨h.balanced.register _, ?_, fun hmore b hb => ?_, ?_⟩
    · refine List.nodup_cons.mpr ⟨fun hin => ?_, h.nodup⟩
      obtain ⟨b, hb, hid⟩ := List.mem_map.mp hin
      exact UInt64.ne_of_lt (h.lt_next hnext b hb) hid
    · have hup : m.idSupplier.next < m.idSupplier.next + 1 := lt_add_one_of_ne_zero hmore
      rcases List.mem_cons.mp hb with rfl | hb
      · exact hup
      · exact UInt64.lt_trans (h.lt_next hnext b hb) hup
    · have hsent := h.sent
      show ((⟨m.idSupplier.next, data⟩ :: m.network.network.registered : List Block) :
          Multiset Block) + (m.toSend + {⟨m.idSupplier.next, data⟩}) =
        (⟨m.idSupplier.next, data⟩ :: m.created : List Block) +
          (⟨m.idSupplier.next, data⟩ :: m.created : List Block)
      rw [← Multiset.cons_coe, ← Multiset.cons_coe, ← Multiset.singleton_add,
        ← Multiset.singleton_add]
      calc ({⟨m.idSupplier.next, data⟩} : Multiset Block) + m.network.network.registered +
            (m.toSend + {⟨m.idSupplier.next, data⟩})
          = {⟨m.idSupplier.next, data⟩} + {⟨m.idSupplier.next, data⟩} +
            (m.network.network.registered + m.toSend) := by ac_rfl
        _ = {⟨m.idSupplier.next, data⟩} + m.created +
            ({⟨m.idSupplier.next, data⟩} + m.created) := by
          rw [hsent]
          ac_rfl

theorem delayedSend (h : Twice lib m) {block : Block} (hin : block ∈ m.toSend) :
    Twice lib (m.step lib (.delayedSend block)) := by
  refine ⟨h.balanced.register block, h.nodup, h.lt_next, ?_⟩
  show ((block :: m.network.network.registered : List Block) : Multiset Block) +
    m.toSend.erase block = m.created + m.created
  rw [← h.sent, ← Multiset.cons_coe, ← Multiset.singleton_add]
  conv_rhs => rw [← Multiset.cons_erase hin, ← Multiset.singleton_add]
  ac_rfl

include hlib in
/-- **One step.** -/
theorem step (h : Twice lib m) {e : Event} (he : m.Allowed e) : Twice lib (m.step lib e) := by
  cases e with
  | createBlock data => exact h.createBlock data
  | delayedSend block => exact h.delayedSend he
  | freeBlock id => exact ⟨h.balanced.free id, h.nodup, h.lt_next, h.sent⟩
  | arrive packet => exact ⟨h.balanced.arrive hlib he, h.nodup, h.lt_next, h.sent⟩
  | lose packet => exact ⟨h.balanced.lose he, h.nodup, h.lt_next, h.sent⟩

/-- A block that was created was sent, or will be, twice in all. -/
theorem registrations_add (h : Twice lib m) {block : Block} (hblock : block ∈ m.created) :
    m.network.registrations block.id + m.toSend.count block = 2 := by
  have hone : m.created.countP (fun b => b.id = block.id) = 1 := by
    have hcount : m.created.countP (fun b => b.id = block.id) =
        (m.created.map (·.id)).count block.id := by
      rw [List.count, List.countP_map]
      exact List.countP_congr fun b _ => by simp
    rw [hcount, List.count_eq_one_of_mem h.nodup (List.mem_map_of_mem hblock)]
  have hsame : m.toSend.countP (fun b => b.id = block.id) = m.toSend.count block := by
    refine Multiset.countP_congr rfl fun b hb => ?_
    have hmem : b ∈ (m.created : Multiset Block) + m.created := by
      rw [← h.sent]
      exact Multiset.mem_add.mpr (Or.inr hb)
    have hcreated : b ∈ m.created := by simpa using hmem
    refine propext ⟨fun hid => (List.inj_on_of_nodup_map h.nodup hcreated hblock hid).symm, ?_⟩
    rintro rfl
    rfl
  have hsent := congrArg (Multiset.countP fun b : Block => b.id = block.id) h.sent
  rw [Multiset.countP_add, Multiset.countP_add, Multiset.coe_countP, Multiset.coe_countP, hone,
    hsame] at hsent
  exact hsent

include hlib in
theorem run (h : Twice lib m) {es : List Event}
    (hes : Run.EveryStep (DuplicatePingBlockManager.step lib) Allowed m es) :
    Twice lib (es.foldl (DuplicatePingBlockManager.step lib) m) :=
  hes.invariant h fun _ _ h he => h.step hlib he

end Twice

include hlib in
/-- **Two packets for each block.** After any run, in whatever order blocks are created, sent for
the second time, freed, echoed and lost, the two packets of a block that was created are in flight,
to be sent, lost or discarded, and no more of them are discarded than `free_block` was called for
it. So it takes two losses, two calls or one of each until a block is neither in flight nor to be
sent: it outlives the loss of one packet, and it outlives being freed. -/
theorem two_copies (fsId id : UInt16) (es : List Event)
    (h : Run.EveryStep (step lib) Allowed (new fsId id) es) (block : Block)
    (hblock : block ∈ (es.foldl (step lib) (new fsId id)).created) :
    let m := es.foldl (step lib) (new fsId id)
    let inFlight := (m.network.network.carriers lib block.id).card
    let lost := LossyNetwork.copiesIn lib block.id m.network.lost
    let freed := m.network.freeCalls.count block.id
    (∃ discarded ≤ freed, inFlight + m.toSend.count block + lost + discarded = 2) ∧
      (inFlight = 0 → block ∉ m.toSend → 2 ≤ lost + freed) := by
  intro m inFlight lost freed
  have hm : Twice lib m := (Twice.new fsId id).run hlib h
  obtain ⟨hpackets, hdiscarded⟩ := hm.balanced.card_carriers hlib block.id
  have htwice := hm.registrations_add hblock
  rw [← hpackets] at htwice
  refine ⟨⟨_, hdiscarded, ?_⟩, fun hnone hsent => ?_⟩
  · show (m.network.network.carriers lib block.id).card + m.toSend.count block +
      LossyNetwork.copiesIn lib block.id m.network.lost +
        LossyNetwork.copiesIn lib block.id m.network.discarded = 2
    omega
  · have hzero : m.toSend.count block = 0 := Multiset.count_eq_zero.mpr hsent
    show 2 ≤ LossyNetwork.copiesIn lib block.id m.network.lost +
      m.network.freeCalls.count block.id
    have hnone' : (m.network.network.carriers lib block.id).card = 0 := hnone
    omega

/-- The first packet is lost, the second one sent and freed. -/
theorem two_copies_lost :
    let block : Block := ⟨1, .fileContents ⟨[7]⟩⟩
    let packet := (new 3 0).network.network.service.translate Protobuf.wire block
    let m := [.createBlock (.fileContents ⟨[7]⟩), .lose packet, .delayedSend block, .freeBlock 1,
      .arrive packet].foldl (step Protobuf.wire) (new 3 0)
    let inFlight := (m.network.network.carriers Protobuf.wire 1).card
    let lost := LossyNetwork.copiesIn Protobuf.wire 1 m.network.lost
    let freed := m.network.freeCalls.count 1
    (∃ discarded ≤ freed, inFlight + m.toSend.count block + lost + discarded = 2) ∧
      (inFlight = 0 → block ∉ m.toSend → 2 ≤ lost + freed) :=
  two_copies Protobuf.wire_sound 3 0 _ (by decide) ⟨1, .fileContents ⟨[7]⟩⟩ (by decide)

end DuplicatePingBlockManager

end Pingfs
