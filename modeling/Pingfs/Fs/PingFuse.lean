import Pingfs.Block.PendingRequests
import Pingfs.Fs.Hosting
import Pingfs.Ping.PingNetwork

/-!
# The file system in pings

`BlockFuse` over a `PingBlockManager`: a block that is created is sent, and from then on bounces
between the service and its remote host; one that is freed is dropped when it next comes back; and
`get_blocks` waits until all the blocks it asks for have come by. Nothing is stored anywhere but in
the packets. What comes back during each call is a parameter of the state.

`view` is the file system in memory that this amounts to: what was registered and not freed. While
the blocks of each request come by in the order of the request, every run over pings gives what it
gives there, and no operation ever waits for a block that is not in flight.

Sources: `ping_block_manager.cc`, `async_block_manager.cc`, `track_freed_service.cc`,
`block_fuse.cc`.

## Main results

* `PingFuse.Viewed.handler_alike` — one call, over pings and in memory
* `PingFuse.Represents.run_refines` — a whole run gives what the namespace gives
* `PingFuse.asks_for_blocks_in_flight` — what is asked for is on its way
* `PingFuse.only_the_tree_in_flight` — and nothing is on its way that is not needed
-/

namespace Pingfs

open FsM BlockUtil

/-- A file system over pings. -/
structure PingFuse where
  /-- The id supplier of the block manager. -/
  idSupplier : CounterSupplier
  network : PingNetwork
  asyncBlockManager : AsyncBlockManager
  rootBlock : Block
  /-- The packets that come back during each of the next calls to the block manager. -/
  echoes : List (List EchoRequest)

namespace PingFuse

variable (lib : Protobuf)

/-- `PingBlockService::process` for the echo of a packet. The block manager is its subscriber. -/
def arrive (s : PingFuse) (packet : EchoRequest) : PingFuse :=
  { s with
    network := s.network.step lib (.arrive packet)
    asyncBlockManager :=
      match s.network.service.process lib packet.echo with
      | .ok ⟨_, some block, _⟩ => s.asyncBlockManager.process block
      | _ => s.asyncBlockManager }

/-- What comes back during a call. -/
def settle (s : PingFuse) : PingFuse :=
  (s.echoes.headD []).foldl (arrive lib) { s with echoes := s.echoes.tail }

/-- `PingBlockManager::create_block`, when it has got an id. -/
def register (s : PingFuse) (idSupplier : CounterSupplier) (block : Block) : PingFuse :=
  { s with idSupplier, network := s.network.step lib (.register block) }

/-- `PingBlockManager::free_block`. -/
def free (s : PingFuse) (id : BlockId) : PingFuse :=
  { s with network := s.network.step lib (.free id) }

/-- `AsyncBlockManager::get_blocks` up to the wait on the future. -/
def request (s : PingFuse) (ids : List BlockId) : PingFuse :=
  { s with asyncBlockManager := s.asyncBlockManager.register ids }

/-- The value of the future that the last request waits on, if it is set. -/
def future (before after : PingFuse) : Option (List Block) :=
  after.asyncBlockManager.responses[before.asyncBlockManager.responses.length]? >>=
    AsyncResponse.future

/-- How the calls act on the state. -/
def handler : Program.Handler FsCall FsCall.Reply Halt PingFuse
  | .createBlock data, s =>
    match s.idSupplier.nextId with
    | .error what => .halted (.threw what) s
    | .ok (id, idSupplier) =>
      .returned ⟨id, data⟩ ((s.register lib idSupplier ⟨id, data⟩).settle lib)
  | .managerFreeBlock id, s => .returned () ((s.free lib id).settle lib)
  | .getBlocks ids, s =>
    match s.future ((s.request ids).settle lib) with
    | some blocks => .returned (blocks.map some) ((s.request ids).settle lib)
    -- it waits for ever
    | none => .halted .diverged ((s.request ids).settle lib)
  | .getRootBlock, s => .returned s.rootBlock s
  | .setRootBlock newRoot, s => .returned () { s with rootBlock := newRoot }
  | .freeBlock id, s => .returned () ((s.free lib id).settle lib)

/-! ## The view in memory -/

/-- The block with an id that was registered and not freed. -/
def stored (n : PingNetwork) (id : BlockId) : Option (Option Block) :=
  if id ∈ n.freed then none else (n.registered.find? fun b => b.id = id).map some

/-- The file system in memory with the same blocks. -/
def view (s : PingFuse) : BlockFuse := ⟨⟨s.idSupplier, stored s.network⟩, s.rootBlock⟩

/-- The packets in flight are those of the blocks, each under an id that was handed out. -/
structure Inv (s : PingFuse) : Prop where
  conserved : PingNetwork.Conserved lib s.network
  le_idsUsed : ∀ b ∈ s.network.registered, b.id.toNat ≤ s.view.idsUsed

variable {lib} {s : PingFuse} (hlib : lib.Sound)

theorem find_of_mem {blocks : List Block} (hnodup : (blocks.map (·.id)).Nodup) {b : Block}
    (hb : b ∈ blocks) : blocks.find? (fun c => c.id = b.id) = some b := by
  cases hf : blocks.find? fun c => c.id = b.id with
  | none => simpa using List.find?_eq_none.mp hf b hb
  | some c =>
    have hid : c.id = b.id := by simpa using List.find?_some hf
    rw [List.inj_on_of_nodup_map hnodup (List.mem_of_find?_eq_some hf) hb hid]

theorem stored_of_mem {n : PingNetwork} (h : PingNetwork.Conserved lib n) {b : Block}
    (hb : b ∈ n.registered) (hlive : b.id ∉ n.freed) : stored n b.id = some (some b) := by
  rw [stored, if_neg hlive, find_of_mem h.nodup hb]
  rfl

theorem exists_of_isSome_find {blocks : List Block} {id : BlockId} {p : Prop} [Decidable p]
    (h : (if p then none else (blocks.find? fun b => b.id = id).map some).isSome) :
    ¬ p ∧ ∃ b ∈ blocks, b.id = id := by
  split at h
  · cases h
  case isFalse hlive =>
    rw [Option.isSome_map] at h
    obtain ⟨b, hb⟩ := Option.isSome_iff_exists.mp h
    exact ⟨hlive, b, List.mem_of_find?_eq_some hb, by simpa using List.find?_some hb⟩

theorem exists_of_isSome {n : PingNetwork} {id : BlockId} (h : (stored n id).isSome) :
    id ∉ n.freed ∧ ∃ b ∈ n.registered, b.id = id := exists_of_isSome_find h

/-! ## What a call changes -/

theorem stored_free (n : PingNetwork) (id : BlockId) :
    stored (n.step lib (.free id)) = Function.update (stored n) id none := by
  funext i
  by_cases hi : i = id
  · simp [stored, PingNetwork.step, hi]
  · simp [stored, PingNetwork.step, hi]

theorem stored_register {n : PingNetwork} {block : Block} (hlive : block.id ∉ n.freed) :
    stored (n.step lib (.register block)) =
      Function.update (stored n) block.id (some (some block)) := by
  funext i
  by_cases hi : i = block.id
  · simp [stored, PingNetwork.step, hi, hlive]
  · simp [stored, PingNetwork.step, Function.update_of_ne hi, Ne.symm hi]

/-- An id that is handed out is new. -/
theorem Inv.notMem_registered (h : Inv lib s) {id : BlockId}
    (hnew : id.toNat = s.view.idsUsed + 1) : id ∉ s.network.registered.map (·.id) := by
  intro hmem
  obtain ⟨b, hb, hid⟩ := List.mem_map.mp hmem
  have hle := h.le_idsUsed b hb
  rw [hid] at hle
  omega

theorem Inv.view_register (h : Inv lib s) (data : BlockData) (hz : s.idSupplier.next ≠ 0) :
    Inv lib (s.register lib ⟨s.idSupplier.next + 1⟩ ⟨s.idSupplier.next, data⟩) ∧
      (s.register lib ⟨s.idSupplier.next + 1⟩ ⟨s.idSupplier.next, data⟩).view =
        s.view.withCreated data := by
  have hnext : s.idSupplier.next = .ofNat (s.view.idsUsed + 1) := BlockFuse.next_eq (s := s.view) hz
  have hids : s.view.idsUsed + 1 < 2 ^ 64 := by
    have hne := mt (BlockFuse.next_eq_zero_iff (s := s.view)).mpr hz
    have hlt := s.view.idsUsed_lt
    omega
  have htoNat : s.idSupplier.next.toNat = s.view.idsUsed + 1 := by
    rw [hnext, UInt64.toNat_ofNat_of_lt' hids]
  have hfresh : s.idSupplier.next ∉ s.network.registered.map (·.id) :=
    h.notMem_registered htoNat
  have hview : (s.register lib ⟨s.idSupplier.next + 1⟩ ⟨s.idSupplier.next, data⟩).view =
      s.view.withCreated data := by
    rw [view, register, stored_register fun hid => hfresh (h.conserved.freed_registered _ hid),
      BlockFuse.withCreated, ← hnext]
    rfl
  refine ⟨⟨h.conserved.register hfresh, fun b hb => ?_⟩, hview⟩
  rw [hview, BlockFuse.idsUsed_withCreated data hz]
  rcases List.mem_cons.mp hb with rfl | hb
  · exact htoNat.le
  · exact (h.le_idsUsed b hb).trans (Nat.le_succ _)

theorem Inv.view_free (h : Inv lib s) {id : BlockId} (hid : (stored s.network id).isSome) :
    Inv lib (s.free lib id) ∧ (s.free lib id).view = s.view.withFreed id := by
  obtain ⟨hlive, b, hb, rfl⟩ := exists_of_isSome hid
  refine ⟨⟨h.conserved.free (List.mem_map_of_mem hb) hlive, h.le_idsUsed⟩, ?_⟩
  rw [view, free, stored_free]
  rfl

/-! ## What comes back -/

/-- The packets come back one after the other, each while it is in flight. -/
def Arrive (lib : Protobuf) (n : PingNetwork) (packets : List EchoRequest) : Prop :=
  Run.EveryStep (fun n packet => n.step lib (.arrive packet)) (fun n packet => packet ∈ n.inFlight)
    n packets

instance (n : PingNetwork) (packets : List EchoRequest) : Decidable (Arrive lib n packets) :=
  inferInstanceAs (Decidable (Run.EveryStep _ _ _ _))

/-- A packet for each id comes back, the first one for an id before that for the next id. -/
def InOrder (lib : Protobuf) (ids : List BlockId) (packets : List EchoRequest) : Prop :=
  (∀ id ∈ ids, ∃ packet ∈ packets, PingNetwork.carries lib id packet = true) ∧
    ids.Pairwise fun i j => packets.findIdx (PingNetwork.carries lib i) <
      packets.findIdx (PingNetwork.carries lib j)

instance (ids : List BlockId) (packets : List EchoRequest) : Decidable (InOrder lib ids packets) :=
  haveI : Decidable (∀ id ∈ ids, ∃ packet ∈ packets, PingNetwork.carries lib id packet = true) :=
    List.decidableBAll _ _
  inferInstanceAs (Decidable (_ ∧ _))

@[simp] theorem view_arrive (s : PingFuse) (packet : EchoRequest) :
    (s.arrive lib packet).view = s.view := rfl

theorem view_foldl_arrive (s : PingFuse) (packets : List EchoRequest) :
    (packets.foldl (arrive lib) s).view = s.view := by
  induction packets generalizing s with
  | nil => rfl
  | cons packet packets ih => exact ih (s.arrive lib packet)

variable (lib) in
theorem arrive_iff (s : PingFuse) (packets : List EchoRequest) :
    Arrive lib s.network packets ↔
      Run.EveryStep (arrive lib) (fun s packet => packet ∈ s.network.inFlight) s packets :=
  Run.everyStep_part network (fun n packet => packet ∈ n.inFlight) (fun _ _ => rfl) s packets

theorem network_foldl_arrive (s : PingFuse) (packets : List EchoRequest) :
    (packets.foldl (arrive lib) s).network =
      packets.foldl (fun n packet => n.step lib (.arrive packet)) s.network := by
  induction packets generalizing s with
  | nil => rfl
  | cons packet packets ih => exact ih (s.arrive lib packet)

/-- What comes back does not change what is stored. -/
@[simp] theorem view_settle (s : PingFuse) : (s.settle lib).view = s.view := view_foldl_arrive ..

include hlib

theorem Inv.arrive (h : Inv lib s) {packet : EchoRequest} (hin : packet ∈ s.network.inFlight) :
    Inv lib (s.arrive lib packet) ∧ ∃ block ∈ s.network.registered,
      packet = s.network.service.translate lib block ∧
        (s.arrive lib packet).asyncBlockManager = s.asyncBlockManager.process block := by
  refine ⟨⟨h.conserved.arrive hlib hin, h.le_idsUsed⟩, ?_⟩
  obtain ⟨block, hreg, -, rfl⟩ := h.conserved.of_mem hin
  refine ⟨block, hreg, rfl, ?_⟩
  simp only [PingFuse.arrive, TrackFreedService.process_echo hlib]
  split_ifs <;> rfl

theorem Inv.foldl_arrive (h : Inv lib s) {packets : List EchoRequest}
    (hpackets : Arrive lib s.network packets) :
    Inv lib (packets.foldl (PingFuse.arrive lib) s) ∧
      ∃ blocks : List Block, (∀ b ∈ blocks, b ∈ s.network.registered) ∧
        packets = blocks.map (s.network.service.translate lib) ∧
          (packets.foldl (PingFuse.arrive lib) s).asyncBlockManager =
            blocks.foldl AsyncBlockManager.process s.asyncBlockManager := by
  induction packets generalizing s with
  | nil => exact ⟨h, [], by simp, rfl, rfl⟩
  | cons packet packets ih =>
    obtain ⟨hafter, block, hreg, rfl, hprocess⟩ := h.arrive hlib hpackets.1
    obtain ⟨hend, blocks, hblocks, rfl, hmanager⟩ := ih hafter hpackets.2
    have htranslate : (s.network.step lib (.arrive _)).service.translate lib =
        s.network.service.translate lib :=
      PingNetwork.translate_step s.network (.arrive (s.network.service.translate lib block))
    refine ⟨hend, block :: blocks, ?_, ?_, ?_⟩
    · exact List.forall_mem_cons.mpr ⟨hreg, hblocks⟩
    · rw [List.map_cons]
      exact congrArg (_ :: List.map · blocks) htranslate
    · rw [List.foldl_cons, List.foldl_cons, hmanager, hprocess]

/-- What comes back during a call changes no more than who has been answered. -/
theorem Inv.settle (h : Inv lib s) (hpackets : Arrive lib s.network (s.echoes.headD [])) :
    Inv lib (s.settle lib) ∧ ∃ blocks : List Block, (∀ b ∈ blocks, b ∈ s.network.registered) ∧
      s.echoes.headD [] = blocks.map (s.network.service.translate lib) ∧
        (s.settle lib).asyncBlockManager =
          blocks.foldl AsyncBlockManager.process s.asyncBlockManager := by
  have hskip : Inv lib { s with echoes := s.echoes.tail } := ⟨h.conserved, h.le_idsUsed⟩
  exact hskip.foldl_arrive hlib hpackets

/-- Of packets in the order of a request, there is one for each id. -/
theorem mem_ids_of_inOrder {service : TrackFreedService} {ids : List BlockId} {blocks : List Block}
    (horder : InOrder lib ids (blocks.map (service.translate lib))) :
    ∀ id ∈ ids, id ∈ blocks.map Block.id := by
  intro id hid
  obtain ⟨packet, hpacket, hcarried⟩ := horder.1 id hid
  obtain ⟨b, hb, rfl⟩ := List.mem_map.mp hpacket
  rw [PingNetwork.carries_translate hlib] at hcarried
  exact List.mem_map.mpr ⟨b, hb, eq_of_beq hcarried⟩

/-- Blocks that come by in the order of a request answer it. -/
theorem getBlocks_of_inOrder (m : AsyncBlockManager) (service : TrackFreedService)
    {ids : List BlockId} {blocks : List Block} {block : BlockId → Block}
    (hblock : ∀ b ∈ blocks, b.id ∈ ids → block b.id = b)
    (horder : InOrder lib ids (blocks.map (service.translate lib))) :
    m.getBlocks ids blocks = some (ids.map block) := by
  refine AsyncBlockManager.getBlocks_of_pairwise m hblock (mem_ids_of_inOrder hlib horder) ?_
  refine horder.2.imp fun {i j} hij => ?_
  simpa [AsyncBlockManager.firstArrival, List.idxOf, List.findIdx_map, Function.comp_def,
    PingNetwork.carries_translate hlib] using hij

/-- **A request is answered** with the blocks that are stored, if they come by in order. -/
theorem Inv.future_eq (h : Inv lib s) {ids : List BlockId}
    (hpackets : Arrive lib s.network (s.echoes.headD []))
    (horder : InOrder lib ids (s.echoes.headD [])) {block : BlockId → Block}
    (hstored : ∀ id ∈ ids, stored s.network id = some (some (block id))) :
    s.future ((s.request ids).settle lib) = some (ids.map block) := by
  have hasked : Inv lib (s.request ids) := ⟨h.conserved, h.le_idsUsed⟩
  obtain ⟨-, blocks, hblocks, htranslate, hmanager⟩ := hasked.settle hlib hpackets
  have hechoes : s.echoes.headD [] = blocks.map (s.network.service.translate lib) := htranslate
  rw [hechoes] at horder
  rw [future, hmanager]
  refine getBlocks_of_inOrder hlib s.asyncBlockManager _ (fun b hb hid => ?_) horder
  obtain ⟨hlive, -⟩ := exists_of_isSome (Option.isSome_iff_exists.mpr ⟨_, hstored b.id hid⟩)
  have hthis := stored_of_mem h.conserved (hblocks b hb) hlive
  rw [hstored b.id hid] at hthis
  exact Option.some.inj (Option.some.inj hthis)

/-! ## One call -/

omit hlib

variable (lib) in
/-- What comes back during a call was in flight, and what the call asks for comes back in the order
in which it is asked for. -/
def Served : FsCall → PingFuse → Prop
  | .createBlock data, s =>
    Arrive lib (s.network.step lib (.register ⟨s.idSupplier.next, data⟩)) (s.echoes.headD [])
  | .managerFreeBlock id, s | .freeBlock id, s =>
    Arrive lib (s.network.step lib (.free id)) (s.echoes.headD [])
  | .getBlocks ids, s =>
    Arrive lib s.network (s.echoes.headD []) ∧ InOrder lib ids (s.echoes.headD [])
  | .getRootBlock, _ | .setRootBlock _, _ => True

instance Served.decidable : (call : FsCall) → (s : PingFuse) → Decidable (Served lib call s)
  | .createBlock _, _ => inferInstanceAs (Decidable (Arrive ..))
  | .managerFreeBlock _, _ => inferInstanceAs (Decidable (Arrive ..))
  | .freeBlock _, _ => inferInstanceAs (Decidable (Arrive ..))
  | .getBlocks _, _ => inferInstanceAs (Decidable (_ ∧ _))
  | .getRootBlock, _ => inferInstanceAs (Decidable True)
  | .setRootBlock _, _ => inferInstanceAs (Decidable True)

variable (lib) in
/-- The state in memory is the view of the one over pings. -/
def Viewed (s : PingFuse) (s' : BlockFuse) : Prop := Inv lib s ∧ s.view = s'

include hlib

theorem Inv.viewed_free (h : Inv lib s) {id : BlockId} (hid : (stored s.network id).isSome)
    (hpackets : Arrive lib (s.free lib id).network (s.echoes.headD [])) :
    Viewed lib ((s.free lib id).settle lib) (s.view.withFreed id) := by
  obtain ⟨hfree, hview⟩ := h.view_free hid
  obtain ⟨hafter, -⟩ := hfree.settle hlib hpackets
  exact ⟨hafter, by rw [view_settle, hview]⟩

/-- **One call**, over pings and in memory. -/
theorem Viewed.handler_alike {s' : BlockFuse} (h : Viewed lib s s') (call : FsCall)
    (hserved : Served lib call s) (hmapped : BlockFuse.Mapped call s') :
    (handler lib call s).Alike (Viewed lib) (BlockFuse.handler false call s') := by
  obtain ⟨h, rfl⟩ := h
  have hfree : ∀ {id}, call.uses = [id] → (stored s.network id).isSome := by
    intro id huses
    exact hmapped id (by simp [huses])
  cases call with
  | createBlock data =>
    by_cases hz : s.idSupplier.next = 0
    · have hmemory := BlockFuse.handler_createBlock_exhausted (k := false) (s := s.view) data hz
      rw [handler, CounterSupplier.nextId_of_eq_zero hz, hmemory]
      exact ⟨rfl, h, rfl⟩
    · have hmemory := BlockFuse.handler_createBlock (k := false) (s := s.view) data hz
      rw [← BlockFuse.next_eq (s := s.view) hz] at hmemory
      obtain ⟨hregister, hview⟩ := h.view_register data hz
      obtain ⟨hafter, -⟩ := hregister.settle hlib hserved
      rw [handler, CounterSupplier.nextId_of_ne_zero hz, hmemory]
      refine ⟨rfl, hafter, ?_⟩
      exact (view_settle _).trans hview
  | managerFreeBlock id => exact ⟨rfl, h.viewed_free hlib (hfree rfl) hserved⟩
  | getBlocks ids =>
    obtain ⟨hpackets, horder⟩ := hserved
    obtain ⟨block, hblock⟩ : ∃ block : BlockId → Block,
        ∀ id ∈ ids, stored s.network id = some (some (block id)) := by
      refine ⟨fun id => (stored s.network id).join.getD ⟨id, .link ⟨[]⟩⟩, fun id hid => ?_⟩
      obtain ⟨hlive, b, hb, rfl⟩ := exists_of_isSome (hmapped id hid)
      simp [stored_of_mem h.conserved hb hlive]
    have hasked : Inv lib (s.request ids) := ⟨h.conserved, h.le_idsUsed⟩
    obtain ⟨hafter, -⟩ := hasked.settle hlib hpackets
    have hmemory := MemoryBlockManager.getBlocks_of_mapped (m := s.view.manager) hblock
    rw [handler, h.future_eq hlib hpackets horder hblock, BlockFuse.handler, hmemory]
    refine ⟨?_, hafter, view_settle _⟩
    simp
  | getRootBlock => exact ⟨rfl, h, rfl⟩
  | setRootBlock newRoot => exact ⟨rfl, ⟨h.conserved, h.le_idsUsed⟩, rfl⟩
  | freeBlock id => exact ⟨rfl, h.viewed_free hlib (hfree rfl) hserved⟩

/-! ## Runs -/

omit hlib

variable (lib) in
/-- A call of the file system at time `now`. -/
def exec (env : Env) (s : PingFuse) (call : Int64 × BlockFuse.Call) :
    Outcome Halt PingFuse BlockFuse.Reply :=
  (BlockFuse.program env s.view.fuel call.1 call.2).run (handler lib) s

variable (lib) in
/-- The state after a call, however it ended. -/
def step (env : Env) (s : PingFuse) (call : Int64 × BlockFuse.Call) : PingFuse :=
  (exec lib env s call).state

variable (lib) in
/-- `BlockFuse::BlockFuse` over a new block manager: the root is the first block that is sent. -/
def new (env : Env) (now : Int64) (fsId id : UInt16) (echoes : List (List EchoRequest)) : PingFuse
    where
  idSupplier := ⟨2⟩
  network :=
    (PingNetwork.init fsId id).step lib (.register ⟨1, BlockFuse.makeRootBlockData env now⟩)
  asyncBlockManager := .new
  rootBlock := ⟨1, BlockFuse.makeRootBlockData env now⟩
  echoes := echoes

variable (lib) in
/-- All that the call asks the block manager for is served, and there are ids enough for it. -/
structure Works (env : Env) (s : PingFuse) (call : Int64 × BlockFuse.Call) : Prop where
  served : (BlockFuse.program env s.view.fuel call.1 call.2).EveryCall (handler lib) (Served lib) s
  hasIds : (exec lib env s call).result ≠ .error BlockFuse.exhausted

instance (env : Env) (s : PingFuse) (call : Int64 × BlockFuse.Call) :
    Decidable (Works lib env s call) :=
  decidable_of_iff (_ ∧ _) ⟨fun h => Works.mk h.1 h.2, fun h => ⟨h.served, h.hasIds⟩⟩

variable (lib) in
/-- The state is that of the namespace `n`. -/
structure Represents (s : PingFuse) (n : Namespace) : Prop where
  inv : Inv lib s
  view : BlockFuse.Represents s.view n

theorem view_new (env : Env) (now : Int64) (fsId id : UInt16) (echoes : List (List EchoRequest)) :
    (new lib env now fsId id echoes).view = BlockFuse.new env now := by
  have hnew : stored (new lib env now fsId id echoes).network =
      (BlockFuse.new env now).manager.map := stored_register (Finset.notMem_empty _)
  rw [view, hnew]
  rfl

theorem represents_new (env : Env) (now : Int64) (fsId id : UInt16)
    (echoes : List (List EchoRequest)) :
    Represents lib (new lib env now fsId id echoes) (.new env now) := by
  have hview : (new lib env now fsId id echoes).view = BlockFuse.new env now := view_new ..
  refine ⟨⟨(PingNetwork.Conserved.init fsId id).register (by simp [PingNetwork.init]), ?_⟩, ?_⟩
  · intro b hb
    obtain rfl := List.mem_singleton.mp hb
    rw [hview]
    exact Nat.le_refl 1
  · rw [hview]
    exact BlockFuse.represents_new env now

include hlib

theorem hosts : BlockFuse.Hosts (handler lib) (Served lib) (Inv lib) view :=
  fun call _ _ h hserved hmapped => Viewed.handler_alike hlib h call hserved hmapped

/-- **A whole run** over pings returns what the namespace returns and ends in it. -/
theorem Represents.run_refines {n : Namespace} (h : Represents lib s n) {env : Env}
    {calls : List (Int64 × BlockFuse.Call)}
    (hworks : Run.EveryStep (step lib env) (Works lib env) s calls) :
    Run.trace (step lib env) (fun s call => (exec lib env s call).result) s calls =
        Run.trace (Namespace.step env BlockFuse.storedContents)
          (fun n call => (n.exec env BlockFuse.storedContents call).1) n calls ∧
      Represents lib (calls.foldl (step lib env) s)
        (calls.foldl (Namespace.step env BlockFuse.storedContents) n) := by
  obtain ⟨hreplies, hinv, hview⟩ := (hosts hlib).run_refines h.inv h.view
    (hworks.imp fun _ _ hcall => ⟨hcall.served, hcall.hasIds⟩)
  exact ⟨hreplies, hinv, hview⟩

/-- **The replies of a new file system** are those of a new namespace. -/
theorem replies_refine {env : Env} {now : Int64} {fsId id : UInt16}
    {echoes : List (List EchoRequest)} {calls : List (Int64 × BlockFuse.Call)}
    (hworks : Run.EveryStep (step lib env) (Works lib env) (new lib env now fsId id echoes) calls) :
    Run.trace (step lib env) (fun s call => (exec lib env s call).result)
        (new lib env now fsId id echoes) calls =
      Run.trace (Namespace.step env BlockFuse.storedContents)
        (fun n call => (n.exec env BlockFuse.storedContents call).1) (.new env now) calls :=
  ((represents_new env now fsId id echoes).run_refines hlib hworks).1

omit hlib

/-- The packet of a block that is sent by the service with the ids `3` and `0`. -/
def packetOf (block : Block) : EchoRequest :=
  (PingNetwork.init 3 0).service.translate Protobuf.wire block

/-- While the directory `/a` is made, the packet of the old root comes back, and dies; then that of
the new directory comes back, as it is looked at. -/
def echoesOfMkdir : List (List EchoRequest) :=
  [[], [], [packetOf ⟨1, BlockFuse.makeRootBlockData BlockFuse.plainEnv 0⟩],
    [packetOf ⟨2, .dirFile ⟨[0x61], ⟨⟨.readWriteExecute, .readExecute, .readExecute, .dir⟩,
      0, 0, 1, 0, 0, 0⟩, []⟩⟩]]

theorem replies_refine_mkdir :
    let calls := [(0, .mkdir (BlockFuse.below 0x61) 0o755), (1, .getattr (BlockFuse.below 0x61))]
    Run.trace (step Protobuf.wire BlockFuse.plainEnv)
        (fun s call => (exec Protobuf.wire BlockFuse.plainEnv s call).result)
        (new Protobuf.wire BlockFuse.plainEnv 0 3 0 echoesOfMkdir) calls =
      Run.trace (Namespace.step BlockFuse.plainEnv BlockFuse.storedContents)
        (fun n call => (n.exec BlockFuse.plainEnv BlockFuse.storedContents call).1)
        (.new BlockFuse.plainEnv 0) calls :=
  replies_refine Protobuf.wire_sound (by decide +kernel)

/-! ## What is asked for -/

variable (lib) in
/-- What the call asks for or frees is in flight, each block in one packet; and a request is
answered once all that is in flight has come by. -/
structure OnTheWay (call : FsCall) (s : PingFuse) : Prop where
  carried : ∀ id ∈ call.uses, ∃ packet, s.network.carriers lib id = {packet}
  answered : ∀ ids, call = .getBlocks ids → ∀ packets, Arrive lib s.network packets →
    (∀ packet ∈ s.network.inFlight, packet ∈ packets) →
      (s.future (packets.foldl (arrive lib) (s.request ids))).isSome

include hlib

theorem Inv.onTheWay (h : Inv lib s) {call : FsCall} (hmapped : BlockFuse.Mapped call s.view) :
    OnTheWay lib call s := by
  have hlive : ∀ id ∈ call.uses, ∃ block ∈ s.network.registered, block.id = id ∧
      s.network.carriers lib id = {s.network.service.translate lib block} := by
    intro id hid
    obtain ⟨hlive, block, hreg, rfl⟩ := exists_of_isSome (hmapped id hid)
    refine ⟨block, hreg, rfl, ?_⟩
    rw [h.conserved.carriers_eq hlib hreg, PingNetwork.alive, if_pos (by simp [hlive])]
  refine ⟨fun id hid => ?_, fun ids hcall packets hpackets hall => ?_⟩
  · obtain ⟨block, -, -, hcarriers⟩ := hlive id hid
    exact ⟨_, hcarriers⟩
  · subst hcall
    have hasked : Inv lib (s.request ids) := ⟨h.conserved, h.le_idsUsed⟩
    obtain ⟨-, blocks, -, htranslate, hmanager⟩ := hasked.foldl_arrive hlib hpackets
    have hanswer : s.future (packets.foldl (PingFuse.arrive lib) (s.request ids)) =
        s.asyncBlockManager.getBlocks ids blocks := by
      rw [future, hmanager]
      rfl
    rw [hanswer, AsyncBlockManager.getBlocks_eq_future, AsyncResponse.future_new]
    · rfl
    · intro id hid
      obtain ⟨block, -, rfl, hcarriers⟩ := hlive id hid
      have hin : s.network.service.translate lib block ∈ s.network.inFlight := by
        have hle : s.network.carriers lib block.id ≤ s.network.inFlight := Multiset.filter_le ..
        rw [hcarriers] at hle
        exact Multiset.singleton_le.mp hle
      have hcame := hall _ hin
      rw [htranslate] at hcame
      obtain ⟨b, hb, heq⟩ := List.mem_map.mp hcame
      obtain rfl := TrackFreedService.translate_injective hlib _ heq
      exact List.mem_map_of_mem hb

/-- **Nothing is waited for in vain.** After a run that was served, and up to the first call to the
block manager that is not, an operation asks for and frees blocks in flight only. -/
theorem asks_for_blocks_in_flight {env : Env} {now : Int64} {fsId id : UInt16}
    {echoes : List (List EchoRequest)} {calls : List (Int64 × BlockFuse.Call)}
    (hworks : Run.EveryStep (step lib env) (Works lib env) (new lib env now fsId id echoes) calls)
    (call : Int64 × BlockFuse.Call) :
    let s := calls.foldl (step lib env) (new lib env now fsId id echoes)
    (BlockFuse.program env s.view.fuel call.1 call.2).UpTo (handler lib) (Served lib)
      (OnTheWay lib) s := by
  intro s
  obtain ⟨-, hinv, hview⟩ := (represents_new env now fsId id echoes).run_refines hlib hworks
  exact (hosts hlib).upTo hinv hview (fun _ _ hinv hmapped => hinv.onTheWay hlib hmapped) call

omit hlib in
/-- After `/a` was made, whatever `rmdir` asks for. -/
theorem asks_for_blocks_in_flight_mkdir :
    let s := [(0, .mkdir (BlockFuse.below 0x61) 0o755)].foldl
      (step Protobuf.wire BlockFuse.plainEnv)
      (new Protobuf.wire BlockFuse.plainEnv 0 3 0 echoesOfMkdir)
    (BlockFuse.program BlockFuse.plainEnv s.view.fuel 1 (.rmdir (BlockFuse.below 0x61))).UpTo
      (handler Protobuf.wire) (Served Protobuf.wire) (OnTheWay Protobuf.wire) s :=
  asks_for_blocks_in_flight Protobuf.wire_sound (by decide +kernel)
    (1, .rmdir (BlockFuse.below 0x61))

/-! ## What is in flight -/

omit hlib

/-- The blocks that were not freed are those of the tree. -/
theorem Inv.live_eq (h : Inv lib s) {t : Inodes} (hgood : BlockFuse.Good s.view t 0) :
    (s.network.registered.filter fun b => b.id ∉ s.network.freed : Multiset Block) = t.blocks := by
  have hholds := hgood.stores.holds
  rw [add_zero] at hholds
  have hnodup : (s.network.registered.filter fun b => b.id ∉ s.network.freed).Nodup :=
    h.conserved.nodup.of_map.filter _
  refine (Multiset.Nodup.ext (Multiset.coe_nodup.mpr hnodup) hholds.nodup.of_map).mpr fun b => ?_
  rw [Multiset.mem_coe, List.mem_filter, decide_eq_true_iff]
  constructor
  · rintro ⟨hreg, hlive⟩
    obtain ⟨c, hc, -, hval⟩ := hholds.exists_of_eq_some (stored_of_mem h.conserved hreg hlive)
    obtain rfl := Option.some.inj hval
    exact hc
  · intro hb
    have hstored := hholds.get b hb
    obtain ⟨hlive, c, hreg, hid⟩ := exists_of_isSome (Option.isSome_iff_exists.mpr ⟨_, hstored⟩)
    have hthis := stored_of_mem h.conserved hreg (hid ▸ hlive)
    rw [hid] at hthis
    obtain rfl := Option.some.inj (Option.some.inj (hthis.symm.trans hstored))
    exact ⟨hreg, hlive⟩

/-- The blocks that are in flight though they were freed, one for each of the freed ids. -/
theorem Inv.exists_dying (h : Inv lib s) : ∃ dying : Multiset Block,
    dying.map (·.id) = s.network.service.freedIds.val ∧
      s.network.inFlight =
        ((s.network.registered.filter fun b => b.id ∉ s.network.freed : Multiset Block) +
          dying).map (s.network.service.translate lib) := by
  have hfreed := h.conserved.freedIds_freed
  refine ⟨(s.network.registered : Multiset Block).filter fun b =>
    b.id ∈ s.network.service.freedIds, ?_, ?_⟩
  · have hnodup : (((s.network.registered : Multiset Block).filter fun b =>
        b.id ∈ s.network.service.freedIds).map (·.id)).Nodup :=
      Multiset.nodup_of_le (Multiset.map_le_map (Multiset.filter_le _ _))
        (Multiset.coe_nodup.mpr h.conserved.nodup)
    refine (Multiset.Nodup.ext hnodup s.network.service.freedIds.nodup).mpr fun id => ?_
    rw [Multiset.mem_map]
    constructor
    · rintro ⟨b, hb, rfl⟩
      exact (Multiset.mem_filter.mp hb).2
    · intro hid
      obtain ⟨b, hb, rfl⟩ := List.mem_map.mp (h.conserved.freed_registered id (hfreed id hid))
      exact ⟨b, Multiset.mem_filter.mpr ⟨Multiset.mem_coe.mpr hb, hid⟩, rfl⟩
  · have hnone : (s.network.registered : Multiset Block).filter (fun b =>
        b.id ∉ s.network.freed ∧ b.id ∈ s.network.service.freedIds) = 0 :=
      Multiset.filter_eq_nil.mpr fun b _ hb => hb.1 (hfreed _ hb.2)
    have halive : (s.network.registered.filter s.network.alive : Multiset Block) =
        (s.network.registered : Multiset Block).filter fun b =>
          b.id ∉ s.network.freed ∨ b.id ∈ s.network.service.freedIds := by
      rw [Multiset.filter_coe]
      rfl
    rw [h.conserved.inFlight_eq, ← Multiset.map_coe, halive, ← Multiset.filter_coe,
      Multiset.filter_add_filter, hnone, add_zero]

include hlib

/-- **Nothing leaks.** After a run that was served, the packets in flight are those of the blocks of
a tree that the namespace is read off, and one for each id that was freed and has not come by. -/
theorem only_the_tree_in_flight {env : Env} {now : Int64} {fsId id : UInt16}
    {echoes : List (List EchoRequest)} {calls : List (Int64 × BlockFuse.Call)}
    (hworks : Run.EveryStep (step lib env) (Works lib env) (new lib env now fsId id echoes) calls) :
    let s := calls.foldl (step lib env) (new lib env now fsId id echoes)
    ∃ t dying, BlockFuse.Good s.view t 0 ∧
      t.entries = calls.foldl (Namespace.step env BlockFuse.storedContents) (.new env now) ∧
      dying.map (·.id) = s.network.service.freedIds.val ∧
      s.network.inFlight = (t.blocks + dying).map (s.network.service.translate lib) := by
  intro s
  obtain ⟨-, hinv, t, hgood, hentries⟩ :=
    (represents_new env now fsId id echoes).run_refines hlib hworks
  obtain ⟨dying, hids, hinFlight⟩ := hinv.exists_dying
  rw [hinv.live_eq hgood] at hinFlight
  exact ⟨t, dying, hgood, hentries, hids, hinFlight⟩

omit hlib in
/-- After `/a` was made, and the packet of the old root has come by. -/
theorem only_the_tree_in_flight_mkdir :
    let s := [(0, .mkdir (BlockFuse.below 0x61) 0o755)].foldl
      (step Protobuf.wire BlockFuse.plainEnv)
      (new Protobuf.wire BlockFuse.plainEnv 0 3 0 echoesOfMkdir)
    ∃ t dying, BlockFuse.Good s.view t 0 ∧
      t.entries = [(0, .mkdir (BlockFuse.below 0x61) 0o755)].foldl
        (Namespace.step BlockFuse.plainEnv BlockFuse.storedContents) (.new BlockFuse.plainEnv 0) ∧
      dying.map (·.id) = s.network.service.freedIds.val ∧
      s.network.inFlight = (t.blocks + dying).map (s.network.service.translate Protobuf.wire) :=
  only_the_tree_in_flight Protobuf.wire_sound (by decide +kernel)

/-! ## Who waits -/

omit hlib in
theorem state_handler_getBlocks (ids : List BlockId) :
    (handler lib (.getBlocks ids) s).state = (s.request ids).settle lib := by
  rw [handler]
  split
  · rfl
  · rfl

theorem Inv.quiet_settle (h : Inv lib s) (hquiet : s.asyncBlockManager.Quiet)
    (hpackets : Arrive lib s.network (s.echoes.headD [])) :
    (s.settle lib).asyncBlockManager.Quiet := by
  obtain ⟨-, blocks, -, -, hmanager⟩ := h.settle hlib hpackets
  rw [hmanager, hquiet.foldl_process]
  exact hquiet

/-- A call that was served leaves nobody waiting. -/
theorem Inv.quiet_handler (h : Inv lib s) (hquiet : s.asyncBlockManager.Quiet) {call : FsCall}
    (hserved : Served lib call s) (hmapped : BlockFuse.Mapped call s.view) :
    (handler lib call s).state.asyncBlockManager.Quiet := by
  have hfree : ∀ {id}, call.uses = [id] → Inv lib (s.free lib id) := by
    intro id huses
    exact (h.view_free (hmapped id (by simp [huses]))).1
  cases call with
  | createBlock data =>
    by_cases hz : s.idSupplier.next = 0
    · rw [handler, CounterSupplier.nextId_of_eq_zero hz]
      exact hquiet
    · rw [handler, CounterSupplier.nextId_of_ne_zero hz]
      exact (h.view_register data hz).1.quiet_settle hlib hquiet hserved
  | managerFreeBlock id => exact (hfree rfl).quiet_settle hlib hquiet hserved
  | getBlocks ids =>
    obtain ⟨hpackets, horder⟩ := hserved
    have hasked : Inv lib (s.request ids) := ⟨h.conserved, h.le_idsUsed⟩
    obtain ⟨-, blocks, -, htranslate, hmanager⟩ := hasked.settle hlib hpackets
    have hechoes : s.echoes.headD [] = blocks.map (s.network.service.translate lib) := htranslate
    rw [hechoes] at horder
    rw [state_handler_getBlocks, hmanager]
    exact hquiet.getBlocks (mem_ids_of_inOrder hlib horder)
  | getRootBlock => exact hquiet
  | setRootBlock newRoot => exact hquiet
  | freeBlock id => exact (hfree rfl).quiet_settle hlib hquiet hserved

variable (lib) in
/-- The blocks are kept, and nobody waits. -/
structure QuietInv (s : PingFuse) : Prop where
  inv : Inv lib s
  quiet : s.asyncBlockManager.Quiet

theorem hosts_quiet : BlockFuse.Hosts (handler lib) (Served lib) (QuietInv lib) view := by
  rintro call s s' ⟨⟨hinv, hquiet⟩, rfl⟩ hserved hmapped
  obtain ⟨hresult, hafter, hview⟩ := hosts hlib call s _ ⟨hinv, rfl⟩ hserved hmapped
  exact ⟨hresult, ⟨hafter, hinv.quiet_handler hlib hquiet hserved hmapped⟩, hview⟩

end PingFuse

end Pingfs
