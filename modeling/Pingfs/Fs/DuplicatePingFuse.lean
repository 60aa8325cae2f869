import Pingfs.Fs.PingFuse
import Pingfs.Ping.Copies

/-!
# The file system in duplicate pings

`BlockFuse` over a `DuplicatePingBlockManager`, where packets may be lost. While a call to the block
manager goes on, threads of `delayed_send` wake up, packets come back and packets are lost; what
happens during each call is a parameter of the state.

What an operation asks for is a block that was created and not freed. Both its packets are then in
flight, still to be sent or lost, so that the file system gets over the loss of one packet of each
block. What becomes of the second packet of a freed block (`two_copies`) no operation notices.

Sources: `duplicate_ping_block_manager.cc`, `ping_block_manager.cc`, `async_block_manager.cc`,
`track_freed_service.cc`, `block_fuse.cc`.

## Main results

* `DuplicatePingFuse.runs_as_namespace` — a whole run gives what the namespace gives
* `DuplicatePingFuse.survives_losses` — how much may be lost of what is asked for
-/

namespace Pingfs

open FsM BlockUtil

/-- What happens beside the calls. -/
inductive DuplicatePingFuse.Aside where
  | arrive (packet : EchoRequest)
  | lose (packet : EchoRequest)
  | delayedSend (block : Block)
  deriving DecidableEq

/-- A file system over duplicate pings. -/
structure DuplicatePingFuse where
  blockManager : DuplicatePingBlockManager
  asyncBlockManager : AsyncBlockManager
  rootBlock : Block
  /-- What happens during each of the next calls to the block manager. -/
  asides : List (List DuplicatePingFuse.Aside)

namespace DuplicatePingFuse

/-- What happens, for the block manager and its service. -/
def Aside.event : Aside → DuplicatePingBlockManager.Event
  | .arrive packet => .arrive packet
  | .lose packet => .lose packet
  | .delayedSend block => .delayedSend block

/-- The packets that come back. -/
def arrivals (asides : List Aside) : List EchoRequest :=
  asides.filterMap fun
    | .arrive packet => some packet
    | _ => none

variable (lib : Protobuf)

/-- The block that the subscribers of the service are notified of. -/
def notified (m : DuplicatePingBlockManager) : Aside → Option Block
  | .arrive packet =>
    match m.network.network.service.process lib packet.echo with
    | .ok out => out.notified
    | .error _ => none
  | _ => none

/-- One thing happens. The block manager is the subscriber of its service. -/
def happen (s : DuplicatePingFuse) (aside : Aside) : DuplicatePingFuse :=
  { s with
    blockManager := s.blockManager.step lib aside.event
    asyncBlockManager :=
      match notified lib s.blockManager aside with
      | some block => s.asyncBlockManager.process block
      | none => s.asyncBlockManager }

/-- What happens during a call. -/
def settle (s : DuplicatePingFuse) : DuplicatePingFuse :=
  (s.asides.headD []).foldl (happen lib) { s with asides := s.asides.tail }

/-- `create_block` or `free_block`. -/
def change (s : DuplicatePingFuse) (e : DuplicatePingBlockManager.Event) : DuplicatePingFuse :=
  { s with blockManager := s.blockManager.step lib e }

/-- `AsyncBlockManager::get_blocks` up to the wait on the future. -/
def request (s : DuplicatePingFuse) (ids : List BlockId) : DuplicatePingFuse :=
  { s with asyncBlockManager := s.asyncBlockManager.register ids }

/-- The value of the future that the last request waits on, if it is set. -/
def future (before after : DuplicatePingFuse) : Option (List Block) :=
  after.asyncBlockManager.responses[before.asyncBlockManager.responses.length]? >>=
    AsyncResponse.future

/-- How the calls act on the state. -/
def handler : Program.Handler FsCall FsCall.Reply Halt DuplicatePingFuse
  | .createBlock data, s =>
    match s.blockManager.idSupplier.nextId with
    | .error what => .halted (.threw what) s
    | .ok (id, _) => .returned ⟨id, data⟩ ((s.change lib (.createBlock data)).settle lib)
  | .managerFreeBlock id, s => .returned () ((s.change lib (.freeBlock id)).settle lib)
  | .getBlocks ids, s =>
    match s.future ((s.request ids).settle lib) with
    | some blocks => .returned (blocks.map some) ((s.request ids).settle lib)
    -- it waits for ever
    | none => .halted .diverged ((s.request ids).settle lib)
  | .getRootBlock, s => .returned s.rootBlock s
  | .setRootBlock newRoot, s => .returned () { s with rootBlock := newRoot }
  | .freeBlock id, s => .returned () ((s.change lib (.freeBlock id)).settle lib)

/-! ## The view in memory -/

/-- The block with an id that was created and not freed. -/
def stored (m : DuplicatePingBlockManager) (id : BlockId) : Option (Option Block) :=
  if id ∈ m.network.freeCalls then none else (m.created.find? fun b => b.id = id).map some

/-- The file system in memory with the same blocks. -/
def view (s : DuplicatePingFuse) : BlockFuse :=
  ⟨⟨s.blockManager.idSupplier, stored s.blockManager⟩, s.rootBlock⟩

/-- Each block is two packets, and what was freed was created. -/
structure Kept (m : DuplicatePingBlockManager) : Prop where
  twice : DuplicatePingBlockManager.Twice lib m
  freed_created : ∀ id ∈ m.network.freeCalls, id ∈ m.created.map (·.id)

variable {lib} {m : DuplicatePingBlockManager} {s : DuplicatePingFuse}

theorem Kept.stored_of_mem (h : Kept lib m) {b : Block} (hb : b ∈ m.created)
    (hlive : b.id ∉ m.network.freeCalls) : stored m b.id = some (some b) := by
  rw [stored, if_neg hlive, PingFuse.find_of_mem h.twice.nodup hb]
  rfl

theorem exists_of_isSome {id : BlockId} (h : (stored m id).isSome) :
    id ∉ m.network.freeCalls ∧ ∃ b ∈ m.created, b.id = id := PingFuse.exists_of_isSome_find h

/-! ### What a call changes -/

theorem Kept.createBlock (h : Kept lib m) (data : BlockData) (hz : m.idSupplier.next ≠ 0) :
    Kept lib (m.step lib (.createBlock data)) ∧
      (m.step lib (.createBlock data)).idSupplier = ⟨m.idSupplier.next + 1⟩ ∧
        stored (m.step lib (.createBlock data)) =
          Function.update (stored m) m.idSupplier.next (some (some ⟨m.idSupplier.next, data⟩)) := by
  have hfresh : m.idSupplier.next ∉ m.created.map (·.id) := by
    intro hmem
    obtain ⟨b, hb, hid⟩ := List.mem_map.mp hmem
    exact UInt64.ne_of_lt (h.twice.lt_next hz b hb) hid
  have hlive : m.idSupplier.next ∉ m.network.freeCalls := fun hid => hfresh (h.freed_created _ hid)
  have htwice := h.twice.createBlock data
  rw [DuplicatePingBlockManager.step, CounterSupplier.nextId_of_ne_zero hz] at htwice ⊢
  refine ⟨⟨htwice, fun id hid => List.mem_cons_of_mem _ (h.freed_created id hid)⟩, rfl, ?_⟩
  funext i
  by_cases hi : i = m.idSupplier.next
  · subst hi
    simp [stored, LossyNetwork.step, hlive]
  · simp [stored, LossyNetwork.step, Function.update_of_ne hi, Ne.symm hi]

theorem Kept.freeBlock (h : Kept lib m) {id : BlockId} (hid : (stored m id).isSome) :
    Kept lib (m.step lib (.freeBlock id)) ∧
      stored (m.step lib (.freeBlock id)) = Function.update (stored m) id none := by
  obtain ⟨-, b, hb, rfl⟩ := exists_of_isSome hid
  have htwice : DuplicatePingBlockManager.Twice lib (m.step lib (.freeBlock b.id)) :=
    ⟨h.twice.balanced.free b.id, h.twice.nodup, h.twice.lt_next, h.twice.sent⟩
  refine ⟨⟨htwice, fun id hid => ?_⟩, ?_⟩
  · rcases Multiset.mem_add.mp hid with hid | hid
    · exact h.freed_created id hid
    · obtain rfl := Multiset.mem_singleton.mp hid
      exact List.mem_map_of_mem hb
  · funext i
    by_cases hi : i = b.id
    · subst hi
      simp [stored, DuplicatePingBlockManager.step, LossyNetwork.step]
    · simp [stored, DuplicatePingBlockManager.step, LossyNetwork.step, hi]

/-! ## What happens meanwhile -/

/-- Things happen one after the other, each when it can. -/
def Happens (lib : Protobuf) (m : DuplicatePingBlockManager) (asides : List Aside) : Prop :=
  Run.EveryStep (fun m (aside : Aside) => m.step lib aside.event)
    (fun m aside => m.Allowed aside.event) m asides

instance (m : DuplicatePingBlockManager) (asides : List Aside) :
    Decidable (Happens lib m asides) :=
  inferInstanceAs (Decidable (Run.EveryStep _ _ _ _))

variable (lib) in
/-- Nothing that happens creates or frees a block. -/
theorem step_aside (m : DuplicatePingBlockManager) (aside : Aside) :
    (m.step lib aside.event).created = m.created ∧
      (m.step lib aside.event).idSupplier = m.idSupplier ∧
        (m.step lib aside.event).network.freeCalls = m.network.freeCalls := by
  cases aside with
  | arrive packet => exact ⟨rfl, rfl, rfl⟩
  | lose packet => exact ⟨rfl, rfl, rfl⟩
  | delayedSend block => exact ⟨rfl, rfl, rfl⟩

@[simp] theorem view_happen (s : DuplicatePingFuse) (aside : Aside) :
    (s.happen lib aside).view = s.view := by
  obtain ⟨hcreated, hids, hfreed⟩ := step_aside lib s.blockManager aside
  have hstored : stored (s.blockManager.step lib aside.event) = stored s.blockManager := by
    funext id
    rw [stored, stored, hcreated, hfreed]
  rw [view, view, happen, hstored, hids]

theorem view_foldl_happen (s : DuplicatePingFuse) (asides : List Aside) :
    (asides.foldl (happen lib) s).view = s.view := by
  induction asides generalizing s with
  | nil => rfl
  | cons aside asides ih => exact (ih (s.happen lib aside)).trans (view_happen s aside)

@[simp] theorem view_settle (s : DuplicatePingFuse) : (s.settle lib).view = s.view :=
  view_foldl_happen ..

variable (hlib : lib.Sound)

include hlib

theorem Kept.step_aside (h : Kept lib m) {aside : Aside} (he : m.Allowed aside.event) :
    Kept lib (m.step lib aside.event) := by
  obtain ⟨hcreated, -, hfreed⟩ := DuplicatePingFuse.step_aside lib m aside
  refine ⟨h.twice.step hlib he, ?_⟩
  rw [hcreated, hfreed]
  exact h.freed_created

/-- What comes back is a block that was created, and that is what the subscribers hear. -/
theorem Kept.notified_arrive (h : Kept lib m) {packet : EchoRequest}
    (hin : packet ∈ m.network.network.inFlight) : ∃ block ∈ m.created,
      packet = m.network.network.service.translate lib block ∧
        notified lib m (.arrive packet) = some block := by
  obtain ⟨block, hreg, rfl⟩ := h.twice.balanced.of_mem hin
  refine ⟨block, ?_, rfl, ?_⟩
  · have hmem : block ∈ (m.created : Multiset Block) + m.created := by
      rw [← h.twice.sent]
      exact Multiset.mem_add.mpr (Or.inl hreg)
    simpa using hmem
  · simp only [notified, TrackFreedService.process_echo hlib]
    split_ifs <;> rfl

omit hlib in
theorem translate_aside (m : DuplicatePingBlockManager) (aside : Aside) :
    (m.step lib aside.event).network.network.service.translate lib =
      m.network.network.service.translate lib := by
  cases aside with
  | arrive packet => exact PingNetwork.translate_step ..
  | lose packet => rfl
  | delayedSend block => rfl

theorem Kept.foldl_happen (h : Kept lib s.blockManager) {asides : List Aside}
    (hasides : Happens lib s.blockManager asides) :
    Kept lib (asides.foldl (happen lib) s).blockManager ∧
      ∃ blocks : List Block, (∀ b ∈ blocks, b ∈ s.blockManager.created) ∧
        arrivals asides = blocks.map (s.blockManager.network.network.service.translate lib) ∧
          (asides.foldl (happen lib) s).asyncBlockManager =
            blocks.foldl AsyncBlockManager.process s.asyncBlockManager := by
  induction asides generalizing s with
  | nil => exact ⟨h, [], by simp, rfl, rfl⟩
  | cons aside asides ih =>
    obtain ⟨hallowed, hrest⟩ := hasides
    have hafter := h.step_aside hlib hallowed
    obtain ⟨hend, blocks, hblocks, harrivals, hmanager⟩ := ih (s := s.happen lib aside) hafter hrest
    have hcreated : (s.happen lib aside).blockManager.created = s.blockManager.created :=
      (DuplicatePingFuse.step_aside lib s.blockManager aside).1
    have htranslate : (s.happen lib aside).blockManager.network.network.service.translate lib =
        s.blockManager.network.network.service.translate lib := translate_aside ..
    rw [hcreated] at hblocks
    rw [htranslate] at harrivals
    refine ⟨hend, ?_⟩
    cases aside with
    | arrive packet =>
      obtain ⟨block, hblock, hpacket, hnotified⟩ := h.notified_arrive hlib hallowed
      refine ⟨block :: blocks, List.forall_mem_cons.mpr ⟨hblock, hblocks⟩, ?_, ?_⟩
      · rw [List.map_cons, ← hpacket, ← harrivals]
        rfl
      · rw [List.foldl_cons, List.foldl_cons, hmanager, happen, hnotified]
    | lose packet => exact ⟨blocks, hblocks, harrivals, hmanager⟩
    | delayedSend block => exact ⟨blocks, hblocks, harrivals, hmanager⟩

/-- What happens during a call changes no more than who has been answered. -/
theorem Kept.settle (h : Kept lib s.blockManager)
    (hasides : Happens lib s.blockManager (s.asides.headD [])) :
    Kept lib (s.settle lib).blockManager ∧
      ∃ blocks : List Block, (∀ b ∈ blocks, b ∈ s.blockManager.created) ∧
        arrivals (s.asides.headD []) =
            blocks.map (s.blockManager.network.network.service.translate lib) ∧
          (s.settle lib).asyncBlockManager =
            blocks.foldl AsyncBlockManager.process s.asyncBlockManager :=
  Kept.foldl_happen hlib (s := { s with asides := s.asides.tail }) h hasides

/-- **A request is answered** with the blocks that are stored, if they come by in order. -/
theorem Kept.future_eq (h : Kept lib s.blockManager) {ids : List BlockId}
    (hasides : Happens lib s.blockManager (s.asides.headD []))
    (horder : PingFuse.InOrder lib ids (arrivals (s.asides.headD []))) {block : BlockId → Block}
    (hstored : ∀ id ∈ ids, stored s.blockManager id = some (some (block id))) :
    s.future ((s.request ids).settle lib) = some (ids.map block) := by
  obtain ⟨-, blocks, hblocks, harrivals, hmanager⟩ :=
    Kept.settle hlib (s := s.request ids) h hasides
  have hcame : arrivals (s.asides.headD []) =
      blocks.map (s.blockManager.network.network.service.translate lib) := harrivals
  rw [hcame] at horder
  rw [future, hmanager]
  refine PingFuse.getBlocks_of_inOrder hlib s.asyncBlockManager _ (fun b hb hid => ?_) horder
  obtain ⟨hlive, -⟩ := exists_of_isSome (Option.isSome_iff_exists.mpr ⟨_, hstored b.id hid⟩)
  have hthis := h.stored_of_mem (hblocks b hb) hlive
  rw [hstored b.id hid] at hthis
  exact Option.some.inj (Option.some.inj hthis)

/-! ## One call -/

omit hlib

variable (lib) in
/-- What happens during a call can happen, and what the call asks for comes back in the order in
which it is asked for. -/
def Served : FsCall → DuplicatePingFuse → Prop
  | .createBlock data, s =>
    Happens lib (s.blockManager.step lib (.createBlock data)) (s.asides.headD [])
  | .managerFreeBlock id, s | .freeBlock id, s =>
    Happens lib (s.blockManager.step lib (.freeBlock id)) (s.asides.headD [])
  | .getBlocks ids, s =>
    Happens lib s.blockManager (s.asides.headD []) ∧
      PingFuse.InOrder lib ids (arrivals (s.asides.headD []))
  | .getRootBlock, _ | .setRootBlock _, _ => True

instance Served.decidable :
    (call : FsCall) → (s : DuplicatePingFuse) → Decidable (Served lib call s)
  | .createBlock _, _ => inferInstanceAs (Decidable (Happens ..))
  | .managerFreeBlock _, _ => inferInstanceAs (Decidable (Happens ..))
  | .freeBlock _, _ => inferInstanceAs (Decidable (Happens ..))
  | .getBlocks _, _ => inferInstanceAs (Decidable (_ ∧ _))
  | .getRootBlock, _ => inferInstanceAs (Decidable True)
  | .setRootBlock _, _ => inferInstanceAs (Decidable True)

variable (lib) in
/-- The blocks of the file system are kept. -/
def Inv (s : DuplicatePingFuse) : Prop := Kept lib s.blockManager

include hlib

theorem Inv.freeBlock_alike (h : Inv lib s) {id : BlockId} (hid : (stored s.blockManager id).isSome)
    (hasides : Happens lib (s.blockManager.step lib (.freeBlock id)) (s.asides.headD [])) :
    Inv lib ((s.change lib (.freeBlock id)).settle lib) ∧
      ((s.change lib (.freeBlock id)).settle lib).view = s.view.withFreed id := by
  obtain ⟨hfree, hstored⟩ := Kept.freeBlock h hid
  obtain ⟨hafter, -⟩ := Kept.settle hlib (s := s.change lib (.freeBlock id)) hfree hasides
  refine ⟨hafter, (view_settle _).trans ?_⟩
  rw [view, change, hstored]
  rfl

/-- **One call**, over duplicate pings and in memory. -/
theorem hosts : BlockFuse.Hosts (handler lib) (Served lib) (Inv lib) view := by
  rintro call s _ ⟨h, rfl⟩ hserved hmapped
  have hfree : ∀ {id}, call.uses = [id] → (stored s.blockManager id).isSome := by
    intro id huses
    exact hmapped id (by simp [huses])
  cases call with
  | createBlock data =>
    by_cases hz : s.blockManager.idSupplier.next = 0
    · have hmemory := BlockFuse.handler_createBlock_exhausted (k := false) (s := s.view) data hz
      rw [handler, CounterSupplier.nextId_of_eq_zero hz, hmemory]
      exact ⟨rfl, h, rfl⟩
    · have hmemory := BlockFuse.handler_createBlock (k := false) (s := s.view) data hz
      rw [← BlockFuse.next_eq (s := s.view) hz] at hmemory
      obtain ⟨hcreated, hids, hstored⟩ := Kept.createBlock h data hz
      obtain ⟨hafter, -⟩ :=
        Kept.settle hlib (s := s.change lib (.createBlock data)) hcreated hserved
      rw [handler, CounterSupplier.nextId_of_ne_zero hz, hmemory]
      refine ⟨rfl, hafter, (view_settle _).trans ?_⟩
      rw [view, change, hids, hstored, BlockFuse.withCreated, ← BlockFuse.next_eq (s := s.view) hz]
      rfl
  | managerFreeBlock id => exact ⟨rfl, h.freeBlock_alike hlib (hfree rfl) hserved⟩
  | getBlocks ids =>
    obtain ⟨hasides, horder⟩ := hserved
    obtain ⟨block, hblock⟩ : ∃ block : BlockId → Block,
        ∀ id ∈ ids, stored s.blockManager id = some (some (block id)) := by
      refine ⟨fun id => (stored s.blockManager id).join.getD ⟨id, .link ⟨[]⟩⟩, fun id hid => ?_⟩
      obtain ⟨hlive, b, hb, rfl⟩ := exists_of_isSome (hmapped id hid)
      simp [Kept.stored_of_mem h hb hlive]
    obtain ⟨hafter, -⟩ := Kept.settle hlib (s := s.request ids) h hasides
    have hmemory := MemoryBlockManager.getBlocks_of_mapped (m := s.view.manager) hblock
    rw [handler, Kept.future_eq hlib h hasides horder hblock, BlockFuse.handler, hmemory]
    refine ⟨?_, hafter, view_settle _⟩
    simp
  | getRootBlock => exact ⟨rfl, h, rfl⟩
  | setRootBlock newRoot => exact ⟨rfl, h, rfl⟩
  | freeBlock id => exact ⟨rfl, h.freeBlock_alike hlib (hfree rfl) hserved⟩

/-! ## Runs -/

omit hlib

variable (lib) in
/-- A call of the file system at time `now`. -/
def exec (env : Env) (s : DuplicatePingFuse) (call : Int64 × BlockFuse.Call) :
    Outcome Halt DuplicatePingFuse BlockFuse.Reply :=
  BlockFuse.hostedExec (handler lib) view env s call

variable (lib) in
/-- The state after a call, however it ended. -/
def step (env : Env) (s : DuplicatePingFuse) (call : Int64 × BlockFuse.Call) : DuplicatePingFuse :=
  (exec lib env s call).state

variable (lib) in
/-- `BlockFuse::BlockFuse` over a new block manager: the root is the first block that is sent. -/
def new (env : Env) (now : Int64) (fsId id : UInt16) (asides : List (List Aside)) :
    DuplicatePingFuse where
  blockManager := (DuplicatePingBlockManager.new fsId id).step lib
    (.createBlock (BlockFuse.makeRootBlockData env now))
  asyncBlockManager := .new
  rootBlock := ⟨1, BlockFuse.makeRootBlockData env now⟩
  asides := asides

variable (lib) in
/-- All that the call asks the block manager for is served, and there are ids enough for it. -/
abbrev Works (env : Env) (s : DuplicatePingFuse) (call : Int64 × BlockFuse.Call) : Prop :=
  BlockFuse.Works (handler lib) (Served lib) view env s call

variable (lib) in
theorem inv_new (env : Env) (now : Int64) (fsId id : UInt16) (asides : List (List Aside)) :
    Inv lib (new lib env now fsId id asides) ∧
      (new lib env now fsId id asides).view = BlockFuse.new env now := by
  have hkept : Kept lib (DuplicatePingBlockManager.new fsId id) :=
    ⟨.new fsId id, fun id hid => absurd hid (Multiset.notMem_zero id)⟩
  have hnext : (1 : BlockId) ≠ 0 := by decide
  obtain ⟨hcreated, hids, hstored⟩ :=
    hkept.createBlock (BlockFuse.makeRootBlockData env now) hnext
  refine ⟨hcreated, ?_⟩
  rw [view, new, hids, hstored]
  rfl

/-! ## What is asked for -/

variable (lib) in
/-- The two packets of each block that the call asks for or frees are in flight, to be sent or lost;
and a request is answered once a packet of each of its blocks has come back. -/
structure Survives (call : FsCall) (s : DuplicatePingFuse) : Prop where
  carried : ∀ id ∈ call.uses, ∃ block ∈ s.blockManager.created, block.id = id ∧
    (s.blockManager.network.network.carriers lib id).card + s.blockManager.toSend.count block +
      LossyNetwork.copiesIn lib id s.blockManager.network.lost = 2
  answered : ∀ ids, call = .getBlocks ids → ∀ asides, Happens lib s.blockManager asides →
    (∀ id ∈ ids, ∃ packet ∈ arrivals asides, PingNetwork.carries lib id packet = true) →
      (s.future (asides.foldl (happen lib) (s.request ids))).isSome

include hlib

/-- **The two packets of a block** that is stored. -/
theorem Kept.carried (h : Kept lib m) {id : BlockId} (hid : (stored m id).isSome) :
    ∃ block ∈ m.created, block.id = id ∧
      (m.network.network.carriers lib id).card + m.toSend.count block +
        LossyNetwork.copiesIn lib id m.network.lost = 2 := by
  obtain ⟨hlive, block, hblock, rfl⟩ := exists_of_isSome hid
  obtain ⟨hpackets, hdiscarded⟩ := h.twice.balanced.card_carriers hlib block.id
  have htwice := h.twice.registrations_add hblock
  have hnone : m.network.freeCalls.count block.id = 0 := Multiset.count_eq_zero.mpr hlive
  refine ⟨block, hblock, rfl, ?_⟩
  omega

theorem Inv.survives_call (h : Inv lib s) {call : FsCall} (hmapped : BlockFuse.Mapped call s.view) :
    Survives lib call s := by
  refine ⟨fun id hid => Kept.carried hlib h (hmapped id hid), ?_⟩
  rintro ids - asides hasides hall
  obtain ⟨-, blocks, -, harrivals, hmanager⟩ :=
    Kept.foldl_happen hlib (s := s.request ids) h hasides
  have hanswer : s.future (asides.foldl (happen lib) (s.request ids)) =
      s.asyncBlockManager.getBlocks ids blocks := by
    rw [future, hmanager]
    rfl
  rw [hanswer, AsyncBlockManager.getBlocks_eq_future, AsyncResponse.future_new]
  · rfl
  · intro id hid
    obtain ⟨packet, hpacket, hcarries⟩ := hall id hid
    rw [harrivals] at hpacket
    obtain ⟨b, hb, rfl⟩ := List.mem_map.mp hpacket
    rw [PingNetwork.carries_translate hlib] at hcarries
    exact List.mem_map.mpr ⟨b, hb, eq_of_beq hcarries⟩

/-- **The replies of a new file system** are those of a new namespace, whichever packets are lost
and whenever blocks are sent again, as long as what is asked for comes back. -/
theorem runs_as_namespace {env : Env} {now : Int64} {fsId id : UInt16} {asides : List (List Aside)}
    {calls : List (Int64 × BlockFuse.Call)}
    (hworks : Run.EveryStep (step lib env) (Works lib env) (new lib env now fsId id asides) calls) :
    Run.trace (step lib env) (fun s call => (exec lib env s call).result)
        (new lib env now fsId id asides) calls =
      Run.trace (Namespace.step env BlockFuse.storedContents)
        (fun n call => (n.exec env BlockFuse.storedContents call).1) (.new env now) calls := by
  obtain ⟨hinv, hview⟩ := inv_new lib env now fsId id asides
  have hnew : BlockFuse.Represents (new lib env now fsId id asides).view (.new env now) := by
    rw [hview]
    exact BlockFuse.represents_new env now
  exact ((hosts hlib).run_refines hinv hnew hworks).1

omit hlib in
/-- While the directory `/a` is made, the packet of the old root is lost, and the first one of the
directory; its second one comes back as the directory is looked at. -/
def asidesOfMkdir : List (List Aside) :=
  let root : Block := ⟨1, BlockFuse.makeRootBlockData BlockFuse.plainEnv 0⟩
  let dir : Block := ⟨2, .dirFile ⟨[0x61], ⟨⟨.readWriteExecute, .readExecute, .readExecute, .dir⟩,
    0, 0, 1, 0, 0, 0⟩, []⟩⟩
  [[.lose (PingFuse.packetOf root)], [.lose (PingFuse.packetOf dir), .delayedSend dir],
    [.delayedSend root, .arrive (PingFuse.packetOf root)], [.arrive (PingFuse.packetOf dir)]]

omit hlib in
theorem runs_as_namespace_mkdir :
    let calls := [(0, .mkdir (BlockFuse.below 0x61) 0o755), (1, .getattr (BlockFuse.below 0x61))]
    Run.trace (step Protobuf.wire BlockFuse.plainEnv)
        (fun s call => (exec Protobuf.wire BlockFuse.plainEnv s call).result)
        (new Protobuf.wire BlockFuse.plainEnv 0 3 0 asidesOfMkdir) calls =
      Run.trace (Namespace.step BlockFuse.plainEnv BlockFuse.storedContents)
        (fun n call => (n.exec BlockFuse.plainEnv BlockFuse.storedContents call).1)
        (.new BlockFuse.plainEnv 0) calls :=
  runs_as_namespace Protobuf.wire_sound (by decide +kernel)

/-- **A packet may be lost.** After a run that was served, and up to the first call to the block
manager that is not, an operation asks for and frees only blocks of which both packets are in
flight, still to be sent or lost; one that has lost a single packet is there or will be. -/
theorem survives_losses {env : Env} {now : Int64} {fsId id : UInt16} {asides : List (List Aside)}
    {calls : List (Int64 × BlockFuse.Call)}
    (hworks : Run.EveryStep (step lib env) (Works lib env) (new lib env now fsId id asides) calls)
    (call : Int64 × BlockFuse.Call) :
    let s := calls.foldl (step lib env) (new lib env now fsId id asides)
    (BlockFuse.program env s.view.fuel call.1 call.2).UpTo (handler lib) (Served lib)
      (Survives lib) s := by
  intro s
  obtain ⟨hinv, hview⟩ := inv_new lib env now fsId id asides
  have hnew : BlockFuse.Represents (new lib env now fsId id asides).view (.new env now) := by
    rw [hview]
    exact BlockFuse.represents_new env now
  obtain ⟨-, hend, hrepresents⟩ := (hosts hlib).run_refines hinv hnew hworks
  exact (hosts hlib).upTo hend hrepresents (fun _ _ h hmapped => h.survives_call hlib hmapped) call

omit hlib in
/-- After `/a` was made, whatever `rmdir` asks for. -/
theorem survives_losses_mkdir :
    let s := [(0, .mkdir (BlockFuse.below 0x61) 0o755)].foldl
      (step Protobuf.wire BlockFuse.plainEnv)
      (new Protobuf.wire BlockFuse.plainEnv 0 3 0 asidesOfMkdir)
    (BlockFuse.program BlockFuse.plainEnv s.view.fuel 1 (.rmdir (BlockFuse.below 0x61))).UpTo
      (handler Protobuf.wire) (Served Protobuf.wire) (Survives Protobuf.wire) s :=
  survives_losses Protobuf.wire_sound (by decide +kernel) (1, .rmdir (BlockFuse.below 0x61))

end DuplicatePingFuse

end Pingfs
