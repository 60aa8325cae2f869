import Pingfs.Block.PendingRequests
import Pingfs.Block.ProtoWire
import Pingfs.Lib.Run
import Pingfs.Ping.PingBlockService

/-!
# The packets of freed blocks

A block manager subscribes to its service. When a packet comes in, `process` notifies the
subscribers of its block, and only then asks `should_recycle` whether the block was freed. So the
block manager hears of freed blocks too, and hands them out.

The two parts of `process` are separate steps here: other threads may register, free and request
blocks in between.

Sources: `ping_block_service.cc`, `track_freed_service.cc`, `ping_block_manager.cc`,
`async_block_manager.cc`.

## Main results

* `step_process_recycle` — the two steps, one after the other, are `process`
* `freed_discarded_iff` — the runs in which no freed block is delivered
-/

namespace Pingfs

/-- `class PingBlockManager` over a `TrackFreedService`, its id supplier aside. `handling` are the
packets whose block has been published and for which `should_recycle` is still to be asked. -/
structure PingBlockManager where
  pingBlockService : TrackFreedService
  asyncBlockManager : AsyncBlockManager
  handling : List (Block × EchoResponse)

namespace PingBlockManager

/-- A step of some thread. -/
inductive Event where
  | registerBlock (block : Block)
  | freeBlock (id : BlockId)
  /-- `get_blocks` up to the wait on its future. -/
  | getBlocks (request : List BlockId)
  /-- A packet arrives: `process` up to the end of the notification. -/
  | process (resp : EchoResponse)
  /-- The rest of `process`, for one of the packets being handled. -/
  | recycle (i : ℕ)

/-- A service that has sent nothing, and a block manager that no one has asked for a block. -/
def init (fsId id : UInt16) : PingBlockManager := ⟨⟨fsId, id, ∅⟩, .new, []⟩

variable (lib : Protobuf)

/-- The block that the subscribers are notified of. If the packet cannot be read, `process` throws
before. -/
def notified (m : PingBlockManager) : Event → Option Block
  | .process resp =>
    match m.pingBlockService.received lib resp with
    | .ok block => block
    | .error _ => none
  | _ => none

/-- The requests that a step sends. -/
def sent (m : PingBlockManager) : Event → List EchoRequest
  | .registerBlock block => [m.pingBlockService.registerBlock lib block]
  | .recycle i =>
    match m.handling[i]? with
    | none => []
    | some (block, resp) =>
      if (m.pingBlockService.shouldRecycle block.id).1 then [.ofResponse resp] else []
  | _ => []

/-- One step. -/
def step (m : PingBlockManager) (e : Event) : PingBlockManager :=
  match e with
  | .registerBlock _ => m
  | .freeBlock id => { m with pingBlockService := m.pingBlockService.freeBlock id }
  | .getBlocks request => { m with asyncBlockManager := m.asyncBlockManager.register request }
  | .process resp =>
    match m.notified lib e with
    | none => m
    | some block =>
      { m with
        asyncBlockManager := m.asyncBlockManager.process block
        handling := m.handling ++ [(block, resp)] }
  | .recycle i =>
    match m.handling[i]? with
    | none => m
    | some (block, _) =>
      { m with
        pingBlockService := (m.pingBlockService.shouldRecycle block.id).2
        handling := m.handling.eraseIdx i }

variable {lib}

theorem notified_process {m : PingBlockManager} {resp : EchoResponse} {notified : Option Block}
    (h : m.pingBlockService.received lib resp = .ok notified) :
    m.notified lib (.process resp) = notified := by
  rw [PingBlockManager.notified, h]

theorem step_process_of_notified {m : PingBlockManager} {resp : EchoResponse} {block : Block}
    (h : m.notified lib (.process resp) = some block) : m.step lib (.process resp) =
      { m with
        asyncBlockManager := m.asyncBlockManager.process block
        handling := m.handling ++ [(block, resp)] } := by
  rw [step, h]

/-- **The two steps of `process`**, one after the other, are `process` of the service. -/
theorem step_process_recycle {m : PingBlockManager} {resp : EchoResponse} {out : Processed}
    (h : m.pingBlockService.process lib resp = .ok out) :
    m.notified lib (.process resp) = out.notified ∧
      (out.notified = none → m.step lib (.process resp) = m ∧ out.service = m.pingBlockService ∧
        out.sent = []) ∧
      ∀ block, out.notified = some block →
        (m.step lib (.process resp)).sent lib (.recycle m.handling.length) = out.sent ∧
        (m.step lib (.process resp)).step lib (.recycle m.handling.length) =
          ⟨out.service, m.asyncBlockManager.process block, m.handling⟩ := by
  rw [TrackFreedService.process_eq] at h
  cases hreceived : m.pingBlockService.received lib resp with
  | error what =>
    rw [hreceived] at h
    cases h
  | ok notified =>
    have hnotified := notified_process hreceived
    rw [hreceived] at h
    cases notified with
    | none =>
      obtain rfl := Except.ok.inj h
      refine ⟨hnotified, fun _ => ⟨?_, rfl, rfl⟩, fun block hblock => ?_⟩
      · rw [step, hnotified]
      · cases hblock
    | some block =>
      obtain rfl := Except.ok.inj h
      refine ⟨hnotified, fun hnone => ?_, fun block' hblock => ?_⟩
      · cases hnone
      · obtain rfl := Option.some.inj hblock
        rw [step_process_of_notified hnotified]
        constructor
        · simp [sent]
        · simp [step, List.eraseIdx_append_of_length_le]

/-! ## Freed blocks -/

variable (lib) in
/-- A packet arrives that carries this block, whose id is in `freed_ids_`. -/
def FreedArrives (m : PingBlockManager) (e : Event) (block : Block) : Prop :=
  ∃ resp, e = .process resp ∧ m.pingBlockService.received lib resp = .ok (some block) ∧
    block.id ∈ m.pingBlockService.freedIds

variable (lib) in
/-- The packet of a freed block is discarded: no subscriber is notified, and no `get_blocks` call
completed. -/
def DiscardsFreed (m : PingBlockManager) (e : Event) : Prop :=
  ∀ block, FreedArrives lib m e block → m.notified lib e = none ∧
    ∀ p, (m.step lib e).asyncBlockManager.promised p = m.asyncBlockManager.promised p

variable (lib) in
/-- The packet of a freed block completes no `get_blocks` call. -/
def CompletesNone (m : PingBlockManager) (e : Event) : Prop :=
  ∀ block, FreedArrives lib m e block →
    ∀ p, (m.step lib e).asyncBlockManager.promised p = m.asyncBlockManager.promised p

/-- Some `get_blocks` call waits for the block with this id and for no other. -/
def LastMissing (m : PingBlockManager) (id : BlockId) : Prop :=
  ∃ response ∈ m.asyncBlockManager.responses, response.waitingOn = {id}

theorem FreedArrives.notified {m : PingBlockManager} {e : Event} {block : Block}
    (h : FreedArrives lib m e block) : m.notified lib e = some block := by
  obtain ⟨resp, rfl, hreceived, -⟩ := h
  exact notified_process hreceived

theorem FreedArrives.asyncBlockManager_step {m : PingBlockManager} {e : Event} {block : Block}
    (h : FreedArrives lib m e block) :
    (m.step lib e).asyncBlockManager = m.asyncBlockManager.step (.process block) := by
  have hnotified := h.notified
  obtain ⟨resp, rfl, -, -⟩ := h
  rw [step_process_of_notified hnotified]
  rfl

/-- The manager's map and its responses are in step, whatever the threads do. -/
theorem lockstep_step {m : PingBlockManager} (h : m.asyncBlockManager.Lockstep) (e : Event) :
    (m.step lib e).asyncBlockManager.Lockstep := by
  cases e with
  | registerBlock block => exact h
  | freeBlock id => exact h
  | getBlocks request => exact h.step (.getBlocks request)
  | process resp =>
    cases hnotified : m.notified lib (.process resp) with
    | none =>
      rw [step, hnotified]
      exact h
    | some block =>
      rw [step_process_of_notified hnotified]
      exact h.step (.process block)
  | recycle i =>
    rw [step]
    split
    · exact h
    · exact h

/-- A freed block completes a call exactly if it is the last one that is missing. -/
theorem FreedArrives.completes_iff {m : PingBlockManager} (hm : m.asyncBlockManager.Lockstep)
    {e : Event} {block : Block} (h : FreedArrives lib m e block) :
    (∀ p, (m.step lib e).asyncBlockManager.promised p = m.asyncBlockManager.promised p) ↔
      ¬ m.LastMissing block.id := by
  rw [h.asyncBlockManager_step]
  have hset := fun p r hr =>
    ((AsyncBlockManager.lockstep_iff.mp hm) p r hr).promised_step_ne_iff (.process block)
  constructor
  · rintro hkept ⟨response, hresponse, hlast⟩
    obtain ⟨p, hp⟩ := List.mem_iff_getElem?.mp hresponse
    exact (hset p response hp).mpr ⟨block, rfl, hlast⟩ (hkept p)
  · intro hnot p
    by_contra hne
    cases hp : m.asyncBlockManager.responses[p]? with
    | none =>
      have hlength : (m.asyncBlockManager.process block).responses.length =
          m.asyncBlockManager.responses.length := by
        rw [AsyncBlockManager.process]
        split <;> simp
      have hp' : (m.asyncBlockManager.process block).responses[p]? = none := by
        rw [List.getElem?_eq_none_iff, hlength]
        exact List.getElem?_eq_none_iff.mp hp
      refine hne ?_
      rw [AsyncBlockManager.promised, AsyncBlockManager.promised, AsyncBlockManager.step, hp, hp']
    | some response =>
      obtain ⟨block', hblock, hlast⟩ := (hset p response hp).mp hne
      cases hblock
      exact hnot ⟨response, List.mem_of_getElem? hp, hlast⟩

/-- **A freed block is delivered** whenever its packet arrives: a run discards the packets of freed
blocks if and only if none arrives. It completes no `get_blocks` call with them if and only if none
arrives that a call waits for alone. -/
theorem freed_discarded_iff (lib : Protobuf) (fsId id : UInt16) (es : List Event) :
    (Run.EveryStep (step lib) (DiscardsFreed lib) (init fsId id) es ↔
      Run.EveryStep (step lib) (fun m e => ∀ block, ¬ FreedArrives lib m e block) (init fsId id)
        es) ∧
    (Run.EveryStep (step lib) (CompletesNone lib) (init fsId id) es ↔
      Run.EveryStep (step lib) (fun m e => ∀ block, FreedArrives lib m e block →
        ¬ m.LastMissing block.id) (init fsId id) es) := by
  have hinit : (init fsId id).asyncBlockManager.Lockstep := AsyncBlockManager.lockstep_run []
  constructor
  · refine Run.everyStep_congr (I := fun _ => True) trivial (fun _ _ _ => trivial) fun m e _ => ?_
    constructor
    · intro hdiscards block hfreed
      have hsome := hfreed.notified
      rw [(hdiscards block hfreed).1] at hsome
      cases hsome
    · intro hnone block hfreed
      exact absurd hfreed (hnone block)
  · refine Run.everyStep_congr (I := fun m => m.asyncBlockManager.Lockstep) hinit
      (fun _ e hm => lockstep_step hm e) fun m e hm => ?_
    exact forall_congr' fun block => imp_congr_right fun hfreed => hfreed.completes_iff hm

/-! ### A block that is freed while its packet is on the way -/

/-- A block is asked for and freed, and then its packet comes back. -/
def freedOnTheWay : List Event :=
  [.registerBlock ⟨1, .fileContents ⟨[7]⟩⟩, .getBlocks [1], .freeBlock 1]

/-- The freed block is delivered. -/
theorem freed_block_delivered :
    let m := freedOnTheWay.foldl (step Protobuf.wire) (init 3 0)
    let packet := (m.pingBlockService.registerBlock Protobuf.wire ⟨1, .fileContents ⟨[7]⟩⟩).echo
    m.pingBlockService.freedIds = {1} ∧
    m.notified Protobuf.wire (.process packet) = some ⟨1, .fileContents ⟨[7]⟩⟩ ∧
    m.asyncBlockManager.promised 0 = some [] ∧
    (m.step Protobuf.wire (.process packet)).asyncBlockManager.promised 0 =
      some [[⟨1, .fileContents ⟨[7]⟩⟩]] := by
  decide

end PingBlockManager

end Pingfs
