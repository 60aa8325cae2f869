import Pingfs.Fs.PingFuse
import Pingfs.Ping.SocketNetwork

/-!
# The file system in bytes

`BlockFuse` over a `PingBlockManager` whose service shares a `Ping` with other services, down to the
bytes on the socket. While a call to the block manager goes on, other threads, remote hosts and the
network do as they like: requests are echoed, other packets come in, chunks of any sizes are
received, published responses are handed out in any order, and the other services, perhaps those of
other file systems, send and free blocks of their own. What happens during each call is a parameter
of the state; what comes in fits the reply buffer, and receives do not overlap, as in
`SocketNetwork`.

Nothing of this is seen by the file system but the packets of its own service, as they are handed
out: it is a `PingFuse`, and so replies as the namespace does.

Sources: `ping.cc`, `publisher.hpp`, `ping_block_service.cc`, `ping_block_manager.cc`,
`async_block_manager.cc`, `block_fuse.cc`.

## Main results

* `SocketFuse.Matches.handler_alike` — one call, over bytes and over packets
* `SocketFuse.runs_over_socket` — a whole run gives what the namespace gives
* `SocketFuse.nobody_waits` — and every request for blocks has been answered once
-/

namespace Pingfs

open FsM BlockUtil

/-- What a file system is run over: the services that subscribed to the `Ping`, with its own `who`
among them, and the code it is linked with. -/
structure SocketFuse.Host (ι : Type) where
  lib : Protobuf
  uninit : UInt8
  subscribers : List ι
  who : ι
  nodup : subscribers.Nodup
  mem : who ∈ subscribers

/-- A file system over the service of a socket. -/
structure SocketFuse (ι : Type) where
  idSupplier : CounterSupplier
  network : SocketNetwork ι
  asyncBlockManager : AsyncBlockManager
  rootBlock : Block
  /-- What happens during each of the next calls to the block manager. -/
  asides : List (List (SocketNetwork.Event ι))

namespace SocketFuse

variable {ι : Type} [DecidableEq ι]

/-- One step on the host. -/
abbrev Host.step (host : Host ι) : SocketNetwork ι → SocketNetwork.Event ι → SocketNetwork ι :=
  SocketNetwork.step host.lib host.uninit host.subscribers

variable (host : Host ι)

/-- The step is none of the block manager's. -/
def Aside : SocketNetwork.Event ι → Prop
  | .registerBlock i _ | .freeBlock i _ => i ≠ host.who
  | .echo .. | .other _ | .receive _ | .notify _ => True

instance : (e : SocketNetwork.Event ι) → Decidable (Aside host e)
  | .registerBlock .. | .freeBlock .. => inferInstanceAs (Decidable (_ ≠ _))
  | .echo .. | .other _ | .receive _ | .notify _ => .isTrue trivial

/-- What the service of the file system notifies its subscribers of, in the loop of `Ping`'s
`notify`. -/
def heardLoop (resp : EchoResponse) : List ι → SocketNetwork ι → List Block
  | [], _ => []
  | i :: rest, c =>
    match (c.services i).process host.lib resp with
    | .ok out =>
      (if i = host.who then out.notified.toList else []) ++ heardLoop resp rest (c.processed i out)
    | .error _ => []

/-- What the service notifies its subscribers of in a step. -/
def heard (c : SocketNetwork ι) : SocketNetwork.Event ι → List Block
  | .notify i =>
    match c.ping.published[i]? with
    | none => []
    | some resp => heardLoop host resp host.subscribers (c.taken i)
  | _ => []

/-- One thing happens. The block manager is the subscriber of its service. -/
def happen (s : SocketFuse ι) (e : SocketNetwork.Event ι) : SocketFuse ι :=
  { s with
    network := host.step s.network e
    asyncBlockManager :=
      (heard host s.network e).foldl AsyncBlockManager.process s.asyncBlockManager }

/-- What happens during a call. -/
def settle (s : SocketFuse ι) : SocketFuse ι :=
  { (s.asides.headD []).foldl (happen host) s with asides := s.asides.tail }

/-- `PingBlockManager::create_block`, when it has got an id. -/
def register (s : SocketFuse ι) (idSupplier : CounterSupplier) (block : Block) : SocketFuse ι :=
  { s with idSupplier, network := host.step s.network (.registerBlock host.who block) }

/-- `PingBlockManager::free_block`. -/
def free (s : SocketFuse ι) (id : BlockId) : SocketFuse ι :=
  { s with network := host.step s.network (.freeBlock host.who id) }

/-- `AsyncBlockManager::get_blocks` up to the wait on the future. -/
def request (s : SocketFuse ι) (ids : List BlockId) : SocketFuse ι :=
  { s with asyncBlockManager := s.asyncBlockManager.register ids }

/-- The value of the future that the last request waits on, if it is set. -/
def future (before after : SocketFuse ι) : Option (List Block) :=
  after.asyncBlockManager.responses[before.asyncBlockManager.responses.length]? >>=
    AsyncResponse.future

/-- How the calls act on the state. -/
def handler : Program.Handler FsCall FsCall.Reply Halt (SocketFuse ι)
  | .createBlock data, s =>
    match s.idSupplier.nextId with
    | .error what => .halted (.threw what) s
    | .ok (id, idSupplier) =>
      .returned ⟨id, data⟩ ((s.register host idSupplier ⟨id, data⟩).settle host)
  | .managerFreeBlock id, s => .returned () ((s.free host id).settle host)
  | .getBlocks ids, s =>
    match s.future ((s.request ids).settle host) with
    | some blocks => .returned (blocks.map some) ((s.request ids).settle host)
    -- it waits for ever
    | none => .halted .diverged ((s.request ids).settle host)
  | .getRootBlock, s => .returned s.rootBlock s
  | .setRootBlock newRoot, s => .returned () { s with rootBlock := newRoot }
  | .freeBlock id, s => .returned () ((s.free host id).settle host)

/-! ## What happens meanwhile -/

/-- The packets of the service that a step hands to it. -/
def arrivals (c : SocketNetwork ι) (e : SocketNetwork.Event ι) : List EchoRequest :=
  (c.eventsOf host.who e).filterMap fun
    | .arrive packet => some packet
    | _ => none

/-- The packets of the service that are handed to it meanwhile. -/
def packets (s : SocketFuse ι) : List EchoRequest :=
  Run.refined (happen host) (fun s e => arrivals host s.network e) s (s.asides.headD [])

/-- Things happen one after the other, each when it can, and none is the block manager's. -/
def Happens (s : SocketFuse ι) : Prop :=
  Run.EveryStep (happen host) (fun s e => s.network.Allowed e ∧ Aside host e) s (s.asides.headD [])

instance [Fintype ι] (s : SocketFuse ι) : Decidable (Happens host s) :=
  inferInstanceAs (Decidable (Run.EveryStep _ _ _ _))

variable {host} {c : SocketNetwork ι} {resp : EchoResponse} {subscribers : List ι}

/-! ### Who hears a response -/

theorem heardLoop_of_notMem (hnot : host.who ∉ subscribers) :
    heardLoop host resp subscribers c = [] := by
  induction subscribers generalizing c with
  | nil => rfl
  | cons i rest ih =>
    obtain ⟨hne, hrest⟩ := List.ne_and_not_mem_of_not_mem_cons hnot
    rw [heardLoop]
    cases (c.services i).process host.lib resp with
    | error what => rfl
    | ok out =>
      show (if i = host.who then out.notified.toList else []) ++ _ = []
      rw [if_neg (Ne.symm hne), ih hrest]
      rfl

theorem heardLoop_of_not_isFor (hnot : ¬ (c.services host.who).IsFor resp) :
    heardLoop host resp subscribers c = [] := by
  induction subscribers generalizing c with
  | nil => rfl
  | cons i rest ih =>
    rw [heardLoop]
    by_cases hi : i = host.who
    · subst hi
      rw [TrackFreedService.process_of_not_isFor hnot]
      show (if host.who = host.who then [] else []) ++
        heardLoop host resp rest (c.processed host.who ⟨c.services host.who, none, []⟩) = []
      rw [SocketNetwork.processed_of_not_isFor, ih hnot, ite_self]
      rfl
    · cases (c.services i).process host.lib resp with
      | error what => rfl
      | ok out =>
        have hsame : (c.processed i out).services host.who = c.services host.who :=
          Function.update_of_ne (Ne.symm hi) ..
        show (if i = host.who then out.notified.toList else []) ++ _ = []
        rw [if_neg hi, ih (by rwa [hsame])]
        rfl

theorem heardLoop_of_isFor (hnodup : subscribers.Nodup) (hmem : host.who ∈ subscribers)
    (hseparate : SocketNetwork.Separate c.services) (hfor : (c.services host.who).IsFor resp) :
    heardLoop host resp subscribers c =
      match (c.services host.who).process host.lib resp with
      | .ok out => out.notified.toList
      | .error _ => [] := by
  induction subscribers with
  | nil => exact absurd hmem List.not_mem_nil
  | cons i rest ih =>
    obtain ⟨hi, hrest⟩ := List.nodup_cons.mp hnodup
    rw [heardLoop]
    by_cases hwho : i = host.who
    · subst hwho
      cases (c.services host.who).process host.lib resp with
      | error what => rfl
      | ok out =>
        show (if host.who = host.who then out.notified.toList else []) ++
          heardLoop host resp rest _ = _
        rw [if_pos rfl, heardLoop_of_notMem hi, List.append_nil]
    · have hother : ¬ (c.services i).IsFor resp :=
        fun hfori => hwho (hseparate i host.who resp hfori hfor)
      rw [TrackFreedService.process_of_not_isFor hother]
      show (if i = host.who then [] else []) ++
        heardLoop host resp rest (c.processed i ⟨c.services i, none, []⟩) = _
      rw [SocketNetwork.processed_of_not_isFor, ite_self, List.nil_append]
      exact ih hrest ((List.mem_cons.mp hmem).resolve_left (Ne.symm hwho))

/-! ## The packets that it amounts to -/

/-- The file system is the one over packets. -/
structure Matches (host : Host ι) (s : SocketFuse ι) (p : PingFuse) : Prop where
  network : SocketNetwork.Refines host.who s.network p.network
  idSupplier_eq : s.idSupplier = p.idSupplier
  asyncBlockManager_eq : s.asyncBlockManager = p.asyncBlockManager
  rootBlock_eq : s.rootBlock = p.rootBlock

theorem eventsOf_of_aside {e : SocketNetwork.Event ι} (he : Aside host e) :
    c.eventsOf host.who e = (arrivals host c e).map .arrive := by
  cases e with
  | registerBlock i block =>
    have hne : ¬ i = host.who := he
    simp [arrivals, SocketNetwork.eventsOf, hne]
  | freeBlock i id =>
    have hne : ¬ i = host.who := he
    simp [arrivals, SocketNetwork.eventsOf, hne]
  | notify i =>
    rw [arrivals, SocketNetwork.eventsOf]
    cases c.ping.published[i]? with
    | none => rfl
    | some resp =>
      by_cases hfor : (c.services host.who).IsFor resp
      · simp [hfor]
      · simp [hfor]
  | echo request header checksum => rfl
  | other packet => rfl
  | receive length => rfl

/-- **The block manager hears** what it hears over packets. -/
theorem heard_eq {p : PingFuse} (h : SocketNetwork.Refines host.who c p.network)
    (e : SocketNetwork.Event ι) :
    (heard host c e).foldl AsyncBlockManager.process p.asyncBlockManager =
      ((arrivals host c e).foldl (PingFuse.arrive host.lib) p).asyncBlockManager := by
  cases e with
  | notify i =>
    rw [heard, arrivals, SocketNetwork.eventsOf]
    cases c.ping.published[i]? with
    | none => rfl
    | some resp =>
      obtain ⟨hseparate, flying, -, hpart⟩ := h
      by_cases hfor : (c.services host.who).IsFor resp
      · have hheard : heardLoop host resp host.subscribers (c.taken i) =
            match (c.services host.who).process host.lib resp with
            | .ok out => out.notified.toList
            | .error _ => [] := heardLoop_of_isFor host.nodup host.mem hseparate hfor
        simp only [hfor, if_true, hheard, List.filterMap_cons, List.filterMap_nil, List.foldl_cons,
          List.foldl_nil, PingFuse.arrive, SocketNetwork.echo_ofResponse, hpart.service_eq]
        cases (c.services host.who).process host.lib resp with
        | error what => rfl
        | ok out =>
          obtain ⟨service, notified, sent⟩ := out
          cases notified with
          | none => rfl
          | some block => rfl
      · have hheard : heardLoop host resp host.subscribers (c.taken i) = [] :=
          heardLoop_of_not_isFor hfor
        simp [hfor, hheard]
  | registerBlock i block =>
    rw [arrivals, SocketNetwork.eventsOf]
    by_cases hi : i = host.who
    · simp [hi, heard]
    · simp [hi, heard]
  | freeBlock i id =>
    rw [arrivals, SocketNetwork.eventsOf]
    by_cases hi : i = host.who
    · simp [hi, heard]
    · simp [hi, heard]
  | echo request header checksum => rfl
  | other packet => rfl
  | receive length => rfl

variable {s : SocketFuse ι} {p : PingFuse}

omit [DecidableEq ι] in
theorem Matches.withEchoes (h : Matches host s p) (echoes : List (List EchoRequest)) :
    Matches host s { p with echoes } :=
  ⟨h.network, h.idSupplier_eq, h.asyncBlockManager_eq, h.rootBlock_eq⟩

/-- **One thing that happens** hands packets to the service, or none. -/
theorem Matches.happen (h : Matches host s p) {e : SocketNetwork.Event ι}
    (he : s.network.Allowed e) (haside : Aside host e) :
    Run.EveryStep (PingFuse.arrive host.lib) (fun p packet => packet ∈ p.network.inFlight) p
        (arrivals host s.network e) ∧
      Matches host (s.happen host e)
        ((arrivals host s.network e).foldl (PingFuse.arrive host.lib) p) := by
  have hnetwork : Run.EveryStep (PingNetwork.step host.lib) PingNetwork.Orderly p.network
      (s.network.eventsOf host.who e) ∧ SocketNetwork.Refines host.who (host.step s.network e)
        ((s.network.eventsOf host.who e).foldl (PingNetwork.step host.lib) p.network) :=
    h.network.step host.nodup host.mem he
  have hview : ((arrivals host s.network e).foldl (PingFuse.arrive host.lib) p).view = p.view :=
    PingFuse.view_foldl_arrive ..
  obtain ⟨horderly, hafter⟩ := hnetwork
  rw [eventsOf_of_aside haside, Run.everyStep_map] at horderly
  rw [eventsOf_of_aside haside, List.foldl_map, ← PingFuse.network_foldl_arrive] at hafter
  refine ⟨(PingFuse.arrive_iff host.lib p _).mp horderly, hafter, ?_, ?_, ?_⟩
  · exact h.idSupplier_eq.trans (congrArg (·.manager.idSupplier) hview).symm
  · rw [← heard_eq h.network, ← h.asyncBlockManager_eq]
    rfl
  · exact h.rootBlock_eq.trans (congrArg (·.rootBlock) hview).symm

/-- **What happens during a call** hands packets to the service, each of them in flight. -/
theorem Matches.settle (h : Matches host s p) (hhappens : Happens host s) :
    PingFuse.Arrive host.lib p.network (packets host s) ∧
      Matches host (s.settle host)
        (PingFuse.settle host.lib { p with echoes := [packets host s] }) := by
  obtain ⟨harrive, hend⟩ := Run.EveryStep.simulates hhappens (h.withEchoes [])
    fun _ _ _ hmatches he => hmatches.happen he.1 he.2
  refine ⟨?_, hend.network, hend.idSupplier_eq, hend.asyncBlockManager_eq, hend.rootBlock_eq⟩
  exact (PingFuse.arrive_iff host.lib { p with echoes := [] } _).mpr harrive

theorem Matches.register (h : Matches host s p) (idSupplier : CounterSupplier) (block : Block) :
    Matches host (s.register host idSupplier block) (p.register host.lib idSupplier block) := by
  have hnetwork : SocketNetwork.Refines host.who
      (host.step s.network (.registerBlock host.who block)) _ := h.network.registerBlock ..
  rw [SocketNetwork.eventsOf, if_pos rfl] at hnetwork
  exact ⟨hnetwork, rfl, h.asyncBlockManager_eq, h.rootBlock_eq⟩

theorem Matches.free (h : Matches host s p) (id : BlockId) :
    Matches host (s.free host id) (p.free host.lib id) := by
  have hnetwork : SocketNetwork.Refines host.who
      (host.step s.network (.freeBlock host.who id)) _ := h.network.freeBlock ..
  rw [SocketNetwork.eventsOf, if_pos rfl] at hnetwork
  exact ⟨hnetwork, h.idSupplier_eq, h.asyncBlockManager_eq, h.rootBlock_eq⟩

omit [DecidableEq ι] in
theorem Matches.request (h : Matches host s p) (ids : List BlockId) :
    Matches host (s.request ids) (p.request ids) :=
  ⟨h.network, h.idSupplier_eq, congrArg (·.register ids) h.asyncBlockManager_eq, h.rootBlock_eq⟩

omit [DecidableEq ι] in
theorem Matches.future_eq (h : Matches host s p) {s' : SocketFuse ι} {p' : PingFuse}
    (h' : Matches host s' p') : s.future s' = p.future p' := by
  rw [future, PingFuse.future, h.asyncBlockManager_eq, h'.asyncBlockManager_eq]

/-! ## One call -/

variable (host) in
/-- What happens during a call can happen, and what the call asks for is handed out in the order in
which it is asked for. -/
def Served : FsCall → SocketFuse ι → Prop
  | .createBlock data, s =>
    Happens host (s.register host ⟨s.idSupplier.next + 1⟩ ⟨s.idSupplier.next, data⟩)
  | .managerFreeBlock id, s | .freeBlock id, s => Happens host (s.free host id)
  | .getBlocks ids, s =>
    Happens host (s.request ids) ∧ PingFuse.InOrder host.lib ids (packets host (s.request ids))
  | .getRootBlock, _ | .setRootBlock _, _ => True

instance Served.decidable [Fintype ι] :
    (call : FsCall) → (s : SocketFuse ι) → Decidable (Served host call s)
  | .createBlock _, _ => inferInstanceAs (Decidable (Happens ..))
  | .managerFreeBlock _, _ => inferInstanceAs (Decidable (Happens ..))
  | .freeBlock _, _ => inferInstanceAs (Decidable (Happens ..))
  | .getBlocks _, _ => inferInstanceAs (Decidable (_ ∧ _))
  | .getRootBlock, _ => inferInstanceAs (Decidable True)
  | .setRootBlock _, _ => inferInstanceAs (Decidable True)

/-- **One call**, over bytes and over packets: what comes back to the service serves it. -/
theorem Matches.handler_alike (h : Matches host s p) (call : FsCall)
    (hserved : Served host call s) :
    ∃ echoes, PingFuse.Served host.lib call { p with echoes } ∧
      (handler host call s).Alike (Matches host)
        (PingFuse.handler host.lib call { p with echoes }) := by
  cases call with
  | createBlock data =>
    obtain ⟨idSupplier, n, m, root, echoes⟩ := p
    obtain rfl : s.idSupplier = idSupplier := h.idSupplier_eq
    by_cases hz : s.idSupplier.next = 0
    · refine ⟨[], trivial, ?_⟩
      rw [handler, PingFuse.handler, CounterSupplier.nextId_of_eq_zero hz]
      exact ⟨rfl, h.withEchoes []⟩
    · obtain ⟨harrive, hafter⟩ := (h.register _ _).settle hserved
      refine ⟨[packets host (s.register host ⟨s.idSupplier.next + 1⟩ ⟨s.idSupplier.next, data⟩)],
        harrive, ?_⟩
      rw [handler, PingFuse.handler, CounterSupplier.nextId_of_ne_zero hz]
      exact ⟨rfl, hafter⟩
  | managerFreeBlock id =>
    obtain ⟨harrive, hafter⟩ := (h.free id).settle hserved
    exact ⟨[_], harrive, rfl, hafter⟩
  | getBlocks ids =>
    obtain ⟨hhappens, horder⟩ := hserved
    obtain ⟨harrive, hafter⟩ := (h.request ids).settle hhappens
    refine ⟨[packets host (s.request ids)], ⟨harrive, horder⟩, ?_⟩
    have hfuture : s.future ((s.request ids).settle host) =
        PingFuse.future { p with echoes := [packets host (s.request ids)] }
          (PingFuse.settle host.lib
            (PingFuse.request { p with echoes := [packets host (s.request ids)] } ids)) :=
      h.future_eq hafter
    rw [handler, PingFuse.handler, ← hfuture]
    cases s.future ((s.request ids).settle host) with
    | none => exact ⟨rfl, hafter⟩
    | some blocks => exact ⟨rfl, hafter⟩
  | getRootBlock => exact ⟨[], trivial, congrArg Except.ok h.rootBlock_eq.symm, h.withEchoes []⟩
  | setRootBlock newRoot =>
    exact ⟨[], trivial, rfl, h.network, h.idSupplier_eq, h.asyncBlockManager_eq, rfl⟩
  | freeBlock id =>
    obtain ⟨harrive, hafter⟩ := (h.free id).settle hserved
    exact ⟨[_], harrive, rfl, hafter⟩

/-! ## The view in memory -/

variable (host) in
/-- The block with an id that was registered and not freed. -/
def stored (c : SocketNetwork ι) (id : BlockId) : Option (Option Block) :=
  if id ∈ c.freed host.who then none
  else ((c.registered host.who).find? fun b => b.id = id).map some

variable (host) in
/-- The file system in memory with the same blocks. -/
def view (s : SocketFuse ι) : BlockFuse := ⟨⟨s.idSupplier, stored host s.network⟩, s.rootBlock⟩

omit [DecidableEq ι] in
theorem Matches.view_eq (h : Matches host s p) : s.view host = p.view := by
  obtain ⟨-, flying, -, hpart⟩ := h.network
  have hstored : stored host s.network = PingFuse.stored p.network := by
    funext id
    rw [stored, PingFuse.stored, hpart.freed_eq, hpart.registered_eq]
  rw [view, PingFuse.view, hstored, h.idSupplier_eq, h.rootBlock_eq]

variable (host) in
/-- It amounts to a file system over packets that keeps its blocks and leaves nobody waiting. -/
def Inv (s : SocketFuse ι) : Prop := ∃ p, Matches host s p ∧ PingFuse.QuietInv host.lib p

omit [DecidableEq ι] in
theorem Inv.quiet (h : Inv host s) : s.asyncBlockManager.Quiet := by
  obtain ⟨p, hmatches, hquiet⟩ := h
  rw [hmatches.asyncBlockManager_eq]
  exact hquiet.quiet

/-- **One call**, over bytes and in memory. -/
theorem hosts (hlib : host.lib.Sound) :
    BlockFuse.Hosts (handler host) (Served host) (Inv host) (view host) := by
  rintro call s _ ⟨⟨p, hmatches, hinv⟩, rfl⟩ hserved hmapped
  obtain ⟨echoes, hpackets, hresult, hafter⟩ := hmatches.handler_alike call hserved
  have hinv' : PingFuse.QuietInv host.lib { p with echoes } :=
    ⟨⟨hinv.inv.conserved, hinv.inv.le_idsUsed⟩, hinv.quiet⟩
  rw [hmatches.view_eq] at hmapped ⊢
  obtain ⟨hmemory, hkept, hview⟩ :=
    PingFuse.hosts_quiet hlib call _ _ ⟨hinv', rfl⟩ hpackets hmapped
  exact ⟨hmemory.trans hresult, ⟨_, hafter, hkept⟩, hafter.view_eq.trans hview⟩

/-! ## Runs -/

variable (host) in
/-- A call of the file system at time `now`. -/
def exec (env : Env) (s : SocketFuse ι) (call : Int64 × BlockFuse.Call) :
    Outcome Halt (SocketFuse ι) BlockFuse.Reply :=
  BlockFuse.hostedExec (handler host) (view host) env s call

variable (host) in
/-- The state after a call, however it ended. -/
def step (env : Env) (s : SocketFuse ι) (call : Int64 × BlockFuse.Call) : SocketFuse ι :=
  (exec host env s call).state

variable (host) in
/-- `BlockFuse::BlockFuse` over a new block manager: the root is the first block that is sent. -/
def new (services : ι → TrackFreedService) (env : Env) (now : Int64)
    (asides : List (List (SocketNetwork.Event ι))) : SocketFuse ι where
  idSupplier := ⟨2⟩
  network := host.step (.init services)
    (.registerBlock host.who ⟨1, BlockFuse.makeRootBlockData env now⟩)
  asyncBlockManager := .new
  rootBlock := ⟨1, BlockFuse.makeRootBlockData env now⟩
  asides := asides

variable (host) in
/-- All that the call asks the block manager for is served, and there are ids enough for it. -/
abbrev Works (env : Env) (s : SocketFuse ι) (call : Int64 × BlockFuse.Call) : Prop :=
  BlockFuse.Works (handler host) (Served host) (view host) env s call

theorem inv_new {services : ι → TrackFreedService}
    (hseparate : SocketNetwork.Separate services) (hfreed : (services host.who).freedIds = ∅)
    (env : Env) (now : Int64) (asides : List (List (SocketNetwork.Event ι))) :
    Inv host (new host services env now asides) ∧
      (new host services env now asides).view host = BlockFuse.new env now := by
  let p := PingFuse.new host.lib env now (services host.who).fsId (services host.who).id []
  have hnew : Matches host ⟨⟨2⟩, .init services, .new, _, asides⟩
      ⟨⟨2⟩, .init (services host.who).fsId (services host.who).id, .new, p.rootBlock, []⟩ :=
    ⟨SocketNetwork.refines_init hseparate hfreed, rfl, rfl, rfl⟩
  have hmatches : Matches host (new host services env now asides) p := hnew.register ..
  have hinv : PingFuse.QuietInv host.lib p :=
    ⟨(PingFuse.represents_new ..).inv, AsyncBlockManager.quiet_new⟩
  exact ⟨⟨p, hmatches, hinv⟩, hmatches.view_eq.trans (PingFuse.view_new ..)⟩

/-- The file system is over the second of two services. -/
def secondOfTwo : Host Bool := ⟨Protobuf.wire, 0, [true, false], false, by decide, by decide⟩

/-- The IPv4 header of the echo of a request. -/
def headerFor (request : Bytes) : Bytes :=
  let length := 20 + request.length
  [0x45, 0, .ofNat (length / 256), .ofNat (length % 256), 0, 0, 0, 0, 64, 1, 0, 0, 10, 0, 0, 2, 10,
    0, 0, 1]

/-- While the directory `/a` is made, the other service sends a block and a packet of another
protocol comes in; the packet of the old root comes back in two chunks, and dies; then that of the
new directory comes back in two chunks, as it is looked at. -/
def asidesOfMkdir : List (List (SocketNetwork.Event Bool)) :=
  let root := (PingFuse.packetOf ⟨1, BlockFuse.makeRootBlockData BlockFuse.plainEnv 0⟩).serialize
  let dir := (PingFuse.packetOf ⟨2, .dirFile ⟨[0x61],
    ⟨⟨.readWriteExecute, .readExecute, .readExecute, .dir⟩, 0, 0, 1, 0, 0, 0⟩, []⟩⟩).serialize
  [[.registerBlock true ⟨1, .link ⟨[2]⟩⟩, .other Ping.udpHeader],
    [.echo root (headerFor root) [0, 0], .receive 30], [.receive 1000, .notify 0],
    [.echo dir (headerFor dir) [0, 0], .receive 25, .receive 1000, .notify 0]]

section

variable {services : ι → TrackFreedService} {env : Env} {now : Int64}
  {asides : List (List (SocketNetwork.Event ι))} {calls : List (Int64 × BlockFuse.Call)}

/-- **A run of a new file system**, in bytes and in the namespace. -/
theorem run_refines (hlib : host.lib.Sound)
    (hids : Function.Injective fun who => ((services who).fsId, (services who).id))
    (hfreed : (services host.who).freedIds = ∅)
    (hworks : Run.EveryStep (step host env) (Works host env) (new host services env now asides)
      calls) :
    Run.trace (step host env) (fun s call => (exec host env s call).result)
        (new host services env now asides) calls =
      Run.trace (Namespace.step env BlockFuse.storedContents)
        (fun n call => (n.exec env BlockFuse.storedContents call).1) (.new env now) calls ∧
      Inv host (calls.foldl (step host env) (new host services env now asides)) := by
  obtain ⟨hinv, hview⟩ :=
    inv_new (SocketNetwork.separate_of_injective hids) hfreed env now asides
  have hnew : BlockFuse.Represents ((new host services env now asides).view host)
      (.new env now) := by
    rw [hview]
    exact BlockFuse.represents_new env now
  obtain ⟨hreplies, hend, -⟩ := (hosts hlib).run_refines hinv hnew hworks
  exact ⟨hreplies, hend⟩

/-- **The replies of a new file system** are those of a new namespace, whatever the chunks in which
packets come in, whatever comes in between, and whatever other services on the socket do, as long as
what is asked for comes back. -/
theorem runs_over_socket (hlib : host.lib.Sound)
    (hids : Function.Injective fun who => ((services who).fsId, (services who).id))
    (hfreed : (services host.who).freedIds = ∅)
    (hworks : Run.EveryStep (step host env) (Works host env) (new host services env now asides)
      calls) :
    Run.trace (step host env) (fun s call => (exec host env s call).result)
        (new host services env now asides) calls =
      Run.trace (Namespace.step env BlockFuse.storedContents)
        (fun n call => (n.exec env BlockFuse.storedContents call).1) (.new env now) calls :=
  (run_refines hlib hids hfreed hworks).1

theorem runs_over_socket_mkdir :
    let calls := [(0, .mkdir (BlockFuse.below 0x61) 0o755), (1, .getattr (BlockFuse.below 0x61))]
    let start := new secondOfTwo SocketNetwork.twoServices BlockFuse.plainEnv 0 asidesOfMkdir
    Run.trace (step secondOfTwo BlockFuse.plainEnv)
        (fun s call => (exec secondOfTwo BlockFuse.plainEnv s call).result) start calls =
      Run.trace (Namespace.step BlockFuse.plainEnv BlockFuse.storedContents)
        (fun n call => (n.exec BlockFuse.plainEnv BlockFuse.storedContents call).1)
        (.new BlockFuse.plainEnv 0) calls :=
  runs_over_socket Protobuf.wire_sound SocketNetwork.injective_twoServices rfl (by decide +kernel)

/-- **Nobody is left waiting.** After each such run no id is waited for, and each request for blocks
that was ever made has been answered, once. -/
theorem nobody_waits (hlib : host.lib.Sound)
    (hids : Function.Injective fun who => ((services who).fsId, (services who).id))
    (hfreed : (services host.who).freedIds = ∅)
    (hworks : Run.EveryStep (step host env) (Works host env) (new host services env now asides)
      calls) :
    (calls.foldl (step host env) (new host services env now asides)).asyncBlockManager.Quiet :=
  (run_refines hlib hids hfreed hworks).2.quiet

theorem nobody_waits_mkdir :
    let calls := [(0, .mkdir (BlockFuse.below 0x61) 0o755), (1, .getattr (BlockFuse.below 0x61))]
    let start := new secondOfTwo SocketNetwork.twoServices BlockFuse.plainEnv 0 asidesOfMkdir
    (calls.foldl (step secondOfTwo BlockFuse.plainEnv) start).asyncBlockManager.Quiet :=
  nobody_waits Protobuf.wire_sound SocketNetwork.injective_twoServices rfl (by decide +kernel)

end

end SocketFuse

end Pingfs
