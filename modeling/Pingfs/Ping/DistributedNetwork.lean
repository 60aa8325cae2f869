import Pingfs.Ping.Copies

/-!
# The nodes of a distributed file system

`DistributedFreedService::register_block` sends a block to the node's own remote host, and another
packet for each of its other nodes, in which that node is the spoofed source, so that the remote
host echoes to it. From then on each node that has got a packet of the block bounces its own one.
`free_block` is not distributed: it tells none of the others.

Each node is a `LossyNetwork` with the packets that come back to it. `FS_ID` is one constant, and
the service that a process makes first has the id `0`, so the nodes have the same two ids; what one
of them translates another one takes for its own.

Sources: `distributed_freed_service.cc`, `ping_block_service.cc`, `track_freed_service.cc`,
`distributed_fs.cc`.

## Main results

* `DistributedNetwork.sendToAdditionalEndpts_apply` — what each node gets
* `DistributedNetwork.copies_at` — the copies of a block at one node
-/

namespace Pingfs

/-- The nodes, each with the packets that come back to it; the blocks in its `registered` are those
that were sent its way, by itself or by another node. -/
abbrev DistributedNetwork (ι : Type) := ι → LossyNetwork

namespace DistributedNetwork

variable {ι : Type} [DecidableEq ι]

/-- A step of a node, or the loss of a packet on its way back to one. -/
inductive Event (ι : Type) where
  | registerBlock (who : ι) (block : Block)
  | registerRoot (who : ι) (rootBlock : Block)
  | freeBlock (who : ι) (id : BlockId)
  | arrive (who : ι) (packet : EchoRequest)
  | lose (who : ι) (packet : EchoRequest)
  deriving DecidableEq

/-- Nodes that have sent nothing. -/
def init (fsId id : UInt16) : DistributedNetwork ι := fun _ => .init fsId id

/-- A request with the node as its source is on the way. -/
def spoofed (n : LossyNetwork) (request : EchoRequest) (block : Block) : LossyNetwork :=
  { n with
    network := { n.network with
      inFlight := n.network.inFlight + {request}
      registered := block :: n.network.registered } }

variable (lib : Protobuf) (otherNodes : ι → List ι)

/-- `DistributedFreedService::send_to_additional_endpts`. -/
def sendToAdditionalEndpts (c : DistributedNetwork ι) (who : ι) (block : Block) :
    DistributedNetwork ι :=
  let request := (c who).network.service.translate lib block
  (otherNodes who).foldl
    (fun c other => Function.update c other (spoofed (c other) request block)) c

/-- One step. -/
def step (c : DistributedNetwork ι) : Event ι → DistributedNetwork ι
  | .registerBlock who block =>
    sendToAdditionalEndpts lib otherNodes
      (Function.update c who ((c who).step lib (.register block))) who block
  | .registerRoot who rootBlock => sendToAdditionalEndpts lib otherNodes c who rootBlock
  | .freeBlock who id => Function.update c who ((c who).step lib (.free id))
  | .arrive who packet => Function.update c who ((c who).step lib (.arrive packet))
  | .lose who packet => Function.update c who ((c who).step lib (.lose packet))

/-- Only what is in flight arrives or is lost. -/
def Allowed (c : DistributedNetwork ι) : Event ι → Prop
  | .registerBlock .. => True
  | .registerRoot .. => True
  | .freeBlock .. => True
  | .arrive who packet => packet ∈ (c who).network.inFlight
  | .lose who packet => packet ∈ (c who).network.inFlight

instance (c : DistributedNetwork ι) : (e : Event ι) → Decidable (c.Allowed e)
  | .registerBlock .. => .isTrue trivial
  | .registerRoot .. => .isTrue trivial
  | .freeBlock .. => .isTrue trivial
  | .arrive .. => inferInstanceAs (Decidable (_ ∈ _))
  | .lose .. => inferInstanceAs (Decidable (_ ∈ _))

/-! ## One node -/

/-- What a step is for one node. -/
def eventsOf (node : ι) : Event ι → List LossyNetwork.Event
  | .registerBlock who block =>
    List.replicate ((who :: otherNodes who).count node) (.register block)
  | .registerRoot who rootBlock =>
    List.replicate ((otherNodes who).count node) (.register rootBlock)
  | .freeBlock who id => if who = node then [.free id] else []
  | .arrive who packet => if who = node then [.arrive packet] else []
  | .lose who packet => if who = node then [.lose packet] else []

/-- The nodes have the same two ids. -/
def SameIds (c : DistributedNetwork ι) : Prop :=
  ∀ i j, (c i).network.service.translate lib = (c j).network.service.translate lib

variable {lib} {otherNodes} {c : DistributedNetwork ι} {node : ι}

@[simp] theorem translate_step (n : LossyNetwork) (e : LossyNetwork.Event) :
    (n.step lib e).network.service.translate lib = n.network.service.translate lib := by
  cases e with
  | lose packet => rfl
  | register block => exact PingNetwork.translate_step ..
  | free id => exact PingNetwork.translate_step ..
  | arrive packet => exact PingNetwork.translate_step ..

@[simp] theorem translate_run (n : LossyNetwork) (es : List LossyNetwork.Event) :
    (es.foldl (LossyNetwork.step lib) n).network.service.translate lib =
      n.network.service.translate lib := by
  induction es generalizing n with
  | nil => rfl
  | cons e es ih =>
    rw [List.foldl_cons, ih]
    exact translate_step n e

/-- **What each node gets**: a packet for each time it is listed. -/
theorem sendToAdditionalEndpts_apply (hsame : SameIds lib c) (who : ι) (block : Block) (node : ι) :
    sendToAdditionalEndpts lib otherNodes c who block node =
      (List.replicate ((otherNodes who).count node) (LossyNetwork.Event.register block)).foldl
        (LossyNetwork.step lib) (c node) := by
  rw [sendToAdditionalEndpts]
  generalize hrequest : (c who).network.service.translate lib block = request
  have hall : ∀ i, (c i).network.service.translate lib block = request := by
    intro i
    rw [← hrequest, hsame i who]
  clear hsame hrequest
  induction otherNodes who generalizing c with
  | nil => rfl
  | cons other rest ih =>
    have hother : spoofed (c other) request block = (c other).step lib (.register block) := by
      rw [← hall other]
      rfl
    rw [List.foldl_cons, hother, ih]
    · by_cases hnode : other = node
      · subst hnode
        rw [Function.update_self, List.count_cons_self, List.replicate_succ, List.foldl_cons]
      · rw [Function.update_of_ne (Ne.symm hnode), List.count_cons_of_ne hnode]
    · intro i
      by_cases hi : i = other
      · subst hi
        rw [Function.update_self, translate_step]
        exact hall i
      · rw [Function.update_of_ne hi]
        exact hall i

/-- A node that takes a step, and the others. -/
theorem update_apply_eq (c : DistributedNetwork ι) (who node : ι) (e : LossyNetwork.Event) :
    Function.update c who ((c who).step lib e) node =
      (if who = node then [e] else []).foldl (LossyNetwork.step lib) (c node) := by
  by_cases hnode : who = node
  · subst hnode
    rw [Function.update_self, if_pos rfl]
    rfl
  · rw [Function.update_of_ne (Ne.symm hnode), if_neg hnode]
    rfl

theorem SameIds.update (h : SameIds lib c) (who : ι) (e : LossyNetwork.Event) :
    SameIds lib (Function.update c who ((c who).step lib e)) := by
  intro i j
  rw [update_apply_eq, update_apply_eq, translate_run, translate_run]
  exact h i j

/-- **One step** is, for each node, a few of its own. -/
theorem step_apply (h : SameIds lib c) (e : Event ι) (node : ι) :
    c.step lib otherNodes e node =
      (eventsOf otherNodes node e).foldl (LossyNetwork.step lib) (c node) := by
  cases e with
  | registerBlock who block =>
    rw [step, sendToAdditionalEndpts_apply (h.update who _), update_apply_eq, ← List.foldl_append]
    have hevents : (if who = node then [LossyNetwork.Event.register block] else []) ++
        List.replicate ((otherNodes who).count node) (.register block) =
          eventsOf otherNodes node (.registerBlock who block) := by
      by_cases hnode : who = node
      · subst hnode
        rw [if_pos rfl, eventsOf, List.count_cons_self, List.replicate_succ]
        rfl
      · rw [if_neg hnode, eventsOf, List.count_cons_of_ne hnode]
        rfl
    rw [hevents]
  | registerRoot who rootBlock => exact sendToAdditionalEndpts_apply h who rootBlock node
  | freeBlock who id => exact update_apply_eq c who node _
  | arrive who packet => exact update_apply_eq c who node _
  | lose who packet => exact update_apply_eq c who node _

theorem SameIds.step (h : SameIds lib c) (e : Event ι) : SameIds lib (c.step lib otherNodes e) := by
  intro i j
  rw [step_apply h, step_apply h, translate_run, translate_run]
  exact h i j

/-- Only what is in flight to a node arrives at it, or is lost on the way. -/
theorem allowed_eventsOf {e : Event ι} (he : c.Allowed e) (node : ι) :
    Run.EveryStep (LossyNetwork.step lib) LossyNetwork.Allowed (c node)
      (eventsOf otherNodes node e) := by
  have hown : ∀ (who : ι) (e : LossyNetwork.Event), (c who).Allowed e →
      Run.EveryStep (LossyNetwork.step lib) LossyNetwork.Allowed (c node)
        (if who = node then [e] else []) := by
    intro who e he
    by_cases hnode : who = node
    · subst hnode
      rw [if_pos rfl]
      exact ⟨he, trivial⟩
    · rw [if_neg hnode]
      trivial
  cases e with
  | registerBlock who block =>
    refine Run.everyStep_of_forall (fun e he n => ?_) _
    rw [List.eq_of_mem_replicate he]
    trivial
  | registerRoot who rootBlock =>
    refine Run.everyStep_of_forall (fun e he n => ?_) _
    rw [List.eq_of_mem_replicate he]
    trivial
  | freeBlock who id => exact hown who (.free id) trivial
  | arrive who packet => exact hown who (.arrive packet) he
  | lose who packet => exact hown who (.lose packet) he

/-- **A run** is, for each node, one of its own. -/
theorem run_apply (h : SameIds lib c) {es : List (Event ι)}
    (hes : Run.EveryStep (step lib otherNodes) Allowed c es) (node : ι) :
    Run.EveryStep (LossyNetwork.step lib) LossyNetwork.Allowed (c node)
        (es.flatMap (eventsOf otherNodes node)) ∧
      es.foldl (step lib otherNodes) c node =
        (es.flatMap (eventsOf otherNodes node)).foldl (LossyNetwork.step lib) (c node) := by
  have hstep : ∀ (c : DistributedNetwork ι) (n : LossyNetwork) (e : Event ι),
      SameIds lib c ∧ c node = n → c.Allowed e →
        Run.EveryStep (LossyNetwork.step lib) LossyNetwork.Allowed n (eventsOf otherNodes node e) ∧
          SameIds lib (c.step lib otherNodes e) ∧ c.step lib otherNodes e node =
            (eventsOf otherNodes node e).foldl (LossyNetwork.step lib) n := by
    rintro c _ e ⟨hc, rfl⟩ he
    exact ⟨allowed_eventsOf he node, hc.step e, step_apply hc e node⟩
  obtain ⟨hallowed, -, hend⟩ := hes.simulates ⟨h, rfl⟩ hstep
  rw [Run.refined_eq_flatMap] at hallowed hend
  exact ⟨hallowed, hend⟩

/-! ## The copies of a block -/

/-- The packets of a block with the id `id` that the step sends a node's way. -/
def Event.sends (otherNodes : ι → List ι) (node : ι) (id : BlockId) : Event ι → ℕ
  | .registerBlock who block => if block.id = id then (who :: otherNodes who).count node else 0
  | .registerRoot who rootBlock => if rootBlock.id = id then (otherNodes who).count node else 0
  | _ => 0

/-- The step loses a packet of a block with the id `id` on its way to a node. -/
def Event.loses (lib : Protobuf) (node : ι) (id : BlockId) : Event ι → Bool
  | .lose who packet => who = node && PingNetwork.carries lib id packet
  | _ => false

theorem countP_registers (e : Event ι) (node : ι) (id : BlockId) :
    (eventsOf otherNodes node e).countP (·.registers id) = e.sends otherNodes node id := by
  cases e with
  | registerBlock who block =>
    rw [eventsOf, List.countP_replicate]
    simp only [LossyNetwork.Event.registers, beq_iff_eq, Event.sends]
  | registerRoot who rootBlock =>
    rw [eventsOf, List.countP_replicate]
    simp only [LossyNetwork.Event.registers, beq_iff_eq, Event.sends]
  | freeBlock who id' =>
    rw [eventsOf]
    split_ifs <;> rfl
  | arrive who packet =>
    rw [eventsOf]
    split_ifs <;> rfl
  | lose who packet =>
    rw [eventsOf]
    split_ifs <;> rfl

omit [DecidableEq ι] in
/-- A kind of step of a node that each step of the nodes is once, or not at all. -/
theorem countP_flatMap_eq {p : Event ι → Bool} {q : LossyNetwork.Event → Bool}
    {steps : Event ι → List LossyNetwork.Event}
    (hone : ∀ e, (steps e).countP q = if p e then 1 else 0) (es : List (Event ι)) :
    (es.flatMap steps).countP q = es.countP p := by
  induction es with
  | nil => rfl
  | cons e es ih =>
    rw [List.flatMap_cons, List.countP_append, ih, hone, List.countP_cons, Nat.add_comm]

theorem countP_loses (es : List (Event ι)) (node : ι) (id : BlockId) :
    (es.flatMap (eventsOf otherNodes node)).countP (·.loses lib id) =
      es.countP (·.loses lib node id) := by
  refine countP_flatMap_eq (fun e => ?_) es
  cases e with
  | registerBlock who block => simp [eventsOf, LossyNetwork.Event.loses, Event.loses]
  | registerRoot who rootBlock => simp [eventsOf, LossyNetwork.Event.loses, Event.loses]
  | freeBlock who id' =>
    by_cases hnode : who = node
    · simp [eventsOf, LossyNetwork.Event.loses, Event.loses, hnode]
    · simp [eventsOf, Event.loses, hnode]
  | arrive who packet =>
    by_cases hnode : who = node
    · simp [eventsOf, LossyNetwork.Event.loses, Event.loses, hnode]
    · simp [eventsOf, Event.loses, hnode]
  | lose who packet =>
    by_cases hnode : who = node
    · simp [eventsOf, LossyNetwork.Event.loses, Event.loses, hnode, List.countP_cons]
    · simp [eventsOf, Event.loses, hnode]

theorem count_free (es : List (Event ι)) (node : ι) (id : BlockId) :
    (es.flatMap (eventsOf otherNodes node)).count (.free id) = es.count (.freeBlock node id) := by
  refine countP_flatMap_eq (fun e => ?_) es
  cases e with
  | registerBlock who block => simp [eventsOf]
  | registerRoot who rootBlock => simp [eventsOf]
  | freeBlock who id' =>
    by_cases hnode : who = node
    · simp [eventsOf, hnode, List.countP_cons]
    · simp [eventsOf, hnode]
  | arrive who packet =>
    by_cases hnode : who = node
    · simp [eventsOf, hnode]
    · simp [eventsOf, hnode]
  | lose who packet =>
    by_cases hnode : who = node
    · simp [eventsOf, hnode]
    · simp [eventsOf, hnode]

variable (hlib : lib.Sound)

include hlib in
/-- **The copies of a block at one node.** After any run of any number of nodes, a block is in
flight to a node as often as the nodes sent it that way, less the packets of it that were lost on
the way to the node and those the node discarded; and no more are discarded than the node itself
called `free_block` for. A call on another node never is one of these. -/
theorem copies_at (fsId id : UInt16) (es : List (Event ι))
    (h : Run.EveryStep (step lib otherNodes) Allowed (init fsId id) es) (node : ι)
    (blockId : BlockId) :
    let c := es.foldl (step lib otherNodes) (init fsId id)
    ∃ discarded ≤ es.count (.freeBlock node blockId),
      ((c node).network.carriers lib blockId).card + es.countP (·.loses lib node blockId) +
        discarded = (es.map (·.sends otherNodes node blockId)).sum := by
  intro c
  have hsame : SameIds lib (init (ι := ι) fsId id) := fun _ _ => rfl
  obtain ⟨hallowed, hc⟩ : _ ∧ c node = _ := run_apply hsame h node
  obtain ⟨discarded, hdiscarded, hcopies⟩ := LossyNetwork.copies hlib fsId id _ hallowed blockId
  have hsends : (es.flatMap (eventsOf otherNodes node)).countP (·.registers blockId) =
      (es.map (·.sends otherNodes node blockId)).sum := by
    rw [List.countP_flatMap]
    exact congrArg List.sum (List.map_congr_left fun e _ => countP_registers e node blockId)
  rw [count_free] at hdiscarded
  rw [countP_loses, hsends] at hcopies
  refine ⟨discarded, hdiscarded, ?_⟩
  rw [hc]
  exact hcopies

/-- One node creates a block, and sends it again as a root, and frees it. Of the two packets of the
other one, one is lost. -/
theorem copies_at_two_nodes :
    let block : Block := ⟨1, .fileContents ⟨[7]⟩⟩
    let packet := (LossyNetwork.init 3 0).network.service.translate Protobuf.wire block
    let otherNodes : Bool → List Bool := fun who => [!who]
    let es : List (Event Bool) := [.registerBlock true block, .registerRoot true block,
      .lose false packet, .freeBlock true 1, .arrive true packet, .arrive false packet]
    let c := es.foldl (step Protobuf.wire otherNodes) (init 3 0)
    ∃ discarded ≤ es.count (.freeBlock false 1),
      ((c false).network.carriers Protobuf.wire 1).card +
        es.countP (·.loses Protobuf.wire false 1) + discarded =
          (es.map (·.sends otherNodes false 1)).sum :=
  copies_at Protobuf.wire_sound 3 0 _ (by decide) false 1

end DistributedNetwork

end Pingfs
