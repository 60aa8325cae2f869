import Pingfs.Fs.OperationCalls
import Pingfs.Lib.History

/-!
# What is asked of the block manager

Every id that an operation asks the block manager for, or frees, has been created and not been
freed. That is said of the log of a run: one `Event` for each call to the block manager, in order.
A search ends in the state it started in; since a request leaves its ids in the map, they were
there before. Creating names no ids. What is freed is stored by the rules for `freeAll` and
`recursiveFree`.

Source: the calls of `block_util.cc` and `block_fuse.cc` to the block manager.

## Main results

* `Good.everyCall_exec` — all that a call uses is mapped when it is used
* `lawful_of_unbroken` — the log of an unbroken run, and of one more call
* `not_lawful_of_exhausted` — a `read` after a `write` that has run out of ids
-/

namespace Pingfs

open Zipper

namespace BlockFuse

open FsM BlockUtil

variable {s s' : BlockFuse} {t : Inodes} {garbage rest : Multiset Block} {k : Bool} {env : Env}

/-! ## Programs that only read -/

/-- Reading takes nothing out of the map. -/
theorem isSome_map_of_isRead {call : FsCall} (hread : IsRead call) {s : BlockFuse} {id : BlockId}
    (h : (s.manager.map id).isSome) : ((handler k call s).state.manager.map id).isSome := by
  obtain rfl | ⟨ids, rfl⟩ := isRead_iff.mp hread
  · exact h
  · exact MemoryBlockManager.isSome_map_getBlocks (Or.inl h)

/-- What a reading call uses is in the map after it. -/
theorem isSome_map_of_uses {call : FsCall} (hread : IsRead call) {s : BlockFuse} {id : BlockId}
    (huses : id ∈ call.uses) : ((handler k call s).state.manager.map id).isSome := by
  obtain rfl | ⟨ids, rfl⟩ := isRead_iff.mp hread
  · exact absurd huses List.not_mem_nil
  · exact MemoryBlockManager.isSome_map_getBlocks (Or.inr huses)

section

variable {α : Type} {p : FsM α} (hp : p.Only IsRead)

include hp

theorem isSome_map_run {s : BlockFuse} {id : BlockId} (h : (s.manager.map id).isSome) :
    ((p.run (handler k) s).state.manager.map id).isSome := by
  induction p generalizing s with
  | ret a => exact h
  | halt e => exact h
  | call call next ih =>
    have hafter := isSome_map_of_isRead (k := k) hp.1 h
    rw [Program.run]
    cases hreply : handler k call s with
    | returned r s' =>
      rw [hreply] at hafter
      exact ih r (hp.2 r) hafter
    | halted e s' =>
      rw [hreply] at hafter
      exact hafter

/-- **A reading program** that adds no ids to the map uses only ids that are there. -/
theorem everyCall_of_keys {s : BlockFuse}
    (hkeys : ∀ id, ((p.run (handler k) s).state.manager.map id).isSome →
      (s.manager.map id).isSome) :
    p.EveryCall (handler k) Mapped s := by
  induction p generalizing s with
  | ret a => trivial
  | halt e => trivial
  | call call next ih =>
    have hlater : ∀ r s', handler k call s = .returned r s' →
        ∀ id, (s'.manager.map id).isSome →
          (((Program.call call next).run (handler k) s).state.manager.map id).isSome := by
      intro r s' hreply id hid
      rw [Program.run, hreply]
      exact isSome_map_run (hp.2 r) hid
    refine ⟨fun id huses => hkeys id ?_, fun r s' hreply => ih r (hp.2 r) fun id hid => ?_⟩
    · have hafter := isSome_map_of_uses (k := k) hp.1 (s := s) huses
      cases hreply : handler k call s with
      | returned r s' =>
        rw [hreply] at hafter
        exact hlater r s' hreply id hafter
      | halted e s' =>
        rw [Program.run, hreply]
        rwa [hreply] at hafter
    · have hbefore := hkeys id (by rwa [Program.run, hreply])
      have hafter := isSome_map_of_isRead (k := k) hp.1 hbefore
      rwa [hreply] at hafter

end

theorem readsMeet_mapped : ReadsMeet k Mapped :=
  fun hp hrun => everyCall_of_keys hp fun id hid => by rwa [hrun] at hid

/-! ## Programs that only create -/

section

variable {α : Type} {p : FsM α} (hp : p.Only IsCreate)

include hp

theorem everyCall_of_creates (s : BlockFuse) : p.EveryCall (handler k) Mapped s := by
  refine hp.everyCall (fun call s hcreate id huses => ?_) s
  obtain ⟨data, rfl⟩ := isCreate_iff.mp hcreate
  exact absurd huses List.not_mem_nil

/-- What was stored stays stored. -/
theorem Stores.exists_grown {stored : Multiset Block} (hs : Stores s stored) :
    ∃ created, Grown s stored created (p.run (handler k) s).state := by
  induction p generalizing s stored with
  | ret a => exact ⟨0, Grown.refl hs⟩
  | halt e => exact ⟨0, Grown.refl hs⟩
  | call call next ih =>
    obtain ⟨data, rfl⟩ := isCreate_iff.mp hp.1
    have hmeets := hs.createBlock_meets (k := k) data
    rw [FsM.createBlock, Program.run_request] at hmeets
    rw [Program.run]
    cases hreply : handler k (.createBlock data) s with
    | returned b s' =>
      rw [hreply] at hmeets
      obtain ⟨created, hgrown⟩ := ih b (hp.2 b) hmeets.2.stores
      exact ⟨_, hmeets.2.trans hgrown⟩
    | halted e s' =>
      rw [hreply] at hmeets
      obtain ⟨created, hgrown, -⟩ := hmeets.grown
      exact ⟨created, hgrown⟩

theorem Stores.grown_of_run {stored : Multiset Block} (hs : Stores s stored) {a : α}
    (hrun : p.run (handler k) s = .returned a s') : ∃ created, Grown s stored created s' := by
  have hgrown := Stores.exists_grown (k := k) hp hs
  rwa [hrun] at hgrown

end

/-! ## The operations -/

/-- Where an old path is stored, it may be replaced; what is beside it stays stored. -/
theorem Stores.replaceRoot_calls {old : List Block} (hs : Stores s (old + rest))
    (chain : List Block) (childrenToRemove childrenToAdd : List BlockId) :
    (replaceRoot old chain childrenToRemove childrenToAdd).EveryCall (handler k) Mapped s ∧
      ∀ s', (replaceRoot old chain childrenToRemove childrenToAdd).run (handler k) s =
        .returned () s' → ∃ more, Stores s' (more + rest) := by
  have hcreates := creates_replaceChain chain childrenToRemove childrenToAdd
  -- from the chain on, whatever was created
  have hend : ∀ root s₁, (replaceChain chain childrenToRemove childrenToAdd).run (handler k) s =
      .returned root s₁ → ∀ newRoot, ∃ more s₂,
        (BlockFuse.freeAll old).run (handler k) { s₁ with rootBlock := newRoot } = .returned () s₂ ∧
        Stores s₂ (more + rest) ∧
        (BlockFuse.freeAll old).EveryCall (handler k) Mapped { s₁ with rootBlock := newRoot } := by
    intro root s₁ hrun newRoot
    obtain ⟨created, hgrown⟩ := Stores.grown_of_run hcreates hs hrun
    have hsplit : Stores s₁ (old + (created + rest)) := by
      convert hgrown.stores using 1
      ac_rfl
    obtain ⟨s₂, hfree, hstores, -, hcalls⟩ := (hsplit.setRoot newRoot).freeAll (k := k)
    cases k with
    | false => exact ⟨created, s₂, hfree, hstores, hcalls⟩
    | true =>
      refine ⟨old + created, s₂, hfree, ?_, hcalls⟩
      convert hstores using 1
      simp only [if_true]
      ac_rfl
  constructor
  · refine Program.everyCall_bind (everyCall_of_creates hcreates s) fun root s₁ hrun =>
      Program.everyCall_bind (Program.everyCall_ofExcept _ _) fun newRoot s₂ hroot => ?_
    obtain rfl : s₂ = s₁ := by
      cases root with
      | none => cases hroot
      | some root => exact (Outcome.returned.inj hroot).2.symm
    obtain ⟨-, -, -, -, hcalls⟩ := hend root s₂ hrun newRoot
    exact Program.everyCall_bind_of_run (Program.everyCall_request.mpr fun id hid =>
      absurd hid List.not_mem_nil) (run_setRootBlock newRoot s₂) hcalls
  · intro s' hreturned
    rw [replaceRoot, Program.run_bind] at hreturned
    cases hrun : (replaceChain chain childrenToRemove childrenToAdd).run (handler k) s with
    | halted e s₁ =>
      rw [hrun] at hreturned
      cases hreturned
    | returned root s₁ =>
      rw [hrun] at hreturned
      cases root with
      | none => cases hreturned
      | some root =>
        obtain ⟨more, s₂, hfree, hstores, -⟩ := hend (some root) s₁ hrun root
        simp only [deref, Outcome.bind_returned, Program.run_bind, Program.run_ofExcept_ok,
          run_setRootBlock, hfree] at hreturned
        obtain rfl := (Outcome.returned.inj hreturned).2
        exact ⟨more, hstores⟩

/-- A new block, and then the path to `z`. -/
theorem Good.addMeets (h : Good s t garbage) {z : Zipper Node}
    (hz : plug z.frames z.label z.kids = t) (name : Str) (stat : Stat) :
    AddMeets k Mapped s z name stat := by
  refine ⟨fun id hid => absurd hid List.not_mem_nil, fun new s₁ hrun => ?_⟩
  obtain ⟨created, hgrown⟩ := Stores.grown_of_run (creates_createBlock _) h.stores hrun
  have hstores := hgrown.stores
  rw [blocks_eq_path hz] at hstores
  have hsplit : Stores s₁ (pathBlocks z +
      (z.label.below z.kids + beside z.frames + garbage + created)) := by
    convert hstores using 1
    ac_rfl
  exact (hsplit.replaceRoot_calls ..).1

/-- Whatever is put into a file whose old data is gone. -/
theorem Stores.everyCall_writeFile {z : Zipper Node}
    (hs : Stores s (pathBlocks z + (beside z.frames + garbage))) (env : Env) (now : Int64)
    (contents : Bytes) :
    (writeFileStartingAtNode env now (pathBlocks z) contents).EveryCall (handler k) Mapped s := by
  have hcreates : (if contents.isEmpty then pure [] else replaceBlocksForContents env.depth
      (pathBlocks z) contents bytesPerBlock branchingFactor : FsM (List BlockId)).Only IsCreate :=
    Program.only_ite trivial (creates_replaceBlocksForContents ..)
  refine Program.everyCall_bind (everyCall_of_creates (creates_assert _) s)
    fun _ s₁ hassert => Program.everyCall_bind (everyCall_of_creates hcreates s₁)
      fun ids s₂ hids => ?_
  obtain ⟨before, hgrown⟩ := Stores.grown_of_run (creates_assert _) hs hassert
  obtain ⟨created, hgrown'⟩ := Stores.grown_of_run hcreates hgrown.stores hids
  have hsplit : Stores s₂ (pathBlocks z + (created + before + (beside z.frames + garbage))) := by
    convert hgrown'.stores using 1
    ac_rfl
  rw [reverse_pathBlocks]
  exact Program.everyCall_bind_of_run (Program.everyCall_ofExcept _ _)
    (show _ = Outcome.returned _ s₂ from rfl) (hsplit.replaceRoot_calls ..).1

/-- The path to an inode is replaced, and what is below the inode is freed. -/
theorem Good.everyCall_remove (h : Good s t garbage) {a : Node} {kids : Forest Node}
    {f : Frame Node} {fs : List (Frame Node)} (hz : plug (f :: fs) a kids = t)
    (chain : List Block) (childrenToRemove : List BlockId) :
    let change := replaceRoot (pathBlocks ⟨a, kids, f :: fs⟩) chain childrenToRemove []
    change.EveryCall (handler k) Mapped s ∧ ∀ s₁, change.run (handler k) s = .returned () s₁ →
      (recursiveFreeChildrenBlocks s.fuel (a.block kids)).EveryCall (handler k) Mapped s₁ := by
  have hstores : Stores s (pathBlocks ⟨a, kids, f :: fs⟩ +
      (a.below kids + (beside (f :: fs) + garbage))) := by
    convert h.stores using 1
    rw [blocks_eq_path (z := ⟨a, kids, f :: fs⟩) hz]
    ac_rfl
  obtain ⟨hcalls, hend⟩ := hstores.replaceRoot_calls (k := k) chain childrenToRemove []
  refine ⟨hcalls, fun s₁ hrun => ?_⟩
  obtain ⟨more, hstores₁⟩ := hend s₁ hrun
  have hbelow : Stores s₁ (a.below kids + (more + (beside (f :: fs) + garbage))) := by
    convert hstores₁ using 1
    ac_rfl
  obtain ⟨-, -, -, -, hfree⟩ := hbelow.recursiveFree (k := k) (b := a.block kids) rfl
    (Nat.lt_of_succ_lt (h.card_tree_lt_fuel (z := ⟨a, kids, f :: fs⟩) hz))
  exact hfree

/-- **All that an operation uses** is mapped when it is used. -/
theorem Good.everyCall_exec (h : Good s t garbage) (env : Env) (call : Int64 × Call) :
    (program env s.fuel call.1 call.2).EveryCall (handler k) Mapped s := by
  by_cases hpath : call.2.path = []
  · obtain ⟨now, call⟩ := call
    cases call <;> obtain rfl : _ = [] := hpath <;> exact trivial
  by_cases hquery : call.2.isQuery = true
  · exact h.everyCall_of_isQuery readsMeet_mapped env hquery
  have hrmdir : (rmdir s.fuel call.2.path).EveryCall (handler k) Mapped s :=
    h.everyCall_rmdir readsMeet_mapped hpath fun a kids f fs hz =>
      h.everyCall_remove (Inodes.plug_resolve hz) _ _
  obtain ⟨now, call⟩ := call
  cases call with
  | mkdir path bits =>
    exact Program.everyCall_bind (h.everyCall_mkdir readsMeet_mapped env now hpath
      fun z mode _ hz => h.addMeets (Inodes.plug_resolve hz) _ _) fun _ _ _ => trivial
  | create path bits =>
    exact Program.everyCall_bind (h.everyCall_create readsMeet_mapped env now hpath
      fun z mode _ hz => h.addMeets (Inodes.plug_resolve hz) _ _) fun _ _ _ => trivial
  | rmdir path => exact Program.everyCall_bind hrmdir fun _ _ _ => trivial
  | unlink path => exact Program.everyCall_bind hrmdir fun _ _ _ => trivial
  | write path buffer offset =>
    refine Program.everyCall_bind (h.everyCall_write readsMeet_mapped env now hpath buffer offset
      fun z hz hfile => ?_) fun _ _ _ => trivial
    have hplug := Inodes.plug_resolve hz
    have hstores : Stores s (z.label.below z.kids +
        (pathBlocks z + (beside z.frames + garbage))) := by
      convert h.stores using 1
      rw [blocks_eq_path hplug]
      ac_rfl
    obtain ⟨s₁, hfree, hstores₁, -, hcalls⟩ := hstores.recursiveFree (k := k)
      (b := z.label.block z.kids) rfl (Nat.lt_of_succ_lt (h.card_tree_lt_fuel hplug))
    refine ⟨hcalls, fun s₂ contents hrun => ?_⟩
    rw [hfree] at hrun
    obtain rfl := (Outcome.returned.inj hrun).2
    exact hstores₁.everyCall_writeFile env now contents
  | getattr path => exact absurd rfl hquery
  | readdir path filler => exact absurd rfl hquery
  | read path size offset => exact absurd rfl hquery

/-! ## The log -/

/-- What happens to ids at the block manager. -/
inductive Event where
  | created (id : BlockId)
  | freed (id : BlockId)
  | requested (ids : List BlockId)

/-- The ids that an event needs. -/
def Event.uses : Event → List BlockId
  | created _ => []
  | freed id => [id]
  | requested ids => ids

/-- The event of a call made in a state, if it goes to the block manager. -/
def events : FsCall → BlockFuse → List Event
  | .createBlock data, s =>
    match s.manager.createBlock data with
    | .ok (block, _) => [.created block.id]
    | .error _ => []
  | .managerFreeBlock id, _ | .freeBlock id, _ => [.freed id]
  | .getBlocks ids, _ => [.requested ids]
  | .getRootBlock, _ | .setRootBlock _, _ => []

theorem events_createBlock (data : BlockData) (hz : s.manager.idSupplier.next ≠ 0) :
    events (.createBlock data) s = [.created (.ofNat (s.idsUsed + 1))] ∧
      (handler false (.createBlock data) s).state = s.withCreated data := by
  have hrun := run_createBlock (k := false) data hz
  rw [FsM.createBlock, Program.run_request] at hrun
  refine ⟨?_, by rw [hrun, Outcome.state_returned]⟩
  rw [handler] at hrun
  rw [events]
  cases hcreate : s.manager.createBlock data with
  | error what =>
    rw [hcreate] at hrun
    cases hrun
  | ok made =>
    rw [hcreate] at hrun
    obtain ⟨hb, -⟩ := Outcome.returned.inj hrun
    exact congrArg (fun b : Block => [Event.created b.id]) hb

theorem events_createBlock_exhausted (data : BlockData) (hz : s.manager.idSupplier.next = 0) :
    events (.createBlock data) s = [] ∧ (handler false (.createBlock data) s).state = s := by
  have hnext : s.manager.idSupplier.nextId = .error "Exhausted id space" := by
    rw [CounterSupplier.nextId, if_pos hz]
  have hcreate : s.manager.createBlock data = .error "Exhausted id space" := by
    rw [MemoryBlockManager.createBlock, hnext]
    rfl
  simp [events, handler, hcreate]

/-- The events of an operation. -/
def callLog (env : Env) (s : BlockFuse) (call : Int64 × Call) : List Event :=
  (program env s.fuel call.1 call.2).trace (handler false) events s

/-- The events of a new file system and of a run of it. -/
def runLog (env : Env) (now : Int64) (calls : List (Int64 × Call)) : List Event :=
  .created (new env now).rootBlock.id ::
    (Run.trace (step env false) (callLog env) (new env now) calls).flatten

/-- The id has been created and has not been freed. -/
def Live (log : List Event) (id : BlockId) : Prop := .created id ∈ log ∧ .freed id ∉ log

/-- Whatever is used is live when it is used. -/
def Lawful (log : List Event) : Prop :=
  ∀ before e after, log = before ++ e :: after → ∀ id ∈ e.uses, Live before id

/-- One more event. -/
theorem Lawful.concat {log : List Event} (h : Lawful log) {e : Event}
    (he : ∀ id ∈ e.uses, Live log id) : Lawful (log ++ [e]) :=
  History.historically_concat.mpr ⟨h, he⟩

/-- The log is lawful, and the state shows what it says: mapped ids are live, and all ids in it
were handed out. -/
structure Accounts (log : List Event) (s : BlockFuse) : Prop where
  lawful : Lawful log
  mapped_iff_live : ∀ id, (s.manager.map id).isSome ↔ Live log id
  le_idsUsed : ∀ id, .created id ∈ log ∨ .freed id ∈ log → id.toNat ≤ s.idsUsed

theorem accounts_new (env : Env) (now : Int64) : Accounts (runLog env now []) (new env now) := by
  have hlog : runLog env now [] = [] ++ [.created 1] := rfl
  rw [hlog]
  refine ⟨Lawful.concat History.historically_nil (by simp [Event.uses]), fun id => ?_,
    fun id hid => ?_⟩
  · by_cases hone : id = 1
    · simp [hone, new, Live]
    · simp [hone, new, Live]
  · have hone : id = 1 := by simpa using hid
    rw [hone]
    exact Nat.le_refl 1

/-- The new id of a block has not been in the log. -/
theorem Accounts.create {log : List Event} (h : Accounts log s) (data : BlockData)
    (hz : s.manager.idSupplier.next ≠ 0) :
    Accounts (log ++ [.created (.ofNat (s.idsUsed + 1))]) (s.withCreated data) := by
  have hids : s.idsUsed + 1 < 2 ^ 64 := by
    have hne := mt next_eq_zero_iff.mpr hz
    have hlt := s.idsUsed_lt
    omega
  have hnew : (UInt64.ofNat (s.idsUsed + 1) : BlockId).toNat = s.idsUsed + 1 :=
    UInt64.toNat_ofNat_of_lt' hids
  have hmap : (s.withCreated data).manager.map = Function.update s.manager.map
      (.ofNat (s.idsUsed + 1)) (some (some ⟨.ofNat (s.idsUsed + 1), data⟩)) := rfl
  generalize UInt64.ofNat (s.idsUsed + 1) = new at hnew hmap ⊢
  refine ⟨h.lawful.concat fun id hid => absurd hid List.not_mem_nil, fun id => ?_, fun id hid => ?_⟩
  · rw [hmap]
    by_cases hid : id = new
    · have hfresh : Event.freed new ∉ log := by
        intro hmem
        have hle := h.le_idsUsed new (Or.inr hmem)
        omega
      simp [hid, Live, hfresh]
    · have hlive := h.mapped_iff_live id
      simpa [Function.update_of_ne hid, Live, hid] using hlive
  · rw [idsUsed_withCreated data hz]
    have hid : (.created id ∈ log ∨ .freed id ∈ log) ∨ id = new := by
      simp only [List.mem_append, List.mem_singleton, Event.created.injEq, reduceCtorEq,
        or_false] at hid
      tauto
    rcases hid with hid | rfl
    · exact (h.le_idsUsed id hid).trans (Nat.le_succ _)
    · exact hnew.le

/-- A live id is freed. -/
theorem Accounts.free {log : List Event} (h : Accounts log s) {id : BlockId}
    (hid : (s.manager.map id).isSome) : Accounts (log ++ [.freed id]) (s.withFreed id) := by
  refine ⟨h.lawful.concat fun i hi => ?_, fun i => ?_, fun i hi => ?_⟩
  · rw [List.mem_singleton.mp hi]
    exact (h.mapped_iff_live id).mp hid
  · by_cases hi : i = id
    · simp [hi, withFreed, MemoryBlockManager.freeBlock, Live]
    · have hlive := h.mapped_iff_live i
      simpa [withFreed, MemoryBlockManager.freeBlock, Function.update_of_ne hi, Live, hi] using
        hlive
  · have hi : (.created i ∈ log ∨ .freed i ∈ log) ∨ i = id := by
      simp only [List.mem_append, List.mem_singleton, Event.freed.injEq, reduceCtorEq,
        or_false] at hi
      tauto
    rcases hi with hi | rfl
    · exact h.le_idsUsed i hi
    · exact h.le_idsUsed i (Or.inl ((h.mapped_iff_live i).mp hid).1)

/-- Live ids are requested: the map stays as it is. -/
theorem Accounts.request {log : List Event} (h : Accounts log s) {ids : List BlockId}
    (hids : ∀ id ∈ ids, (s.manager.map id).isSome) :
    Accounts (log ++ [.requested ids])
      { s with manager := (s.manager.getBlocks ids).2 } := by
  rw [MemoryBlockManager.getBlocks_of_isSome hids]
  refine ⟨h.lawful.concat fun id hid => (h.mapped_iff_live id).mp (hids id hid), fun id => ?_,
    fun id hid => h.le_idsUsed id ?_⟩
  · simpa [Live] using h.mapped_iff_live id
  · simpa using hid

/-- **One call** that uses only mapped ids. -/
theorem Accounts.handler {log : List Event} (h : Accounts log s) (call : FsCall)
    (hcall : Mapped call s) :
    Accounts (log ++ events call s) (BlockFuse.handler false call s).state := by
  cases call with
  | createBlock data =>
    by_cases hz : s.manager.idSupplier.next = 0
    · obtain ⟨hevents, hstate⟩ := events_createBlock_exhausted data hz
      rwa [hevents, hstate, List.append_nil]
    · obtain ⟨hevents, hstate⟩ := events_createBlock data hz
      rw [hevents, hstate]
      exact h.create data hz
  | managerFreeBlock id => exact h.free (hcall id (List.mem_singleton_self id))
  | freeBlock id => exact h.free (hcall id (List.mem_singleton_self id))
  | getBlocks ids => exact h.request hcall
  | getRootBlock =>
    rw [events, List.append_nil]
    exact h
  | setRootBlock newRoot =>
    refine ⟨?_, fun id => ?_, fun id hid => ?_⟩
    · simpa [events] using h.lawful
    · simpa [events, BlockFuse.handler] using h.mapped_iff_live id
    · exact h.le_idsUsed id (by simpa [events] using hid)

/-- **One operation**, in a state of a tree. -/
theorem Accounts.step {log : List Event} (h : Accounts log s) (hintact : Intact s) (env : Env)
    (call : Int64 × Call) :
    Accounts (log ++ callLog env s call) (BlockFuse.step env false s call) := by
  obtain ⟨t, garbage, hgood⟩ := hintact
  exact (hgood.everyCall_exec (k := false) env call).trace
    (fun log call s h hcall => h.handler call hcall) h

/-- The log after one more operation. -/
theorem runLog_concat (env : Env) (now : Int64) (calls : List (Int64 × Call))
    (call : Int64 × Call) :
    runLog env now (calls ++ [call]) =
      runLog env now calls ++ callLog env (calls.foldl (step env false) (new env now)) call := by
  have hlast : (Run.trace (step env false) (callLog env)
      (calls.foldl (step env false) (new env now)) [call]).flatten =
        callLog env (calls.foldl (step env false) (new env now)) call := List.append_nil _
  rw [runLog, Run.trace_append, List.flatten_append, hlast, ← List.cons_append, ← runLog]

/-- The log of an unbroken run accounts for the state at its end. -/
theorem Unbroken.accounts {now : Int64} {calls : List (Int64 × Call)}
    (h : Unbroken env (new env now) calls) :
    Accounts (runLog env now calls) (calls.foldl (BlockFuse.step env false) (new env now)) := by
  induction calls using List.reverseRecOn with
  | nil => exact accounts_new env now
  | append_singleton calls call ih =>
    have hbefore : Unbroken env (new env now) calls := ((Run.EveryStep.append_iff _ _ _).mp h).1
    rw [List.foldl_append, List.foldl_cons, List.foldl_nil, runLog_concat]
    exact (ih hbefore).step (hbefore.intact (intact_new env now)) env call

/-- **No use after free, no double free.** In a run no `write` of which has run out of ids, and in
whatever call is made after it, each id that is freed or requested has been created and has not
been freed. -/
theorem lawful_of_unbroken (env : Env) (now : Int64) (calls : List (Int64 × Call))
    (hids : Unbroken env (new env now) calls) (call : Int64 × Call) :
    Lawful (runLog env now (calls ++ [call])) := by
  rw [runLog_concat]
  exact (hids.accounts.step (hids.intact (intact_new env now)) env call).lawful

/-- A file is written in a directory and the directory removed with it. -/
theorem lawful_of_removed_file :
    Lawful (runLog plainEnv 0 ([(0, .mkdir (below 0x61) 0o755),
      (1, .create (below 0x61 ++ below 0x62) 0o100644),
      (2, .write (below 0x61 ++ below 0x62) [1, 2, 3] 0),
      (3, .write (below 0x61 ++ below 0x62) [4] 0)] ++ [(4, .rmdir (below 0x61))])) :=
  lawful_of_unbroken plainEnv 0 _ (by decide +kernel) (4, .rmdir (below 0x61))

/-! ### After a broken write -/

/-- A reading program with a lawful log changes nothing. -/
theorem Accounts.run_eq_of_lawful {log : List Event} (h : Accounts log s) {α : Type} {p : FsM α}
    (hp : p.Only IsRead)
    (hlawful : Lawful (log ++ p.trace (BlockFuse.handler false) events s)) :
    (p.run (BlockFuse.handler false) s).state = s := by
  induction p generalizing s log with
  | ret a => rfl
  | halt e => rfl
  | call call next ih =>
    obtain rfl | ⟨ids, rfl⟩ := isRead_iff.mp hp.1
    · rw [Program.trace, events, List.nil_append] at hlawful
      exact ih _ h (hp.2 _) hlawful
    · have hmapped : ∀ id ∈ ids, (s.manager.map id).isSome := fun id hid =>
        (h.mapped_iff_live id).mpr (hlawful log (.requested ids) _ rfl id hid)
      have hsame : ({ s with manager := (s.manager.getBlocks ids).2 } : BlockFuse) = s := by
        rw [MemoryBlockManager.getBlocks_of_isSome hmapped]
      have hnext := h.request hmapped
      rw [hsame] at hnext
      rw [Program.trace, ← List.append_assoc, BlockFuse.handler, hsame] at hlawful
      rw [Program.run, BlockFuse.handler, hsame]
      exact ih _ hnext (hp.2 _) hlawful

theorem unbroken_of_no_write {calls : List (Int64 × Call)}
    (h : ∀ call ∈ calls, call.2.isWrite = false) (s : BlockFuse) : Unbroken env s calls := by
  refine Run.everyStep_of_forall (fun call hcall s hwrite => ?_) s
  rw [h call hcall] at hwrite
  cases hwrite

theorem unbroken_callsToNoIds : Unbroken plainEnv (new plainEnv 0) callsToNoIds := by
  have hfile : Unbroken plainEnv (new plainEnv 0) fileCalls := by decide +kernel
  refine (Run.EveryStep.append_iff _ _ _).mpr ⟨hfile, unbroken_of_no_write (fun call hcall => ?_) _⟩
  obtain ⟨round, hround, hcall⟩ := List.mem_flatten.mp hcall
  rw [List.eq_of_mem_replicate hround, makeAndRemove] at hcall
  rcases List.mem_pair.mp hcall with rfl | rfl <;> rfl

/-- **A `read` after a `write` that has run out of ids** asks for ids that were freed. -/
theorem not_lawful_of_exhausted :
    ¬ Lawful (runLog plainEnv 0 (callsToNoIds ++ [(0, .write (below 0x62) [2] 0)] ++
      [(0, .read (below 0x62) 1 0)])) := by
  obtain ⟨id, ids, -, hgone, hread⟩ := exists_gone
  have hunbroken := unbroken_callsToNoIds
  have haccounts := hunbroken.accounts.step (hunbroken.intact (intact_new plainEnv 0)) plainEnv
    (0, .write (below 0x62) [2] 0)
  rw [← noIds, ← gone] at haccounts
  intro hlawful
  rw [runLog_concat, runLog_concat, List.foldl_append, ← noIds, List.foldl_cons, List.foldl_nil,
    ← gone] at hlawful
  have hsame := haccounts.run_eq_of_lawful
    (only_program gone.fuel (show (Call.read (below 0x62) 1 0).isQuery = true from rfl) plainEnv 0)
      hlawful
  have hafter := congrArg Outcome.state hread
  rw [exec, Outcome.state_halted, hsame] at hafter
  exact map_getBlocks_ne gone hgone ids (congrArg (fun s => s.manager.map) hafter.symm)

end BlockFuse

end Pingfs
