import Pingfs.Fs.BlockFuse
import Pingfs.Lib.Heap
import Pingfs.Lib.ProgramCalls
import Mathlib.Data.Multiset.Range

/-!
# The blocks in the manager

`Stores s blocks` says that the manager holds exactly `blocks`, under distinct ids that were all
handed out. Each call has one rule here: what it returns, and which blocks are stored after it.
`Mapped` says of a call that the ids it asks for or frees are keys of the map.
A program that creates blocks either adds them to those stored (`Grown`), with the ids that come
next, or runs out of ids (`OutOfIds`).

## Main results

* `Stores.run_getBlocks` — a request for stored blocks returns them and changes nothing
* `Stores.freeAll`, `Stores.managerFreeAll` — freed blocks are gone, the others stay
-/

namespace Pingfs

/-- The ids that a call asks for or frees. -/
def FsCall.uses : FsCall → List BlockId
  | getBlocks ids => ids
  | managerFreeBlock id | freeBlock id => [id]
  | createBlock _ | getRootBlock | setRootBlock _ => []

namespace BlockFuse

open FsM

/-- The manager holds exactly these blocks, and their ids are among those handed out. -/
structure Stores (s : BlockFuse) (blocks : Multiset Block) : Prop where
  holds : Heap.Holds Block.id some s.manager.map blocks
  le_idsUsed : ∀ b ∈ blocks, b.id.toNat ≤ s.idsUsed

/-- The ids that a call asks for or frees are keys of the map. -/
def Mapped (call : FsCall) (s : BlockFuse) : Prop := ∀ id ∈ call.uses, (s.manager.map id).isSome

/-- `created` was added to `blocks`, with new ids, and nothing else happened. -/
structure Grown (s : BlockFuse) (blocks created : Multiset Block) (s' : BlockFuse) : Prop where
  stores : Stores s' (created + blocks)
  idsUsed_eq : s'.idsUsed = s.idsUsed + created.card
  rootBlock_eq : s'.rootBlock = s.rootBlock

/-- The supplier threw, since less than `need` ids were left. The blocks created until then stay. -/
structure OutOfIds (s : BlockFuse) (blocks : Multiset Block) (need : ℕ) (e : Halt)
    (s' : BlockFuse) : Prop where
  threw : e = .threw "Exhausted id space"
  short : 2 ^ 64 ≤ s.idsUsed + need
  grown : ∃ created, Grown s blocks created s' ∧ s'.idsUsed + 1 = 2 ^ 64

/-- No id was taken and the root is the same. -/
structure Keeps (s s' : BlockFuse) : Prop where
  idsUsed_eq : s'.idsUsed = s.idsUsed
  rootBlock_eq : s'.rootBlock = s.rootBlock

theorem Keeps.refl (s : BlockFuse) : Keeps s s := ⟨rfl, rfl⟩

theorem Keeps.trans {s s' s'' : BlockFuse} (h : Keeps s s') (h' : Keeps s' s'') : Keeps s s'' :=
  ⟨h'.idsUsed_eq.trans h.idsUsed_eq, h'.rootBlock_eq.trans h.rootBlock_eq⟩

variable {s s' s'' : BlockFuse} {blocks created : Multiset Block} {k : Bool}

/-! ## Ids -/

theorem idsUsed_lt (s : BlockFuse) : s.idsUsed < 2 ^ 64 := by
  have h := s.manager.idSupplier.next.toNat_lt
  unfold idsUsed
  split <;> omega

theorem next_eq_zero_iff : s.manager.idSupplier.next = 0 ↔ s.idsUsed + 1 = 2 ^ 64 := by
  have h := s.manager.idSupplier.next.toNat_lt
  unfold idsUsed
  split
  case isTrue hz => simp [hz]
  case isFalse hz =>
    simp only [hz, false_iff]
    omega

theorem next_eq (h : s.manager.idSupplier.next ≠ 0) :
    s.manager.idSupplier.next = .ofNat (s.idsUsed + 1) := by
  have hlt := s.manager.idSupplier.next.toNat_lt
  have hpos : 0 < s.manager.idSupplier.next.toNat := by
    rw [Nat.pos_iff_ne_zero]
    exact fun hz => h (UInt64.toNat.inj hz)
  apply UInt64.toNat.inj
  rw [idsUsed, if_neg h, Nat.sub_add_cancel hpos, UInt64.ofNat_toNat]

/-- Distinct ids that were all handed out are no more than were handed out. -/
theorem Stores.card_le (h : Stores s blocks) : blocks.card ≤ s.idsUsed + 1 := by
  have hnodup : (blocks.map fun b => b.id.toNat).Nodup := by
    have hmap := h.holds.nodup.map (f := UInt64.toNat) fun _ _ => UInt64.toNat.inj
    rwa [Multiset.map_map] at hmap
  have hsub : (blocks.map fun b => b.id.toNat) ≤ Multiset.range (s.idsUsed + 1) := by
    refine (Multiset.le_iff_subset hnodup).mpr fun n hn => ?_
    obtain ⟨b, hb, rfl⟩ := Multiset.mem_map.mp hn
    exact Multiset.mem_range.mpr (Nat.lt_succ_of_le (h.le_idsUsed b hb))
  simpa using Multiset.card_le_card hsub

/-! ## Growing -/

theorem Grown.refl (h : Stores s blocks) : Grown s blocks 0 s := ⟨by simpa using h, rfl, rfl⟩

theorem Grown.trans {more : Multiset Block} (h : Grown s blocks created s')
    (h' : Grown s' (created + blocks) more s'') : Grown s blocks (more + created) s'' := by
  refine ⟨?_, ?_, h'.rootBlock_eq.trans h.rootBlock_eq⟩
  · rw [Multiset.add_assoc]
    exact h'.stores
  · rw [h'.idsUsed_eq, h.idsUsed_eq, Multiset.card_add]
    omega

/-- A program that runs out of ids after another one has created blocks. -/
theorem OutOfIds.after {need : ℕ} {e : Halt} (h : Grown s blocks created s')
    (h' : OutOfIds s' (created + blocks) need e s'') :
    OutOfIds s blocks (created.card + need) e s'' := by
  obtain ⟨more, hmore, hlast⟩ := h'.grown
  have hshort := h'.short
  rw [h.idsUsed_eq, Nat.add_assoc] at hshort
  exact ⟨h'.threw, hshort, _, h.trans hmore, hlast⟩

theorem OutOfIds.mono {need need' : ℕ} {e : Halt} (h : OutOfIds s blocks need e s')
    (hle : need ≤ need') : OutOfIds s blocks need' e s' :=
  ⟨h.threw, h.short.trans (Nat.add_le_add_left hle _), h.grown⟩

/-! ## The calls -/

@[simp] theorem run_getRootBlock (s : BlockFuse) :
    getRootBlock.run (handler k) s = .returned s.rootBlock s := Program.run_request ..

@[simp] theorem run_setRootBlock (root : Block) (s : BlockFuse) :
    (setRootBlock root).run (handler k) s = .returned () { s with rootBlock := root } :=
  Program.run_request ..

theorem Stores.setRoot (h : Stores s blocks) (root : Block) :
    Stores { s with rootBlock := root } blocks := ⟨h.holds, h.le_idsUsed⟩

/-- **A request for stored blocks.** -/
theorem Stores.run_getBlocks (h : Stores s blocks) (requested : List Block)
    (hsub : ∀ b ∈ requested, b ∈ blocks) :
    (getBlocks (requested.map (·.id))).run (handler k) s =
      .returned (requested.map some) s := by
  have hget := MemoryBlockManager.getBlocks_stored fun b hb => h.holds.get b (hsub b hb)
  rw [FsM.getBlocks, Program.run_request, handler, hget]

/-- Stored blocks may be asked for. -/
theorem Stores.mapped_getBlocks (h : Stores s blocks) {requested : List Block}
    (hsub : ∀ b ∈ requested, b ∈ blocks) : Mapped (.getBlocks (requested.map (·.id))) s := by
  intro id hid
  obtain ⟨b, hb, rfl⟩ := List.mem_map.mp hid
  rw [h.holds.get b (hsub b hb)]
  rfl

/-- The state after `create_block` has returned. -/
def withCreated (s : BlockFuse) (data : BlockData) : BlockFuse :=
  { s with
    manager := ⟨⟨s.manager.idSupplier.next + 1⟩,
      Function.update s.manager.map (.ofNat (s.idsUsed + 1))
        (some (some ⟨.ofNat (s.idsUsed + 1), data⟩))⟩ }

theorem run_createBlock (data : BlockData) (h : s.manager.idSupplier.next ≠ 0) :
    (createBlock data).run (handler k) s =
      .returned ⟨.ofNat (s.idsUsed + 1), data⟩ (s.withCreated data) := by
  rw [FsM.createBlock, Program.run_request, handler, MemoryBlockManager.createBlock,
    CounterSupplier.nextId, if_neg h, withCreated, ← next_eq h]
  rfl

theorem run_createBlock_exhausted (data : BlockData) (h : s.manager.idSupplier.next = 0) :
    (createBlock data).run (handler k) s = .halted (.threw "Exhausted id space") s := by
  rw [FsM.createBlock, Program.run_request, handler, MemoryBlockManager.createBlock,
    CounterSupplier.nextId, if_pos h]
  rfl

theorem idsUsed_withCreated (data : BlockData) (h : s.manager.idSupplier.next ≠ 0) :
    (s.withCreated data).idsUsed = s.idsUsed + 1 := by
  have hlt := s.manager.idSupplier.next.toNat_lt
  have hpos : 0 < s.manager.idSupplier.next.toNat := by
    rw [Nat.pos_iff_ne_zero]
    exact fun hz => h (UInt64.toNat.inj hz)
  have hadd : (s.manager.idSupplier.next + 1).toNat =
      (s.manager.idSupplier.next.toNat + 1) % 2 ^ 64 := UInt64.toNat_add ..
  have hzero : s.manager.idSupplier.next + 1 = 0 ↔
      (s.manager.idSupplier.next.toNat + 1) % 2 ^ 64 = 0 := by
    rw [← hadd]
    exact ⟨fun hz => by rw [hz]; rfl, fun hz => UInt64.toNat.inj hz⟩
  simp only [idsUsed, withCreated, hzero, hadd, h, if_false]
  split <;> omega

/-! ## Freeing -/

/-- The state after `free_block` of the manager. -/
def withFreed (s : BlockFuse) (id : BlockId) : BlockFuse :=
  { s with manager := s.manager.freeBlock id }

/-- A stored block may be freed. -/
theorem Stores.mapped_free {b : Block} (h : Stores s (b ::ₘ blocks)) {call : FsCall}
    (huses : call.uses = [b.id]) : Mapped call s := by
  intro id hid
  rw [huses, List.mem_singleton] at hid
  rw [hid, h.holds.get b (Multiset.mem_cons_self ..)]
  rfl

theorem Stores.free {b : Block} (h : Stores s (b ::ₘ blocks)) :
    Stores (s.withFreed b.id) blocks :=
  ⟨h.holds.erase, fun c hc => h.le_idsUsed c (Multiset.mem_cons_of_mem hc)⟩

theorem keeps_withFreed (s : BlockFuse) (id : BlockId) : Keeps s (s.withFreed id) := ⟨rfl, rfl⟩

/-- The manager frees the blocks one after the other. -/
theorem Stores.managerFreeAll {freed : List Block} (h : Stores s (freed + blocks)) :
    ∃ s', (forEach managerFreeBlock (freed.map (·.id))).run (handler k) s = .returned () s' ∧
      Stores s' blocks ∧ Keeps s s' ∧
      (forEach managerFreeBlock (freed.map (·.id))).EveryCall (handler k) Mapped s := by
  induction freed generalizing s with
  | nil => exact ⟨s, rfl, by simpa using h, Keeps.refl s, trivial⟩
  | cons b bs ih =>
    rw [← Multiset.cons_coe, Multiset.cons_add] at h
    obtain ⟨s', hrun, hstores, hkeeps, hcalls⟩ := ih h.free
    refine ⟨s', ?_, hstores, (keeps_withFreed s b.id).trans hkeeps, ?_⟩
    · rw [List.map_cons, forEach, Program.run_bind, FsM.managerFreeBlock, Program.run_request]
      exact hrun
    · exact Program.everyCall_bind_of_run (Program.everyCall_request.mpr (h.mapped_free rfl))
        (Program.run_request ..) hcalls

/-- The virtual `free_block` frees the blocks one after the other, or keeps them all. -/
theorem Stores.freeAll {freed : List Block} (h : Stores s (freed + blocks)) :
    ∃ s', (freeAll freed).run (handler k) s = .returned () s' ∧
      Stores s' (if k then freed + blocks else blocks) ∧ Keeps s s' ∧
      (BlockFuse.freeAll freed).EveryCall (handler k) Mapped s := by
  cases k with
  | true =>
    suffices hall : ∀ bs : List Block, (∀ b ∈ bs, b ∈ freed) →
        (BlockFuse.freeAll bs).run (handler true) s = .returned () s ∧
          (BlockFuse.freeAll bs).EveryCall (handler true) Mapped s from
      ⟨s, (hall freed fun _ hb => hb).1, h, Keeps.refl s, (hall freed fun _ hb => hb).2⟩
    intro bs hbs
    induction bs with
    | nil => exact ⟨rfl, trivial⟩
    | cons b bs ih =>
      obtain ⟨hrun, hcalls⟩ := ih fun c hc => hbs c (List.mem_cons_of_mem _ hc)
      obtain ⟨others, hothers⟩ := Multiset.exists_cons_of_mem
        (Multiset.mem_add.mpr (Or.inl (hbs b (List.mem_cons_self ..))) : b ∈ freed + blocks)
      constructor
      · rw [BlockFuse.freeAll, forEach, Program.run_bind, FsM.freeBlock, Program.run_request]
        exact hrun
      · exact Program.everyCall_bind_of_run (Program.everyCall_request.mpr
          ((hothers ▸ h).mapped_free rfl)) (Program.run_request ..) hcalls
  | false =>
    induction freed generalizing s with
    | nil => exact ⟨s, rfl, by simpa using h, Keeps.refl s, trivial⟩
    | cons b bs ih =>
      rw [← Multiset.cons_coe, Multiset.cons_add] at h
      obtain ⟨s', hrun, hstores, hkeeps, hcalls⟩ := ih h.free
      refine ⟨s', ?_, hstores, (keeps_withFreed s b.id).trans hkeeps, ?_⟩
      · rw [BlockFuse.freeAll, forEach, Program.run_bind, FsM.freeBlock, Program.run_request]
        exact hrun
      · exact Program.everyCall_bind_of_run (Program.everyCall_request.mpr (h.mapped_free rfl))
          (Program.run_request ..) hcalls

end BlockFuse

end Pingfs
