import Pingfs.Fs.Store

/-!
# Programs that create blocks

A program that creates blocks one after the other takes the ids that come next, whatever is in the
map: nothing that was created before is touched. It may also run out of ids. `Created s bs s'` says
all that becomes of the state, and `Has s b` is what a block that was created and not freed has.

## Main results

* `Created.trans`, `RunsOut.after` — creating some blocks after others
* `createBlock_created`, `createAll_created` — the calls
* `Created.has_of_has`, `Created.has` — the blocks from before, and the new ones
* `Created.grown` — a manager that holds exactly some blocks
-/

namespace Pingfs

namespace BlockFuse

open FsM BlockUtil

/-- The manager has created the block, and still holds it. -/
structure Has (s : BlockFuse) (b : Block) : Prop where
  get : s.manager.map b.id = some (some b)
  le_idsUsed : b.id.toNat ≤ s.idsUsed

/-- The blocks `bs` were created, in this order, with the ids that come next, and nothing else
happened. -/
structure Created (s : BlockFuse) (bs : List Block) (s' : BlockFuse) : Prop where
  ids : bs.map (·.id.toNat) = List.range' (s.idsUsed + 1) bs.length
  idsUsed_eq : s'.idsUsed = s.idsUsed + bs.length
  get : ∀ b ∈ bs, s'.manager.map b.id = some (some b)
  map_eq : ∀ id, id ∉ bs.map (·.id) → s'.manager.map id = s.manager.map id
  rootBlock_eq : s'.rootBlock = s.rootBlock

/-- The id space is exhausted. -/
abbrev exhausted : Halt := .threw "Exhausted id space"

/-- The supplier threw, since less than `need` ids were left. Some blocks were created before. -/
structure RunsOut (s : BlockFuse) (need : ℕ) (e : Halt) (s' : BlockFuse) : Prop where
  threw : e = exhausted
  short : 2 ^ 64 ≤ s.idsUsed + need
  created : ∃ bs, Created s bs s'
  idsUsed_eq : s'.idsUsed + 1 = 2 ^ 64

variable {s s' s'' : BlockFuse} {b : Block} {bs cs : List Block} {blocks : Multiset Block}
  {k : Bool} {e : Halt} {need : ℕ}

theorem Created.refl (s : BlockFuse) : Created s [] s :=
  ⟨rfl, rfl, fun _ hb => absurd hb List.not_mem_nil, fun _ _ => rfl, rfl⟩

/-- The ids are above those from before, and up to the last. -/
theorem Created.id_bounds (h : Created s bs s') (hb : b ∈ bs) :
    s.idsUsed < b.id.toNat ∧ b.id.toNat ≤ s'.idsUsed := by
  have hid : b.id.toNat ∈ List.range' (s.idsUsed + 1) bs.length := by
    rw [← h.ids]
    exact List.mem_map_of_mem hb
  rw [List.mem_range'_1] at hid
  have hused := h.idsUsed_eq
  omega

/-- **What was there before** is there after. -/
theorem Created.has_of_has (h : Created s bs s') (hb : Has s b) : Has s' b := by
  have hold := hb.le_idsUsed
  have hused := h.idsUsed_eq
  refine ⟨?_, by omega⟩
  rw [h.map_eq, hb.get]
  intro hmem
  obtain ⟨c, hc, hid⟩ := List.mem_map.mp hmem
  have hnew := (h.id_bounds hc).1
  rw [hid] at hnew
  omega

/-- **What is new** is there. -/
theorem Created.has (h : Created s bs s') (hb : b ∈ bs) : Has s' b :=
  ⟨h.get b hb, (h.id_bounds hb).2⟩

theorem Created.trans (h : Created s bs s') (h' : Created s' cs s'') :
    Created s (bs ++ cs) s'' := by
  have hused := h.idsUsed_eq
  refine ⟨?_, ?_, fun b hb => ?_, fun id hid => ?_, h'.rootBlock_eq.trans h.rootBlock_eq⟩
  · rw [List.map_append, h.ids, h'.ids, hused, List.length_append, ← List.range'_append_1]
    congr 2
    omega
  · rw [h'.idsUsed_eq, hused, List.length_append, Nat.add_assoc]
  · rcases List.mem_append.mp hb with hb | hb
    · exact (h'.has_of_has (h.has hb)).get
    · exact h'.get b hb
  · rw [List.map_append, List.mem_append, not_or] at hid
    rw [h'.map_eq id hid.2, h.map_eq id hid.1]

theorem RunsOut.after (h : Created s bs s') (h' : RunsOut s' need e s'') :
    RunsOut s (bs.length + need) e s'' := by
  obtain ⟨cs, hcs⟩ := h'.created
  have hshort := h'.short
  rw [h.idsUsed_eq, Nat.add_assoc] at hshort
  exact ⟨h'.threw, hshort, ⟨_, h.trans hcs⟩, h'.idsUsed_eq⟩

theorem RunsOut.mono {need' : ℕ} (h : RunsOut s need e s') (hle : need ≤ need') :
    RunsOut s need' e s' :=
  ⟨h.threw, h.short.trans (Nat.add_le_add_left hle _), h.created, h.idsUsed_eq⟩

/-! ## A manager that holds exactly some blocks -/

theorem Stores.has (h : Stores s blocks) (hb : b ∈ blocks) : Has s b :=
  ⟨h.holds.get b hb, h.le_idsUsed b hb⟩

/-- **The new blocks are added** to those that the manager holds. -/
theorem Created.grown (h : Created s bs s') (hs : Stores s blocks) : Grown s blocks bs s' := by
  have hnew : ∀ b ∈ (bs : Multiset Block), b.id ∉ blocks.map (·.id) := by
    intro b hb hmem
    obtain ⟨c, hc, hsame⟩ := Multiset.mem_map.mp hmem
    have hbounds := (h.id_bounds (Multiset.mem_coe.mp hb)).1
    have hold := hs.le_idsUsed c hc
    rw [hsame] at hold
    omega
  have hnodup : (bs.map (·.id)).Nodup := by
    refine List.Nodup.of_map UInt64.toNat ?_
    rw [List.map_map]
    exact h.ids ▸ List.nodup_range'
  have hholds : Heap.Holds Block.id some s'.manager.map (bs + blocks) :=
    hs.holds.add (Multiset.coe_nodup.mpr hnodup) hnew (fun b hb => h.get b (Multiset.mem_coe.mp hb))
      h.map_eq
  refine ⟨⟨hholds, fun b hb => ?_⟩, ?_, h.rootBlock_eq⟩
  · rcases Multiset.mem_add.mp hb with hb | hb
    · exact (h.has (Multiset.mem_coe.mp hb)).le_idsUsed
    · exact (h.has_of_has (hs.has hb)).le_idsUsed
  · rw [h.idsUsed_eq, Multiset.coe_card]

theorem RunsOut.outOfIds (h : RunsOut s need e s') (hs : Stores s blocks) :
    OutOfIds s blocks need e s' := by
  obtain ⟨bs, hbs⟩ := h.created
  exact ⟨h.threw, h.short, bs, hbs.grown hs, h.idsUsed_eq⟩

/-! ## The calls -/

theorem handler_createBlock (data : BlockData) (hz : s.manager.idSupplier.next ≠ 0) :
    handler k (.createBlock data) s =
      .returned ⟨.ofNat (s.idsUsed + 1), data⟩ (s.withCreated data) := by
  rw [← run_createBlock (k := k) data hz, createBlock, Program.run_request]

theorem handler_createBlock_exhausted (data : BlockData) (hz : s.manager.idSupplier.next = 0) :
    handler k (.createBlock data) s = .halted exhausted s :=
  (Program.run_request (handler k) (.createBlock data) s).symm.trans
    (run_createBlock_exhausted data hz)

/-- **A block is created**, with the next id, or there is no next id. -/
theorem createBlock_created (s : BlockFuse) (data : BlockData) :
    ((createBlock data).run (handler k) s).Meets
      (fun b s' => b = ⟨.ofNat (s.idsUsed + 1), data⟩ ∧ Created s [b] s') (RunsOut s 1) := by
  by_cases hz : s.manager.idSupplier.next = 0
  · have hlast := next_eq_zero_iff.mp hz
    rw [run_createBlock_exhausted data hz]
    exact ⟨rfl, hlast ▸ le_rfl, ⟨[], Created.refl s⟩, hlast⟩
  · have hids : s.idsUsed + 1 < 2 ^ 64 := by
      have hne := mt next_eq_zero_iff.mpr hz
      have hlt := s.idsUsed_lt
      omega
    rw [run_createBlock data hz]
    refine ⟨rfl, ?_, idsUsed_withCreated data hz, fun b hb => ?_, fun id hid => ?_, rfl⟩
    · rw [List.map_singleton, UInt64.toNat_ofNat_of_lt' hids]
      rfl
    · obtain rfl := List.mem_singleton.mp hb
      exact Function.update_self ..
    · rw [List.map_singleton, List.mem_singleton] at hid
      exact Function.update_of_ne hid ..

theorem Stores.createBlock_meets (hs : Stores s blocks) (data : BlockData) :
    ((createBlock data).run (handler k) s).Meets
      (fun b s' => b = ⟨.ofNat (s.idsUsed + 1), data⟩ ∧ Grown s blocks {b} s')
      (OutOfIds s blocks 1) := by
  refine (createBlock_created s data).imp ?_ fun _ _ h => h.outOfIds hs
  rintro b s' ⟨hb, hcreated⟩
  exact ⟨hb, hcreated.grown hs⟩

/-- The blocks created for `datas` when the next id is `i`. -/
def numbered : ℕ → List BlockData → List Block
  | _, [] => []
  | i, data :: datas => ⟨.ofNat i, data⟩ :: numbered (i + 1) datas

@[simp] theorem length_numbered (i : ℕ) (datas : List BlockData) :
    (numbered i datas).length = datas.length := by
  induction datas generalizing i with
  | nil => rfl
  | cons data datas ih => rw [numbered, List.length_cons, ih, List.length_cons]

/-- The blocks of a kind are created with calls of that kind. -/
theorem only_createAll {P : FsCall → Prop} {datas : List BlockData}
    (h : ∀ data ∈ datas, P (.createBlock data)) : (createAll datas).Only P := by
  induction datas with
  | nil => trivial
  | cons data datas ih =>
    refine Program.only_bind ((Program.only_request _).mpr (h data List.mem_cons_self)) fun b => ?_
    exact Program.only_bind (ih fun d hd => h d (List.mem_cons_of_mem _ hd)) fun bs => trivial

/-- Blocks are created one after the other. -/
theorem createAll_created (s : BlockFuse) (datas : List BlockData) :
    ((createAll datas).run (handler k) s).Meets
      (fun bs s' => bs = numbered (s.idsUsed + 1) datas ∧ Created s bs s')
      (RunsOut s datas.length) := by
  induction datas generalizing s with
  | nil => exact ⟨rfl, Created.refl s⟩
  | cons data datas ih =>
    rw [createAll, Program.run_bind]
    refine (createBlock_created s data).bind (fun e s' h => h.mono (by simp)) ?_
    rintro b s' ⟨rfl, hb⟩
    rw [Program.run_bind]
    refine (ih s').bind (fun e s'' h => ?_) ?_
    · refine (RunsOut.after hb h).mono ?_
      rw [List.length_singleton, List.length_cons, Nat.add_comm]
    · rintro bs s'' ⟨rfl, hbs⟩
      have hused : s'.idsUsed = s.idsUsed + 1 := hb.idsUsed_eq
      rw [Program.run_pure]
      exact ⟨by rw [numbered, hused], hb.trans hbs⟩

/-- A request for blocks that are there. -/
theorem run_getBlocks_of_has (requested : List Block) (h : ∀ b ∈ requested, Has s b) :
    (getBlocks (requested.map (·.id))).run (handler k) s = .returned (requested.map some) s := by
  have hget := MemoryBlockManager.getBlocks_stored fun b hb => (h b hb).get
  rw [FsM.getBlocks, Program.run_request, handler, hget]

end BlockFuse

end Pingfs
