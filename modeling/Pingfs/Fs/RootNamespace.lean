import Pingfs.Fs.IdOrder

/-!
# What the root leads to

While requests overlap, blocks are stored that belong to no tree yet or to none any more, and
requests for blocks that are gone leave null pointers in the map. `Contains s blocks` is what is
left of `Stores` then: the blocks are there. `namespaceOf` walks down from the root and puts
together the namespace it finds, if nothing on the way is missing.

## Main results

* `Contains.createBlock`, `Contains.free`, `Contains.getBlocks` — the calls
* `Contains.namespaceOf_eq`, `Contains.isStored_of_reaches` — a root whose tree is there
-/

namespace Pingfs

namespace BlockFuse

open FsM

variable {s : BlockFuse} {blocks : Multiset Block} {t : Inodes}

/-- The manager holds these blocks, and maybe others. -/
structure Contains (s : BlockFuse) (blocks : Multiset Block) : Prop where
  nodup : (blocks.map (·.id)).Nodup
  get : ∀ b ∈ blocks, s.manager.map b.id = some (some b)
  le_idsUsed : ∀ b ∈ blocks, b.id.toNat ≤ s.idsUsed

theorem Stores.contains (h : Stores s blocks) : Contains s blocks :=
  ⟨h.holds.nodup, h.holds.get, h.le_idsUsed⟩

theorem Contains.mono {fewer : Multiset Block} (h : Contains s blocks) (hle : fewer ≤ blocks) :
    Contains s fewer :=
  ⟨Multiset.nodup_of_le (Multiset.map_le_map hle) h.nodup,
    fun b hb => h.get b (Multiset.mem_of_le hle hb),
    fun b hb => h.le_idsUsed b (Multiset.mem_of_le hle hb)⟩

/-- The state with nothing but these blocks in its map. -/
def restrict (s : BlockFuse) (blocks : Multiset Block) : BlockFuse :=
  { s with
    manager := { s.manager with
      map := fun id => if id ∈ blocks.map (·.id) then s.manager.map id else none } }

theorem Contains.stores_restrict (h : Contains s blocks) : Stores (s.restrict blocks) blocks := by
  refine ⟨⟨h.nodup, fun b hb => ?_, fun id hid => ?_⟩, h.le_idsUsed⟩
  · exact (if_pos (Multiset.mem_map_of_mem _ hb)).trans (h.get b hb)
  · by_contra hnot
    have hnone : (s.restrict blocks).manager.map id = none := if_neg hnot
    rw [hnone] at hid
    cases hid

/-! ## The calls -/

theorem Contains.getBlocks (h : Contains s blocks) (ids : List BlockId) :
    Contains { s with manager := (s.manager.getBlocks ids).2 } blocks := by
  refine ⟨h.nodup, fun b hb => ?_, fun b hb => ?_⟩
  · exact MemoryBlockManager.map_getBlocks_of_eq_some (h.get b hb)
  · rw [idsUsed, MemoryBlockManager.idSupplier_getBlocks]
    exact h.le_idsUsed b hb

theorem Contains.setRoot (h : Contains s blocks) (root : Block) :
    Contains { s with rootBlock := root } blocks := ⟨h.nodup, h.get, h.le_idsUsed⟩

theorem Contains.free {b : Block} (h : Contains s (b ::ₘ blocks)) :
    Contains (s.withFreed b.id) blocks := by
  have hnodup := h.nodup
  rw [Multiset.map_cons, Multiset.nodup_cons] at hnodup
  refine ⟨hnodup.2, fun c hc => ?_, fun c hc => h.le_idsUsed c (Multiset.mem_cons_of_mem hc)⟩
  have hne : c.id ≠ b.id := fun heq => hnodup.1 (heq ▸ Multiset.mem_map_of_mem _ hc)
  exact (Function.update_of_ne hne ..).trans (h.get c (Multiset.mem_cons_of_mem hc))

/-- **A new block** has the next id, which no block there has. -/
theorem Contains.createBlock (h : Contains s blocks) (data : BlockData)
    (hz : s.manager.idSupplier.next ≠ 0) :
    Contains (s.withCreated data) (⟨.ofNat (s.idsUsed + 1), data⟩ ::ₘ blocks) := by
  have hids : s.idsUsed + 1 < 2 ^ 64 := by
    have hne := mt next_eq_zero_iff.mpr hz
    have hlt := s.idsUsed_lt
    omega
  have hnew : (UInt64.ofNat (s.idsUsed + 1) : BlockId).toNat = s.idsUsed + 1 :=
    UInt64.toNat_ofNat_of_lt' hids
  have hfresh : (UInt64.ofNat (s.idsUsed + 1) : BlockId) ∉ blocks.map (·.id) := by
    intro hmem
    obtain ⟨b, hb, hid⟩ := Multiset.mem_map.mp hmem
    have hle := h.le_idsUsed b hb
    rw [hid] at hle
    omega
  refine ⟨?_, fun b hb => ?_, fun b hb => ?_⟩
  · rw [Multiset.map_cons, Multiset.nodup_cons]
    exact ⟨hfresh, h.nodup⟩
  · rcases Multiset.mem_cons.mp hb with rfl | hb
    · exact Function.update_self ..
    · have hne : b.id ≠ .ofNat (s.idsUsed + 1) := fun heq =>
        hfresh (heq ▸ Multiset.mem_map_of_mem _ hb)
      exact (Function.update_of_ne hne ..).trans (h.get b hb)
  · rw [idsUsed_withCreated data hz]
    rcases Multiset.mem_cons.mp hb with rfl | hb
    · exact hnew.le
    · exact (h.le_idsUsed b hb).trans (Nat.le_succ _)

/-! ## The namespace below the root -/

/-- What is found under ids and below: the bytes of the data, and the entries of the inodes. -/
def entriesBelow (map : BlockId → Option (Option Block)) :
    ℕ → List BlockId → Option (Bytes × Forest Entry)
  | _, [] => some ([], .nil)
  | 0, _ :: _ => none
  | fuel + 1, id :: ids => do
    let block ← (map id).join
    let (bytes, entries) ← entriesBelow map fuel block.children
    let (moreBytes, moreEntries) ← entriesBelow map fuel ids
    match block.data with
    | .dirFile inode =>
      return (moreBytes, .cons ⟨inode.name, inode.stat, bytes⟩ entries moreEntries)
    | .fileContents contents => return (contents.data ++ moreBytes, moreEntries)
    | .link _ => return (bytes ++ moreBytes, entries ++ moreEntries)

/-- The namespace that the root leads to, unless a block on the way is missing. -/
def namespaceOf (s : BlockFuse) : Option Namespace := do
  let root ← s.rootBlock.tryCastDirFile
  let (bytes, entries) ← entriesBelow s.manager.map s.fuel s.rootBlock.children
  return (⟨root.name, root.stat, bytes⟩, entries)

variable {map : BlockId → Option (Option Block)}

/-- Data, and whatever comes after it. -/
theorem entriesBelow_data {d : DataForest} (hd : ∀ b ∈ d.blocks, map b.id = some (some b))
    {ids : List BlockId} {least : ℕ} {bytes : Bytes} {entries : Forest Entry}
    (hids : ∀ fuel ≥ least, entriesBelow map fuel ids = some (bytes, entries)) :
    ∀ fuel ≥ d.blocks.card + least,
      entriesBelow map fuel (d.rootIds ++ ids) = some (d.contents ++ bytes, entries) := by
  induction d generalizing ids least bytes entries with
  | nil => exact fun fuel hfuel => hids fuel (by simpa [DataForest.blocks] using hfuel)
  | leaf id data rest ih =>
    intro fuel hfuel
    rw [DataForest.blocks, Multiset.card_cons] at hfuel
    obtain ⟨fuel, rfl⟩ : ∃ n, fuel = n + 1 := ⟨fuel - 1, by omega⟩
    have hblock := hd _ (Multiset.mem_cons_self ..)
    have hrest := ih (fun b hb => hd b (Multiset.mem_cons_of_mem hb)) hids fuel (by omega)
    have hchildren : entriesBelow map fuel [] = some ([], .nil) := by cases fuel <;> rfl
    simp only [DataForest.rootIds, List.cons_append, entriesBelow, hblock, hrest]
    simp [Block.children, Block.getChildren, Block.tryCastLink, Block.tryCastDirFile, hchildren,
      DataForest.contents]
  | link id kids rest ihk ih =>
    intro fuel hfuel
    rw [DataForest.blocks, Multiset.card_cons, Multiset.card_add] at hfuel
    obtain ⟨fuel, rfl⟩ : ∃ n, fuel = n + 1 := ⟨fuel - 1, by omega⟩
    have hblock := hd _ (Multiset.mem_cons_self ..)
    have hnil : ∀ fuel ≥ 0, entriesBelow map fuel [] = some ([], .nil) := by
      intro fuel _
      cases fuel <;> rfl
    have hkids := ihk (fun b hb => hd b (Multiset.mem_cons_of_mem
      (Multiset.mem_add.mpr (Or.inl hb)))) hnil fuel (by omega)
    have hrest := ih (fun b hb => hd b (Multiset.mem_cons_of_mem
      (Multiset.mem_add.mpr (Or.inr hb)))) hids fuel (by omega)
    rw [List.append_nil, List.append_nil] at hkids
    simp only [DataForest.rootIds, List.cons_append, entriesBelow, hblock, hrest]
    simp [Block.children, Block.getChildren, Block.tryCastLink, hkids, DataForest.contents]

theorem entriesBelow_inodes {kids : Forest Node}
    (hkids : ∀ b ∈ Node.blocks kids, map b.id = some (some b)) :
    ∀ fuel ≥ (Node.blocks kids).card,
      entriesBelow map fuel (Node.rootIds kids) = some ([], kids.map Node.entry) := by
  induction kids with
  | nil =>
    intro fuel _
    cases fuel <;> rfl
  | cons a akids rest ihk ih =>
    intro fuel hfuel
    rw [Node.blocks, Multiset.card_cons, Multiset.card_add, Multiset.card_add] at hfuel
    simp only [Node.blocks, Multiset.mem_cons, Multiset.mem_add] at hkids
    obtain ⟨fuel, rfl⟩ : ∃ n, fuel = n + 1 := ⟨fuel - 1, by omega⟩
    have hblock : map a.id = some (some (a.block akids)) := hkids _ (Or.inl rfl)
    have hbelow := entriesBelow_data (fun b hb => hkids b (Or.inr (Or.inl (Or.inl hb))))
      (ihk fun b hb => hkids b (Or.inr (Or.inl (Or.inr hb)))) fuel (by omega)
    have hrest := ih (fun b hb => hkids b (Or.inr (Or.inr hb))) fuel (by omega)
    rw [List.append_nil] at hbelow
    simp only [Node.rootIds_cons, entriesBelow, hblock, hrest, Node.children_block, hbelow,
      Option.join_some, Option.bind_eq_bind, Option.bind_some]
    rfl

/-- **A root whose tree is there** leads to the namespace of the tree. -/
theorem Contains.namespaceOf_eq (h : Contains s t.blocks) (hroot : s.rootBlock = t.1.block t.2) :
    s.namespaceOf = some t.entries := by
  have hcard : t.blocks.card ≤ s.fuel := by
    have hle := h.stores_restrict.card_le
    have hused : (s.restrict t.blocks).idsUsed = s.idsUsed := rfl
    unfold fuel
    omega
  have hinodes : ∀ fuel ≥ (Node.blocks t.2).card,
      entriesBelow s.manager.map fuel (Node.rootIds t.2) = some ([], t.2.map Node.entry) :=
    entriesBelow_inodes fun b hb =>
      h.get b (Multiset.mem_cons_of_mem (Multiset.mem_add.mpr (Or.inr hb)))
  have hbelow := entriesBelow_data (d := t.1.data)
    (fun b hb => h.get b (Multiset.mem_cons_of_mem (Multiset.mem_add.mpr (Or.inl hb)))) hinodes
    s.fuel (by
      simp only [Inodes.blocks, Node.tree, Node.below, Multiset.card_cons,
        Multiset.card_add] at hcard
      omega)
  rw [List.append_nil] at hbelow
  simp only [namespaceOf, hroot, Node.tryCastDirFile_block, Node.children_block, hbelow,
    Option.bind_eq_bind, Option.bind_some]
  rfl

/-- The id is that of the root, or listed by a stored block that is reached. -/
def Reaches (s : BlockFuse) (id : BlockId) : Prop :=
  Relation.ReflTransGen (Lists s) s.rootBlock.id id

/-- All that is reached is stored. -/
theorem Contains.isStored_of_reaches (h : Contains s t.blocks)
    (hroot : s.rootBlock = t.1.block t.2) {id : BlockId} (hreaches : s.Reaches id) :
    ∃ b, s.manager.map id = some (some b) := by
  suffices hin : ∃ b ∈ t.blocks, b.id = id by
    obtain ⟨b, hb, rfl⟩ := hin
    exact ⟨b, h.get b hb⟩
  induction hreaches with
  | refl => exact ⟨t.1.block t.2, Multiset.mem_cons_self .., by rw [hroot]⟩
  | @tail _ child _ hlists ih =>
    obtain ⟨b, hb, rfl⟩ := ih
    obtain ⟨c, hc, hchild⟩ := hlists
    rw [h.get b hb] at hc
    obtain rfl := Option.some.inj (Option.some.inj hc)
    have hrefs : child ∈ t.blocks.map (·.id) := by
      rw [← Node.references_tree]
      exact Multiset.mem_cons_of_mem (Multiset.mem_bind.mpr ⟨b, hb, hchild⟩)
    exact Multiset.mem_map.mp hrefs

end BlockFuse

end Pingfs
