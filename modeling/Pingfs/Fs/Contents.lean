import Pingfs.Fs.Creation
import Pingfs.Fs.InodeTree

/-!
# File contents in blocks

Reading a file walks its data from left to right and puts the leaves together. Writing cuts the
contents into leaves and puts layers of links above them; whatever the number of layers, the
leaves stay in order below them. A leaf is cut from its offset to the end of the contents, so what
is read back (`stored`) repeats everything past the first block.

Source: `read_file_contents`, `replace_blocks_for_contents` and `add_link_layer` of
`block_util.cc`.

## Main results

* `Stores.run_readFileContents` — reading gives the contents of the data below the inode
* `addLinkLayers_created` — layers of links keep the leaves
* `Stores.replaceBlocksForContents_meets` — writing creates data with contents `stored contents`
* `stored_eq_self_iff` — what is stored is what was written, up to one block
-/

namespace Pingfs

namespace BlockFuse

open FsM BlockUtil

variable {s s' : BlockFuse} {stored : Multiset Block} {k : Bool}

/-! ## Reading -/

/-- The leaves, from left to right. -/
def leaves : DataForest → List FileContentsBlockData
  | .nil => []
  | .leaf _ data rest => ⟨data⟩ :: leaves rest
  | .link _ kids rest => leaves kids ++ leaves rest

@[simp] theorem leaves_append (d e : DataForest) : leaves (d ++ e) = leaves d ++ leaves e := by
  induction d with
  | nil => rfl
  | leaf id data rest ih => simp [leaves, ih]
  | link id kids rest _ ih => simp [leaves, ih]

theorem flatMap_leaves (d : DataForest) : (leaves d).flatMap (·.data) = d.contents := by
  induction d with
  | nil => rfl
  | leaf id data rest ih => simp [leaves, DataForest.contents, ih]
  | link id kids rest ihk ih => simp [leaves, DataForest.contents, ihk, ih]

/-- Blocks of inodes are passed over. -/
theorem run_gatherContents_inodes (below : List BlockId → FsM (List FileContentsBlockData))
    (kids : Forest Node) (s : BlockFuse) :
    (gatherContents below ((Node.rootBlocks kids).map some)).run (handler k) s =
      .returned [] s := by
  induction kids with
  | nil => rfl
  | cons a akids rest _ ih =>
    simp only [Node.rootBlocks, List.map_cons, gatherContents, deref, Program.run_bind,
      Program.run_ofExcept_ok, Outcome.bind_returned]
    exact ih

/-- The walk over data that is there, and over the blocks `after` it. -/
theorem run_gatherContents {d : DataForest} (hd : ∀ b ∈ d.blocks, Has s b) {fuel : ℕ}
    (hfuel : d.height ≤ fuel)
    (after : List (Option Block)) :
    (gatherContents (getFileContents fuel) (d.rootBlocks.map some ++ after)).run (handler k) s =
      ((gatherContents (getFileContents fuel) after).run (handler k) s).bind
        fun rest s => .returned (leaves d ++ rest) s := by
  induction d generalizing fuel after with
  | nil =>
    simp only [DataForest.rootBlocks, List.map_nil, List.nil_append, leaves]
    cases (gatherContents (getFileContents fuel) after).run (handler k) s <;> rfl
  | leaf id data rest ih =>
    have hrest := ih (fun b hb => hd b (Multiset.mem_cons_of_mem hb))
      (show rest.height ≤ fuel by simp [DataForest.height] at hfuel; omega) after
    simp only [DataForest.rootBlocks, List.map_cons, List.cons_append, gatherContents, deref,
      Program.run_bind, Program.run_ofExcept_ok, Outcome.bind_returned, Block.tryCastContents,
      hrest, leaves]
    cases (gatherContents (getFileContents fuel) after).run (handler k) s <;> rfl
  | link id kids rest ihk ih =>
    obtain ⟨hkids, hrest⟩ : kids.height + 1 ≤ fuel ∧ rest.height ≤ fuel := by
      simpa [DataForest.height] using hfuel
    have hrest := ih (fun b hb => hd b (by simp [DataForest.blocks, hb])) hrest after
    obtain ⟨fuel', rfl⟩ : ∃ n, fuel = n + 1 := ⟨fuel - 1, by omega⟩
    have hin : ∀ b ∈ kids.blocks, Has s b := fun b hb => hd b (by simp [DataForest.blocks, hb])
    have hresponse := run_getBlocks_of_has (k := k) kids.rootBlocks fun b hb =>
      hin b (DataForest.mem_blocks_of_rootBlocks hb)
    rw [kids.map_id_rootBlocks] at hresponse
    have hbelow := ihk hin (Nat.le_of_succ_le_succ hkids) []
    rw [List.append_nil] at hbelow
    have hlinked : (getFileContents (fuel' + 1) kids.rootIds).run (handler k) s =
        .returned (leaves kids) s := by
      rw [getFileContents, Program.run_bind, hresponse, Outcome.bind_returned, hbelow]
      simp [gatherContents]
    simp only [DataForest.rootBlocks, List.map_cons, List.cons_append, gatherContents, deref,
      Program.run_bind, Program.run_ofExcept_ok, Outcome.bind_returned, Block.tryCastContents,
      Block.tryCastLink, hlinked, hrest, leaves, List.append_assoc]
    cases (gatherContents (getFileContents (fuel' + 1)) after).run (handler k) s <;> rfl

/-- **Reading a file.** -/
theorem Stores.run_readFileContents (hs : Stores s stored) {a : Node} {kids : Forest Node}
    (hle : a.tree kids ≤ stored) (hfile : a.stat.isDir = false) {fuel : ℕ}
    (hfuel : a.data.height < fuel) :
    (readFileContents fuel ⟨a.name, a.stat, a.data.rootIds ++ Node.rootIds kids⟩).run
      (handler k) s = .returned a.data.contents s := by
  obtain ⟨fuel, rfl⟩ : ∃ n, fuel = n + 1 := ⟨fuel - 1, by omega⟩
  have hin : ∀ b ∈ a.below kids, b ∈ stored := fun b hb =>
    Multiset.mem_of_le hle (Multiset.mem_cons_of_mem hb)
  have hresponse := hs.run_getBlocks (k := k) (a.childBlocks kids)
    fun b hb => hin b (Node.mem_below_of_childBlocks hb)
  have hgather := run_gatherContents (k := k) (d := a.data)
    (fun b hb => hs.has (hin b (Multiset.mem_add.mpr (Or.inl hb)))) (Nat.le_of_lt_succ hfuel)
    ((Node.rootBlocks kids).map some)
  rw [a.map_id_childBlocks, Node.childBlocks, List.map_append] at hresponse
  simp only [readFileContents, assert, DirFileBlockData.isDir, hfile, Bool.not_false, if_true,
    Program.run_bind, Program.run_pure, Outcome.bind_returned, getFileContents, hresponse, hgather,
    run_gatherContents_inodes, List.append_nil, flatMap_leaves]

/-! ## Writing -/

/-! ### Layers of links -/

/-- A forest can be cut after any number of roots. -/
theorem exists_append_of_take (d : DataForest) (n : ℕ) :
    ∃ d₁ d₂, d = d₁ ++ d₂ ∧ d₁.rootIds = d.rootIds.take n ∧ d₂.rootIds = d.rootIds.drop n := by
  induction d generalizing n with
  | nil => exact ⟨.nil, .nil, rfl, by simp [DataForest.rootIds], by simp [DataForest.rootIds]⟩
  | leaf id data rest ih =>
    cases n with
    | zero => exact ⟨.nil, .leaf id data rest, rfl, rfl, rfl⟩
    | succ n =>
      obtain ⟨d₁, d₂, hd, h₁, h₂⟩ := ih n
      exact ⟨.leaf id data d₁, d₂, by simp [hd], by simp [DataForest.rootIds, h₁],
        by simp [DataForest.rootIds, h₂]⟩
  | link id kids rest _ ih =>
    cases n with
    | zero => exact ⟨.nil, .link id kids rest, rfl, rfl, rfl⟩
    | succ n =>
      obtain ⟨d₁, d₂, hd, h₁, h₂⟩ := ih n
      exact ⟨.link id kids d₁, d₂, by simp [hd], by simp [DataForest.rootIds, h₁],
        by simp [DataForest.rootIds, h₂]⟩

theorem chunk_succ {α : Type} (size : ℕ) (as : List α) (i : ℕ) :
    chunk size as (i + 1) = chunk size (as.drop size) i := by
  rw [chunk, chunk, List.drop_drop, Nat.succ_mul, Nat.add_comm]

theorem map_chunk {α β : Type} (f : α → β) (size : ℕ) (as : List α) (i : ℕ) :
    (chunk size as i).map f = chunk size (as.map f) i := by
  rw [chunk, chunk, List.map_take, List.map_drop]

/-- Links to all chunks of the roots of `d` are the roots of a forest with the same leaves. -/
theorem exists_linkLayer (size count i : ℕ) {d : DataForest}
    (hcount : d.rootIds.length ≤ count * size) (hd : d.Ordered)
    (hids : ∀ id ∈ d.rootIds, id.toNat < i) (hlast : i + count ≤ 2 ^ 64) :
    ∃ e : DataForest,
      e.rootBlocks = numbered i ((List.range count).map fun j => .link ⟨chunk size d.rootIds j⟩) ∧
        e.blocks = e.rootBlocks + d.blocks ∧ leaves e = leaves d ∧ e.height ≤ d.height + 1 ∧
          e.Ordered := by
  induction count generalizing d i with
  | zero =>
    obtain rfl : d = .nil := by
      cases d with
      | nil => rfl
      | leaf id data rest => simp [DataForest.rootIds] at hcount
      | link id kids rest => simp [DataForest.rootIds] at hcount
    exact ⟨.nil, rfl, rfl, rfl, Nat.zero_le _, trivial⟩
  | succ count ih =>
    obtain ⟨d₁, d₂, rfl, h₁, h₂⟩ := exists_append_of_take d size
    rw [DataForest.ordered_append] at hd
    simp only [DataForest.rootIds_append, List.forall_mem_append] at hids
    have hcount₂ : d₂.rootIds.length ≤ count * size := by
      rw [h₂, List.length_drop]
      rw [Nat.succ_mul] at hcount
      omega
    obtain ⟨e, hroots, hblocks, hleaves, hheight, hordered⟩ := ih (i + 1) (d := d₂) hcount₂ hd.2
      (fun id hid => Nat.lt_succ_of_lt (hids.2 id hid)) (by omega)
    refine ⟨.link (.ofNat i) d₁ e, ?_, ?_, by rw [leaves, hleaves, leaves_append], ?_,
      fun child hchild => ?_, hd.1, hordered⟩
    · have hfirst : chunk size (d₁ ++ d₂).rootIds 0 = d₁.rootIds := by
        rw [h₁, chunk, Nat.zero_mul, List.drop_zero]
      rw [List.range_succ_eq_map, List.map_cons, List.map_map, numbered, DataForest.rootBlocks,
        hfirst, hroots, h₂]
      simp only [Function.comp_def, Nat.succ_eq_add_one, chunk_succ]
    · simp only [DataForest.blocks, DataForest.rootBlocks, hblocks, DataForest.blocks_append,
        ← Multiset.cons_coe, ← Multiset.singleton_add]
      ac_rfl
    · rw [DataForest.height, DataForest.height_append]
      omega
    · rw [UInt64.lt_iff_toNat_lt, UInt64.toNat_ofNat_of_lt' (show i < 2 ^ 64 by omega)]
      exact hids.1 child hchild

theorem le_ceilDiv_mul (n : ℕ) {d : ℕ} (hd : 0 < d) : n ≤ ceilDiv n d * d := by
  have hdiv := Nat.div_add_mod n d
  have hlt := Nat.mod_lt n hd
  rw [Nat.mul_comm] at hdiv
  unfold ceilDiv
  split
  · omega
  · rw [Nat.succ_mul]
    omega

theorem ceilDiv_le_self (n : ℕ) {d : ℕ} (hd : 0 < d) : ceilDiv n d ≤ n := by
  have hdiv := Nat.div_le_self n d
  unfold ceilDiv
  split
  case isTrue => exact hdiv
  case isFalse hrest =>
    rcases Nat.lt_or_ge n d with hlt | hge
    · rw [Nat.div_eq_of_lt hlt]
      rcases Nat.eq_zero_or_pos n with rfl | hpos
      · exact absurd (Nat.zero_mod d) hrest
      · omega
    · have hd : d ≠ 1 := fun hone => hrest (by rw [hone, Nat.mod_one])
      have hlt : n / d < n := Nat.div_lt_self (by omega) (by omega)
      omega

/-- **Some rounds of links** above the roots of `d`, which are there. No round makes more links than
it was given blocks. -/
theorem addLinkLayers_created {size : ℕ} (hsize : 0 < size) (depth : ℕ) (s : BlockFuse)
    (d : DataForest) (hd : d.Ordered) (hids : ∀ id ∈ d.rootIds, id.toNat ≤ s.idsUsed) :
    ((addLinkLayers size depth d.rootBlocks).run (handler k) s).Meets
      (fun bs s' => ∃ e : DataForest, ∃ created : List Block, bs = e.rootBlocks ∧
        e.blocks = created + d.blocks ∧ leaves e = leaves d ∧ e.height ≤ d.height + depth ∧
          e.rootBlocks.length = (ceilDiv · size)^[depth] d.rootBlocks.length ∧ e.Ordered ∧
            created.length ≤ depth * d.rootBlocks.length ∧ Created s created s')
      (RunsOut s (depth * d.rootBlocks.length)) := by
  induction depth generalizing s d with
  | zero =>
    exact ⟨d, [], rfl, (Multiset.zero_add _).symm, rfl, le_rfl, rfl, hd, Nat.zero_le _,
      Created.refl s⟩
  | succ depth ih =>
    have hcount := ceilDiv_le_self d.rootBlocks.length hsize
    have hmul := Nat.mul_le_mul_left depth hcount
    rw [addLinkLayers, Program.run_bind, addLinkLayer]
    refine (createAll_created s _).bind (fun e s' h => h.mono ?_) ?_
    · rw [List.length_map, List.length_range, Nat.succ_mul]
      omega
    rintro bs s' ⟨rfl, hcreated⟩
    have hused := hcreated.idsUsed_eq
    have hlt := s'.idsUsed_lt
    rw [length_numbered, List.length_map, List.length_range] at hused
    obtain ⟨e, hroots, hblocks, hleaves, hheight, hordered⟩ := exists_linkLayer size
      (ceilDiv d.rootBlocks.length size) (s.idsUsed + 1) (d := d) (by
        rw [← d.map_id_rootBlocks, List.length_map]
        exact le_ceilDiv_mul _ hsize) hd (fun id hid => Nat.lt_succ_of_le (hids id hid)) (by omega)
    have hlength : e.rootBlocks.length = ceilDiv d.rootBlocks.length size := by
      rw [hroots, length_numbered, List.length_map, List.length_range]
    simp only [map_chunk, d.map_id_rootBlocks] at hcreated ⊢
    rw [← hroots] at hcreated ⊢
    have hids' : ∀ id ∈ e.rootIds, id.toNat ≤ s'.idsUsed := by
      intro id hid
      rw [← e.map_id_rootBlocks] at hid
      obtain ⟨b, hb, rfl⟩ := List.mem_map.mp hid
      exact (hcreated.has hb).le_idsUsed
    refine (ih s' e hordered hids').imp ?_ fun _ _ h => ?_
    · rintro bs s'' ⟨e', created, rfl, hblocks', hleaves', hheight', hlength', hordered', hmade,
        hcreated'⟩
      rw [hlength, ← Function.iterate_succ_apply] at hlength'
      refine ⟨e', e.rootBlocks ++ created, rfl, ?_, hleaves'.trans hleaves, by omega, hlength',
        hordered', ?_, hcreated.trans hcreated'⟩
      · rw [hblocks', hblocks, ← Multiset.coe_add, ← Multiset.add_assoc,
          Multiset.add_comm (created : Multiset Block)]
      · rw [List.length_append, Nat.succ_mul]
        rw [hlength] at hmade ⊢
        omega
    · refine (RunsOut.after hcreated h).mono ?_
      rw [hlength, Nat.succ_mul]
      omega

/-! ### Whole contents -/

/-- What is read back after `contents` was written. -/
def storedContents (contents : Bytes) : Bytes := (leafData contents bytesPerBlock).flatten

theorem exists_leaves (i : ℕ) (datas : List Bytes) :
    ∃ d : DataForest, d.rootBlocks = numbered i (datas.map fun data => .fileContents ⟨data⟩) ∧
      d.blocks = d.rootBlocks ∧ d.contents = datas.flatten ∧ d.Ordered := by
  induction datas generalizing i with
  | nil => exact ⟨.nil, rfl, rfl, rfl, trivial⟩
  | cons data datas ih =>
    obtain ⟨d, hroots, hblocks, hcontents, hordered⟩ := ih (i + 1)
    exact ⟨.leaf (.ofNat i) data d, by simp [DataForest.rootBlocks, numbered, hroots],
      by simp [DataForest.blocks, DataForest.rootBlocks, hblocks],
      by simp [DataForest.contents, hcontents], hordered⟩

/-- As many ids as the blocks of some contents take, at most: those of the leaves, and as many
again for each layer of links. -/
def idsForContents (depth : ℕ → ℕ → ℕ) (contents : Bytes) : ℕ :=
  (depth (ceilDiv contents.length bytesPerBlock) branchingFactor + 1) *
    ceilDiv contents.length bytesPerBlock

/-- The blocks created for some contents, in any state. -/
theorem replaceBlocksForContents_created (depth : ℕ → ℕ → ℕ) {blocks : List Block}
    (hblocks : blocks ≠ []) {contents : Bytes} (hcontents : contents ≠ []) (s : BlockFuse) :
    ((replaceBlocksForContents depth blocks contents bytesPerBlock branchingFactor).run
      (handler k) s).Meets
      (fun ids s' => ∃ d : DataForest, ∃ created : List Block, ids = d.rootIds ∧
        d.contents = storedContents contents ∧ d.Ordered ∧ d.blocks = created ∧
          created.length ≤ idsForContents depth contents ∧ Created s created s')
      (RunsOut s (idsForContents depth contents)) := by
  have hassert : (!blocks.isEmpty) = true ∧ (!contents.isEmpty) = true := by
    simp [hblocks, hcontents]
  simp only [replaceBlocksForContents, assert, hassert.1, hassert.2, if_true, Program.run_bind,
    Program.run_pure, Outcome.bind_returned]
  have hleaves : (leafData contents bytesPerBlock).length =
      ceilDiv contents.length bytesPerBlock := by
    rw [leafData, List.length_map, List.length_range]
  refine (createAll_created s _).bind (fun e s' h => h.mono ?_) ?_
  · rw [List.length_map, hleaves, idsForContents, Nat.succ_mul]
    omega
  rintro bs s' ⟨rfl, hcreated⟩
  obtain ⟨d, hroots, hall, hflat, hordered⟩ :=
    exists_leaves (s.idsUsed + 1) (leafData contents bytesPerBlock)
  have hlength : d.rootBlocks.length = ceilDiv contents.length bytesPerBlock := by
    rw [hroots, length_numbered, List.length_map, hleaves]
  rw [← hroots] at hcreated ⊢
  have hids : ∀ id ∈ d.rootIds, id.toNat ≤ s'.idsUsed := by
    intro id hid
    rw [← d.map_id_rootBlocks] at hid
    obtain ⟨b, hb, rfl⟩ := List.mem_map.mp hid
    exact (hcreated.has hb).le_idsUsed
  refine (addLinkLayers_created (by decide) _ s' d hordered hids).bind (fun _ _ h => ?_) ?_
  · refine (RunsOut.after hcreated h).mono ?_
    rw [hlength, idsForContents, Nat.succ_mul]
    omega
  · rintro bs s'' ⟨e, created, rfl, heblocks, heleaves, -, -, heordered, hmade, hcreated'⟩
    refine ⟨e, d.rootBlocks ++ created, e.map_id_rootBlocks, ?_, heordered, ?_, ?_,
      hcreated.trans hcreated'⟩
    · rw [← flatMap_leaves, heleaves, flatMap_leaves, hflat, storedContents]
    · rw [heblocks, hall, Multiset.coe_add, Multiset.coe_eq_coe]
      exact List.perm_append_comm
    · rw [List.length_append, hlength, idsForContents, Nat.succ_mul]
      rw [hlength] at hmade
      omega

/-- **Writing contents.** The ids to add are the roots of new data that reads as
`storedContents contents`, for any number of layers. -/
theorem Stores.replaceBlocksForContents_meets (hs : Stores s stored) (depth : ℕ → ℕ → ℕ)
    {blocks : List Block} (hblocks : blocks ≠ []) {contents : Bytes} (hcontents : contents ≠ []) :
    ((replaceBlocksForContents depth blocks contents bytesPerBlock branchingFactor).run
      (handler k) s).Meets
      (fun ids s' => ∃ d : DataForest, ids = d.rootIds ∧ d.contents = storedContents contents ∧
        d.Ordered ∧ d.blocks.card ≤ idsForContents depth contents ∧ Grown s stored d.blocks s')
      (OutOfIds s stored (idsForContents depth contents)) := by
  refine (replaceBlocksForContents_created depth hblocks hcontents s).imp ?_ fun _ _ h =>
    h.outOfIds hs
  rintro ids s' ⟨d, created, rfl, hflat, hordered, hall, hmade, hcreated⟩
  refine ⟨d, rfl, hflat, hordered, ?_, ?_⟩
  · rwa [hall, Multiset.coe_card]
  · rw [hall]
    exact hcreated.grown hs

/-- The first leaf holds everything. -/
theorem storedContents_eq (contents : Bytes) : storedContents contents =
    if contents.length ≤ bytesPerBlock then contents
    else contents ++ ((List.range (ceilDiv contents.length bytesPerBlock - 1)).map fun i =>
      contents.drop ((i + 1) * bytesPerBlock)).flatten := by
  have htake : ∀ i, (contents.drop (i * bytesPerBlock)).take
      (max ((i + 1) * bytesPerBlock) contents.length) = contents.drop (i * bytesPerBlock) := by
    intro i
    rw [List.take_of_length_le]
    rw [List.length_drop]
    omega
  simp only [storedContents, leafData, htake]
  have hpos : (0 : ℕ) < bytesPerBlock := by decide
  split
  case isTrue hle =>
    cases contents with
    | nil => rfl
    | cons c cs =>
      have hone : ceilDiv (c :: cs).length bytesPerBlock = 1 := by
        unfold ceilDiv bytesPerBlock at *
        simp only [List.length_cons] at hle ⊢
        split <;> omega
      rw [hone]
      simp
  case isFalse hgt =>
    obtain ⟨n, hn⟩ : ∃ n, ceilDiv contents.length bytesPerBlock = n + 1 := by
      have hle := le_ceilDiv_mul contents.length hpos
      cases hceil : ceilDiv contents.length bytesPerBlock with
      | zero => rw [hceil] at hle; omega
      | succ n => exact ⟨n, rfl⟩
    rw [hn, List.range_succ_eq_map]
    simp [Function.comp_def]

/-- **What is stored is what was written**, exactly when it fits into one block. -/
theorem storedContents_eq_self_iff (contents : Bytes) :
    storedContents contents = contents ↔ contents.length ≤ bytesPerBlock := by
  rw [storedContents_eq]
  constructor
  · intro h
    by_contra hgt
    rw [if_neg hgt] at h
    have hnil : ((List.range (ceilDiv contents.length bytesPerBlock - 1)).map fun i =>
        contents.drop ((i + 1) * bytesPerBlock)).flatten = [] :=
      List.append_right_eq_self.mp h
    -- the second leaf is not empty
    have hsecond : contents.drop ((0 + 1) * bytesPerBlock) = [] := by
      refine List.flatten_eq_nil_iff.mp hnil _ (List.mem_map.mpr ⟨0, List.mem_range.mpr ?_, rfl⟩)
      have hle := le_ceilDiv_mul contents.length (d := bytesPerBlock) (by decide)
      by_contra hlt
      have hone : ceilDiv contents.length bytesPerBlock ≤ 1 := by omega
      have := Nat.mul_le_mul_right bytesPerBlock hone
      omega
    rw [List.drop_eq_nil_iff] at hsecond
    omega
  · intro hle
    rw [if_pos hle]

end BlockFuse

end Pingfs
