import Pingfs.Fs.Runs

/-!
# Leaves and layers of links

`replace_blocks_for_contents` cuts the contents of a file into leaves and links to them in layers.
A leaf was to have `bytes_per_block` bytes at most, but each is cut up to the end of the contents.
The layers are as they should be: whatever their number, the leaves are found below them, in order.

Source: `replace_blocks_for_contents`, `add_link_layer` and `get_file_contents` of
`block_util.cc`.

## Main results

* `leaves_respect_iff` — contents whose leaves have the size they should have
* `linkLayers_keep_leaves` — what is read below the layers
-/

namespace Pingfs

namespace BlockFuse

open FsM BlockUtil

variable {size depth : ℕ} {contents : Bytes}

/-! ## The calls -/

theorem mul_lt_of_lt_ceilDiv {n i : ℕ} (hsize : 0 < size) (hi : i < ceilDiv n size) :
    i * size < n := by
  have hdiv := Nat.div_add_mod n size
  rw [Nat.mul_comm] at hdiv
  unfold ceilDiv at hi
  split at hi
  case isTrue hzero =>
    have hmul := Nat.mul_le_mul_right size (Nat.succ_le_of_lt hi)
    rw [Nat.succ_mul] at hmul
    omega
  case isFalse hrest =>
    have hmul := Nat.mul_le_mul_right size (Nat.le_of_lt_succ hi)
    omega

/-- A link to a run of blocks. -/
def IsLinkOf (size : ℕ) (call : FsCall) : Prop :=
  ∃ children : List BlockId, call = .createBlock (.link ⟨children⟩) ∧ 1 ≤ children.length ∧
    children.length ≤ size

/-- **The links** have no more children than they may, and one at least. -/
theorem only_addLinkLayers (hsize : 0 < size) (depth : ℕ) (blocks : List Block) :
    (addLinkLayers size depth blocks).Only (IsLinkOf size) := by
  induction depth generalizing blocks with
  | zero => trivial
  | succ depth ih =>
    refine Program.only_bind (only_createAll ?_) fun links => ih links
    intro data hdata
    obtain ⟨i, hi, rfl⟩ := List.mem_map.mp hdata
    have hlt := mul_lt_of_lt_ceilDiv hsize (List.mem_range.mp hi)
    refine ⟨_, rfl, ?_, ?_⟩
    · rw [chunk, List.length_map, List.length_take, List.length_drop]
      omega
    · rw [chunk, List.length_map, List.length_take]
      exact min_le_left ..

/-! ## The leaves -/

/-- The leaves that are handed to `create_block`. -/
def leavesHanded : FsCall → BlockFuse → List Bytes
  | .createBlock (.fileContents contents), _ => [contents.data]
  | _, _ => []

/-- The leaves are cut from the contents every `size` bytes. -/
structure RespectBlockSize (contents : Bytes) (size : ℕ) (leaves : List Bytes) : Prop where
  bounds : ∀ leaf ∈ leaves, 1 ≤ leaf.length ∧ leaf.length ≤ size
  start : ∀ i leaf, leaves[i]? = some leaf → leaf <+: contents.drop (i * size)
  total : (leaves.map List.length).sum = contents.length

/-- Leaves are handed over in order, up to the one for which there is no id. -/
theorem trace_createAll_leaves (leaves : List Bytes) (s : BlockFuse) :
    ∃ n, (leaves ≠ [] → 0 < n) ∧ (createAll (leaves.map fun data => .fileContents ⟨data⟩)).trace
      (handler false) leavesHanded s = leaves.take n := by
  induction leaves generalizing s with
  | nil => exact ⟨0, fun h => absurd rfl h, rfl⟩
  | cons leaf leaves ih =>
    rw [List.map_cons, createAll]
    change ∃ n, _ ∧ (Program.call (.createBlock (.fileContents ⟨leaf⟩)) fun b : Block =>
      createAll (leaves.map fun data => .fileContents ⟨data⟩) >>= fun bs =>
        (pure (b :: bs) : FsM (List Block))).trace (handler false) leavesHanded s = _
    rw [Program.trace, leavesHanded]
    cases handler false (.createBlock (.fileContents ⟨leaf⟩)) s with
    | returned b s' =>
      obtain ⟨n, -, hn⟩ := ih s'
      refine ⟨n + 1, fun _ => Nat.succ_pos n, ?_⟩
      rw [List.take_succ_cons, ← hn]
      exact congrArg (leaf :: ·) (Program.trace_bind_of_nil (fun _ _ => rfl) s')
    | halted e s' =>
      refine ⟨1, fun _ => Nat.one_pos, ?_⟩
      rw [List.take_succ_cons, List.take_zero]
      rfl

/-- So they are for the whole contents. -/
theorem trace_replaceBlocksForContents (depth : ℕ → ℕ → ℕ) {blocks : List Block}
    (hblocks : blocks ≠ []) (hcontents : contents ≠ []) {branchingFactor : ℕ}
    (hbranching : 2 ≤ branchingFactor) (s : BlockFuse) :
    ∃ n, (leafData contents size ≠ [] → 0 < n) ∧
      (replaceBlocksForContents depth blocks contents size branchingFactor).trace (handler false)
        leavesHanded s = (leafData contents size).take n := by
  obtain ⟨n, hpos, hn⟩ := trace_createAll_leaves (leafData contents size) s
  refine ⟨n, hpos, ?_⟩
  have hassert : (!blocks.isEmpty) = true ∧ (!contents.isEmpty) = true := by
    simp [hblocks, hcontents]
  rw [replaceBlocksForContents]
  simp only [assert, hassert.1, hassert.2, if_true]
  rw [← hn]
  change (createAll _ >>= _).trace (handler false) leavesHanded s = _
  refine Program.trace_bind_of_nil (fun leaves s' => ?_) s
  rw [Program.trace_bind_of_nil fun _ _ => rfl]
  refine (only_addLinkLayers (Nat.lt_of_succ_lt hbranching) _ leaves).trace_eq_nil ?_ s'
  rintro call s'' ⟨children, rfl, -, -⟩
  rfl

/-- Every leaf is cut to the end. -/
theorem leafData_eq (contents : Bytes) (size : ℕ) : leafData contents size =
    (List.range (ceilDiv contents.length size)).map fun i => contents.drop (i * size) := by
  refine List.map_congr_left fun i _ => List.take_of_length_le ?_
  rw [List.length_drop]
  omega

/-- The first leaf is everything. -/
theorem exists_leafData (hcontents : contents ≠ []) (hsize : 1 ≤ size) :
    ∃ rest, leafData contents size = contents :: rest ∧ (contents.length ≤ size → rest = []) := by
  have hpos := List.length_pos_iff.mpr hcontents
  rw [leafData_eq]
  cases hceil : ceilDiv contents.length size with
  | zero =>
    have hle := le_ceilDiv_mul contents.length hsize
    rw [hceil] at hle
    omega
  | succ n =>
    rw [List.range_succ_eq_map, List.map_cons, Nat.zero_mul, List.drop_zero]
    refine ⟨_, rfl, fun hle => ?_⟩
    have hlast := mul_lt_of_lt_ceilDiv hsize (show n < ceilDiv contents.length size by omega)
    obtain rfl : n = 0 := by
      by_contra hn
      have hmul := Nat.mul_le_mul_right size (Nat.one_le_iff_ne_zero.mpr hn)
      omega
    rfl

/-- **The leaves that are created** have the size and the place they should have if and only if the
contents fit into one block. -/
theorem leaves_respect_iff (depth : ℕ → ℕ → ℕ) {blocks : List Block} (hblocks : blocks ≠ [])
    {contents : Bytes} (hcontents : contents ≠ []) {bytesPerBlock branchingFactor : ℕ}
    (hbytes : 1 ≤ bytesPerBlock) (hbranching : 2 ≤ branchingFactor) (s : BlockFuse) :
    RespectBlockSize contents bytesPerBlock
      ((replaceBlocksForContents depth blocks contents bytesPerBlock branchingFactor).trace
        (handler false) leavesHanded s) ↔ contents.length ≤ bytesPerBlock := by
  obtain ⟨n, hpos, hn⟩ :=
    trace_replaceBlocksForContents depth hblocks hcontents hbranching s
  obtain ⟨rest, hrest, hone⟩ := exists_leafData hcontents hbytes
  obtain ⟨n, rfl⟩ : ∃ m, n = m + 1 := by
    have hlt := hpos (by rw [hrest]; exact List.cons_ne_nil _ _)
    exact ⟨n - 1, by omega⟩
  rw [hn, hrest, List.take_succ_cons]
  constructor
  · intro h
    exact (h.bounds contents List.mem_cons_self).2
  · intro hle
    rw [hone hle, List.take_nil]
    refine ⟨fun leaf hleaf => ?_, fun i leaf hleaf => ?_, ?_⟩
    · obtain rfl := List.mem_singleton.mp hleaf
      exact ⟨List.length_pos_iff.mpr hcontents, hle⟩
    · cases i with
      | zero =>
        obtain rfl := Option.some.inj hleaf
        rw [Nat.zero_mul, List.drop_zero]
      | succ i => cases hleaf
    · rw [List.map_singleton, List.sum_singleton]

/-- A file of three bytes in blocks of four. -/
theorem leaves_respect_of_short :
    RespectBlockSize [1, 2, 3] 4
      ((replaceBlocksForContents (fun _ _ => 0) [(new plainEnv 0).rootBlock] [1, 2, 3] 4 2).trace
        (handler false) leavesHanded (new plainEnv 0)) ↔ [1, 2, 3].length ≤ 4 :=
  leaves_respect_iff (fun _ _ => 0) (by decide) (by decide) (by decide) (by decide) _

/-- **A leaf of three bytes** where two are allowed. -/
theorem leaf_too_long : ¬ RespectBlockSize [1, 2, 3] 2
    ((replaceBlocksForContents (fun _ _ => 1) [(new plainEnv 0).rootBlock] [1, 2, 3] 2 2).trace
      (handler false) leavesHanded (new plainEnv 0)) := by
  intro h
  exact absurd (h.bounds [1, 2, 3] (by decide +kernel)).2 (by decide)

/-! ## The layers -/

/-- Enough layers end in one block. -/
theorem iterate_ceilDiv (hsize : 0 < size) {n : ℕ} (hpos : 0 < n) (hle : n ≤ size ^ depth) :
    (ceilDiv · size)^[depth] n = 1 := by
  induction depth generalizing n with
  | zero =>
    rw [pow_zero] at hle
    exact Nat.le_antisymm hle hpos
  | succ depth ih =>
    rw [Function.iterate_succ_apply]
    have hmul := le_ceilDiv_mul n hsize
    refine ih ?_ ?_
    · by_contra hzero
      rw [Nat.eq_zero_of_not_pos hzero, Nat.zero_mul] at hmul
      omega
    · by_contra hlt
      have hlast := mul_lt_of_lt_ceilDiv hsize (Nat.not_le.mp hlt)
      rw [← pow_succ] at hlast
      omega

/-- Leaves that are there, as data without links. -/
theorem exists_leafForest {leaves : List Block}
    (hleaf : ∀ b ∈ leaves, ∃ contents, b.data = .fileContents contents) :
    ∃ d : DataForest, d.rootBlocks = leaves ∧ d.blocks = leaves ∧
      BlockFuse.leaves d = leaves.filterMap (·.tryCastContents) ∧ d.height ≤ 1 ∧ d.Ordered := by
  induction leaves with
  | nil => exact ⟨.nil, rfl, rfl, rfl, Nat.zero_le _, trivial⟩
  | cons b bs ih =>
    obtain ⟨d, hroots, hblocks, hleaves, hheight, hordered⟩ := ih fun c hc =>
      hleaf c (List.mem_cons_of_mem _ hc)
    obtain ⟨⟨data⟩, hdata⟩ := hleaf b List.mem_cons_self
    obtain ⟨id, _⟩ := b
    subst hdata
    refine ⟨.leaf id data d, ?_, ?_, ?_, ?_, hordered⟩
    · rw [DataForest.rootBlocks, hroots]
    · rw [DataForest.blocks, hblocks]
      rfl
    · rw [BlockFuse.leaves, hleaves]
      rfl
    · rw [DataForest.height]
      omega

/-- **The layers keep the leaves.** However many there are, what is read below the top one are the
leaves, each once and in order. Every link has a child at least and no more than it may have, and
enough layers end in one block. -/
theorem linkLayers_keep_leaves (s : BlockFuse) {leaves : List Block} (hne : leaves ≠ [])
    (hleaf : ∀ b ∈ leaves, ∃ contents, b.data = .fileContents contents)
    (hhas : ∀ b ∈ leaves, Has s b) {branchingFactor : ℕ} (hbranching : 2 ≤ branchingFactor)
    (depth : ℕ) :
    ((addLinkLayers branchingFactor depth leaves).run (handler false) s).Meets
      (fun top s' =>
        (∀ fuel > depth + 1, (getFileContents fuel (top.map (·.id))).run (handler false) s' =
          .returned (leaves.filterMap (·.tryCastContents)) s') ∧
        (leaves.length ≤ branchingFactor ^ depth → top.length = 1))
      (RunsOut s (depth * leaves.length)) ∧
    (addLinkLayers branchingFactor depth leaves).Only (IsLinkOf branchingFactor) := by
  have hpos : 0 < branchingFactor := Nat.lt_of_succ_lt hbranching
  refine ⟨?_, only_addLinkLayers hpos depth leaves⟩
  obtain ⟨d, hroots, hblocks, hleaves, hheight, hordered⟩ := exists_leafForest hleaf
  have hids : ∀ id ∈ d.rootIds, id.toNat ≤ s.idsUsed := by
    intro id hid
    rw [← d.map_id_rootBlocks, hroots] at hid
    obtain ⟨b, hb, rfl⟩ := List.mem_map.mp hid
    exact (hhas b hb).le_idsUsed
  have hmeets := addLinkLayers_created (k := false) hpos depth s d hordered hids
  rw [hroots] at hmeets
  refine hmeets.imp ?_ fun _ _ h => h
  rintro top s' ⟨e, created, rfl, heblocks, heleaves, heheight, helength, -, -, hcreated⟩
  refine ⟨fun fuel hfuel => ?_, fun hle => ?_⟩
  · have hthere : ∀ b ∈ e.blocks, Has s' b := by
      intro b hb
      rw [heblocks, hblocks] at hb
      rcases Multiset.mem_add.mp hb with hb | hb
      · exact hcreated.has (Multiset.mem_coe.mp hb)
      · exact hcreated.has_of_has (hhas b (Multiset.mem_coe.mp hb))
    obtain ⟨fuel, rfl⟩ : ∃ n, fuel = n + 1 := ⟨fuel - 1, by omega⟩
    have hresponse := run_getBlocks_of_has (k := false) e.rootBlocks fun b hb =>
      hthere b (DataForest.mem_blocks_of_rootBlocks hb)
    have hgather := run_gatherContents (k := false) hthere (show e.height ≤ fuel by omega) []
    rw [List.append_nil] at hgather
    rw [getFileContents, Program.run_bind, hresponse, Outcome.bind_returned, hgather, heleaves,
      hleaves]
    simp [gatherContents]
  · rw [helength]
    exact iterate_ceilDiv hpos (List.length_pos_iff.mpr hne) hle

/-- Three leaves. -/
def threeLeaves : List Block :=
  [⟨2, .fileContents ⟨[1]⟩⟩, ⟨3, .fileContents ⟨[2]⟩⟩, ⟨4, .fileContents ⟨[3]⟩⟩]

/-- The state in which they have been created. -/
def withThreeLeaves : BlockFuse :=
  ((createAll (threeLeaves.map (·.data))).run (handler false) (new plainEnv 0)).state

/-- Two layers of pairs. -/
theorem linkLayers_keep_three :
    ((addLinkLayers 2 2 threeLeaves).run (handler false) withThreeLeaves).Meets
      (fun top s' =>
        (∀ fuel > 3, (getFileContents fuel (top.map (·.id))).run (handler false) s' =
          .returned [⟨[1]⟩, ⟨[2]⟩, ⟨[3]⟩] s') ∧ (3 ≤ 4 → top.length = 1))
      (RunsOut withThreeLeaves (2 * 3)) ∧
    (addLinkLayers 2 2 threeLeaves).Only (IsLinkOf 2) := by
  have hleaf : ∀ b ∈ threeLeaves, ∃ contents, b.data = .fileContents contents := by
    simp [threeLeaves]
  have hhas : ∀ b ∈ threeLeaves, Has withThreeLeaves b := by
    intro b hb
    simp only [threeLeaves, List.mem_cons, List.not_mem_nil, or_false] at hb
    rcases hb with rfl | rfl | rfl <;> exact ⟨rfl, by decide⟩
  exact linkLayers_keep_leaves withThreeLeaves (by decide) hleaf hhas le_rfl 2

end BlockFuse

end Pingfs
