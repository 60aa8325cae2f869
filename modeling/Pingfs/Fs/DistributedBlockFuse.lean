import Pingfs.Fs.FsUtil

/-!
# Root agreement in the distributed file system

Each node of the distributed file system hears the blocks of the others. `process` is meant to
adopt a root block with a greater id than the node's own; the test for root blocks stands
in its way.

Source: `distributed_block_fuse.cc`.

## Main results

* `DistributedBlockFuse.isRootBlock_eq` — the test answers `false` on every inode and follows a
  null pointer on everything else
* `DistributedBlockFuse.agreement_iff` — nodes agree on the greatest root exactly when no link
  or contents block and no greater root is ever heard
-/

namespace Pingfs

/-- `class DistributedBlockFuse`: the fields `process` touches. -/
structure DistributedBlockFuse where
  rootBlock : Block
  updatingIdSupplier : UpdatingIdSupplier
  deriving DecidableEq

namespace DistributedBlockFuse

/-- `is_root_block`. -/
def isRootBlock (block : Block) : Except Halt Bool := do
  let resolvedData := block.tryCastDirFile
  if resolvedData.isSome then
    return false
  let data ← deref resolvedData
  if !data.isDir then
    return false
  return data.name == FsUtil.separator

/-- `DistributedBlockFuse::set_root_block_no_update`. -/
def setRootBlockNoUpdate (node : DistributedBlockFuse) (newRoot : Block) : DistributedBlockFuse :=
  { node with rootBlock := newRoot }

/-- `DistributedBlockFuse::process`. -/
def process (node : DistributedBlockFuse) (block : Block) : Except Halt DistributedBlockFuse := do
  let node :=
    { node with updatingIdSupplier := node.updatingIdSupplier.updateIfLessThan block.id }
  if !(← isRootBlock block) then
    return node
  if node.rootBlock.id ≥ block.id then
    return node
  return node.setRootBlockNoUpdate block

/-- A node hears a sequence of blocks. -/
def processAll (node : DistributedBlockFuse) (blocks : List Block) :
    Except Halt DistributedBlockFuse :=
  blocks.foldlM process node

/-! ## What is wanted -/

/-- A root block: a directory inode named `/`. -/
def RootBlock (block : Block) : Prop :=
  ∃ data, block.data = .dirFile data ∧ data.isDir = true ∧ data.name = FsUtil.separator

/-- `root` is a block with the greatest id among `r` and the root blocks of `blocks`. -/
def GreatestRoot (r : Block) (blocks : List Block) (root : Block) : Prop :=
  (root = r ∨ root ∈ blocks ∧ RootBlock root) ∧
    r.id ≤ root.id ∧ ∀ b ∈ blocks, RootBlock b → b.id ≤ root.id

/-- Nothing fails, the root is the greatest heard of, and any other node with the same root that
hears the same set of blocks ends with the same root. -/
def Agreement (node : DistributedBlockFuse) (blocks : List Block) : Prop :=
  ∃ after, processAll node blocks = .ok after ∧ GreatestRoot node.rootBlock blocks after.rootBlock ∧
    ∀ (other : DistributedBlockFuse) (others : List Block), other.rootBlock = node.rootBlock →
      (∀ b, b ∈ others ↔ b ∈ blocks) →
      ∃ after', processAll other others = .ok after' ∧ after'.rootBlock = after.rootBlock

/-! ## What happens -/

/-- The test is the wrong way round: it stops at every inode, and goes on with the null pointer
of every other block. -/
theorem isRootBlock_eq (block : Block) : isRootBlock block =
    if block.tryCastDirFile.isSome then .ok false else .error .nullDereference := by
  cases h : block.tryCastDirFile with
  | none => simp [isRootBlock, h, deref]; rfl
  | some data => simp [isRootBlock, h]; rfl

theorem process_inode (node : DistributedBlockFuse) {block : Block}
    (h : block.tryCastDirFile.isSome) : process node block =
      .ok { node with
        updatingIdSupplier := node.updatingIdSupplier.updateIfLessThan block.id } := by
  simp [process, isRootBlock_eq, h]
  rfl

theorem process_other (node : DistributedBlockFuse) {block : Block}
    (h : ¬ block.tryCastDirFile.isSome) : process node block = .error .nullDereference := by
  simp [process, isRootBlock_eq, h]
  rfl

/-- A sequence of inodes is heard without failure and without a change of root. -/
theorem processAll_inodes {blocks : List Block} (h : ∀ b ∈ blocks, b.tryCastDirFile.isSome)
    (node : DistributedBlockFuse) :
    ∃ after, processAll node blocks = .ok after ∧ after.rootBlock = node.rootBlock := by
  induction blocks generalizing node with
  | nil => exact ⟨node, rfl, rfl⟩
  | cons b bs ih =>
    obtain ⟨after, hafter, hroot⟩ := ih (fun c hc => h c (List.mem_cons_of_mem _ hc))
      { node with updatingIdSupplier := node.updatingIdSupplier.updateIfLessThan b.id }
    refine ⟨after, ?_, hroot⟩
    rw [processAll, List.foldlM_cons, process_inode node (h b (List.mem_cons_self ..))]
    exact hafter

/-- What is heard without failure is a sequence of inodes. -/
theorem inodes_of_processAll {blocks : List Block} {node after : DistributedBlockFuse}
    (h : processAll node blocks = .ok after) : ∀ b ∈ blocks, b.tryCastDirFile.isSome := by
  induction blocks generalizing node with
  | nil => simp
  | cons b bs ih =>
    rw [processAll, List.foldlM_cons] at h
    by_cases hb : b.tryCastDirFile.isSome
    · rw [process_inode node hb] at h
      rintro c (_ | ⟨_, hc⟩)
      · exact hb
      · exact ih h c hc
    · rw [process_other node hb] at h
      exact nomatch h

/-- **When nodes agree.** For every node and every sequence of blocks: exactly when every block
heard is an inode and no root block heard has a greater id than the node's root. -/
theorem agreement_iff (node : DistributedBlockFuse) (blocks : List Block) :
    Agreement node blocks ↔
      (∀ b ∈ blocks, b.tryCastDirFile.isSome) ∧
        ∀ b ∈ blocks, RootBlock b → b.id ≤ node.rootBlock.id := by
  constructor
  · rintro ⟨after, hafter, ⟨_, _, hgreatest⟩, _⟩
    have hinodes := inodes_of_processAll hafter
    obtain ⟨after', hafter', hroot⟩ := processAll_inodes hinodes node
    obtain rfl : after' = after := by simpa [hafter'] using hafter
    exact ⟨hinodes, fun b hb hr => hroot ▸ hgreatest b hb hr⟩
  · rintro ⟨hinodes, hle⟩
    obtain ⟨after, hafter, hroot⟩ := processAll_inodes hinodes node
    refine ⟨after, hafter, ⟨Or.inl hroot, ?_, ?_⟩, ?_⟩
    · rw [hroot]; exact UInt64.le_refl _
    · rw [hroot]; exact hle
    · intro other others hother hsame
      obtain ⟨after', hafter', hroot'⟩ :=
        processAll_inodes (fun b hb => hinodes b ((hsame b).mp hb)) other
      exact ⟨after', hafter', by rw [hroot', hother, hroot]⟩

/-- A directory inode named `/`. -/
def rootInode (id : BlockId) : Block :=
  ⟨id, .dirFile ⟨FsUtil.separator, ⟨⟨.readWriteExecute, .readExecute, .execute, .dir⟩,
    0, 0, 0, 0, 0, 0⟩, []⟩⟩

/-- A node with root `0x101` that hears the root `0x202` of another node keeps its own. -/
theorem not_agreement_of_greater_root :
    ¬ ∀ (node : DistributedBlockFuse) (blocks : List Block), Agreement node blocks := by
  intro h
  obtain ⟨after, hafter, ⟨_, _, hgreatest⟩, _⟩ := h ⟨rootInode 0x101, .new 1⟩ [rootInode 0x202]
  obtain ⟨after', hafter', hroot⟩ :=
    processAll_inodes (show ∀ b ∈ [rootInode 0x202], b.tryCastDirFile.isSome by decide)
      ⟨rootInode 0x101, .new 1⟩
  obtain rfl : after' = after := by simpa [hafter'] using hafter
  have hle := hgreatest (rootInode 0x202) (List.mem_singleton.mpr rfl) ⟨_, rfl, rfl, rfl⟩
  rw [hroot] at hle
  exact absurd hle (by decide)

end DistributedBlockFuse

end Pingfs
