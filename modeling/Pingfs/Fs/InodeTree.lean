import Pingfs.Block.BlockData
import Pingfs.Lib.Forest
import Mathlib.Data.Multiset.Bind
import Mathlib.Data.Multiset.UnionInter

/-!
# Trees of blocks

What the blocks of a file system are when nothing is wrong, as data that cannot be ill-formed.
An inode (`Node`) has a forest of data blocks, links and leaves, and a forest of inodes; its
block lists the roots of the one and then those of the other as its children. `blocks` spells
out all blocks of a tree.

## Main results

* `references_tree` — the ids listed as children are those of all blocks but the root, each as
  often as it is a block's id
* `tree_plug`, `tree_graft` — the blocks of a whole tree are those of the path, those of the
  subtree at its end, and those beside the path; a rebuilt path has new blocks for the path only
-/

namespace Pingfs

/-- The ids that a collection of blocks lists as children. -/
def references (blocks : Multiset Block) : Multiset BlockId := blocks.bind fun b => ↑b.children

@[simp] theorem references_zero : references 0 = 0 := rfl

@[simp] theorem references_cons (b : Block) (blocks : Multiset Block) :
    references (b ::ₘ blocks) = b.children + references blocks := Multiset.cons_bind ..

@[simp] theorem references_add (blocks blocks' : Multiset Block) :
    references (blocks + blocks') = references blocks + references blocks' := Multiset.add_bind ..

/-! ## Data below an inode -/

/-- Leaves with contents, and links to further ones. -/
inductive DataForest where
  | nil
  | leaf (id : BlockId) (data : Bytes) (rest : DataForest)
  | link (id : BlockId) (kids rest : DataForest)
  deriving DecidableEq, Repr

namespace DataForest

def append : DataForest → DataForest → DataForest
  | nil, e => e
  | leaf id data rest, e => leaf id data (rest.append e)
  | link id kids rest, e => link id kids (rest.append e)

instance : Append DataForest := ⟨append⟩

def rootIds : DataForest → List BlockId
  | nil => []
  | leaf id _ rest => id :: rest.rootIds
  | link id _ rest => id :: rest.rootIds

/-- The blocks of the roots. -/
def rootBlocks : DataForest → List Block
  | nil => []
  | leaf id data rest => ⟨id, .fileContents ⟨data⟩⟩ :: rest.rootBlocks
  | link id kids rest => ⟨id, .link ⟨kids.rootIds⟩⟩ :: rest.rootBlocks

/-- What the links among the roots link to. -/
def linked : DataForest → DataForest
  | nil => nil
  | leaf _ _ rest => rest.linked
  | link _ kids rest => kids ++ rest.linked

/-- All blocks. -/
def blocks : DataForest → Multiset Block
  | nil => 0
  | leaf id data rest => ⟨id, .fileContents ⟨data⟩⟩ ::ₘ rest.blocks
  | link id kids rest => ⟨id, .link ⟨kids.rootIds⟩⟩ ::ₘ (kids.blocks + rest.blocks)

/-- The bytes of the leaves, from left to right. -/
def contents : DataForest → Bytes
  | nil => []
  | leaf _ data rest => data ++ rest.contents
  | link _ kids rest => kids.contents ++ rest.contents

/-- The number of levels. -/
def height : DataForest → ℕ
  | nil => 0
  | leaf _ _ rest => max 1 rest.height
  | link _ kids rest => max (kids.height + 1) rest.height

/-- Each link has a greater id than its children. -/
def Ordered : DataForest → Prop
  | nil => True
  | leaf _ _ rest => rest.Ordered
  | link id kids rest => (∀ child ∈ kids.rootIds, child < id) ∧ kids.Ordered ∧ rest.Ordered

@[simp] theorem nil_append (e : DataForest) : nil ++ e = e := rfl

@[simp] theorem leaf_append (id : BlockId) (data : Bytes) (rest e : DataForest) :
    leaf id data rest ++ e = leaf id data (rest ++ e) := rfl

@[simp] theorem link_append (id : BlockId) (kids rest e : DataForest) :
    link id kids rest ++ e = link id kids (rest ++ e) := rfl

@[simp] theorem rootIds_append (d e : DataForest) : (d ++ e).rootIds = d.rootIds ++ e.rootIds := by
  induction d with
  | nil => rfl
  | leaf id data rest ih => simp [rootIds, ih]
  | link id kids rest _ ih => simp [rootIds, ih]

@[simp] theorem rootBlocks_append (d e : DataForest) :
    (d ++ e).rootBlocks = d.rootBlocks ++ e.rootBlocks := by
  induction d with
  | nil => rfl
  | leaf id data rest ih => simp [rootBlocks, ih]
  | link id kids rest _ ih => simp [rootBlocks, ih]

@[simp] theorem blocks_append (d e : DataForest) : (d ++ e).blocks = d.blocks + e.blocks := by
  induction d with
  | nil => simp [blocks]
  | leaf id data rest ih => simp [blocks, ih]
  | link id kids rest _ ih => simp [blocks, ih, add_assoc]

@[simp] theorem contents_append (d e : DataForest) :
    (d ++ e).contents = d.contents ++ e.contents := by
  induction d with
  | nil => rfl
  | leaf id data rest ih => simp [contents, ih]
  | link id kids rest _ ih => simp [contents, ih]

@[simp] theorem height_append (d e : DataForest) : (d ++ e).height = max d.height e.height := by
  induction d with
  | nil => simp [height]
  | leaf id data rest ih => simp [height, ih]
  | link id kids rest _ ih => simp [height, ih, Nat.max_assoc]

@[simp] theorem map_id_rootBlocks (d : DataForest) : d.rootBlocks.map (·.id) = d.rootIds := by
  induction d with
  | nil => rfl
  | leaf id data rest ih => simp [rootBlocks, rootIds, ih]
  | link id kids rest _ ih => simp [rootBlocks, rootIds, ih]

/-- The roots, and what is below them. -/
theorem blocks_eq (d : DataForest) : d.blocks = d.rootBlocks + d.linked.blocks := by
  induction d with
  | nil => rfl
  | leaf id data rest ih =>
    simp only [blocks, rootBlocks, linked, ih, ← Multiset.cons_coe, Multiset.cons_add]
  | link id kids rest _ ih =>
    simp only [blocks, rootBlocks, linked, ih, blocks_append, ← Multiset.cons_coe,
      Multiset.cons_add]
    congr 1
    ac_rfl

theorem references_blocks (d : DataForest) :
    references d.blocks + d.rootIds = d.blocks.map (·.id) := by
  induction d with
  | nil => rfl
  | leaf id data rest ih =>
    simp only [blocks, rootIds, references_cons, Block.children, Block.getChildren,
      Block.tryCastLink, Block.tryCastDirFile, Option.getD_none, Multiset.map_cons,
      ← Multiset.cons_coe, Multiset.coe_nil, zero_add, Multiset.add_cons, ih]
  | link id kids rest ihk ih =>
    simp only [blocks, rootIds, references_cons, references_add, Block.children,
      Block.getChildren, Block.tryCastLink, Option.getD_some, Multiset.map_cons,
      Multiset.map_add, ← Multiset.cons_coe, Multiset.add_cons, ← ihk, ← ih]
    congr 1
    ac_rfl

theorem ordered_append {d e : DataForest} : (d ++ e).Ordered ↔ d.Ordered ∧ e.Ordered := by
  induction d with
  | nil => simp [Ordered]
  | leaf id data rest ih => simp [Ordered, ih]
  | link id kids rest _ ih => simp [Ordered, ih, and_assoc]

theorem height_linked (d : DataForest) : d.linked.height = d.height - 1 := by
  induction d with
  | nil => rfl
  | leaf id data rest ih =>
    simp only [linked, height, ih]
    omega
  | link id kids rest _ ih =>
    simp only [linked, height_append, ih, height]
    omega

theorem height_le_card (d : DataForest) : d.height ≤ d.blocks.card := by
  induction d with
  | nil => simp [height]
  | leaf id data rest ih => simp [height, blocks]; omega
  | link id kids rest ihk ih => simp [height, blocks]; omega

theorem height_pos {d : DataForest} (h : d.rootIds.isEmpty = false) : 0 < d.height := by
  cases d with
  | nil => simp [rootIds] at h
  | leaf id data rest => simp [height]
  | link id kids rest => simp [height]

/-- What has contents has roots. -/
theorem exists_rootIds {d : DataForest} (h : d.contents ≠ []) :
    ∃ id ids, d.rootIds = id :: ids := by
  cases d with
  | nil => exact absurd rfl h
  | leaf id data rest => exact ⟨id, _, rfl⟩
  | link id kids rest => exact ⟨id, _, rfl⟩

theorem mem_blocks_of_rootBlocks {d : DataForest} {b : Block} (h : b ∈ d.rootBlocks) :
    b ∈ d.blocks := by
  rw [d.blocks_eq]
  exact Multiset.mem_add.mpr (Or.inl h)

theorem mem_blocks_of_linked {d : DataForest} {b : Block} (h : b ∈ d.linked.blocks) :
    b ∈ d.blocks := by
  rw [d.blocks_eq]
  exact Multiset.mem_add.mpr (Or.inr h)

end DataForest

/-! ## Inodes -/

/-- An inode: its id, name and stat, and the data below it. -/
structure Node where
  id : BlockId
  name : Str
  stat : Stat
  data : DataForest
  deriving DecidableEq, Repr

namespace Node

def rootIds (f : Forest Node) : List BlockId := f.roots.map (·.id)

/-- The block of an inode over the inodes below it. -/
def block (a : Node) (kids : Forest Node) : Block :=
  ⟨a.id, .dirFile ⟨a.name, a.stat, a.data.rootIds ++ rootIds kids⟩⟩

/-- The blocks of the roots. -/
def rootBlocks : Forest Node → List Block
  | .nil => []
  | .cons a kids rest => a.block kids :: rootBlocks rest

/-- All blocks of a forest. -/
def blocks : Forest Node → Multiset Block
  | .nil => 0
  | .cons a kids rest => a.block kids ::ₘ (a.data.blocks + blocks kids + blocks rest)

/-- The blocks below an inode. -/
def below (a : Node) (kids : Forest Node) : Multiset Block := a.data.blocks + blocks kids

/-- All blocks of a tree. -/
def tree (a : Node) (kids : Forest Node) : Multiset Block := a.block kids ::ₘ a.below kids

/-- The number of levels, of data and inodes. -/
def height : Forest Node → ℕ
  | .nil => 0
  | .cons a kids rest => max (max a.data.height (height kids) + 1) (height rest)

@[simp] theorem rootIds_nil : rootIds .nil = [] := rfl

@[simp] theorem rootIds_cons (a : Node) (kids rest : Forest Node) :
    rootIds (.cons a kids rest) = a.id :: rootIds rest := rfl

@[simp] theorem rootIds_append (f g : Forest Node) : rootIds (f ++ g) = rootIds f ++ rootIds g := by
  simp [rootIds]

@[simp] theorem block_id (a : Node) (kids : Forest Node) : (a.block kids).id = a.id := rfl

@[simp] theorem children_block (a : Node) (kids : Forest Node) :
    (a.block kids).children = a.data.rootIds ++ rootIds kids := rfl

@[simp] theorem getChildren_block (a : Node) (kids : Forest Node) :
    (a.block kids).getChildren = some (a.data.rootIds ++ rootIds kids) := rfl

@[simp] theorem tryCastDirFile_block (a : Node) (kids : Forest Node) :
    (a.block kids).tryCastDirFile = some ⟨a.name, a.stat, a.data.rootIds ++ rootIds kids⟩ := rfl

@[simp] theorem tryCastLink_block (a : Node) (kids : Forest Node) :
    (a.block kids).tryCastLink = none := rfl

@[simp] theorem blocks_nil : blocks .nil = 0 := rfl

@[simp] theorem blocks_cons (a : Node) (kids rest : Forest Node) :
    blocks (.cons a kids rest) = a.tree kids + blocks rest := by
  simp [blocks, tree, below]

@[simp] theorem blocks_append (f g : Forest Node) : blocks (f ++ g) = blocks f + blocks g := by
  induction f with
  | nil => simp
  | cons a kids rest _ ih => simp [ih, add_assoc]

@[simp] theorem rootBlocks_append (f g : Forest Node) :
    rootBlocks (f ++ g) = rootBlocks f ++ rootBlocks g := by
  induction f with
  | nil => rfl
  | cons a kids rest _ ih => simp [rootBlocks, ih]

@[simp] theorem map_id_rootBlocks (f : Forest Node) : (rootBlocks f).map (·.id) = rootIds f := by
  induction f with
  | nil => rfl
  | cons a kids rest _ ih => simp [rootBlocks, ih]

/-- A root's block is among the blocks. -/
theorem rootBlocks_le (f : Forest Node) : (rootBlocks f : Multiset Block) ≤ blocks f := by
  induction f with
  | nil => simp [rootBlocks]
  | cons a kids rest _ ih =>
    rw [rootBlocks, blocks, ← Multiset.cons_coe]
    exact Multiset.cons_le_cons _ (ih.trans (Multiset.le_add_left _ _))

/-- The blocks of the children of an inode. -/
def childBlocks (a : Node) (kids : Forest Node) : List Block :=
  a.data.rootBlocks ++ rootBlocks kids

theorem map_id_childBlocks (a : Node) (kids : Forest Node) :
    (a.childBlocks kids).map (·.id) = a.data.rootIds ++ rootIds kids := by
  simp [childBlocks]

theorem mem_below_of_childBlocks {a : Node} {kids : Forest Node} {b : Block}
    (hb : b ∈ a.childBlocks kids) : b ∈ a.below kids := by
  rw [below]
  rcases List.mem_append.mp hb with hb | hb
  · exact Multiset.mem_add.mpr (Or.inl (DataForest.mem_blocks_of_rootBlocks hb))
  · exact Multiset.mem_add.mpr (Or.inr (Multiset.mem_of_le (rootBlocks_le kids) hb))

theorem references_blocks (f : Forest Node) :
    references (blocks f) + rootIds f = (blocks f).map (·.id) := by
  induction f with
  | nil => rfl
  | cons a kids rest ihk ih =>
    simp only [blocks, references_cons, references_add, children_block, rootIds_cons,
      Multiset.map_cons, Multiset.map_add, ← Multiset.cons_coe, Multiset.add_cons, block_id,
      ← a.data.references_blocks, ← ihk, ← ih, ← Multiset.coe_add]
    congr 1
    ac_rfl

/-- **What is listed as a child.** Every id but the root's, as often as a block has it. -/
theorem references_tree (a : Node) (kids : Forest Node) :
    a.id ::ₘ references (a.tree kids) = (a.tree kids).map (·.id) := by
  simp only [tree, below, references_cons, references_add, children_block, Multiset.map_cons,
    Multiset.map_add, block_id, ← a.data.references_blocks, ← references_blocks kids,
    ← Multiset.coe_add]
  congr 1
  ac_rfl

theorem height_le_card (f : Forest Node) : height f ≤ (blocks f).card := by
  induction f with
  | nil => simp [height]
  | cons a kids rest ihk ih =>
    have hdata := a.data.height_le_card
    simp only [height, blocks, Multiset.card_cons, Multiset.card_add]
    omega

end Node

/-! ## Paths -/

open Zipper

/-- The new label of an inode on a rebuilt path: its id becomes `i`. -/
def Node.relabel (i : ℕ) (a : Node) : Node := { a with id := .ofNat i }

/-- The block of a frame over a child with the id `child`. -/
def Frame.block (f : Frame Node) (child : BlockId) : Block :=
  ⟨f.label.id, .dirFile ⟨f.label.name, f.label.stat,
    f.label.data.rootIds ++ (Node.rootIds f.before ++ child :: Node.rootIds f.after)⟩⟩

/-- The blocks on the way up from a child with the id `child`, the parent's first. -/
def chain : List (Frame Node) → BlockId → List Block
  | [], _ => []
  | f :: fs, child => Frame.block f child :: chain fs f.label.id

/-- The same way rebuilt, with new ids counted up from `i`. -/
def rebuilt : List (Frame Node) → BlockId → ℕ → List Block
  | [], _, _ => []
  | f :: fs, child, i =>
    ⟨.ofNat i, .dirFile ⟨f.label.name, f.label.stat, f.label.data.rootIds ++
      (Node.rootIds f.before ++ Node.rootIds f.after ++ [child])⟩⟩ :: rebuilt fs (.ofNat i) (i + 1)

@[simp] theorem length_rebuilt (fs : List (Frame Node)) (child : BlockId) (i : ℕ) :
    (rebuilt fs child i).length = fs.length := by
  induction fs generalizing child i with
  | nil => rfl
  | cons f fs ih => rw [rebuilt, List.length_cons, ih, List.length_cons]

/-- The blocks beside the way up. -/
def beside : List (Frame Node) → Multiset Block
  | [] => 0
  | f :: fs => f.label.data.blocks + Node.blocks f.before + Node.blocks f.after + beside fs

/-- All blocks of the whole tree. -/
theorem tree_plug (fs : List (Frame Node)) (a : Node) (kids : Forest Node) :
    (plug fs a kids).1.tree (plug fs a kids).2 = a.tree kids + (chain fs a.id + beside fs) := by
  induction fs generalizing a kids with
  | nil => simp [plug, chain, beside]
  | cons f fs ih =>
    have hblock : f.label.block (f.before ++ .cons a kids f.after) = Frame.block f a.id := by
      simp [Node.block, Frame.block]
    rw [plug, ih, Node.tree, hblock]
    simp only [Node.below, Node.blocks_append, Node.blocks_cons, chain, beside,
      ← Multiset.cons_coe, ← Multiset.singleton_add]
    ac_rfl

/-- All blocks of the tree with the path rebuilt. -/
theorem tree_graft (fs : List (Frame Node)) (a : Node) (kids : Forest Node) (i : ℕ) :
    (graft Node.relabel fs a kids i).1.tree (graft Node.relabel fs a kids i).2 =
      a.tree kids + (rebuilt fs a.id i + beside fs) := by
  induction fs generalizing a kids i with
  | nil => simp [graft, rebuilt, beside]
  | cons f fs ih =>
    rw [graft, ih, Node.tree]
    simp only [Node.below, Node.blocks_append, Node.blocks_cons, Node.blocks_nil, rebuilt, beside,
      ← Multiset.cons_coe, ← Multiset.singleton_add, Node.relabel, Node.block, Node.rootIds_append,
      Node.rootIds_cons, Node.rootIds_nil, add_zero]
    ac_rfl

end Pingfs
