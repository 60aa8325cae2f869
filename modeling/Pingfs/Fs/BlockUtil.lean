import Pingfs.Block.MemoryBlockManager
import Pingfs.Lib.Program

/-!
# Walks over blocks

The functions of `block_util`, as programs over the calls that the file system makes to its block
manager and to its own virtual methods. Loops and recursions that follow the ids found in blocks
take `fuel`, a bound on their depth: the blocks could form a cycle.

Source: `block_util.cc`.
-/

namespace Pingfs

/-- The calls made inside of an operation. `freeBlock` is the virtual method of `BlockFuse`,
`managerFreeBlock` the one of the block manager. -/
inductive FsCall where
  | createBlock (data : BlockData)
  | managerFreeBlock (id : BlockId)
  | getBlocks (ids : List BlockId)
  | getRootBlock
  | setRootBlock (newRoot : Block)
  | freeBlock (id : BlockId)

/-- What a call returns. -/
@[reducible] def FsCall.Reply : FsCall → Type
  | createBlock _ => Block
  | managerFreeBlock _ => Unit
  | getBlocks _ => List (Option Block)
  | getRootBlock => Block
  | setRootBlock _ => Unit
  | freeBlock _ => Unit

/-- A piece of an operation of the file system. -/
abbrev FsM (α : Type) := Program FsCall FsCall.Reply Halt α

namespace FsM

def createBlock (data : BlockData) : FsM Block := Program.request (FsCall.createBlock data)
def managerFreeBlock (id : BlockId) : FsM Unit := Program.request (FsCall.managerFreeBlock id)
def getBlocks (ids : List BlockId) : FsM (List (Option Block)) :=
  Program.request (FsCall.getBlocks ids)
def getRootBlock : FsM Block := Program.request FsCall.getRootBlock

def setRootBlock (newRoot : Block) : FsM Unit := Program.request (FsCall.setRootBlock newRoot)

def freeBlock (id : BlockId) : FsM Unit := Program.request (FsCall.freeBlock id)

/-- An `assert`. -/
def assert (c : Bool) : FsM Unit := if c then pure () else .halt .assertionFailed

/-- An `assert` on a pointer, which is used after it. -/
def assertSome {α : Type} : Option α → FsM α
  | some a => pure a
  | none => .halt .assertionFailed

/-- A computation that may throw a string. -/
def ofThrowing {α : Type} (e : Except String α) : FsM α := .ofExcept (e.mapError .threw)

/-- Calls without a result, one for each element. -/
def forEach {α : Type} (f : α → FsM Unit) : List α → FsM Unit
  | [] => pure ()
  | a :: as => do
    f a
    forEach f as

end FsM

namespace BlockUtil

open FsM

/-- The loop over the children in `find_path`, with the recursive call as `search`. -/
def findChild (retrievedBlocks : BlockId → Option Block)
    (search : Block → Except Halt (Bool × List Block)) :
    List BlockId → Except Halt (Bool × List Block)
  | [] => .ok (false, [])
  | childId :: childIds =>
    match retrievedBlocks childId with
    | none => findChild retrievedBlocks search childIds
    | some child => do
      let (found, blockPath) ← search child
      if found then
        return (true, blockPath ++ [child])
      findChild retrievedBlocks search childIds

/-- `find_path`: whether the target was found, and the blocks appended to `block_path`. -/
def findPath (retrievedBlocks : BlockId → Option Block) (targetBlock : Block) :
    ℕ → Block → Except Halt (Bool × List Block)
  | 0, _ => .error .diverged
  | fuel + 1, fromBlock =>
    if fromBlock.id = targetBlock.id then .ok (true, [])
    else
      match fromBlock.getChildren with
      | none => .ok (false, [])
      | some children =>
        findChild retrievedBlocks (findPath retrievedBlocks targetBlock fuel) children

/-- The loop over the response in `get_file_contents`, with the recursive call as `below`. -/
def gatherContents (below : List BlockId → FsM (List FileContentsBlockData)) :
    List (Option Block) → FsM (List FileContentsBlockData)
  | [] => pure []
  | pointer :: pointers => do
    let block ← .ofExcept (deref pointer)
    match block.tryCastContents with
    | some contents =>
      let rest ← gatherContents below pointers
      return contents :: rest
    | none =>
      match block.tryCastLink with
      | some linkData =>
        let linked ← below linkData.children
        let rest ← gatherContents below pointers
        return linked ++ rest
      | none => gatherContents below pointers

/-- `get_file_contents`: the blocks appended to `file_blocks`. -/
def getFileContents : ℕ → List BlockId → FsM (List FileContentsBlockData)
  | 0, _ => .halt .diverged
  | fuel + 1, blocksToCheck => do
    let response ← getBlocks blocksToCheck
    gatherContents (getFileContents fuel) response

/-- `read_file_contents`. -/
def readFileContents (fuel : ℕ) (fileInode : DirFileBlockData) : FsM Bytes := do
  assert !fileInode.isDir
  let fileBlocks ← getFileContents fuel fileInode.children
  return fileBlocks.flatMap (·.data)

/-- `remove_ids`: the first occurrence of each id goes, and there must be one. -/
def removeIds (toRemoveFrom : List BlockId) : List BlockId → Except Halt (List BlockId)
  | [] => .ok toRemoveFrom
  | id :: ids =>
    if id ∈ toRemoveFrom then removeIds (toRemoveFrom.erase id) ids
    else .error .assertionFailed

/-- `replace_block_with_diff_children`. -/
def replaceBlockWithDiffChildren (blockToReplace : Block) (newChildren : List BlockId) :
    FsM Block :=
  match blockToReplace.tryCastLink with
  | some _ => createBlock (.link ⟨newChildren⟩)
  | none =>
    match blockToReplace.tryCastDirFile with
    | some dirFile => createBlock (.dirFile { dirFile with children := newChildren })
    | none => .halt (.threw "Unexpected block type")

/-- The loop of `replace_chain`: `children_to_remove_helper` and `last_replaced_block` are
`childrenToRemove` and `lastReplacedBlock`. -/
def replaceChainLoop (childrenToAdd : List BlockId) :
    List Block → List BlockId → Option Block → FsM (Option Block)
  | [], _, lastReplacedBlock => pure lastReplacedBlock
  | blockToReplace :: blocks, childrenToRemove, lastReplacedBlock => do
    let kept ← .ofExcept (removeIds blockToReplace.children childrenToRemove)
    let newChildren :=
      match lastReplacedBlock with
      | some lastReplaced => kept ++ [lastReplaced.id]
      | none => kept ++ childrenToAdd
    let replaced ← replaceBlockWithDiffChildren blockToReplace newChildren
    replaceChainLoop childrenToAdd blocks [blockToReplace.id] (some replaced)

/-- `replace_chain`, over the blocks from `begin` to `end`. The pointer it returns is null if
there are none. -/
def replaceChain (blocks : List Block) (childrenToRemove childrenToAdd : List BlockId) :
    FsM (Option Block) :=
  replaceChainLoop childrenToAdd blocks childrenToRemove none

/-- `recursive_free_children_blocks`. -/
def recursiveFreeChildrenBlocks : ℕ → Block → FsM Unit
  | 0, _ => .halt .diverged
  | fuel + 1, block =>
    match block.getChildren with
    | none => pure ()
    | some children => do
      let childBlocks ← getBlocks children
      forEach managerFreeBlock children
      forEach (fun pointer => do
        let child ← .ofExcept (deref pointer)
        recursiveFreeChildrenBlocks fuel child) childBlocks

/-- Creates the blocks one after the other. -/
def createAll : List BlockData → FsM (List Block)
  | [] => pure []
  | data :: datas => do
    let block ← createBlock data
    let blocks ← createAll datas
    return block :: blocks

/-- The `i`-th run of `size` elements. -/
def chunk {α : Type} (size : ℕ) (as : List α) (i : ℕ) : List α := (as.drop (i * size)).take size

/-- `ceil` of a quotient. -/
def ceilDiv (n d : ℕ) : ℕ := if n % d = 0 then n / d else n / d + 1

/-- `add_link_layer`: the new layer. -/
def addLinkLayer (blocksToLinkTo : List Block) (branchingFactor : ℕ) : FsM (List Block) :=
  createAll <| (List.range (ceilDiv blocksToLinkTo.length branchingFactor)).map fun i =>
    .link ⟨(chunk branchingFactor blocksToLinkTo i).map (·.id)⟩

/-- The loop over the layers in `replace_blocks_for_contents`. -/
def addLinkLayers (branchingFactor : ℕ) : ℕ → List Block → FsM (List Block)
  | 0, blocksToLinkTo => pure blocksToLinkTo
  | depth + 1, blocksToLinkTo => do
    let links ← addLinkLayer blocksToLinkTo branchingFactor
    addLinkLayers branchingFactor depth links

/-- The leaves that `replace_blocks_for_contents` cuts a string into. The second argument of
`substr` is the number of characters to take, and `max` makes it at least the length of the whole
string. -/
def leafData (fileContents : Bytes) (bytesPerBlock : ℕ) : List Bytes :=
  (List.range (ceilDiv fileContents.length bytesPerBlock)).map fun i =>
    (fileContents.drop (i * bytesPerBlock)).take
      (max ((i + 1) * bytesPerBlock) fileContents.length)

/-- `replace_blocks_for_contents`: the ids added to `ids_to_add`. `depth` stands for the
floating-point `ceil(log(num_leaves) / log(branching_factor))`. -/
def replaceBlocksForContents (depth : ℕ → ℕ → ℕ) (blocks : List Block) (fileContents : Bytes)
    (bytesPerBlock branchingFactor : ℕ) : FsM (List BlockId) := do
  assert !blocks.isEmpty
  assert !fileContents.isEmpty
  let numLeaves := ceilDiv fileContents.length bytesPerBlock
  let leaves ← createAll ((leafData fileContents bytesPerBlock).map fun data =>
    .fileContents ⟨data⟩)
  let blocksToLinkTo ← addLinkLayers branchingFactor (depth numLeaves branchingFactor) leaves
  return blocksToLinkTo.map (·.id)

end BlockUtil

end Pingfs
