import Pingfs.Fs.BlockUtil
import Pingfs.Fs.FsUtil

/-!
# The file system

`BlockFuse` keeps a tree of inodes in a block manager. Blocks do not change: an operation that
changes a file or a directory creates new blocks for everything on the path to it, makes the new
root its root, and frees what is no longer used.

Source: `block_fuse.cc`.

## Main definitions

* `BlockFuse.getattr`, …, `BlockFuse.write` — the operations, as programs
* `BlockFuse.handler` — how the calls of a program act on the state
* `BlockFuse.Call`, `BlockFuse.exec` — one call of the file system from outside
-/

namespace Pingfs

/-- What the file system is told by its surroundings: the ids of its process, its device, and
`ceil(log(num_leaves) / log(branching_factor))` as the machine computes it. -/
structure Env where
  uid : UInt32
  gid : UInt32
  dev : UInt64
  depth : ℕ → ℕ → ℕ

/-- The fields of `class BlockFuse`, its device aside. -/
structure BlockFuse where
  manager : MemoryBlockManager
  rootBlock : Block

namespace BlockFuse

open FsM BlockUtil

/-- `set_no_such_file_or_dir`. -/
def noSuchFileOrDir : Int32 := -2

/-- `set_file_exists`. -/
def fileExists : Int32 := -17

/-- `set_error_because_dir`. -/
def errorBecauseDir : Int32 := -21

/-- `BYTES_PER_BLOCK`. -/
def bytesPerBlock : ℕ := 1000

/-- `BRANCHING_FACTOR`. -/
def branchingFactor : ℕ := 4

/-- A name and the stat of its inode, as `readdir` hands them to its filler; for `..` the stat is
a null pointer. -/
abbrev DirEntry := Str × Option StatBuf

/-- `fuse_fill_dir_t`: what it returns for an entry may depend on those it was given before. -/
abbrev Filler := List DirEntry → DirEntry → Int32

/-! ## Paths -/

/-- `get_path_part_helper`: the target, the ids appended to `blocks_to_check`, and
`retrieved_blocks`. -/
def getPathPartHelper (targetName : Str) (retrievedBlocks : BlockId → Option Block) :
    List (Option Block) →
      Except Halt (Option Block × List BlockId × (BlockId → Option Block))
  | [] => .ok (none, [], retrievedBlocks)
  | pointer :: pointers => do
    let block ← deref pointer
    let retrievedBlocks := Function.update retrievedBlocks block.id (some block)
    if (block.tryCastDirFile.map (·.name)) = some targetName then
      return (some block, [], retrievedBlocks)
    let children := (block.tryCastLink.map (·.children)).getD []
    let (target, blocksToCheck, retrievedBlocks) ←
      getPathPartHelper targetName retrievedBlocks pointers
    return (target, children ++ blocksToCheck, retrievedBlocks)

/-- The loop of `get_path_part`: the target inode, and `retrieved_blocks`. -/
def searchInode (targetName : Str) :
    ℕ → List BlockId → (BlockId → Option Block) → FsM (Option Block × (BlockId → Option Block))
  | 0, _, _ => .halt .diverged
  | fuel + 1, blocksToCheck, retrievedBlocks =>
    if blocksToCheck.isEmpty then pure (none, retrievedBlocks)
    else do
      let response ← getBlocks blocksToCheck
      let (target, blocksToCheck, retrievedBlocks) ←
        .ofExcept (getPathPartHelper targetName retrievedBlocks response)
      match target with
      | some target => return (some target, retrievedBlocks)
      | none => searchInode targetName fuel blocksToCheck retrievedBlocks

/-- `BlockFuse::get_path_part`: `block_path`. -/
def getPathPart (fuel : ℕ) (relFileDirName : Str) (fromBlock : Option Block) : FsM (List Block) :=
  if relFileDirName = FsUtil.separator then do
    let root ← getRootBlock
    return [⟨root.id, root.data⟩]
  else do
    let fromBlock ← .ofExcept (deref fromBlock)
    let dirFile ← assertSome fromBlock.tryCastDirFile
    let (targetInode, retrievedBlocks) ←
      searchInode relFileDirName fuel dirFile.children fun _ => none
    match targetInode with
    | some target => do
      let (_, blockPath) ← .ofExcept (findPath retrievedBlocks target fuel fromBlock)
      return blockPath
    | none => return []

/-- The loop of `get_path` over the parts of the path. -/
def getPathLoop (fuel : ℕ) : List Str → Option Block → List Block → FsM (List Block)
  | [], _, blocks => pure blocks
  | part :: parts, fromBlock, blocks => do
    let blockPath ← getPathPart fuel part fromBlock
    match blockPath.getLast? with
    | none => return []
    | some last => getPathLoop fuel parts (some last) (blocks ++ blockPath)

/-- `BlockFuse::get_path`: the blocks from the root to the inode, none if there is no path. -/
def getPath (fuel : ℕ) (path : Str) : FsM (List Block) := do
  let parts ← .ofExcept (FsUtil.separatePath path)
  getPathLoop fuel parts none []

/-- `BlockFuse::resolve_inode`. -/
def resolveInode (fuel : ℕ) (path : Str) : FsM (Option Block) := do
  let blocks ← getPath fuel path
  return blocks.getLast?

/-! ## Queries -/

/-- `stbuf` after `update_stat`, with the device and the fixed inode number. -/
def statBuf (env : Env) (stat : Stat) : StatBuf := stat.updateStat env.dev 1

/-- `BlockFuse::getattr`: what it returns, and `stbuf` if it was filled. -/
def getattr (env : Env) (fuel : ℕ) (path : Str) : FsM (Int32 × Option StatBuf) := do
  let resolved ← resolveInode fuel path
  match resolved with
  | none => return (noSuchFileOrDir, none)
  | some resolved => do
    let resolvedData ← assertSome resolved.tryCastDirFile
    return (0, some (statBuf env resolvedData.stat))

/-- The loop of `get_dir_files_from_dir` over one response: the inodes appended to `children`, and
the ids appended to `blocks_to_trace`. -/
def traceBlocks : List (Option Block) → Except Halt (List DirFileBlockData × List BlockId)
  | [] => .ok ([], [])
  | pointer :: pointers => do
    let block ← deref pointer
    let (children, blocksToTrace) ← traceBlocks pointers
    match block.tryCastDirFile with
    | some child => return (child :: children, blocksToTrace)
    | none => return (children, (block.tryCastLink.map (·.children)).getD [] ++ blocksToTrace)

/-- `BlockFuse::get_dir_files_from_dir`: the inodes appended to `children`. -/
def getDirFiles : ℕ → List BlockId → FsM (List DirFileBlockData)
  | 0, _ => .halt .diverged
  | fuel + 1, blocksToTrace =>
    if blocksToTrace.isEmpty then pure []
    else do
      let response ← getBlocks blocksToTrace
      let (children, blocksToTrace) ← .ofExcept (traceBlocks response)
      let more ← getDirFiles fuel blocksToTrace
      return children ++ more

/-- `BlockFuse::readdir`: what it returns, and the entries handed to the filler. -/
def readdir (env : Env) (fuel : ℕ) (path : Str) (filler : Filler) :
    FsM (Int32 × List DirEntry) := do
  let blocks ← getPath fuel path
  match blocks.getLast? with
  | none => return (noSuchFileOrDir, [])
  | some inode =>
    match inode.tryCastDirFile with
    | none => return (1, [])
    | some dirFile => do
      let dot : DirEntry := ([0x2e], some (statBuf env dirFile.stat))
      if filler [] dot ≠ 0 then
        return (filler [] dot, [dot])
      let dotDot : DirEntry := ([0x2e, 0x2e], none)
      if filler [dot] dotDot ≠ 0 then
        return (filler [dot] dotDot, [dot, dotDot])
      let children ← getDirFiles fuel dirFile.children
      return (0, dot :: dotDot :: children.map fun child =>
        (child.name, some (statBuf env child.stat)))

/-- The part of `BlockFuse::read` after the contents are read: what it returns, and the bytes that
`memcpy` writes to the buffer. The sum and the difference are taken modulo `2^64`. -/
def copyContents (contents : Bytes) (size : UInt64) (offset : Int64) :
    Except Halt (Int32 × Bytes) :=
  let start := offset.toUInt64
  if start.toNat > contents.length then .ok (0, [])
  else
    let actualSize :=
      if (start + size).toNat ≤ contents.length then size else .ofNat contents.length - start
    if start.toNat + actualSize.toNat ≤ contents.length then
      .ok (.ofNat actualSize.toNat, (contents.drop start.toNat).take actualSize.toNat)
    else .error .outOfBounds

/-- `BlockFuse::read`: what it returns, and the bytes written to the buffer. -/
def read (fuel : ℕ) (path : Str) (size : UInt64) (offset : Int64) : FsM (Int32 × Bytes) := do
  let blocks ← getPath fuel path
  match blocks.getLast? with
  | none => return (noSuchFileOrDir, [])
  | some inode =>
    match inode.tryCastDirFile with
    | none => return (-1, [])
    | some dirFile =>
      if dirFile.isDir then return (-1, [])
      else do
        let contents ← readFileContents fuel dirFile
        .ofExcept (copyContents contents size offset)

/-! ## Changes -/

/-- The loops that free all blocks on a path. -/
def freeAll (blocks : List Block) : FsM Unit := forEach (fun block => freeBlock block.id) blocks

/-- The end of every change: the chain is replaced, the new root set, and the old chain freed. -/
def replaceRoot (blocks chain : List Block) (childrenToRemove childrenToAdd : List BlockId) :
    FsM Unit := do
  let lastReplacedBlock ← replaceChain chain childrenToRemove childrenToAdd
  -- a null root would be followed by the next operation; no caller passes an empty chain
  let newRoot ← .ofExcept (deref lastReplacedBlock)
  setRootBlock newRoot
  freeAll blocks

/-- `BlockFuse::mkdir_valid`: the path to the parent and the name to make, if it returns true. -/
def mkdirValid (env : Env) (fuel : ℕ) (path : Str) : FsM (Option (List Block × Str)) := do
  let parts ← .ofExcept (FsUtil.separatePath path)
  if parts.length ≤ 1 then
    return none
  let (status, _) ← getattr env fuel path
  if status = 0 then
    return none
  let dirToMake := parts.getLast?.getD []
  let parentPath ← .ofExcept (FsUtil.join parts.dropLast)
  let blocks ← getPath fuel parentPath
  match blocks.getLast? with
  | none => return none
  | some parentDir =>
    match parentDir.tryCastDirFile with
    | none => return none
    | some _ => return some (blocks, dirToMake)

/-- `BlockFuse::mkdir`. -/
def mkdir (env : Env) (fuel : ℕ) (now : Int64) (path : Str) (mode : ModeT) : FsM Int32 := do
  let valid ← mkdirValid env fuel path
  match valid with
  | none => return 1
  | some (blocks, dirToMake) => do
    let mode ← ofThrowing (Mode.ofModeT (mode ||| S_IFDIR))
    let stat : Stat := ⟨mode, env.uid, env.gid, 1, now, now, now⟩
    let newDirBlock ← createBlock (.dirFile ⟨dirToMake, stat, []⟩)
    replaceRoot blocks blocks.reverse [] [newDirBlock.id]
    return 0

/-- The loop in `BlockFuse::rmdir` that looks for the last inode before the target: from the
block before the target up, over links. Gives the blocks from there up, and the one below. Its
index is unsigned and never becomes negative, so past the first block it reads on elsewhere. -/
def lastDirFile : Block → List Block → Except Halt (List Block × Block)
  | _, [] => .error .outOfBounds
  | below, block :: blocks =>
    match block.tryCastLink with
    | some _ => lastDirFile block blocks
    | none => .ok (block :: blocks, below)

/-- `BlockFuse::rmdir`. -/
def rmdir (fuel : ℕ) (path : Str) : FsM Int32 := do
  let blocks ← getPath fuel path
  match blocks.reverse with
  | [] => return 1
  | [_] => return 1
  | target :: above => do
    let (chain, childToRemove) ← .ofExcept (lastDirFile target above)
    replaceRoot blocks chain [childToRemove.id] []
    recursiveFreeChildrenBlocks fuel target
    return 0

/-- `BlockFuse::unlink`, over the virtual `rmdir`. -/
def unlink (fuel : ℕ) (path : Str) : FsM Int32 := rmdir fuel path

/-- `gen_file_stat`. -/
def genFileStat (env : Env) (now : Int64) (mode : Mode) (size : UInt64) : Stat :=
  ⟨mode, env.uid, env.gid, size, now, now, now⟩

/-- `BlockFuse::create_file_block`. -/
def createFileBlock (env : Env) (fuel : ℕ) (now : Int64) (path : Str) (fileSize : UInt64)
    (mode : Mode) : FsM Bool := do
  let existing ← getPath fuel path
  if !existing.isEmpty then
    return false
  let separatedPath ← .ofExcept (FsUtil.separatePath path)
  let parentPath ← .ofExcept (FsUtil.join separatedPath.dropLast)
  let blocks ← getPath fuel parentPath
  if blocks.isEmpty then
    return false
  let newBlock ← createBlock
    (.dirFile ⟨separatedPath.getLast?.getD [], genFileStat env now mode fileSize, []⟩)
  replaceRoot blocks blocks.reverse [] [newBlock.id]
  let updated ← getPath fuel path
  assert !updated.isEmpty
  return true

/-- `BlockFuse::create`. -/
def create (env : Env) (fuel : ℕ) (now : Int64) (path : Str) (mode : ModeT) : FsM Int32 := do
  let blocks ← getPath fuel path
  if !blocks.isEmpty then
    return fileExists
  let mode ← ofThrowing (Mode.ofModeT mode)
  let succeeded ← createFileBlock env fuel now path 0 mode
  if !succeeded then
    return noSuchFileOrDir
  return 0

/-- `BlockFuse::write_file_starting_at_node`. -/
def writeFileStartingAtNode (env : Env) (now : Int64) (blocks : List Block)
    (fileContents : Bytes) : FsM Unit := do
  assert !blocks.isEmpty
  let idsToAdd ←
    (if fileContents.isEmpty then pure []
    else replaceBlocksForContents env.depth blocks fileContents bytesPerBlock branchingFactor)
  match blocks.reverse with
  | [] => .halt .assertionFailed
  | back :: above => do
    let fileInode ← .ofExcept (deref back.tryCastDirFile)
    let updatedFile : DirFileBlockData :=
      ⟨fileInode.name, fileInode.stat.update (.ofNat fileContents.length) now now now,
        fileInode.children⟩
    replaceRoot blocks (⟨back.id, .dirFile updatedFile⟩ :: above) fileInode.children idsToAdd

/-- `std::string::replace(offset, buffer.size(), buffer)`. -/
def replaceAt (contents buffer : Bytes) (offset : ℕ) : Bytes :=
  contents.take offset ++ buffer ++ contents.drop (offset + buffer.length)

/-- `BlockFuse::write`, of the `size` bytes of `buffer`. -/
def write (env : Env) (fuel : ℕ) (now : Int64) (path : Str) (buffer : Bytes) (offset : Int64) :
    FsM Int32 := do
  let blocks ← getPath fuel path
  match blocks.getLast? with
  | none => return noSuchFileOrDir
  | some fileInode => do
    let resolvedData ← .ofExcept (deref fileInode.tryCastDirFile)
    if resolvedData.isDir then
      return errorBecauseDir
    let fileContents ← readFileContents fuel resolvedData
    if offset.toUInt64.toNat > fileContents.length then
      return -1
    recursiveFreeChildrenBlocks fuel fileInode
    writeFileStartingAtNode env now blocks (replaceAt fileContents buffer offset.toUInt64.toNat)
    return .ofNat buffer.length

/-! ## State -/

/-- How the calls act on the state. When `freeSuppressed` is set, the virtual `free_block` does
nothing. -/
def handler (freeSuppressed : Bool) : Program.Handler FsCall FsCall.Reply Halt BlockFuse
  | .createBlock data, s =>
    match s.manager.createBlock data with
    | .ok (block, manager) => .returned block { s with manager }
    | .error what => .halted (.threw what) s
  | .managerFreeBlock id, s => .returned () { s with manager := s.manager.freeBlock id }
  | .getBlocks ids, s =>
    .returned (s.manager.getBlocks ids).1 { s with manager := (s.manager.getBlocks ids).2 }
  | .getRootBlock, s => .returned s.rootBlock s
  | .setRootBlock newRoot, s => .returned () { s with rootBlock := newRoot }
  | .freeBlock id, s =>
    .returned () (if freeSuppressed then s else { s with manager := s.manager.freeBlock id })

/-- `make_root_block_data`. -/
def makeRootBlockData (env : Env) (now : Int64) : BlockData :=
  .dirFile ⟨FsUtil.separator,
    ⟨⟨.readWriteExecute, .readExecute, .execute, .dir⟩, env.uid, env.gid, 0, now, now, now⟩, []⟩

/-- `BlockFuse::BlockFuse` over a new block manager, whose first id is `1`. -/
def new (env : Env) (now : Int64) : BlockFuse where
  manager :=
    ⟨⟨2⟩, Function.update (fun _ => none) 1 (some (some ⟨1, makeRootBlockData env now⟩))⟩
  rootBlock := ⟨1, makeRootBlockData env now⟩

/-- It is the one block of a new manager. -/
theorem new_eq (env : Env) (now : Int64) :
    (MemoryBlockManager.new .new).createBlock (makeRootBlockData env now) =
      .ok ((new env now).rootBlock, (new env now).manager) := rfl

/-- How many ids were handed out. -/
def idsUsed (s : BlockFuse) : ℕ :=
  if s.manager.idSupplier.next = 0 then 2 ^ 64 - 1 else s.manager.idSupplier.next.toNat - 1

/-- Deeper than any chain of stored blocks. -/
def fuel (s : BlockFuse) : ℕ := s.idsUsed + 4

/-- The calls of the interface. -/
inductive Call where
  | getattr (path : Str)
  | mkdir (path : Str) (mode : ModeT)
  | rmdir (path : Str)
  | unlink (path : Str)
  | readdir (path : Str) (filler : Filler)
  | read (path : Str) (size : UInt64) (offset : Int64)
  | write (path : Str) (buffer : Bytes) (offset : Int64)
  | create (path : Str) (mode : ModeT)

/-- What a call returns: its result, and what it wrote to the memory of its caller. -/
structure Reply where
  status : Int32
  attr : Option StatBuf := none
  entries : List DirEntry := []
  bytes : Bytes := []
  deriving DecidableEq, Repr

/-- The program of a call. -/
def program (env : Env) (fuel : ℕ) (now : Int64) : Call → FsM Reply
  | .getattr path => do
    let (status, attr) ← getattr env fuel path
    return { status, attr }
  | .mkdir path mode => do
    let status ← mkdir env fuel now path mode
    return { status }
  | .rmdir path => do
    let status ← rmdir fuel path
    return { status }
  | .unlink path => do
    let status ← unlink fuel path
    return { status }
  | .readdir path filler => do
    let (status, entries) ← readdir env fuel path filler
    return { status, entries }
  | .read path size offset => do
    let (status, bytes) ← read fuel path size offset
    return { status, bytes }
  | .write path buffer offset => do
    let status ← write env fuel now path buffer offset
    return { status }
  | .create path mode => do
    let status ← create env fuel now path mode
    return { status }

/-- A call at time `now`. -/
def exec (env : Env) (freeSuppressed : Bool) (s : BlockFuse) (call : Int64 × Call) :
    Outcome Halt BlockFuse Reply :=
  (program env s.fuel call.1 call.2).run (handler freeSuppressed) s

end BlockFuse

end Pingfs
