import Pingfs.Fs.WellFormed

/-!
# Checkpoints

`RevertibleBlockFuse` takes a checkpoint when a directory is made whose path begins with
`/__checkpoint_`, and goes back to it when that directory is removed. From the first checkpoint on
its `free_block` does nothing. But `recursive_free_children_blocks` frees at the block manager
itself, so a write, `rmdir` or `unlink` also frees what belongs to a checkpoint.

Source: `revertible_block_fuse.cc`.

## Main results

* `restored` — a checkpoint is restored if nothing of a recorded checkpoint was freed
* `not_restored_of_write` — what is written after a checkpoint is lost to it
-/

namespace Pingfs

open BlockFuse (Call Reply)

/-- The fields of `class RevertibleBlockFuse`. -/
structure RevertibleBlockFuse where
  fuse : BlockFuse
  checkpointRequested : Bool
  checkpoints : Str → Option Block

namespace RevertibleBlockFuse

/-- `REVERT_DIR_SENTINEL`. -/
def revertDirSentinel : Str :=
  [0x2f, 0x5f, 0x5f, 0x63, 0x68, 0x65, 0x63, 0x6b, 0x70, 0x6f, 0x69, 0x6e, 0x74, 0x5f]

/-- `RevertibleBlockFuse::RevertibleBlockFuse`. -/
def new (env : Env) (now : Int64) : RevertibleBlockFuse := ⟨.new env now, false, fun _ => none⟩

/-- `checkpoints_[path_str] = checkpoint()`. -/
def checkpoint (s : RevertibleBlockFuse) (path : Str) : RevertibleBlockFuse :=
  ⟨s.fuse, true, Function.update s.checkpoints path (some s.fuse.rootBlock)⟩

/-- `revert` and the removal of the checkpoint. -/
def revert (s : RevertibleBlockFuse) (path : Str) (revertedRoot : Block) : RevertibleBlockFuse :=
  ⟨{ s.fuse with rootBlock := revertedRoot }, s.checkpointRequested,
    Function.update s.checkpoints path none⟩

@[simp] theorem checkpoints_checkpoint (s : RevertibleBlockFuse) (path : Str) :
    (s.checkpoint path).checkpoints =
      Function.update s.checkpoints path (some s.fuse.rootBlock) := rfl

@[simp] theorem checkpoints_revert (s : RevertibleBlockFuse) (path : Str) (revertedRoot : Block) :
    (s.revert path revertedRoot).checkpoints = Function.update s.checkpoints path none := rfl

/-- A call of `BlockFuse`, with the overridden `free_block`. -/
def base (env : Env) (s : RevertibleBlockFuse) (call : Int64 × Call) :
    Outcome Halt RevertibleBlockFuse Reply :=
  (BlockFuse.exec env s.checkpointRequested s.fuse call).mapState fun fuse => { s with fuse }

/-- A call at some time. `unlink` calls the overridden `rmdir`, which has no return statement after
a revert; `unreturned` stands for what its caller takes as the result. -/
def exec (env : Env) (unreturned : Int32) (s : RevertibleBlockFuse) (call : Int64 × Call) :
    Outcome Halt RevertibleBlockFuse Reply :=
  match call.2 with
  | .mkdir path _ =>
    if revertDirSentinel <+: path then (s.checkpoint path).base env call else s.base env call
  | .rmdir path | .unlink path =>
    match s.checkpoints path with
    | none => s.base env call
    | some revertedRoot => .returned { status := unreturned } (s.revert path revertedRoot)
  | _ => s.base env call

/-- The state after a call, however it ended. -/
def step (env : Env) (unreturned : Int32) (s : RevertibleBlockFuse) (call : Int64 × Call) :
    RevertibleBlockFuse := (exec env unreturned s call).state

/-! ## What a call clears -/

end RevertibleBlockFuse

namespace BlockFuse

/-- What a program returns when it is run in the state `s`. -/
def valueIn (s : BlockFuse) {α : Type} (p : FsM α) : Option α :=
  match p.run (handler true) s with
  | .returned a _ => some a
  | .halted _ _ => none

/-- The inode whose data and children a call frees at the block manager: that of a directory or
file to be removed, or of a file to be written. -/
def clearedInode (s : BlockFuse) : Call → Option Block
  | .rmdir path | .unlink path =>
    match s.valueIn (getPath s.fuel path) with
    | some (_ :: b :: blocks) => (b :: blocks).getLast?
    | _ => none
  | .write path _ offset => do
    let blocks ← s.valueIn (getPath s.fuel path)
    let inode ← blocks.getLast?
    let dirFile ← inode.tryCastDirFile
    let contents ← s.valueIn (BlockUtil.readFileContents s.fuel dirFile)
    if offset.toUInt64.toNat > contents.length then none else some inode
  | _ => none

/-- The ids below a block, by the children of stored blocks. -/
inductive Below (s : BlockFuse) (top : Block) : BlockId → Prop
  | child {child : BlockId} (hchild : child ∈ top.children) : Below s top child
  | step {id child : BlockId} {b : Block} (hid : Below s top id)
      (hb : s.manager.map id = some (some b)) (hchild : child ∈ b.children) : Below s top child

open Zipper

variable {s : BlockFuse} {t : Inodes} {garbage : Multiset Block}

theorem closed_below (s : BlockFuse) (top : Block) : Closed s (Below s top) :=
  fun _ hb hid _ hchild => .step hid hb hchild

theorem not_below_of_childless {top : Block} (h : top.children = []) (id : BlockId) :
    ¬ Below s top id := by
  intro hbelow
  induction hbelow with
  | child hchild => simp [h] at hchild
  | step _ _ _ ih => exact ih

theorem Good.valueIn_getPath (h : Good s t garbage) {path : Str} (hpath : path ≠ []) :
    s.valueIn (getPath s.fuel path) = some (((t.resolve path).map pathBlocks).getD []) := by
  rw [valueIn, h.run_getPath hpath]

/-- What the tree says is cleared is below the cleared inode. -/
theorem Good.cleared_below (h : Good s t garbage) {call : Call} (hpath : call.path ≠ []) :
    cleared t call = 0 ∨
      ∃ inode, clearedInode s call = some inode ∧ ∀ b ∈ cleared t call, Below s inode b.id := by
  have hbelow : ∀ {z : Zipper Node}, plug z.frames z.label z.kids = t →
      ∀ b ∈ z.label.below z.kids, Below s (z.label.block z.kids) b.id := by
    intro z hplug
    refine (closed_below s _).below (fun b hb => ?_) fun id hid => .child hid
    exact h.stores.holds.get b (Multiset.mem_of_le (h.tree_le hplug)
      (Multiset.mem_cons_of_mem hb))
  have hrmdir : ∀ path, path ≠ [] → cleared t (.rmdir path) = 0 ∨
      ∃ inode, clearedInode s (.rmdir path) = some inode ∧
        ∀ b ∈ cleared t (.rmdir path), Below s inode b.id := by
    intro path hpath
    rw [cleared, clearedInode, h.valueIn_getPath hpath]
    cases hz : t.resolve path with
    | none => exact Or.inl rfl
    | some z =>
      obtain ⟨a, kids, frames⟩ := z
      cases frames with
      | nil => exact Or.inl rfl
      | cons f fs =>
        refine Or.inr ⟨a.block kids, ?_, hbelow (Inodes.plug_resolve hz)⟩
        have hlast := getLast?_pathBlocks ⟨a, kids, f :: fs⟩
        have hlength := length_pathBlocks ⟨a, kids, f :: fs⟩
        simp only [Option.map_some, Option.getD_some]
        -- a path to something below the root has at least two blocks
        rcases hblocks : pathBlocks ⟨a, kids, f :: fs⟩ with _ | ⟨root, _ | ⟨b, blocks⟩⟩
        · simp [hblocks] at hlength
        · simp [hblocks] at hlength
        · rw [hblocks, List.getLast?_cons_cons] at hlast
          exact hlast
  cases call with
  | rmdir path => exact hrmdir path hpath
  | unlink path => exact hrmdir path hpath
  | write path buffer offset =>
    have hpath : path ≠ [] := hpath
    rw [cleared, clearedInode, h.valueIn_getPath hpath]
    cases hz : t.resolve path with
    | none => exact Or.inl rfl
    | some z =>
      simp only
      split
      · exact Or.inl rfl
      case isFalse hwrites =>
        rw [not_or] at hwrites
        have hplug := Inodes.plug_resolve hz
        have hfuel := h.card_tree_lt_fuel hplug
        have hheight := Node.height_data_lt z.label z.kids
        have hread := h.stores.run_readFileContents (k := true) (h.tree_le hplug)
          (Bool.not_eq_true _ ▸ hwrites.1) (show z.label.data.height < s.fuel by omega)
        refine Or.inr ⟨z.label.block z.kids, ?_, hbelow hplug⟩
        simp [getLast?_pathBlocks, valueIn, hread, hwrites.2]
  | getattr path => exact Or.inl rfl
  | mkdir path mode => exact Or.inl rfl
  | readdir path filler => exact Or.inl rfl
  | read path size offset => exact Or.inl rfl
  | create path mode => exact Or.inl rfl

end BlockFuse

namespace RevertibleBlockFuse

open BlockFuse (Good Lands cleared clearedInode Below Reachable exhausted)

variable {s : RevertibleBlockFuse} {env : Env} {unreturned : Int32}

/-- The block belongs to a recorded checkpoint. -/
def Recorded (s : RevertibleBlockFuse) (id : BlockId) : Prop :=
  ∃ path root, s.checkpoints path = some root ∧ (id = root.id ∨ Below s.fuse root id)

/-- The call goes back to a checkpoint. -/
def Reverts (s : RevertibleBlockFuse) : Call → Prop
  | .rmdir path | .unlink path => s.checkpoints path ≠ none
  | _ => False

/-- The call clears nothing that belongs to a recorded checkpoint. -/
def Spares (s : RevertibleBlockFuse) (call : Call) : Prop :=
  ¬ Reverts s call → ∀ inode, clearedInode s.fuse call = some inode →
    ∀ id, Below s.fuse inode id → ¬ Recorded s id

/-- The id supplier threw during the call. -/
def RanOut (env : Env) (unreturned : Int32) (s : RevertibleBlockFuse) (call : Int64 × Call) :
    Prop :=
  (exec env unreturned s call).result = .error exhausted

/-- A run in which the id supplier never throws and nothing of a checkpoint is cleared. -/
def Careful (env : Env) (unreturned : Int32) (s : RevertibleBlockFuse)
    (calls : List (Int64 × Call)) : Prop :=
  Run.EveryStep (step env unreturned)
    (fun s call => ¬ RanOut env unreturned s call ∧ Spares s call.2) s calls

/-! ## The trees of the checkpoints -/

/-- The state is that of the tree `t`, and each checkpoint is the root of a tree in `trees` whose
blocks are all still stored. -/
structure Tracks (s : RevertibleBlockFuse) (t : Inodes) (garbage : Multiset Block)
    (trees : Str → Option Inodes) : Prop where
  good : Good s.fuse t garbage
  checkpoints_eq : ∀ path, s.checkpoints path = (trees path).map fun u => u.1.block u.2
  requested : ∀ path u, trees path = some u → s.checkpointRequested = true
  le_stored : ∀ path u, trees path = some u → u.blocks ≤ t.blocks + garbage

/-- The trees of the checkpoints after a call. -/
def nextTrees (t : Inodes) (trees : Str → Option Inodes) : Call → Str → Option Inodes
  | .mkdir path _ =>
    if revertDirSentinel <+: path then Function.update trees path (some t) else trees
  | .rmdir path | .unlink path => Function.update trees path none
  | _ => trees

variable {t : Inodes} {garbage : Multiset Block} {trees : Str → Option Inodes}

theorem tracks_new (env : Env) (now : Int64) : ∃ t, Tracks (new env now) t 0 fun _ => none :=
  ⟨_, BlockFuse.good_new env now, fun _ => rfl, fun _ _ h => (nomatch h), fun _ _ h => (nomatch h)⟩

/-- The blocks of a checkpoint belong to it. -/
theorem Tracks.recorded (h : Tracks s t garbage trees) {path : Str} {u : Inodes}
    (hu : trees path = some u) {b : Block} (hb : b ∈ u.blocks) : Recorded s b.id := by
  have hmap : ∀ c ∈ u.blocks, s.fuse.manager.map c.id = some (some c) := fun c hc =>
    h.good.stores.holds.get c (Multiset.mem_of_le (h.le_stored path u hu) hc)
  refine ⟨path, u.1.block u.2, by rw [h.checkpoints_eq, hu]; rfl, ?_⟩
  rcases Multiset.mem_cons.mp hb with rfl | hb
  · exact Or.inl rfl
  · refine Or.inr ((BlockFuse.closed_below _ _).below (fun c hc => ?_)
      (fun id hid => .child hid) b hb)
    exact hmap c (Multiset.mem_cons_of_mem hc)

/-- A call of the base class keeps the trees of the checkpoints, if it clears nothing of them. -/
theorem Tracks.exec_base (h : Tracks s t garbage trees) {call : Int64 × Call}
    (hids : ((base env s call).result ≠ .error exhausted))
    (hspares : ∀ inode, clearedInode s.fuse call.2 = some inode →
      ∀ id, Below s.fuse inode id → ¬ Recorded s id) :
    ∃ t' garbage', Tracks (base env s call).state t' garbage' trees := by
  by_cases hpath : call.2.path = []
  · rw [base, BlockFuse.exec_of_path_eq_nil env s.fuse hpath]
    exact ⟨t, garbage, h⟩
  rw [base, Outcome.result_mapState] at hids
  obtain ⟨-, t', garbage', hgood, -, hkept⟩ := h.good.step_refines hids
  rw [base, Outcome.state_mapState]
  refine ⟨t', garbage', hgood, h.checkpoints_eq, h.requested, fun path u hu => ?_⟩
  rw [h.requested path u hu, if_pos rfl] at hkept
  have hle := (h.le_stored path u hu).trans hkept
  have hnodup : u.blocks.Nodup := Multiset.Nodup.of_map _
    (h.good.stores.nodup_of_le (h.le_stored path u hu))
  refine (Multiset.le_iff_subset hnodup).mpr fun b hb => ?_
  refine (Multiset.mem_add.mp (Multiset.mem_of_le hle hb)).resolve_right fun hcleared => ?_
  rcases h.good.cleared_below hpath with hnone | ⟨inode, hinode, hbelow⟩
  · rw [hnone] at hcleared
    exact Multiset.notMem_zero b hcleared
  · exact hspares inode hinode b.id (hbelow b hcleared) (h.recorded hu hb)

/-- Going back makes a checkpoint's tree the tree of the state. What was the tree is garbage. -/
theorem Tracks.revert (h : Tracks s t garbage trees) {path : Str} {u : Inodes}
    (hu : trees path = some u) :
    ∃ garbage', Tracks (s.revert path (u.1.block u.2)) u garbage'
      (Function.update trees path none) := by
  have hstored : u.blocks + (t.blocks + garbage - u.blocks) = t.blocks + garbage :=
    add_tsub_cancel_of_le (h.le_stored path u hu)
  have hother : ∀ {p v}, Function.update trees path none p = some v → trees p = some v := by
    intro p v hv
    by_cases hp : p = path
    · rw [hp, Function.update_self] at hv
      exact nomatch hv
    · rwa [Function.update_of_ne hp] at hv
  refine ⟨t.blocks + garbage - u.blocks, ⟨rfl, ?_⟩, fun p => ?_, fun p v hv => ?_, fun p v hv => ?_⟩
  · rw [hstored]
    exact h.good.stores.setRoot _
  · by_cases hp : p = path
    · rw [hp, Function.update_self, checkpoints_revert, Function.update_self]
      rfl
    · rw [Function.update_of_ne hp, checkpoints_revert, Function.update_of_ne hp]
      exact h.checkpoints_eq p
  · exact h.requested p v (hother hv)
  · rw [hstored]
    exact h.le_stored p v (hother hv)

/-- Taking a checkpoint records the tree of the state. -/
theorem Tracks.checkpoint (h : Tracks s t garbage trees) (path : Str) :
    Tracks (s.checkpoint path) t garbage (Function.update trees path (some t)) := by
  refine ⟨h.good, fun p => ?_, fun _ _ _ => rfl, fun p u hu => ?_⟩
  · by_cases hp : p = path
    · rw [hp, Function.update_self, checkpoints_checkpoint, Function.update_self,
        h.good.rootBlock_eq]
      rfl
    · rw [Function.update_of_ne hp, checkpoints_checkpoint, Function.update_of_ne hp]
      exact h.checkpoints_eq p
  · by_cases hp : p = path
    · rw [hp, Function.update_self] at hu
      rw [← Option.some.inj hu]
      exact Multiset.le_add_right _ _
    · rw [Function.update_of_ne hp] at hu
      exact h.le_stored p u hu

/-- Taking away a checkpoint that there is not changes nothing. -/
theorem Tracks.update_none (h : Tracks s t garbage trees) {path : Str}
    (hpath : s.checkpoints path = none) : Function.update trees path none = trees := by
  have hnone : trees path = none :=
    Option.map_eq_none_iff.mp ((h.checkpoints_eq path).symm.trans hpath)
  rw [← hnone, Function.update_eq_self]

/-- `rmdir` and `unlink`. -/
theorem Tracks.rmdir (h : Tracks s t garbage trees) {path : Str} {call : Int64 × Call}
    (hexec : exec env unreturned s call = match s.checkpoints path with
      | none => base env s call
      | some revertedRoot => .returned { status := unreturned } (s.revert path revertedRoot))
    (hreverts : Reverts s call.2 ↔ s.checkpoints path ≠ none)
    (hids : ¬ RanOut env unreturned s call) (hspares : Spares s call.2) :
    ∃ t' garbage', Tracks (step env unreturned s call) t' garbage'
      (Function.update trees path none) := by
  rw [step]
  cases hrecorded : s.checkpoints path with
  | none =>
    rw [hrecorded] at hexec hreverts
    rw [RanOut, hexec] at hids
    rw [hexec, h.update_none hrecorded]
    exact h.exec_base hids (hspares fun hreverts' => hreverts.mp hreverts' rfl)
  | some revertedRoot =>
    rw [hrecorded] at hexec
    obtain ⟨u, hu, rfl⟩ := Option.map_eq_some_iff.mp ((h.checkpoints_eq path).symm.trans hrecorded)
    rw [hexec]
    exact ⟨u, h.revert hu⟩

/-- **One careful call.** -/
theorem Tracks.step (h : Tracks s t garbage trees) {call : Int64 × Call}
    (hids : ¬ RanOut env unreturned s call) (hspares : Spares s call.2) :
    ∃ t' garbage', Tracks (step env unreturned s call) t' garbage' (nextTrees t trees call.2) := by
  have hplain : exec env unreturned s call = base env s call → ¬ Reverts s call.2 →
      ∃ t' garbage', Tracks (RevertibleBlockFuse.step env unreturned s call) t' garbage' trees := by
    intro hexec hnot
    rw [RevertibleBlockFuse.step, hexec]
    rw [RanOut, hexec] at hids
    exact h.exec_base hids (hspares hnot)
  obtain ⟨now, call⟩ := call
  cases call with
  | mkdir path mode =>
    by_cases hsentinel : revertDirSentinel <+: path
    · have hexec : exec env unreturned s (now, .mkdir path mode) =
          base env (s.checkpoint path) (now, .mkdir path mode) := if_pos hsentinel
      rw [RevertibleBlockFuse.step, nextTrees, if_pos hsentinel, hexec]
      rw [RanOut, hexec] at hids
      exact (h.checkpoint path).exec_base hids fun inode hinode => nomatch hinode
    · rw [nextTrees, if_neg hsentinel]
      exact hplain (if_neg hsentinel) id
  | rmdir path => exact h.rmdir rfl Iff.rfl hids hspares
  | unlink path => exact h.rmdir rfl Iff.rfl hids hspares
  | getattr path => exact hplain rfl id
  | readdir path filler => exact hplain rfl id
  | read path size offset => exact hplain rfl id
  | write path buffer offset => exact hplain rfl id
  | create path mode => exact hplain rfl id

/-! ## Runs -/

/-- Some trees are those of the state and its checkpoints. -/
def Tracked (s : RevertibleBlockFuse) : Prop := ∃ t garbage trees, Tracks s t garbage trees

/-- The checkpoint at `path` is of the tree `u`. -/
def TrackedWith (path : Str) (u : Inodes) (s : RevertibleBlockFuse) : Prop :=
  ∃ t garbage trees, Tracks s t garbage trees ∧ trees path = some u

theorem tracked_run (env : Env) (unreturned : Int32) (start : Int64)
    {calls : List (Int64 × Call)} (hcareful : Careful env unreturned (new env start) calls) :
    Tracked (calls.foldl (step env unreturned) (new env start)) := by
  refine Run.EveryStep.invariant (I := Tracked) hcareful ?_ fun s call hs hstep => ?_
  · obtain ⟨t, h⟩ := tracks_new env start
    exact ⟨t, 0, _, h⟩
  · obtain ⟨t, garbage, trees, h⟩ := hs
    obtain ⟨t', garbage', h'⟩ := h.step hstep.1 hstep.2
    exact ⟨t', garbage', _, h'⟩

/-- The call takes, or goes back to, the checkpoint at `path`. -/
def Touches (path : Str) : Call → Prop
  | .mkdir p _ | .rmdir p | .unlink p => p = path
  | _ => False

theorem nextTrees_of_not_touches (t : Inodes) (trees : Str → Option Inodes) {path : Str}
    {call : Call} (htouches : ¬ Touches path call) :
    nextTrees t trees call path = trees path := by
  have hupdate : ∀ {p : Str} {o : Option Inodes}, ¬ p = path →
      Function.update trees p o path = trees path :=
        fun hne => Function.update_of_ne (Ne.symm hne) ..
  cases call with
  | mkdir p mode =>
    rw [nextTrees]
    split
    · exact hupdate htouches
    · rfl
  | rmdir p => exact hupdate htouches
  | unlink p => exact hupdate htouches
  | getattr p => rfl
  | readdir p filler => rfl
  | read p size offset => rfl
  | write p buffer offset => rfl
  | create p mode => rfl

/-- A checkpoint keeps its tree while no call touches it. -/
theorem trackedWith_run {path : Str} {u : Inodes} {calls : List (Int64 × Call)}
    (hs : TrackedWith path u s) (hcareful : Careful env unreturned s calls)
    (htouches : ∀ call ∈ calls, ¬ Touches path call.2) :
    TrackedWith path u (calls.foldl (step env unreturned) s) := by
  have huntouched : Run.EveryStep (step env unreturned) (fun _ call => ¬ Touches path call.2) s
      calls := Run.everyStep_of_forall (fun call hcall _ => htouches call hcall) s
  refine (Run.EveryStep.and hcareful huntouched).invariant hs ?_
  rintro s call ⟨t, garbage, trees, h, hu⟩ ⟨⟨hran, hspares⟩, htouches⟩
  obtain ⟨t', garbage', h'⟩ := h.step hran hspares
  have hkept := nextTrees_of_not_touches t trees htouches
  exact ⟨t', garbage', _, h', hkept.trans hu⟩

theorem exec_of_isQuery {call : Int64 × Call} (hquery : call.2.isQuery) :
    exec env unreturned s call = base env s call := by
  obtain ⟨now, call⟩ := call
  cases call with
  | getattr path => rfl
  | readdir path filler => rfl
  | read path size offset => rfl
  | mkdir path mode => exact absurd hquery Bool.false_ne_true
  | rmdir path => exact absurd hquery Bool.false_ne_true
  | unlink path => exact absurd hquery Bool.false_ne_true
  | write path buffer offset => exact absurd hquery Bool.false_ne_true
  | create path mode => exact absurd hquery Bool.false_ne_true

/-- Two states of one tree answer queries alike. -/
theorem result_congr {s' : RevertibleBlockFuse} {garbage' : Multiset Block}
    (h : Good s.fuse t garbage) (h' : Good s'.fuse t garbage') {call : Int64 × Call}
    (hquery : call.2.isQuery) :
    (exec env unreturned s' call).result = (exec env unreturned s call).result := by
  rw [exec_of_isQuery hquery, exec_of_isQuery hquery, base, base, Outcome.result_mapState,
    Outcome.result_mapState, h.exec_of_isQuery env id hquery, h'.exec_of_isQuery env id hquery,
    Outcome.result_of, Outcome.result_of]

/-- Removing the directory of a checkpoint goes back to its tree. -/
theorem Tracks.step_rmdir (h : Tracks s t garbage trees) {path : Str} {u : Inodes}
    (hu : trees path = some u) (now : Int64) :
    RevertibleBlockFuse.step env unreturned s (now, Call.rmdir path) =
      s.revert path (u.1.block u.2) := by
  have hrecorded : s.checkpoints path = some (u.1.block u.2) := by
    rw [h.checkpoints_eq, hu]
    rfl
  rw [RevertibleBlockFuse.step, exec]
  simp only [hrecorded]
  rfl

/-- **A checkpoint is restored.** In a run that clears nothing of a recorded checkpoint, removing
the checkpoint's directory brings back what the file system was before it was made. -/
theorem restored (env : Env) (unreturned : Int32) (start : Int64)
    {before between : List (Int64 × Call)} {c : Str} (hc : revertDirSentinel <+: c)
    (madeAt removedAt : Int64) (mode : UInt32)
    (htouches : ∀ call ∈ between, ¬ Touches c call.2)
    (hcareful : Careful env unreturned (new env start)
      (before ++ (madeAt, Call.mkdir c mode) :: between)) :
    let s := before.foldl (step env unreturned) (new env start)
    let s' := ((madeAt, Call.mkdir c mode) :: between ++ [(removedAt, Call.rmdir c)]).foldl
      (step env unreturned) s
    (∀ call : Int64 × Call, call.2.isQuery →
      (exec env unreturned s' call).result = (exec env unreturned s call).result) ∧
    ∀ id, Reachable s'.fuse id → ∃ b, s'.fuse.manager.map id = some (some b) := by
  intro s s'
  rw [Careful, Run.EveryStep.append_iff] at hcareful
  obtain ⟨hbefore, ⟨hmade, hspares⟩, hbetween⟩ := hcareful
  obtain ⟨t, garbage, trees, h⟩ := tracked_run env unreturned start hbefore
  obtain ⟨t₁, garbage₁, h₁⟩ := h.step hmade hspares
  rw [nextTrees, if_pos hc] at h₁
  obtain ⟨t₂, garbage₂, trees₂, h₂, ht⟩ :=
    trackedWith_run ⟨t₁, garbage₁, _, h₁, Function.update_self ..⟩ hbetween htouches
  have hgood : ∃ garbage', Good s'.fuse t garbage' := by
    obtain ⟨garbage', h'⟩ := h₂.revert ht
    have hs' : s' = _ := List.foldl_append.trans (h₂.step_rmdir ht removedAt)
    rw [hs']
    exact ⟨garbage', h'.good⟩
  obtain ⟨garbage', hgood'⟩ := hgood
  refine ⟨fun call hquery => result_congr h.good hgood' hquery, fun id hid => ?_⟩
  obtain ⟨b, hb, rfl⟩ :=
    Multiset.mem_map.mp (hgood'.stores.mem_of_reachable hgood'.rootBlock_eq hid)
  exact ⟨b, hgood'.stores.holds.get b (Multiset.mem_of_le (Multiset.le_add_right _ _) hb)⟩

/-! ## A checkpoint restored, and one that is not -/

open BlockFuse (plainEnv below)

/-- The run has a checkpoint only of blocks that no call clears: all it clears are inodes without
children. -/
theorem careful_of_childless {calls : List (Int64 × Call)}
    (h : Run.EveryStep (step env unreturned) (fun s call =>
      (exec env unreturned s call).result ≠ .error exhausted ∧
        ((clearedInode s.fuse call.2).all fun inode => inode.children.isEmpty) = true) s calls) :
    Careful env unreturned s calls := by
  refine h.imp fun s call hcall => ⟨hcall.1, fun _ inode hinode id hbelow => ?_⟩
  have hempty := hcall.2
  rw [hinode, Option.all_some, List.isEmpty_iff] at hempty
  exact absurd hbelow (BlockFuse.not_below_of_childless hempty id)

/-- A file is made and written. -/
def fileMade : List (Int64 × Call) :=
  [(0, .create (below 0x61) 0o100644), (1, .write (below 0x61) [1] 0)]

/-- A checkpoint's path. -/
abbrev checkpointAt (x : UInt8) : Str := revertDirSentinel ++ [x]

/-- Another file is made and written, and another checkpoint taken and gone back to. -/
def otherChanges : List (Int64 × Call) :=
  [(3, .create (below 0x62) 0o100644), (4, .write (below 0x62) [2] 0),
    (5, .mkdir (checkpointAt 0x32) 0o755), (6, .mkdir (below 0x63) 0o755),
    (7, .rmdir (checkpointAt 0x32)), (8, .rmdir (below 0x62 ++ [0x78]))]

/-- A file that was there before the checkpoint reads as it did, and the other is gone. -/
theorem restored_otherChanges :
    let s := fileMade.foldl (step plainEnv 0) (new plainEnv 0)
    let s' := ((2, Call.mkdir (checkpointAt 0x31) 0o755) :: otherChanges ++
      [(9, Call.rmdir (checkpointAt 0x31))]).foldl (step plainEnv 0) s
    (exec plainEnv 0 s' (10, .read (below 0x61) 100 0)).result =
      .ok { status := 1, bytes := [1] } := by
  intro s s'
  have htouches : ∀ call ∈ otherChanges, ¬ Touches (checkpointAt 0x31) call.2 := by
    simp [otherChanges, Touches, checkpointAt, below, revertDirSentinel]
  have hcareful : Careful plainEnv 0 (new plainEnv 0)
      (fileMade ++ (2, Call.mkdir (checkpointAt 0x31) 0o755) :: otherChanges) :=
    careful_of_childless (by decide +kernel)
  have hsame := (restored plainEnv 0 0 (List.prefix_append _ _) 2 9 0o755 htouches hcareful).1
    (10, .read (below 0x61) 100 0) rfl
  have hbefore : (exec plainEnv 0 s (10, .read (below 0x61) 100 0)).result =
      .ok { status := 1, bytes := [1] } := by decide +kernel
  exact hsame.trans hbefore

/-- **A checkpoint is not restored** if a file it has is written: the write frees the file's
contents, and a read after the revert follows a null pointer. -/
theorem not_restored_of_write :
    let s := fileMade.foldl (step plainEnv 0) (new plainEnv 0)
    let made := exec plainEnv 0 s (2, .mkdir (checkpointAt 0x31) 0o755)
    let s' := ([(3, Call.write (below 0x61) [2] 0), (4, Call.rmdir (checkpointAt 0x31))]).foldl
      (step plainEnv 0) made.state
    made.result = .ok { status := 0 } ∧
    (exec plainEnv 0 s (5, .read (below 0x61) 100 0)).result =
      .ok { status := 1, bytes := [1] } ∧
    (exec plainEnv 0 s' (5, .read (below 0x61) 100 0)).result = .error .nullDereference := by
  decide +kernel

end RevertibleBlockFuse

end Pingfs
