import Pingfs.Fs.Namespace
import Pingfs.Fs.Rebuild

/-!
# The blocks implement the namespace

`Good s t garbage` relates a state of the file system to a tree of inodes: the root block is the
tree's, and the manager holds the blocks of the tree and, when frees are suppressed, some garbage.
Forgetting ids and blocks, such a tree is a namespace (`entries`), and a call refines what
`Namespace` says of it when it gives the same reply and ends in a state of the same namespace,
unless the ids run out.

## Main results

* `good_new` — a new file system is an empty directory
* `Good.exec_of_isQuery` — `getattr`, `readdir` and `read` give what the namespace gives
-/

namespace Pingfs

open Zipper

/-- What is seen of an inode. -/
def Node.entry (a : Node) : Entry := ⟨a.name, a.stat, a.data.contents⟩

/-- A tree of inodes: the root and the inodes below it. -/
abbrev Inodes := Node × Forest Node

namespace Inodes

/-- All blocks of the tree. -/
abbrev blocks (t : Inodes) : Multiset Block := t.1.tree t.2

/-- The tree as a namespace. -/
def entries (t : Inodes) : Namespace := (t.1.entry, t.2.map Node.entry)

/-- The inode a path leads to, with the way to it. -/
def resolve (t : Inodes) (path : Str) : Option (Zipper Node) := BlockFuse.resolve t.1 t.2 path

theorem resolve_entries (t : Inodes) (path : Str) :
    t.entries.resolve path = (t.resolve path).map (Zipper.map Node.entry) :=
  descend_map (show ∀ a : Node, a.entry.name = a.name from fun _ => rfl) (top t.1 t.2) _

theorem plug_resolve {t : Inodes} {path : Str} {z : Zipper Node} (h : t.resolve path = some z) :
    plug z.frames z.label z.kids = t := plug_descend h

theorem entries_graft (fs : List (Frame Node)) (a : Node) (kids : Forest Node) (i : ℕ) :
    entries (graft Node.relabel fs a kids i) =
      Namespace.rebuild (fs.map (mapFrame Node.entry)) a.entry (kids.map Node.entry) := by
  rw [Namespace.rebuild, graft_id _ _ _ 0 i]
  have hrelabel : ∀ i (a : Node), (a.relabel i).entry = id a.entry := fun _ _ => rfl
  exact (graft_map hrelabel fs a kids i).symm

end Inodes

namespace BlockFuse

open FsM BlockUtil

variable {s s' : BlockFuse} {t : Inodes} {garbage : Multiset Block} {k : Bool}

/-- The root is that of the tree `t`, and exactly the blocks of `t` and `garbage` are stored. -/
structure Good (s : BlockFuse) (t : Inodes) (garbage : Multiset Block) : Prop where
  rootBlock_eq : s.rootBlock = t.1.block t.2
  stores : Stores s (t.blocks + garbage)

/-- A new file system is a root directory without entries. -/
theorem good_new (env : Env) (now : Int64) : Good (new env now)
    (⟨1, FsUtil.separator, ⟨⟨.readWriteExecute, .readExecute, .execute, .dir⟩, env.uid, env.gid, 0,
      now, now, now⟩, .nil⟩, .nil) 0 := by
  refine ⟨rfl, ?_⟩
  have hempty : Heap.Holds Block.id some (fun _ => none) (0 : Multiset Block) := Heap.Holds.empty
  have hone := hempty.insert (b := (new env now).rootBlock) (by simp)
  refine ⟨hone, fun b hb => ?_⟩
  obtain rfl := Multiset.mem_singleton.mp hb
  exact Nat.le_refl 1

/-! ## Looking up -/

theorem Good.run_getPath_of_lt (h : Good s t garbage) {path : Str} (hpath : path ≠ []) {fuel : ℕ}
    (hfuel : t.blocks.card + 1 < fuel) :
    (getPath fuel path).run (handler k) s =
      .returned (((t.resolve path).map pathBlocks).getD []) s :=
  h.stores.run_getPath h.rootBlock_eq (Multiset.le_add_right _ _) hpath hfuel

theorem Good.card_blocks_lt_fuel (h : Good s t garbage) : t.blocks.card + 2 < s.fuel := by
  have hcard := h.stores.card_le
  rw [Multiset.card_add] at hcard
  unfold fuel
  omega

theorem Good.run_getPath (h : Good s t garbage) {path : Str} (hpath : path ≠ []) :
    (getPath s.fuel path).run (handler k) s =
      .returned (((t.resolve path).map pathBlocks).getD []) s :=
  h.run_getPath_of_lt hpath (Nat.lt_of_succ_lt h.card_blocks_lt_fuel)

/-- The blocks of a subtree are stored. -/
theorem Good.tree_le (h : Good s t garbage) {z : Zipper Node}
    (hz : plug z.frames z.label z.kids = t) : z.label.tree z.kids ≤ t.blocks + garbage := by
  subst hz
  exact (tree_le_plug z).trans (Multiset.le_add_right _ _)

theorem Good.card_tree_lt_fuel (h : Good s t garbage) {z : Zipper Node}
    (hz : plug z.frames z.label z.kids = t) : (z.label.tree z.kids).card + 1 < s.fuel := by
  have hcard := (Multiset.card_le_card (h.tree_le hz)).trans h.stores.card_le
  unfold fuel
  omega

theorem Good.chainOk (h : Good s t garbage) {z : Zipper Node}
    (hz : plug z.frames z.label z.kids = t) : ChainOk z.frames z.label.id := by
  subst hz
  exact chainOk_of_nodup (h.stores.nodup_of_le (Multiset.le_add_right _ _))

/-! ## What a call leads to -/

/-- The call ends at the namespace `n`. The garbage grows only when frees are suppressed, and then
nothing that was stored is gone but `freed`. -/
def Lands (k : Bool) (t : Inodes) (garbage freed : Multiset Block) (n : Namespace)
    (s' : BlockFuse) : Prop :=
  ∃ t' garbage', Good s' t' garbage' ∧ t'.entries = n ∧
    if k then t.blocks + garbage ≤ t'.blocks + garbage' + freed else garbage' = garbage

/-- The outcome is what `result` says, unless the ids ran out. -/
def Refines (k : Bool) (t : Inodes) (garbage freed : Multiset Block) (result : Namespace.Result)
    (o : Outcome Halt BlockFuse Reply) : Prop :=
  o.Meets (fun reply s' => result.1 = .ok reply ∧ Lands k t garbage freed result.2 s')
    (fun e s' => e = exhausted ∨ result.1 = .error e ∧ Lands k t garbage freed result.2 s')

theorem Good.lands (h : Good s t garbage) (freed : Multiset Block) :
    Lands k t garbage freed t.entries s := by
  refine ⟨t, garbage, h, rfl, ?_⟩
  cases k with
  | false => rfl
  | true => exact Multiset.le_add_right _ _

/-- A call that changes nothing. -/
theorem Good.refines_of_ok (h : Good s t garbage) {freed : Multiset Block} (reply : Reply) :
    Refines k t garbage freed (.ok reply, t.entries) (.returned reply s) := ⟨rfl, h.lands freed⟩

theorem Good.refines_of_error (h : Good s t garbage) {freed : Multiset Block} (e : Halt) :
    Refines k t garbage freed (.error e, t.entries) (.halted e s) := Or.inr ⟨rfl, h.lands freed⟩

/-! ## Queries -/

theorem Good.run_getattr (h : Good s t garbage) (env : Env) {path : Str} (hpath : path ≠ []) :
    (getattr env s.fuel path).run (handler k) s =
      .returned (match t.resolve path with
        | none => (noSuchFileOrDir, none)
        | some z => (0, some (statBuf env z.label.stat))) s := by
  rw [getattr, resolveInode]
  simp only [Program.run_bind, h.run_getPath hpath, Outcome.bind_returned]
  cases t.resolve path with
  | none => rfl
  | some z => simp [getLast?_pathBlocks, assertSome]

/-- `getattr` gives what the namespace does, and changes nothing. -/
theorem Good.exec_getattr (h : Good s t garbage) (env : Env) (now : Int64) {path : Str}
    (hpath : path ≠ []) :
    exec env k s (now, .getattr path) = .of (t.entries.getattr env path).1 s := by
  rw [exec, program, Program.run_bind, h.run_getattr env hpath, Namespace.getattr,
    t.resolve_entries]
  cases t.resolve path <;> rfl

theorem map_rootFiles (env : Env) (kids : Forest Node) :
    ((rootFiles kids).map fun child => ((child.name, some (statBuf env child.stat)) : DirEntry)) =
      (kids.map Node.entry).roots.map fun e => (e.name, some (statBuf env e.stat)) := by
  induction kids with
  | nil => rfl
  | cons a akids rest _ ih => simp [rootFiles, ih, Node.entry]

/-- `readdir` gives what the namespace does, and changes nothing. -/
theorem Good.exec_readdir (h : Good s t garbage) (env : Env) (now : Int64) {path : Str}
    (hpath : path ≠ []) (filler : Filler) :
    exec env k s (now, .readdir path filler) = .of (t.entries.readdir env path filler).1 s := by
  simp only [exec, program, readdir, Program.run_bind, h.run_getPath hpath, Outcome.bind_returned,
    Namespace.readdir, t.resolve_entries]
  cases hz : t.resolve path with
  | none => rfl
  | some z =>
    have hplug := Inodes.plug_resolve hz
    have hfuel := h.card_tree_lt_fuel hplug
    have hheight := Node.height_data_lt z.label z.kids
    have hfiles := h.stores.run_getDirFiles (k := k) (h.tree_le hplug)
      (show z.label.data.height + 1 < s.fuel by omega)
    simp only [Option.map_some, Option.getD_some, getLast?_pathBlocks, Node.tryCastDirFile_block,
      Namespace.listing, Zipper.map, Node.entry, ← map_rootFiles]
    -- the filler stops the call after either of the first two entries
    split
    · rfl
    split
    · rfl
    · rw [Program.run_bind, hfiles]
      rfl

/-- `read` gives what the namespace does, and changes nothing. -/
theorem Good.exec_read (h : Good s t garbage) (env : Env) (now : Int64) {path : Str}
    (hpath : path ≠ []) (size : UInt64) (offset : Int64) :
    exec env k s (now, .read path size offset) = .of (t.entries.read path size offset).1 s := by
  simp only [exec, program, read, Program.run_bind, h.run_getPath hpath, Outcome.bind_returned,
    Namespace.read, t.resolve_entries]
  cases hz : t.resolve path with
  | none => rfl
  | some z =>
    simp only [Option.map_some, Option.getD_some, getLast?_pathBlocks, Node.tryCastDirFile_block,
      DirFileBlockData.isDir]
    by_cases hdir : z.label.stat.isDir = true
    · simp only [Zipper.map, Node.entry, hdir, if_true]
      rfl
    · have hplug := Inodes.plug_resolve hz
      have hfuel := h.card_tree_lt_fuel hplug
      have hheight := Node.height_data_lt z.label z.kids
      have hread := h.stores.run_readFileContents (k := k) (h.tree_le hplug)
        (Bool.not_eq_true _ ▸ hdir) (show z.label.data.height < s.fuel by omega)
      simp only [Zipper.map, Node.entry, hdir, Bool.false_eq_true, if_false, Program.run_bind,
        hread, Outcome.bind_returned]
      cases copyContents z.label.data.contents size offset <;> rfl

/-- No call gets anywhere with the empty path. -/
theorem exec_of_path_eq_nil (env : Env) (s : BlockFuse) {call : Int64 × Call}
    (hpath : call.2.path = []) :
    exec env k s call = .halted (.threw "std::out_of_range") s := by
  obtain ⟨now, call⟩ := call
  cases call <;> obtain rfl : _ = [] := hpath <;> rfl

/-- **A query** gives what the namespace does, and changes nothing. -/
theorem Good.exec_of_isQuery (h : Good s t garbage) (env : Env) (stored : Bytes → Bytes)
    {call : Int64 × Call} (hquery : call.2.isQuery) :
    exec env k s call = .of (t.entries.exec env stored call).1 s := by
  by_cases hpath : call.2.path = []
  · rw [exec_of_path_eq_nil env s hpath, Namespace.exec, if_pos hpath]
    rfl
  obtain ⟨now, call⟩ := call
  rw [Namespace.exec, if_neg hpath]
  cases call with
  | getattr path => exact h.exec_getattr env now hpath
  | readdir path filler => exact h.exec_readdir env now hpath filler
  | read path size offset => exact h.exec_read env now hpath size offset
  | mkdir path mode => exact absurd hquery Bool.false_ne_true
  | rmdir path => exact absurd hquery Bool.false_ne_true
  | unlink path => exact absurd hquery Bool.false_ne_true
  | write path buffer offset => exact absurd hquery Bool.false_ne_true
  | create path mode => exact absurd hquery Bool.false_ne_true

theorem Good.refines_of_isQuery (h : Good s t garbage) (env : Env) (stored : Bytes → Bytes)
    {call : Int64 × Call} (hquery : call.2.isQuery) {freed : Multiset Block} :
    Refines k t garbage freed (t.entries.exec env stored call) (exec env k s call) := by
  have hsame := t.entries.exec_of_isQuery env stored hquery
  rw [h.exec_of_isQuery env stored hquery]
  generalize t.entries.exec env stored call = result at hsame
  obtain ⟨r, n⟩ := result
  obtain rfl : n = t.entries := hsame
  cases r with
  | ok reply => exact h.refines_of_ok reply
  | error e => exact h.refines_of_error e

end BlockFuse

end Pingfs
