import Pingfs.Fs.Refinement

/-!
# Changes refine the namespace

`mkdir`, `create`, `rmdir` and `write` each end by rebuilding the path to an inode over new
children. In terms of trees that is a graft, and the namespace of the grafted tree is the one the
call should lead to.

## Main results

* `Good.mkdir_meets`, `Good.create_meets`, `Good.rmdir_meets`, `Good.write_meets` — the tree after
  a change that is made
* `Good.exec_refines` — every call refines `Namespace.exec` with `storedContents`
-/

namespace Pingfs

open Zipper

/-! ## Changed trees

Each is what becomes of a tree when `used` ids were handed out before the rebuilding. -/

namespace Inodes

/-- A new inode at the end of the directory at `z`. It takes the first new id. -/
def addAt (z : Zipper Node) (used : ℕ) (name : Str) (stat : Stat) : Inodes :=
  graft Node.relabel z.frames (z.label.relabel (used + 2))
    (z.kids ++ Forest.tree ⟨.ofNat (used + 1), name, stat, .nil⟩ .nil) (used + 3)

/-- No inode between those before and after in the frame `f`. -/
def removeAt (f : Frame Node) (fs : List (Frame Node)) (used : ℕ) : Inodes :=
  graft Node.relabel fs (f.label.relabel (used + 1)) (f.before ++ f.after) (used + 2)

/-- Another stat and other data for the inode at `z`, and nothing else below it. -/
def rewriteAt (z : Zipper Node) (used : ℕ) (stat : Stat) (data : DataForest) : Inodes :=
  graft Node.relabel z.frames ⟨.ofNat (used + 1), z.label.name, stat, data⟩ .nil (used + 2)

theorem entries_addAt (z : Zipper Node) (used : ℕ) (name : Str) (stat : Stat) :
    (addAt z used name stat).entries = Namespace.add (z.map Node.entry) ⟨name, stat, []⟩ := by
  rw [addAt, entries_graft]
  simp [Namespace.add, Zipper.map, Node.entry, Node.relabel, DataForest.contents]

theorem entries_removeAt (f : Frame Node) (fs : List (Frame Node)) (used : ℕ) :
    (removeAt f fs used).entries = Namespace.rebuild (fs.map (mapFrame Node.entry)) f.label.entry
      (f.before.map Node.entry ++ f.after.map Node.entry) := by
  rw [removeAt, entries_graft, Forest.map_append]
  rfl

theorem entries_rewriteAt (z : Zipper Node) (used : ℕ) (stat : Stat) (data : DataForest) :
    (rewriteAt z used stat data).entries = Namespace.rebuild (z.frames.map (mapFrame Node.entry))
      ⟨z.label.name, stat, data.contents⟩ .nil := by
  rw [rewriteAt, entries_graft]
  rfl

end Inodes

namespace BlockFuse

open FsM BlockUtil

variable {s s' : BlockFuse} {t : Inodes} {garbage : Multiset Block} {k : Bool}

/-! ## Changes -/

/-- The blocks of a tree by one of its places: the path to it, what is below it, and what is
beside the path. -/
theorem blocks_eq_path {z : Zipper Node} (hz : plug z.frames z.label z.kids = t) :
    t.blocks = pathBlocks z + (z.label.below z.kids + beside z.frames) := by
  rw [← hz, Inodes.blocks, tree_plug, Node.tree, pathBlocks, Multiset.coe_reverse,
    ← Multiset.cons_coe, Multiset.cons_add, Multiset.cons_add]
  congr 1
  ac_rfl

theorem length_pathBlocks (z : Zipper Node) : (pathBlocks z).length = z.frames.length + 1 := by
  have hchain : ∀ (fs : List (Frame Node)) (child : BlockId),
      (chain fs child).length = fs.length := by
    intro fs
    induction fs with
    | nil => exact fun _ => rfl
    | cons f fs ih => exact fun child => by rw [chain, List.length_cons, ih, List.length_cons]
  rw [pathBlocks, List.length_reverse, List.length_cons, hchain]

/-- `replaceRoot_meets` in terms of trees. `extra` is not part of the new tree. -/
theorem Stores.replaceRoot_good {old : List Block} {extra : Multiset Block} {a : Node}
    {kids : Forest Node} {fs : List (Frame Node)}
    (hs : Stores s (old + (a.below kids + beside fs + extra))) {b : Block}
    {dirFile : DirFileBlockData} (hb : b.data = .dirFile dirFile)
    {childrenToRemove childrenToAdd kept : List BlockId}
    (hkept : removeIds dirFile.children childrenToRemove = .ok kept)
    (hid : a.id = .ofNat (s.idsUsed + 1)) (hname : a.name = dirFile.name)
    (hstat : a.stat = dirFile.stat)
    (hchildren : a.data.rootIds ++ Node.rootIds kids = kept ++ childrenToAdd)
    (hok : ChainOk fs b.id) :
    ((replaceRoot old (b :: chain fs b.id) childrenToRemove childrenToAdd).run (handler k) s).Meets
      (fun _ s' =>
        Good s' (graft Node.relabel fs a kids (s.idsUsed + 2)) (extra + if k then ↑old else 0) ∧
          s'.idsUsed = s.idsUsed + (fs.length + 1))
      (OutOfIds s (old + (a.below kids + beside fs + extra)) (fs.length + 1)) := by
  refine (hs.replaceRoot_meets hb hkept hid hname hstat hchildren hok).imp ?_ fun _ _ h => h
  rintro _ s' ⟨hroot, hstores, hused⟩
  refine ⟨⟨hroot, ?_⟩, hused⟩
  rw [Inodes.blocks, tree_graft, Node.tree, ← Multiset.singleton_add]
  convert hstores using 1
  ac_rfl

/-- A rebuilt path leaves what is below its end and beside it where it was. -/
theorem below_add_beside_le (fs : List (Frame Node)) (a : Node) (kids : Forest Node) (i : ℕ) :
    a.below kids + beside fs ≤ Inodes.blocks (graft Node.relabel fs a kids i) := by
  rw [Inodes.blocks, tree_graft, Node.tree, Multiset.le_iff_exists_add]
  refine ⟨{a.block kids} + rebuilt fs a.id i, ?_⟩
  rw [← Multiset.singleton_add]
  ac_rfl

/-- A rebuilt tree is where a call lands if the old tree was the rebuilt path, what is kept, and
what was freed. -/
theorem Good.lands_graft {fs : List (Frame Node)} {a : Node} {kids : Forest Node} {i : ℕ}
    {old : List Block} {freed : Multiset Block}
    (h : Good s' (graft Node.relabel fs a kids i) (garbage + if k then ↑old else 0))
    (hkept : t.blocks ≤ a.below kids + beside fs + old + freed) {n : Namespace}
    (hn : Inodes.entries (graft Node.relabel fs a kids i) = n) : Lands k t garbage freed n s' := by
  refine ⟨_, _, h, hn, ?_⟩
  cases k with
  | false => simp
  | true =>
    simp only [if_true]
    calc t.blocks + garbage ≤ a.below kids + beside fs + old + freed + garbage :=
          Multiset.add_le_add_right hkept
      _ = a.below kids + beside fs + (garbage + old + freed) := by ac_rfl
      _ ≤ Inodes.blocks (graft Node.relabel fs a kids i) + (garbage + old + freed) :=
          Multiset.add_le_add_right (below_add_beside_le fs a kids i)
      _ = _ := by ac_rfl

/-- **A new inode.** What `mkdir` and `create` do once they know the directory. -/
theorem Good.addInode_meets (h : Good s t garbage) {z : Zipper Node}
    (hz : plug z.frames z.label z.kids = t) (name : Str) (stat : Stat) :
    (((createBlock (.dirFile ⟨name, stat, []⟩)).run (handler k) s).bind fun new s =>
      (replaceRoot (pathBlocks z) (pathBlocks z).reverse [] [new.id]).run (handler k) s).Meets
      (fun _ s' => Good s' (Inodes.addAt z s.idsUsed name stat)
          (garbage + if k then ↑(pathBlocks z) else 0) ∧
        s'.idsUsed = s.idsUsed + (z.frames.length + 2))
      (OutOfIds s (t.blocks + garbage) (z.frames.length + 2)) := by
  refine (h.stores.createBlock_meets _).bind (fun e s' h => h.mono (by omega)) ?_
  rintro new s₁ ⟨rfl, hgrown⟩
  have hused : s₁.idsUsed = s.idsUsed + 1 := by simpa using hgrown.idsUsed_eq
  let child : Node := ⟨.ofNat (s.idsUsed + 1), name, stat, .nil⟩
  let a : Node := z.label.relabel (s.idsUsed + 2)
  have hstored : (pathBlocks z : Multiset Block) +
      (a.below (z.kids ++ Forest.tree child .nil) + beside z.frames + garbage) =
      {child.block .nil} + (t.blocks + garbage) := by
    rw [blocks_eq_path hz, Node.below, Node.below, Node.blocks_append]
    simp only [Node.blocks_cons, Node.blocks_nil, Node.tree, Node.below, child, a, Node.relabel,
      DataForest.blocks, ← Multiset.singleton_add, add_zero]
    ac_rfl
  have hstores : Stores s₁ (pathBlocks z +
      (a.below (z.kids ++ Forest.tree child .nil) + beside z.frames + garbage)) := by
    rw [hstored]
    exact hgrown.stores
  have hid : a.id = .ofNat (s₁.idsUsed + 1) := by
    rw [hused]
    rfl
  have hmeets := hstores.replaceRoot_good (k := k) (b := z.label.block z.kids) rfl
    (show removeIds _ [] = .ok (z.label.data.rootIds ++ Node.rootIds z.kids) from rfl) hid rfl rfl
    (show _ = _ ++ [child.id] by simp [a, Node.relabel]) (h.chainOk hz)
  rw [pathBlocks, List.reverse_reverse, ← pathBlocks]
  refine hmeets.imp ?_ fun e s' hout => ?_
  · rintro _ s' ⟨hgood, hused'⟩
    rw [hused] at hgood
    exact ⟨hgood, by omega⟩
  · rw [hstored] at hout
    exact (OutOfIds.after hgrown hout).mono (by simp; omega)

theorem card_blocks_addAt {z : Zipper Node} (hz : plug z.frames z.label z.kids = t) (used : ℕ)
    (name : Str) (stat : Stat) :
    (Inodes.addAt z used name stat).blocks.card = t.blocks.card + 1 := by
  rw [Inodes.addAt, Inodes.blocks, tree_graft, Node.tree, blocks_eq_path hz]
  simp only [Node.below, Node.blocks_append, Node.blocks_cons, Node.blocks_nil, Node.tree,
    Node.relabel, DataForest.blocks, Multiset.card_add, Multiset.card_cons, Multiset.coe_card,
    length_rebuilt, length_pathBlocks, Multiset.card_zero]
  omega

/-- After a new inode was made at `z`. -/
theorem Good.lands_addAt {z : Zipper Node} (hz : plug z.frames z.label z.kids = t) {used : ℕ}
    {name : Str} {stat : Stat}
    (h : Good s' (Inodes.addAt z used name stat) (garbage + if k then ↑(pathBlocks z) else 0)) :
    Lands k t garbage 0 (Namespace.add (z.map Node.entry) ⟨name, stat, []⟩) s' := by
  refine h.lands_graft ?_ (Inodes.entries_addAt z used name stat)
  rw [blocks_eq_path hz, Multiset.le_iff_exists_add]
  refine ⟨Node.blocks (Forest.tree ⟨.ofNat (used + 1), name, stat, .nil⟩ .nil), ?_⟩
  simp only [Node.below, Node.blocks_append, Node.relabel, add_zero]
  ac_rfl

/-! ### mkdir -/

theorem Good.run_mkdirValid (h : Good s t garbage) (env : Env) {path : Str} (hpath : path ≠ []) :
    (mkdirValid env s.fuel path).run (handler k) s =
      .returned (match t.resolve path, t.resolve (FsUtil.parentPath path) with
        | none, some z => some (pathBlocks z, Namespace.baseName path)
        | _, _ => none) s := by
  simp only [mkdirValid, FsUtil.separatePath_eq hpath, Program.run_bind, Program.run_ofExcept_ok,
    Outcome.bind_returned]
  by_cases hroot : FsUtil.names path = []
  · have htop : t.resolve path = some (top t.1 t.2) := by
      rw [Inodes.resolve, resolve, hroot, descend_nil]
    simp [hroot, htop]
  · have hlast : (FsUtil.separator :: FsUtil.names path).getLast? =
        (FsUtil.names path).getLast? := by
      obtain ⟨name, names, hnames⟩ := List.exists_cons_of_ne_nil hroot
      rw [hnames, List.getLast?_cons_cons]
    have hlength : ¬ (FsUtil.separator :: FsUtil.names path).length ≤ 1 := by
      simpa using hroot
    rw [if_neg hlength, Program.run_bind, h.run_getattr env hpath, Outcome.bind_returned]
    cases t.resolve path with
    | some z => simp
    | none =>
      have hstatus : noSuchFileOrDir ≠ 0 := by decide
      simp only [hstatus, if_false, FsUtil.join_dropLast path hroot, Program.run_bind,
        Program.run_ofExcept_ok, Outcome.bind_returned, hlast,
        h.run_getPath (FsUtil.parentPath_ne_nil path)]
      cases t.resolve (FsUtil.parentPath path) with
      | none => rfl
      | some z => simp [getLast?_pathBlocks, Namespace.baseName]

/-- `mkdir` of an absent path below an inode. -/
theorem Good.mkdir_meets (h : Good s t garbage) (env : Env) (now : Int64) {path : Str}
    (hpath : path ≠ []) (hnone : t.resolve path = none) {z : Zipper Node}
    (hparent : t.resolve (FsUtil.parentPath path) = some z) {bits : ModeT} {mode : Mode}
    (hmode : Mode.ofModeT (bits ||| S_IFDIR) = .ok mode) :
    ((mkdir env s.fuel now path bits).run (handler k) s).Meets
      (fun status s' => status = 0 ∧
        Good s' (Inodes.addAt z s.idsUsed (Namespace.baseName path)
          ⟨mode, env.uid, env.gid, 1, now, now, now⟩) (garbage + if k then ↑(pathBlocks z) else 0) ∧
        s'.idsUsed = s.idsUsed + (z.frames.length + 2))
      (OutOfIds s (t.blocks + garbage) (z.frames.length + 2)) := by
  simp only [mkdir, Program.run_bind, h.run_mkdirValid env hpath, hnone, hparent,
    Outcome.bind_returned, hmode, ofThrowing, Except.mapError, Program.run_ofExcept_ok]
  rw [← Outcome.bind_assoc]
  refine (h.addInode_meets (Inodes.plug_resolve hparent) _ _).bind (fun _ _ h => h) ?_
  rintro _ s' ⟨hgood, hused⟩
  exact ⟨rfl, hgood, hused⟩

/-- `mkdir` of anything else. -/
theorem Good.run_mkdir_fails (h : Good s t garbage) (env : Env) (now : Int64) {path : Str}
    (hpath : path ≠ [])
    (hfails : t.resolve path ≠ none ∨ t.resolve (FsUtil.parentPath path) = none) (bits : ModeT) :
    (mkdir env s.fuel now path bits).run (handler k) s = .returned 1 s := by
  simp only [mkdir, Program.run_bind, h.run_mkdirValid env hpath]
  cases hz : t.resolve path with
  | some z => rfl
  | none => rw [hfails.resolve_left (fun hne => hne hz)]; rfl

theorem Good.mkdir_refines (h : Good s t garbage) (env : Env) (now : Int64) {path : Str}
    (hpath : path ≠ []) (bits : ModeT) :
    Refines k t garbage 0 (t.entries.mkdir env now path bits) ((do
      let status ← mkdir env s.fuel now path bits
      return { status : Reply }).run (handler k) s) := by
  rw [Program.run_bind, Namespace.mkdir, t.resolve_entries, t.resolve_entries]
  cases hz : t.resolve path with
  | some z =>
    rw [h.run_mkdir_fails env now hpath (Or.inl (by simp [hz])), Outcome.bind_returned]
    exact h.refines_of_ok _
  | none =>
    cases hparent : t.resolve (FsUtil.parentPath path) with
    | none =>
      rw [h.run_mkdir_fails env now hpath (Or.inr hparent), Outcome.bind_returned]
      exact h.refines_of_ok _
    | some z =>
      have hmode := Mode.ofModeT_or_dir bits
      have hmeets := h.mkdir_meets (k := k) env now hpath hz hparent hmode
      simp only [Option.map_none, Option.map_some, hmode]
      exact hmeets.bind (fun _ _ h => Or.inl h.threw) fun _ _ ⟨hstatus, hgood, _⟩ =>
        ⟨by rw [hstatus], hgood.lands_addAt (Inodes.plug_resolve hparent)⟩

/-! ### create -/

theorem isEmpty_pathBlocks (z : Option (Zipper Node)) :
    ((z.map pathBlocks).getD []).isEmpty = z.isNone := by
  cases z with
  | none => rfl
  | some z => simp [pathBlocks]

theorem names_ne_nil_of_resolve {path : Str} (hnone : t.resolve path = none) :
    FsUtil.names path ≠ [] := by
  intro hroot
  rw [Inodes.resolve, resolve, hroot, descend_nil] at hnone
  exact nomatch hnone

/-- `create` of an absent path below an inode. Its last step looks for the file it has made. -/
theorem Good.create_meets (h : Good s t garbage) (env : Env) (now : Int64) {path : Str}
    (hpath : path ≠ []) (hnone : t.resolve path = none) {z : Zipper Node}
    (hparent : t.resolve (FsUtil.parentPath path) = some z) {bits : ModeT} {mode : Mode}
    (hmode : Mode.ofModeT bits = .ok mode) :
    let t' := Inodes.addAt z s.idsUsed (Namespace.baseName path) (genFileStat env now mode 0)
    let garbage' := garbage + if k then ↑(pathBlocks z) else 0
    ((create env s.fuel now path bits).run (handler k) s).Meets
      (fun status s' => status = 0 ∧ (t'.resolve path).isSome ∧ Good s' t' garbage' ∧
        s'.idsUsed = s.idsUsed + (z.frames.length + 2))
      (fun e s' => OutOfIds s (t.blocks + garbage) (z.frames.length + 2) e s' ∨
        e = .assertionFailed ∧ t'.resolve path = none ∧ Good s' t' garbage' ∧
          s'.idsUsed = s.idsUsed + (z.frames.length + 2)) := by
  intro t' garbage'
  have hplug := Inodes.plug_resolve hparent
  have hroot := names_ne_nil_of_resolve hnone
  have hlast : (FsUtil.separator :: FsUtil.names path).getLast? = (FsUtil.names path).getLast? := by
    obtain ⟨name, names, hnames⟩ := List.exists_cons_of_ne_nil hroot
    rw [hnames, List.getLast?_cons_cons]
  simp only [create, createFileBlock, Program.run_bind, h.run_getPath hpath, hnone,
    Option.map_none, Option.getD_none, List.isEmpty_nil, Bool.not_true, Bool.false_eq_true,
    if_false, hmode, ofThrowing, Except.mapError, Outcome.bind_returned,
    FsUtil.separatePath_eq hpath, Program.run_ofExcept_ok, FsUtil.join_dropLast path hroot,
    h.run_getPath (FsUtil.parentPath_ne_nil path), isEmpty_pathBlocks, hparent,
    Option.isNone_some, hlast]
  rw [← Outcome.bind_assoc, Outcome.bind_assoc]
  refine (h.addInode_meets hplug _ _).bind (fun _ _ h => Or.inl h) ?_
  rintro _ s' ⟨hgood, hused⟩
  have hfuel := h.card_blocks_lt_fuel
  have hcard : t'.blocks.card = t.blocks.card + 1 := card_blocks_addAt hplug _ _ _
  have hgood : Good s' t' garbage' := hgood
  rw [hgood.run_getPath_of_lt hpath (show t'.blocks.card + 1 < s.fuel by omega),
    Outcome.bind_returned, isEmpty_pathBlocks, assert]
  cases hresolve : t'.resolve path with
  | none => exact Or.inr ⟨rfl, rfl, hgood, hused⟩
  | some y => exact ⟨rfl, rfl, hgood, hused⟩

/-- `create` where there is something already. -/
theorem Good.run_create_exists (h : Good s t garbage) (env : Env) (now : Int64) {path : Str}
    (hpath : path ≠ []) (hsome : t.resolve path ≠ none) (bits : ModeT) :
    (create env s.fuel now path bits).run (handler k) s = .returned fileExists s := by
  simp only [create, Program.run_bind, h.run_getPath hpath, Outcome.bind_returned,
    isEmpty_pathBlocks]
  cases hz : t.resolve path with
  | none => exact absurd hz hsome
  | some z => rfl

/-- `create` with a mode that is not one. -/
theorem Good.run_create_throws (h : Good s t garbage) (env : Env) (now : Int64) {path : Str}
    (hpath : path ≠ []) (hnone : t.resolve path = none) {bits : ModeT} {what : String}
    (hmode : Mode.ofModeT bits = .error what) :
    (create env s.fuel now path bits).run (handler k) s = .halted (.threw what) s := by
  simp only [create, Program.run_bind, h.run_getPath hpath, hnone, Outcome.bind_returned, hmode,
    ofThrowing, Except.mapError]
  rfl

/-- `create` where there is nothing to put the file into. -/
theorem Good.run_create_fails (h : Good s t garbage) (env : Env) (now : Int64) {path : Str}
    (hpath : path ≠ []) (hnone : t.resolve path = none)
    (hparent : t.resolve (FsUtil.parentPath path) = none) {bits : ModeT} {mode : Mode}
    (hmode : Mode.ofModeT bits = .ok mode) :
    (create env s.fuel now path bits).run (handler k) s = .returned noSuchFileOrDir s := by
  have hroot := names_ne_nil_of_resolve hnone
  simp only [create, createFileBlock, Program.run_bind, h.run_getPath hpath, hnone,
    Option.map_none, Option.getD_none, List.isEmpty_nil, Bool.not_true, Bool.false_eq_true,
    if_false, hmode, ofThrowing, Except.mapError, Outcome.bind_returned,
    FsUtil.separatePath_eq hpath, Program.run_ofExcept_ok, FsUtil.join_dropLast path hroot,
    h.run_getPath (FsUtil.parentPath_ne_nil path), hparent]
  rfl

theorem Good.create_refines (h : Good s t garbage) (env : Env) (now : Int64) {path : Str}
    (hpath : path ≠ []) (bits : ModeT) :
    Refines k t garbage 0 (t.entries.create env now path bits) ((do
      let status ← create env s.fuel now path bits
      return { status : Reply }).run (handler k) s) := by
  rw [Program.run_bind, Namespace.create, t.resolve_entries]
  cases hz : t.resolve path with
  | some z =>
    rw [h.run_create_exists env now hpath (by simp [hz]), Outcome.bind_returned]
    exact h.refines_of_ok _
  | none =>
    cases hmode : Mode.ofModeT bits with
    | error what =>
      rw [h.run_create_throws env now hpath hz hmode, Outcome.bind_halted]
      exact h.refines_of_error _
    | ok mode =>
      simp only [Option.map_none, t.resolve_entries]
      cases hparent : t.resolve (FsUtil.parentPath path) with
      | none =>
        rw [h.run_create_fails env now hpath hz hparent hmode, Outcome.bind_returned]
        exact h.refines_of_ok _
      | some z =>
        have hplug := Inodes.plug_resolve hparent
        have hsome : ((Namespace.add (z.map Node.entry) ⟨Namespace.baseName path,
            genFileStat env now mode 0, []⟩).resolve path).isSome =
            ((Inodes.addAt z s.idsUsed (Namespace.baseName path)
              (genFileStat env now mode 0)).resolve path).isSome := by
          rw [← Inodes.entries_addAt z s.idsUsed, Inodes.resolve_entries, Option.isSome_map]
        simp only [Option.map_some, hsome]
        refine (h.create_meets (k := k) env now hpath hz hparent hmode).bind ?_ ?_
        · rintro e s' (hout | ⟨rfl, hnone, hgood, -⟩)
          · exact Or.inl hout.threw
          · rw [hnone]
            exact Or.inr ⟨rfl, hgood.lands_addAt hplug⟩
        · rintro _ s' ⟨rfl, hfound, hgood, -⟩
          rw [hfound]
          exact ⟨rfl, hgood.lands_addAt hplug⟩

/-! ### rmdir and unlink -/

theorem reverse_pathBlocks (z : Zipper Node) :
    (pathBlocks z).reverse = z.label.block z.kids :: chain z.frames z.label.id :=
  List.reverse_reverse _

/-- What is below a freed inode goes, the rest of the state is as it was. -/
theorem Good.recursiveFree {a : Node} {kids : Forest Node}
    (h : Good s t (garbage + a.below kids)) {fuel : ℕ} (hfuel : (a.tree kids).card < fuel) :
    ∃ s', (recursiveFreeChildrenBlocks fuel (a.block kids)).run (handler k) s = .returned () s' ∧
      Good s' t garbage ∧ s'.idsUsed = s.idsUsed := by
  have hstores : Stores s (a.below kids + (t.blocks + garbage)) := by
    convert h.stores using 1
    ac_rfl
  obtain ⟨s', hrun, hstores', hkeeps, -⟩ :=
    hstores.recursiveFree (k := k) (b := a.block kids) rfl hfuel
  exact ⟨s', hrun, ⟨hkeeps.rootBlock_eq.trans h.rootBlock_eq, hstores'⟩, hkeeps.idsUsed_eq⟩

/-- `rmdir` of an inode other than the root. -/
theorem Good.rmdir_meets (h : Good s t garbage) {path : Str} (hpath : path ≠ []) {a : Node}
    {kids : Forest Node} {f : Frame Node} {fs : List (Frame Node)}
    (hz : t.resolve path = some ⟨a, kids, f :: fs⟩) :
    ((rmdir s.fuel path).run (handler k) s).Meets
      (fun status s' => status = 0 ∧
        Good s' (Inodes.removeAt f fs s.idsUsed)
          (garbage + if k then ↑(pathBlocks ⟨a, kids, f :: fs⟩) else 0) ∧
        s'.idsUsed = s.idsUsed + (fs.length + 1))
      (OutOfIds s (t.blocks + garbage) (fs.length + 1)) := by
  have hplug := Inodes.plug_resolve hz
  obtain ⟨hfirst, hok⟩ := h.chainOk hplug
  have hreverse : (pathBlocks ⟨a, kids, f :: fs⟩).reverse =
      a.block kids :: Frame.block f a.id :: chain fs f.label.id := reverse_pathBlocks _
  have hlast : lastDirFile (a.block kids) (Frame.block f a.id :: chain fs f.label.id) =
      .ok (Frame.block f a.id :: chain fs f.label.id, a.block kids) := rfl
  simp only [rmdir, Program.run_bind, h.run_getPath hpath, hz, Option.map_some,
    Option.getD_some, Outcome.bind_returned, hreverse, hlast, Program.run_ofExcept_ok]
  let parent : Node := Node.relabel (s.idsUsed + 1) f.label
  have hstored : t.blocks + garbage = pathBlocks ⟨a, kids, f :: fs⟩ +
      (parent.below (f.before ++ f.after) + beside fs + (garbage + a.below kids)) := by
    rw [blocks_eq_path hplug]
    simp only [beside, Node.below, Node.blocks_append, parent, Node.relabel]
    ac_rfl
  have hstores := h.stores
  rw [hstored] at hstores ⊢
  refine (hstores.replaceRoot_good (k := k) (b := Frame.block f a.id) (a := parent) rfl
    (removeIds_frame f hfirst) rfl rfl rfl (by simp [parent, Node.relabel]) hok).bind
    (fun _ _ h => h) ?_
  rintro _ s₁ ⟨hgood, hused⟩
  have hgood : Good s₁ (graft Node.relabel fs parent (f.before ++ f.after) (s.idsUsed + 2))
      (garbage + (if k then ↑(pathBlocks ⟨a, kids, f :: fs⟩) else 0) + a.below kids) := by
    convert hgood using 1
    ac_rfl
  obtain ⟨s₂, hrun, hgood₂, hused₂⟩ := hgood.recursiveFree (k := k)
    (show (a.tree kids).card < s.fuel from Nat.lt_of_succ_lt (h.card_tree_lt_fuel hplug))
  simp only [hrun, Outcome.bind_returned]
  exact ⟨rfl, hgood₂, hused₂.trans hused⟩

/-- `rmdir` of nothing, or of the root. -/
theorem Good.run_rmdir_fails (h : Good s t garbage) {path : Str} (hpath : path ≠ [])
    (hfails : ∀ z, t.resolve path = some z → z.frames = []) :
    (rmdir s.fuel path).run (handler k) s = .returned 1 s := by
  simp only [rmdir, Program.run_bind, h.run_getPath hpath, Outcome.bind_returned]
  cases hz : t.resolve path with
  | none => rfl
  | some z => rw [Option.map_some, Option.getD_some, reverse_pathBlocks, hfails z hz]; rfl

/-- The blocks that a call frees even when frees are suppressed: those below the inode that is
removed or written. -/
def cleared (t : Inodes) : Call → Multiset Block
  | .rmdir path | .unlink path =>
    match t.resolve path with
    | some ⟨a, kids, _ :: _⟩ => a.below kids
    | _ => 0
  | .write path _ offset =>
    match t.resolve path with
    | some z =>
      if z.label.stat.isDir ∨ offset.toUInt64.toNat > z.label.data.contents.length then 0
      else z.label.below z.kids
    | none => 0
  | _ => 0

theorem Good.rmdir_refines (h : Good s t garbage) {path : Str} (hpath : path ≠ []) :
    Refines k t garbage (cleared t (.rmdir path)) (t.entries.rmdir path) ((do
      let status ← rmdir s.fuel path
      return { status : Reply }).run (handler k) s) := by
  rw [Program.run_bind, Namespace.rmdir, t.resolve_entries, cleared]
  cases hz : t.resolve path with
  | none =>
    rw [h.run_rmdir_fails hpath (fun z hsome => by simp [hz] at hsome), Outcome.bind_returned]
    exact h.refines_of_ok _
  | some z =>
    obtain ⟨a, kids, frames⟩ := z
    cases frames with
    | nil =>
      have hroot : ∀ z, t.resolve path = some z → z.frames = [] := by
        intro z hsome
        rw [hz] at hsome
        rw [← Option.some.inj hsome]
      rw [h.run_rmdir_fails hpath hroot, Outcome.bind_returned]
      exact h.refines_of_ok _
    | cons f fs =>
      refine (h.rmdir_meets hpath hz).bind (fun _ _ h => Or.inl h.threw) ?_
      rintro _ s' ⟨rfl, hgood, -⟩
      refine ⟨rfl, hgood.lands_graft (le_of_eq ?_) (Inodes.entries_removeAt f fs s.idsUsed)⟩
      rw [blocks_eq_path (Inodes.plug_resolve hz)]
      simp only [beside, Node.below, Node.blocks_append, Node.relabel]
      ac_rfl

/-! ### write -/

/-- The new data of a file: none for no contents. -/
theorem Stores.idsToAdd_meets {stored : Multiset Block} (hs : Stores s stored)
    (depth : ℕ → ℕ → ℕ) {blocks : List Block} (hblocks : blocks ≠ []) (contents : Bytes) :
    ((if contents.isEmpty then pure []
      else replaceBlocksForContents depth blocks contents bytesPerBlock branchingFactor : FsM _).run
        (handler k) s).Meets
      (fun ids s' => ∃ d : DataForest, ids = d.rootIds ∧ d.contents = storedContents contents ∧
        d.Ordered ∧ d.blocks.card ≤ idsForContents depth contents ∧ Grown s stored d.blocks s')
      (OutOfIds s stored (idsForContents depth contents)) := by
  cases contents with
  | nil => exact ⟨.nil, rfl, rfl, trivial, Nat.zero_le _, Grown.refl hs⟩
  | cons c cs => exact hs.replaceBlocksForContents_meets depth hblocks (List.cons_ne_nil c cs)

/-- The stat of a file after `contents` were written to it. -/
def writtenStat (now : Int64) (stat : Stat) (contents : Bytes) : Stat :=
  stat.update (.ofNat contents.length) now now now

/-- A file whose old data is gone is given new contents. The new data is made first, with ids up
to `used`. -/
theorem Stores.writeFileStartingAtNode_meets {z : Zipper Node}
    (hs : Stores s (pathBlocks z + (beside z.frames + garbage)))
    (hok : ChainOk z.frames z.label.id) (env : Env) (now : Int64) (contents : Bytes) :
    ((writeFileStartingAtNode env now (pathBlocks z) contents).run (handler k) s).Meets
      (fun _ s' => ∃ used d, s.idsUsed ≤ used ∧ d.Ordered ∧ (∀ id ∈ d.rootIds, id.toNat ≤ used) ∧
        d.contents = storedContents contents ∧
        Good s' (Inodes.rewriteAt z used (writtenStat now z.label.stat contents) d)
          (garbage + if k then ↑(pathBlocks z) else 0) ∧
        s'.idsUsed = used + (z.frames.length + 1))
      (OutOfIds s (pathBlocks z + (beside z.frames + garbage))
        (idsForContents env.depth contents + (z.frames.length + 1))) := by
  have hne : pathBlocks z ≠ [] := by simp [pathBlocks]
  have hassert : (!(pathBlocks z).isEmpty) = true := by simp [hne]
  simp only [writeFileStartingAtNode, assert, hassert, if_true, Program.run_bind,
    Program.run_pure, Outcome.bind_returned]
  have hids := hs.idsToAdd_meets (k := k) env.depth hne contents
  refine hids.bind (fun _ _ h => h.mono (Nat.le_add_right _ _)) ?_
  rintro ids s₁ ⟨d, rfl, hcontents, hordered, hcard, hgrown⟩
  let a : Node := ⟨.ofNat (s₁.idsUsed + 1), z.label.name, writtenStat now z.label.stat contents, d⟩
  have hstored : (pathBlocks z : Multiset Block) + (a.below .nil + beside z.frames + garbage) =
      d.blocks + (pathBlocks z + (beside z.frames + garbage)) := by
    simp only [Node.below, Node.blocks_nil, a, add_zero]
    ac_rfl
  have hstores : Stores s₁ (pathBlocks z + (a.below .nil + beside z.frames + garbage)) := by
    rw [hstored]
    exact hgrown.stores
  simp only [reverse_pathBlocks, Node.tryCastDirFile_block, deref, Program.run_bind,
    Program.run_ofExcept_ok, Outcome.bind_returned]
  refine (hstores.replaceRoot_good (k := k) (b := ⟨z.label.id, .dirFile ⟨a.name, a.stat, _⟩⟩) rfl
    (removeIds_self _) rfl rfl rfl (show _ = [] ++ d.rootIds by simp [a]) hok).imp ?_ ?_
  · rintro _ s₂ ⟨hgood, hused⟩
    refine ⟨s₁.idsUsed, d, ?_, hordered, fun id hid => ?_, hcontents, hgood, hused⟩
    · rw [hgrown.idsUsed_eq]
      exact Nat.le_add_right _ _
    · rw [← d.map_id_rootBlocks] at hid
      obtain ⟨b, hb, rfl⟩ := List.mem_map.mp hid
      exact hgrown.stores.le_idsUsed b
        (Multiset.mem_add.mpr (Or.inl (DataForest.mem_blocks_of_rootBlocks hb)))
  · intro e s₂ hout
    rw [hstored] at hout
    exact (OutOfIds.after hgrown hout).mono (Nat.add_le_add_right hcard _)

/-- `write` to a file, at an offset in it. -/
theorem Good.write_meets (h : Good s t garbage) (env : Env) (now : Int64) {path : Str}
    (hpath : path ≠ []) {z : Zipper Node} (hz : t.resolve path = some z)
    (hfile : z.label.stat.isDir = false) (buffer : Bytes) {offset : Int64}
    (hoffset : offset.toUInt64.toNat ≤ z.label.data.contents.length) :
    let contents := replaceAt z.label.data.contents buffer offset.toUInt64.toNat
    ((write env s.fuel now path buffer offset).run (handler k) s).Meets
      (fun status s' => status = .ofNat buffer.length ∧
        ∃ used d, s.idsUsed ≤ used ∧ d.Ordered ∧ (∀ id ∈ d.rootIds, id.toNat ≤ used) ∧
          d.contents = storedContents contents ∧
          Good s' (Inodes.rewriteAt z used (writtenStat now z.label.stat contents) d)
            (garbage + if k then ↑(pathBlocks z) else 0) ∧
          s'.idsUsed = used + (z.frames.length + 1))
      (fun e s' => ∃ s₁, Keeps s s₁ ∧ OutOfIds s₁ (pathBlocks z + (beside z.frames + garbage))
        (idsForContents env.depth contents + (z.frames.length + 1)) e s') := by
  intro contents
  have hplug := Inodes.plug_resolve hz
  have hfuel := h.card_tree_lt_fuel hplug
  have hheight := Node.height_data_lt z.label z.kids
  have hread := h.stores.run_readFileContents (k := k) (h.tree_le hplug) hfile
    (show z.label.data.height < s.fuel by omega)
  have hstores : Stores s (z.label.below z.kids +
      (pathBlocks z + (beside z.frames + garbage))) := by
    convert h.stores using 1
    rw [blocks_eq_path hplug]
    ac_rfl
  obtain ⟨s₁, hrun, hstores₁, hkeeps, -⟩ := hstores.recursiveFree (k := k)
    (b := z.label.block z.kids) rfl (Nat.lt_of_succ_lt hfuel)
  simp only [write, Program.run_bind, h.run_getPath hpath, hz, Outcome.bind_returned,
    Option.map_some, Option.getD_some, getLast?_pathBlocks, Node.tryCastDirFile_block, deref,
    DirFileBlockData.isDir, hfile, Bool.false_eq_true, if_false, Program.run_ofExcept_ok, hread,
    Nat.not_lt.mpr hoffset, hrun]
  refine (hstores₁.writeFileStartingAtNode_meets (h.chainOk hplug) env now contents).bind
    (fun _ _ hout => ⟨s₁, hkeeps, hout⟩) ?_
  rintro _ s₂ ⟨used, d, hused, hpost⟩
  rw [hkeeps.idsUsed_eq] at hused
  exact ⟨rfl, used, d, hused, hpost⟩

/-- `write` where there is nothing. -/
theorem Good.run_write_none (h : Good s t garbage) (env : Env) (now : Int64) {path : Str}
    (hpath : path ≠ []) (hnone : t.resolve path = none) (buffer : Bytes) (offset : Int64) :
    (write env s.fuel now path buffer offset).run (handler k) s = .returned noSuchFileOrDir s := by
  simp only [write, Program.run_bind, h.run_getPath hpath, hnone, Outcome.bind_returned]
  rfl

/-- `write` to a directory. -/
theorem Good.run_write_dir (h : Good s t garbage) (env : Env) (now : Int64) {path : Str}
    (hpath : path ≠ []) {z : Zipper Node} (hz : t.resolve path = some z)
    (hdir : z.label.stat.isDir = true) (buffer : Bytes) (offset : Int64) :
    (write env s.fuel now path buffer offset).run (handler k) s =
      .returned errorBecauseDir s := by
  simp only [write, Program.run_bind, h.run_getPath hpath, hz, Outcome.bind_returned,
    Option.map_some, Option.getD_some, getLast?_pathBlocks, Node.tryCastDirFile_block, deref,
    DirFileBlockData.isDir, hdir, if_true, Program.run_ofExcept_ok]
  rfl

/-- `write` past the end of a file. -/
theorem Good.run_write_past (h : Good s t garbage) (env : Env) (now : Int64) {path : Str}
    (hpath : path ≠ []) {z : Zipper Node} (hz : t.resolve path = some z)
    (hfile : z.label.stat.isDir = false) (buffer : Bytes) {offset : Int64}
    (hoffset : z.label.data.contents.length < offset.toUInt64.toNat) :
    (write env s.fuel now path buffer offset).run (handler k) s = .returned (-1) s := by
  have hplug := Inodes.plug_resolve hz
  have hfuel := h.card_tree_lt_fuel hplug
  have hheight := Node.height_data_lt z.label z.kids
  have hread := h.stores.run_readFileContents (k := k) (h.tree_le hplug) hfile
    (show z.label.data.height < s.fuel by omega)
  simp only [write, Program.run_bind, h.run_getPath hpath, hz, Outcome.bind_returned,
    Option.map_some, Option.getD_some, getLast?_pathBlocks, Node.tryCastDirFile_block, deref,
    DirFileBlockData.isDir, hfile, Bool.false_eq_true, if_false, Program.run_ofExcept_ok, hread,
    gt_iff_lt, hoffset, if_true]
  rfl

theorem Good.write_refines (h : Good s t garbage) (env : Env) (now : Int64) {path : Str}
    (hpath : path ≠ []) (buffer : Bytes) (offset : Int64) :
    Refines k t garbage (cleared t (.write path buffer offset))
      (t.entries.write now storedContents path buffer offset) ((do
        let status ← write env s.fuel now path buffer offset
        return { status : Reply }).run (handler k) s) := by
  rw [Program.run_bind, Namespace.write, t.resolve_entries, cleared]
  cases hz : t.resolve path with
  | none =>
    rw [h.run_write_none env now hpath hz, Outcome.bind_returned]
    exact h.refines_of_ok _
  | some z =>
    simp only [Option.map_some, Zipper.map, Node.entry]
    cases hdir : z.label.stat.isDir with
    | true =>
      rw [h.run_write_dir env now hpath hz hdir, Outcome.bind_returned]
      exact h.refines_of_ok _
    | false =>
      simp only [Bool.false_eq_true, if_false, false_or]
      by_cases hoffset : offset.toUInt64.toNat > z.label.data.contents.length
      · rw [h.run_write_past env now hpath hz hdir buffer hoffset, Outcome.bind_returned]
        simp only [hoffset, if_true]
        exact h.refines_of_ok _
      · simp only [hoffset, if_false]
        refine (h.write_meets env now hpath hz hdir buffer (Nat.not_lt.mp hoffset)).bind ?_ ?_
        · rintro e s' ⟨_, _, hout⟩
          exact Or.inl hout.threw
        · rintro _ s' ⟨rfl, used, d, -, -, -, hcontents, hgood, -⟩
          refine ⟨rfl, hgood.lands_graft ?_ ?_⟩
          · rw [blocks_eq_path (Inodes.plug_resolve hz), Multiset.le_iff_exists_add]
            refine ⟨d.blocks, ?_⟩
            simp only [Node.below, Node.blocks_nil, add_zero]
            ac_rfl
          · have hentries := Inodes.entries_rewriteAt z used (writtenStat now z.label.stat
              (replaceAt z.label.data.contents buffer offset.toUInt64.toNat)) d
            rw [Inodes.rewriteAt] at hentries
            rw [hentries, hcontents]
            rfl

/-! ### All calls -/

/-- **Every call refines the namespace**, unless the ids run out. -/
theorem Good.exec_refines (h : Good s t garbage) (env : Env) (call : Int64 × Call) :
    Refines k t garbage (cleared t call.2) (t.entries.exec env storedContents call)
      (exec env k s call) := by
  by_cases hquery : call.2.isQuery = true
  · exact h.refines_of_isQuery env storedContents hquery
  by_cases hpath : call.2.path = []
  · rw [exec_of_path_eq_nil env s hpath, Namespace.exec, if_pos hpath]
    exact h.refines_of_error _
  obtain ⟨now, call⟩ := call
  rw [Namespace.exec, if_neg hpath]
  cases call with
  | mkdir path mode => exact h.mkdir_refines env now hpath mode
  | rmdir path => exact h.rmdir_refines hpath
  | unlink path => exact h.rmdir_refines hpath
  | write path buffer offset => exact h.write_refines env now hpath buffer offset
  | create path mode => exact h.create_refines env now hpath mode
  | getattr path => exact absurd rfl hquery
  | readdir path filler => exact absurd rfl hquery
  | read path size offset => exact absurd rfl hquery

end BlockFuse

end Pingfs
