import Pingfs.Fs.Calls

/-!
# The calls of the operations

Searches only read, and layers of blocks are only created. An operation is made of searches that end
in the state they started in, and of one change. So a condition `ok` on calls holds at every call of
an operation if it holds at those of such searches and at those of the change.

Source: the operations of `block_fuse.cc` and the functions of `block_util.cc` they use.

## Main results

* `Good.everyCall_mkdir`, `Good.everyCall_create`, `Good.everyCall_rmdir`, `Good.everyCall_write` —
  the calls of an operation, for any condition on calls
-/

namespace Pingfs

open Zipper

namespace BlockFuse

open FsM BlockUtil

variable {s s' : BlockFuse} {t : Inodes} {garbage rest : Multiset Block} {k : Bool}

/-! ## Kinds of calls -/

def IsRead : FsCall → Prop
  | .getBlocks _ | .getRootBlock => True
  | _ => False

def IsCreate : FsCall → Prop
  | .createBlock _ => True
  | _ => False

theorem isRead_iff {call : FsCall} :
    IsRead call ↔ call = .getRootBlock ∨ ∃ ids, call = .getBlocks ids := by
  cases call <;> simp [IsRead]

theorem isCreate_iff {call : FsCall} : IsCreate call ↔ ∃ data, call = .createBlock data := by
  cases call <;> simp [IsCreate]

/-! ### Searches -/

variable (fuel : ℕ)

theorem only_getRootBlock : getRootBlock.Only IsRead := (Program.only_request _).mpr trivial

theorem only_getBlocks (ids : List BlockId) : (getBlocks ids).Only IsRead :=
  (Program.only_request _).mpr trivial

theorem only_assertSome {α : Type} (pointer : Option α) : (assertSome pointer).Only IsRead := by
  cases pointer <;> exact trivial

theorem only_assert (c : Bool) : (assert c).Only IsRead := Program.only_ite trivial trivial

theorem only_searchInode (name : Str) (ids : List BlockId) (retrieved : BlockId → Option Block) :
    (searchInode name fuel ids retrieved).Only IsRead := by
  induction fuel generalizing ids retrieved with
  | zero => trivial
  | succ fuel ih =>
    rw [searchInode]
    refine Program.only_ite trivial (Program.only_bind (only_getBlocks ids) fun response =>
      Program.only_bind (Program.only_ofExcept _) fun found => ?_)
    obtain ⟨target, more, retrieved⟩ := found
    cases target with
    | none => exact ih more retrieved
    | some target => exact trivial

theorem only_getPathPart (name : Str) (fromBlock : Option Block) :
    (getPathPart fuel name fromBlock).Only IsRead := by
  rw [getPathPart]
  refine Program.only_ite (Program.only_bind only_getRootBlock fun _ => trivial)
    (Program.only_bind (Program.only_ofExcept _) fun fromBlock =>
      Program.only_bind (only_assertSome _) fun dirFile =>
        Program.only_bind (only_searchInode ..) fun found => ?_)
  obtain ⟨target, retrieved⟩ := found
  cases target with
  | none => exact trivial
  | some target => exact Program.only_bind (Program.only_ofExcept _) fun _ => trivial

theorem only_getPathLoop (parts : List Str) (fromBlock : Option Block) (blocks : List Block) :
    (getPathLoop fuel parts fromBlock blocks).Only IsRead := by
  induction parts generalizing fromBlock blocks with
  | nil => trivial
  | cons part parts ih =>
    rw [getPathLoop]
    refine Program.only_bind (only_getPathPart ..) fun blockPath => ?_
    cases blockPath.getLast? with
    | none => exact trivial
    | some last => exact ih (some last) (blocks ++ blockPath)

theorem only_getPath (path : Str) : (getPath fuel path).Only IsRead :=
  Program.only_bind (Program.only_ofExcept _) fun _ => only_getPathLoop ..

theorem only_getDirFiles (ids : List BlockId) : (getDirFiles fuel ids).Only IsRead := by
  induction fuel generalizing ids with
  | zero => trivial
  | succ fuel ih =>
    rw [getDirFiles]
    exact Program.only_ite trivial (Program.only_bind (only_getBlocks ids) fun response =>
      Program.only_bind (Program.only_ofExcept _) fun found =>
        Program.only_bind (ih _) fun _ => trivial)

theorem only_gatherContents {below : List BlockId → FsM (List FileContentsBlockData)}
    (hbelow : ∀ ids, (below ids).Only IsRead) (pointers : List (Option Block)) :
    (gatherContents below pointers).Only IsRead := by
  induction pointers with
  | nil => trivial
  | cons pointer pointers ih =>
    rw [gatherContents]
    refine Program.only_bind (Program.only_ofExcept _) fun block => ?_
    cases block.tryCastContents with
    | some contents => exact Program.only_bind ih fun _ => trivial
    | none =>
      cases block.tryCastLink with
      | some linkData =>
        exact Program.only_bind (hbelow _) fun _ => Program.only_bind ih fun _ => trivial
      | none => exact ih

theorem only_getFileContents (ids : List BlockId) : (getFileContents fuel ids).Only IsRead := by
  induction fuel generalizing ids with
  | zero => trivial
  | succ fuel ih =>
    exact Program.only_bind (only_getBlocks ids) fun response => only_gatherContents ih response

theorem only_readFileContents (fileInode : DirFileBlockData) :
    (readFileContents fuel fileInode).Only IsRead :=
  Program.only_bind (only_assert _) fun _ =>
    Program.only_bind (only_getFileContents ..) fun _ => trivial

theorem only_getattr (env : Env) (path : Str) : (getattr env fuel path).Only IsRead := by
  refine Program.only_bind (Program.only_bind (only_getPath ..) fun _ => trivial) fun resolved => ?_
  cases resolved with
  | none => exact trivial
  | some resolved => exact Program.only_bind (only_assertSome _) fun _ => trivial

theorem only_readdir (env : Env) (path : Str) (filler : Filler) :
    (readdir env fuel path filler).Only IsRead := by
  refine Program.only_bind (only_getPath ..) fun blocks => ?_
  cases blocks.getLast? with
  | none => exact trivial
  | some inode =>
    cases hdir : inode.tryCastDirFile with
    | none => simp [hdir]
    | some dirFile =>
      simp only [hdir]
      exact Program.only_ite trivial (Program.only_ite trivial
        (Program.only_bind (only_getDirFiles ..) fun _ => trivial))

theorem only_read (path : Str) (size : UInt64) (offset : Int64) :
    (read fuel path size offset).Only IsRead := by
  refine Program.only_bind (only_getPath ..) fun blocks => ?_
  cases blocks.getLast? with
  | none => exact trivial
  | some inode =>
    cases hdir : inode.tryCastDirFile with
    | none => simp [hdir]
    | some dirFile =>
      simp only [hdir]
      exact Program.only_ite trivial (Program.only_bind (only_readFileContents ..) fun _ =>
        Program.only_ofExcept _)

theorem only_mkdirValid (env : Env) (path : Str) : (mkdirValid env fuel path).Only IsRead := by
  refine Program.only_bind (Program.only_ofExcept _) fun parts => Program.only_ite trivial
    (Program.only_bind (only_getattr ..) fun found => Program.only_ite trivial
      (Program.only_bind (Program.only_ofExcept _) fun parentPath =>
        Program.only_bind (only_getPath ..) fun blocks => ?_))
  cases blocks.getLast? with
  | none => exact trivial
  | some parentDir =>
    cases hdir : parentDir.tryCastDirFile <;> simp [hdir]

theorem only_program {call : Call} (hquery : call.isQuery = true) (env : Env) (now : Int64) :
    (program env fuel now call).Only IsRead := by
  cases call with
  | getattr path => exact Program.only_bind (only_getattr ..) fun _ => trivial
  | readdir path filler => exact Program.only_bind (only_readdir ..) fun _ => trivial
  | read path size offset => exact Program.only_bind (only_read ..) fun _ => trivial
  | mkdir path mode => exact absurd hquery Bool.false_ne_true
  | rmdir path => exact absurd hquery Bool.false_ne_true
  | unlink path => exact absurd hquery Bool.false_ne_true
  | write path buffer offset => exact absurd hquery Bool.false_ne_true
  | create path mode => exact absurd hquery Bool.false_ne_true

/-! ### New blocks -/

theorem creates_createBlock (data : BlockData) : (createBlock data).Only IsCreate :=
  (Program.only_request _).mpr trivial

theorem creates_createAll (datas : List BlockData) : (createAll datas).Only IsCreate :=
  only_createAll fun _ _ => trivial

theorem creates_addLinkLayers (size depth : ℕ) (blocks : List Block) :
    (addLinkLayers size depth blocks).Only IsCreate := by
  induction depth generalizing blocks with
  | zero => trivial
  | succ depth ih => exact Program.only_bind (creates_createAll _) fun links => ih links

theorem creates_assert (c : Bool) : (assert c).Only IsCreate := Program.only_ite trivial trivial

theorem creates_replaceBlocksForContents (depth : ℕ → ℕ → ℕ) (blocks : List Block)
    (contents : Bytes) (size branching : ℕ) :
    (replaceBlocksForContents depth blocks contents size branching).Only IsCreate :=
  Program.only_bind (creates_assert _) fun _ => Program.only_bind (creates_assert _) fun _ =>
    Program.only_bind (creates_createAll _) fun _ =>
      Program.only_bind (creates_addLinkLayers ..) fun _ => trivial

theorem creates_replaceBlock (b : Block) (children : List BlockId) :
    (replaceBlockWithDiffChildren b children).Only IsCreate := by
  rw [replaceBlockWithDiffChildren]
  cases b.tryCastLink with
  | some link => exact creates_createBlock _
  | none =>
    cases b.tryCastDirFile with
    | some dirFile => exact creates_createBlock _
    | none => exact trivial

theorem creates_replaceChainLoop (blocks : List Block)
    (childrenToRemove childrenToAdd : List BlockId)
    (lastReplaced : Option Block) :
    (replaceChainLoop childrenToAdd blocks childrenToRemove lastReplaced).Only IsCreate := by
  induction blocks generalizing childrenToRemove lastReplaced with
  | nil => trivial
  | cons b blocks ih =>
    exact Program.only_bind (Program.only_ofExcept _) fun kept =>
      Program.only_bind (creates_replaceBlock b _) fun replaced => ih [b.id] (some replaced)

theorem creates_replaceChain (blocks : List Block) (childrenToRemove childrenToAdd : List BlockId) :
    (replaceChain blocks childrenToRemove childrenToAdd).Only IsCreate :=
  creates_replaceChainLoop blocks childrenToRemove childrenToAdd none

/-! ### Frees -/

theorem only_forEach {P : FsCall → Prop} {α : Type} {f : α → FsM Unit} (hf : ∀ a, (f a).Only P)
    (as : List α) : (forEach f as).Only P := by
  induction as with
  | nil => trivial
  | cons a as ih => exact Program.only_bind (hf a) fun _ => ih

theorem only_recursiveFree {P : FsCall → Prop} (hget : ∀ ids, P (.getBlocks ids))
    (hfree : ∀ id, P (.managerFreeBlock id)) (b : Block) :
    (recursiveFreeChildrenBlocks fuel b).Only P := by
  induction fuel generalizing b with
  | zero => trivial
  | succ fuel ih =>
    rw [recursiveFreeChildrenBlocks]
    cases b.getChildren with
    | none => exact trivial
    | some children =>
      exact Program.only_bind ((Program.only_request _).mpr (hget children)) fun response =>
        Program.only_bind (only_forEach (fun id => (Program.only_request _).mpr (hfree id))
          children) fun _ => only_forEach (fun pointer =>
            Program.only_bind (Program.only_ofExcept _) fun child => ih child) response

/-! ## The operations -/

section

variable {ok : FsCall → BlockFuse → Prop}

/-- Programs that only read and end where they started meet `ok`. -/
def ReadsMeet (k : Bool) (ok : FsCall → BlockFuse → Prop) : Prop :=
  ∀ {α : Type} {p : FsM α} {s : BlockFuse}, p.Only IsRead → (p.run (handler k) s).state = s →
    p.EveryCall (handler k) ok s

/-- A new inode below the one at `z` can be made. -/
structure AddMeets (k : Bool) (ok : FsCall → BlockFuse → Prop) (s : BlockFuse) (z : Zipper Node)
    (name : Str) (stat : Stat) : Prop where
  create : ok (.createBlock (.dirFile ⟨name, stat, []⟩)) s
  replace : ∀ new s₁,
    (createBlock (.dirFile ⟨name, stat, []⟩)).run (handler k) s = .returned new s₁ →
      (replaceRoot (pathBlocks z) (pathBlocks z).reverse [] [new.id]).EveryCall (handler k) ok s₁

variable (hreads : ReadsMeet k ok) (h : Good s t garbage) (env : Env) (now : Int64) {path : Str}
  (hpath : path ≠ [])

include hreads

theorem ReadsMeet.returned {α : Type} {p : FsM α} (hp : p.Only IsRead) {a : α}
    (hrun : p.run (handler k) s = .returned a s) : p.EveryCall (handler k) ok s :=
  hreads hp (by rw [hrun]; rfl)

include h hpath

theorem Good.everyCall_getPath : (getPath s.fuel path).EveryCall (handler k) ok s :=
  hreads.returned (only_getPath ..) (h.run_getPath hpath)

theorem Good.everyCall_mkdir {bits : ModeT}
    (hadd : ∀ z mode, t.resolve path = none → t.resolve (FsUtil.parentPath path) = some z →
      AddMeets k ok s z (Namespace.baseName path) ⟨mode, env.uid, env.gid, 1, now, now, now⟩) :
    (mkdir env s.fuel now path bits).EveryCall (handler k) ok s := by
  have hvalid := h.run_mkdirValid (k := k) env hpath
  refine Program.everyCall_bind_of_run (hreads.returned (only_mkdirValid ..) hvalid) hvalid ?_
  by_cases hmade : t.resolve path = none ∧ ∃ z, t.resolve (FsUtil.parentPath path) = some z
  · obtain ⟨hnone, z, hz⟩ := hmade
    simp only [hnone, hz]
    refine Program.everyCall_bind (Program.everyCall_ofExcept _ _) fun mode s₁ hmode => ?_
    obtain rfl : s₁ = s := by
      rw [ofThrowing, Mode.ofModeT_or_dir] at hmode
      exact (Outcome.returned.inj hmode).2.symm
    obtain ⟨hcreate, hreplace⟩ := hadd z mode hnone hz
    exact Program.everyCall_bind (Program.everyCall_request.mpr hcreate)
      fun new s₂ hrun => Program.everyCall_bind (hreplace new s₂ hrun) fun _ _ _ => trivial
  · cases hnone : t.resolve path with
    | some z => exact trivial
    | none =>
      cases hz : t.resolve (FsUtil.parentPath path) with
      | none => exact trivial
      | some z => exact absurd ⟨hnone, z, hz⟩ hmade

/-- `create` looks for its path once more at its end. -/
theorem Good.everyCall_create {bits : ModeT}
    (hadd : ∀ z mode, t.resolve path = none → t.resolve (FsUtil.parentPath path) = some z →
      AddMeets k ok s z (Namespace.baseName path) (genFileStat env now mode 0)) :
    (create env s.fuel now path bits).EveryCall (handler k) ok s := by
  refine Program.everyCall_bind_of_run (h.everyCall_getPath hreads hpath) (h.run_getPath hpath) ?_
  rw [isEmpty_pathBlocks]
  cases hnone : t.resolve path with
  | some z => exact trivial
  | none =>
    refine Program.everyCall_bind (Program.everyCall_ofExcept _ _) fun mode s₁ hmode => ?_
    obtain rfl : s₁ = s := by
      cases hbits : Mode.ofModeT bits with
      | ok mode =>
        rw [ofThrowing, hbits] at hmode
        exact (Outcome.returned.inj hmode).2.symm
      | error what =>
        rw [ofThrowing, hbits] at hmode
        cases hmode
    have hroot := names_ne_nil_of_resolve hnone
    have hlast : (FsUtil.separator :: FsUtil.names path).getLast?.getD [] =
        Namespace.baseName path := by
      obtain ⟨name, names, hnames⟩ := List.exists_cons_of_ne_nil hroot
      rw [Namespace.baseName, hnames, List.getLast?_cons_cons]
    refine Program.everyCall_bind (Program.everyCall_bind_of_run (h.everyCall_getPath hreads hpath)
      (h.run_getPath hpath) ?_) fun _ _ _ => Program.everyCall_ite trivial trivial
    rw [isEmpty_pathBlocks, hnone, FsUtil.separatePath_eq hpath]
    refine Program.everyCall_bind_of_run (Program.everyCall_ofExcept _ _)
      (Program.run_ofExcept_ok ..) ?_
    rw [FsUtil.join_dropLast path hroot]
    have hparent := FsUtil.parentPath_ne_nil path
    refine Program.everyCall_bind_of_run (Program.everyCall_ofExcept _ _)
      (Program.run_ofExcept_ok ..) (Program.everyCall_bind_of_run
        (h.everyCall_getPath hreads hparent) (h.run_getPath hparent) ?_)
    rw [isEmpty_pathBlocks]
    cases hz : t.resolve (FsUtil.parentPath path) with
    | none => exact trivial
    | some z =>
      have hplug := Inodes.plug_resolve hz
      obtain ⟨hcreate, hreplace⟩ := hadd z mode hnone hz
      rw [Option.map_some, Option.getD_some, hlast]
      refine Program.everyCall_bind (Program.everyCall_request.mpr hcreate)
        fun new s₂ hnew => Program.everyCall_bind (hreplace new s₂ hnew) fun _ s₃ hroot => ?_
      -- the state in which the file is looked for
      have hmeets := h.addInode_meets (k := k) hplug (Namespace.baseName path)
        (genFileStat env now mode 0)
      rw [hnew, Outcome.bind_returned, hroot] at hmeets
      obtain ⟨hgood, -⟩ := hmeets
      have hfuel := h.card_blocks_lt_fuel
      have hcard := card_blocks_addAt hplug s₁.idsUsed (Namespace.baseName path)
        (genFileStat env now mode 0)
      have hfound := hgood.run_getPath_of_lt (k := k) hpath
        (show _ < s₁.fuel by rw [hcard]; omega)
      exact Program.everyCall_bind_of_run (hreads.returned (only_getPath ..) hfound) hfound
        (Program.everyCall_bind (Program.everyCall_ite trivial trivial) fun _ _ _ => trivial)

theorem Good.everyCall_rmdir
    (hremove : ∀ a kids f fs, t.resolve path = some ⟨a, kids, f :: fs⟩ →
      let change := replaceRoot (pathBlocks ⟨a, kids, f :: fs⟩)
        (Frame.block f a.id :: chain fs f.label.id) [a.id] []
      change.EveryCall (handler k) ok s ∧ ∀ s₁, change.run (handler k) s = .returned () s₁ →
        (recursiveFreeChildrenBlocks s.fuel (a.block kids)).EveryCall (handler k) ok s₁) :
    (rmdir s.fuel path).EveryCall (handler k) ok s := by
  refine Program.everyCall_bind_of_run (h.everyCall_getPath hreads hpath) (h.run_getPath hpath) ?_
  cases hz : t.resolve path with
  | none => exact trivial
  | some z =>
    obtain ⟨a, kids, frames⟩ := z
    rw [Option.map_some, Option.getD_some, reverse_pathBlocks]
    cases frames with
    | nil => exact trivial
    | cons f fs =>
      obtain ⟨hreplace, hfree⟩ := hremove a kids f fs hz
      refine Program.everyCall_bind_of_run (Program.everyCall_ofExcept _ _)
        (show _ = Outcome.returned _ s from rfl) (Program.everyCall_bind hreplace
          fun _ s₁ hrun => Program.everyCall_bind (hfree s₁ hrun) fun _ _ _ => trivial)

theorem Good.everyCall_write (buffer : Bytes) (offset : Int64)
    (hchange : ∀ z, t.resolve path = some z → z.label.stat.isDir = false →
      let free := recursiveFreeChildrenBlocks s.fuel (z.label.block z.kids)
      free.EveryCall (handler k) ok s ∧ ∀ s₁ contents, free.run (handler k) s = .returned () s₁ →
        (writeFileStartingAtNode env now (pathBlocks z) contents).EveryCall (handler k) ok s₁) :
    (write env s.fuel now path buffer offset).EveryCall (handler k) ok s := by
  refine Program.everyCall_bind_of_run (h.everyCall_getPath hreads hpath) (h.run_getPath hpath) ?_
  cases hz : t.resolve path with
  | none => exact trivial
  | some z =>
    have hplug := Inodes.plug_resolve hz
    have hfuel := h.card_tree_lt_fuel hplug
    have hheight := Node.height_data_lt z.label z.kids
    rw [Option.map_some, Option.getD_some, getLast?_pathBlocks]
    refine Program.everyCall_bind_of_run (Program.everyCall_ofExcept _ _)
      (show _ = Outcome.returned _ s from rfl) ?_
    cases hdir : z.label.stat.isDir with
    | true =>
      rw [DirFileBlockData.isDir, hdir]
      exact trivial
    | false =>
      have hread := h.stores.run_readFileContents (k := k) (h.tree_le hplug) hdir
        (show z.label.data.height < s.fuel by omega)
      obtain ⟨hfree, hwrite⟩ := hchange z hz hdir
      rw [DirFileBlockData.isDir, hdir]
      exact Program.everyCall_bind_of_run (hreads.returned (only_readFileContents ..) hread)
        hread (Program.everyCall_ite trivial (Program.everyCall_bind hfree fun _ s₁ hrun =>
          Program.everyCall_bind (hwrite s₁ _ hrun) fun _ _ _ => trivial))

omit h hpath in
/-- A query in a state of a tree. -/
theorem Good.everyCall_of_isQuery (h : Good s t garbage) (env : Env) {call : Int64 × Call}
    (hquery : call.2.isQuery = true) :
    (program env s.fuel call.1 call.2).EveryCall (handler k) ok s := by
  have hexec := h.exec_of_isQuery (k := k) env storedContents hquery
  refine hreads (only_program _ hquery env call.1) ?_
  rw [← exec, hexec, Outcome.state_of]

end

end BlockFuse

end Pingfs
