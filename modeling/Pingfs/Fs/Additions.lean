import Pingfs.Fs.DistinctNames
import Pingfs.Fs.RootNamespace
import Pingfs.Lib.Interleaving

/-!
# A new inode, call by call

`mkdir` and `create` look for what is there, look for the parent, make an inode and rebuild the path
to it, set the root, and free the old path; `create` looks for its file once more. Here that is said
of the program that is left to run after each call, without a run: a `Plan` knows what the program
does with the path to the parent, `Checks` is a program that has still to look for it, `Underway`
one that builds on a tree, and `Frees` one that has set the root.

Source: `mkdir`, `mkdir_valid`, `create` and `create_file_block` of `block_fuse.cc`, `replace_chain`
of `block_util.cc`.

## Main results

* `Addition.exists_plan` — the programs of `mkdir` and `create`
* `Plan.Underway.goes` — the next call of a program that builds on a tree
-/

namespace Pingfs

open Zipper

namespace BlockFuse

open FsM BlockUtil

/-! ## Kinds of programs -/

def IsGet : FsCall → Prop
  | .getBlocks _ => True
  | _ => False

def IsSet : FsCall → Prop
  | .setRootBlock _ => True
  | _ => False

/-- Whatever the request returns, it is no success. -/
abbrev Fails (p : FsM Reply) : Prop := p.Returns fun reply => reply.status ≠ 0

/-- The request has to set the root before it can succeed, and does not look at it before. -/
abbrev MustSet (p : FsM Reply) : Prop :=
  p.Until (fun call => IsGet call ∨ IsCreate call) IsSet fun reply => reply.status ≠ 0

variable {fuel : ℕ} {u v : Inodes} {made : Multiset Block}

theorem gets_searchInode (fuel : ℕ) (name : Str) (ids : List BlockId)
    (retrieved : BlockId → Option Block) : (searchInode name fuel ids retrieved).Only IsGet := by
  induction fuel generalizing ids retrieved with
  | zero => trivial
  | succ fuel ih =>
    rw [searchInode]
    refine Program.only_ite trivial (Program.only_bind ((Program.only_request _).mpr trivial)
      fun response => Program.only_bind (Program.only_ofExcept _) fun found => ?_)
    obtain ⟨target, more, retrieved⟩ := found
    cases target with
    | none => exact ih more retrieved
    | some target => exact trivial

/-- Below the root no search looks at the root again. -/
theorem gets_getPathLoop (fuel : ℕ) {parts : List Str}
    (hparts : ∀ part ∈ parts, part ≠ FsUtil.separator) (fromBlock : Option Block)
    (blocks : List Block) : (getPathLoop fuel parts fromBlock blocks).Only IsGet := by
  induction parts generalizing fromBlock blocks with
  | nil => trivial
  | cons part parts ih =>
    have hpart : (getPathPart fuel part fromBlock).Only IsGet := by
      rw [getPathPart, if_neg (hparts part (List.mem_cons_self ..))]
      refine Program.only_bind (Program.only_ofExcept _) fun fromBlock =>
        Program.only_bind ?_ fun dirFile => Program.only_bind (gets_searchInode ..) fun found => ?_
      · cases fromBlock.tryCastDirFile <;> exact trivial
      · obtain ⟨target, retrieved⟩ := found
        cases target with
        | none => exact trivial
        | some target => exact Program.only_bind (Program.only_ofExcept _) fun _ => trivial
    rw [getPathLoop]
    refine Program.only_bind hpart fun blockPath => ?_
    cases blockPath.getLast? with
    | none => exact trivial
    | some last =>
      exact ih (fun p hp => hparts p (List.mem_cons_of_mem _ hp)) (some last) (blocks ++ blockPath)

/-- The search for a path starts with a look at the root. -/
theorem getPath_eq {path : Str} (hpath : path ≠ []) (fuel : ℕ) :
    getPath fuel path = .call .getRootBlock fun root =>
      getPathLoop fuel (FsUtil.names path) (some root) [root] := by
  rw [getPath, FsUtil.separatePath_eq hpath]
  rfl

/-! ## Plans -/

/-- What comes after the chain is replaced. -/
def finish (old : List Block) (tail : FsM Reply) (lastReplaced : Option Block) : FsM Reply := do
  let newRoot ← .ofExcept (deref lastReplaced)
  setRootBlock newRoot
  freeAll old
  tail

/-- A new inode below the last of the blocks, and what comes after it. -/
def addInode (name : Str) (stat : Stat) (tail : FsM Reply) (blocks : List Block) : FsM Reply := do
  let new ← createBlock (.dirFile ⟨name, stat, []⟩)
  let lastReplaced ← replaceChain blocks.reverse [] [new.id]
  finish blocks tail lastReplaced

theorem replaceRoot_bind (blocks chain : List Block) (childrenToRemove childrenToAdd : List BlockId)
    (tail : FsM Reply) :
    (replaceRoot blocks chain childrenToRemove childrenToAdd >>= fun _ => tail) =
      replaceChain chain childrenToRemove childrenToAdd >>= finish blocks tail := by
  simp only [replaceRoot, Program.bind_assoc]
  rfl

theorem mustSet_finish (old : List Block) (tail : FsM Reply) (lastReplaced : Option Block) :
    MustSet (finish old tail lastReplaced) := by
  cases lastReplaced with
  | none => trivial
  | some newRoot => exact Or.inl trivial

theorem mustSet_of_creates {α : Type} {p : FsM α} {f : α → FsM Reply} (hp : p.Only IsCreate)
    (hf : ∀ a, MustSet (f a)) : MustSet (p >>= f) :=
  Program.until_bind (hp.imp fun _ hcreate => Or.inr hcreate) hf

theorem mustSet_addInode (name : Str) (stat : Stat) (tail : FsM Reply) (blocks : List Block) :
    MustSet (addInode name stat tail blocks) :=
  mustSet_of_creates (creates_createBlock _) fun _ =>
    mustSet_of_creates (creates_replaceChain ..) fun _ => mustSet_finish ..

/-- What a request does with the path to the parent of its inode. -/
structure Plan where
  parent : Str
  name : Str
  stat : Stat
  attach : List Block → FsM Reply
  tail : FsM Reply
  parent_ne : parent ≠ []
  /-- Without a parent it fails. -/
  fails_attach : Fails (attach [])
  attach_path : ∀ z, attach (pathBlocks z) = addInode name stat tail (pathBlocks z)
  attach_cases : ∀ blocks, (∃ reply, reply.status ≠ 0 ∧ attach blocks = pure reply) ∨
    attach blocks = addInode name stat tail blocks
  only_tail : tail.Only IsRead

theorem Plan.mustSet_attach (P : Plan) (blocks : List Block) : MustSet (P.attach blocks) := by
  rcases P.attach_cases blocks with ⟨reply, hstatus, hattach⟩ | hattach
  · rw [hattach]
    exact hstatus
  · rw [hattach]
    exact mustSet_addInode ..

/-- The entry that the request makes. -/
def Plan.entry (P : Plan) : Entry := ⟨P.name, P.stat, []⟩

/-- The number of ids that the request takes. -/
def Plan.cost (P : Plan) : ℕ := (FsUtil.names P.parent).length + 2

/-- A request that has not found the parent yet. It may look around; if it does not fail then, it
looks for the parent. -/
inductive Plan.Checks (P : Plan) (fuel : ℕ) : FsM Reply → Prop
  | fails {p : FsM Reply} (h : Fails p) : Checks P fuel p
  | read {call : FsCall} {next : call.Reply → FsM Reply} (hread : IsRead call)
      (hnext : ∀ r, Checks P fuel (next r)) : Checks P fuel (.call call next)
  | search : Checks P fuel (getPath fuel P.parent >>= P.attach)

theorem Plan.checks_bind {P : Plan} {α : Type} {p : FsM α} {f : α → FsM Reply}
    (hp : p.Only IsRead) (hf : ∀ a, P.Checks fuel (f a)) : P.Checks fuel (p >>= f) := by
  change P.Checks fuel (p.bind f)
  induction p with
  | ret a => exact hf a
  | halt e => exact .fails trivial
  | call call next ih => exact .read hp.1 fun r => ih r (hp.2 r)

end BlockFuse

/-! ## The requests -/

/-- The requests that make an inode, on paths made of names. -/
inductive Addition where
  | mkdir (names : List Str) (mode : ModeT)
  | create (names : List Str) (mode : ModeT)

namespace Addition

open BlockFuse FsM BlockUtil

def names : Addition → List Str
  | mkdir names _ => names
  | create names _ => names

def call : Addition → BlockFuse.Call
  | mkdir names mode => .mkdir (FsUtil.pathOf names) mode
  | create names mode => .create (FsUtil.pathOf names) mode

/-- The stat of the inode, unless the mode is none. -/
def stat (env : Env) (now : Int64) : Addition → Except String Stat
  | mkdir _ bits => (Mode.ofModeT (bits ||| S_IFDIR)).map fun mode =>
    ⟨mode, env.uid, env.gid, 1, now, now, now⟩
  | create _ bits => (Mode.ofModeT bits).map fun mode => genFileStat env now mode 0

variable (env : Env) (now : Int64) (bits : ModeT) (fuel : ℕ)

/-- What `mkdir` does with the path to the parent. -/
def attachDir (stat : Except String Stat) (name : Str) (blocks : List Block) : FsM Reply :=
  match blocks.getLast? with
  | none => pure { status := 1 }
  | some parentDir =>
    match parentDir.tryCastDirFile with
    | none => pure { status := 1 }
    | some _ => do
      let stat ← ofThrowing stat
      addInode name stat (pure { status := 0 }) blocks

theorem program_mkdir {path : Str} (hpath : path ≠ []) (hnames : FsUtil.names path ≠ []) :
    program env fuel now (.mkdir path bits) =
      getattr env fuel path >>= fun found =>
        if found.1 = 0 then pure { status := 1 }
        else getPath fuel (FsUtil.parentPath path) >>=
          attachDir ((Mode.ofModeT (bits ||| S_IFDIR)).map fun mode =>
            ⟨mode, env.uid, env.gid, 1, now, now, now⟩) (Namespace.baseName path) := by
  have hlast : (FsUtil.separator :: FsUtil.names path).getLast?.getD [] =
      Namespace.baseName path := by
    obtain ⟨name, names, hcons⟩ := List.exists_cons_of_ne_nil hnames
    rw [Namespace.baseName, hcons, List.getLast?_cons_cons]
  have hlength : ¬ (FsUtil.separator :: FsUtil.names path).length ≤ 1 := by simpa using hnames
  simp only [program, BlockFuse.mkdir, mkdirValid, FsUtil.separatePath_eq hpath,
    Program.bind_assoc, Program.ofExcept_ok_bind, if_neg hlength]
  congr 1
  funext found
  by_cases hfound : found.1 = 0
  · rw [if_pos hfound, if_pos hfound]
    rfl
  · simp only [if_neg hfound, FsUtil.join_dropLast path hnames, Program.bind_assoc,
      Program.ofExcept_ok_bind, hlast]
    congr 1
    funext blocks
    rw [attachDir]
    cases blocks.getLast? with
    | none => rfl
    | some parentDir =>
      dsimp only
      cases parentDir.tryCastDirFile with
      | none => rfl
      | some dirFile =>
        dsimp only
        cases Mode.ofModeT (bits ||| S_IFDIR) with
        | error what => rfl
        | ok mode =>
          simp only [Program.pure_bind, Program.bind_assoc, ofThrowing, Except.mapError, Except.map,
            Program.ofExcept_ok_bind, addInode, ← replaceRoot_bind]

/-- The look at the file just made. -/
def checkFile (fuel : ℕ) (path : Str) : FsM Reply := do
  let updated ← getPath fuel path
  assert !updated.isEmpty
  pure { status := 0 }

/-- What `create` does with the path to the parent. -/
def attachFile (fuel : ℕ) (path : Str) (stat : Stat) (blocks : List Block) : FsM Reply :=
  if blocks.isEmpty then pure { status := noSuchFileOrDir }
  else addInode (Namespace.baseName path) stat (checkFile fuel path) blocks

theorem program_create {path : Str} (hpath : path ≠ []) (hnames : FsUtil.names path ≠ [])
    {mode : Mode} (hmode : Mode.ofModeT bits = .ok mode) :
    program env fuel now (.create path bits) =
      getPath fuel path >>= fun blocks =>
        if !blocks.isEmpty then pure { status := fileExists }
        else getPath fuel path >>= fun existing =>
          if !existing.isEmpty then pure { status := noSuchFileOrDir }
          else getPath fuel (FsUtil.parentPath path) >>=
            attachFile fuel path (genFileStat env now mode 0) := by
  have hlast : (FsUtil.separator :: FsUtil.names path).getLast?.getD [] =
      Namespace.baseName path := by
    obtain ⟨name, names, hcons⟩ := List.exists_cons_of_ne_nil hnames
    rw [Namespace.baseName, hcons, List.getLast?_cons_cons]
  simp only [program, BlockFuse.create, createFileBlock, FsUtil.separatePath_eq hpath,
    Program.bind_assoc, Program.ofExcept_ok_bind, hmode, ofThrowing, Except.mapError,
    FsUtil.join_dropLast path hnames, hlast]
  congr 1
  funext blocks
  by_cases hblocks : (!blocks.isEmpty) = true
  · rw [if_pos hblocks, if_pos hblocks]
    rfl
  · simp only [if_neg hblocks, Program.bind_assoc]
    congr 1
    funext existing
    by_cases hexisting : (!existing.isEmpty) = true
    · rw [if_pos hexisting, if_pos hexisting]
      rfl
    · simp only [if_neg hexisting, Program.bind_assoc]
      congr 1
      funext parents
      rw [attachFile]
      split
      · rfl
      · simp only [Program.bind_assoc, addInode, ← replaceRoot_bind, checkFile]
        rfl

variable {env now fuel} {names : List Str}

/-- A request whose mode is none fails. -/
theorem fails_of_stat_error {a : Addition} {what : String} (hstat : a.stat env now = .error what) :
    Fails (program env fuel now a.call) := by
  cases a with
  | mkdir names bits =>
    rw [stat, Mode.ofModeT_or_dir] at hstat
    cases hstat
  | create names bits =>
    cases hmode : Mode.ofModeT bits with
    | ok mode =>
      rw [stat, hmode] at hstat
      cases hstat
    | error why =>
      simp only [call, program, BlockFuse.create, Program.bind_assoc, hmode]
      refine Program.returns_bind fun blocks => ?_
      split
      · exact show fileExists ≠ 0 by decide
      · trivial

/-- **The program of a request** is one that looks for the parent. -/
theorem exists_plan {a : Addition} (hvalid : ValidNames a.names) (hne : a.names ≠ []) {st : Stat}
    (hstat : a.stat env now = .ok st) :
    ∃ P : Plan, P.parent = FsUtil.pathOf a.names.dropLast ∧
      P.name = Namespace.baseName (FsUtil.pathOf a.names) ∧ P.stat = st ∧
      P.Checks fuel (program env fuel now a.call) := by
  have hpath := FsUtil.pathOf_ne_nil a.names
  have hnames : FsUtil.names (FsUtil.pathOf a.names) ≠ [] := by rwa [FsUtil.names_pathOf hvalid]
  rw [← FsUtil.parentPath_pathOf hvalid]
  cases a with
  | mkdir names bits =>
    let P : Plan := {
      parent := FsUtil.parentPath (FsUtil.pathOf names)
      name := Namespace.baseName (FsUtil.pathOf names)
      stat := st
      attach := attachDir (.ok st) (Namespace.baseName (FsUtil.pathOf names))
      tail := pure { status := 0 }
      parent_ne := FsUtil.parentPath_ne_nil _
      fails_attach := show (1 : Int32) ≠ 0 by decide
      attach_path := fun z => by
        rw [attachDir, getLast?_pathBlocks]
        rfl
      attach_cases := fun blocks => by
        rw [attachDir]
        split
        · exact Or.inl ⟨_, show (1 : Int32) ≠ 0 by decide, rfl⟩
        · split
          · exact Or.inl ⟨_, show (1 : Int32) ≠ 0 by decide, rfl⟩
          · exact Or.inr rfl
      only_tail := trivial }
    refine ⟨P, rfl, rfl, rfl, ?_⟩
    rw [Addition.names] at hpath hnames
    rw [call, program_mkdir env now bits fuel hpath hnames]
    refine Plan.checks_bind (only_getattr ..) fun found => ?_
    split
    · exact .fails (show (1 : Int32) ≠ 0 by decide)
    · rw [stat] at hstat
      rw [hstat]
      exact .search (P := P)
  | create names bits =>
    obtain ⟨mode, hmode, rfl⟩ : ∃ mode, Mode.ofModeT bits = .ok mode ∧
        genFileStat env now mode 0 = st := by
      rw [stat] at hstat
      cases hmode : Mode.ofModeT bits with
      | error what =>
        rw [hmode] at hstat
        cases hstat
      | ok mode =>
        rw [hmode] at hstat
        exact ⟨mode, rfl, Except.ok.inj hstat⟩
    let P : Plan := {
      parent := FsUtil.parentPath (FsUtil.pathOf names)
      name := Namespace.baseName (FsUtil.pathOf names)
      stat := genFileStat env now mode 0
      attach := attachFile fuel (FsUtil.pathOf names) (genFileStat env now mode 0)
      tail := checkFile fuel (FsUtil.pathOf names)
      parent_ne := FsUtil.parentPath_ne_nil _
      fails_attach := show noSuchFileOrDir ≠ 0 by decide
      attach_path := fun z => by
        rw [attachFile, if_neg (by simp [pathBlocks])]
      attach_cases := fun blocks => by
        rw [attachFile]
        split
        · exact Or.inl ⟨_, show noSuchFileOrDir ≠ 0 by decide, rfl⟩
        · exact Or.inr rfl
      only_tail := Program.only_bind (only_getPath ..) fun _ =>
        Program.only_bind (only_assert _) fun _ => trivial }
    refine ⟨P, rfl, rfl, rfl, ?_⟩
    rw [Addition.names] at hpath hnames
    rw [call, program_create env now bits fuel hpath hnames hmode]
    refine Plan.checks_bind (only_getPath ..) fun blocks => ?_
    split
    · exact .fails (show fileExists ≠ 0 by decide)
    refine Plan.checks_bind (only_getPath ..) fun existing => ?_
    split
    · exact .fails (show noSuchFileOrDir ≠ 0 by decide)
    · exact .search (P := P)

end Addition

namespace BlockFuse

open FsM BlockUtil

variable {P : Plan} {u v : Inodes} {made : Multiset Block} {p : FsM Reply}

/-! ## Building on a tree -/

/-- The tree `v` is `u` with the new entry in it. -/
def Plan.Adds (P : Plan) (u v : Inodes) : Prop :=
  ∃ z, u.resolve P.parent = some z ∧ v.entries = Namespace.add (z.map Node.entry) P.entry

/-- A request that builds on the tree `u` and has made the blocks `made`. -/
inductive Plan.Underway (P : Plan) (u : Inodes) : Multiset Block → FsM Reply → Prop
  /-- It looks for the parent. In the state `s` there is nothing but `u`. -/
  | looking {s : BlockFuse} {p : FsM (List Block)} (hs : Good s u 0) (hp : p.Only IsGet)
      (hcalls : p.EveryCall (handler false) Mapped s)
      (hrun : p.run (handler false) s =
        .returned (((u.resolve P.parent).map pathBlocks).getD []) s) :
      Underway P u 0 (p >>= P.attach)
  /-- It has made the inode. -/
  | inode {z : Zipper Node} (hz : u.resolve P.parent = some z)
      (hok : ChainOk z.frames z.label.id) (id : BlockId) :
      Underway P u {⟨id, .dirFile ⟨P.name, P.stat, []⟩⟩}
        (replaceChain (pathBlocks z).reverse [] [id] >>= finish (pathBlocks z) P.tail)
  /-- It has rebuilt the path up to the frames `fs`. -/
  | climbing {z : Zipper Node} (hz : u.resolve P.parent = some z) {made : Multiset Block}
      {fs : List (Frame Node)} {a : Node} {kids : Forest Node} {child : BlockId}
      (hok : ChainOk fs child)
      (hblocks : a.tree kids + beside fs = made + (z.label.below z.kids + beside z.frames))
      (hentries : Namespace.rebuild (fs.map (mapFrame Node.entry)) a.entry (kids.map Node.entry) =
        Namespace.add (z.map Node.entry) P.entry)
      (hroot : a.block kids ∈ made) (hcard : made.card + fs.length = P.cost)
      (childrenToAdd : List BlockId) :
      Underway P u made (replaceChainLoop childrenToAdd (chain fs child) [child]
        (some (a.block kids)) >>= finish (pathBlocks z) P.tail)

/-- The root of `v` may be set, and the blocks `old` be freed then. -/
structure Plan.Leads (P : Plan) (u : Inodes) (made : Multiset Block) (v : Inodes)
    (old : List Block) : Prop where
  adds : P.Adds u v
  blocks_eq : u.blocks + made = v.blocks + old
  card_made : made.card = P.cost
  length_old : old.length + 1 = P.cost
  root_mem : v.1.block v.2 ∈ made

/-- What a request does next that builds on `u`. -/
inductive Plan.Goes (P : Plan) (u : Inodes) (made : Multiset Block) : FsM Reply → Prop
  | fails {p : FsM Reply} (h : Fails p) : Goes P u made p
  | reads {bs : List Block} {next : List (Option Block) → FsM Reply}
      (hbs : ∀ b ∈ bs, b ∈ u.blocks) (hnext : P.Underway u made (next (bs.map some))) :
      Goes P u made (.call (.getBlocks (bs.map (·.id))) next)
  | creates {data : BlockData} {next : Block → FsM Reply}
      (hnext : ∀ id, P.Underway u (⟨id, data⟩ ::ₘ made) (next ⟨id, data⟩)) :
      Goes P u made (.call (.createBlock data) next)
  | sets {v : Inodes} {old : List Block} (h : P.Leads u made v old) :
      Goes P u made (.call (.setRootBlock (v.1.block v.2)) fun _ =>
        freeAll old >>= fun _ => P.tail)

theorem length_frames {path : Str} {z : Zipper Node} (hz : u.resolve path = some z) :
    z.frames.length = (FsUtil.names path).length := by
  have hlength : (pathKeys Node.name z.frames z.label).length = z.frames.length :=
    length_pathKeys z.frames z.label
  rw [← hlength, pathKeys_descend hz]
  rfl

/-- Ids that are mapped are those of stored blocks. -/
theorem Stores.exists_of_mapped {s : BlockFuse} {blocks : Multiset Block} (hs : Stores s blocks)
    {ids : List BlockId} (hmapped : Mapped (.getBlocks ids) s) :
    ∃ bs : List Block, bs.map (·.id) = ids ∧ ∀ b ∈ bs, b ∈ blocks := by
  replace hmapped : ∀ id ∈ ids, (s.manager.map id).isSome := hmapped
  induction ids with
  | nil => exact ⟨[], rfl, fun _ h => absurd h List.not_mem_nil⟩
  | cons id ids ih =>
    obtain ⟨bs, hbs, hin⟩ := ih fun j hj => hmapped j (List.mem_cons_of_mem _ hj)
    obtain ⟨b, hb, hid⟩ := Multiset.mem_map.mp (hs.holds.isSome_iff.mp
      (hmapped id (List.mem_cons_self ..)))
    refine ⟨b :: bs, by rw [List.map_cons, hbs, hid], fun c hc => ?_⟩
    rcases List.mem_cons.mp hc with rfl | hc
    · exact hb
    · exact hin c hc

theorem Plan.goes_looking {s : BlockFuse} {p : FsM (List Block)} (hs : Good s u 0)
    (hp : p.Only IsGet) (hcalls : p.EveryCall (handler false) Mapped s)
    (hrun : p.run (handler false) s =
      .returned (((u.resolve P.parent).map pathBlocks).getD []) s) :
    P.Goes u 0 (p >>= P.attach) := by
  cases p with
  | ret blocks =>
    obtain ⟨hblocks, -⟩ := Outcome.returned.inj hrun
    subst hblocks
    change P.Goes u 0 (P.attach _)
    cases hz : u.resolve P.parent with
    | none => exact .fails P.fails_attach
    | some z =>
      rw [Option.map_some, Option.getD_some, P.attach_path]
      exact .creates fun id => .inode hz (hs.chainOk (Inodes.plug_resolve hz)) id
  | halt e => cases hrun
  | call call next =>
    cases call with
    | getBlocks ids =>
      obtain ⟨bs, rfl, hbs⟩ := hs.stores.exists_of_mapped hcalls.1
      have hreply := hs.stores.run_getBlocks (k := false) bs hbs
      rw [FsM.getBlocks, Program.run_request] at hreply
      rw [Program.run, hreply] at hrun
      rw [add_zero] at hbs
      exact .reads hbs (.looking hs (hp.2 _) (hcalls.2 _ _ hreply) hrun)
    | createBlock data => exact hp.1.elim
    | managerFreeBlock id => exact hp.1.elim
    | getRootBlock => exact hp.1.elim
    | setRootBlock newRoot => exact hp.1.elim
    | freeBlock id => exact hp.1.elim

/-- The parent gets the new inode as its last child. -/
theorem Plan.goes_inode {z : Zipper Node} (hz : u.resolve P.parent = some z)
    (hok : ChainOk z.frames z.label.id) (id : BlockId) :
    P.Goes u {⟨id, .dirFile ⟨P.name, P.stat, []⟩⟩}
      (replaceChain (pathBlocks z).reverse [] [id] >>= finish (pathBlocks z) P.tail) := by
  rw [reverse_pathBlocks]
  refine .creates fun id' => ?_
  let child : Node := ⟨id, P.name, P.stat, .nil⟩
  let a : Node := { z.label with id := id' }
  have hblock : (⟨id', .dirFile ⟨z.label.name, z.label.stat,
      z.label.data.rootIds ++ Node.rootIds z.kids ++ [id]⟩⟩ : Block) =
        a.block (z.kids ++ Forest.tree child .nil) := by
    simp [Node.block, a, child]
  have hnew : (⟨id, .dirFile ⟨P.name, P.stat, []⟩⟩ : Block) = child.block .nil := rfl
  change P.Underway u (⟨id', .dirFile ⟨z.label.name, z.label.stat,
    z.label.data.rootIds ++ Node.rootIds z.kids ++ [id]⟩⟩ ::ₘ _)
      (replaceChainLoop [id] (chain z.frames z.label.id) [z.label.id] (some ⟨id', .dirFile
        ⟨z.label.name, z.label.stat, z.label.data.rootIds ++ Node.rootIds z.kids ++ [id]⟩⟩) >>=
          finish (pathBlocks z) P.tail)
  rw [hblock, hnew]
  refine .climbing hz hok ?_ ?_ (Multiset.mem_cons_self ..) ?_ [id]
  · simp only [Node.tree, Node.below, Node.blocks_append, Node.blocks_cons, Node.blocks_nil, a,
      child, DataForest.blocks, ← Multiset.singleton_add, add_zero]
    ac_rfl
  · simp [Namespace.add, Zipper.map, Plan.entry, Node.entry, a, child, DataForest.contents]
  · simp only [Multiset.card_cons, Multiset.card_singleton, Plan.cost, length_frames hz]
    omega

theorem Plan.goes_climbing {z : Zipper Node} (hz : u.resolve P.parent = some z)
    {made : Multiset Block} {fs : List (Frame Node)} {a : Node} {kids : Forest Node}
    {child : BlockId} (hok : ChainOk fs child)
    (hblocks : a.tree kids + beside fs = made + (z.label.below z.kids + beside z.frames))
    (hentries : Namespace.rebuild (fs.map (mapFrame Node.entry)) a.entry (kids.map Node.entry) =
      Namespace.add (z.map Node.entry) P.entry)
    (hroot : a.block kids ∈ made) (hcard : made.card + fs.length = P.cost)
    (childrenToAdd : List BlockId) :
    P.Goes u made (replaceChainLoop childrenToAdd (chain fs child) [child]
      (some (a.block kids)) >>= finish (pathBlocks z) P.tail) := by
  cases fs with
  | nil =>
    have hpath := blocks_eq_path (Inodes.plug_resolve hz)
    refine .sets (v := (a, kids)) ⟨⟨z, hz, hentries⟩, ?_, by simpa using hcard, ?_, hroot⟩
    · rw [beside, add_zero] at hblocks
      rw [hpath, Inodes.blocks, hblocks]
      ac_rfl
    · rw [length_pathBlocks, length_frames hz, Plan.cost]
  | cons f fs =>
    obtain ⟨hfirst, hok⟩ := hok
    rw [chain, replaceChainLoop, removeIds_frame f hfirst, Program.ofExcept_ok_bind]
    dsimp only
    rw [replaceBlock_frame, Program.bind_assoc]
    refine .creates fun id => ?_
    let a' : Node := { f.label with id := id }
    have hblock : (⟨id, .dirFile ⟨f.label.name, f.label.stat,
        f.label.data.rootIds ++ (Node.rootIds f.before ++ Node.rootIds f.after) ++ [a.id]⟩⟩ :
          Block) =
          a'.block (f.before ++ f.after ++ Forest.tree a kids) := by
      simp [Node.block, a']
    rw [Node.block_id, hblock]
    refine .climbing hz hok ?_ ?_ (Multiset.mem_cons_self ..) ?_ childrenToAdd
    · rw [beside] at hblocks
      rw [Multiset.cons_add, ← hblocks]
      simp only [Node.tree, Node.below, Node.blocks_append, Node.blocks_cons, Node.blocks_nil, a',
        ← Multiset.singleton_add, add_zero]
      ac_rfl
    · rw [← hentries, List.map_cons, Namespace.rebuild, Namespace.rebuild, graft,
        graft_id _ _ _ (0 + 1) 0]
      simp [mapFrame, a', Node.entry]
    · rw [Multiset.card_cons, ← hcard, List.length_cons]
      omega

/-- **The next call** of a request that builds on a tree. -/
theorem Plan.Underway.goes (h : P.Underway u made p) : P.Goes u made p := by
  cases h with
  | looking hs hp hcalls hrun => exact P.goes_looking hs hp hcalls hrun
  | inode hz hok id => exact P.goes_inode hz hok id
  | climbing hz hok hblocks hentries hroot hcard childrenToAdd =>
    exact P.goes_climbing hz hok hblocks hentries hroot hcard childrenToAdd

theorem Plan.Underway.mustSet (h : P.Underway u made p) : MustSet p := by
  cases h with
  | looking hs hp hcalls hrun =>
    exact Program.until_bind (hp.imp fun _ hget => Or.inl hget) P.mustSet_attach
  | inode hz hok id => exact mustSet_of_creates (creates_replaceChain ..) (mustSet_finish _ _)
  | climbing hz hok hblocks hentries hroot hcard childrenToAdd =>
    exact mustSet_of_creates (creates_replaceChainLoop ..) (mustSet_finish _ _)

/-- A request that has looked at the root of `u` just now. -/
theorem Plan.underway_of_root {s : BlockFuse} (hs : Contains s u.blocks)
    (hroot : s.rootBlock = u.1.block u.2) {fuel : ℕ} (hfuel : u.blocks.card + 1 < fuel) :
    P.Underway u 0 (getPathLoop fuel (FsUtil.names P.parent) (some (u.1.block u.2))
      [u.1.block u.2] >>= P.attach) := by
  have hgood : Good (s.restrict u.blocks) u 0 :=
    ⟨hroot, by simpa using hs.stores_restrict⟩
  have hrun := hgood.run_getPath_of_lt (k := false) P.parent_ne hfuel
  have hcalls := readsMeet_mapped.returned (only_getPath fuel P.parent) hrun
  rw [getPath_eq P.parent_ne] at hrun hcalls
  have hreply : handler false .getRootBlock (s.restrict u.blocks) =
      .returned (u.1.block u.2) (s.restrict u.blocks) := by
    rw [handler, hgood.rootBlock_eq]
  rw [Program.run, hreply] at hrun
  exact .looking hgood (gets_getPathLoop fuel (fun part hpart =>
    FsUtil.ne_separator_of_mem_names hpart) _ _) (hcalls.2 _ _ hreply) hrun

/-! ## Freeing the old path -/

/-- A request that has set the root and has the blocks `old` still to free. -/
def Frees (old : List Block) (p : FsM Reply) : Prop :=
  ∃ tail : FsM Reply, tail.Only IsRead ∧ p = freeAll old >>= fun _ => tail

theorem frees_nil (hp : p.Only IsRead) : Frees [] p := ⟨p, hp, rfl⟩

end BlockFuse

end Pingfs
