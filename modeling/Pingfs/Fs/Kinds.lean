import Pingfs.Fs.FileTree
import Pingfs.Fs.IdOrder

/-!
# Directories and files

Directories and regular files share one kind of block, and so do their children lists. Below a
directory there should be inodes and below a file contents and links; `Separated` says so of a
state. It holds as long as nothing is made below a file: neither `mkdir` nor `create` looks at the
type of the inode it puts its new inode into, and `readdir` does not look at it either.

Source: `mkdir_valid`, `create_file_block` and `readdir` of `block_fuse.cc`, `try_cast_dir_file` of
`block_util.cc`.

## Main results

* `KindsApart.handler` — what a call keeps, if the block it creates fits its children
* `Good.mayCreate_exec` — the blocks that an operation creates fit
* `separated_of_keepsApart` — the states of a run in which nothing is made below a file
* `directory_below_file` — a directory below a file, and the list of it
-/

namespace Pingfs

open Zipper

/-- The block is an inode, of a directory or a regular file. -/
def Block.isInode (b : Block) : Bool := b.tryCastDirFile.isSome

/-- What a block with these data may list: a directory inodes, a file or a link none. -/
def BlockData.Fits : BlockData → Block → Prop
  | .dirFile d, child => child.isInode = d.isDir
  | .link _, child => child.isInode = false
  | .fileContents _, _ => True

def Block.IsFile (b : Block) : Prop := ∃ d, b.data = .dirFile d ∧ d.isDir = false

def Block.IsDirectory (b : Block) : Prop := ∃ d, b.data = .dirFile d ∧ d.isDir = true

theorem Block.isFile_iff (b : Block) : b.IsFile ↔ b.tryCastDirFile.map (·.isDir) = some false := by
  obtain ⟨id, data⟩ := b
  cases data with
  | dirFile d => simp [IsFile, tryCastDirFile]
  | link d => simp [IsFile, tryCastDirFile]
  | fileContents d => simp [IsFile, tryCastDirFile]

instance : DecidablePred Block.IsFile := fun b => decidable_of_iff _ b.isFile_iff.symm

namespace BlockFuse

open FsM BlockUtil

variable {s s' : BlockFuse} {t : Inodes} {garbage rest stored : Multiset Block} {env : Env}

/-! ## One level -/

/-- Stored blocks list only what fits them, and no ids that are still to come. -/
structure KindsApart (s : BlockFuse) : Prop where
  fits : ∀ id b, s.manager.map id = some (some b) → ∀ child ∈ b.children, ∀ c,
    s.manager.map child = some (some c) → b.data.Fits c
  le_idsUsed : ∀ id b, s.manager.map id = some (some b) → ∀ child ∈ b.children,
    child.toNat ≤ s.idsUsed

/-- A block that is created lists ids that were handed out, and what is stored under them fits. -/
def MayCreate : FsCall → BlockFuse → Prop
  | .createBlock data, s => ∀ child ∈ (Block.mk 0 data).children, child.toNat ≤ s.idsUsed ∧
      ∀ c, s.manager.map child = some (some c) → data.Fits c
  | _, _ => True

theorem kindsApart_new (env : Env) (now : Int64) : KindsApart (new env now) := by
  have hchildren : ∀ id b, (new env now).manager.map id = some (some b) → b.children = [] := by
    intro id b hb
    obtain ⟨c, hc, -, hcb⟩ := (good_new env now).stores.holds.exists_of_eq_some hb
    obtain rfl := Option.some.inj hcb
    obtain rfl := Multiset.mem_singleton.mp hc
    rfl
  constructor
  · intro id b hb child hchild
    rw [hchildren id b hb] at hchild
    exact absurd hchild List.not_mem_nil
  · intro id b hb child hchild
    rw [hchildren id b hb] at hchild
    exact absurd hchild List.not_mem_nil

/-- Fewer blocks are stored. -/
theorem KindsApart.of_le (h : KindsApart s)
    (hmap : ∀ id b, s'.manager.map id = some (some b) → s.manager.map id = some (some b))
    (hused : s.idsUsed ≤ s'.idsUsed) : KindsApart s' := by
  constructor
  · intro id b hb child hchild c hc
    exact h.fits id b (hmap id b hb) child hchild c (hmap child c hc)
  · intro id b hb child hchild
    exact (h.le_idsUsed id b (hmap id b hb) child hchild).trans hused

theorem KindsApart.create (h : KindsApart s) {data : BlockData}
    (hmay : MayCreate (.createBlock data) s) (hz : s.manager.idSupplier.next ≠ 0) :
    KindsApart (s.withCreated data) := by
  have hids : s.idsUsed + 1 < 2 ^ 64 := by
    have hne := mt next_eq_zero_iff.mpr hz
    have hlt := s.idsUsed_lt
    omega
  have hnew : (UInt64.ofNat (s.idsUsed + 1) : BlockId).toNat = s.idsUsed + 1 :=
    UInt64.toNat_ofNat_of_lt' hids
  have hmap : (s.withCreated data).manager.map = Function.update s.manager.map
      (.ofNat (s.idsUsed + 1)) (some (some ⟨.ofNat (s.idsUsed + 1), data⟩)) := rfl
  generalize UInt64.ofNat (s.idsUsed + 1) = new at hnew hmap
  -- a stored block is the new one or was stored before
  have hcases : ∀ id b, (s.withCreated data).manager.map id = some (some b) →
      (id = new ∧ b = ⟨new, data⟩) ∨ s.manager.map id = some (some b) := by
    intro id b hb
    rw [hmap] at hb
    by_cases hid : id = new
    · subst hid
      rw [Function.update_self] at hb
      exact Or.inl ⟨rfl, (Option.some.inj (Option.some.inj hb)).symm⟩
    · rw [Function.update_of_ne hid] at hb
      exact Or.inr hb
  have hold : ∀ child : BlockId, child.toNat ≤ s.idsUsed → ∀ c,
      (s.withCreated data).manager.map child = some (some c) →
        s.manager.map child = some (some c) := by
    intro child hle c hc
    refine (hcases child c hc).resolve_left fun ⟨hid, _⟩ => ?_
    rw [hid, hnew] at hle
    omega
  constructor
  · intro id b hb child hchild c hc
    rcases hcases id b hb with ⟨rfl, rfl⟩ | hb
    · obtain ⟨hle, hfits⟩ := hmay child hchild
      exact hfits c (hold child hle c hc)
    · exact h.fits id b hb child hchild c (hold child (h.le_idsUsed id b hb child hchild) c hc)
  · intro id b hb child hchild
    rw [idsUsed_withCreated data hz]
    rcases hcases id b hb with ⟨rfl, rfl⟩ | hb
    · exact (hmay child hchild).1.trans (Nat.le_succ _)
    · exact (h.le_idsUsed id b hb child hchild).trans (Nat.le_succ _)

/-- **One call**, if what it creates fits. -/
theorem KindsApart.handler (call : FsCall) (s : BlockFuse) (h : KindsApart s)
    (hmay : MayCreate call s) : KindsApart (BlockFuse.handler false call s).state := by
  have hfree : ∀ id, KindsApart { s with manager := s.manager.freeBlock id } := by
    refine fun id => h.of_le (fun i b hb => ?_) (Nat.le_refl _)
    have hb : Function.update s.manager.map id none i = some (some b) := hb
    by_cases hi : i = id
    · subst hi
      rw [Function.update_self] at hb
      cases hb
    · rwa [Function.update_of_ne hi] at hb
  cases call with
  | createBlock data =>
    by_cases hz : s.manager.idSupplier.next = 0
    · rwa [(events_createBlock_exhausted data hz).2]
    · rw [(events_createBlock data hz).2]
      exact h.create hmay hz
  | managerFreeBlock id => exact hfree id
  | freeBlock id => exact hfree id
  | getBlocks ids =>
    exact h.of_le (fun id b hb => MemoryBlockManager.map_getBlocks_some hb)
      (idsUsed_le_handler (.getBlocks ids) s)
  | getRootBlock => exact h
  | setRootBlock newRoot => exact h.of_le (fun _ _ hb => hb) (Nat.le_refl _)

/-- When no id is left nothing is created any more. -/
theorem KindsApart.run_of_last (h : KindsApart s) (hlast : s.idsUsed + 1 = 2 ^ 64) {α : Type}
    (p : FsM α) : KindsApart (p.run (BlockFuse.handler false) s).state ∧
      (p.run (BlockFuse.handler false) s).state.idsUsed + 1 = 2 ^ 64 := by
  refine Program.invariant_run (I := fun s => KindsApart s ∧ s.idsUsed + 1 = 2 ^ 64)
    (fun call s ⟨hs, hlast⟩ => ?_) p ⟨h, hlast⟩
  have hle := idsUsed_le_handler call s
  have hlt := (BlockFuse.handler false call s).state.idsUsed_lt
  refine ⟨?_, by omega⟩
  cases call with
  | createBlock data => rwa [(events_createBlock_exhausted data (next_eq_zero_iff.mpr hlast)).2]
  | managerFreeBlock id => exact KindsApart.handler (.managerFreeBlock id) s hs trivial
  | freeBlock id => exact KindsApart.handler (.freeBlock id) s hs trivial
  | getBlocks ids => exact KindsApart.handler (.getBlocks ids) s hs trivial
  | getRootBlock => exact hs
  | setRootBlock newRoot => exact KindsApart.handler (.setRootBlock newRoot) s hs trivial

/-! ## What the operations create -/

/-- The call creates no block. -/
def CreatesNone (call : FsCall) : Prop := ∀ data, call ≠ .createBlock data

theorem everyCall_of_createsNone {α : Type} {p : FsM α} (hp : p.Only CreatesNone) (s : BlockFuse) :
    p.EveryCall (BlockFuse.handler false) MayCreate s := by
  refine hp.everyCall (fun call s hnone => ?_) s
  cases call with
  | createBlock data => exact absurd rfl (hnone data)
  | managerFreeBlock id => trivial
  | freeBlock id => trivial
  | getBlocks ids => trivial
  | getRootBlock => trivial
  | setRootBlock newRoot => trivial

theorem readsMeet_mayCreate : ReadsMeet false MayCreate := by
  intro α p s hp _
  refine everyCall_of_createsNone (hp.imp fun call hread data hcall => ?_) s
  subst hcall
  exact hread

theorem createsNone_forEach {α : Type} {f : α → FsM Unit} (hf : ∀ a, (f a).Only CreatesNone)
    (as : List α) : (forEach f as).Only CreatesNone := by
  induction as with
  | nil => trivial
  | cons a as ih => exact Program.only_bind (hf a) fun _ => ih

theorem createsNone_recursiveFree (fuel : ℕ) (b : Block) :
    (recursiveFreeChildrenBlocks fuel b).Only CreatesNone := by
  induction fuel generalizing b with
  | zero => trivial
  | succ fuel ih =>
    rw [recursiveFreeChildrenBlocks]
    cases b.getChildren with
    | none => exact trivial
    | some children =>
      have hget : (getBlocks children).Only CreatesNone :=
        (Program.only_request _).mpr fun _ h => by cases h
      have hfree : ∀ id, (managerFreeBlock id).Only CreatesNone := fun id =>
        (Program.only_request _).mpr fun _ h => by cases h
      exact Program.only_bind hget fun response =>
        Program.only_bind (createsNone_forEach hfree children) fun _ =>
          createsNone_forEach (fun pointer => Program.only_bind (Program.only_ofExcept _)
            fun child => ih child) response

theorem createsNone_setRootBlock (root : Block) : (setRootBlock root).Only CreatesNone :=
  (Program.only_request _).mpr fun _ h => by cases h

theorem createsNone_freeAll (blocks : List Block) :
    (BlockFuse.freeAll blocks).Only CreatesNone :=
  createsNone_forEach (fun _ => (Program.only_request _).mpr fun _ h => by cases h) blocks

/-- What is left is among what there was. -/
theorem mem_of_removeIds {ids toRemove kept : List BlockId} (h : removeIds ids toRemove = .ok kept)
    {id : BlockId} (hid : id ∈ kept) : id ∈ ids := by
  induction toRemove generalizing ids with
  | nil =>
    obtain rfl := Except.ok.inj h
    exact hid
  | cons i is ih =>
    rw [removeIds] at h
    split at h
    · exact List.mem_of_mem_erase (ih h)
    · cases h

/-- One block is created, and fits. -/
theorem Stores.create_meets (hs : Stores s stored) (h : KindsApart s) {data : BlockData}
    (hmay : MayCreate (.createBlock data) s) {b : Block}
    (hrun : (createBlock data).run (BlockFuse.handler false) s = .returned b s') :
    b.data = data ∧ Stores s' ({b} + stored) ∧ KindsApart s' := by
  have hmeets := hs.createBlock_meets (k := false) data
  have hafter := KindsApart.handler (.createBlock data) s h hmay
  rw [hrun] at hmeets
  rw [FsM.createBlock, Program.run_request] at hrun
  rw [hrun] at hafter
  obtain ⟨rfl, hgrown⟩ := hmeets
  exact ⟨rfl, hgrown.stores, hafter⟩

/-- A chain of directories above a new inode. -/
theorem Stores.mayCreate_replaceChainLoop (hs : Stores s stored) (h : KindsApart s)
    {blocks : List Block} (hblocks : ∀ b ∈ blocks, b ∈ stored ∧ b.IsDirectory)
    (childrenToRemove childrenToAdd : List BlockId) {last : Block} (hlast : last ∈ stored)
    (hinode : last.isInode = true) :
    (replaceChainLoop childrenToAdd blocks childrenToRemove (some last)).EveryCall
      (BlockFuse.handler false) MayCreate s := by
  induction blocks generalizing s stored childrenToRemove last with
  | nil => trivial
  | cons b blocks ih =>
    obtain ⟨⟨hb, d, hdata, hdir⟩, hblocks⟩ := List.forall_mem_cons.mp hblocks
    rw [replaceChainLoop]
    refine Program.everyCall_bind (Program.everyCall_ofExcept _ _) fun kept s₁ hkept => ?_
    cases hremove : removeIds b.children childrenToRemove with
    | error e =>
      rw [hremove] at hkept
      cases hkept
    | ok ids =>
      rw [hremove] at hkept
      obtain ⟨rfl, rfl⟩ := Outcome.returned.inj hkept
      have hreplace : replaceBlockWithDiffChildren b (ids ++ [last.id]) =
          createBlock (.dirFile { d with children := ids ++ [last.id] }) := by
        simp [replaceBlockWithDiffChildren, Block.tryCastLink, Block.tryCastDirFile, hdata]
      have hmay :
          MayCreate (.createBlock (.dirFile { d with children := ids ++ [last.id] })) s := by
        intro child hchild
        rcases List.mem_append.mp (show child ∈ ids ++ [last.id] from hchild) with hchild | hchild
        · have hchild := mem_of_removeIds hremove hchild
          refine ⟨h.le_idsUsed b.id b (hs.holds.get b hb) child hchild, fun c hc => ?_⟩
          have hfits := h.fits b.id b (hs.holds.get b hb) child hchild c hc
          rw [hdata] at hfits
          exact hfits
        · rw [List.mem_singleton.mp hchild]
          refine ⟨hs.le_idsUsed last hlast, fun c hc => ?_⟩
          rw [hs.holds.get last hlast] at hc
          obtain rfl := Option.some.inj (Option.some.inj hc)
          exact hinode.trans hdir.symm
      simp only [hreplace]
      refine Program.everyCall_bind (Program.everyCall_request.mpr hmay) fun new s₂ hnew => ?_
      obtain ⟨hnewData, hs₂, h₂⟩ := hs.create_meets h hmay hnew
      refine ih hs₂ h₂ (fun c hc => ⟨Multiset.mem_add.mpr (Or.inr (hblocks c hc).1),
        (hblocks c hc).2⟩) _ (Multiset.mem_add.mpr (Or.inl (Multiset.mem_singleton_self new))) ?_
      rw [Block.isInode, Block.tryCastDirFile, hnewData]
      rfl

/-- The end of a change, if the children of the first replaced block fit it and the others are
directories. -/
theorem Stores.mayCreate_replaceRoot (hs : Stores s stored) (h : KindsApart s) {b : Block}
    {d : DirFileBlockData} (hb : b.data = .dirFile d)
    {childrenToRemove childrenToAdd kept : List BlockId}
    (hkept : removeIds d.children childrenToRemove = .ok kept)
    (hfits : ∀ child ∈ kept ++ childrenToAdd, child.toNat ≤ s.idsUsed ∧
      ∀ c, s.manager.map child = some (some c) → c.isInode = d.isDir)
    {above : List Block} (habove : ∀ c ∈ above, c ∈ stored ∧ c.IsDirectory) (old : List Block) :
    (replaceRoot old (b :: above) childrenToRemove childrenToAdd).EveryCall
      (BlockFuse.handler false) MayCreate s := by
  have hchildren : b.children = d.children := by
    simp [Block.children, Block.getChildren, Block.tryCastLink, Block.tryCastDirFile, hb]
  have hreplace : replaceBlockWithDiffChildren b (kept ++ childrenToAdd) =
      createBlock (.dirFile { d with children := kept ++ childrenToAdd }) := by
    simp [replaceBlockWithDiffChildren, Block.tryCastLink, Block.tryCastDirFile, hb]
  refine Program.everyCall_bind ?_ fun root s₁ _ => Program.everyCall_bind
    (Program.everyCall_ofExcept _ _) fun newRoot s₂ _ => Program.everyCall_bind
      (everyCall_of_createsNone (createsNone_setRootBlock newRoot) s₂) fun _ s₃ _ =>
        everyCall_of_createsNone (createsNone_freeAll old) s₃
  rw [replaceChain, replaceChainLoop, hchildren, hkept]
  refine Program.everyCall_bind_of_run (Program.everyCall_ofExcept _ _)
    (Program.run_ofExcept_ok ..) ?_
  have hmay : MayCreate (.createBlock (.dirFile { d with children := kept ++ childrenToAdd })) s :=
    hfits
  simp only [hreplace]
  refine Program.everyCall_bind (Program.everyCall_request.mpr hmay) fun new s₁ hnew => ?_
  obtain ⟨hnewData, hs₁, h₁⟩ := hs.create_meets h hmay hnew
  refine hs₁.mayCreate_replaceChainLoop h₁ (fun c hc => ⟨Multiset.mem_add.mpr
    (Or.inr (habove c hc).1), (habove c hc).2⟩) _ _
      (Multiset.mem_add.mpr (Or.inl (Multiset.mem_singleton_self new))) ?_
  rw [Block.isInode, Block.tryCastDirFile, hnewData]
  rfl

/-- What lists an inode is a directory, all the way up. -/
theorem Stores.directory_of_mem_chain (hs : Stores s stored) (h : KindsApart s)
    {fs : List (Frame Node)} {c : Block} (hc : c ∈ stored) (hinode : c.isInode = true)
    (hin : ∀ b ∈ chain fs c.id, b ∈ stored) : ∀ b ∈ chain fs c.id, b ∈ stored ∧ b.IsDirectory := by
  induction fs generalizing c with
  | nil => exact fun b hb => absurd hb List.not_mem_nil
  | cons f fs ih =>
    rw [chain, List.forall_mem_cons] at hin
    obtain ⟨hf, hin⟩ := hin
    have hchild : c.id ∈ (Frame.block f c.id).children := by
      simp [Frame.block, Block.children, Block.getChildren, Block.tryCastLink, Block.tryCastDirFile]
    have hfits := h.fits _ _ (hs.holds.get _ hf) c.id hchild c (hs.holds.get c hc)
    rw [chain, List.forall_mem_cons]
    refine ⟨⟨hf, _, rfl, ?_⟩, ih hf rfl hin⟩
    exact hfits.symm.trans hinode

/-! ### Contents -/

/-- The ids were handed out, and no inode is stored under them. -/
def NoInodes (s : BlockFuse) (ids : List BlockId) : Prop :=
  ∀ id ∈ ids, id.toNat ≤ s.idsUsed ∧ ∀ c, s.manager.map id = some (some c) → c.isInode = false

/-- Data of contents blocks and links to `ids`. -/
def IsContent (ids : List BlockId) : BlockData → Prop
  | .dirFile _ => False
  | .link d => ∀ child ∈ d.children, child ∈ ids
  | .fileContents _ => True

theorem NoInodes.mayCreate {ids : List BlockId} (h : NoInodes s ids) {data : BlockData}
    (hdata : IsContent ids data) : MayCreate (.createBlock data) s := by
  cases data with
  | dirFile d => exact hdata.elim
  | link d =>
    intro child hchild
    exact h child (hdata child hchild)
  | fileContents d => exact fun child hchild => absurd hchild List.not_mem_nil

/-- A new block that is no inode. -/
theorem noInodes_create {ids : List BlockId} {data : BlockData} (hdata : IsContent ids data)
    {b : Block} (hrun : (createBlock data).run (BlockFuse.handler false) s = .returned b s') :
    NoInodes s' [b.id] ∧ ∀ ids, NoInodes s ids → NoInodes s' ids := by
  by_cases hz : s.manager.idSupplier.next = 0
  · rw [run_createBlock_exhausted data hz] at hrun
    cases hrun
  rw [run_createBlock data hz] at hrun
  obtain ⟨rfl, rfl⟩ := Outcome.returned.inj hrun
  have hused := idsUsed_withCreated data hz
  have hids : s.idsUsed + 1 < 2 ^ 64 := by
    have hlt := (s.withCreated data).idsUsed_lt
    omega
  have hnew : (Block.mk (.ofNat (s.idsUsed + 1)) data).isInode = false := by
    cases data with
    | dirFile d => exact hdata.elim
    | link d => rfl
    | fileContents d => rfl
  have hmap : (s.withCreated data).manager.map = Function.update s.manager.map
      (.ofNat (s.idsUsed + 1)) (some (some ⟨.ofNat (s.idsUsed + 1), data⟩)) := rfl
  constructor
  · intro id hid
    obtain rfl := List.mem_singleton.mp hid
    refine ⟨?_, fun c hc => ?_⟩
    · rw [hused, UInt64.toNat_ofNat_of_lt' hids]
    · rw [hmap, Function.update_self] at hc
      rwa [← Option.some.inj (Option.some.inj hc)]
  · intro ids h id hid
    obtain ⟨hle, hnone⟩ := h id hid
    refine ⟨hused ▸ hle.trans (Nat.le_succ _), fun c hc => ?_⟩
    rw [hmap] at hc
    by_cases hsame : id = .ofNat (s.idsUsed + 1)
    · rw [hsame, Function.update_self] at hc
      rwa [← Option.some.inj (Option.some.inj hc)]
    · rw [Function.update_of_ne hsame] at hc
      exact hnone c hc

theorem mayCreate_createAll {ids : List BlockId} (h : NoInodes s ids) {datas : List BlockData}
    (hdatas : ∀ data ∈ datas, IsContent ids data) :
    (createAll datas).EveryCall (BlockFuse.handler false) MayCreate s ∧
      ∀ bs s', (createAll datas).run (BlockFuse.handler false) s = .returned bs s' →
        NoInodes s' (bs.map (·.id)) ∧ ∀ ids, NoInodes s ids → NoInodes s' ids := by
  induction datas generalizing s with
  | nil =>
    refine ⟨trivial, fun bs s' hrun => ?_⟩
    obtain ⟨rfl, rfl⟩ := Outcome.returned.inj hrun
    exact ⟨fun id hid => absurd hid List.not_mem_nil, fun _ h => h⟩
  | cons data datas ih =>
    obtain ⟨hdata, hdatas⟩ := List.forall_mem_cons.mp hdatas
    constructor
    · refine Program.everyCall_bind (Program.everyCall_request.mpr (h.mayCreate hdata))
        fun b s₁ hb => ?_
      have hkeeps := (noInodes_create hdata hb).2
      exact Program.everyCall_bind (ih (hkeeps ids h) hdatas).1 fun _ _ _ => trivial
    · intro bs s' hrun
      rw [createAll, Program.run_bind] at hrun
      cases hb : (createBlock data).run (BlockFuse.handler false) s with
      | halted e s₁ =>
        rw [hb] at hrun
        cases hrun
      | returned b s₁ =>
        obtain ⟨hone, hkeeps⟩ := noInodes_create hdata hb
        rw [hb, Outcome.bind_returned, Program.run_bind] at hrun
        cases hbs : (createAll datas).run (BlockFuse.handler false) s₁ with
        | halted e s₂ =>
          rw [hbs] at hrun
          cases hrun
        | returned more s₂ =>
          rw [hbs] at hrun
          obtain ⟨rfl, rfl⟩ := Outcome.returned.inj hrun
          obtain ⟨hmore, hkeeps'⟩ := (ih (hkeeps ids h) hdatas).2 more s₂ hbs
          refine ⟨fun id hid => ?_, fun ids h => hkeeps' ids (hkeeps ids h)⟩
          rw [List.map_cons, List.mem_cons] at hid
          rcases hid with rfl | hid
          · exact hkeeps' _ hone _ (List.mem_singleton_self _)
          · exact hmore id hid

theorem mayCreate_addLinkLayers (size depth : ℕ) {blocks : List Block}
    (h : NoInodes s (blocks.map (·.id))) :
    (addLinkLayers size depth blocks).EveryCall (BlockFuse.handler false) MayCreate s ∧
      ∀ bs s', (addLinkLayers size depth blocks).run (BlockFuse.handler false) s =
        .returned bs s' → NoInodes s' (bs.map (·.id)) := by
  induction depth generalizing s blocks with
  | zero =>
    refine ⟨trivial, fun bs s' hrun => ?_⟩
    obtain ⟨rfl, rfl⟩ := Outcome.returned.inj hrun
    exact h
  | succ depth ih =>
    have hlinks : ∀ data ∈ (List.range (ceilDiv blocks.length size)).map fun i =>
        (BlockData.link ⟨(chunk size blocks i).map (·.id)⟩),
          IsContent (blocks.map (·.id)) data := by
      intro data hdata
      obtain ⟨i, -, rfl⟩ := List.mem_map.mp hdata
      intro child hchild
      rw [map_chunk] at hchild
      exact List.mem_of_mem_drop (List.mem_of_mem_take hchild)
    obtain ⟨hcalls, hmade⟩ := mayCreate_createAll h hlinks
    refine ⟨Program.everyCall_bind hcalls fun links s₁ hrun => (ih (hmade links s₁ hrun).1).1,
      fun bs s' hrun => ?_⟩
    rw [addLinkLayers, Program.run_bind] at hrun
    obtain ⟨links, s₁, hlayer, hrest⟩ := Outcome.bind_eq_returned.mp hrun
    exact (ih (hmade links s₁ hlayer).1).2 bs s' hrest

/-- The blocks of some contents fit, and the ids to add are those of contents and links. -/
theorem mayCreate_idsToAdd (depth : ℕ → ℕ → ℕ) (blocks : List Block) (contents : Bytes)
    (s : BlockFuse) :
    let idsToAdd : FsM (List BlockId) := if contents.isEmpty then pure []
      else replaceBlocksForContents depth blocks contents bytesPerBlock branchingFactor
    idsToAdd.EveryCall (BlockFuse.handler false) MayCreate s ∧
      ∀ ids s', idsToAdd.run (BlockFuse.handler false) s = .returned ids s' → NoInodes s' ids := by
  have hempty : NoInodes s [] := fun id hid => absurd hid List.not_mem_nil
  have hleaves : ∀ data ∈ (leafData contents bytesPerBlock).map fun data =>
      (BlockData.fileContents ⟨data⟩), IsContent [] data := by
    intro data hdata
    obtain ⟨bytes, -, rfl⟩ := List.mem_map.mp hdata
    trivial
  have hasserts : ∀ c, (assert c).Only CreatesNone := fun c => Program.only_ite trivial trivial
  intro idsToAdd
  cases hcontents : contents.isEmpty with
  | true =>
    have hnone : idsToAdd = pure [] := if_pos hcontents
    rw [hnone]
    refine ⟨trivial, fun ids s' hrun => ?_⟩
    obtain ⟨rfl, rfl⟩ := Outcome.returned.inj hrun
    exact hempty
  | false =>
    have hsome : idsToAdd = replaceBlocksForContents depth blocks contents bytesPerBlock
        branchingFactor := if_neg (by rw [hcontents]; exact Bool.false_ne_true)
    rw [hsome]
    constructor
    · refine Program.everyCall_bind (everyCall_of_createsNone (hasserts _) s) fun _ s₁ hfirst =>
        Program.everyCall_bind (everyCall_of_createsNone (hasserts _) s₁) fun _ s₂ hsecond => ?_
      have hempty₂ : NoInodes s₂ [] := fun id hid => absurd hid List.not_mem_nil
      obtain ⟨hcalls, hmade⟩ := mayCreate_createAll hempty₂ hleaves
      exact Program.everyCall_bind hcalls fun leaves s₃ hrun => Program.everyCall_bind
        (mayCreate_addLinkLayers _ _ (hmade leaves s₃ hrun).1).1 fun _ _ _ => trivial
    · intro ids s' hrun
      simp only [replaceBlocksForContents, Program.run_bind] at hrun
      obtain ⟨-, s₁, -, hrun⟩ := Outcome.bind_eq_returned.mp hrun
      obtain ⟨-, s₂, -, hrun⟩ := Outcome.bind_eq_returned.mp hrun
      obtain ⟨leaves, s₃, hleavesRun, hrun⟩ := Outcome.bind_eq_returned.mp hrun
      obtain ⟨links, s₄, hlinksRun, hrun⟩ := Outcome.bind_eq_returned.mp hrun
      obtain ⟨rfl, rfl⟩ := Outcome.returned.inj hrun
      have hempty₂ : NoInodes s₂ [] := fun id hid => absurd hid List.not_mem_nil
      have hmade := (mayCreate_createAll hempty₂ hleaves).2 leaves s₃ hleavesRun
      exact (mayCreate_addLinkLayers _ _ hmade.1).2 links s₄ hlinksRun

/-! ### The operations -/

theorem KindsApart.of_returned (h : KindsApart s) {α : Type} {p : FsM α}
    (hp : p.EveryCall (BlockFuse.handler false) MayCreate s) {a : α}
    (hrun : p.run (BlockFuse.handler false) s = .returned a s') : KindsApart s' := by
  have hafter := hp.invariant KindsApart.handler h
  rwa [hrun] at hafter

/-- The way up from an inode that is stored with it. -/
theorem Stores.directories_above (hs : Stores s stored) (h : KindsApart s) {z : Zipper Node}
    (hin : ∀ b ∈ pathBlocks z, b ∈ stored) :
    ∀ b ∈ chain z.frames z.label.id, b ∈ stored ∧ b.IsDirectory := by
  simp only [pathBlocks, List.mem_reverse, List.forall_mem_cons] at hin
  exact hs.directory_of_mem_chain h hin.1 rfl hin.2

theorem mem_of_pathBlocks {z : Zipper Node} (garbage : Multiset Block)
    (hz : plug z.frames z.label z.kids = t) : ∀ b ∈ pathBlocks z, b ∈ t.blocks + garbage := by
  intro b hb
  rw [blocks_eq_path hz]
  exact Multiset.mem_add.mpr (Or.inl (Multiset.mem_add.mpr (Or.inl hb)))

/-- A new inode below a directory. -/
theorem Good.addMeets_mayCreate (h : Good s t garbage) (hkinds : KindsApart s) {z : Zipper Node}
    (hz : plug z.frames z.label z.kids = t) (hdir : z.label.stat.isDir = true) (name : Str)
    (stat : Stat) : AddMeets false MayCreate s z name stat := by
  have hmay : MayCreate (.createBlock (.dirFile ⟨name, stat, []⟩)) s :=
    fun child hchild => absurd hchild List.not_mem_nil
  refine ⟨hmay, fun new s₁ hnew => ?_⟩
  obtain ⟨hdata, hs₁, h₁⟩ := h.stores.create_meets hkinds hmay hnew
  have hin : ∀ b ∈ pathBlocks z, b ∈ ({new} + (t.blocks + garbage) : Multiset Block) :=
    fun b hb => Multiset.mem_add.mpr (Or.inr (mem_of_pathBlocks garbage hz b hb))
  have hparent : z.label.block z.kids ∈ ({new} + (t.blocks + garbage) : Multiset Block) :=
    hin _ (by simp [pathBlocks])
  have hnewIn : new ∈ ({new} + (t.blocks + garbage) : Multiset Block) :=
    Multiset.mem_add.mpr (Or.inl (Multiset.mem_singleton_self new))
  have hget := hs₁.holds.get _ hparent
  rw [reverse_pathBlocks]
  refine hs₁.mayCreate_replaceRoot h₁ rfl (show removeIds _ [] = .ok _ from rfl)
    (fun child hchild => ?_) (hs₁.directories_above h₁ hin) _
  rcases List.mem_append.mp hchild with hchild | hchild
  · exact ⟨h₁.le_idsUsed _ _ hget child hchild, fun c hc => h₁.fits _ _ hget child hchild c hc⟩
  · rw [List.mem_singleton.mp hchild]
    refine ⟨hs₁.le_idsUsed new hnewIn, fun c hc => ?_⟩
    rw [hs₁.holds.get new hnewIn] at hc
    obtain rfl := Option.some.inj (Option.some.inj hc)
    have hinode : new.isInode = true := by
      rw [Block.isInode, Block.tryCastDirFile, hdata]
      rfl
    exact hinode.trans hdir.symm

theorem Good.mayCreate_rmdir (h : Good s t garbage) (hkinds : KindsApart s) {path : Str}
    (hpath : path ≠ []) :
    (rmdir s.fuel path).EveryCall (BlockFuse.handler false) MayCreate s := by
  refine h.everyCall_rmdir readsMeet_mayCreate hpath fun a kids f fs hz => ?_
  have hin := mem_of_pathBlocks garbage (Inodes.plug_resolve hz)
  simp only [pathBlocks, chain, List.mem_reverse, List.forall_mem_cons] at hin
  obtain ⟨-, hparent, hin⟩ := hin
  have hget := h.stores.holds.get _ hparent
  refine ⟨?_, fun s₁ _ => everyCall_of_createsNone (createsNone_recursiveFree ..) s₁⟩
  have hok := h.chainOk (Inodes.plug_resolve hz)
  have hkept := removeIds_frame f hok.1
  refine h.stores.mayCreate_replaceRoot hkinds rfl hkept (fun child hchild => ?_)
    (h.stores.directory_of_mem_chain hkinds hparent rfl hin) _
  rw [List.append_nil] at hchild
  have hchild := mem_of_removeIds hkept hchild
  exact ⟨hkinds.le_idsUsed _ _ hget child hchild,
    fun c hc => hkinds.fits _ _ hget child hchild c hc⟩

theorem Good.mayCreate_write (h : Good s t garbage) (hkinds : KindsApart s) (env : Env)
    (now : Int64) {path : Str} (hpath : path ≠ []) (buffer : Bytes) (offset : Int64) :
    (write env s.fuel now path buffer offset).EveryCall (BlockFuse.handler false) MayCreate s := by
  refine h.everyCall_write readsMeet_mayCreate env now hpath buffer offset fun z hz hfile => ?_
  have hplug := Inodes.plug_resolve hz
  have hstores : Stores s (z.label.below z.kids +
      (pathBlocks z + (beside z.frames + garbage))) := by
    convert h.stores using 1
    rw [blocks_eq_path hplug]
    ac_rfl
  obtain ⟨s₁, hfree, hs₁, -, -⟩ := hstores.recursiveFree (k := false)
    (b := z.label.block z.kids) rfl (Nat.lt_of_succ_lt (h.card_tree_lt_fuel hplug))
  have hcalls := everyCall_of_createsNone (createsNone_recursiveFree s.fuel
    (z.label.block z.kids)) s
  refine ⟨hcalls, fun s₂ contents hrun => ?_⟩
  have h₂ := hkinds.of_returned hcalls hrun
  rw [hfree] at hrun
  obtain rfl := (Outcome.returned.inj hrun).2
  obtain ⟨hids, hmade⟩ := mayCreate_idsToAdd env.depth (pathBlocks z) contents s₁
  have hassert : (!(pathBlocks z).isEmpty) = true := by simp [pathBlocks]
  rw [writeFileStartingAtNode, assert, hassert]
  refine Program.everyCall_bind_of_run trivial (show _ = Outcome.returned () s₁ from rfl)
    (Program.everyCall_bind hids fun ids s₃ hrun => ?_)
  have hcreates : (if contents.isEmpty then pure [] else replaceBlocksForContents env.depth
      (pathBlocks z) contents bytesPerBlock branchingFactor : FsM (List BlockId)).Only IsCreate :=
    Program.only_ite trivial (creates_replaceBlocksForContents ..)
  obtain ⟨created, hgrown⟩ := Stores.grown_of_run hcreates hs₁ hrun
  have hs₃ := hgrown.stores
  have h₃ := h₂.of_returned hids hrun
  rw [reverse_pathBlocks]
  refine Program.everyCall_bind_of_run (Program.everyCall_ofExcept _ _)
    (show _ = Outcome.returned _ s₃ from rfl) ?_
  refine hs₃.mayCreate_replaceRoot h₃ (d := ⟨z.label.name, writtenStat now z.label.stat contents,
    z.label.data.rootIds ++ Node.rootIds z.kids⟩) rfl (removeIds_self _) (fun child hchild => ?_)
    (hs₃.directories_above h₃ fun b hb => ?_) _
  · obtain ⟨hle, hnone⟩ := hmade ids s₃ hrun child (by simpa using hchild)
    exact ⟨hle, fun c hc => (hnone c hc).trans hfile.symm⟩
  · exact Multiset.mem_add.mpr (Or.inr (Multiset.mem_add.mpr (Or.inl hb)))

/-! ## Calls below files -/

/-- What the code finds under the path. -/
def resolved (s : BlockFuse) (path : Str) : Option Block :=
  ((resolveInode s.fuel path).run (BlockFuse.handler false) s).result.toOption.join

/-- It is the inode of a regular file. -/
def ResolvesToFile (s : BlockFuse) (path : Str) : Prop := ∃ b ∈ resolved s path, b.IsFile

instance (s : BlockFuse) (path : Str) : Decidable (ResolvesToFile s path) :=
  inferInstanceAs (Decidable (∃ b ∈ resolved s path, b.IsFile))

/-- The filler refuses `.` or `..` of the directory that the block would be. -/
def Refuses (env : Env) (filler : Filler) (b : Block) : Prop :=
  ∀ d, b.data = .dirFile d →
    let dot : DirEntry := ([0x2e], some (statBuf env d.stat))
    filler [] dot ≠ 0 ∨ filler [dot] ([0x2e, 0x2e], none) ≠ 0

/-- The call does not treat a file as a directory: it makes nothing below one, and where it lists
one its filler refuses. -/
def KeepsApart (env : Env) (s : BlockFuse) (call : Int64 × Call) : Prop :=
  match call.2 with
  | .mkdir path _ | .create path _ => ¬ ResolvesToFile s (FsUtil.parentPath path)
  | .readdir path filler => ∀ b ∈ resolved s path, b.IsFile → Refuses env filler b
  | _ => True

/-- What calls on files should do: `mkdir` and `create` below a file fail and change nothing,
`readdir` of a file fails. -/
def Behaves (env : Env) (s : BlockFuse) (call : Int64 × Call) : Prop :=
  match call.2 with
  | .mkdir path _ | .create path _ => ResolvesToFile s (FsUtil.parentPath path) →
      (∃ reply, (exec env false s call).result = .ok reply ∧ reply.status ≠ 0) ∧
        BlockFuse.step env false s call = s
  | .readdir path _ => ResolvesToFile s path →
      ∃ reply, (exec env false s call).result = .ok reply ∧ reply.status ≠ 0
  | _ => True

theorem Good.resolved_eq (h : Good s t garbage) {path : Str} (hpath : path ≠ []) :
    resolved s path = (t.resolve path).map fun z => z.label.block z.kids := by
  rw [resolved, resolveInode, Program.run_bind, h.run_getPath hpath]
  cases t.resolve path with
  | none => rfl
  | some z => simp [getLast?_pathBlocks, Except.toOption]

theorem Good.resolvesToFile_iff (h : Good s t garbage) {path : Str} (hpath : path ≠ []) :
    ResolvesToFile s path ↔ ∃ z, t.resolve path = some z ∧ z.label.stat.isDir = false := by
  rw [ResolvesToFile, h.resolved_eq hpath]
  constructor
  · rintro ⟨b, hb, d, hd, hfile⟩
    obtain ⟨z, hz, rfl⟩ := Option.map_eq_some_iff.mp hb
    obtain rfl := BlockData.dirFile.inj hd
    exact ⟨z, hz, hfile⟩
  · rintro ⟨z, hz, hfile⟩
    exact ⟨z.label.block z.kids, by rw [hz]; rfl, ⟨z.label.name, z.label.stat, _⟩, rfl, hfile⟩

/-- **What an operation creates fits**, as long as it makes nothing below a file. -/
theorem Good.mayCreate_exec (h : Good s t garbage) (hkinds : KindsApart s)
    {call : Int64 × Call} (hkeeps : KeepsApart env s call) :
    (program env s.fuel call.1 call.2).EveryCall (BlockFuse.handler false) MayCreate s := by
  by_cases hpath : call.2.path = []
  · obtain ⟨now, call⟩ := call
    cases call <;> obtain rfl : _ = [] := hpath <;> exact trivial
  by_cases hquery : call.2.isQuery = true
  · exact h.everyCall_of_isQuery readsMeet_mayCreate env hquery
  have hdirectory : ∀ {path : Str}, ¬ ResolvesToFile s (FsUtil.parentPath path) →
      ∀ z, t.resolve (FsUtil.parentPath path) = some z → z.label.stat.isDir = true := by
    intro path hfile z hz
    by_contra hdir
    exact hfile ((h.resolvesToFile_iff (FsUtil.parentPath_ne_nil path)).mpr
      ⟨z, hz, Bool.not_eq_true _ ▸ hdir⟩)
  obtain ⟨now, call⟩ := call
  cases call with
  | mkdir path bits =>
    exact Program.everyCall_bind (h.everyCall_mkdir readsMeet_mayCreate env now hpath
      fun z mode _ hz => h.addMeets_mayCreate hkinds (Inodes.plug_resolve hz)
        (hdirectory hkeeps z hz) _ _) fun _ _ _ => trivial
  | create path bits =>
    exact Program.everyCall_bind (h.everyCall_create readsMeet_mayCreate env now hpath
      fun z mode _ hz => h.addMeets_mayCreate hkinds (Inodes.plug_resolve hz)
        (hdirectory hkeeps z hz) _ _) fun _ _ _ => trivial
  | rmdir path => exact Program.everyCall_bind (h.mayCreate_rmdir hkinds hpath) fun _ _ _ => trivial
  | unlink path =>
    exact Program.everyCall_bind (h.mayCreate_rmdir hkinds hpath) fun _ _ _ => trivial
  | write path buffer offset =>
    exact Program.everyCall_bind (h.mayCreate_write hkinds env now hpath buffer offset)
      fun _ _ _ => trivial
  | getattr path => exact absurd rfl hquery
  | readdir path filler => exact absurd rfl hquery
  | read path size offset => exact absurd rfl hquery

/-! ## Runs -/

/-- Kinds are apart, in the state of a tree or one without ids left. -/
def KindsOk (s : BlockFuse) : Prop := KindsApart s ∧ (Intact s ∨ s.idsUsed + 1 = 2 ^ 64)

theorem KindsOk.step (h : KindsOk s) {call : Int64 × Call} (hkeeps : KeepsApart env s call) :
    KindsOk (BlockFuse.step env false s call) := by
  obtain ⟨hkinds, ⟨t, garbage, hgood⟩ | hlast⟩ := h
  · refine ⟨(hgood.mayCreate_exec hkinds hkeeps).invariant KindsApart.handler hkinds, ?_⟩
    have hends := hgood.exec_ends env call
    rw [BlockFuse.step]
    generalize exec env false s call = o at hends ⊢
    cases hends with
    | idle =>
      rw [Outcome.state_of]
      exact Or.inl ⟨t, garbage, hgood⟩
    | changed hnext hgood' => exact Or.inl ⟨_, _, hgood'⟩
    | ranOut hquery hroot hlast => exact Or.inr hlast
  · obtain ⟨hkinds', hlast'⟩ := hkinds.run_of_last hlast (program env s.fuel call.1 call.2)
    exact ⟨hkinds', Or.inr hlast'⟩

/-- `child` is listed by the block stored under `id`, directly or through links. -/
inductive LinksTo (s : BlockFuse) : BlockId → BlockId → Prop
  | child {id child : BlockId} (hchild : Lists s id child) : LinksTo s id child
  | link {id mid child : BlockId} {b : Block} (hmid : LinksTo s id mid)
      (hb : s.manager.map mid = some (some b)) (hlink : b.tryCastLink.isSome = true)
      (hchild : child ∈ b.children) : LinksTo s id child

/-- No inode lies below a file, and no contents lie directly or through links below a directory. -/
structure Separated (s : BlockFuse) : Prop where
  below_file : ∀ id b, s.manager.map id = some (some b) → b.IsFile →
    ∀ child c, Relation.TransGen (Lists s) id child → s.manager.map child = some (some c) →
      c.isInode = false
  below_directory : ∀ id b, s.manager.map id = some (some b) → b.IsDirectory →
    ∀ child c, LinksTo s id child → s.manager.map child = some (some c) → c.tryCastContents = none

theorem KindsApart.separated (h : KindsApart s) : Separated s := by
  constructor
  · intro id b hb hfile child c hpath
    induction hpath generalizing c with
    | single hchild =>
      intro hc
      obtain ⟨b', hb', hmem⟩ := hchild
      obtain rfl : b = b' := Option.some.inj (Option.some.inj (hb.symm.trans hb'))
      obtain ⟨d, hd, hdir⟩ := hfile
      have hfits := h.fits id b hb _ hmem c hc
      rw [hd] at hfits
      exact hfits.trans hdir
    | tail _ hchild ih =>
      intro hc
      obtain ⟨m, hm, hmem⟩ := hchild
      have hnone := ih m hm
      have hfits := h.fits _ m hm _ hmem c hc
      obtain ⟨i, data⟩ := m
      cases data with
      | dirFile d => cases hnone
      | link d => exact hfits
      | fileContents d => exact absurd hmem List.not_mem_nil
  · intro id b hb hdirectory
    -- what a directory lists are inodes, so no links lead on
    suffices hinode : ∀ child, LinksTo s id child → ∀ c, s.manager.map child = some (some c) →
        c.isInode = true by
      intro child c hlinks hc
      have hc := hinode child hlinks c hc
      obtain ⟨i, data⟩ := c
      cases data with
      | dirFile d => rfl
      | link d => cases hc
      | fileContents d => cases hc
    intro child hlinks
    induction hlinks with
    | child hchild =>
      intro c hc
      obtain ⟨b', hb', hmem⟩ := hchild
      obtain rfl : b = b' := Option.some.inj (Option.some.inj (hb.symm.trans hb'))
      obtain ⟨d, hd, hdir⟩ := hdirectory
      have hfits := h.fits id b hb _ hmem c hc
      rw [hd] at hfits
      exact hfits.trans hdir
    | @link mid child m hmid hm hlink hchild ih =>
      have hinode := ih m hm
      obtain ⟨i, data⟩ := m
      cases data with
      | dirFile d => cases hlink
      | link d => cases hinode
      | fileContents d => cases hlink

/-- A listing with a refusing filler fails, in any state. -/
theorem behaves_of_keepsApart {call : Int64 × Call} (h : KeepsApart env s call) :
    Behaves env s call := by
  obtain ⟨now, call⟩ := call
  cases call with
  | mkdir path bits => exact fun hfile => absurd hfile h
  | create path bits => exact fun hfile => absurd hfile h
  | readdir path filler =>
    rintro ⟨b, hb, hfile⟩
    obtain ⟨d, hd, hdir⟩ := id hfile
    have hrefuses := h b hb hfile d hd
    have hcast : b.tryCastDirFile = some d := by rw [Block.tryCastDirFile, hd]
    rw [Option.mem_def, resolved, Option.join_eq_some_iff] at hb
    cases hrun : (resolveInode s.fuel path).run (BlockFuse.handler false) s with
    | halted e s' =>
      rw [hrun] at hb
      cases hb
    | returned found s' =>
      rw [hrun] at hb
      obtain rfl := Option.some.inj hb
      rw [resolveInode, Program.run_bind] at hrun
      obtain ⟨blocks, s₁, hpath, hreturned⟩ := Outcome.bind_eq_returned.mp hrun
      obtain ⟨hlast, rfl⟩ := Outcome.returned.inj hreturned
      simp only [exec, program, readdir, Program.run_bind, hpath, Outcome.bind_returned, hlast,
        hcast]
      split
      case isTrue hdot => exact ⟨_, rfl, hdot⟩
      case isFalse hdot =>
        have hdotDot := hrefuses.resolve_left (not_not_intro (not_not.mp hdot))
        rw [if_pos hdotDot]
        exact ⟨_, rfl, hdotDot⟩
  | rmdir path => trivial
  | unlink path => trivial
  | write path buffer offset => trivial
  | getattr path => trivial
  | read path size offset => trivial

/-! ### Where the calls go wrong -/

/-- No inode is below a file. -/
theorem Good.kids_eq_nil (h : Good s t garbage) (hkinds : KindsApart s) {z : Zipper Node}
    (hz : plug z.frames z.label z.kids = t) (hfile : z.label.stat.isDir = false) :
    z.kids = .nil := by
  cases hkids : z.kids with
  | nil => rfl
  | cons a akids others =>
    have hin : ∀ b ∈ z.label.tree z.kids, b ∈ t.blocks + garbage :=
      fun b hb => Multiset.mem_of_le (h.tree_le hz) hb
    rw [hkids, Node.tree, Multiset.forall_mem_cons] at hin
    obtain ⟨hz, hbelow⟩ := hin
    have ha : a.block akids ∈ t.blocks + garbage :=
      hbelow _ (Node.mem_below_of_childBlocks (by simp [Node.childBlocks, Node.rootBlocks]))
    have hfits := hkinds.fits _ _ (h.stores.holds.get _ hz) a.id (by simp) _
      (h.stores.holds.get _ ha)
    have hinode : true = z.label.stat.isDir := hfits
    rw [hfile] at hinode
    cases hinode

/-- So nothing is found there. -/
theorem Good.resolve_below_file (h : Good s t garbage) (hkinds : KindsApart s) {names : List Str}
    (hvalid : ValidNames names) (hne : names ≠ []) {z : Zipper Node}
    (hz : t.resolve (FsUtil.parentPath (FsUtil.pathOf names)) = some z)
    (hfile : z.label.stat.isDir = false) : t.resolve (FsUtil.pathOf names) = none := by
  have hkids := h.kids_eq_nil hkinds (Inodes.plug_resolve hz) hfile
  rw [FsUtil.parentPath_pathOf hvalid, Inodes.resolve, resolve,
    FsUtil.names_pathOf hvalid.dropLast] at hz
  rw [Inodes.resolve, resolve, FsUtil.names_pathOf hvalid,
    ← List.dropLast_append_getLast hne, descend_append, hz, Option.bind_some, descend_cons, down,
    hkids]
  rfl

/-- A listing fails only if the filler refuses one of the first two entries. -/
theorem refused_of_listing {stat : Stat} {kids : Forest Entry} {filler : Filler}
    (h : (Namespace.listing env stat kids filler).status ≠ 0) :
    let dot : DirEntry := ([0x2e], some (statBuf env stat))
    filler [] dot ≠ 0 ∨ filler [dot] ([0x2e, 0x2e], none) ≠ 0 := by
  by_contra hrefuses
  obtain ⟨hdot, hdotDot⟩ := not_or.mp hrefuses
  refine h ?_
  rw [Namespace.listing, if_neg hdot, if_neg hdotDot]

/-- In the state of a tree, a call that behaves keeps kinds apart. -/
theorem Good.keepsApart_of_behaves (h : Good s t garbage) (hkinds : KindsApart s)
    {call : Int64 × Call} {names : List Str} (hvalid : ValidNames names) (hne : names ≠ [])
    (hpath : call.2.path = FsUtil.pathOf names) (hbehaves : Behaves env s call) :
    KeepsApart env s call := by
  have hne' := FsUtil.pathOf_ne_nil names
  obtain ⟨now, call⟩ := call
  cases call with
  | mkdir path bits =>
    obtain rfl : path = FsUtil.pathOf names := hpath
    intro hfile
    obtain ⟨⟨reply, hreply, hstatus⟩, -⟩ := hbehaves hfile
    obtain ⟨z, hz, hdir⟩ := (h.resolvesToFile_iff (FsUtil.parentPath_ne_nil _)).mp hfile
    have hmeets := h.mkdir_meets (k := false) env now hne'
      (h.resolve_below_file hkinds hvalid hne hz hdir) hz (Mode.ofModeT_or_dir bits)
    rw [exec, program, Program.run_bind] at hreply
    cases hrun : (mkdir env s.fuel now (FsUtil.pathOf names) bits).run
        (BlockFuse.handler false) s with
    | halted e s' =>
      rw [hrun] at hreply
      cases hreply
    | returned status s' =>
      rw [hrun] at hreply hmeets
      obtain rfl := Except.ok.inj hreply
      exact hstatus hmeets.1
  | create path bits =>
    obtain rfl : path = FsUtil.pathOf names := hpath
    intro hfile
    obtain ⟨⟨reply, hreply, hstatus⟩, -⟩ := hbehaves hfile
    obtain ⟨z, hz, hdir⟩ := (h.resolvesToFile_iff (FsUtil.parentPath_ne_nil _)).mp hfile
    have hnone := h.resolve_below_file hkinds hvalid hne hz hdir
    rw [exec, program, Program.run_bind] at hreply
    cases hmode : Mode.ofModeT bits with
    | error what =>
      rw [h.run_create_throws env now hne' hnone hmode] at hreply
      cases hreply
    | ok mode =>
      have hmeets := h.create_meets (k := false) env now hne' hnone hz hmode
      cases hrun : (create env s.fuel now (FsUtil.pathOf names) bits).run
          (BlockFuse.handler false) s with
      | halted e s' =>
        rw [hrun] at hreply
        cases hreply
      | returned status s' =>
        rw [hrun] at hreply hmeets
        obtain rfl := Except.ok.inj hreply
        exact hstatus hmeets.1
  | readdir path filler =>
    intro b hb hfile d hd
    obtain ⟨reply, hreply, hstatus⟩ := hbehaves ⟨b, hb, hfile⟩
    obtain rfl : path = FsUtil.pathOf names := hpath
    rw [h.resolved_eq hne'] at hb
    obtain ⟨z, hz, rfl⟩ := Option.map_eq_some_iff.mp hb
    obtain rfl := BlockData.dirFile.inj hd
    rw [h.exec_readdir env now hne', Namespace.readdir, t.resolve_entries, hz,
      Outcome.result_of] at hreply
    obtain rfl := Except.ok.inj hreply
    exact refused_of_listing hstatus
  | rmdir path => trivial
  | unlink path => trivial
  | write path buffer offset => trivial
  | getattr path => trivial
  | read path size offset => trivial

/-- **Directories and files are kept apart** in every state of a run whose calls make nothing below
a file, and `mkdir`, `create` and `readdir` then do there what they should. In an unbroken run no
other call does, on paths made of names. -/
theorem separated_of_keepsApart (env : Env) (now : Int64) (calls : List (Int64 × Call))
    (hkeeps : Run.EveryStep (step env false) (KeepsApart env) (new env now) calls) :
    let s := calls.foldl (step env false) (new env now)
    Separated s ∧ (∀ call, KeepsApart env s call → Behaves env s call) ∧
      (Unbroken env (new env now) calls → ∀ call names, ValidNames names → names ≠ [] →
        call.2.path = FsUtil.pathOf names → Behaves env s call → KeepsApart env s call) := by
  intro s
  have hkinds : KindsOk s := hkeeps.invariant
    ⟨kindsApart_new env now, Or.inl (intact_new env now)⟩ fun _ _ hs hkeeps => hs.step hkeeps
  refine ⟨hkinds.1.separated, fun call hkeeps => behaves_of_keepsApart hkeeps, ?_⟩
  intro hunbroken call names hvalid hne hpath hbehaves
  obtain ⟨t, garbage, hgood⟩ := hunbroken.intact (intact_new env now)
  exact hgood.keepsApart_of_behaves hkinds.1 hvalid hne hpath hbehaves

/-- A file in a directory is written, and nothing is made below it. -/
theorem separated_of_some_calls :
    let calls : List (Int64 × Call) := [(0, .mkdir (below 0x61) 0o755),
      (1, .create (below 0x61 ++ below 0x62) 0o100644),
      (2, .write (below 0x61 ++ below 0x62) [1, 2, 3] 0)]
    let s := calls.foldl (step plainEnv false) (new plainEnv 0)
    Separated s ∧
      Behaves plainEnv s (3, .readdir (below 0x61 ++ below 0x62) fun _ _ => 1) := by
  intro calls s
  have hkeeps : Run.EveryStep (step plainEnv false) (KeepsApart plainEnv) (new plainEnv 0) calls :=
    ⟨show ¬ ResolvesToFile _ _ by decide +kernel, show ¬ ResolvesToFile _ _ by decide +kernel,
      trivial, trivial⟩
  obtain ⟨hseparated, hbehaves, -⟩ := separated_of_keepsApart plainEnv 0 calls hkeeps
  exact ⟨hseparated, hbehaves _ fun _ _ _ _ _ => Or.inl (show (1 : Int32) ≠ 0 by decide)⟩

/-- **A directory below a file.** In a file `/a` the directory `/a/b` or the file `/a/b` can be
made, and `/a` can be listed. -/
theorem directory_below_file :
    let s := step plainEnv false (new plainEnv 0) (0, .create (below 0x61) 0o100644)
    let s' := step plainEnv false s (0, .mkdir (below 0x61 ++ below 0x62) 0o755)
    ResolvesToFile s (FsUtil.parentPath (below 0x61 ++ below 0x62)) ∧
      (exec plainEnv false s (0, .mkdir (below 0x61 ++ below 0x62) 0o755)).result =
        .ok { status := 0 } ∧
      (exec plainEnv false s (0, .create (below 0x61 ++ below 0x62) 0o100644)).result =
        .ok { status := 0 } ∧
      (∃ reply, (exec plainEnv false s (0, .readdir (below 0x61) fun _ _ => 0)).result =
        .ok reply ∧ reply.status = 0) ∧ ¬ Separated s' := by
  intro s s'
  refine ⟨by decide +kernel, by decide +kernel, by decide +kernel, ⟨_, rfl, rfl⟩, fun h => ?_⟩
  -- the file has the id 5 now, and lists the directory with the id 4
  obtain ⟨file, hfile, hkind, hmem⟩ : ∃ b ∈ (s'.manager.map 5).join, b.IsFile ∧ 4 ∈ b.children := by
    decide +kernel
  obtain ⟨directory, hdirectory, hinode⟩ : ∃ b ∈ (s'.manager.map 4).join, b.isInode = true := by
    decide +kernel
  rw [Option.mem_def, Option.join_eq_some_iff] at hfile hdirectory
  have hnone := h.below_file 5 file hfile hkind 4 directory (.single ⟨file, hfile, hmem⟩) hdirectory
  rw [hinode] at hnone
  cases hnone

end BlockFuse

end Pingfs
