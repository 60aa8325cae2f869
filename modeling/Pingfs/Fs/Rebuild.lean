import Pingfs.Fs.Contents
import Pingfs.Fs.Search

/-!
# Replacing a path and freeing a subtree

`replace_chain` goes up from an inode with new children to the root and makes a new block for each
block on the way, in which the new child comes last. In terms of trees it grafts.
`recursive_free_children_blocks` frees everything below a block, at the block manager itself.

Source: `replace_chain`, `remove_ids` and `recursive_free_children_blocks` of `block_util.cc`, the
ends of `mkdir`, `rmdir`, `create_file_block` and `write_file_starting_at_node` of
`block_fuse.cc`.

## Main results

* `Stores.recursiveFree` — what is below an inode is gone
* `Stores.replaceRoot_meets` — the new root is that of the grafted tree, and the old path is freed
-/

namespace Pingfs

open Zipper

/-- The blocks below the roots. -/
def Node.belowRoots : Forest Node → Multiset Block
  | .nil => 0
  | .cons a kids rest => a.below kids + belowRoots rest

theorem Node.blocks_eq (f : Forest Node) :
    Node.blocks f = Node.rootBlocks f + Node.belowRoots f := by
  induction f with
  | nil => rfl
  | cons a kids rest _ ih =>
    rw [Node.blocks_cons, Node.tree, ih, Node.rootBlocks, Node.belowRoots, ← Multiset.cons_coe,
      Multiset.cons_add, Multiset.cons_add]
    congr 1
    ac_rfl

/-- The children of an inode, and what is below them. -/
theorem Node.below_eq (a : Node) (kids : Forest Node) :
    a.below kids = a.childBlocks kids + (a.data.linked.blocks + Node.belowRoots kids) := by
  rw [Node.below, a.data.blocks_eq, Node.blocks_eq, Node.childBlocks, ← Multiset.coe_add]
  ac_rfl

namespace BlockFuse

open FsM BlockUtil

variable {s s' : BlockFuse} {rest : Multiset Block} {k : Bool}

/-! ## recursive_free_children_blocks -/

/-- The loop over the response in `recursive_free_children_blocks`. -/
abbrev freeBelow (fuel : ℕ) : List (Option Block) → FsM Unit :=
  forEach fun pointer => do
    let child ← .ofExcept (deref pointer)
    recursiveFreeChildrenBlocks fuel child

theorem run_freeBelow_cons (fuel : ℕ) (b : Block) (pointers : List (Option Block)) (s : BlockFuse) :
    (freeBelow fuel (some b :: pointers)).run (handler k) s =
      ((recursiveFreeChildrenBlocks fuel b).run (handler k) s).bind
        fun _ s => (freeBelow fuel pointers).run (handler k) s := by
  simp only [freeBelow, forEach, Program.run_bind, deref, Program.run_ofExcept_ok,
    Outcome.bind_returned]

theorem everyCall_freeBelow_cons {fuel : ℕ} {b : Block} {pointers : List (Option Block)}
    {s : BlockFuse} (hb : (recursiveFreeChildrenBlocks fuel b).EveryCall (handler k) Mapped s)
    (hrest : ∀ s', (recursiveFreeChildrenBlocks fuel b).run (handler k) s = .returned () s' →
      (freeBelow fuel pointers).EveryCall (handler k) Mapped s') :
    (freeBelow fuel (some b :: pointers)).EveryCall (handler k) Mapped s :=
  Program.everyCall_bind hb fun _ s' hrun => hrest s' hrun

/-- One level: the children are freed, then what is below them. -/
theorem Stores.run_recursiveFree {children : List Block} (hs : Stores s (children + rest))
    {b : Block} (hb : b.getChildren = some (children.map (·.id))) (fuel : ℕ) :
    ∃ s', (recursiveFreeChildrenBlocks (fuel + 1) b).run (handler k) s =
      (freeBelow fuel (children.map some)).run (handler k) s' ∧ Stores s' rest ∧ Keeps s s' ∧
      ((freeBelow fuel (children.map some)).EveryCall (handler k) Mapped s' →
        (recursiveFreeChildrenBlocks (fuel + 1) b).EveryCall (handler k) Mapped s) := by
  have hin : ∀ c ∈ children, c ∈ (children + rest : Multiset Block) :=
    fun c hc => Multiset.mem_add.mpr (Or.inl hc)
  have hresponse := hs.run_getBlocks (k := k) children hin
  obtain ⟨s', hfree, hstores, hkeeps, hcalls⟩ := hs.managerFreeAll (k := k)
  refine ⟨s', ?_, hstores, hkeeps, fun hbelow => ?_⟩
  · simp only [recursiveFreeChildrenBlocks, hb, Program.run_bind, hresponse, hfree,
      Outcome.bind_returned]
  · simp only [recursiveFreeChildrenBlocks, hb]
    exact Program.everyCall_bind_of_run (Program.everyCall_request.mpr (hs.mapped_getBlocks hin))
      hresponse (Program.everyCall_bind_of_run hcalls hfree hbelow)

theorem Stores.freeBelow_data {d : DataForest} (hs : Stores s (d.linked.blocks + rest)) {fuel : ℕ}
    (hfuel : d.height ≤ fuel) (after : List (Option Block)) :
    ∃ s', (freeBelow fuel (d.rootBlocks.map some ++ after)).run (handler k) s =
      (freeBelow fuel after).run (handler k) s' ∧ Stores s' rest ∧ Keeps s s' ∧
      ((freeBelow fuel after).EveryCall (handler k) Mapped s' →
        (freeBelow fuel (d.rootBlocks.map some ++ after)).EveryCall (handler k) Mapped s) := by
  induction d generalizing s fuel after rest with
  | nil =>
    exact ⟨s, rfl, by simpa [DataForest.linked, DataForest.blocks] using hs, Keeps.refl s, id⟩
  | leaf id data drest ih =>
    obtain ⟨fuel, rfl⟩ : ∃ n, fuel = n + 1 :=
      ⟨fuel - 1, by simp [DataForest.height] at hfuel; omega⟩
    obtain ⟨s', hrun, hstores, hkeeps, hcalls⟩ := ih hs
      (show drest.height ≤ fuel + 1 by simp [DataForest.height] at hfuel; omega) after
    refine ⟨s', ?_, hstores, hkeeps, hcalls⟩
    rw [DataForest.rootBlocks, List.map_cons, List.cons_append, run_freeBelow_cons]
    exact hrun
  | link id kids drest ihk ih =>
    obtain ⟨hkids, hdrest⟩ : kids.height + 1 ≤ fuel ∧ drest.height ≤ fuel := by
      simpa [DataForest.height] using hfuel
    obtain ⟨fuel, rfl⟩ : ∃ n, fuel = n + 1 := ⟨fuel - 1, by omega⟩
    -- the blocks of the link's children, what is below these, and what is below the other roots
    have hsplit : Stores s (kids.rootBlocks +
        (kids.linked.blocks + (drest.linked.blocks + rest))) := by
      rw [DataForest.linked, DataForest.blocks_append, kids.blocks_eq] at hs
      convert hs using 1
      ac_rfl
    obtain ⟨s₁, hrun₁, hstores₁, hkeeps₁, hcalls₁⟩ := hsplit.run_recursiveFree (k := k)
      (b := ⟨id, .link ⟨kids.rootIds⟩⟩) (by rw [kids.map_id_rootBlocks]; rfl) fuel
    obtain ⟨s₂, hrun₂, hstores₂, hkeeps₂, hcalls₂⟩ := ihk hstores₁ (Nat.le_of_succ_le_succ hkids) []
    obtain ⟨s₃, hrun₃, hstores₃, hkeeps₃, hcalls₃⟩ := ih hstores₂ hdrest after
    rw [List.append_nil] at hrun₂ hcalls₂
    refine ⟨s₃, ?_, hstores₃, (hkeeps₁.trans hkeeps₂).trans hkeeps₃, fun hafter => ?_⟩
    · rw [DataForest.rootBlocks, List.map_cons, List.cons_append, run_freeBelow_cons, hrun₁, hrun₂]
      exact hrun₃
    · rw [DataForest.rootBlocks, List.map_cons, List.cons_append]
      refine everyCall_freeBelow_cons (hcalls₁ (hcalls₂ trivial)) fun s' hrun => ?_
      rw [hrun₁, hrun₂] at hrun
      obtain rfl := (Outcome.returned.inj hrun).2
      exact hcalls₃ hafter

theorem Stores.freeBelow_inodes {kids : Forest Node} (hs : Stores s (Node.belowRoots kids + rest))
    {fuel : ℕ} (hfuel : Node.height kids ≤ fuel) :
    ∃ s', (freeBelow fuel ((Node.rootBlocks kids).map some)).run (handler k) s = .returned () s' ∧
      Stores s' rest ∧ Keeps s s' ∧
      (freeBelow fuel ((Node.rootBlocks kids).map some)).EveryCall (handler k) Mapped s := by
  induction kids generalizing s fuel rest with
  | nil => exact ⟨s, rfl, by simpa [Node.belowRoots] using hs, Keeps.refl s, trivial⟩
  | cons a akids others ihk ih =>
    obtain ⟨⟨hdata, hkids⟩, hothers⟩ : (a.data.height + 1 ≤ fuel ∧ Node.height akids + 1 ≤ fuel) ∧
        Node.height others ≤ fuel := by
      simp only [Node.height] at hfuel
      omega
    obtain ⟨fuel, rfl⟩ : ∃ n, fuel = n + 1 := ⟨fuel - 1, by omega⟩
    have hsplit : Stores s (a.childBlocks akids + (a.data.linked.blocks +
        (Node.belowRoots akids + (Node.belowRoots others + rest)))) := by
      rw [Node.belowRoots, Node.below_eq] at hs
      convert hs using 1
      ac_rfl
    obtain ⟨s₁, hrun₁, hstores₁, hkeeps₁, hcalls₁⟩ := hsplit.run_recursiveFree (k := k)
      (b := a.block akids) (by rw [a.map_id_childBlocks]; rfl) fuel
    obtain ⟨s₂, hrun₂, hstores₂, hkeeps₂, hcalls₂⟩ := hstores₁.freeBelow_data (k := k)
      (Nat.le_of_succ_le_succ hdata) ((Node.rootBlocks akids).map some)
    obtain ⟨s₃, hrun₃, hstores₃, hkeeps₃, hcalls₃⟩ := ihk hstores₂ (Nat.le_of_succ_le_succ hkids)
    obtain ⟨s₄, hrun₄, hstores₄, hkeeps₄, hcalls₄⟩ := ih hstores₃ hothers
    rw [Node.childBlocks, List.map_append] at hrun₁ hcalls₁
    refine ⟨s₄, ?_, hstores₄, ((hkeeps₁.trans hkeeps₂).trans hkeeps₃).trans hkeeps₄, ?_⟩
    · rw [Node.rootBlocks, List.map_cons, run_freeBelow_cons, hrun₁, hrun₂, hrun₃]
      exact hrun₄
    · refine everyCall_freeBelow_cons (hcalls₁ (hcalls₂ hcalls₃)) fun s' hrun => ?_
      rw [hrun₁, hrun₂, hrun₃] at hrun
      obtain rfl := (Outcome.returned.inj hrun).2
      exact hcalls₄

/-- **Everything below an inode is freed**, whatever the virtual `free_block` does. -/
theorem Stores.recursiveFree {a : Node} {kids : Forest Node} (hs : Stores s (a.below kids + rest))
    {b : Block} (hb : b.getChildren = some (a.data.rootIds ++ Node.rootIds kids)) {fuel : ℕ}
    (hfuel : (a.tree kids).card < fuel) :
    ∃ s', (recursiveFreeChildrenBlocks fuel b).run (handler k) s = .returned () s' ∧
      Stores s' rest ∧ Keeps s s' ∧
      (recursiveFreeChildrenBlocks fuel b).EveryCall (handler k) Mapped s := by
  obtain ⟨fuel, rfl⟩ : ∃ n, fuel = n + 1 := ⟨fuel - 1, by omega⟩
  have hdata := a.data.height_le_card
  have hkids := Node.height_le_card kids
  simp only [Node.tree, Node.below, Multiset.card_cons, Multiset.card_add] at hfuel
  have hsplit : Stores s (a.childBlocks kids + (a.data.linked.blocks +
      (Node.belowRoots kids + rest))) := by
    rw [Node.below_eq] at hs
    convert hs using 1
    ac_rfl
  obtain ⟨s₁, hrun₁, hstores₁, hkeeps₁, hcalls₁⟩ := hsplit.run_recursiveFree (k := k)
    (b := b) (by rw [a.map_id_childBlocks]; exact hb) fuel
  obtain ⟨s₂, hrun₂, hstores₂, hkeeps₂, hcalls₂⟩ := hstores₁.freeBelow_data (k := k)
    (show a.data.height ≤ fuel by omega) ((Node.rootBlocks kids).map some)
  obtain ⟨s₃, hrun₃, hstores₃, hkeeps₃, hcalls₃⟩ := hstores₂.freeBelow_inodes (k := k)
    (show Node.height kids ≤ fuel by omega)
  rw [Node.childBlocks, List.map_append] at hrun₁ hcalls₁
  refine ⟨s₃, ?_, hstores₃, (hkeeps₁.trans hkeeps₂).trans hkeeps₃, hcalls₁ (hcalls₂ hcalls₃)⟩
  rw [hrun₁, hrun₂, hrun₃]

/-! ## replace_chain -/

theorem removeIds_self (ids : List BlockId) : removeIds ids ids = .ok [] := by
  induction ids with
  | nil => rfl
  | cons id ids ih => simp [removeIds, ih]

/-- On the way up, each child is first met at its own place among its parent's children. -/
def ChainOk : List (Frame Node) → BlockId → Prop
  | [], _ => True
  | f :: fs, child =>
    child ∉ f.label.data.rootIds ++ Node.rootIds f.before ∧ ChainOk fs f.label.id

theorem chainOk_of_nodup {fs : List (Frame Node)} {a : Node} {kids : Forest Node}
    (h : (((plug fs a kids).1.tree (plug fs a kids).2).map (·.id)).Nodup) : ChainOk fs a.id := by
  induction fs generalizing a kids with
  | nil => trivial
  | cons f fs ih =>
    refine ⟨fun hmem => ?_, ih h⟩
    have hle := tree_le_plug ⟨f.label, f.before ++ .cons a kids f.after, fs⟩
    have hchildren := Node.children_nodup (Multiset.nodup_of_le (Multiset.map_le_map hle) h)
    rw [Node.rootIds_append, Node.rootIds_cons, ← List.append_assoc] at hchildren
    exact List.disjoint_of_nodup_append hchildren hmem (List.mem_cons_self ..)

theorem removeIds_frame (f : Frame Node) {child : BlockId}
    (hfirst : child ∉ f.label.data.rootIds ++ Node.rootIds f.before) :
    removeIds (Frame.block f child).children [child] =
      .ok (f.label.data.rootIds ++ (Node.rootIds f.before ++ Node.rootIds f.after)) := by
  have hchildren : (Frame.block f child).children =
      (f.label.data.rootIds ++ Node.rootIds f.before) ++ child :: Node.rootIds f.after := by
    simp [Frame.block, Block.children, Block.getChildren, Block.tryCastLink, Block.tryCastDirFile]
  rw [hchildren, removeIds, if_pos (by simp), removeIds, List.erase_append_right _ hfirst,
    List.erase_cons_head, List.append_assoc]

theorem replaceBlock_frame (f : Frame Node) (child : BlockId) (ids : List BlockId) :
    replaceBlockWithDiffChildren (Frame.block f child) ids =
      createBlock (.dirFile ⟨f.label.name, f.label.stat, ids⟩) := rfl

/-- The chain above a replaced inode `a`. -/
theorem Stores.replaceChainLoop_meets {stored : Multiset Block} (hs : Stores s stored)
    {fs : List (Frame Node)} {child : BlockId} (hok : ChainOk fs child) (a : Node)
    (kids : Forest Node) (childrenToAdd : List BlockId) :
    ((replaceChainLoop childrenToAdd (chain fs child) [child] (some (a.block kids))).run
      (handler k) s).Meets
      (fun root s' =>
        root = some ((graft Node.relabel fs a kids (s.idsUsed + 1)).1.block
          (graft Node.relabel fs a kids (s.idsUsed + 1)).2) ∧
        Grown s stored (rebuilt fs a.id (s.idsUsed + 1)) s')
      (OutOfIds s stored fs.length) := by
  induction fs generalizing s stored child a kids with
  | nil => exact ⟨rfl, Grown.refl hs⟩
  | cons f fs ih =>
    obtain ⟨hfirst, hok⟩ := hok
    rw [chain, replaceChainLoop, removeIds_frame f hfirst]
    simp only [Program.run_bind, Program.run_ofExcept_ok, Outcome.bind_returned,
      replaceBlock_frame, Node.block_id]
    refine (hs.createBlock_meets _).bind (fun e s' h => h.mono (by simp)) ?_
    rintro b s' ⟨rfl, hgrown⟩
    have hused : s'.idsUsed = s.idsUsed + 1 := by simpa using hgrown.idsUsed_eq
    -- the new block is that of the frame's inode with the next id, over the child put last
    have hblock : (⟨.ofNat (s.idsUsed + 1), .dirFile ⟨f.label.name, f.label.stat,
        f.label.data.rootIds ++ (Node.rootIds f.before ++ Node.rootIds f.after) ++ [a.id]⟩⟩ :
          Block) =
        (Node.relabel (s.idsUsed + 1) f.label).block
          (f.before ++ f.after ++ Forest.tree a kids) := by
      simp [Node.block, Node.relabel]
    have hup := ih hgrown.stores hok (Node.relabel (s.idsUsed + 1) f.label)
      (f.before ++ f.after ++ Forest.tree a kids)
    rw [hused] at hup
    rw [hblock]
    refine hup.imp (fun root s'' h => ⟨h.1, ?_⟩) (fun e s'' h => ?_)
    · have hcons : (rebuilt (f :: fs) a.id (s.idsUsed + 1) : Multiset Block) =
          rebuilt fs (Node.relabel (s.idsUsed + 1) f.label).id (s.idsUsed + 1 + 1) +
            {(Node.relabel (s.idsUsed + 1) f.label).block
              (f.before ++ f.after ++ Forest.tree a kids)} := by
        rw [rebuilt, ← Multiset.cons_coe, Multiset.add_comm, Multiset.singleton_add]
        simp [Node.block, Node.relabel]
      have hall := hgrown.trans h.2
      rwa [hblock, ← hcons] at hall
    · refine (OutOfIds.after hgrown h).mono ?_
      simp
      omega

/-- **A whole chain**, from the inode block `b` that gets new children up to the root. `a` and
`kids` are what becomes of the inode. -/
theorem Stores.replaceChain_meets {stored : Multiset Block} (hs : Stores s stored) {b : Block}
    {dirFile : DirFileBlockData} (hb : b.data = .dirFile dirFile)
    {childrenToRemove childrenToAdd kept : List BlockId}
    (hkept : removeIds dirFile.children childrenToRemove = .ok kept) {a : Node}
    {kids : Forest Node} (hid : a.id = .ofNat (s.idsUsed + 1)) (hname : a.name = dirFile.name)
    (hstat : a.stat = dirFile.stat)
    (hchildren : a.data.rootIds ++ Node.rootIds kids = kept ++ childrenToAdd)
    {fs : List (Frame Node)} (hok : ChainOk fs b.id) :
    ((replaceChain (b :: chain fs b.id) childrenToRemove childrenToAdd).run (handler k) s).Meets
      (fun root s' =>
        root = some ((graft Node.relabel fs a kids (s.idsUsed + 2)).1.block
          (graft Node.relabel fs a kids (s.idsUsed + 2)).2) ∧
        Grown s stored (rebuilt fs a.id (s.idsUsed + 2) + {a.block kids}) s')
      (OutOfIds s stored (fs.length + 1)) := by
  have hkept' : removeIds b.children childrenToRemove = .ok kept := by
    simpa [Block.children, Block.getChildren, Block.tryCastLink, Block.tryCastDirFile, hb]
      using hkept
  have hreplace : replaceBlockWithDiffChildren b (kept ++ childrenToAdd) =
      createBlock (.dirFile { dirFile with children := kept ++ childrenToAdd }) := by
    simp [replaceBlockWithDiffChildren, Block.tryCastLink, Block.tryCastDirFile, hb]
  have hblock : (⟨.ofNat (s.idsUsed + 1),
      .dirFile { dirFile with children := kept ++ childrenToAdd }⟩ : Block) = a.block kids := by
    rw [Node.block, hid, hname, hstat, hchildren]
  rw [replaceChain, replaceChainLoop, hkept']
  simp only [Program.run_bind, Program.run_ofExcept_ok, Outcome.bind_returned, hreplace]
  refine (hs.createBlock_meets _).bind (fun e s' h => h.mono (by omega)) ?_
  rintro c s' ⟨rfl, hgrown⟩
  have hused : s'.idsUsed = s.idsUsed + 1 := by simpa using hgrown.idsUsed_eq
  rw [hblock] at hgrown ⊢
  have hup := hgrown.stores.replaceChainLoop_meets (k := k) hok a kids childrenToAdd
  rw [hused] at hup
  exact hup.imp (fun root s'' h => ⟨h.1, hgrown.trans h.2⟩) fun e s'' h =>
    (OutOfIds.after hgrown h).mono (by simp; omega)

/-- **The end of a change.** The root is that of the tree grafted over the new inode, the path's
blocks are new, and the old path is freed unless that is suppressed. -/
theorem Stores.replaceRoot_meets {old : List Block} (hs : Stores s (old + rest)) {b : Block}
    {dirFile : DirFileBlockData} (hb : b.data = .dirFile dirFile)
    {childrenToRemove childrenToAdd kept : List BlockId}
    (hkept : removeIds dirFile.children childrenToRemove = .ok kept) {a : Node}
    {kids : Forest Node} (hid : a.id = .ofNat (s.idsUsed + 1)) (hname : a.name = dirFile.name)
    (hstat : a.stat = dirFile.stat)
    (hchildren : a.data.rootIds ++ Node.rootIds kids = kept ++ childrenToAdd)
    {fs : List (Frame Node)} (hok : ChainOk fs b.id) :
    ((replaceRoot old (b :: chain fs b.id) childrenToRemove childrenToAdd).run (handler k) s).Meets
      (fun _ s' =>
        s'.rootBlock = (graft Node.relabel fs a kids (s.idsUsed + 2)).1.block
          (graft Node.relabel fs a kids (s.idsUsed + 2)).2 ∧
        Stores s' (rebuilt fs a.id (s.idsUsed + 2) + {a.block kids} + rest +
          if k then ↑old else 0) ∧
        s'.idsUsed = s.idsUsed + (fs.length + 1))
      (OutOfIds s (old + rest) (fs.length + 1)) := by
  rw [replaceRoot, Program.run_bind]
  refine (hs.replaceChain_meets hb hkept hid hname hstat hchildren hok).bind (fun _ _ h => h) ?_
  rintro root s₁ ⟨rfl, hgrown⟩
  simp only [deref, Program.run_bind, Program.run_ofExcept_ok, Outcome.bind_returned,
    run_setRootBlock]
  have hsplit : Stores s₁ (old + (rebuilt fs a.id (s.idsUsed + 2) + {a.block kids} + rest)) := by
    convert hgrown.stores using 1
    ac_rfl
  obtain ⟨s₂, hrun, hstores, hkeeps, -⟩ := (hsplit.setRoot _).freeAll (k := k)
  rw [hrun]
  refine ⟨hkeeps.rootBlock_eq, ?_, hkeeps.idsUsed_eq.trans ?_⟩
  · cases k with
    | true =>
      convert hstores using 1
      simp only [if_true]
      ac_rfl
    | false => simpa using hstores
  · have hused := hgrown.idsUsed_eq
    rw [Multiset.card_add, Multiset.coe_card, length_rebuilt, Multiset.card_singleton] at hused
    exact hused

end BlockFuse

end Pingfs
