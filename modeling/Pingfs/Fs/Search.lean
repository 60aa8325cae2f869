import Pingfs.Fs.InodeTree
import Pingfs.Fs.Store

/-!
# Looking up paths

Over a stored tree, the search for a name below an inode finds the first child inode of that name.
Links are searched too, but they lead to data only. The reconstruction of the path from the
blocks retrieved on the way gives that inode alone. So `get_path` descends the tree by names.

Source: `get_path`, `get_path_part` and `get_dir_files_from_dir` of `block_fuse.cc`, `find_path` of
`block_util.cc`.

## Main results

* `run_getPathPart` — one name
* `run_getPath` — a whole path: the blocks from the root to the inode, or none
* `run_getDirFiles` — the inodes of a directory, in the order of its children
-/

namespace Pingfs

open Zipper

/-! ## Children in a tree with distinct ids -/

section

variable {a : Node} {kids : Forest Node} (h : ((a.tree kids).map (·.id)).Nodup)

include h

theorem Node.references_nodup : (a.id ::ₘ references (a.tree kids)).Nodup := by
  rwa [Node.references_tree]

/-- No inode lists a child twice. -/
theorem Node.children_nodup : (a.data.rootIds ++ Node.rootIds kids).Nodup := by
  have hrefs := (Multiset.nodup_cons.mp (Node.references_nodup h)).2
  rw [Node.tree, references_cons] at hrefs
  exact Multiset.coe_nodup.mp (Multiset.nodup_of_le (Multiset.le_add_right _ _) hrefs)

/-- A child of something below an inode is not a child of the inode. -/
theorem Node.notMem_children_of_below {b : Block} (hb : b ∈ a.below kids) {id : BlockId}
    (hid : id ∈ b.children) : id ∉ a.data.rootIds ++ Node.rootIds kids := by
  have hrefs := (Multiset.nodup_cons.mp (Node.references_nodup h)).2
  rw [Node.tree, references_cons] at hrefs
  intro hmem
  have hbelow : id ∈ references (a.below kids) := Multiset.mem_bind.mpr ⟨b, hb, hid⟩
  exact Multiset.disjoint_left.mp (Multiset.disjoint_of_nodup_add hrefs) hmem hbelow

/-- An inode is not among its children. -/
theorem Node.id_notMem_children : a.id ∉ a.data.rootIds ++ Node.rootIds kids := by
  have hrefs := (Multiset.nodup_cons.mp (Node.references_nodup h)).1
  rw [Node.tree, references_cons] at hrefs
  exact fun hmem => hrefs (Multiset.mem_add.mpr (Or.inl hmem))

end

namespace BlockUtil

/-! ## find_path -/

variable {retrieved : BlockId → Option Block} {target : Block}

theorem findChild_of_none {search : Block → Except Halt (Bool × List Block)}
    {ids : List BlockId} (h : ∀ id ∈ ids, retrieved id = none) :
    findChild retrieved search ids = .ok (false, []) := by
  induction ids with
  | nil => rfl
  | cons id ids ih =>
    rw [findChild, h id (List.mem_cons_self ..)]
    exact ih fun j hj => h j (List.mem_cons_of_mem _ hj)

/-- A block that is not the target and none of whose children was retrieved is a dead end. -/
theorem findPath_dead_end {fuel : ℕ} {b : Block} (hne : b.id ≠ target.id)
    (h : ∀ id ∈ b.children, retrieved id = none) :
    findPath retrieved target (fuel + 1) b = .ok (false, []) := by
  rw [findPath, if_neg hne]
  cases hb : b.getChildren with
  | none => rfl
  | some children => exact findChild_of_none (by simpa [Block.children, hb] using h)

/-- If the target is a child and nothing below a retrieved block was retrieved, the path is the
target alone. -/
theorem findChild_of_mem {fuel : ℕ} {ids : List BlockId} (hmem : target.id ∈ ids)
    (htarget : retrieved target.id = some target)
    (hid : ∀ id b, retrieved id = some b → b.id = id)
    (hends : ∀ id b, retrieved id = some b → ∀ c ∈ b.children, retrieved c = none) :
    findChild retrieved (findPath retrieved target (fuel + 1)) ids = .ok (true, [target]) := by
  induction ids with
  | nil => exact absurd hmem List.not_mem_nil
  | cons id ids ih =>
    by_cases hhere : id = target.id
    · subst hhere
      rw [findChild, htarget]
      simp [findPath, bind, Except.bind, pure, Except.pure]
    · have hmem : target.id ∈ ids := (List.mem_cons.mp hmem).resolve_left (Ne.symm hhere)
      cases hr : retrieved id with
      | none => rw [findChild, hr]; exact ih hmem
      | some b =>
        have hne : b.id ≠ target.id := by rwa [hid id b hr]
        rw [findChild, hr]
        simp only [findPath_dead_end hne (hends id b hr), bind, Except.bind]
        exact ih hmem

end BlockUtil

namespace BlockFuse

open FsM BlockUtil

variable {s : BlockFuse} {stored : Multiset Block} {k : Bool}

/-! ## get_path_part -/

/-- `retrieved_blocks` after these blocks were put into it. -/
def addAll (retrieved : BlockId → Option Block) : List Block → BlockId → Option Block
  | [] => retrieved
  | b :: bs => addAll (Function.update retrieved b.id (some b)) bs

theorem addAll_eq_some {retrieved : BlockId → Option Block} {bs : List Block} {id : BlockId}
    {b : Block} (h : addAll retrieved bs id = some b) :
    (b ∈ bs ∧ b.id = id) ∨ retrieved id = some b := by
  induction bs generalizing retrieved with
  | nil => exact Or.inr h
  | cons c cs ih =>
    rcases ih h with ⟨hmem, hid⟩ | hr
    · exact Or.inl ⟨List.mem_cons_of_mem _ hmem, hid⟩
    · by_cases hc : id = c.id
      · rw [hc, Function.update_self] at hr
        obtain rfl := Option.some.inj hr
        exact Or.inl ⟨List.mem_cons_self .., hc.symm⟩
      · rw [Function.update_of_ne hc] at hr
        exact Or.inr hr

theorem addAll_append (retrieved : BlockId → Option Block) (bs cs : List Block) :
    addAll retrieved (bs ++ cs) = addAll (addAll retrieved bs) cs := by
  induction bs generalizing retrieved with
  | nil => rfl
  | cons b bs ih => exact ih _

/-- A block that is not an inode is passed over; the children of a link are checked later. -/
theorem getPathPartHelper_cons_data (name : Str) (retrieved : BlockId → Option Block) {b : Block}
    (hb : b.tryCastDirFile = none) (pointers : List (Option Block)) :
    getPathPartHelper name retrieved (some b :: pointers) =
      (getPathPartHelper name (Function.update retrieved b.id (some b)) pointers).map
        fun (target, ids, retrieved) =>
          (target, (b.tryCastLink.map (·.children)).getD [] ++ ids, retrieved) := by
  simp only [getPathPartHelper, deref, hb, bind, Except.bind, Option.map_none, reduceCtorEq,
    if_false]
  cases getPathPartHelper name (Function.update retrieved b.id (some b)) pointers <;> rfl

/-- An inode is the target, or is passed over. -/
theorem getPathPartHelper_cons_inode (name : Str) (retrieved : BlockId → Option Block) (a : Node)
    (kids : Forest Node) (pointers : List (Option Block)) :
    getPathPartHelper name retrieved (some (a.block kids) :: pointers) =
      if a.name = name then
        .ok (some (a.block kids), [], Function.update retrieved a.id (some (a.block kids)))
      else
        getPathPartHelper name (Function.update retrieved a.id (some (a.block kids))) pointers := by
  simp only [getPathPartHelper, deref, Node.tryCastDirFile_block, Node.tryCastLink_block,
    Node.block_id, bind, Except.bind, Option.map_some, Option.some.injEq, Option.map_none,
    Option.getD_none, List.nil_append]
  split
  · rfl
  · cases getPathPartHelper name (Function.update retrieved a.id (some (a.block kids))) pointers <;>
      rfl

theorem getPathPartHelper_data (name : Str) (d : DataForest) (bs : List Block)
    (retrieved : BlockId → Option Block) :
    getPathPartHelper name retrieved ((d.rootBlocks ++ bs).map some) =
      (getPathPartHelper name (addAll retrieved d.rootBlocks) (bs.map some)).map
        fun (target, ids, retrieved) => (target, d.linked.rootIds ++ ids, retrieved) := by
  induction d generalizing retrieved with
  | nil =>
    simp only [DataForest.rootBlocks, List.nil_append, addAll, DataForest.linked,
      DataForest.rootIds]
    cases getPathPartHelper name retrieved (bs.map some) <;> rfl
  | leaf id data rest ih =>
    rw [DataForest.rootBlocks, List.cons_append, List.map_cons, getPathPartHelper_cons_data _ _ rfl,
      ih, addAll, DataForest.linked]
    cases getPathPartHelper name _ (bs.map some) <;> rfl
  | link id kids rest _ ih =>
    rw [DataForest.rootBlocks, List.cons_append, List.map_cons, getPathPartHelper_cons_data _ _ rfl,
      ih, addAll, DataForest.linked, DataForest.rootIds_append]
    cases getPathPartHelper name _ (bs.map some) with
    | error e => rfl
    | ok found => simp [Except.map, Block.tryCastLink]

theorem getPathPartHelper_found {name : Str} {kids before bkids after : Forest Node} {b : Node}
    (h : splitAt Node.name name kids = some (before, b, bkids, after))
    (retrieved : BlockId → Option Block) :
    getPathPartHelper name retrieved ((Node.rootBlocks kids).map some) =
      .ok (some (b.block bkids), [],
        addAll retrieved (Node.rootBlocks before ++ [b.block bkids])) := by
  induction kids generalizing before retrieved with
  | nil => simp [splitAt] at h
  | cons c ckids rest _ ih =>
    rw [Node.rootBlocks, List.map_cons, getPathPartHelper_cons_inode]
    by_cases hc : c.name = name
    · simp only [splitAt, hc, if_true, Option.some.injEq, Prod.mk.injEq] at h
      obtain ⟨rfl, rfl, rfl, rfl⟩ := h
      rw [if_pos hc]
      rfl
    · simp only [splitAt, hc, if_false, Option.map_eq_some_iff, Prod.mk.injEq] at h
      obtain ⟨⟨before', b', bkids', after'⟩, hsplit, rfl, rfl, rfl, rfl⟩ := h
      rw [if_neg hc, ih hsplit]
      rfl

theorem getPathPartHelper_none {name : Str} {kids : Forest Node}
    (h : splitAt Node.name name kids = none) (retrieved : BlockId → Option Block) :
    getPathPartHelper name retrieved ((Node.rootBlocks kids).map some) =
      .ok (none, [], addAll retrieved (Node.rootBlocks kids)) := by
  induction kids generalizing retrieved with
  | nil => rfl
  | cons c ckids rest _ ih =>
    have hc : c.name ≠ name := splitAt_eq_none.mp h c (by simp)
    have hrest : splitAt Node.name name rest = none := by
      simpa [splitAt, hc] using h
    rw [Node.rootBlocks, List.map_cons, getPathPartHelper_cons_inode, if_neg hc, ih hrest]
    rfl

/-- Nothing is found below links. -/
theorem Stores.run_searchInode_data (hs : Stores s stored) (name : Str) {d : DataForest}
    (hd : ∀ b ∈ d.blocks, b ∈ stored) {fuel : ℕ} (hfuel : d.height < fuel)
    (retrieved : BlockId → Option Block) :
    ∃ retrieved', (searchInode name fuel d.rootIds retrieved).run (handler k) s =
      .returned (none, retrieved') s := by
  induction fuel generalizing d retrieved with
  | zero => omega
  | succ fuel ih =>
    cases hempty : d.rootIds.isEmpty with
    | true => exact ⟨retrieved, by rw [searchInode, hempty]; rfl⟩
    | false =>
      have hlevels := DataForest.height_pos hempty
      have hresponse := hs.run_getBlocks (k := k) d.rootBlocks fun b hb =>
        hd b (DataForest.mem_blocks_of_rootBlocks hb)
      rw [d.map_id_rootBlocks] at hresponse
      have hround : (getPathPartHelper name retrieved (d.rootBlocks.map some)) =
          .ok (none, d.linked.rootIds, addAll retrieved d.rootBlocks) := by
        have hdata := getPathPartHelper_data name d [] retrieved
        simpa [getPathPartHelper, Except.map] using hdata
      obtain ⟨retrieved', hrest⟩ := ih (d := d.linked)
        (fun b hb => hd b (DataForest.mem_blocks_of_linked hb)) (by rw [d.height_linked]; omega)
        (addAll retrieved d.rootBlocks)
      refine ⟨retrieved', ?_⟩
      rw [searchInode, hempty]
      simp [hresponse, hround, hrest]

/-- The search below an inode whose children are stored finds the first child inode with the name,
in the first response. -/
theorem Stores.run_searchInode_found (hs : Stores s stored) {name : Str} {a b : Node}
    {kids before bkids after : Forest Node} (hin : ∀ c ∈ a.childBlocks kids, c ∈ stored)
    (hsplit : splitAt Node.name name kids = some (before, b, bkids, after)) (fuel : ℕ) :
    (searchInode name (fuel + 1) (a.data.rootIds ++ Node.rootIds kids) fun _ => none).run
        (handler k) s =
      .returned (some (b.block bkids), addAll (fun _ => none)
        (a.data.rootBlocks ++ (Node.rootBlocks before ++ [b.block bkids]))) s := by
  have hempty : (a.data.rootIds ++ Node.rootIds kids).isEmpty = false := by
    rw [(splitAt_eq_some hsplit).1]
    simp
  have hresponse := hs.run_getBlocks (k := k) (a.childBlocks kids) hin
  rw [a.map_id_childBlocks] at hresponse
  have hround := getPathPartHelper_data name a.data (Node.rootBlocks kids) fun _ => none
  rw [← Node.childBlocks, getPathPartHelper_found hsplit, ← addAll_append] at hround
  rw [searchInode, hempty]
  simp [hresponse, hround, Except.map]

/-- The search for a name that no child inode has. -/
theorem Stores.run_searchInode_none (hs : Stores s stored) {name : Str} {a : Node}
    {kids : Forest Node} (hle : a.tree kids ≤ stored)
    (hsplit : splitAt Node.name name kids = none) {fuel : ℕ} (hfuel : a.data.height < fuel) :
    ∃ retrieved, (searchInode name (fuel + 1) (a.data.rootIds ++ Node.rootIds kids)
      fun _ => none).run (handler k) s = .returned (none, retrieved) s := by
  have hbelow : ∀ b ∈ a.below kids, b ∈ stored := fun b hb =>
    Multiset.mem_of_le hle (Multiset.mem_cons_of_mem hb)
  cases hempty : (a.data.rootIds ++ Node.rootIds kids).isEmpty with
  | true =>
    refine ⟨fun _ => none, ?_⟩
    rw [searchInode, hempty]
    rfl
  | false =>
    have hresponse := hs.run_getBlocks (k := k) (a.childBlocks kids)
      fun b hb => hbelow b (Node.mem_below_of_childBlocks hb)
    rw [a.map_id_childBlocks] at hresponse
    have hround := getPathPartHelper_data name a.data (Node.rootBlocks kids) fun _ => none
    rw [← Node.childBlocks, getPathPartHelper_none hsplit] at hround
    obtain ⟨retrieved, hrest⟩ := hs.run_searchInode_data (k := k) name (d := a.data.linked)
      (fun b hb => hbelow b (Multiset.mem_add.mpr
        (Or.inl (DataForest.mem_blocks_of_linked hb))))
      (show a.data.linked.height < fuel by rw [a.data.height_linked]; omega)
      (addAll (addAll (fun _ => none) a.data.rootBlocks) (Node.rootBlocks kids))
    refine ⟨retrieved, ?_⟩
    rw [searchInode, hempty]
    simp [hresponse, hround, Except.map, hrest]

/-- The path to the inode found is the inode alone. -/
theorem findPath_child {name : Str} {a b : Node} {kids before bkids after : Forest Node}
    (hnodup : ((a.tree kids).map (·.id)).Nodup)
    (hsplit : splitAt Node.name name kids = some (before, b, bkids, after)) {fuel : ℕ}
    (hfuel : 2 < fuel) :
    findPath (addAll (fun _ => none)
      (a.data.rootBlocks ++ (Node.rootBlocks before ++ [b.block bkids]))) (b.block bkids) fuel
      (a.block kids) = .ok (true, [b.block bkids]) := by
  obtain ⟨fuel, rfl⟩ : ∃ n, fuel = n + 2 := ⟨fuel - 2, by omega⟩
  obtain ⟨hkids, -, -⟩ := splitAt_eq_some hsplit
  have hsub : ∀ c ∈ a.data.rootBlocks ++ (Node.rootBlocks before ++ [b.block bkids]),
      c ∈ a.childBlocks kids := by
    intro c hc
    rw [Node.childBlocks, hkids, Node.rootBlocks_append, Node.rootBlocks]
    simp only [List.mem_append, List.mem_cons, List.not_mem_nil, or_false] at hc ⊢
    tauto
  have hmem : b.id ∈ a.data.rootIds ++ Node.rootIds kids := by
    rw [hkids]
    simp
  have hne : (a.block kids).id ≠ (b.block bkids).id := fun heq =>
    Node.id_notMem_children hnodup (by rwa [← Node.block_id b bkids, ← heq] at hmem)
  have hretrieved : ∀ id c, addAll (fun _ => none)
      (a.data.rootBlocks ++ (Node.rootBlocks before ++ [b.block bkids])) id = some c →
      c ∈ a.childBlocks kids ∧ c.id = id := by
    intro id c hc
    rcases addAll_eq_some hc with ⟨hin, hid⟩ | hnone
    · exact ⟨hsub c hin, hid⟩
    · cases hnone
  rw [findPath, if_neg hne, Node.getChildren_block]
  refine findChild_of_mem hmem ?_ (fun id c hc => (hretrieved id c hc).2) fun id c hc j hj => ?_
  · rw [← List.append_assoc, addAll_append]
    exact Function.update_self ..
  · -- a child of a retrieved block is no child of `a`, and only these were retrieved
    have hbelow := Node.mem_below_of_childBlocks (hretrieved id c hc).1
    have hj := Node.notMem_children_of_below hnodup hbelow hj
    cases hr : addAll (fun _ => none)
        (a.data.rootBlocks ++ (Node.rootBlocks before ++ [b.block bkids])) j with
    | none => rfl
    | some e =>
      obtain ⟨hin, rfl⟩ := hretrieved j e hr
      rw [← a.map_id_childBlocks] at hj
      exact absurd (List.mem_map_of_mem hin) hj

/-- A stored tree has distinct ids. -/
theorem Stores.nodup_of_le (hs : Stores s stored) {blocks : Multiset Block}
    (hle : blocks ≤ stored) :
    (blocks.map (·.id)).Nodup :=
  Multiset.nodup_of_le (Multiset.map_le_map hle) hs.holds.nodup

/-- A name that a child inode has. Nothing but the children has to be stored. -/
theorem Stores.run_getPathPart_found (hs : Stores s stored) {name : Str}
    (hname : name ≠ FsUtil.separator) {a b : Node} {kids before bkids after : Forest Node}
    (hin : ∀ c ∈ a.childBlocks kids, c ∈ stored) (hnodup : ((a.tree kids).map (·.id)).Nodup)
    (hsplit : splitAt Node.name name kids = some (before, b, bkids, after)) {fuel : ℕ}
    (hfuel : 2 < fuel) :
    (getPathPart fuel name (some (a.block kids))).run (handler k) s =
      .returned [b.block bkids] s := by
  obtain ⟨fuel, rfl⟩ : ∃ n, fuel = n + 1 := ⟨fuel - 1, by omega⟩
  have hsearch := hs.run_searchInode_found (k := k) hin hsplit fuel
  have hpath := findPath_child hnodup hsplit hfuel
  rw [getPathPart, if_neg hname]
  simp [deref, assertSome, hsearch, hpath]

/-- **One name.** Below an inode, the first child inode with that name, or nothing. -/
theorem Stores.run_getPathPart (hs : Stores s stored) {name : Str} (hname : name ≠ FsUtil.separator)
    {a : Node} {kids : Forest Node} (hle : a.tree kids ≤ stored) {fuel : ℕ}
    (hfuel : a.data.height + 2 < fuel) :
    (getPathPart fuel name (some (a.block kids))).run (handler k) s =
      .returned (((splitAt Node.name name kids).map fun (_, b, bkids, _) =>
        b.block bkids).toList) s := by
  obtain ⟨fuel, rfl⟩ : ∃ n, fuel = n + 1 := ⟨fuel - 1, by omega⟩
  cases hsplit : splitAt Node.name name kids with
  | some found =>
    obtain ⟨before, b, bkids, after⟩ := found
    exact hs.run_getPathPart_found hname (fun c hc => Multiset.mem_of_le hle
      (Multiset.mem_cons_of_mem (Node.mem_below_of_childBlocks hc))) (hs.nodup_of_le hle) hsplit
      (by omega)
  | none =>
    obtain ⟨retrieved, hsearch⟩ := hs.run_searchInode_none (k := k) hle hsplit
      (show a.data.height < fuel by omega)
    rw [getPathPart, if_neg hname]
    simp [deref, assertSome, hsearch]

/-! ## get_path -/

/-- The blocks from the root to a place. -/
def pathBlocks (z : Zipper Node) : List Block :=
  (z.label.block z.kids :: chain z.frames z.label.id).reverse

theorem getLast?_pathBlocks (z : Zipper Node) :
    (pathBlocks z).getLast? = some (z.label.block z.kids) := by
  simp [pathBlocks]

/-- One step down adds a block. -/
theorem pathBlocks_down {z : Zipper Node} {name : Str} {before bkids after : Forest Node} {b : Node}
    (hsplit : splitAt Node.name name z.kids = some (before, b, bkids, after)) :
    pathBlocks ⟨b, bkids, ⟨z.label, before, after⟩ :: z.frames⟩ =
      pathBlocks z ++ [b.block bkids] := by
  have hblock : Frame.block ⟨z.label, before, after⟩ b.id = z.label.block z.kids := by
    rw [(splitAt_eq_some hsplit).1]
    simp [Node.block, Frame.block]
  simp [pathBlocks, chain, hblock]

/-- The tree at a place is part of the whole. -/
theorem tree_le_plug (z : Zipper Node) :
    z.label.tree z.kids ≤
      (plug z.frames z.label z.kids).1.tree (plug z.frames z.label z.kids).2 := by
  rw [tree_plug]
  exact Multiset.le_add_right _ _

theorem Node.height_data_lt (a : Node) (kids : Forest Node) :
    a.data.height < (a.tree kids).card := by
  have hdata := a.data.height_le_card
  simp only [Node.tree, Node.below, Multiset.card_cons, Multiset.card_add]
  omega

theorem Stores.run_getPathLoop (hs : Stores s stored) {names : List Str}
    (hnames : ∀ name ∈ names, name ≠ FsUtil.separator) {z : Zipper Node}
    (hle : (plug z.frames z.label z.kids).1.tree (plug z.frames z.label z.kids).2 ≤ stored)
    {fuel : ℕ} (hfuel : ((plug z.frames z.label z.kids).1.tree
      (plug z.frames z.label z.kids).2).card + 1 < fuel) :
    (getPathLoop fuel names (some (z.label.block z.kids)) (pathBlocks z)).run (handler k) s =
      .returned (((descend Node.name z names).map pathBlocks).getD []) s := by
  induction names generalizing z with
  | nil => rfl
  | cons name names ih =>
    have htree := (tree_le_plug z).trans hle
    have hheight := Node.height_data_lt z.label z.kids
    have hcard := Multiset.card_le_card (tree_le_plug z)
    have hpart := hs.run_getPathPart (k := k) (hnames name (List.mem_cons_self ..)) htree
      (show z.label.data.height + 2 < fuel by omega)
    rw [getPathLoop, Program.run_bind, hpart, Outcome.bind_returned, descend_cons, down]
    cases hsplit : splitAt Node.name name z.kids with
    | none => rfl
    | some found =>
      obtain ⟨before, b, bkids, after⟩ := found
      have hdown : down Node.name z name =
          some ⟨b, bkids, ⟨z.label, before, after⟩ :: z.frames⟩ := by
        rw [down, hsplit]
        rfl
      have hnext := ih (fun n hn => hnames n (List.mem_cons_of_mem _ hn))
        (z := ⟨b, bkids, ⟨z.label, before, after⟩ :: z.frames⟩) (by rw [plug_down hdown]; exact hle)
        (by rw [plug_down hdown]; exact hfuel)
      rw [pathBlocks_down hsplit] at hnext
      exact hnext

end BlockFuse

namespace FsUtil

/-- The names a path is made of: its parts after the root. -/
def names (path : Str) : List Str := if path = separator then [] else path.tail.splitOn slash

theorem separatePath_eq {path : Str} (h : path ≠ []) :
    separatePath path = .ok (separator :: names path) := by
  obtain ⟨c, rest, rfl⟩ := List.exists_cons_of_ne_nil h
  by_cases hroot : c :: rest = separator
  · simp [separatePath, names, hroot]
  · simp [separatePath, names, hroot]

theorem ne_separator_of_mem_names {path name : Str} (h : name ∈ names path) : name ≠ separator := by
  rintro rfl
  by_cases hroot : path = separator
  · simp [names, hroot] at h
  · rw [names, if_neg hroot] at h
    exact notMem_of_mem_splitOn h (by simp [separator])

end FsUtil

namespace BlockFuse

variable {s : BlockFuse} {stored : Multiset Block} {k : Bool}

/-- The place a path leads to, in a tree of inodes. -/
def resolve (a : Node) (kids : Forest Node) (path : Str) : Option (Zipper Node) :=
  descend Node.name (top a kids) (FsUtil.names path)

/-- **A whole path.** When the root's tree is stored, `get_path` gives the blocks from the root to
the inode that the names lead to, or none. -/
theorem Stores.run_getPath (hs : Stores s stored) {a : Node} {kids : Forest Node}
    (hroot : s.rootBlock = a.block kids) (hle : a.tree kids ≤ stored) {path : Str}
    (hpath : path ≠ []) {fuel : ℕ} (hfuel : (a.tree kids).card + 1 < fuel) :
    (getPath fuel path).run (handler k) s =
      .returned (((resolve a kids path).map pathBlocks).getD []) s := by
  have hloop := hs.run_getPathLoop (k := k) (z := top a kids)
    (fun name (hname : name ∈ FsUtil.names path) => FsUtil.ne_separator_of_mem_names hname) hle
      hfuel
  rw [getPath, FsUtil.separatePath_eq hpath]
  simp only [Program.run_bind, Program.run_ofExcept_ok, Outcome.bind_returned, getPathLoop,
    getPathPart, if_true, run_getRootBlock, hroot, Program.run_pure, List.getLast?_singleton]
  exact hloop

/-! ## get_dir_files_from_dir -/

/-- The inodes at the roots, as their blocks carry them. -/
def rootFiles : Forest Node → List DirFileBlockData
  | .nil => []
  | .cons a kids rest => ⟨a.name, a.stat, a.data.rootIds ++ Node.rootIds kids⟩ :: rootFiles rest

theorem traceBlocks_rootBlocks (kids : Forest Node) :
    traceBlocks ((Node.rootBlocks kids).map some) = .ok (rootFiles kids, []) := by
  induction kids with
  | nil => rfl
  | cons a akids rest _ ih =>
    simp [Node.rootBlocks, traceBlocks, deref, ih, rootFiles, bind, Except.bind, pure, Except.pure]

theorem traceBlocks_childBlocks (d : DataForest) (kids : Forest Node) :
    traceBlocks ((d.rootBlocks ++ Node.rootBlocks kids).map some) =
      .ok (rootFiles kids, d.linked.rootIds) := by
  induction d with
  | nil => exact traceBlocks_rootBlocks kids
  | leaf id data rest ih =>
    rw [DataForest.rootBlocks, List.cons_append, List.map_cons, traceBlocks, ih]
    rfl
  | link id lkids rest _ ih =>
    rw [DataForest.rootBlocks, List.cons_append, List.map_cons, traceBlocks, ih,
      DataForest.linked, DataForest.rootIds_append]
    rfl

/-- There are no inodes below links. -/
theorem Stores.run_getDirFiles_data (hs : Stores s stored) {d : DataForest}
    (hd : ∀ b ∈ d.blocks, b ∈ stored) {fuel : ℕ} (hfuel : d.height < fuel) :
    (getDirFiles fuel d.rootIds).run (handler k) s = .returned [] s := by
  induction fuel generalizing d with
  | zero => omega
  | succ fuel ih =>
    cases hempty : d.rootIds.isEmpty with
    | true => rw [getDirFiles, hempty]; rfl
    | false =>
      have hlevels := DataForest.height_pos hempty
      have hresponse := hs.run_getBlocks (k := k) d.rootBlocks fun b hb =>
        hd b (DataForest.mem_blocks_of_rootBlocks hb)
      rw [d.map_id_rootBlocks] at hresponse
      have hround : traceBlocks (d.rootBlocks.map some) = .ok ([], d.linked.rootIds) := by
        simpa [Node.rootBlocks, rootFiles] using traceBlocks_childBlocks d .nil
      have hrest := ih (d := d.linked) (fun b hb => hd b (DataForest.mem_blocks_of_linked hb))
        (by rw [d.height_linked]; omega)
      rw [getDirFiles, hempty]
      simp [hresponse, hround, hrest]

/-- **The inodes of a directory**, in the order of its children. -/
theorem Stores.run_getDirFiles (hs : Stores s stored) {a : Node} {kids : Forest Node}
    (hle : a.tree kids ≤ stored) {fuel : ℕ} (hfuel : a.data.height + 1 < fuel) :
    (getDirFiles fuel (a.data.rootIds ++ Node.rootIds kids)).run (handler k) s =
      .returned (rootFiles kids) s := by
  obtain ⟨fuel, rfl⟩ : ∃ n, fuel = n + 1 := ⟨fuel - 1, by omega⟩
  have hbelow : ∀ b ∈ a.below kids, b ∈ stored := fun b hb =>
    Multiset.mem_of_le hle (Multiset.mem_cons_of_mem hb)
  cases hempty : (a.data.rootIds ++ Node.rootIds kids).isEmpty with
  | true =>
    have hkids : kids = .nil := by
      cases kids with
      | nil => rfl
      | cons b bkids rest => simp at hempty
    subst hkids
    rw [getDirFiles, hempty]
    rfl
  | false =>
    have hresponse := hs.run_getBlocks (k := k) (a.childBlocks kids)
      fun b hb => hbelow b (Node.mem_below_of_childBlocks hb)
    rw [a.map_id_childBlocks] at hresponse
    have hround := traceBlocks_childBlocks a.data kids
    rw [← Node.childBlocks] at hround
    have hrest := hs.run_getDirFiles_data (k := k) (d := a.data.linked)
      (fun b hb => hbelow b (Multiset.mem_add.mpr (Or.inl (DataForest.mem_blocks_of_linked hb))))
      (show a.data.linked.height < fuel by rw [a.data.height_linked]; omega)
    rw [getDirFiles, hempty]
    simp [hresponse, hround, hrest]

end BlockFuse

end Pingfs
