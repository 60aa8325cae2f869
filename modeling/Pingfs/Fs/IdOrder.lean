import Pingfs.Fs.Requests
import Mathlib.Logic.Relation

/-!
# The order of ids

Ids are handed out in increasing order, and a block is created after its children. So every stored
block has a greater id than its children, and the root of a changed tree has the greatest id of
all. No search can go round in a circle.

Source: `replace_chain`, `add_link_layer` and `replace_blocks_for_contents` of `block_util.cc`,
`CounterSupplier::next_id` of `counter_supplier.cc`.

## Main results

* `Inodes.Next.descending`, `Inodes.Next.root_id` — a changed tree
* `createdIds_runLog` — the ids in the log of a run, in order
* `ids_order_tree` — the order of ids in every state of every run
-/

namespace Pingfs

open Zipper

/-! ## Descending blocks -/

/-- Each block has a greater id than its children. -/
def Descending (blocks : Multiset Block) : Prop := ∀ b ∈ blocks, ∀ child ∈ b.children, child < b.id

@[simp] theorem descending_zero : Descending 0 := fun b hb => absurd hb (Multiset.notMem_zero b)

@[simp] theorem descending_cons (b : Block) (blocks : Multiset Block) :
    Descending (b ::ₘ blocks) ↔ (∀ child ∈ b.children, child < b.id) ∧ Descending blocks :=
  Multiset.forall_mem_cons

@[simp] theorem descending_add (blocks blocks' : Multiset Block) :
    Descending (blocks + blocks') ↔ Descending blocks ∧ Descending blocks' := by
  constructor
  · intro h
    exact ⟨fun b hb => h b (Multiset.mem_add.mpr (Or.inl hb)),
      fun b hb => h b (Multiset.mem_add.mpr (Or.inr hb))⟩
  · rintro ⟨h, h'⟩ b hb
    rcases Multiset.mem_add.mp hb with hb | hb
    · exact h b hb
    · exact h' b hb

theorem DataForest.descending_blocks {d : DataForest} (h : d.Ordered) : Descending d.blocks := by
  induction d with
  | nil => exact descending_zero
  | leaf id data rest ih =>
    exact (descending_cons _ _).mpr ⟨fun _ h => absurd h List.not_mem_nil, ih h⟩
  | link id kids rest ihk ih =>
    obtain ⟨hid, hkids, hrest⟩ := h
    exact (descending_cons _ _).mpr ⟨hid, (descending_add _ _).mpr ⟨ihk hkids, ih hrest⟩⟩

/-- The children of an inode are below it. -/
theorem Node.exists_of_mem_children {a : Node} {kids : Forest Node} {id : BlockId}
    (h : id ∈ a.data.rootIds ++ Node.rootIds kids) : ∃ b ∈ a.below kids, b.id = id := by
  rw [← a.map_id_childBlocks] at h
  obtain ⟨b, hb, hid⟩ := List.mem_map.mp h
  exact ⟨b, Node.mem_below_of_childBlocks hb, hid⟩

theorem lt_ofNat {child : BlockId} {i : ℕ} (hchild : child.toNat < i) (hi : i < 2 ^ 64) :
    child < .ofNat i := by
  rw [UInt64.lt_iff_toNat_lt, UInt64.toNat_ofNat_of_lt' hi]
  exact hchild

/-- A rebuilt path above a child with a smaller id. -/
theorem descending_rebuilt {fs : List (Frame Node)} {child : BlockId} {i : ℕ}
    (hchild : child.toNat < i) (hold : ∀ b ∈ beside fs, b.id.toNat < i)
    (hlast : i + fs.length ≤ 2 ^ 64) : Descending (rebuilt fs child i) := by
  induction fs generalizing child i with
  | nil => exact descending_zero
  | cons f fs ih =>
    rw [List.length_cons] at hlast
    have hi : i < 2 ^ 64 := by omega
    rw [rebuilt, ← Multiset.cons_coe, descending_cons]
    constructor
    · intro id hid
      refine lt_ofNat ?_ hi
      have hid : id ∈ f.label.data.rootIds ++ Node.rootIds (f.before ++ f.after) ∨ id = child := by
        rw [Node.rootIds_append]
        simpa [Block.children, Block.getChildren, Block.tryCastLink, Block.tryCastDirFile,
          or_assoc] using hid
      rcases hid with hid | rfl
      · obtain ⟨b, hb, rfl⟩ := Node.exists_of_mem_children hid
        refine hold b ?_
        rw [Node.below, Node.blocks_append, ← add_assoc] at hb
        rw [beside]
        exact Multiset.mem_add.mpr (Or.inl hb)
      · exact hchild
    · refine ih ?_ (fun b hb => ?_) (by omega)
      · rw [UInt64.toNat_ofNat_of_lt' hi]
        exact Nat.lt_succ_self i
      · exact Nat.lt_succ_of_lt (hold b (Multiset.mem_add.mpr (Or.inr hb)))

/-- The root of a rebuilt path takes the last of the new ids. -/
theorem root_graft (fs : List (Frame Node)) {a : Node} (kids : Forest Node) {i : ℕ}
    (hid : a.id = .ofNat i) :
    (graft Node.relabel fs a kids (i + 1)).1.id = .ofNat (i + fs.length) := by
  induction fs generalizing a kids i with
  | nil => exact hid
  | cons f fs ih =>
    rw [graft, List.length_cons, Nat.add_comm fs.length, ← Nat.add_assoc]
    exact ih _ rfl

/-- A tree rebuilt over an inode with the next id after `used`. -/
theorem descending_graft {fs : List (Frame Node)} {a : Node} {kids : Forest Node} {used : ℕ}
    (hid : a.id = .ofNat (used + 1)) (hbelow : Descending (a.below kids))
    (hchildren : ∀ id ∈ a.data.rootIds ++ Node.rootIds kids, id.toNat ≤ used)
    (hbeside : Descending (beside fs)) (hold : ∀ b ∈ beside fs, b.id.toNat ≤ used)
    (hlast : used + (fs.length + 1) < 2 ^ 64) :
    Descending (Inodes.blocks (graft Node.relabel fs a kids (used + 2))) := by
  have hused : used + 1 < 2 ^ 64 := by omega
  rw [Inodes.blocks, tree_graft, Node.tree, descending_add, descending_cons, descending_add]
  refine ⟨⟨fun id hchild => ?_, hbelow⟩, descending_rebuilt ?_ (fun b hb => ?_) (by omega), hbeside⟩
  · rw [Node.block_id, hid]
    exact lt_ofNat (Nat.lt_succ_of_le (hchildren id hchild)) hused
  · rw [hid, UInt64.toNat_ofNat_of_lt' hused]
    exact Nat.lt_succ_self _
  · exact Nat.lt_succ_of_le ((hold b hb).trans (Nat.le_succ _))

namespace Inodes.Next

variable {env : Env} {now : Int64} {t t' : Inodes} {used used' : ℕ} {call : BlockFuse.Call}

/-- The new root takes the last id. -/
theorem root_id (h : t.Next env now used call t' used') : t'.1.id = .ofNat used' := by
  cases h with
  | @mkdir path bits mode z hnone hparent hmode =>
    have hroot := root_graft z.frames (a := z.label.relabel (used + 2)) (z.kids ++ Forest.tree
      ⟨.ofNat (used + 1), Namespace.baseName path, ⟨mode, env.uid, env.gid, 1, now, now, now⟩,
        .nil⟩ .nil) rfl
    rw [Nat.add_comm z.frames.length, ← Nat.add_assoc]
    exact hroot
  | @create path bits mode z hnone hparent hmode =>
    have hroot := root_graft z.frames (a := z.label.relabel (used + 2)) (z.kids ++ Forest.tree
      ⟨.ofNat (used + 1), Namespace.baseName path, BlockFuse.genFileStat env now mode 0, .nil⟩
        .nil) rfl
    rw [Nat.add_comm z.frames.length, ← Nat.add_assoc]
    exact hroot
  | @rmdir path a kids f fs hz =>
    rw [Nat.add_comm fs.length, ← Nat.add_assoc]
    exact root_graft fs _ rfl
  | @unlink path a kids f fs hz =>
    rw [Nat.add_comm fs.length, ← Nat.add_assoc]
    exact root_graft fs _ rfl
  | @write path buffer contents offset z made data hz hfile hmade hordered hids =>
    rw [Nat.add_comm z.frames.length, ← Nat.add_assoc]
    exact root_graft z.frames _ rfl

theorem used_lt (h : t.Next env now used call t' used') : used < used' := by
  cases h with
  | mkdir => omega
  | create => omega
  | rmdir => omega
  | unlink => omega
  | write hz hfile hmade => omega

/-- **A changed tree** descends if the tree before did, and had only ids up to `used`. -/
theorem descending (h : t.Next env now used call t' used') (ht : Descending t.blocks)
    (hold : ∀ b ∈ t.blocks, b.id.toNat ≤ used) (hlast : used' < 2 ^ 64) :
    Descending t'.blocks := by
  have hadd : ∀ {path : Str} {z : Zipper Node} (name : Str) (stat : Stat),
      t.resolve path = some z → used + (z.frames.length + 2) < 2 ^ 64 →
        Descending (Inodes.addAt z used name stat).blocks := by
    intro path z name stat hz hlast
    rw [BlockFuse.blocks_eq_path (plug_resolve hz)] at ht hold
    simp only [descending_add, Multiset.mem_add] at ht hold
    have hid : (z.label.relabel (used + 2)).id = .ofNat (used + 1 + 1) := rfl
    refine descending_graft hid ?_ (fun id hid => ?_) ht.2.2
      (fun b hb => (hold b (Or.inr (Or.inr hb))).trans (Nat.le_succ _)) (by omega)
    · obtain ⟨-, hbelow, -⟩ := ht
      rw [Node.below, descending_add] at hbelow
      simp only [Node.below, Node.blocks_append, Node.blocks_cons, Node.blocks_nil, Node.tree,
        Node.relabel, DataForest.blocks, descending_add, descending_cons, descending_zero,
        and_true]
      exact ⟨hbelow.1, hbelow.2, fun _ h => absurd h List.not_mem_nil⟩
    · rw [Node.rootIds_append, ← List.append_assoc, List.mem_append] at hid
      rcases hid with hid | hid
      · obtain ⟨b, hb, rfl⟩ := Node.exists_of_mem_children hid
        exact (hold b (Or.inr (Or.inl hb))).trans (Nat.le_succ _)
      · rw [List.mem_singleton.mp hid, UInt64.toNat_ofNat_of_lt' (show used + 1 < 2 ^ 64 by omega)]
  have hremove : ∀ {path : Str} {a : Node} {kids : Forest Node} {f : Frame Node}
      {fs : List (Frame Node)}, t.resolve path = some ⟨a, kids, f :: fs⟩ →
        used + (fs.length + 1) < 2 ^ 64 → Descending (Inodes.removeAt f fs used).blocks := by
    intro path a kids f fs hz hlast
    rw [BlockFuse.blocks_eq_path (plug_resolve hz)] at ht hold
    simp only [beside, descending_add, Multiset.mem_add] at ht hold
    refine descending_graft rfl ?_ (fun id hid => ?_) ht.2.2.2
      (fun b hb => hold b (Or.inr (Or.inr (Or.inr hb)))) hlast
    · simp only [Node.below, Node.blocks_append, Node.relabel, descending_add]
      exact ⟨ht.2.2.1.1.1, ht.2.2.1.1.2, ht.2.2.1.2⟩
    · obtain ⟨b, hb, rfl⟩ := Node.exists_of_mem_children hid
      simp only [Node.below, Node.blocks_append, Node.relabel, Multiset.mem_add] at hb
      exact hold b (Or.inr (Or.inr (Or.inl (by tauto))))
  cases h with
  | mkdir hnone hparent hmode => exact hadd _ _ hparent hlast
  | create hnone hparent hmode => exact hadd _ _ hparent hlast
  | rmdir hz => exact hremove hz hlast
  | unlink hz => exact hremove hz hlast
  | @write path buffer contents offset z made data hz hfile hmade hordered hids =>
    rw [BlockFuse.blocks_eq_path (plug_resolve hz)] at ht hold
    simp only [descending_add, Multiset.mem_add] at ht hold
    refine descending_graft rfl ?_ (fun id hid => ?_) ht.2.2
      (fun b hb => (hold b (Or.inr (Or.inr hb))).trans hmade) hlast
    · rw [Node.below, Node.blocks_nil, add_zero]
      exact DataForest.descending_blocks hordered
    · rw [Node.rootIds_nil, List.append_nil] at hid
      exact hids id hid

end Inodes.Next

namespace BlockFuse

open FsM

variable {s : BlockFuse} {t : Inodes} {env : Env} {now : Int64}

/-! ## The ids of a run -/

/-- The first `n` ids. -/
def firstIds (n : ℕ) : List BlockId := (List.range n).map fun i => .ofNat (i + 1)

theorem firstIds_succ (n : ℕ) : firstIds (n + 1) = firstIds n ++ [.ofNat (n + 1)] := by
  rw [firstIds, List.range_succ, List.map_append, ← firstIds]
  rfl

theorem firstIds_prefix {m n : ℕ} (h : m ≤ n) : firstIds m <+: firstIds n := by
  obtain ⟨more, rfl⟩ := Nat.exists_eq_add_of_le h
  rw [firstIds, firstIds, List.range_add, List.map_append]
  exact List.prefix_append ..

theorem lt_of_mem_firstIds {n : ℕ} {id : BlockId} (h : id ∈ firstIds n) (hn : n + 1 < 2 ^ 64) :
    id < .ofNat (n + 1) := by
  obtain ⟨i, hi, rfl⟩ := List.mem_map.mp h
  have hi := List.mem_range.mp hi
  refine lt_ofNat ?_ hn
  rw [UInt64.toNat_ofNat_of_lt' (show i + 1 < 2 ^ 64 by omega)]
  omega

def Event.createdId : Event → Option BlockId
  | created id => some id
  | freed _ | requested _ => none

/-- The ids created in a log, in order. -/
def createdIds (log : List Event) : List BlockId := log.filterMap Event.createdId

theorem createdIds_append (log more : List Event) :
    createdIds (log ++ more) = createdIds log ++ createdIds more := List.filterMap_append

/-- The state after `create_block`, and the id of its block. -/
theorem idsUsed_createBlock (data : BlockData) (s : BlockFuse) :
    (events (.createBlock data) s = [] ∧ (handler false (.createBlock data) s).state = s) ∨
    (events (.createBlock data) s = [.created (.ofNat (s.idsUsed + 1))] ∧
      (handler false (.createBlock data) s).state.idsUsed = s.idsUsed + 1) := by
  by_cases hz : s.manager.idSupplier.next = 0
  · exact Or.inl (events_createBlock_exhausted data hz)
  · refine Or.inr ?_
    obtain ⟨hevents, hstate⟩ := events_createBlock data hz
    rw [hevents, hstate]
    exact ⟨rfl, idsUsed_withCreated data hz⟩

/-- Created ids are the next ones, whatever the call. -/
theorem createdIds_handler (log : List Event) (call : FsCall) (s : BlockFuse)
    (h : createdIds log = firstIds s.idsUsed) :
    createdIds (log ++ events call s) = firstIds (handler false call s).state.idsUsed := by
  rw [createdIds_append]
  cases call with
  | createBlock data =>
    rcases idsUsed_createBlock data s with ⟨hevents, hstate⟩ | ⟨hevents, hused⟩
    · rw [hevents, hstate, h]
      exact List.append_nil _
    · rw [hevents, hused, firstIds_succ, h]
      rfl
  | managerFreeBlock id => exact (List.append_nil _).trans h
  | freeBlock id => exact (List.append_nil _).trans h
  | getBlocks ids =>
    have hused : (handler false (.getBlocks ids) s).state.idsUsed = s.idsUsed := by
      simp [handler, idsUsed, MemoryBlockManager.idSupplier_getBlocks]
    rw [hused]
    exact (List.append_nil _).trans h
  | getRootBlock => exact (List.append_nil _).trans h
  | setRootBlock newRoot => exact (List.append_nil _).trans h

/-- **The created ids of a run** are the first ids, each once and in order. -/
theorem createdIds_runLog (env : Env) (now : Int64) (calls : List (Int64 × Call)) :
    createdIds (runLog env now calls) =
      firstIds (calls.foldl (step env false) (new env now)).idsUsed := by
  induction calls using List.reverseRecOn with
  | nil => rfl
  | append_singleton calls call ih =>
    rw [List.foldl_append, List.foldl_cons, List.foldl_nil, runLog_concat]
    exact Program.invariant_trace createdIds_handler (program env _ call.1 call.2) ih

/-! ## Runs -/

theorem idsUsed_le_handler (call : FsCall) (s : BlockFuse) :
    s.idsUsed ≤ (handler false call s).state.idsUsed := by
  cases call with
  | createBlock data =>
    rcases idsUsed_createBlock data s with ⟨-, hstate⟩ | ⟨-, hused⟩
    · rw [hstate]
    · exact hused ▸ Nat.le_succ _
  | managerFreeBlock id => exact Nat.le_refl _
  | freeBlock id => exact Nat.le_refl _
  | getBlocks ids => simp [handler, idsUsed, MemoryBlockManager.idSupplier_getBlocks]
  | getRootBlock => exact Nat.le_refl _
  | setRootBlock newRoot => exact Nat.le_refl _

/-- No call gives ids back. -/
theorem idsUsed_le_step (env : Env) (s : BlockFuse) (call : Int64 × Call) :
    s.idsUsed ≤ (step env false s call).idsUsed :=
  Program.invariant_run (I := fun s' => s.idsUsed ≤ s'.idsUsed)
    (fun q s' hle => hle.trans (idsUsed_le_handler q s')) _ (Nat.le_refl s.idsUsed)

/-- A state of a tree whose ids descend. -/
def InOrder (s : BlockFuse) : Prop := ∃ t, Good s t 0 ∧ Descending t.blocks

theorem inOrder_new (env : Env) (now : Int64) : InOrder (new env now) :=
  ⟨_, good_new env now, fun b hb child hchild => by
    obtain rfl := Multiset.mem_singleton.mp hb
    exact absurd hchild List.not_mem_nil⟩

/-- How a call ends while there are ids left after it. -/
theorem InOrder.step (h : InOrder s) {call : Int64 × Call}
    (hids : (BlockFuse.step env false s call).idsUsed + 1 < 2 ^ 64) :
    InOrder (BlockFuse.step env false s call) := by
  obtain ⟨t, hgood, ht⟩ := h
  have hends := hgood.exec_ends env call
  rw [BlockFuse.step] at hids ⊢
  generalize exec env false s call = o at hends hids
  cases hends with
  | idle =>
    rw [Outcome.state_of]
    exact ⟨t, hgood, ht⟩
  | changed hnext hgood' hused hresult =>
    refine ⟨_, hgood', hnext.descending ht (fun b hb => ?_) (by omega)⟩
    exact hgood.stores.le_idsUsed b (Multiset.mem_add.mpr (Or.inl hb))
  | ranOut hquery hroot hlast =>
    rw [Outcome.state_halted] at hids
    omega

theorem idsUsed_le_foldl (env : Env) (s : BlockFuse) (calls : List (Int64 × Call)) :
    s.idsUsed ≤ (calls.foldl (step env false) s).idsUsed := by
  refine List.foldlRecOn (motive := fun s' : BlockFuse => s.idsUsed ≤ s'.idsUsed) calls _ le_rfl ?_
  intro s' hle call _
  exact hle.trans (idsUsed_le_step env s' call)

/-- Every state of a run is in order while there are ids left. -/
theorem InOrder.run (h : InOrder s) {calls : List (Int64 × Call)}
    (hids : (calls.foldl (BlockFuse.step env false) s).idsUsed + 1 < 2 ^ 64) :
    InOrder (calls.foldl (BlockFuse.step env false) s) := by
  induction calls generalizing s with
  | nil => exact h
  | cons call calls ih =>
    have hle := idsUsed_le_foldl env (BlockFuse.step env false s call) calls
    rw [List.foldl_cons] at hids
    exact ih (h.step (by omega)) hids

/-! ## Ids order the tree -/

/-- The block stored under `id` lists `child`. -/
def Lists (s : BlockFuse) (id child : BlockId) : Prop :=
  ∃ b, s.manager.map id = some (some b) ∧ child ∈ b.children

/-- What follows from the order for the state itself. -/
structure OrdersTree (env : Env) (s : BlockFuse) : Prop where
  /-- Ids are greater than those of the children. -/
  lists_lt : ∀ id child, Lists s id child → child < id
  /-- The blocks form no circle. -/
  acyclic : ∀ id, ¬ Relation.TransGen (Lists s) id id
  /-- No call searches for ever. -/
  ends : ∀ call, (exec env false s call).result ≠ .error .diverged

theorem InOrder.ordersTree (h : InOrder s) (env : Env) : OrdersTree env s := by
  obtain ⟨t, hgood, ht⟩ := h
  have hlists : ∀ id child, Lists s id child → child < id := by
    rintro id child ⟨b, hb, hchild⟩
    obtain ⟨c, hc, rfl, hcb⟩ := hgood.stores.holds.exists_of_eq_some hb
    obtain rfl := Option.some.inj hcb
    rw [add_zero] at hc
    exact ht c hc child hchild
  refine ⟨hlists, fun id hcircle => ?_, fun call => ?_⟩
  · have hbelow : ∀ id', Relation.TransGen (Lists s) id id' → id' < id := by
      intro id' hpath
      induction hpath with
      | single hstep => exact hlists _ _ hstep
      | tail _ hstep ih => exact UInt64.lt_trans (hlists _ _ hstep) ih
    exact UInt64.lt_irrefl id (hbelow id hcircle)
  · have hends := hgood.exec_ends env call
    generalize exec env false s call = o at hends
    cases hends with
    | idle hfailed hexhausted hdiverged =>
      rw [Outcome.result_of]
      exact hdiverged
    | changed hnext hgood' hused hresult =>
      rcases hresult with hok | herror
      · simp [hok]
      · simp [herror]
    | ranOut => simp

/-- A call that changes something returns that it has done so. A long `write` returns a length that
looks like a failure. -/
def Succeeds (env : Env) (s : BlockFuse) (call : Int64 × Call) : Prop :=
  call.2.isQuery = false ∧ ∃ reply, (exec env false s call).result = .ok reply ∧
    (¬ call.2.Failed reply ∨ step env false s call ≠ s)

/-- The root after a success has the last id. -/
theorem InOrder.root_id (h : InOrder s) {call : Int64 × Call} (hsucceeds : Succeeds env s call) :
    (BlockFuse.step env false s call).rootBlock.id =
        .ofNat (BlockFuse.step env false s call).idsUsed ∧
      s.idsUsed < (BlockFuse.step env false s call).idsUsed := by
  obtain ⟨t, hgood, ht⟩ := h
  obtain ⟨hquery, reply, hreply, hmade⟩ := hsucceeds
  have hends := hgood.exec_ends env call
  rw [BlockFuse.step] at hmade ⊢
  generalize exec env false s call = o at hends hreply hmade ⊢
  cases hends with
  | idle hfailed =>
    rw [Outcome.result_of] at hreply
    rw [Outcome.state_of] at hmade
    rcases hfailed reply hreply with hquery' | hfailed
    · rw [hquery] at hquery'
      cases hquery'
    · exact absurd hmade (not_or.mpr ⟨not_not_intro hfailed, not_not_intro rfl⟩)
  | changed hnext hgood' hused hresult =>
    rw [hgood'.rootBlock_eq, hused]
    exact ⟨hnext.root_id, hnext.used_lt⟩
  | ranOut => cases hreply

/-- **Ids order the tree**, in every state of every run while there are ids left. The root that a
successful call makes is new, and has the last of the ids created until then, and the greatest. -/
theorem ids_order_tree (env : Env) (now : Int64) (calls : List (Int64 × Call))
    (hids : (calls.foldl (step env false) (new env now)).idsUsed < 2 ^ 64 - 1) :
    let s := calls.foldl (step env false) (new env now)
    OrdersTree env s ∧ ∀ call, Succeeds env s call →
      ∃ before, createdIds (runLog env now (calls ++ [call])) =
          before ++ [(step env false s call).rootBlock.id] ∧
        createdIds (runLog env now calls) <+: before ∧
        ∀ id ∈ before, id < (step env false s call).rootBlock.id := by
  intro s
  have hids : s.idsUsed < 2 ^ 64 - 1 := hids
  have horder : InOrder s := (inOrder_new env now).run (show s.idsUsed + 1 < 2 ^ 64 by omega)
  refine ⟨horder.ordersTree env, fun call hsucceeds => ?_⟩
  obtain ⟨hroot, hlt⟩ := horder.root_id hsucceeds
  have hlast := (step env false s call).idsUsed_lt
  obtain ⟨n, hn⟩ : ∃ n, (step env false s call).idsUsed = n + 1 :=
    ⟨(step env false s call).idsUsed - 1, by omega⟩
  refine ⟨firstIds n, ?_, ?_, fun id hid => ?_⟩
  · rw [createdIds_runLog, List.foldl_append, List.foldl_cons, List.foldl_nil, hroot]
    exact (congrArg firstIds hn).trans (hn ▸ firstIds_succ n)
  · rw [createdIds_runLog]
    exact firstIds_prefix (show s.idsUsed ≤ n by omega)
  · rw [hroot, hn]
    exact lt_of_mem_firstIds hid (hn ▸ hlast)

/-- A file in a directory is written, and the directory removed. -/
theorem ids_order_written_file :
    let calls : List (Int64 × Call) := [(0, .mkdir (below 0x61) 0o755),
      (1, .create (below 0x61 ++ below 0x62) 0o100644),
      (2, .write (below 0x61 ++ below 0x62) [1, 2, 3] 0)]
    let s := calls.foldl (step plainEnv false) (new plainEnv 0)
    let call : Int64 × Call := (3, .rmdir (below 0x61))
    OrdersTree plainEnv s ∧
      ∃ before, createdIds (runLog plainEnv 0 (calls ++ [call])) =
          before ++ [(step plainEnv false s call).rootBlock.id] ∧
        createdIds (runLog plainEnv 0 calls) <+: before ∧
        ∀ id ∈ before, id < (step plainEnv false s call).rootBlock.id := by
  intro calls s call
  obtain ⟨horders, hroot⟩ := ids_order_tree plainEnv 0 calls (by decide +kernel)
  have hresult : (exec plainEnv false s call).result = .ok { status := 0 } := by decide +kernel
  exact ⟨horders, hroot call ⟨rfl, _, hresult, Or.inl (not_not_intro rfl)⟩⟩

end BlockFuse

end Pingfs
