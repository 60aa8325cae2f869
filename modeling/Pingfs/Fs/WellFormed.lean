import Pingfs.Fs.Exhaustion

/-!
# The blocks form a tree

`WellFormed` says of a state, in terms of its map alone, that nothing is leaked, nothing dangles
and the blocks form a tree below the root. A state that represents a namespace is well formed, and
so are the states of all runs that do not run out of ids.

## Main results

* `wellFormed_of_run` — every state of a run is well formed
* `not_wellFormed_of_exhausted` — a call that runs out of ids leaks a block
-/

namespace Pingfs

namespace BlockFuse

open FsM

variable {s : BlockFuse} {rest : Multiset Block} {a : Node} {kids : Forest Node} {env : Env}
  {now : Int64}

/-- The ids that the root leads to, by the children of stored blocks. -/
inductive Reachable (s : BlockFuse) : BlockId → Prop
  | root : Reachable s s.rootBlock.id
  | child {id child : BlockId} {b : Block} (hid : Reachable s id)
      (hb : s.manager.map id = some (some b)) (hchild : child ∈ b.children) : Reachable s child

/-- A place in the children lists: the id of a stored block, and the index of a child of it. -/
abbrev Place := BlockId × ℕ

/-- `id` is listed at the place `p`. -/
def ListedAt (s : BlockFuse) (id : BlockId) (p : Place) : Prop :=
  ∃ b, s.manager.map p.1 = some (some b) ∧ b.children[p.2]? = some id

/-- No leak, no dangling reference, and the shape of a tree. -/
structure WellFormed (s : BlockFuse) : Prop where
  mapped_iff_reachable : ∀ id, (s.manager.map id).isSome ↔ Reachable s id
  listed_once : ∀ id, (s.manager.map id).isSome → id ≠ s.rootBlock.id → ∃! p, ListedAt s id p
  root_not_listed : ∀ p, ¬ ListedAt s s.rootBlock.id p
  root_mapped : s.manager.map s.rootBlock.id = some (some s.rootBlock)

/-! ## Trees of blocks -/

/-- Where ids are listed once, a place is determined by what is listed there. -/
theorem eq_of_references_nodup {blocks : Multiset Block} (h : (references blocks).Nodup)
    {b c : Block} (hb : b ∈ blocks) (hc : c ∈ blocks) {i j : ℕ} {id : BlockId}
    (hi : b.children[i]? = some id) (hj : c.children[j]? = some id) : b = c ∧ i = j := by
  have hbid := List.mem_of_getElem? hi
  have hcid := List.mem_of_getElem? hj
  obtain ⟨others, rfl⟩ := Multiset.exists_cons_of_mem hb
  rw [references_cons] at h
  have heq : b = c := by
    by_contra hne
    have hothers := (Multiset.mem_cons.mp hc).resolve_left (Ne.symm hne)
    exact Multiset.disjoint_left.mp (Multiset.disjoint_of_nodup_add h) hbid
      (Multiset.mem_bind.mpr ⟨c, hothers, hcid⟩)
  subst heq
  have hnodup := Multiset.coe_nodup.mp (Multiset.nodup_of_le (Multiset.le_add_right _ _) h)
  have hlt := (List.getElem?_eq_some_iff.mp hi).1
  exact ⟨rfl, (List.getElem?_inj hlt hnodup).mp (hi.trans hj.symm)⟩

/-- `R` is closed under the children of stored blocks. -/
def Closed (s : BlockFuse) (R : BlockId → Prop) : Prop :=
  ∀ b, s.manager.map b.id = some (some b) → R b.id → ∀ child ∈ b.children, R child

/-- What contains the roots of data and is closed contains all of it. -/
theorem Closed.data {R : BlockId → Prop} (h : Closed s R) {d : DataForest}
    (hmap : ∀ b ∈ d.blocks, s.manager.map b.id = some (some b))
    (hroots : ∀ id ∈ d.rootIds, R id) : ∀ b ∈ d.blocks, R b.id := by
  induction d with
  | nil => simp [DataForest.blocks]
  | leaf id data drest ih =>
    simp only [DataForest.rootIds, List.forall_mem_cons, DataForest.blocks,
      Multiset.forall_mem_cons] at hmap hroots ⊢
    exact ⟨hroots.1, ih hmap.2 hroots.2⟩
  | link id dkids drest ihk ih =>
    simp only [DataForest.rootIds, List.forall_mem_cons, DataForest.blocks,
      Multiset.forall_mem_cons, Multiset.mem_add] at hmap hroots ⊢
    have hkids : ∀ child ∈ dkids.rootIds, R child :=
      h ⟨id, .link ⟨dkids.rootIds⟩⟩ hmap.1 hroots.1
    refine ⟨hroots.1, fun b hb => ?_⟩
    rcases hb with hb | hb
    · exact ihk (fun c hc => hmap.2 c (Or.inl hc)) hkids b hb
    · exact ih (fun c hc => hmap.2 c (Or.inr hc)) hroots.2 b hb

/-- What contains the roots of a forest and is closed contains all of it. -/
theorem Closed.inodes {R : BlockId → Prop} (h : Closed s R) {f : Forest Node}
    (hmap : ∀ b ∈ Node.blocks f, s.manager.map b.id = some (some b))
    (hroots : ∀ id ∈ Node.rootIds f, R id) : ∀ b ∈ Node.blocks f, R b.id := by
  induction f with
  | nil => simp
  | cons c ckids frest ihk ih =>
    simp only [Node.rootIds_cons, List.forall_mem_cons, Node.blocks, Multiset.forall_mem_cons,
      Multiset.mem_add] at hmap hroots ⊢
    have hchildren : ∀ child ∈ c.data.rootIds ++ Node.rootIds ckids, R child :=
      h _ hmap.1 hroots.1
    refine ⟨hroots.1, fun b hb => ?_⟩
    rcases hb with (hb | hb) | hb
    · exact h.data (fun e he => hmap.2 e (Or.inl (Or.inl he)))
        (fun e he => hchildren e (List.mem_append_left _ he)) b hb
    · exact ihk (fun e he => hmap.2 e (Or.inl (Or.inr he)))
        (fun e he => hchildren e (List.mem_append_right _ he)) b hb
    · exact ih (fun e he => hmap.2 e (Or.inr he)) hroots.2 b hb

/-- What contains the children of an inode and is closed contains everything below it. -/
theorem Closed.below {R : BlockId → Prop} (h : Closed s R)
    (hmap : ∀ b ∈ a.below kids, s.manager.map b.id = some (some b))
    (hroots : ∀ id ∈ (a.block kids).children, R id) : ∀ b ∈ a.below kids, R b.id := by
  simp only [Node.below, Multiset.mem_add] at hmap ⊢
  rintro b (hb | hb)
  · exact h.data (fun c hc => hmap c (Or.inl hc))
      (fun id hid => hroots id (List.mem_append_left _ hid)) b hb
  · exact h.inodes (fun c hc => hmap c (Or.inr hc))
      (fun id hid => hroots id (List.mem_append_right _ hid)) b hb

theorem closed_reachable (s : BlockFuse) : Closed s (Reachable s) :=
  fun _ hb hid _ hchild => .child hid hb hchild

/-- Nothing outside of the root's tree is reachable. -/
theorem Stores.mem_of_reachable (hs : Stores s (a.tree kids + rest))
    (hroot : s.rootBlock = a.block kids) {id : BlockId} (h : Reachable s id) :
    id ∈ (a.tree kids).map (·.id) := by
  induction h with
  | root => rw [hroot, Node.tree, Multiset.map_cons]; exact Multiset.mem_cons_self ..
  | @child id child b hid hb hchild ih =>
    obtain ⟨c, hc, rfl⟩ := Multiset.mem_map.mp ih
    obtain rfl : c = b := by
      rw [hs.holds.get c (Multiset.mem_add.mpr (Or.inl hc))] at hb
      exact Option.some.inj (Option.some.inj hb)
    rw [← Node.references_tree]
    exact Multiset.mem_cons_of_mem (Multiset.mem_bind.mpr ⟨c, hc, hchild⟩)

/-- The root's tree is reachable. -/
theorem Stores.reachable_of_mem (hs : Stores s (a.tree kids + rest))
    (hroot : s.rootBlock = a.block kids) {b : Block} (hb : b ∈ a.tree kids) : Reachable s b.id := by
  have hmap : ∀ c ∈ a.tree kids, s.manager.map c.id = some (some c) := fun c hc =>
    hs.holds.get c (Multiset.mem_add.mpr (Or.inl hc))
  rw [Node.tree, Multiset.forall_mem_cons] at hmap
  have htop : Reachable s (a.block kids).id := by
    rw [← hroot]
    exact .root
  rcases Multiset.mem_cons.mp hb with rfl | hb
  · exact htop
  · exact (closed_reachable s).below hmap.2 (closed_reachable s _ hmap.1 htop) b hb

/-- **A state without garbage is well formed.** -/
theorem Good.wellFormed {t : Inodes} (h : Good s t 0) : WellFormed s := by
  obtain ⟨a, kids⟩ := t
  have hs : Stores s (a.tree kids + 0) := h.stores
  have hroot : s.rootBlock = a.block kids := h.rootBlock_eq
  have hholds : Heap.Holds Block.id some s.manager.map (a.tree kids) := by
    simpa using h.stores.holds
  have hrefs := Node.references_nodup hholds.nodup
  have hlisted : ∀ {id p}, ListedAt s id p →
      ∃ b ∈ a.tree kids, b.id = p.1 ∧ b.children[p.2]? = some id := by
    rintro id p ⟨b, hb, hchild⟩
    obtain ⟨c, hc, hid, hcb⟩ := hholds.exists_of_eq_some hb
    exact ⟨c, hc, hid, by rwa [Option.some.inj hcb]⟩
  refine ⟨fun id => ?_, fun id hid hne => ?_, fun p hp => ?_, ?_⟩
  · rw [hholds.isSome_iff]
    refine ⟨fun hmem => ?_, hs.mem_of_reachable hroot⟩
    obtain ⟨b, hb, rfl⟩ := Multiset.mem_map.mp hmem
    exact hs.reachable_of_mem hroot hb
  · rw [hholds.isSome_iff, ← Node.references_tree] at hid
    have hne : id ≠ a.id := by rwa [hroot] at hne
    obtain ⟨b, hb, hchild⟩ := Multiset.mem_bind.mp ((Multiset.mem_cons.mp hid).resolve_left hne)
    obtain ⟨i, hi⟩ := List.mem_iff_getElem?.mp (Multiset.mem_coe.mp hchild)
    refine ⟨(b.id, i), ⟨b, hholds.get b hb, hi⟩, fun p hp => ?_⟩
    obtain ⟨c, hc, hcid, hj⟩ := hlisted hp
    obtain ⟨rfl, hij⟩ := eq_of_references_nodup (Multiset.nodup_cons.mp hrefs).2 hb hc hi hj
    exact Prod.ext hcid.symm hij.symm
  · obtain ⟨b, hb, -, hi⟩ := hlisted hp
    rw [hroot] at hi
    exact (Multiset.nodup_cons.mp hrefs).1 (Multiset.mem_bind.mpr ⟨b, hb, List.mem_of_getElem? hi⟩)
  · rw [hroot]
    exact hholds.get _ (Multiset.mem_cons_self ..)

/-! ## Runs -/

/-- **Every state of a run is well formed**, as long as no call has run out of ids. -/
theorem wellFormed_of_run (env : Env) (now : Int64) (calls : List (Int64 × Call))
    (hids : NeverRunsOut env (new env now) calls) :
    WellFormed (calls.foldl (step env false) (new env now)) := by
  obtain ⟨t, hgood, -⟩ := (represents_new env now).run_refines hids
  exact hgood.wellFormed

/-- A file is written twice, its directory is removed, and some calls fail on the way. -/
theorem wellFormed_of_some_calls :
    WellFormed (List.foldl (step plainEnv false) (new plainEnv 0)
      [(0, .mkdir (below 0x61) 0o755), (1, .create (below 0x61 ++ below 0x62) 0o100644),
        (2, .write (below 0x61 ++ below 0x62) [1, 2, 3] 0),
        (3, .create (below 0x63) 0), (4, .rmdir [FsUtil.slash]),
        (5, .write (below 0x61 ++ below 0x62) [4] 3), (6, .rmdir (below 0x61))]) :=
  wellFormed_of_run plainEnv 0 _ (by decide +kernel)

/-- A block that was created and not put into the tree is leaked. -/
theorem not_wellFormed_of_grown {s' : BlockFuse} {t : Inodes} (h : Good s t 0) {b : Block}
    (hgrown : Grown s t.blocks {b} s') : ¬ WellFormed s' := by
  obtain ⟨a, kids⟩ := t
  have hs : Stores s' (a.tree kids + {b}) := by
    rw [Multiset.add_comm]
    exact hgrown.stores
  have hmapped := hs.holds.get b (Multiset.mem_add.mpr (Or.inr (Multiset.mem_singleton_self b)))
  intro hwell
  have hreachable := (hwell.mapped_iff_reachable b.id).mp (by rw [hmapped]; rfl)
  have hmem := hs.mem_of_reachable (hgrown.rootBlock_eq.trans h.rootBlock_eq) hreachable
  have hnodup := hs.holds.nodup
  rw [Multiset.map_add, Multiset.map_singleton] at hnodup
  exact Multiset.disjoint_left.mp (Multiset.disjoint_of_nodup_add hnodup) hmem
    (Multiset.mem_singleton_self _)

/-- **A call that runs out of ids leaks a block.** The new directory's block is mapped, and nothing
leads to it. -/
theorem not_wellFormed_of_exhausted :
    (∀ call ∈ exhaustingCalls, call.2.path.head? = some FsUtil.slash) ∧
    ¬ WellFormed (exhaustingCalls.foldl (step plainEnv false) (new plainEnv 0)) := by
  refine ⟨fun call hcall => head?_of_mem_exhaustingCalls hcall, ?_⟩
  obtain ⟨hlast, hused⟩ := lastId_represents
  obtain ⟨t, s', b, hgood, hexec, hgrown⟩ := hlast.mkdir_of_last hused plainEnv 0
    (show below 0x61 ≠ [] from List.cons_ne_nil _ _) rfl rfl 0o755
  rw [exhaustingCalls, List.foldl_append, ← lastId, List.foldl_cons, List.foldl_nil, step, hexec]
  exact not_wellFormed_of_grown hgood hgrown

end BlockFuse

end Pingfs
