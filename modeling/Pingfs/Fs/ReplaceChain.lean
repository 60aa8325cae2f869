import Pingfs.Fs.Runs
import Mathlib.Data.List.Chain

/-!
# Replacing a chain

`replace_chain` is given blocks of which each has the next one among its children, from the last one
up. It makes a new block for each, of the same kind, that has the new block of the next one last
among its children instead of the old one. The chain may be any, of inodes and links, and the blocks
in the manager too: no other block is touched.

Source: `replace_chain`, `replace_block_with_diff_children` and `remove_ids` of `block_util.cc`.

## Main results

* `replaceChain_rebuilds` — the new chain, and what becomes of the manager
-/

namespace Pingfs

/-- What `b` holds, with other children: an inode keeps its name and its stat. -/
def Block.dataWith (b : Block) (children : List BlockId) : BlockData :=
  match b.data with
  | .dirFile inode => .dirFile { inode with children }
  | .link _ => .link ⟨children⟩
  | .fileContents contents => .fileContents contents

namespace BlockFuse

open FsM BlockUtil

variable {s : BlockFuse} {b c d d' : Block} {ds ds' upper : List Block}
  {children remove add : List BlockId} {k : Bool}

/-- The block has the other one among its children. -/
def HasChild (c d : Block) : Prop := d.id ∈ c.children

/-- Each block of the second list is that of the first one with other children. The last one loses
the children `remove`, each once, and gets `add`; the others lose the old block below, once, and get
the new one. -/
inductive Rebuilt (remove add : List BlockId) : List Block → List Block → Prop
  | last {c c' : Block} (hdata : c'.data = c.dataWith (c.children.diff remove ++ add)) :
    Rebuilt remove add [c] [c']
  | up {c c' d d' : Block} {ds ds' : List Block} (h : Rebuilt remove add (d :: ds) (d' :: ds'))
      (hdata : c'.data = c.dataWith (c.children.erase d.id ++ [d'.id])) :
    Rebuilt remove add (c :: d :: ds) (c' :: d' :: ds')

theorem Rebuilt.length_eq (h : Rebuilt remove add ds ds') : ds'.length = ds.length := by
  induction h with
  | last hdata => rfl
  | up h hdata ih => exact congrArg Nat.succ ih

/-- Ids that are all there are removed. -/
theorem removeIds_eq (h : remove.Subperm children) :
    removeIds children remove = .ok (children.diff remove) := by
  induction remove generalizing children with
  | nil => rfl
  | cons id ids ih =>
    have hmem : id ∈ children := h.subset List.mem_cons_self
    have hrest : ids.Subperm (children.erase id) := by
      have herase := h.erase id
      rwa [List.erase_cons_head] at herase
    rw [removeIds, if_pos hmem, ih hrest, List.diff_cons]

/-- An inode or a link is replaced by one of its kind. -/
theorem replaceBlockWithDiffChildren_eq (h : b.getChildren.isSome) (children : List BlockId) :
    replaceBlockWithDiffChildren b children = createBlock (b.dataWith children) := by
  obtain ⟨id, data⟩ := b
  cases data with
  | dirFile inode => rfl
  | link linkData => rfl
  | fileContents contents => cases h

/-- The blocks above the last one, from the bottom. -/
theorem replaceChainLoop_rebuilds (h : Rebuilt remove add (d :: ds) (d' :: ds'))
    (hinner : ∀ c ∈ upper, c.getChildren.isSome)
    (hchain : (upper.reverse ++ d :: ds).IsChain HasChild) (s : BlockFuse) :
    ((replaceChainLoop add upper [d.id] (some d')).run (handler k) s).Meets
      (fun top s' => ∃ more : List Block, top = (more.reverse ++ d' :: ds').head? ∧
        Rebuilt remove add (upper.reverse ++ d :: ds) (more.reverse ++ d' :: ds') ∧
          Created s more s')
      (RunsOut s upper.length) := by
  induction upper generalizing d d' ds ds' s with
  | nil => exact ⟨[], rfl, h, Created.refl s⟩
  | cons c upper ih =>
    rw [List.reverse_cons, List.append_assoc, List.singleton_append] at hchain ⊢
    obtain ⟨hupper, hchild, -⟩ := List.isChain_append_cons_cons.mp hchain
    have hremove : removeIds c.children [d.id] = .ok (c.children.erase d.id) := by
      rw [removeIds, if_pos (show d.id ∈ c.children from hchild), removeIds]
    rw [replaceChainLoop, hremove]
    simp only [Program.run_bind, Program.run_ofExcept_ok, Outcome.bind_returned,
      replaceBlockWithDiffChildren_eq (hinner c List.mem_cons_self)]
    refine (createBlock_created s _).bind (fun e s' h => h.mono (by simp)) ?_
    rintro c' s' ⟨hdata, hcreated⟩
    have hup : Rebuilt remove add (c :: d :: ds) (c' :: d' :: ds') := .up h (by rw [hdata])
    have hmeets := ih hup (fun b hb => hinner b (List.mem_cons_of_mem _ hb)) hchain s'
    refine hmeets.imp ?_ fun e s'' h => ?_
    · rintro top s'' ⟨more, htop, hrebuilt, hmore⟩
      refine ⟨c' :: more, ?_, ?_, hcreated.trans hmore⟩
      · rw [htop, List.reverse_cons, List.append_assoc, List.singleton_append]
      · rw [List.reverse_cons, List.append_assoc, List.singleton_append]
        exact hrebuilt
    · refine (RunsOut.after hcreated h).mono ?_
      rw [List.length_singleton, List.length_cons, Nat.add_comm]

/-- **A chain is rebuilt** from its last block up. The new blocks are created in that order, nothing
else becomes of the manager, and the first one is returned. No assertion fails; only the ids may run
out. -/
theorem replaceChain_rebuilds (s : BlockFuse) {upper : List Block} {last : Block}
    (hinner : ∀ c ∈ upper ++ [last], c.getChildren.isSome)
    (hchain : (upper ++ [last]).IsChain HasChild) {remove : List BlockId}
    (hremove : remove.Subperm last.children) (add : List BlockId) :
    ((replaceChain (upper ++ [last]).reverse remove add).run (handler false) s).Meets
      (fun top s' => ∃ replaced : List Block, top = replaced.head? ∧
        replaced.length = (upper ++ [last]).length ∧
          Rebuilt remove add (upper ++ [last]) replaced ∧ Created s replaced.reverse s')
      (RunsOut s (upper ++ [last]).length) := by
  rw [List.reverse_append, List.reverse_singleton, List.singleton_append, replaceChain,
    replaceChainLoop, removeIds_eq hremove]
  simp only [Program.run_bind, Program.run_ofExcept_ok, Outcome.bind_returned,
    replaceBlockWithDiffChildren_eq (hinner last (by simp))]
  refine (createBlock_created s _).bind (fun e s' h => h.mono (by simp)) ?_
  rintro last' s' ⟨hdata, hcreated⟩
  have hlast : Rebuilt remove add [last] [last'] := .last (by rw [hdata])
  have hinner' : ∀ c ∈ upper.reverse, c.getChildren.isSome := fun c hc =>
    hinner c (List.mem_append_left _ (List.mem_reverse.mp hc))
  have hmeets := replaceChainLoop_rebuilds (k := false) hlast hinner'
    (by rwa [List.reverse_reverse]) s'
  rw [List.reverse_reverse, List.length_reverse] at hmeets
  refine hmeets.imp ?_ fun e s'' h => ?_
  · rintro top s'' ⟨more, htop, hrebuilt, hmore⟩
    refine ⟨more.reverse ++ [last'], htop, hrebuilt.length_eq, hrebuilt, ?_⟩
    rw [List.reverse_append, List.reverse_reverse]
    exact hcreated.trans hmore
  · refine (RunsOut.after hcreated h).mono ?_
    rw [List.length_singleton, List.length_append, List.length_singleton, Nat.add_comm]

/-- The root with two children, and a link among them. -/
def rootOfTwo : Block := ⟨1, (new plainEnv 0).rootBlock.dataWith [5, 2]⟩

def linkOfTwo : Block := ⟨2, .link ⟨[6, 7]⟩⟩

/-- The link loses the child `7` and gets `8`. -/
theorem replaceChain_rebuilds_pair :
    ((replaceChain ([rootOfTwo] ++ [linkOfTwo]).reverse [7] [8]).run (handler false)
      (new plainEnv 0)).Meets
      (fun top s' => ∃ replaced : List Block, top = replaced.head? ∧
        replaced.length = ([rootOfTwo] ++ [linkOfTwo]).length ∧
          Rebuilt [7] [8] ([rootOfTwo] ++ [linkOfTwo]) replaced ∧
            Created (new plainEnv 0) replaced.reverse s')
      (RunsOut (new plainEnv 0) ([rootOfTwo] ++ [linkOfTwo]).length) := by
  have hchild : HasChild rootOfTwo linkOfTwo := show (2 : UInt64) ∈ [5, 2] by decide
  have hremove : [7].Subperm linkOfTwo.children := show [7].Subperm [6, 7] by decide
  exact replaceChain_rebuilds _ (by decide) (.cons_cons hchild (.singleton _)) hremove _

end BlockFuse

end Pingfs
