import Pingfs.Fs.Exhaustion
import Pingfs.Fs.FileTree

/-!
# The file system refines the file tree

After any run of allowed changes, `getattr` and `readdir` show the file tree that the changes lead
to, and the next change is made exactly when it can be made in that tree.

## Main results

* `refines_fileTree` — the whole run
* `readdir_stops`, `mkdir_throws` — where the tree is not enough: a filler that refuses the first
  entry, and a state without ids
-/

namespace Pingfs

namespace BlockFuse

open FsUtil

variable {s : BlockFuse} {n : Namespace} {T : FileTree} {env : Env}

/-- The filler accepts the two entries it is handed first. -/
def AcceptsDots (filler : Filler) : Prop :=
  ∀ given entry, given.length < 2 → filler given entry = 0

/-- What can be seen of a state is the file tree `T`. -/
structure Shows (env : Env) (s : BlockFuse) (T : FileTree) : Prop where
  getattr : ∀ now names, ValidNames names →
    ∃ reply, exec env false s (now, .getattr (pathOf names)) = .returned reply s ∧
      (reply.status = 0 ↔ T names ≠ none) ∧
      reply.attr.map (·.stMode) = (T names).map Attr.toModeT
  readdir : ∀ now names filler, ValidNames names → AcceptsDots filler →
    (T names).map (·.fileType) = some .dir →
    ∃ reply children, exec env false s (now, .readdir (pathOf names) filler) = .returned reply s ∧
      reply.status = 0 ∧ reply.entries.map Prod.fst = [[0x2e], [0x2e, 0x2e]] ++ children ∧
      children.Nodup ∧ ∀ name, name ∈ children ↔ T (names ++ [name]) ≠ none

theorem Represents.shows (h : Represents s n) (hordinary : n.Ordinary) :
    Shows env s n.fileTree := by
  obtain ⟨t, hgood, rfl⟩ := h
  constructor
  · intro now names hvalid
    rw [hgood.exec_of_isQuery env storedContents rfl]
    have hexec : t.entries.exec env storedContents (now, .getattr (pathOf names)) =
        t.entries.getattr env (pathOf names) := if_neg (pathOf_ne_nil names)
    rw [hexec, Namespace.getattr, t.entries.resolve_pathOf hvalid, Namespace.fileTree,
      Namespace.lookup_eq_place]
    cases t.entries.place names with
    | none => exact ⟨_, rfl, by decide, rfl⟩
    | some z =>
      refine ⟨_, rfl, by simp, ?_⟩
      simp [Entry.attr, Attr.toModeT, statBuf, Stat.updateStat, Mode.toModeT_eq]
  · intro now names filler hvalid hfiller hdir
    rw [hgood.exec_of_isQuery env storedContents rfl]
    have hexec : t.entries.exec env storedContents (now, .readdir (pathOf names) filler) =
        t.entries.readdir env (pathOf names) filler := if_neg (pathOf_ne_nil names)
    rw [hexec, Namespace.readdir, t.entries.resolve_pathOf hvalid]
    rw [Namespace.fileTree, Namespace.lookup_eq_place] at hdir
    cases hz : t.entries.place names with
    | none => simp [hz] at hdir
    | some z =>
      refine ⟨_, z.kids.roots.map Entry.name, rfl, ?_⟩
      rw [Namespace.listing, if_neg (not_not.mpr (hfiller [] _ Nat.two_pos)),
        if_neg (not_not.mpr (hfiller [_] _ Nat.one_lt_two))]
      refine ⟨rfl, by simp [Function.comp_def], (hordinary.below hz).1.1, fun name => ?_⟩
      rw [Namespace.mem_names_iff hz, Namespace.fileTree, Ne, Ne, Option.map_eq_none_iff]

/-- The calls of a list of changes. -/
def callsOf (changes : List (Int64 × Change)) : List (Int64 × Call) :=
  changes.map fun (now, change) => (now, change.call)

/-- The file tree that changes lead to. -/
def treeOf (changes : List (Int64 × Change)) : FileTree :=
  changes.foldl (fun T change => T.next change.2) .new

/-- Every change of the list is allowed in the file tree it is made in. -/
def AllAllowed (T : FileTree) (changes : List (Int64 × Change)) : Prop :=
  Run.EveryStep (fun T change => T.next change.2) (fun T change => T.Allowed change.2) T changes

instance (T : FileTree) (changes : List (Int64 × Change)) : Decidable (AllAllowed T changes) :=
  inferInstanceAs (Decidable (Run.EveryStep _ _ T changes))

theorem Represents.run_changes {changes : List (Int64 × Change)} (h : Represents s n)
    (hordinary : n.Ordinary) (hallowed : AllAllowed n.fileTree changes)
    (hids : NeverRunsOut env s (callsOf changes)) :
    ∃ n', Represents ((callsOf changes).foldl (step env false) s) n' ∧ n'.Ordinary ∧
      n'.fileTree = changes.foldl (fun T change => T.next change.2) n.fileTree := by
  induction changes generalizing s n with
  | nil => exact ⟨n, h, hordinary, rfl⟩
  | cons change changes ih =>
    obtain ⟨now, change⟩ := change
    have hfollows := hordinary.exec_follows env now storedContents
      hallowed.1
    have hnext : Represents (step env false s (now, change.call))
        (n.exec env storedContents (now, change.call)).2 := (h.step_refines hids.1).2
    have hrest : AllAllowed (n.fileTree.next change) changes := hallowed.2
    rw [← hfollows.fileTree_eq] at hrest
    obtain ⟨n', hrun, hordinary', htree⟩ := ih hnext hfollows.ordinary hrest hids.2
    exact ⟨n', hrun, hordinary', by rw [htree, List.foldl_cons, ← hfollows.fileTree_eq]⟩

/-- Whether a regular file is at `names`. -/
def FileAt (T : FileTree) (names : List Str) : Prop := (T names).map (·.fileType) = some .regular

/-- **The next change**: it reports whether it was made, and files that stay and are not written
read the same. -/
theorem Represents.change (h : Represents s n) (hordinary : n.Ordinary) {now : Int64}
    {change : Change} (hallowed : n.fileTree.Allowed change)
    (hids : ¬ RanOut env false s (now, change.call)) :
    n.fileTree.Reports (exec env false s (now, change.call)).result change ∧
      ∀ names, ValidNames names → change.Spares names → FileAt n.fileTree names →
        FileAt (n.fileTree.next change) names → ∀ later size offset,
        (exec env false (step env false s (now, change.call))
            (later, .read (pathOf names) size offset)).result =
          (exec env false s (later, .read (pathOf names) size offset)).result := by
  have hfollows := hordinary.exec_follows env now storedContents
    hallowed
  obtain ⟨hresult, hnext⟩ := h.step_refines hids
  refine ⟨by rw [hresult]; exact hfollows.reports, ?_⟩
  intro names hvalid hspares hfile hfile' later size offset
  rw [← hfollows.fileTree_eq] at hfile'
  obtain ⟨t, hgood, rfl⟩ := h
  obtain ⟨t', hgood', hentries⟩ := hnext
  rw [hgood.exec_of_isQuery env storedContents rfl, hgood'.exec_of_isQuery env storedContents rfl,
    Outcome.result_of, Outcome.result_of, hentries]
  have hexec : ∀ m : Namespace, (m.exec env storedContents
      (later, .read (pathOf names) size offset)).1 = (m.read (pathOf names) size offset).1 :=
    fun m => congrArg Prod.fst (if_neg (pathOf_ne_nil names))
  rw [hexec, hexec]
  refine Namespace.read_congr ?_ size offset
  rw [Namespace.resolve_pathOf _ hvalid, Namespace.resolve_pathOf _ hvalid,
    ← Namespace.lookup_eq_place, ← Namespace.lookup_eq_place]
  -- there is an entry before and after
  obtain ⟨attr, hattr, -⟩ := Option.map_eq_some_iff.mp hfile
  obtain ⟨attr', hattr', -⟩ := Option.map_eq_some_iff.mp hfile'
  obtain ⟨e, he, -⟩ := Option.map_eq_some_iff.mp hattr
  obtain ⟨e', he', -⟩ := Option.map_eq_some_iff.mp hattr'
  rw [he, ← hfollows.eq_of_lookup hspares he he']
  exact he'

/-- **A run of allowed changes.** The state at its end shows the tree that the changes lead to, and
the next allowed change reports whether it can be made in it and spares the other files. -/
theorem refines_fileTree (env : Env) (start : Int64) (changes : List (Int64 × Change))
    (hallowed : AllAllowed .new changes)
    (hids : NeverRunsOut env (new env start) (callsOf changes)) :
    let s := (callsOf changes).foldl (step env false) (new env start)
    Shows env s (treeOf changes) ∧
      ∀ now change, (treeOf changes).Allowed change → ¬ RanOut env false s (now, change.call) →
        (treeOf changes).Reports (exec env false s (now, change.call)).result change ∧
          ∀ names, ValidNames names → change.Spares names → FileAt (treeOf changes) names →
            FileAt ((treeOf changes).next change) names → ∀ later size offset,
            (exec env false (step env false s (now, change.call))
                (later, .read (pathOf names) size offset)).result =
              (exec env false s (later, .read (pathOf names) size offset)).result := by
  intro s
  have htree := Namespace.fileTree_new env start
  obtain ⟨n, hrun, hordinary, hn⟩ := (represents_new env start).run_changes
    (Namespace.ordinary_new env start) (by rwa [htree]) hids
  rw [htree] at hn
  have hn : n.fileTree = treeOf changes := hn
  rw [← hn]
  exact ⟨hrun.shows hordinary, fun now change hchange hids => hrun.change hordinary hchange hids⟩

/-- A file is made in a directory and written, and another directory removed again. -/
theorem refines_fileTree_run :
    let changes : List (Int64 × Change) := [(0, .mkdir [[0x61]] 0o755),
      (1, .create [[0x61], [0x62]] 0o100644), (2, .write [[0x61], [0x62]] [1, 2, 3] 0),
      (3, .mkdir [[0x63]] 0o700), (4, .rmdir [[0x63]]), (5, .create [[0x64], [0x65]] 0o100600)]
    Shows plainEnv ((callsOf changes).foldl (step plainEnv false) (new plainEnv 0))
      (treeOf changes) :=
  (refines_fileTree plainEnv 0 _ (by decide) (by decide +kernel)).1

/-- A filler that refuses the first entry is handed no other, and in a state with one id left
`mkdir` throws where a directory could be made. -/
theorem readdir_stops_and_mkdir_throws :
    (∃ reply, (exec plainEnv false (new plainEnv 0)
        (0, .readdir (pathOf []) fun _ _ => 1)).result = .ok reply ∧
      reply.entries.map Prod.fst = [[0x2e]]) ∧
    (exec plainEnv false lastId (0, .getattr (below 0x61))).result =
      .ok { status := noSuchFileOrDir } ∧
    (exec plainEnv false lastId (0, .mkdir (below 0x61) 0o755)).result = .error exhausted := by
  obtain ⟨hlast, hused⟩ := lastId_represents
  obtain ⟨t, s', b, -, hexec, -⟩ := hlast.mkdir_of_last hused plainEnv 0
    (show below 0x61 ≠ [] from List.cons_ne_nil _ _) rfl rfl 0o755
  refine ⟨⟨_, rfl, rfl⟩, ?_, by rw [hexec]; rfl⟩
  obtain ⟨t, hgood, ht⟩ := hlast
  rw [hgood.exec_of_isQuery plainEnv storedContents rfl, Outcome.result_of, ht]
  rfl

end BlockFuse

end Pingfs
