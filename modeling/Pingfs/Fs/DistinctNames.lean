import Pingfs.Fs.FileTree
import Pingfs.Fs.IdOrder

/-!
# Siblings have distinct names

Where all paths are made of names, no two entries of a directory ever have the same name: an entry
is only made under a name that leads nowhere. A path like `//b` would break that, since it makes its
entry in another directory than the one it was looked for in.

## Main results

* `DistinctNames.add` — a new entry
* `InOrder.distinctNames_run` — every state of a run while there are ids left
-/

namespace Pingfs

open Zipper

/-- No two siblings have the same name. -/
def DistinctNames (n : Namespace) : Prop :=
  Forest.Every (fun _ names => names.Nodup) Entry.name (Forest.tree n.1 n.2)

namespace DistinctNames

open Namespace

variable {n : Namespace} {names : List Str}

theorem new (env : Env) (now : Int64) : DistinctNames (.new env now) :=
  ⟨List.nodup_nil, trivial, trivial⟩

theorem apart (h : DistinctNames n) {z : Zipper Entry} (hz : n.place names = some z) :
    Apart Entry.name z.frames z.label := by
  rw [DistinctNames, ← plug_place hz] at h
  exact apart_of_every (fun _ _ hnodup => hnodup) h

theorem below (h : DistinctNames n) {z : Zipper Entry} (hz : n.place names = some z) :
    Forest.Every (fun _ names => names.Nodup) Entry.name (Forest.tree z.label z.kids) := by
  rw [DistinctNames, ← plug_place hz] at h
  exact every_of_plug h

/-- What changes below a place leaves names distinct if they are there. -/
theorem rebuild {fs : List (Frame Entry)} {a e : Entry} {old kids : Forest Entry}
    (h : DistinctNames (plug fs a old)) (hname : e.name = a.name)
    (hbelow : Forest.Every (fun _ names => names.Nodup) Entry.name (Forest.tree e kids)) :
    DistinctNames (Namespace.rebuild fs e kids) :=
  every_graft (fun _ _ _ hperm hnodup => hperm.nodup_iff.mp hnodup) h hname hbelow 0

/-- **A new entry** under a name that led nowhere. -/
theorem add (h : DistinctNames n) {z : Zipper Entry} (hz : n.place names = some z) {e : Entry}
    (hnew : n.lookup (names ++ [e.name]) = none) :
    DistinctNames (Namespace.add z e) ∧
      (Namespace.add z e).lookup = Function.update n.lookup (names ++ [e.name]) (some e) := by
  have habsent : e.name ∉ z.kids.roots.map Entry.name := fun hmem =>
    (mem_names_iff hz e.name).mp hmem hnew
  have hbelow := h.below hz
  refine ⟨?_, lookup_add hz (h.apart hz) hnew⟩
  rw [← plug_place hz] at h
  refine h.rebuild rfl ?_
  simp only [Forest.every_cons, Forest.every_append, Forest.every_nil, and_true,
    Forest.roots_append, Forest.roots_cons, Forest.roots_nil, List.map_append, List.map_cons,
    List.map_nil] at hbelow ⊢
  refine ⟨List.nodup_append.mpr ⟨hbelow.1, List.nodup_singleton _, fun a ha b hb heq => ?_⟩,
    hbelow.2, List.nodup_nil⟩
  obtain rfl := List.mem_singleton.mp hb
  exact habsent (heq ▸ ha)

end DistinctNames

/-- The path of the call is made of names. -/
def BlockFuse.Call.Named (call : BlockFuse.Call) : Prop :=
  ∃ names, ValidNames names ∧ call.path = FsUtil.pathOf names

namespace Namespace

open FsUtil

variable {n : Namespace} {names : List Str}

/-- Names that lead nowhere are some. -/
theorem ne_nil_of_place (hnone : n.place names = none) : names ≠ [] := by
  rintro rfl
  cases hnone

/-- The last name of a path made of names. -/
theorem dropLast_append_baseName (hvalid : ValidNames names) (hne : names ≠ []) :
    names.dropLast ++ [baseName (pathOf names)] = names := by
  rw [baseName, names_pathOf hvalid, List.getLast?_eq_some_getLast hne, Option.getD_some,
    List.dropLast_append_getLast]

end Namespace

namespace DistinctNames

open FsUtil Namespace

variable {n : Namespace} {names : List Str}

/-- An entry made under the path `names`. -/
theorem add_last (h : DistinctNames n) (hvalid : ValidNames names)
    (hnone : n.place names = none) {z : Zipper Entry} (hz : n.place names.dropLast = some z)
    (stat : Stat) (contents : Bytes) :
    DistinctNames (Namespace.add z ⟨baseName (pathOf names), stat, contents⟩) ∧
      (Namespace.add z ⟨baseName (pathOf names), stat, contents⟩).lookup =
        Function.update n.lookup names (some ⟨baseName (pathOf names), stat, contents⟩) := by
  have hlast := dropLast_append_baseName hvalid (ne_nil_of_place hnone)
  have hadded := h.add hz (e := ⟨baseName (pathOf names), stat, contents⟩)
    (by rw [hlast]; exact place_eq_none_iff.mp hnone)
  rwa [hlast] at hadded

end DistinctNames

namespace Inodes

open FsUtil

variable {t t' : Inodes} {env : Env} {now : Int64} {used used' : ℕ} {call : BlockFuse.Call}

theorem place_entries (t : Inodes) {names : List Str} (hvalid : ValidNames names) :
    t.entries.place names = (t.resolve (pathOf names)).map (Zipper.map Node.entry) := by
  rw [← Namespace.resolve_pathOf _ hvalid, resolve_entries]

/-- **A change** made under a path of names. -/
theorem Next.distinctNames (h : t.Next env now used call t' used') (hnamed : call.Named)
    (ht : DistinctNames t.entries) : DistinctNames t'.entries := by
  obtain ⟨names, hvalid, hpath⟩ := hnamed
  have hplug : ∀ {path : Str} {z : Zipper Node}, t.resolve path = some z →
      plug (z.frames.map (mapFrame Node.entry)) z.label.entry (z.kids.map Node.entry) =
        t.entries := by
    intro path z hz
    rw [plug_map, plug_resolve hz]
    rfl
  have hadd : ∀ {z : Zipper Node} (stat : Stat), t.resolve (pathOf names) = none →
      t.resolve (parentPath (pathOf names)) = some z →
        DistinctNames (addAt z used (Namespace.baseName (pathOf names)) stat).entries := by
    intro z stat hnone hz
    rw [parentPath_pathOf hvalid] at hz
    rw [entries_addAt]
    refine (ht.add_last hvalid ?_ ?_ stat []).1
    · rw [t.place_entries hvalid, hnone, Option.map_none]
    · rw [t.place_entries hvalid.dropLast, hz, Option.map_some]
  have hremove : ∀ {path : Str} {a : Node} {kids : Forest Node} {f : Frame Node}
      {fs : List (Frame Node)}, t.resolve path = some ⟨a, kids, f :: fs⟩ →
        DistinctNames (removeAt f fs used).entries := by
    intro path a kids f fs hz
    have hat := hplug hz
    rw [List.map_cons, plug] at hat
    rw [← hat] at ht
    have hframe := every_of_plug ht
    rw [entries_removeAt]
    refine ht.rebuild rfl ?_
    simp only [mapFrame, Forest.every_cons, Forest.every_append, Forest.every_nil, and_true,
      Forest.roots_append, Forest.roots_cons] at hframe ⊢
    refine ⟨hframe.1.sublist (List.Sublist.map _ ?_), hframe.2.1, hframe.2.2.2.2⟩
    exact List.Sublist.append_left (List.sublist_cons_self _ _) _
  cases h with
  | mkdir hnone hparent hmode =>
    obtain rfl : _ = pathOf names := hpath
    exact hadd _ hnone hparent
  | create hnone hparent hmode =>
    obtain rfl : _ = pathOf names := hpath
    exact hadd _ hnone hparent
  | rmdir hz => exact hremove hz
  | unlink hz => exact hremove hz
  | write hz hfile hmade hordered hids =>
    rw [← hplug hz] at ht
    rw [entries_rewriteAt]
    exact ht.rebuild rfl ⟨List.nodup_nil, trivial, trivial⟩

end Inodes

namespace BlockFuse

variable {s : BlockFuse} {env : Env}

/-- Whenever ids are left, the state is that of a tree with distinct names. -/
def Orderly (s : BlockFuse) : Prop :=
  s.idsUsed + 1 < 2 ^ 64 → ∃ t, Good s t 0 ∧ DistinctNames t.entries

theorem orderly_new (env : Env) (now : Int64) : Orderly (new env now) :=
  fun _ => ⟨_, good_new env now, DistinctNames.new env now⟩

theorem Orderly.step (h : Orderly s) {call : Int64 × Call} (hnamed : call.2.Named) :
    Orderly (BlockFuse.step env false s call) := by
  intro hids
  have hle := idsUsed_le_step env s call
  obtain ⟨t, hgood, ht⟩ := h (by omega)
  have hends := hgood.exec_ends env call
  rw [BlockFuse.step] at hids ⊢
  generalize exec env false s call = o at hends hids
  cases hends with
  | idle =>
    rw [Outcome.state_of]
    exact ⟨t, hgood, ht⟩
  | changed hnext hgood' hused hresult => exact ⟨_, hgood', hnext.distinctNames hnamed ht⟩
  | ranOut hquery hroot hlast =>
    rw [Outcome.state_halted] at hids
    omega

/-- **A run** of calls on paths made of names. -/
theorem orderly_run (env : Env) (now : Int64) {calls : List (Int64 × Call)}
    (hnamed : ∀ call ∈ calls, call.2.Named) :
    Orderly (calls.foldl (BlockFuse.step env false) (new env now)) := by
  refine List.foldlRecOn calls _ (orderly_new env now) ?_
  intro s hs call hcall
  exact hs.step (hnamed call hcall)

end BlockFuse

end Pingfs
