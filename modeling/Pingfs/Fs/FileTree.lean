import Pingfs.Fs.Namespace
import Pingfs.Lib.Lookup

/-!
# The file system as a map from names

For paths made of names, in a tree where siblings have distinct names and files have nothing below
them, all that matters about a namespace is what each list of names leads to: a `FileTree`. A
change adds one entry, or removes one with everything below it, or leaves the tree as it is.

## Main results

* `Ordinary.mkdir`, `Ordinary.create`, `Ordinary.rmdir`, `Ordinary.write` — what each call does to
  the map, and what it returns
* `Ordinary.exec_follows` — the file tree changes as `FileTree.next` says
-/

namespace Pingfs

open Zipper

/-- What a file tree says of an entry: its type and its nine permission bits. -/
structure Attr where
  fileType : FileType
  perms : ModeT
  deriving DecidableEq, Repr

/-- The `st_mode` of such an entry. -/
def Attr.toModeT (a : Attr) : ModeT := a.fileType.toMode ||| a.perms

def Entry.attr (e : Entry) : Attr := ⟨e.stat.mode.fileType, e.stat.mode.perms⟩

/-- What each list of names leads to, from the root. -/
abbrev FileTree := List Str → Option Attr

/-- Names as they occur in paths. -/
def ValidNames (names : List Str) : Prop := ∀ name ∈ names, name ≠ [] ∧ FsUtil.slash ∉ name

instance (names : List Str) : Decidable (ValidNames names) :=
  inferInstanceAs (Decidable (∀ name ∈ names, _))

/-- The calls that change something, on paths made of names. -/
inductive Change where
  | mkdir (names : List Str) (mode : ModeT)
  | create (names : List Str) (mode : ModeT)
  | rmdir (names : List Str)
  | unlink (names : List Str)
  | write (names : List Str) (buffer : Bytes) (offset : Int64)

/-- The call that makes the change. -/
def Change.call : Change → BlockFuse.Call
  | .mkdir names mode => .mkdir (FsUtil.pathOf names) mode
  | .create names mode => .create (FsUtil.pathOf names) mode
  | .rmdir names => .rmdir (FsUtil.pathOf names)
  | .unlink names => .unlink (FsUtil.pathOf names)
  | .write names buffer offset => .write (FsUtil.pathOf names) buffer offset

namespace FileTree

/-- A directory without entries. -/
def new : FileTree := fun names => if names = [] then some ⟨.dir, 0o751⟩ else none

/-- A new entry can be made: it is absent and its parent is a directory. -/
def CanAdd (T : FileTree) (names : List Str) : Prop :=
  T names = none ∧ (T names.dropLast).map (·.fileType) = some .dir

/-- An entry can be removed: it exists and is not the root. -/
def CanRemove (T : FileTree) (names : List Str) : Prop := T names ≠ none ∧ names ≠ []

instance (T : FileTree) (names : List Str) : Decidable (CanAdd T names) :=
  inferInstanceAs (Decidable (_ ∧ _))

instance (T : FileTree) (names : List Str) : Decidable (CanRemove T names) :=
  inferInstanceAs (Decidable (_ ∧ _))

/-- The tree without an entry and everything below it. -/
def remove (T : FileTree) (names : List Str) : FileTree := fun ns =>
  if names <+: ns then none else T ns

/-- The tree after a change. -/
def next (T : FileTree) : Change → FileTree
  | .mkdir names mode =>
    if CanAdd T names then Function.update T names (some ⟨.dir, mode &&& Mode.permBits⟩) else T
  | .create names mode =>
    if CanAdd T names then Function.update T names (some ⟨.regular, mode &&& Mode.permBits⟩) else T
  | .rmdir names | .unlink names => if CanRemove T names then remove T names else T
  | .write _ _ _ => T

/-- No directory on the way to the last name is a regular file. -/
def NotBelowFile (T : FileTree) (names : List Str) : Prop :=
  ∀ above ∈ names.dropLast.inits, (T above).map (·.fileType) ≠ some .regular

/-- What the callers promise: paths made of names, regular files where files are created, and
nothing made below a file. -/
def Allowed (T : FileTree) : Change → Prop
  | .mkdir names _ => ValidNames names ∧ NotBelowFile T names
  | .create names mode => ValidNames names ∧ NotBelowFile T names ∧ mode &&& S_IFMT = S_IFREG
  | .rmdir names | .unlink names | .write names _ _ => ValidNames names

instance (T : FileTree) (names : List Str) : Decidable (NotBelowFile T names) :=
  inferInstanceAs (Decidable (∀ above ∈ names.dropLast.inits, _))

instance (T : FileTree) : (change : Change) → Decidable (Allowed T change)
  | .mkdir _ _ => inferInstanceAs (Decidable (_ ∧ _))
  | .create _ _ => inferInstanceAs (Decidable (_ ∧ _ ∧ _))
  | .rmdir names | .unlink names | .write names _ _ =>
    inferInstanceAs (Decidable (ValidNames names))

/-- What a change returns says whether it was made. Of a write only its effect is described. -/
def Reports (T : FileTree) (result : Except Halt BlockFuse.Reply) : Change → Prop
  | .mkdir names _ | .create names _ =>
    ∃ reply, result = .ok reply ∧ (reply.status = 0 ↔ T.CanAdd names)
  | .rmdir names | .unlink names =>
    ∃ reply, result = .ok reply ∧ (reply.status = 0 ↔ T.CanRemove names)
  | .write _ _ _ => True

end FileTree

/-- The change is not a write to the file at `names`. -/
def Change.Spares (change : Change) (names : List Str) : Prop :=
  ∀ buffer offset, change ≠ .write names buffer offset

namespace FsUtil

theorem names_pathOf {ns : List Str} (h : ValidNames ns) : names (pathOf ns) = ns := by
  have hne : pathOf ns ≠ [] := by
    cases ns <;> simp [pathOf, separator]
  have hseparate := separatePath_pathOf (fun name hname => (h name hname).2)
    fun name hname => (h name hname).1
  rw [separatePath_eq hne] at hseparate
  exact (List.cons.inj (Except.ok.inj hseparate)).2

theorem pathOf_ne_nil (ns : List Str) : pathOf ns ≠ [] := by
  cases ns <;> simp [pathOf, separator]

theorem parentPath_pathOf {ns : List Str} (h : ValidNames ns) :
    parentPath (pathOf ns) = pathOf ns.dropLast := by
  have hjoin := join_components fun name (hname : name ∈ ns.dropLast) =>
    (h name (List.dropLast_subset _ hname)).2
  rw [parentPath, names_pathOf h]
  rw [join, if_neg (by simp)] at hjoin
  exact Except.ok.inj hjoin

end FsUtil

theorem ValidNames.dropLast {names : List Str} (h : ValidNames names) : ValidNames names.dropLast :=
  fun name hname => h name (List.dropLast_subset _ hname)

namespace Namespace

open FsUtil BlockFuse

variable {n : Namespace} {env : Env} {now : Int64} {stored : Bytes → Bytes} {names : List Str}

/-- The entry that names lead to, with the way to it. -/
def place (n : Namespace) (names : List Str) : Option (Zipper Entry) :=
  descend Entry.name (top n.1 n.2) names

/-- The entry that names lead to. -/
def lookup (n : Namespace) (names : List Str) : Option Entry :=
  Forest.lookup Entry.name n.1 n.2 names

def fileTree (n : Namespace) : FileTree := fun names => (n.lookup names).map Entry.attr

theorem lookup_eq_place (n : Namespace) (names : List Str) :
    n.lookup names = (n.place names).map (·.label) := lookup_eq_descend (top n.1 n.2) names

theorem resolve_pathOf (n : Namespace) (h : ValidNames names) :
    n.resolve (pathOf names) = n.place names := by
  rw [resolve, names_pathOf h, place]

theorem place_eq_none_iff : n.place names = none ↔ n.lookup names = none := by
  rw [lookup_eq_place, Option.map_eq_none_iff]

/-- Siblings have distinct names, and files have nothing below them. -/
def Ordinary (n : Namespace) : Prop :=
  Forest.Every (fun e names => names.Nodup ∧ (e.stat.isDir = false → names = [])) Entry.name
    (Forest.tree n.1 n.2)

/-- An entry as it is in an ordinary namespace. -/
abbrev Plain (e : Entry) (names : List Str) : Prop :=
  names.Nodup ∧ (e.stat.isDir = false → names = [])

theorem plain_perm (e : Entry) (ks ls : List Str) (hperm : ks.Perm ls) (h : Plain e ks) :
    Plain e ls := by
  refine ⟨hperm.nodup_iff.mp h.1, fun hfile => ?_⟩
  have hnil := h.2 hfile
  subst hnil
  exact List.nil_perm.mp hperm

theorem plug_place {z : Zipper Entry} (hz : n.place names = some z) :
    plug z.frames z.label z.kids = n := plug_descend hz

theorem pathKeys_place {z : Zipper Entry} (hz : n.place names = some z) :
    pathKeys Entry.name z.frames z.label = names := by
  have hkeys := pathKeys_descend hz
  rwa [top, pathKeys, List.nil_append] at hkeys

theorem Ordinary.apart (h : Ordinary n) {z : Zipper Entry} (hz : n.place names = some z) :
    Apart Entry.name z.frames z.label := by
  rw [Ordinary, ← plug_place hz] at h
  exact apart_of_every (fun _ _ hplain => hplain.1) h

theorem Ordinary.below (h : Ordinary n) {z : Zipper Entry} (hz : n.place names = some z) :
    Forest.Every Plain Entry.name (Forest.tree z.label z.kids) := by
  rw [Ordinary, ← plug_place hz] at h
  exact every_of_plug h

/-- What changes below a place leaves the namespace ordinary if it is itself. -/
theorem Ordinary.rebuild (h : Ordinary n) {z : Zipper Entry} (hz : n.place names = some z)
    {e : Entry} {kids : Forest Entry} (hname : e.name = z.label.name)
    (hbelow : Forest.Every Plain Entry.name (Forest.tree e kids)) :
    Ordinary (Namespace.rebuild z.frames e kids) := by
  rw [Ordinary, ← plug_place hz] at h
  exact every_graft plain_perm h hname hbelow 0

/-! ## A new entry -/

/-- The names of the children of a place. -/
theorem mem_names_iff {z : Zipper Entry} (hz : n.place names = some z) (name : Str) :
    name ∈ z.kids.roots.map Entry.name ↔ n.lookup (names ++ [name]) ≠ none := by
  have happend : n.lookup (names ++ [name]) = (n.place names).bind fun y =>
      Forest.lookup Entry.name y.label y.kids [name] := lookup_append (top n.1 n.2) names [name]
  rw [happend, hz, Option.bind_some, Forest.lookup_cons, ← not_iff_not, ← Forest.child_eq_none,
    not_not]
  cases Forest.child Entry.name name z.kids <;> simp

/-- A new last child where siblings on the way are apart. -/
theorem lookup_add {z : Zipper Entry} (hz : n.place names = some z)
    (hapart : Apart Entry.name z.frames z.label) {e : Entry}
    (hnew : n.lookup (names ++ [e.name]) = none) :
    (Namespace.add z e).lookup = Function.update n.lookup (names ++ [e.name]) (some e) := by
  have habsent : e.name ∉ z.kids.roots.map Entry.name := fun hmem =>
    (mem_names_iff hz e.name).mp hmem hnew
  funext ns
  have hinsert := lookup_insert hapart habsent 0 ns
  rw [pathKeys_place hz, plug_place hz] at hinsert
  rw [Namespace.lookup, Namespace.add, Namespace.rebuild, hinsert, Function.update_apply]
  rfl

theorem Ordinary.add (h : Ordinary n) {z : Zipper Entry} (hz : n.place names = some z)
    (hdir : z.label.stat.isDir = true) {e : Entry} (hnew : n.lookup (names ++ [e.name]) = none) :
    Ordinary (Namespace.add z e) ∧
      (Namespace.add z e).lookup = Function.update n.lookup (names ++ [e.name]) (some e) := by
  have habsent : e.name ∉ z.kids.roots.map Entry.name := fun hmem =>
    (mem_names_iff hz e.name).mp hmem hnew
  have hbelow := h.below hz
  simp only [Forest.every_cons, Forest.every_nil, and_true] at hbelow
  refine ⟨h.rebuild hz rfl ?_, lookup_add hz (h.apart hz) hnew⟩
  simp only [Forest.every_cons, Forest.every_append, Forest.every_nil, and_true,
    Forest.roots_append, Forest.roots_cons, Forest.roots_nil, List.map_append, List.map_cons,
    List.map_nil]
  refine ⟨⟨?_, fun hfile => ?_⟩, hbelow.2, List.nodup_nil, fun _ => rfl⟩
  · exact List.nodup_append.mpr ⟨hbelow.1.1, List.nodup_singleton _, fun a ha b hb heq => by
      obtain rfl := List.mem_singleton.mp hb
      exact habsent (heq ▸ ha)⟩
  · rw [hdir] at hfile
    cases hfile

/-- What `mkdir` and `create` do: an entry with the attributes `attr` is made where that can be. -/
structure Adds (n : Namespace) (names : List Str) (attr : Attr) (r : Result) : Prop where
  returned : ∃ reply, r.1 = .ok reply ∧ (reply.status = 0 ↔ n.fileTree.CanAdd names)
  ordinary : Ordinary r.2
  lookup_eq : ∃ e : Entry, e.attr = attr ∧
    r.2.lookup = if n.fileTree.CanAdd names then Function.update n.lookup names (some e)
      else n.lookup

theorem isDir_eq_true_iff {e : Entry} : e.stat.isDir = true ↔ e.attr.fileType = .dir := by
  rw [Stat.isDir, beq_iff_eq]
  rfl

/-- Where an entry can be added: there is none yet, and there is a directory to put it into. -/
theorem exists_place_of_canAdd (h : n.fileTree.CanAdd names) :
    n.place names = none ∧ names ≠ [] ∧
      ∃ z, n.place names.dropLast = some z ∧ z.label.stat.isDir = true := by
  obtain ⟨hnone, hdir⟩ := h
  have hnone : n.lookup names = none := Option.map_eq_none_iff.mp hnone
  refine ⟨place_eq_none_iff.mpr hnone, ?_, ?_⟩
  · rintro rfl
    exact nomatch hnone
  · rw [fileTree, lookup_eq_place, Option.map_map, Option.map_map, Option.map_eq_some_iff] at hdir
    obtain ⟨z, hz, htype⟩ := hdir
    exact ⟨z, hz, isDir_eq_true_iff.mpr htype⟩

/-- Above names that are not below a file there is a directory, or nothing. -/
theorem place_of_not_canAdd (h : ¬ n.fileTree.CanAdd names)
    (hbelow : n.fileTree.NotBelowFile names) :
    n.place names ≠ none ∨ n.place names.dropLast = none := by
  by_contra hboth
  push Not at hboth
  obtain ⟨hnone, hparent⟩ := hboth
  obtain ⟨z, hz⟩ := Option.ne_none_iff_exists'.mp hparent
  have hattr : n.fileTree names.dropLast = some z.label.attr := by
    rw [fileTree, lookup_eq_place, hz]
    rfl
  have hnotFile := hbelow names.dropLast ((List.mem_inits _ _).mpr (List.prefix_refl _))
  rw [hattr] at hnotFile
  refine h ⟨by rw [fileTree, place_eq_none_iff.mp hnone]; rfl, ?_⟩
  rw [hattr]
  cases htype : z.label.attr.fileType with
  | dir => simp [htype]
  | regular => simp [htype] at hnotFile

/-- The entry made below a place has the last of the names. -/
theorem Ordinary.add_last (h : Ordinary n) (hvalid : ValidNames names)
    (hadd : n.fileTree.CanAdd names) {z : Zipper Entry} (hz : n.place names.dropLast = some z)
    (hdir : z.label.stat.isDir = true) {e : Entry} (hname : e.name = baseName (pathOf names)) :
    Ordinary (Namespace.add z e) ∧
      (Namespace.add z e).lookup = Function.update n.lookup names (some e) := by
  obtain ⟨hnone, hne, -⟩ := exists_place_of_canAdd hadd
  have hlast : names.dropLast ++ [e.name] = names := by
    rw [hname, baseName, names_pathOf hvalid, List.getLast?_eq_some_getLast hne, Option.getD_some,
      List.dropLast_append_getLast]
  have hadded := h.add hz hdir (e := e) (by rw [hlast]; exact place_eq_none_iff.mp hnone)
  rwa [hlast] at hadded

/-- A call that makes nothing where nothing can be made. -/
theorem adds_of_not_canAdd (h : Ordinary n) (hadd : ¬ n.fileTree.CanAdd names) (e : Entry)
    {reply : Reply} (hstatus : reply.status ≠ 0) : Adds n names e.attr (.ok reply, n) :=
  ⟨⟨reply, rfl, iff_of_false hstatus hadd⟩, h, e, rfl, (if_neg hadd).symm⟩

theorem Ordinary.mkdir (h : Ordinary n) (env : Env) (now : Int64) (hvalid : ValidNames names)
    (hbelow : n.fileTree.NotBelowFile names) (bits : ModeT) :
    Adds n names ⟨.dir, bits &&& Mode.permBits⟩ (n.mkdir env now (pathOf names) bits) := by
  let e : Entry := ⟨baseName (pathOf names), ⟨⟨userModeFromModeT (bits ||| S_IFDIR),
    groupModeFromModeT (bits ||| S_IFDIR), otherModeFromModeT (bits ||| S_IFDIR), .dir⟩,
    env.uid, env.gid, 1, now, now, now⟩, []⟩
  have hattr : e.attr = ⟨.dir, bits &&& Mode.permBits⟩ := by
    have hperms := Mode.perms_ofModeT (Mode.ofModeT_or_dir bits)
    rw [UInt32.and_comm, modeT_and_or, UInt32.and_comm] at hperms
    exact congrArg (Attr.mk FileType.dir) (hperms.trans UInt32.or_zero)
  rw [← hattr]
  simp only [Namespace.mkdir, resolve_pathOf n hvalid, parentPath_pathOf hvalid,
    resolve_pathOf n hvalid.dropLast, Mode.ofModeT_or_dir]
  by_cases hadd : n.fileTree.CanAdd names
  · obtain ⟨hnone, -, z, hz, hdir⟩ := exists_place_of_canAdd hadd
    obtain ⟨hordinary, hlookup⟩ := h.add_last hvalid hadd hz hdir (e := e) rfl
    rw [hnone, hz]
    exact ⟨⟨_, rfl, iff_of_true rfl hadd⟩, hordinary, e, rfl, by rw [if_pos hadd]; exact hlookup⟩
  · have hnot := adds_of_not_canAdd h hadd e (show ({ status := 1 } : Reply).status ≠ 0 by decide)
    rcases place_of_not_canAdd hadd hbelow with hsome | hnone
    · obtain ⟨z, hz⟩ := Option.ne_none_iff_exists'.mp hsome
      rwa [hz]
    · rw [hnone]
      cases n.place names <;> exact hnot

theorem Ordinary.create (h : Ordinary n) (env : Env) (now : Int64) (hvalid : ValidNames names)
    (hbelow : n.fileTree.NotBelowFile names) {bits : ModeT} (hregular : bits &&& S_IFMT = S_IFREG) :
    Adds n names ⟨.regular, bits &&& Mode.permBits⟩ (n.create env now (pathOf names) bits) := by
  have hmode := Mode.ofModeT_of_regular hregular
  let e : Entry := ⟨baseName (pathOf names), genFileStat env now ⟨userModeFromModeT bits,
    groupModeFromModeT bits, otherModeFromModeT bits, .regular⟩ 0, []⟩
  have hattr : e.attr = ⟨.regular, bits &&& Mode.permBits⟩ :=
    congrArg (Attr.mk FileType.regular) (Mode.perms_ofModeT hmode)
  rw [← hattr]
  simp only [Namespace.create, resolve_pathOf n hvalid, parentPath_pathOf hvalid,
    resolve_pathOf n hvalid.dropLast, hmode]
  by_cases hadd : n.fileTree.CanAdd names
  · obtain ⟨hnone, -, z, hz, hdir⟩ := exists_place_of_canAdd hadd
    obtain ⟨hordinary, hlookup⟩ := h.add_last hvalid hadd hz hdir (e := e) rfl
    -- the new file is found again
    have hfound : ((Namespace.add z e).resolve (pathOf names)).isSome := by
      have hself := congrFun hlookup names
      rw [Function.update_self, lookup_eq_place, ← resolve_pathOf _ hvalid,
        Option.map_eq_some_iff] at hself
      obtain ⟨y, hy, -⟩ := hself
      rw [hy]
      rfl
    simp only [hnone, hz]
    rw [if_pos hfound]
    exact ⟨⟨_, rfl, iff_of_true rfl hadd⟩, hordinary, e, rfl, by rw [if_pos hadd]; exact hlookup⟩
  · rcases place_of_not_canAdd hadd hbelow with hsome | hnone
    · obtain ⟨z, hz⟩ := Option.ne_none_iff_exists'.mp hsome
      simp only [hz]
      exact adds_of_not_canAdd h hadd e (by decide)
    · simp only [hnone]
      cases n.place names <;> exact adds_of_not_canAdd h hadd e (by decide)

/-! ## Removing and writing -/

/-- What `rmdir` and `unlink` do. -/
structure Removes (n : Namespace) (names : List Str) (r : Result) : Prop where
  returned : ∃ reply, r.1 = .ok reply ∧ (reply.status = 0 ↔ n.fileTree.CanRemove names)
  ordinary : Ordinary r.2
  lookup_eq : r.2.lookup = fun ns =>
    if n.fileTree.CanRemove names ∧ names <+: ns then none else n.lookup ns

theorem fileTree_ne_none_iff : n.fileTree names ≠ none ↔ n.place names ≠ none := by
  rw [fileTree, lookup_eq_place, Ne, Option.map_eq_none_iff, Option.map_eq_none_iff]

theorem Ordinary.rmdir (h : Ordinary n) (hvalid : ValidNames names) :
    Removes n names (n.rmdir (pathOf names)) := by
  have hnot : ∀ {reply : Reply}, reply.status ≠ 0 → ¬ n.fileTree.CanRemove names →
      Removes n names (.ok reply, n) := fun hstatus hremove =>
    ⟨⟨_, rfl, iff_of_false hstatus hremove⟩, h, by simp [hremove]⟩
  rw [Namespace.rmdir, resolve_pathOf n hvalid]
  cases hz : n.place names with
  | none => exact hnot (by decide) fun hremove => fileTree_ne_none_iff.mp hremove.1 hz
  | some z =>
    obtain ⟨a, kids, frames⟩ := z
    have hkeys := pathKeys_place hz
    cases frames with
    | nil => exact hnot (by decide) fun hremove => hremove.2 hkeys.symm
    | cons f fs =>
      have hremove : n.fileTree.CanRemove names := by
        refine ⟨fileTree_ne_none_iff.mpr (by rw [hz]; exact Option.some_ne_none _), ?_⟩
        rw [← hkeys, pathKeys]
        simp
      refine ⟨⟨_, rfl, iff_of_true rfl hremove⟩, ?_, ?_⟩
      · rw [Ordinary, ← plug_place hz, plug] at h
        have hframe := every_of_plug h
        refine every_graft plain_perm h rfl ?_ 0
        simp only [Forest.every_cons, Forest.every_append, Forest.every_nil, and_true] at hframe ⊢
        refine ⟨⟨?_, fun hfile => ?_⟩, hframe.2.1, hframe.2.2.2.2⟩
        · refine hframe.1.1.sublist (List.Sublist.map _ ?_)
          rw [Forest.roots_append, Forest.roots_append, Forest.roots_cons]
          exact List.Sublist.append_left (List.sublist_cons_self _ _) _
        · -- a file has no child to remove
          have hnil := hframe.1.2 hfile
          simp at hnil
      · funext ns
        have hlookup : (Namespace.rebuild fs f.label (f.before ++ f.after)).lookup ns = _ :=
          lookup_remove (h.apart hz) kids 0 ns
        rw [hkeys, plug_place hz] at hlookup
        simp only [hlookup, hremove, true_and]
        rfl

/-- What `write` does: at most the entry at `names` is another one, with the same attributes. -/
structure Writes (n : Namespace) (names : List Str) (r : Result) : Prop where
  ordinary : Ordinary r.2
  lookup_eq : r.2.lookup = n.lookup ∨ ∃ e e' : Entry, n.lookup names = some e ∧ e'.attr = e.attr ∧
    r.2.lookup = Function.update n.lookup names (some e')

theorem Ordinary.write (h : Ordinary n) (now : Int64) (stored : Bytes → Bytes)
    (hvalid : ValidNames names) (buffer : Bytes) (offset : Int64) :
    Writes n names (n.write now stored (pathOf names) buffer offset) := by
  rw [Namespace.write, resolve_pathOf n hvalid]
  cases hz : n.place names with
  | none => exact ⟨h, Or.inl rfl⟩
  | some z =>
    by_cases hdir : z.label.stat.isDir = true
    · simp only [hdir, if_true]
      exact ⟨h, Or.inl rfl⟩
    by_cases hoffset : offset.toUInt64.toNat > z.label.contents.length
    · simp only [hdir, hoffset, if_true]
      exact ⟨h, Or.inl rfl⟩
    simp only [hdir, hoffset, Bool.false_eq_true, if_false]
    let e : Entry := written now stored z.label
      (replaceAt z.label.contents buffer offset.toUInt64.toNat)
    have hbelow := h.below hz
    have hkids : z.kids = .nil :=
      Forest.roots_eq_nil (List.map_eq_nil_iff.mp (hbelow.1.2 (Bool.not_eq_true _ ▸ hdir)))
    refine ⟨h.rebuild hz (e := e) rfl ?_, Or.inr ⟨z.label, e, ?_, rfl, ?_⟩⟩
    · simp [Plain]
    · rw [lookup_eq_place, hz]
      rfl
    · funext ns
      have hname : Entry.name e = Entry.name z.label := rfl
      have hlookup : (Namespace.rebuild z.frames e .nil).lookup ns = _ :=
        lookup_replace hname (h.apart hz) 0 ns
      rw [pathKeys_place hz, ← hkids, plug_place hz] at hlookup
      rw [hkids] at hlookup
      rw [Function.update_apply]
      exact hlookup

/-! ## All changes -/

theorem Adds.fileTree_eq {attr : Attr} {r : Result} (h : Adds n names attr r) :
    r.2.fileTree = if n.fileTree.CanAdd names then Function.update n.fileTree names (some attr)
      else n.fileTree := by
  obtain ⟨e, rfl, hlookup⟩ := h.lookup_eq
  funext ns
  rw [fileTree, hlookup]
  split
  · rw [Function.update_apply, Function.update_apply]
    split <;> rfl
  · rfl

theorem Removes.fileTree_eq {r : Result} (h : Removes n names r) :
    r.2.fileTree = if n.fileTree.CanRemove names then n.fileTree.remove names
      else n.fileTree := by
  funext ns
  rw [fileTree, h.lookup_eq]
  by_cases hremove : n.fileTree.CanRemove names
  · rw [if_pos hremove, FileTree.remove]
    by_cases hprefix : names <+: ns <;> simp [hremove, hprefix, fileTree]
  · simp [hremove, fileTree]

theorem Writes.fileTree_eq {r : Result} (h : Writes n names r) : r.2.fileTree = n.fileTree := by
  funext ns
  rcases h.lookup_eq with hsame | ⟨e, e', he, hattr, hlookup⟩
  · rw [fileTree, hsame, fileTree]
  · rw [fileTree, hlookup, fileTree, Function.update_apply]
    split
    case isTrue hns => rw [hns, he, Option.map_some, Option.map_some, hattr]
    case isFalse => rfl

theorem Adds.eq_of_lookup {attr : Attr} {r : Result} (h : Adds n names attr r) {ns : List Str}
    {e e' : Entry} (he : n.lookup ns = some e) (he' : r.2.lookup ns = some e') : e' = e := by
  obtain ⟨d, -, hlookup⟩ := h.lookup_eq
  rw [hlookup] at he'
  split at he'
  case isFalse => exact Option.some.inj (he'.symm.trans he)
  case isTrue hadd =>
    -- nothing was there before
    have hne : ns ≠ names := by
      rintro rfl
      have hnone := hadd.1
      rw [fileTree, he] at hnone
      exact nomatch hnone
    rw [Function.update_of_ne hne] at he'
    exact Option.some.inj (he'.symm.trans he)

theorem Removes.eq_of_lookup {r : Result} (h : Removes n names r) {ns : List Str}
    {e e' : Entry} (he : n.lookup ns = some e) (he' : r.2.lookup ns = some e') : e' = e := by
  rw [h.lookup_eq] at he'
  simp only at he'
  split at he'
  · exact nomatch he'
  · exact Option.some.inj (he'.symm.trans he)

theorem Writes.eq_of_lookup {r : Result} (h : Writes n names r) {ns : List Str} (hne : ns ≠ names)
    {e e' : Entry} (he : n.lookup ns = some e) (he' : r.2.lookup ns = some e') : e' = e := by
  rcases h.lookup_eq with hsame | ⟨d, d', -, -, hlookup⟩
  · rw [hsame] at he'
    exact Option.some.inj (he'.symm.trans he)
  · rw [hlookup, Function.update_of_ne hne] at he'
    exact Option.some.inj (he'.symm.trans he)

/-- What follows a change. -/
structure Follows (n : Namespace) (change : Change) (r : Result) : Prop where
  ordinary : Ordinary r.2
  fileTree_eq : r.2.fileTree = n.fileTree.next change
  reports : n.fileTree.Reports r.1 change
  /-- An entry that stays is the same, unless it is written. -/
  eq_of_lookup : ∀ {ns : List Str} {e e' : Entry}, change.Spares ns → n.lookup ns = some e →
    r.2.lookup ns = some e' → e' = e

/-- **The file tree changes as it should.** -/
theorem Ordinary.exec_follows (h : Ordinary n) (env : Env) (now : Int64)
    (stored : Bytes → Bytes) {change : Change}
    (hallowed : n.fileTree.Allowed change) :
    Follows n change (n.exec env stored (now, change.call)) := by
  cases change with
  | mkdir names mode =>
    have hexec : n.exec env stored (now, .mkdir (pathOf names) mode) =
        n.mkdir env now (pathOf names) mode := if_neg (pathOf_ne_nil names)
    have hadds := h.mkdir env now hallowed.1 hallowed.2 mode
    rw [Change.call, hexec]
    exact ⟨hadds.ordinary, hadds.fileTree_eq, hadds.returned, fun _ => hadds.eq_of_lookup⟩
  | create names mode =>
    have hexec : n.exec env stored (now, .create (pathOf names) mode) =
        n.create env now (pathOf names) mode := if_neg (pathOf_ne_nil names)
    have hadds := h.create env now hallowed.1 hallowed.2.1 hallowed.2.2
    rw [Change.call, hexec]
    exact ⟨hadds.ordinary, hadds.fileTree_eq, hadds.returned, fun _ => hadds.eq_of_lookup⟩
  | rmdir names =>
    have hexec : n.exec env stored (now, .rmdir (pathOf names)) = n.rmdir (pathOf names) :=
      if_neg (pathOf_ne_nil names)
    have hremoves := h.rmdir hallowed
    rw [Change.call, hexec]
    exact ⟨hremoves.ordinary, hremoves.fileTree_eq, hremoves.returned,
      fun _ => hremoves.eq_of_lookup⟩
  | unlink names =>
    have hexec : n.exec env stored (now, .unlink (pathOf names)) = n.rmdir (pathOf names) :=
      if_neg (pathOf_ne_nil names)
    have hremoves := h.rmdir hallowed
    rw [Change.call, hexec]
    exact ⟨hremoves.ordinary, hremoves.fileTree_eq, hremoves.returned,
      fun _ => hremoves.eq_of_lookup⟩
  | write names buffer offset =>
    have hexec : n.exec env stored (now, .write (pathOf names) buffer offset) =
        n.write now stored (pathOf names) buffer offset := if_neg (pathOf_ne_nil names)
    have hwrites := h.write now stored hallowed buffer offset
    rw [Change.call, hexec]
    refine ⟨hwrites.ordinary, hwrites.fileTree_eq, trivial, fun hspares => ?_⟩
    exact hwrites.eq_of_lookup fun hns => hspares buffer offset (by rw [hns])

theorem ordinary_new (env : Env) (now : Int64) : Ordinary (new env now) :=
  ⟨⟨List.nodup_nil, fun _ => rfl⟩, trivial, trivial⟩

theorem fileTree_new (env : Env) (now : Int64) : (new env now).fileTree = .new := by
  have hperms : Mode.perms ⟨.readWriteExecute, .readExecute, .execute, .dir⟩ = 0o751 := by decide
  funext ns
  cases ns with
  | nil => exact congrArg (fun perms => some (Attr.mk FileType.dir perms)) hperms
  | cons name ns => rfl

end Namespace

end Pingfs
