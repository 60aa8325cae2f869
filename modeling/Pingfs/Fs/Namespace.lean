import Pingfs.Fs.Search

/-!
# The file system as a tree of entries

What the file system is for: a tree of named entries, each with a stat and, for files, bytes. No
ids, no blocks and no links occur here. `Namespace.exec` says what each call does to the tree and
what it returns; `stored` is what becomes of written contents, the identity in a file system
without defects.

Two peculiarities of paths are part of it. The parent of a path is found by joining its parts but
the last one, so that the parent of `//x` is `/`; and a file or directory may be made below a file.

## Main definitions

* `Entry`, `Namespace` — the tree
* `Namespace.exec` — the calls
-/

namespace Pingfs

open Zipper

/-- A file or a directory. -/
structure Entry where
  name : Str
  stat : Stat
  contents : Bytes
  deriving DecidableEq, Repr

/-- The root entry and the entries below it. -/
abbrev Namespace := Entry × Forest Entry

namespace FsUtil

/-- The path that is looked up for the parent of `path`. -/
def parentPath (path : Str) : Str := joinLoop (separator :: (names path).dropLast)

theorem join_dropLast (path : Str) (h : names path ≠ []) :
    join (separator :: names path).dropLast = .ok (parentPath path) := by
  rw [List.dropLast_cons_of_ne_nil h, join, if_neg (by simp)]
  rfl

theorem parentPath_ne_nil (path : Str) : parentPath path ≠ [] := by
  rw [parentPath]
  cases (names path).dropLast with
  | nil => simp [joinLoop, separator]
  | cons name names => simp [joinLoop, separator]

end FsUtil

namespace Namespace

open BlockFuse (Reply Call Filler DirEntry statBuf)

/-- What a call returns, or how it fails, and the tree after it. -/
abbrev Result := Except Halt Reply × Namespace

/-- The entry a path leads to, with the way to it. -/
def resolve (t : Namespace) (path : Str) : Option (Zipper Entry) :=
  descend Entry.name (top t.1 t.2) (FsUtil.names path)

/-- The tree with the entry at `z` changed, its ancestors moved to the end of their directories. -/
def rebuild (frames : List (Frame Entry)) (e : Entry) (kids : Forest Entry) : Namespace :=
  graft (fun _ e => e) frames e kids 0

/-- A new entry at the end of the directory at `z`. -/
def add (z : Zipper Entry) (e : Entry) : Namespace :=
  rebuild z.frames z.label (z.kids ++ Forest.tree e .nil)

variable (env : Env) (now : Int64)

/-- The last name of a path. -/
def baseName (path : Str) : Str := (FsUtil.names path).getLast?.getD []

def getattr (t : Namespace) (path : Str) : Result :=
  match t.resolve path with
  | none => (.ok { status := BlockFuse.noSuchFileOrDir }, t)
  | some z => (.ok { status := 0, attr := some (statBuf env z.label.stat) }, t)

def mkdir (t : Namespace) (path : Str) (mode : ModeT) : Result :=
  match t.resolve path, t.resolve (FsUtil.parentPath path) with
  | none, some z =>
    match Mode.ofModeT (mode ||| S_IFDIR) with
    | .ok mode =>
      (.ok { status := 0 }, add z ⟨baseName path, ⟨mode, env.uid, env.gid, 1, now, now, now⟩, []⟩)
    | .error what => (.error (.threw what), t)
  | _, _ => (.ok { status := 1 }, t)

def create (t : Namespace) (path : Str) (mode : ModeT) : Result :=
  match t.resolve path with
  | some _ => (.ok { status := BlockFuse.fileExists }, t)
  | none =>
    match Mode.ofModeT mode with
    | .error what => (.error (.threw what), t)
    | .ok mode =>
      match t.resolve (FsUtil.parentPath path) with
      | none => (.ok { status := BlockFuse.noSuchFileOrDir }, t)
      | some z =>
        let t' := add z ⟨baseName path, BlockFuse.genFileStat env now mode 0, []⟩
        -- the file just made is looked up again
        if (t'.resolve path).isSome then (.ok { status := 0 }, t')
        else (.error .assertionFailed, t')

def rmdir (t : Namespace) (path : Str) : Result :=
  match t.resolve path with
  | none => (.ok { status := 1 }, t)
  | some z =>
    match z.frames with
    | [] => (.ok { status := 1 }, t)
    | f :: fs => (.ok { status := 0 }, rebuild fs f.label (f.before ++ f.after))

/-- The entries handed to the filler for an entry with the stat `stat`. -/
def listing (stat : Stat) (kids : Forest Entry) (filler : Filler) : Reply :=
  let dot : DirEntry := ([0x2e], some (statBuf env stat))
  let dotDot : DirEntry := ([0x2e, 0x2e], none)
  if filler [] dot ≠ 0 then { status := filler [] dot, entries := [dot] }
  else if filler [dot] dotDot ≠ 0 then
    { status := filler [dot] dotDot, entries := [dot, dotDot] }
  else
    { status := 0
      entries := dot :: dotDot :: kids.roots.map fun e => (e.name, some (statBuf env e.stat)) }

def readdir (t : Namespace) (path : Str) (filler : Filler) : Result :=
  match t.resolve path with
  | none => (.ok { status := BlockFuse.noSuchFileOrDir }, t)
  | some z => (.ok (listing env z.label.stat z.kids filler), t)

def read (t : Namespace) (path : Str) (size : UInt64) (offset : Int64) : Result :=
  match t.resolve path with
  | none => (.ok { status := BlockFuse.noSuchFileOrDir }, t)
  | some z =>
    if z.label.stat.isDir then (.ok { status := -1 }, t)
    else ((BlockFuse.copyContents z.label.contents size offset).map
      fun (status, bytes) => { status, bytes }, t)

/-- What is read depends on the entry at the path only. -/
theorem read_congr {t u : Namespace} {path : Str}
    (h : (t.resolve path).map (·.label) = (u.resolve path).map (·.label)) (size : UInt64)
    (offset : Int64) : (t.read path size offset).1 = (u.read path size offset).1 := by
  rw [read, read]
  cases ht : t.resolve path <;> cases hu : u.resolve path <;> simp only [ht, hu] at h ⊢
  case none.some => exact nomatch h
  case some.none => exact nomatch h
  case some.some z y =>
    have hlabel : z.label = y.label := Option.some.inj h
    simp only [hlabel]
    split <;> rfl

/-- An entry after its contents were replaced by `contents`. -/
def written (stored : Bytes → Bytes) (e : Entry) (contents : Bytes) : Entry :=
  ⟨e.name, e.stat.update (.ofNat contents.length) now now now, stored contents⟩

def write (stored : Bytes → Bytes) (t : Namespace) (path : Str) (buffer : Bytes)
    (offset : Int64) : Result :=
  match t.resolve path with
  | none => (.ok { status := BlockFuse.noSuchFileOrDir }, t)
  | some z =>
    if z.label.stat.isDir then (.ok { status := BlockFuse.errorBecauseDir }, t)
    else if offset.toUInt64.toNat > z.label.contents.length then (.ok { status := -1 }, t)
    else
      let contents := BlockFuse.replaceAt z.label.contents buffer offset.toUInt64.toNat
      (.ok { status := .ofNat buffer.length },
        rebuild z.frames (written now stored z.label contents) .nil)

end Namespace

/-- The path of a call. -/
def BlockFuse.Call.path : BlockFuse.Call → Str
  | .getattr path => path
  | .mkdir path _ => path
  | .rmdir path => path
  | .unlink path => path
  | .readdir path _ => path
  | .read path _ _ => path
  | .write path _ _ => path
  | .create path _ => path

/-- A call at time `now`. Every call fails on the empty path. -/
def Namespace.exec (env : Env) (stored : Bytes → Bytes) (t : Namespace)
    (call : Int64 × BlockFuse.Call) : Namespace.Result :=
  if call.2.path = [] then (.error (.threw "std::out_of_range"), t)
  else
    match call.2 with
    | .getattr path => t.getattr env path
    | .mkdir path mode => t.mkdir env call.1 path mode
    | .rmdir path => t.rmdir path
    | .unlink path => t.rmdir path
    | .readdir path filler => t.readdir env path filler
    | .read path size offset => t.read path size offset
    | .write path buffer offset => t.write call.1 stored path buffer offset
    | .create path mode => t.create env call.1 path mode

/-- The namespace after a call. -/
def Namespace.step (env : Env) (stored : Bytes → Bytes) (n : Namespace)
    (call : Int64 × BlockFuse.Call) : Namespace := (n.exec env stored call).2

/-- The namespace of a new file system: a directory without entries. -/
def Namespace.new (env : Env) (now : Int64) : Namespace :=
  (⟨FsUtil.separator, ⟨⟨.readWriteExecute, .readExecute, .execute, .dir⟩, env.uid, env.gid, 0,
    now, now, now⟩, []⟩, .nil)

/-- The calls that only look. -/
def BlockFuse.Call.isQuery : BlockFuse.Call → Bool
  | .getattr _ | .readdir _ _ | .read _ _ _ => true
  | _ => false

theorem Namespace.exec_of_isQuery (env : Env) (stored : Bytes → Bytes) (t : Namespace)
    {call : Int64 × BlockFuse.Call} (hquery : call.2.isQuery) : (t.exec env stored call).2 = t := by
  obtain ⟨now, call⟩ := call
  rw [Namespace.exec]
  split
  · rfl
  cases call with
  | getattr path => simp only [Namespace.getattr]; split <;> rfl
  | readdir path filler => simp only [Namespace.readdir]; split <;> rfl
  | read path size offset =>
    simp only [Namespace.read]
    split
    · rfl
    · split <;> rfl
  | mkdir path mode => exact absurd hquery Bool.false_ne_true
  | rmdir path => exact absurd hquery Bool.false_ne_true
  | unlink path => exact absurd hquery Bool.false_ne_true
  | write path buffer offset => exact absurd hquery Bool.false_ne_true
  | create path mode => exact absurd hquery Bool.false_ne_true

end Pingfs
