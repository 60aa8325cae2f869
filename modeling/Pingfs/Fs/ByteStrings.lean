import Pingfs.Fs.Runs
import Pingfs.Lib.Lookup

/-!
# Files as byte strings

In the namespace without defects a file is a byte string, a write replaces a part of it, and a
read gives a slice. The file system stores what `storedContents` makes of the string, so it follows
that namespace as long as no write makes a file longer than one block.

## Main results

* `contents_refined` — reads and sizes after a run whose writes all fit into a block
* `read_back_too_long` — a file of 1001 bytes reads as 1002
-/

namespace Pingfs

open Zipper

namespace Namespace

open BlockFuse

variable {n : Namespace} {env : Env} {now : Int64}

/-- The length of the file that a call writes; `0` for a write that fails and for other calls. -/
def writtenLength (n : Namespace) : Call → ℕ
  | .write path buffer offset =>
    match n.resolve path with
    | none => 0
    | some z =>
      if z.label.stat.isDir ∨ offset.toUInt64.toNat > z.label.contents.length then 0
      else (replaceAt z.label.contents buffer offset.toUInt64.toNat).length
  | _ => 0

/-- A write that succeeds leaves a file of at most one block. -/
def FitsBlock (n : Namespace) (call : Call) : Prop := writtenLength n call ≤ bytesPerBlock

instance (n : Namespace) (call : Call) : Decidable (FitsBlock n call) :=
  inferInstanceAs (Decidable (_ ≤ _))

/-- A write that fits stores what it should. -/
theorem exec_storedContents {call : Int64 × Call} (h : n.FitsBlock call.2) :
    n.exec env storedContents call = n.exec env id call := by
  obtain ⟨now, call⟩ := call
  cases call with
  | write path buffer offset =>
    simp only [exec, write]
    simp only [FitsBlock, writtenLength] at h
    split
    · rfl
    cases hz : n.resolve path with
    | none => rfl
    | some z =>
      by_cases hfails : z.label.stat.isDir = true ∨
          offset.toUInt64.toNat > z.label.contents.length
      · rcases hfails with hdir | hoffset
        · simp [hdir]
        · simp [hoffset]
      · rw [hz] at h
        simp only [hfails, if_false] at h
        rw [not_or] at hfails
        simp only [hfails.1, hfails.2, if_false, written, (storedContents_eq_self_iff _).mpr h,
          id_eq]
  | getattr path => rfl
  | mkdir path mode => rfl
  | rmdir path => rfl
  | unlink path => rfl
  | readdir path filler => rfl
  | read path size offset => rfl
  | create path mode => rfl

/-- The size of a file is that of its contents, and at most one block. -/
abbrev SizedEntry (e : Entry) : Prop :=
  e.stat.isDir = false → e.stat.size = .ofNat e.contents.length ∧ e.contents.length ≤ bytesPerBlock

/-- All entries are such. -/
def Sized (n : Namespace) : Prop :=
  Forest.Every (fun e _ => SizedEntry e) Entry.name (Forest.tree n.1 n.2)

theorem sized_new (env : Env) (now : Int64) : Sized (new env now) :=
  ⟨fun hfile => (nomatch hfile), trivial, trivial⟩

theorem plug_resolve {path : Str} {z : Zipper Entry} (hz : n.resolve path = some z) :
    plug z.frames z.label z.kids = n := plug_descend hz

theorem Sized.below (h : Sized n) {path : Str} {z : Zipper Entry} (hz : n.resolve path = some z) :
    Forest.Every (fun e _ => SizedEntry e) Entry.name (Forest.tree z.label z.kids) := by
  rw [Sized, ← plug_resolve hz] at h
  exact every_of_plug h

theorem Sized.rebuild {fs : List (Frame Entry)} {e e' : Entry} {kids kids' : Forest Entry}
    (h : Sized (plug fs e kids)) (hname : e'.name = e.name)
    (h' : Forest.Every (fun e _ => SizedEntry e) Entry.name (Forest.tree e' kids')) :
    Sized (Namespace.rebuild fs e' kids') :=
  every_graft (fun _ _ _ _ he => he) h hname h' 0

theorem Sized.add (h : Sized n) {path : Str} {z : Zipper Entry} (hz : n.resolve path = some z)
    {e : Entry} (he : SizedEntry e) : Sized (Namespace.add z e) := by
  have hbelow := h.below hz
  rw [← plug_resolve hz] at h
  refine h.rebuild rfl ?_
  rw [Forest.every_cons, Forest.every_append]
  exact ⟨hbelow.1, ⟨hbelow.2.1, he, trivial, trivial⟩, trivial⟩

/-- A step whose write fits keeps all sizes right. -/
theorem Sized.step (h : Sized n) {call : Int64 × Call} (hfits : n.FitsBlock call.2) :
    Sized (n.step env id call) := by
  by_cases hquery : call.2.isQuery = true
  · rwa [Namespace.step, n.exec_of_isQuery env id hquery]
  rw [Namespace.step, exec]
  split
  · exact h
  obtain ⟨now, call⟩ := call
  have hrmdir : ∀ path, Sized (n.rmdir path).2 := by
    intro path
    rw [rmdir]
    cases hz : n.resolve path with
    | none => exact h
    | some z =>
      obtain ⟨a, kids, frames⟩ := z
      cases frames with
      | nil => exact h
      | cons f fs =>
        rw [← plug_resolve hz, plug] at h
        have hframe := every_of_plug h
        rw [Forest.every_cons, Forest.every_append] at hframe
        refine h.rebuild rfl ?_
        rw [Forest.every_cons, Forest.every_append]
        exact ⟨hframe.1, ⟨hframe.2.1.1, hframe.2.1.2.2.2⟩, trivial⟩
  cases call with
  | mkdir path mode =>
    simp only [mkdir, Mode.ofModeT_or_dir]
    cases hz : n.resolve path with
    | some z => exact h
    | none =>
      cases hparent : n.resolve (FsUtil.parentPath path) with
      | none => exact h
      | some z => exact h.add hparent fun hfile => Bool.noConfusion hfile
  | create path mode =>
    simp only [create]
    cases hz : n.resolve path with
    | some z => exact h
    | none =>
      cases hmode : Mode.ofModeT mode with
      | error what => exact h
      | ok mode =>
        cases hparent : n.resolve (FsUtil.parentPath path) with
        | none => exact h
        | some z =>
          have hadd := h.add hparent (e := ⟨baseName path, genFileStat env now mode 0, []⟩)
            fun _ => ⟨rfl, Nat.zero_le _⟩
          simp only
          split <;> exact hadd
  | rmdir path => exact hrmdir path
  | unlink path => exact hrmdir path
  | write path buffer offset =>
    simp only [write]
    simp only [FitsBlock, writtenLength] at hfits
    cases hz : n.resolve path with
    | none => exact h
    | some z =>
      simp only
      split
      · exact h
      split
      · exact h
      case isFalse.isFalse hdir hoffset =>
        rw [hz] at hfits
        simp only [if_neg (not_or.mpr ⟨hdir, hoffset⟩)] at hfits
        rw [← plug_resolve hz] at h
        exact h.rebuild rfl ⟨fun _ => ⟨rfl, hfits⟩, trivial, trivial⟩
  | getattr path => exact absurd rfl hquery
  | readdir path filler => exact absurd rfl hquery
  | read path size offset => exact absurd rfl hquery

/-- What a file contains, at most one block. -/
theorem Sized.of_resolve (h : Sized n) {path : Str} {z : Zipper Entry}
    (hz : n.resolve path = some z) : SizedEntry z.label := (h.below hz).1

end Namespace

namespace BlockFuse

/-- **A slice of the contents** is what `read` copies. -/
theorem copyContents_eq {contents : Bytes} {size : UInt64} {offset : Int64}
    (hlength : contents.length < 2 ^ 64) (hsum : offset.toUInt64.toNat + size.toNat < 2 ^ 64) :
    copyContents contents size offset =
      .ok (.ofNat (min size.toNat (contents.length - offset.toUInt64.toNat)),
        (contents.drop offset.toUInt64.toNat).take size.toNat) := by
  rw [copyContents]
  generalize offset.toUInt64 = start at hsum
  have hadd : (start + size).toNat = start.toNat + size.toNat := by
    rw [UInt64.toNat_add, Nat.mod_eq_of_lt hsum]
  simp only [hadd]
  by_cases hpast : start.toNat > contents.length
  · have hnil : contents.drop start.toNat = [] := List.drop_eq_nil_of_le hpast.le
    rw [if_pos hpast, hnil, List.take_nil, Nat.sub_eq_zero_of_le hpast.le, Nat.min_zero]
    rfl
  rw [if_neg hpast]
  by_cases hall : start.toNat + size.toNat ≤ contents.length
  · rw [if_pos hall, if_pos hall, Nat.min_eq_left (by omega)]
  · have hrest : (UInt64.ofNat contents.length - start).toNat =
        contents.length - start.toNat := by
      have hofNat : (UInt64.ofNat contents.length).toNat = contents.length :=
        UInt64.toNat_ofNat_of_lt' hlength
      rw [UInt64.toNat_sub_of_le _ _ (by rw [UInt64.le_iff_toNat_le, hofNat]; omega), hofNat]
    rw [if_neg hall, hrest, if_pos (by omega), Nat.min_eq_right (by omega),
      List.take_of_length_le (by rw [List.length_drop]),
      List.take_of_length_le (by rw [List.length_drop]; omega)]

/-- **Files are byte strings.** After a run whose writes all fit into a block, every file of the
namespace without defects reads as its contents, and has their size. -/
theorem contents_refined (env : Env) (start : Int64) (calls : List (Int64 × Call))
    (hids : NeverRunsOut env (new env start) calls)
    (hfits : Run.EveryStep (Namespace.step env id) (fun n call => n.FitsBlock call.2)
      (.new env start) calls) :
    let s := calls.foldl (step env false) (new env start)
    let n := calls.foldl (Namespace.step env id) (.new env start)
    ∀ path z, path ≠ [] → n.resolve path = some z → z.label.stat.isDir = false →
      (∀ now size (offset : Int64), offset.toUInt64.toNat + size.toNat < 2 ^ 63 →
        exec env false s (now, .read path size offset) = .returned
          { status := .ofNat (min size.toNat (z.label.contents.length - offset.toUInt64.toNat))
            bytes := (z.label.contents.drop offset.toUInt64.toNat).take size.toNat } s) ∧
      ∀ now, ∃ attr, exec env false s (now, .getattr path) =
        .returned { status := 0, attr := some attr } s ∧
        attr.stSize = .ofNat z.label.contents.length := by
  intro s n path z hpath hz hfile
  have hsame : calls.foldl (Namespace.step env storedContents) (.new env start) = n :=
    hfits.foldl_eq fun n call hfits => congrArg Prod.snd (Namespace.exec_storedContents hfits)
  have hsized : n.Sized := hfits.invariant (Namespace.sized_new env start)
    fun _ _ hsized hfits => hsized.step hfits
  obtain ⟨hsize, hlength⟩ := hsized.of_resolve hz hfile
  obtain ⟨t, hgood, ht⟩ := (represents_new env start).run_refines hids
  rw [hsame] at ht
  have hlt : z.label.contents.length < 2 ^ 64 := by
    rw [bytesPerBlock] at hlength
    omega
  constructor
  · intro now size offset hsum
    have hexec : (n.exec env storedContents (now, .read path size offset)).1 =
        (n.read path size offset).1 := congrArg Prod.fst (if_neg hpath)
    rw [hgood.exec_of_isQuery env storedContents rfl, ht, hexec, Namespace.read, hz]
    simp only [hfile, copyContents_eq hlt (hsum.trans (by decide))]
    rfl
  · intro now
    have hexec : (n.exec env storedContents (now, .getattr path)).1 =
        (n.getattr env path).1 := congrArg Prod.fst (if_neg hpath)
    rw [hgood.exec_of_isQuery env storedContents rfl, ht, hexec, Namespace.getattr, hz]
    exact ⟨_, rfl, congrArg UInt64.toInt64 hsize⟩

/-- A file is written twice, and a directory made and removed. -/
def twoWrites : List (Int64 × Call) :=
  [(0, .create (below 0x61) 0o100644), (1, .write (below 0x61) [1, 2, 3] 0),
    (2, .mkdir (below 0x62) 0o755), (3, .write (below 0x61) [4, 5] 2), (4, .rmdir (below 0x62))]

/-- A read across the end of the file. -/
theorem contents_refined_twoWrites :
    exec plainEnv false (twoWrites.foldl (step plainEnv false) (new plainEnv 0))
        (5, .read (below 0x61) 100 1) =
      .returned { status := 3, bytes := [2, 4, 5] }
        (twoWrites.foldl (step plainEnv false) (new plainEnv 0)) :=
  (contents_refined plainEnv 0 twoWrites (by decide +kernel) (by decide +kernel) (below 0x61) _
    (by decide) rfl rfl).1 5 100 1 (by decide)

/-- **A file of 1001 bytes reads as 1002**: its last byte is also in a second leaf. -/
theorem read_back_too_long :
    ((exec plainEnv false
        (([(0, .create (below 0x61) 0o100644),
            (1, .write (below 0x61) (List.replicate 1001 7) 0)] : List (Int64 × Call)).foldl
          (step plainEnv false) (new plainEnv 0))
        (2, .read (below 0x61) 2000 0)).result.map
          fun reply => (reply.status, reply.bytes.length)) =
      .ok (1002, 1002) := by
  decide +kernel

end BlockFuse

end Pingfs
