import Pingfs.Fs.Exhaustion
import Mathlib.Data.Nat.Log

/-!
# What a call can do

A call leaves everything as it was, or makes one change to the tree, or runs out of ids. `Ends`
says so once, with all that the cases promise; what holds in every state of every run is derived
from it. Only a `write` that runs out of ids breaks the tree: it has freed the old contents by
then. A run in which no `write` does so is `Unbroken`.

Source: the exits of the operations of `block_fuse.cc`.

## Main results

* `Good.exec_ends` — how a call ends
* `Unbroken.intact` — every state of an unbroken run is that of a tree
* `unchanged_of_leavesAlone` — queries and failures change nothing at all
-/

namespace Pingfs

open Zipper

/-- The change that a call makes to the tree `t`, when `used` ids were handed out before it and
`used'` after it. -/
inductive Inodes.Next (env : Env) (now : Int64) (t : Inodes) (used : ℕ) :
    BlockFuse.Call → Inodes → ℕ → Prop
  | mkdir {path : Str} {bits : ModeT} {mode : Mode} {z : Zipper Node}
      (hnone : t.resolve path = none) (hparent : t.resolve (FsUtil.parentPath path) = some z)
      (hmode : Mode.ofModeT (bits ||| S_IFDIR) = .ok mode) :
      Next env now t used (.mkdir path bits)
        (addAt z used (Namespace.baseName path) ⟨mode, env.uid, env.gid, 1, now, now, now⟩)
        (used + (z.frames.length + 2))
  | create {path : Str} {bits : ModeT} {mode : Mode} {z : Zipper Node}
      (hnone : t.resolve path = none) (hparent : t.resolve (FsUtil.parentPath path) = some z)
      (hmode : Mode.ofModeT bits = .ok mode) :
      Next env now t used (.create path bits)
        (addAt z used (Namespace.baseName path) (BlockFuse.genFileStat env now mode 0))
        (used + (z.frames.length + 2))
  | rmdir {path : Str} {a : Node} {kids : Forest Node} {f : Frame Node} {fs : List (Frame Node)}
      (hz : t.resolve path = some ⟨a, kids, f :: fs⟩) :
      Next env now t used (.rmdir path) (removeAt f fs used) (used + (fs.length + 1))
  | unlink {path : Str} {a : Node} {kids : Forest Node} {f : Frame Node} {fs : List (Frame Node)}
      (hz : t.resolve path = some ⟨a, kids, f :: fs⟩) :
      Next env now t used (.unlink path) (removeAt f fs used) (used + (fs.length + 1))
  | write {path : Str} {buffer contents : Bytes} {offset : Int64} {z : Zipper Node} {made : ℕ}
      {data : DataForest} (hz : t.resolve path = some z) (hfile : z.label.stat.isDir = false)
      (hmade : used ≤ made) (hordered : data.Ordered)
      (hids : ∀ id ∈ data.rootIds, id.toNat ≤ made) :
      Next env now t used (.write path buffer offset)
        (rewriteAt z made (BlockFuse.writtenStat now z.label.stat contents) data)
        (made + (z.frames.length + 1))

theorem Inodes.Next.isQuery {env : Env} {now : Int64} {used used' : ℕ} {t t' : Inodes}
    {call : BlockFuse.Call} (h : t.Next env now used call t' used') : call.isQuery = false := by
  cases h <;> rfl

namespace BlockFuse

open FsM BlockUtil

variable {s s' : BlockFuse} {t : Inodes} {garbage : Multiset Block} {env : Env}

def Call.isWrite : Call → Bool
  | .write _ _ _ => true
  | _ => false

/-- What a call returns when it has made its change: `write` the number of bytes, as an `int`. -/
def Call.success : Call → Int32
  | .write _ buffer _ => .ofNat buffer.length
  | _ => 0

/-- A call returns that it has failed: `write` something negative, the others something else
than `0`. -/
def Call.Failed : Call → Reply → Prop
  | .write _ _ _, reply => reply.status < 0
  | _, reply => reply.status ≠ 0

/-- How a call ends in a state of the tree `t`. -/
inductive Ends (env : Env) (s : BlockFuse) (t : Inodes) (garbage : Multiset Block)
    (call : Int64 × Call) : Outcome Halt BlockFuse Reply → Prop
  /-- The state is as it was. -/
  | idle {r : Except Halt Reply}
      (hfailed : ∀ reply, r = .ok reply → call.2.isQuery = true ∨ call.2.Failed reply)
      (hexhausted : r ≠ .error exhausted) (hdiverged : r ≠ .error .diverged) :
      Ends env s t garbage call (.of r s)
  /-- The tree is changed. A file just made may not be found under its path. -/
  | changed {t' : Inodes} {used' : ℕ} {o : Outcome Halt BlockFuse Reply}
      (hnext : t.Next env call.1 s.idsUsed call.2 t' used') (hgood : Good o.state t' garbage)
      (hused : o.state.idsUsed = used')
      (hresult : o.result = .ok { status := call.2.success } ∨ o.result = .error .assertionFailed) :
      Ends env s t garbage call o
  /-- The last id is gone. The tree is the same if the call is no `write`. -/
  | ranOut {s' : BlockFuse} (hquery : call.2.isQuery = false) (hroot : s'.rootBlock = s.rootBlock)
      (hlast : s'.idsUsed + 1 = 2 ^ 64)
      (hgood : call.2.isWrite = false → ∃ garbage', Good s' t garbage') :
      Ends env s t garbage call (.halted exhausted s')

/-! ## Every call -/

theorem copyContents_error {contents : Bytes} {size : UInt64} {offset : Int64} {e : Halt}
    (herror : copyContents contents size offset = .error e) : e = .outOfBounds := by
  have hcopied : ∀ actualSize : UInt64, ((if offset.toUInt64.toNat + actualSize.toNat ≤
      contents.length then .ok (.ofNat actualSize.toNat,
        (contents.drop offset.toUInt64.toNat).take actualSize.toNat)
      else .error .outOfBounds : Except Halt (Int32 × Bytes)) = .error e) → e = .outOfBounds := by
    intro actualSize hcopy
    split at hcopy
    · cases hcopy
    · exact (Except.error.inj hcopy).symm
  unfold copyContents at herror
  dsimp only at herror
  split at herror
  · cases herror
  · exact hcopied _ herror

theorem ofModeT_error {bits : ModeT} {what : String} (herror : Mode.ofModeT bits = .error what) :
    what = "Unknown mode" := by
  cases htype : FileType.fromModeT bits with
  | ok fileType =>
    rw [Mode.ofModeT, htype] at herror
    cases herror
  | error why =>
    rw [Mode.ofModeT, htype] at herror
    obtain rfl := Except.error.inj herror
    unfold FileType.fromModeT at htype
    split at htype
    · cases htype
    · split at htype
      · cases htype
      · exact (Except.error.inj htype).symm

/-- A query is never left by the exception of the id supplier, and ends. -/
theorem result_of_isQuery (t : Namespace) (env : Env) (stored : Bytes → Bytes)
    {call : Int64 × Call} (hquery : call.2.isQuery = true) :
    (t.exec env stored call).1 ≠ .error exhausted ∧
      (t.exec env stored call).1 ≠ .error .diverged := by
  obtain ⟨now, call⟩ := call
  rw [Namespace.exec]
  split
  · simp
  cases call with
  | getattr path => cases ht : t.resolve path <;> simp [Namespace.getattr, ht]
  | readdir path filler => cases ht : t.resolve path <;> simp [Namespace.readdir, ht]
  | read path size offset =>
    cases ht : t.resolve path with
    | none => simp [Namespace.read, ht]
    | some z =>
      simp only [Namespace.read, ht]
      split
      · simp
      · cases hcopy : copyContents z.label.contents size offset with
        | ok copied => simp [Except.map]
        | error e => simp [Except.map, copyContents_error hcopy]
  | mkdir path mode => exact absurd hquery Bool.false_ne_true
  | rmdir path => exact absurd hquery Bool.false_ne_true
  | unlink path => exact absurd hquery Bool.false_ne_true
  | write path buffer offset => exact absurd hquery Bool.false_ne_true
  | create path mode => exact absurd hquery Bool.false_ne_true

/-- Blocks that were created and not put into the tree are garbage. -/
theorem Good.outOfIds (h : Good s t garbage) {need : ℕ} {e : Halt}
    (hout : OutOfIds s (t.blocks + garbage) need e s') :
    s'.rootBlock = s.rootBlock ∧ s'.idsUsed + 1 = 2 ^ 64 ∧ ∃ garbage', Good s' t garbage' := by
  obtain ⟨created, hgrown, hlast⟩ := hout.grown
  have hstored : created + (t.blocks + garbage) = t.blocks + (created + garbage) := by ac_rfl
  have hstores := hgrown.stores
  rw [hstored] at hstores
  have hroot := hgrown.rootBlock_eq
  exact ⟨hroot, hlast, _, hroot.trans h.rootBlock_eq, hstores⟩

/-- A call that returns a failure, in the state it was made in. -/
theorem Ends.of_failed {call : Int64 × Call} {status : Int32}
    (hfailed : call.2.Failed { status }) :
    Ends env s t garbage call (.returned { status } s) := by
  refine .idle (r := .ok { status }) (fun reply hr => ?_) (by simp) (by simp)
  rw [← Except.ok.inj hr]
  exact Or.inr hfailed

section

variable (h : Good s t garbage) (env : Env) (now : Int64) {path : Str} (hpath : path ≠ [])

include h hpath

theorem Good.mkdir_ends (bits : ModeT) :
    Ends env s t garbage (now, .mkdir path bits) (exec env false s (now, .mkdir path bits)) := by
  rw [exec, program, Program.run_bind]
  by_cases hmade : t.resolve path = none ∧ t.resolve (FsUtil.parentPath path) ≠ none
  · obtain ⟨hnone, hparent⟩ := hmade
    obtain ⟨z, hz⟩ := Option.ne_none_iff_exists'.mp hparent
    have hmode := Mode.ofModeT_or_dir bits
    have hmeets := h.mkdir_meets (k := false) env now hpath hnone hz hmode
    cases hrun : (mkdir env s.fuel now path bits).run (handler false) s with
    | returned status s' =>
      rw [hrun] at hmeets
      obtain ⟨rfl, hgood, hused⟩ := hmeets
      exact .changed (.mkdir hnone hz hmode) (by simpa using hgood) hused (Or.inl rfl)
    | halted e s' =>
      rw [hrun] at hmeets
      obtain ⟨hroot, hlast, hgood⟩ := h.outOfIds hmeets
      obtain rfl := hmeets.threw
      exact .ranOut rfl hroot hlast fun _ => hgood
  · have hfails : t.resolve path ≠ none ∨ t.resolve (FsUtil.parentPath path) = none := by
      by_contra hboth
      push Not at hboth
      exact hmade hboth
    rw [h.run_mkdir_fails env now hpath hfails]
    exact .of_failed (show (1 : Int32) ≠ 0 by decide)

theorem Good.create_ends (bits : ModeT) :
    Ends env s t garbage (now, .create path bits) (exec env false s (now, .create path bits)) := by
  rw [exec, program, Program.run_bind]
  by_cases hnone : t.resolve path = none
  case neg =>
    rw [h.run_create_exists env now hpath hnone]
    exact .of_failed (show fileExists ≠ 0 by decide)
  cases hmode : Mode.ofModeT bits with
  | error what =>
    rw [h.run_create_throws env now hpath hnone hmode, Outcome.bind_halted]
    obtain rfl := ofModeT_error hmode
    exact .idle (r := .error (.threw "Unknown mode")) (by simp) (by simp) (by simp)
  | ok mode =>
    cases hz : t.resolve (FsUtil.parentPath path) with
    | none =>
      rw [h.run_create_fails env now hpath hnone hz hmode]
      exact .of_failed (show noSuchFileOrDir ≠ 0 by decide)
    | some z =>
      have hmeets := h.create_meets (k := false) env now hpath hnone hz hmode
      cases hrun : (create env s.fuel now path bits).run (handler false) s with
      | returned status s' =>
        rw [hrun] at hmeets
        obtain ⟨rfl, -, hgood, hused⟩ := hmeets
        exact .changed (.create hnone hz hmode) (by simpa using hgood) hused (Or.inl rfl)
      | halted e s' =>
        rw [hrun] at hmeets
        rcases hmeets with hout | ⟨rfl, -, hgood, hused⟩
        · obtain ⟨hroot, hlast, hgood⟩ := h.outOfIds hout
          obtain rfl := hout.threw
          exact .ranOut rfl hroot hlast fun _ => hgood
        · exact .changed (.create hnone hz hmode) (by simpa using hgood) hused (Or.inr rfl)

/-- `rmdir`, and `unlink`, which is the same: `next` is the change made by either. -/
theorem Good.rmdir_ends {call : Call} (hquery : call.isQuery = false)
    (hsuccess : call.success = 0) (hfailed : ∀ reply, reply.status ≠ 0 → call.Failed reply)
    (hnext : ∀ {a kids f fs}, t.resolve path = some ⟨a, kids, f :: fs⟩ →
      t.Next env now s.idsUsed call (Inodes.removeAt f fs s.idsUsed)
        (s.idsUsed + (fs.length + 1))) :
    Ends env s t garbage (now, call) ((do
      let status ← rmdir s.fuel path
      return { status : Reply }).run (handler false) s) := by
  rw [Program.run_bind]
  by_cases hmade : ∃ a kids f fs, t.resolve path = some ⟨a, kids, f :: fs⟩
  · obtain ⟨a, kids, f, fs, hz⟩ := hmade
    have hmeets := h.rmdir_meets (k := false) hpath hz
    cases hrun : (rmdir s.fuel path).run (handler false) s with
    | returned status s' =>
      rw [hrun] at hmeets
      obtain ⟨rfl, hgood, hused⟩ := hmeets
      exact .changed (hnext hz) (by simpa using hgood) hused (Or.inl (by rw [hsuccess]; rfl))
    | halted e s' =>
      rw [hrun] at hmeets
      obtain ⟨hroot, hlast, hgood⟩ := h.outOfIds hmeets
      obtain rfl := hmeets.threw
      exact .ranOut hquery hroot hlast fun _ => hgood
  · have hfails : ∀ z, t.resolve path = some z → z.frames = [] := by
      intro z hz
      cases hframes : z.frames with
      | nil => rfl
      | cons f fs =>
        refine absurd ⟨z.label, z.kids, f, fs, ?_⟩ hmade
        rw [hz, ← hframes]
    rw [h.run_rmdir_fails hpath hfails]
    exact .of_failed (hfailed _ (show (1 : Int32) ≠ 0 by decide))

theorem Good.write_ends (buffer : Bytes) (offset : Int64) :
    Ends env s t garbage (now, .write path buffer offset)
      (exec env false s (now, .write path buffer offset)) := by
  rw [exec, program, Program.run_bind]
  cases hz : t.resolve path with
  | none =>
    rw [h.run_write_none env now hpath hz]
    exact .of_failed (show noSuchFileOrDir < 0 by decide)
  | some z =>
    cases hdir : z.label.stat.isDir with
    | true =>
      rw [h.run_write_dir env now hpath hz hdir]
      exact .of_failed (show errorBecauseDir < 0 by decide)
    | false =>
      rcases Nat.lt_or_ge z.label.data.contents.length offset.toUInt64.toNat with hpast | hoffset
      · rw [h.run_write_past env now hpath hz hdir buffer hpast]
        exact .of_failed (show (-1 : Int32) < 0 by decide)
      · have hmeets := h.write_meets (k := false) env now hpath hz hdir buffer hoffset
        cases hrun : (write env s.fuel now path buffer offset).run (handler false) s with
        | returned status s' =>
          rw [hrun] at hmeets
          obtain ⟨rfl, made, data, hmade, hordered, hids, -, hgood, hused⟩ := hmeets
          exact .changed (.write hz hdir hmade hordered hids) (by simpa using hgood) hused
            (Or.inl rfl)
        | halted e s' =>
          rw [hrun] at hmeets
          obtain ⟨s₁, hkeeps, hout⟩ := hmeets
          obtain ⟨created, hgrown, hlast⟩ := hout.grown
          obtain rfl := hout.threw
          refine .ranOut rfl (hgrown.rootBlock_eq.trans hkeeps.rootBlock_eq) hlast fun hwrite => ?_
          cases hwrite

end

/-- **How a call ends** in a state of a tree. -/
theorem Good.exec_ends (h : Good s t garbage) (env : Env) (call : Int64 × Call) :
    Ends env s t garbage call (exec env false s call) := by
  by_cases hpath : call.2.path = []
  · rw [exec_of_path_eq_nil env s hpath]
    exact .idle (r := .error (.threw "std::out_of_range")) (by simp) (by simp) (by simp)
  by_cases hquery : call.2.isQuery = true
  · obtain ⟨hexhausted, hdiverged⟩ := result_of_isQuery t.entries env storedContents hquery
    rw [h.exec_of_isQuery env storedContents hquery]
    exact .idle (fun _ _ => Or.inl hquery) hexhausted hdiverged
  obtain ⟨now, call⟩ := call
  cases call with
  | mkdir path bits => exact h.mkdir_ends env now hpath bits
  | create path bits => exact h.create_ends env now hpath bits
  | rmdir path => exact h.rmdir_ends env now hpath rfl rfl (fun _ hr => hr) .rmdir
  | unlink path => exact h.rmdir_ends env now hpath rfl rfl (fun _ hr => hr) .unlink
  | write path buffer offset => exact h.write_ends env now hpath buffer offset
  | getattr path => exact absurd rfl hquery
  | readdir path filler => exact absurd rfl hquery
  | read path size offset => exact absurd rfl hquery

/-! ## Unbroken runs -/

/-- The state is that of a tree, and perhaps of blocks that do not belong to it. -/
def Intact (s : BlockFuse) : Prop := ∃ t garbage, Good s t garbage

theorem intact_new (env : Env) (now : Int64) : Intact (new env now) := ⟨_, _, good_new env now⟩

/-- The call does not run out of ids while it writes a file. -/
def Spared (env : Env) (s : BlockFuse) (call : Int64 × Call) : Prop :=
  call.2.isWrite = true → ¬ RanOut env false s call

instance (env : Env) (s : BlockFuse) (call : Int64 × Call) : Decidable (Spared env s call) :=
  inferInstanceAs (Decidable (_ → _))

/-- No `write` of the run runs out of ids. -/
def Unbroken (env : Env) (s : BlockFuse) (calls : List (Int64 × Call)) : Prop :=
  Run.EveryStep (step env false) (Spared env) s calls

instance (env : Env) (s : BlockFuse) (calls : List (Int64 × Call)) :
    Decidable (Unbroken env s calls) :=
  inferInstanceAs (Decidable (Run.EveryStep _ _ s calls))

theorem Intact.step (h : Intact s) {call : Int64 × Call} (hspared : Spared env s call) :
    Intact (step env false s call) := by
  obtain ⟨t, garbage, hgood⟩ := h
  have hends := hgood.exec_ends env call
  rw [Spared, RanOut] at hspared
  rw [BlockFuse.step]
  generalize exec env false s call = o at hspared hends ⊢
  cases hends with
  | idle =>
    rw [Outcome.state_of]
    exact ⟨t, garbage, hgood⟩
  | changed hnext hgood' => exact ⟨_, garbage, hgood'⟩
  | ranOut hquery hroot hlast hgood' =>
    have hwrite : call.2.isWrite = false := by
      cases hw : call.2.isWrite with
      | false => rfl
      | true => exact absurd rfl (hspared hw)
    exact ⟨t, hgood' hwrite⟩

/-- **Every state of an unbroken run** is that of a tree. -/
theorem Unbroken.intact {calls : List (Int64 × Call)} (h : Unbroken env s calls)
    (hs : Intact s) : Intact (calls.foldl (step env false) s) :=
  Run.EveryStep.invariant h hs fun _ _ hintact hspared => hintact.step hspared

/-! ## Queries and failures -/

/-- The calls that should change nothing: queries, and changes that return a failure. -/
def LeavesAlone (call : Call) (result : Except Halt Reply) : Prop :=
  call.isQuery = true ∨ ∃ reply, result = .ok reply ∧ call.Failed reply

/-- What a call returns that has made its change is no failure, unless it is the length of a buffer
that is negative as an `int`. -/
theorem Call.not_failed_success {call : Call} (hsuccess : 0 ≤ call.success) :
    ¬ call.Failed { status := call.success } := by
  intro hfailed
  cases call with
  | write path buffer offset => exact Int32.not_lt.mpr hsuccess hfailed
  | getattr path => exact hfailed rfl
  | mkdir path mode => exact hfailed rfl
  | rmdir path => exact hfailed rfl
  | unlink path => exact hfailed rfl
  | readdir path filler => exact hfailed rfl
  | read path size offset => exact hfailed rfl
  | create path mode => exact hfailed rfl

/-- A query or a failure leaves the state as it was. -/
theorem Ends.eq_of_leavesAlone {call : Int64 × Call} {o : Outcome Halt BlockFuse Reply}
    (h : Ends env s t garbage call o) (hsuccess : 0 ≤ call.2.success)
    (halone : LeavesAlone call.2 o.result) : o.state = s := by
  cases h with
  | idle => rw [Outcome.state_of]
  | changed hnext hgood hused hresult =>
    rcases halone with hquery | ⟨reply, hreply, hfailed⟩
    · rw [hnext.isQuery] at hquery
      cases hquery
    · rcases hresult with hok | herror
      · rw [hok] at hreply
        rw [← Except.ok.inj hreply] at hfailed
        exact absurd hfailed (Call.not_failed_success hsuccess)
      · rw [herror] at hreply
        cases hreply
  | ranOut hquery =>
    rcases halone with hquery' | ⟨reply, hreply, -⟩
    · rw [hquery] at hquery'
      cases hquery'
    · cases hreply

/-- **Queries and failures leave the state alone**: the root, the map and the id supplier. The
state may be reached by any calls of which no `write` ran out of ids; a `write` as long that its
length is negative as an `int` returns what looks like a failure, and is left out. -/
theorem unchanged_of_leavesAlone (env : Env) (now : Int64) (calls : List (Int64 × Call))
    (hids : Unbroken env (new env now) calls) (call : Int64 × Call)
    (hsuccess : 0 ≤ call.2.success) :
    let s := calls.foldl (step env false) (new env now)
    LeavesAlone call.2 (exec env false s call).result → step env false s call = s := by
  intro s halone
  obtain ⟨t, garbage, hgood⟩ := hids.intact (intact_new env now)
  exact (hgood.exec_ends env call).eq_of_leavesAlone hsuccess halone

/-- A file and a directory below another directory; the root cannot be removed. -/
theorem unchanged_by_rmdir_root :
    let s := List.foldl (step plainEnv false) (new plainEnv 0) [(0, .mkdir (below 0x61) 0o755),
      (1, .create (below 0x61 ++ below 0x62) 0o100644),
      (2, .write (below 0x61 ++ below 0x62) [1, 2, 3] 0)]
    step plainEnv false s (3, .rmdir [FsUtil.slash]) = s :=
  unchanged_of_leavesAlone plainEnv 0 _ (by decide +kernel) (3, .rmdir [FsUtil.slash])
    (by decide) (Or.inr ⟨{ status := 1 }, by decide +kernel,
      show (1 : Int32) ≠ 0 by decide⟩)

/-! ### Where it fails -/

/-- Reading a file `/b` whose contents are gone follows a null pointer, and puts null pointers into
the map. -/
theorem Stores.exec_read_gone {stored : Multiset Block} (hs : Stores s stored) {a b : Node}
    (hroot : s.rootBlock = a.block (Forest.tree b .nil)) (hname : b.name = [0x62])
    (hnodup : ((a.tree (Forest.tree b .nil)).map (·.id)).Nodup)
    (hin : ∀ c ∈ a.childBlocks (Forest.tree b .nil), c ∈ stored) (hfile : b.stat.isDir = false)
    {id : BlockId} {ids : List BlockId} (hids : b.data.rootIds = id :: ids)
    (hgone : id ∉ stored.map (·.id)) (env : Env) (now : Int64) (size : UInt64) (offset : Int64) :
    exec env false s (now, .read (below 0x62) size offset) =
      .halted .nullDereference { s with manager := (s.manager.getBlocks (id :: ids)).2 } := by
  have hnames : FsUtil.separatePath (below 0x62) = .ok [FsUtil.separator, [0x62]] := by decide
  have hsplit : splitAt Node.name [0x62] (Forest.tree b .nil) = some (.nil, b, .nil, .nil) := by
    rw [Forest.tree, splitAt, if_pos hname]
  have hpart := hs.run_getPathPart_found (k := false) (show [0x62] ≠ FsUtil.separator by decide)
    hin hnodup hsplit (show 2 < s.fuel by unfold fuel; omega)
  have hpath : (getPath s.fuel (below 0x62)).run (handler false) s =
      .returned [a.block (Forest.tree b .nil), b.block .nil] s := by
    rw [getPath, hnames]
    simp only [Program.run_bind, Program.run_ofExcept_ok, Outcome.bind_returned, getPathLoop,
      if_true, getPathPart, run_getRootBlock, hroot, Program.run_pure, List.getLast?_singleton]
    rw [getPathPart] at hpart
    exact congrArg (fun o : Outcome Halt BlockFuse (List Block) => o.bind _) hpart
  obtain ⟨fuel, hfuel⟩ : ∃ n, s.fuel = n + 1 := ⟨s.fuel - 1, by unfold BlockFuse.fuel; omega⟩
  have hmap : s.manager.map id = none := hs.holds.eq_none_iff.mpr hgone
  have hread : (readFileContents s.fuel ⟨b.name, b.stat, id :: ids⟩).run (handler false) s =
      .halted .nullDereference { s with manager := (s.manager.getBlocks (id :: ids)).2 } := by
    have hfirst : (s.manager.getBlocks (id :: ids)).1 =
        none :: ((s.manager.subscript id).2.getBlocks ids).1 := by
      simp [MemoryBlockManager.getBlocks, MemoryBlockManager.subscript, hmap]
    simp only [readFileContents, assert, DirFileBlockData.isDir, hfile, Bool.not_false, if_true,
      Program.run_bind, Program.run_pure, Outcome.bind_returned, hfuel, getFileContents,
      FsM.getBlocks, Program.run_request, handler, hfirst, gatherContents]
    rfl
  have hlast : [a.block (Forest.tree b .nil), b.block .nil].getLast? = some (b.block .nil) := rfl
  have hb : (b.block .nil).tryCastDirFile = some ⟨b.name, b.stat, id :: ids⟩ := by
    rw [Node.tryCastDirFile_block, hids, Node.rootIds_nil, List.append_nil]
  have hfile' : DirFileBlockData.isDir ⟨b.name, b.stat, id :: ids⟩ = false := hfile
  simp only [exec, program, read, Program.run_bind, hpath, Outcome.bind_returned, hlast, hb, hfile',
    Bool.false_eq_true, if_false, hread, Outcome.bind_halted]

/-- The state that the last `write` leaves behind. -/
def gone : BlockFuse := step plainEnv false noIds (0, .write (below 0x62) [2] 0)

/-- The `write` throws, and its file lists an id that is mapped no more; a `read` of it asks for
this id. -/
theorem exists_gone : ∃ id ids, (exec plainEnv false noIds (0, .write (below 0x62) [2] 0)).result =
      .error exhausted ∧ gone.manager.map id = none ∧
    exec plainEnv false gone (0, .read (below 0x62) 1 0) =
      .halted .nullDereference { gone with manager := (gone.manager.getBlocks (id :: ids)).2 } := by
  obtain ⟨⟨⟨a, akids⟩, hgood, hentries⟩, hlast⟩ := noIds_represents
  obtain ⟨e, he, hname, hfile, hcontents⟩ : ∃ e, fileNamespace.2 = Forest.tree e .nil ∧
      e.name = [0x62] ∧ e.stat.isDir = false ∧ e.contents = [1] := ⟨_, rfl, rfl, rfl, rfl⟩
  have hkids : akids.map Node.entry = Forest.tree e .nil := (congrArg Prod.snd hentries).trans he
  obtain ⟨b, rfl, rfl⟩ := Forest.map_eq_tree hkids
  obtain ⟨id, ids, hids⟩ := DataForest.exists_rootIds (d := b.data) (by
    rw [show b.data.contents = [1] from hcontents]
    simp)
  let z : Zipper Node := ⟨b, .nil, [⟨a, .nil, .nil⟩]⟩
  have hz : Inodes.resolve (a, Forest.tree b .nil) (below 0x62) = some z := by
    have hnames : FsUtil.names (below 0x62) = [[0x62]] := by decide
    have hsplit : splitAt Node.name [0x62] (Forest.tree b .nil) = some (.nil, b, .nil, .nil) := by
      rw [Forest.tree, splitAt, if_pos (show b.name = [0x62] from hname)]
    simp only [Inodes.resolve, resolve, hnames, descend_cons, descend_nil, down, top, hsplit]
    rfl
  obtain ⟨s', hexec, hroot, hstores⟩ := hgood.write_exhausted hlast plainEnv 0
    (show below 0x62 ≠ [] from List.cons_ne_nil _ _) hz hfile [2]
  have hgone : gone = s' := by rw [gone, step, hexec, Outcome.state_halted]
  have hnodup := hgood.stores.nodup_of_le (Multiset.le_add_right _ 0)
  -- the id is that of a block below the file, and these are gone
  have hid : id ∉ (↑(pathBlocks z) + beside z.frames : Multiset Block).map (·.id) := by
    have hblocks := blocks_eq_path (Inodes.plug_resolve hz)
    have hmem : id ∈ (b.below .nil).map (·.id) := by
      have hroots := b.map_id_childBlocks .nil
      rw [hids, Node.rootIds_nil, List.append_nil] at hroots
      obtain ⟨c, hc, hcid⟩ := List.mem_map.mp (hroots ▸ List.mem_cons_self (a := id) (l := ids))
      rw [← hcid]
      exact Multiset.mem_map_of_mem _ (Node.mem_below_of_childBlocks hc)
    have hswap : (↑(pathBlocks z) + (z.label.below z.kids + beside z.frames) : Multiset Block) =
        b.below .nil + (pathBlocks z + beside z.frames) := by
      rw [← add_assoc, add_comm (pathBlocks z : Multiset Block), add_assoc]
    rw [hblocks, hswap, Multiset.map_add] at hnodup
    exact Multiset.disjoint_left.mp (Multiset.disjoint_of_nodup_add hnodup) hmem
  have hin : ∀ c ∈ a.childBlocks (Forest.tree b .nil),
      c ∈ (↑(pathBlocks z) + beside z.frames : Multiset Block) := by
    intro c hc
    rw [Node.childBlocks, List.mem_append] at hc
    rw [Multiset.mem_add]
    rcases hc with hc | hc
    · refine Or.inr ?_
      simp [z, beside, DataForest.mem_blocks_of_rootBlocks hc]
    · refine Or.inl ?_
      simp only [Node.rootBlocks, List.mem_singleton] at hc
      simp [hc, z, pathBlocks]
  refine ⟨id, ids, by rw [hexec]; rfl, ?_, ?_⟩
  · rw [hgone]
    exact hstores.holds.eq_none_iff.mpr hid
  · rw [hgone]
    exact hstores.exec_read_gone (hroot.trans hgood.rootBlock_eq) hname hnodup hin hfile hids hid
      plainEnv 0 1 0

/-- Surroundings in which the number of layers is what the logarithms say. -/
def layeredEnv : Env := ⟨0, 0, 0, fun leaves branching => Nat.clog branching leaves⟩

/-- The file `/b`, without contents. -/
def emptyFile : BlockFuse :=
  step layeredEnv false (new layeredEnv 0) (0, .create (below 0x62) 0o100644)

/-- A `write` of so many bytes that their number is negative as an `int` is made, and returns that
number. -/
theorem longWrite_made {buffer : Bytes} (hlength : buffer.length = 2 ^ 31) :
    (exec layeredEnv false emptyFile (0, .write (below 0x62) buffer 0)).result =
        .ok { status := -2147483648 } ∧
      step layeredEnv false emptyFile (0, .write (below 0x62) buffer 0) ≠ emptyFile := by
  have hids : ¬ RanOut layeredEnv false (new layeredEnv 0) (0, .create (below 0x62) 0o100644) := by
    decide +kernel
  obtain ⟨t, hgood, hentries⟩ := ((represents_new layeredEnv 0).step_refines hids).2
  have hgood : Good emptyFile t 0 := hgood
  have hused : emptyFile.idsUsed = 3 := by decide +kernel
  obtain ⟨y, hy, hfile, hcontents, hframes⟩ : ∃ y, (Namespace.step layeredEnv storedContents
      (.new layeredEnv 0) (0, .create (below 0x62) 0o100644)).resolve (below 0x62) = some y ∧
      y.label.stat.isDir = false ∧ y.label.contents = [] ∧ y.frames.length = 1 :=
    ⟨_, rfl, rfl, rfl, rfl⟩
  rw [← hentries, t.resolve_entries, Option.map_eq_some_iff] at hy
  obtain ⟨z, hz, rfl⟩ := hy
  have hmeets := hgood.write_meets (k := false) layeredEnv 0
    (show below 0x62 ≠ [] from List.cons_ne_nil _ _) hz hfile buffer
    (show (0 : Int64).toUInt64.toNat ≤ z.label.data.contents.length from Nat.zero_le _)
  rw [step, exec, program, Program.run_bind]
  cases hrun : (write layeredEnv emptyFile.fuel 0 (below 0x62) buffer 0).run (handler false)
      emptyFile with
  | returned status s' =>
    rw [hrun] at hmeets
    obtain ⟨rfl, made, -, hmade, -, -, -, -, hused'⟩ := hmeets
    have hstatus : Int32.ofNat buffer.length = -2147483648 := by
      rw [hlength]
      rfl
    refine ⟨by rw [hstatus]; rfl, fun hsame => ?_⟩
    have hsame : s' = emptyFile := hsame
    rw [hsame] at hused'
    omega
  | halted e s' =>
    rw [hrun] at hmeets
    obtain ⟨s₁, hkeeps, -, hshort, -⟩ := hmeets
    -- there are more than enough ids
    have hcontents' :
        replaceAt z.label.data.contents buffer (0 : Int64).toUInt64.toNat = buffer := by
      rw [show z.label.data.contents = [] from hcontents]
      simp [replaceAt]
    have hleaves : ceilDiv (2 ^ 31) bytesPerBlock = 2147484 := rfl
    have hlayers : Nat.clog branchingFactor 2147484 ≤ 11 :=
      Nat.clog_le_of_le_pow (show 2147484 ≤ 4 ^ 11 by decide)
    have hneed : idsForContents layeredEnv.depth buffer ≤ 12 * 2147484 := by
      rw [idsForContents, hlength, hleaves]
      exact Nat.mul_le_mul_right _ (Nat.succ_le_succ hlayers)
    have hframes : z.frames.length = 1 := by
      rwa [Zipper.map, List.length_map] at hframes
    rw [hcontents', hkeeps.idsUsed_eq, hused, hframes] at hshort
    omega

/-- A request for an id that is not mapped changes the map. -/
theorem map_getBlocks_ne (s : BlockFuse) {id : BlockId} (hgone : s.manager.map id = none)
    (ids : List BlockId) :
    ({ s with manager := (s.manager.getBlocks (id :: ids)).2 } : BlockFuse).manager.map ≠
      s.manager.map := by
  intro hmap
  have hmapped : ((s.manager.getBlocks (id :: ids)).2.map id).isSome = true :=
    MemoryBlockManager.isSome_map_getBlocks (Or.inr (List.mem_cons_self ..))
  rw [show (s.manager.getBlocks (id :: ids)).2.map = s.manager.map from hmap, hgone] at hmapped
  exact Bool.false_ne_true hmapped

theorem exists_buffer (n : ℕ) : ∃ buffer : Bytes, buffer.length = n :=
  ⟨List.replicate n 0, List.length_replicate ..⟩

/-- **Where queries and failures do change something.** A `read` does after a `write` that has run
out of ids: it puts a null pointer into the map. A `write` of `2 ^ 31` bytes does: it succeeds and
returns something negative. -/
theorem changed_by_read_and_longWrite :
    (let s := List.foldl (step plainEnv false) (new plainEnv 0)
        (callsToNoIds ++ [(0, .write (below 0x62) [2] 0)]);
      (step plainEnv false s (0, .read (below 0x62) 1 0)).manager.map ≠ s.manager.map) ∧
    ∃ buffer : Bytes, buffer.length = 2 ^ 31 ∧
      let s := step layeredEnv false (new layeredEnv 0) (0, .create (below 0x62) 0o100644);
      (∃ reply, (exec layeredEnv false s (0, .write (below 0x62) buffer 0)).result = .ok reply ∧
        reply.status < 0) ∧ step layeredEnv false s (0, .write (below 0x62) buffer 0) ≠ s := by
  constructor
  · obtain ⟨id, ids, -, hgone, hread⟩ := exists_gone
    have hstate : List.foldl (step plainEnv false) (new plainEnv 0)
        (callsToNoIds ++ [(0, .write (below 0x62) [2] 0)]) = gone := by
      rw [List.foldl_append, gone, noIds, List.foldl_cons, List.foldl_nil]
    have hafter : step plainEnv false gone (0, .read (below 0x62) 1 0) =
        { gone with manager := (gone.manager.getBlocks (id :: ids)).2 } := by
      rw [step, hread, Outcome.state_halted]
    dsimp only
    rw [hstate, hafter]
    exact map_getBlocks_ne gone hgone ids
  · obtain ⟨buffer, hlength⟩ := exists_buffer (2 ^ 31)
    obtain ⟨hresult, hchanged⟩ := longWrite_made hlength
    exact ⟨buffer, hlength, ⟨_, hresult, by decide⟩, hchanged⟩

end BlockFuse

end Pingfs
