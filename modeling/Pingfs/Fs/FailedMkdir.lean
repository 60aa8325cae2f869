import Pingfs.Fs.Requests
import Pingfs.Fs.RevertibleBlockFuse

/-!
# A `mkdir` that fails

`RevertibleBlockFuse::mkdir` records its restore point before it knows whether the directory can be
made. If it cannot, an older restore point of that path has been overwritten, or there is one for a
directory that does not exist. And what `mkdir_valid` asks for may no longer be stored, since a
revert can bring back a directory of which only some children were cleared: then `operator[]` puts
null pointers into the map.

Source: `mkdir` and `rmdir` of `revertible_block_fuse.cc`, `mkdir_valid` and `mkdir` of
`block_fuse.cc`.

## Main results

* `mkdirsFailCleanly_iff` — the runs in which a `mkdir` that fails changes nothing
-/

namespace Pingfs

namespace BlockFuse

open FsM

variable {s s' : BlockFuse} {env : Env} {fuel : ℕ} {k : Bool} {α : Type} {p : FsM α}

/-! ## Programs that only read -/

/-- They do not free, so that it makes no difference whether `free_block` is suppressed. -/
theorem run_handler_eq (hp : p.Only IsRead) (k k' : Bool) (s : BlockFuse) :
    p.run (handler k) s = p.run (handler k') s := by
  induction p generalizing s with
  | ret a => rfl
  | halt e => rfl
  | call call next ih =>
    have hsame : handler k call s = handler k' call s := by
      obtain rfl | ⟨ids, rfl⟩ := isRead_iff.mp hp.1 <;> rfl
    rw [Program.run, Program.run, hsame]
    cases handler k' call s with
    | returned r s' => exact ih r (hp.2 r) s'
    | halted e s' => rfl

/-- A call that reads keys of the map changes nothing. -/
theorem state_handler_of_mapped {call : FsCall} (hread : IsRead call) (hmapped : Mapped call s) :
    (handler k call s).state = s := by
  obtain rfl | ⟨ids, rfl⟩ := isRead_iff.mp hread
  · rfl
  · have hsame := MemoryBlockManager.getBlocks_of_isSome hmapped
    exact congrArg (fun manager => ({ s with manager } : BlockFuse)) hsame

/-- **A reading program changes nothing** if and only if all it asks for are keys of the map. -/
theorem state_run_eq_iff (hp : p.Only IsRead) :
    (p.run (handler k) s).state = s ↔ p.EveryCall (handler k) Mapped s := by
  constructor
  · intro hsame
    refine everyCall_of_keys hp fun id hid => ?_
    rwa [hsame] at hid
  · intro hcalls
    induction p with
    | ret a => rfl
    | halt e => rfl
    | call call next ih =>
      have hsame := state_handler_of_mapped (k := k) hp.1 hcalls.1
      rw [Program.run]
      cases hreply : handler k call s with
      | returned r s' =>
        rw [hreply] at hsame
        obtain rfl : s' = s := hsame
        exact ih r (hp.2 r) (hcalls.2 r s' hreply)
      | halted e s' =>
        rw [hreply] at hsame
        exact hsame

/-! ## Where `mkdir` fails -/

/-- `mkdir_valid` rejects the path: there is something already, or nothing that it could be made
in. -/
def Rejects (env : Env) (s : BlockFuse) (path : Str) : Prop :=
  ((mkdirValid env s.fuel path).run (handler true) s).result = .ok none

/-- All that `mkdir_valid` asks the block manager for are keys of its map. -/
def AsksForKeys (env : Env) (s : BlockFuse) (path : Str) : Prop :=
  (mkdirValid env s.fuel path).EveryCall (handler true) Mapped s

/-- **Where `mkdir` fails**, it is because the path is rejected, and it has done nothing else. -/
theorem exec_mkdir_failed_iff {now : Int64} {path : Str} {mode : ModeT} :
    (∃ reply, exec env k s (now, .mkdir path mode) = .returned reply s' ∧ reply.status ≠ 0) ↔
      Rejects env s path ∧ ((mkdirValid env s.fuel path).run (handler true) s).state = s' := by
  have hvalid := run_handler_eq (only_mkdirValid s.fuel env path) k true s
  rw [Rejects, exec, program, mkdir, Program.run_bind, Program.run_bind, hvalid]
  cases hrun : (mkdirValid env s.fuel path).run (handler true) s with
  | halted e s₁ =>
    constructor
    · rintro ⟨reply, hreply, -⟩
      cases hreply
    · rintro ⟨hrejects, -⟩
      cases hrejects
  | returned valid s₁ =>
    cases valid with
    | none =>
      constructor
      · rintro ⟨reply, hreply, -⟩
        exact ⟨rfl, (Outcome.returned.inj hreply).2⟩
      · rintro ⟨-, rfl⟩
        exact ⟨{ status := 1 }, rfl, by decide⟩
    | some accepted =>
      obtain ⟨blocks, dirToMake⟩ := accepted
      constructor
      · rintro ⟨reply, hreply, hstatus⟩
        obtain ⟨status, s₂, hmade, hlast⟩ := Outcome.bind_eq_returned.mp hreply
        obtain rfl : { status } = reply := (Outcome.returned.inj hlast).1
        simp only [Outcome.bind_returned, Program.run_bind] at hmade
        obtain ⟨bits, s₃, -, hmade⟩ := Outcome.bind_eq_returned.mp hmade
        obtain ⟨made, s₄, -, hmade⟩ := Outcome.bind_eq_returned.mp hmade
        obtain ⟨_, s₅, -, hmade⟩ := Outcome.bind_eq_returned.mp hmade
        exact absurd (Outcome.returned.inj hmade).1.symm hstatus
      · rintro ⟨hrejects, -⟩
        cases hrejects

/-- Where all blocks of the tree are stored, nothing is missing. -/
theorem Good.asksForKeys {t : Inodes} {garbage : Multiset Block} (h : Good s t garbage) (env : Env)
    {path : Str} (hpath : path ≠ []) : AsksForKeys env s path := by
  refine (state_run_eq_iff (only_mkdirValid s.fuel env path)).mp ?_
  rw [h.run_mkdirValid env hpath, Outcome.state_returned]

end BlockFuse

namespace RevertibleBlockFuse

open BlockFuse (Call Reply Rejects AsksForKeys mkdirValid handler state_run_eq_iff
  exec_mkdir_failed_iff only_mkdirValid)

variable {s s' : RevertibleBlockFuse} {env : Env} {unreturned : Int32} {path : Str}

/-- The call is a `mkdir` that returns, and does not return `0`. -/
def MkdirFails (env : Env) (unreturned : Int32) (s : RevertibleBlockFuse) (call : Int64 × Call)
    (s' : RevertibleBlockFuse) : Prop :=
  ∃ path mode reply, call.2 = .mkdir path mode ∧
    exec env unreturned s call = .returned reply s' ∧ reply.status ≠ 0

/-- If the call is a `mkdir` that fails, it leaves the checkpoints, the request for one, the root
and the stored blocks. -/
def FailsCleanly (env : Env) (unreturned : Int32) (s : RevertibleBlockFuse)
    (call : Int64 × Call) : Prop := ∀ s', MkdirFails env unreturned s call s' → s' = s

/-- Where `mkdir_valid` rejects the path, it asks for nothing that is missing; and a path with the
sentinel has the present root as its restore point already. -/
def Harmless (env : Env) (s : RevertibleBlockFuse) : Call → Prop
  | .mkdir path _ => Rejects env s.fuse path → AsksForKeys env s.fuse path ∧
      (revertDirSentinel <+: path →
        s.checkpointRequested = true ∧ s.checkpoints path = some s.fuse.rootBlock)
  | _ => True

/-- `path` is touched by nothing but a `mkdir` that fails. -/
def TouchedByFailures (env : Env) (unreturned : Int32) (path : Str) (s : RevertibleBlockFuse)
    (call : Int64 × Call) : Prop := Touches path call.2 → ∃ s', MkdirFails env unreturned s call s'

/-- In a run from `s`, every `mkdir` that fails leaves everything as it was. So a restore point
stays while its path is touched by nothing else, and where there was none, `rmdir` does not go
back. -/
structure MkdirsFailCleanly (env : Env) (unreturned : Int32) (s : RevertibleBlockFuse)
    (calls : List (Int64 × Call)) : Prop where
  unchanged : Run.EveryStep (step env unreturned) (FailsCleanly env unreturned) s calls
  kept : ∀ path before between after, calls = before ++ (between ++ after) →
    let s₁ := before.foldl (step env unreturned) s
    let s₂ := between.foldl (step env unreturned) s₁
    Run.EveryStep (step env unreturned) (TouchedByFailures env unreturned path) s₁ between →
    s₂.checkpoints path = s₁.checkpoints path ∧ (s₁.checkpoints path = none → ∀ now,
      exec env unreturned s₂ (now, .rmdir path) = base env s₂ (now, .rmdir path))

/-! ## One call -/

/-- What is recorded before the directory is made. -/
def recorded (s : RevertibleBlockFuse) (path : Str) : RevertibleBlockFuse :=
  if revertDirSentinel <+: path then s.checkpoint path else s

theorem fuse_recorded (s : RevertibleBlockFuse) (path : Str) : (s.recorded path).fuse = s.fuse := by
  rw [recorded]
  split <;> rfl

theorem recorded_eq_iff : s.recorded path = s ↔ (revertDirSentinel <+: path →
    s.checkpointRequested = true ∧ s.checkpoints path = some s.fuse.rootBlock) := by
  rw [recorded]
  split
  · case isTrue hsentinel =>
    constructor
    · intro hsame _
      have hrequested := congrArg RevertibleBlockFuse.checkpointRequested hsame
      have hcheckpoints := congrArg RevertibleBlockFuse.checkpoints hsame
      exact ⟨hrequested.symm, (Function.update_eq_self_iff.mp hcheckpoints).symm⟩
    · intro hrecorded
      obtain ⟨hrequested, hpoint⟩ := hrecorded hsentinel
      rw [checkpoint, ← hpoint, Function.update_eq_self, ← hrequested]
  · case isFalse hsentinel => exact iff_of_true rfl fun h => absurd h hsentinel

theorem exec_mkdir (now : Int64) (mode : ModeT) : exec env unreturned s (now, .mkdir path mode) =
    (s.recorded path).base env (now, .mkdir path mode) := by
  rw [recorded]
  split
  · case isTrue hsentinel => exact if_pos hsentinel
  · case isFalse hsentinel => exact if_neg hsentinel

/-- The state after a `mkdir` that fails. -/
theorem mkdirFails_iff {now : Int64} {mode : ModeT} :
    MkdirFails env unreturned s (now, .mkdir path mode) s' ↔ Rejects env s.fuse path ∧
      s' = { s.recorded path with
        fuse := ((mkdirValid env s.fuse.fuel path).run (handler true) s.fuse).state } := by
  rw [← fuse_recorded s path]
  constructor
  · rintro ⟨path', mode', reply, hcall, hreply, hstatus⟩
    rw [exec_mkdir, base] at hreply
    cases hrun : BlockFuse.exec env (s.recorded path).checkpointRequested (s.recorded path).fuse
        (now, .mkdir path mode) with
    | halted e fuse =>
      rw [hrun] at hreply
      cases hreply
    | returned reply' fuse =>
      rw [hrun] at hreply
      obtain ⟨rfl, rfl⟩ := Outcome.returned.inj hreply
      obtain ⟨hrejects, hstate⟩ := exec_mkdir_failed_iff.mp ⟨_, hrun, hstatus⟩
      exact ⟨hrejects, by rw [hstate]⟩
  · rintro ⟨hrejects, rfl⟩
    obtain ⟨reply, hreply, hstatus⟩ := exec_mkdir_failed_iff.mpr ⟨hrejects, rfl⟩
    refine ⟨path, mode, reply, rfl, ?_, hstatus⟩
    rw [exec_mkdir, base, hreply]
    rfl

/-- **A `mkdir` that fails changes nothing** if and only if it is harmless. -/
theorem failsCleanly_iff {call : Int64 × Call} :
    FailsCleanly env unreturned s call ↔ Harmless env s call.2 := by
  obtain ⟨now, call⟩ := call
  by_cases hmkdir : ∃ path mode, call = .mkdir path mode
  · obtain ⟨path, mode, rfl⟩ := hmkdir
    rw [FailsCleanly, Harmless, AsksForKeys, ← state_run_eq_iff (only_mkdirValid _ env path),
      ← recorded_eq_iff]
    constructor
    · intro hclean hrejects
      have hsame := hclean _ (mkdirFails_iff.mpr ⟨hrejects, rfl⟩)
      have hfuse := congrArg RevertibleBlockFuse.fuse hsame
      dsimp only at hfuse hsame
      refine ⟨hfuse, ?_⟩
      rw [hfuse, ← fuse_recorded s path] at hsame
      exact hsame
    · rintro hharmless s' hfails
      obtain ⟨hrejects, rfl⟩ := mkdirFails_iff.mp hfails
      obtain ⟨hfuse, hrecorded⟩ := hharmless hrejects
      rw [hfuse, hrecorded]
  · refine iff_of_true ?_ ?_
    · rintro s' ⟨path, mode, -, hcall, -⟩
      exact absurd ⟨path, mode, hcall⟩ hmkdir
    · cases call with
      | mkdir path mode => exact absurd ⟨path, mode, rfl⟩ hmkdir
      | _ => trivial

/-- Where no checkpoint has lost a block, it is only the restore point that a failure may change. -/
theorem Tracks.harmless_mkdir_iff {t : Inodes} {garbage : Multiset Block}
    {trees : Str → Option Inodes} (h : Tracks s t garbage trees) (hpath : path ≠ [])
    (mode : ModeT) : Harmless env s (.mkdir path mode) ↔ (Rejects env s.fuse path →
      revertDirSentinel <+: path →
        s.checkpointRequested = true ∧ s.checkpoints path = some s.fuse.rootBlock) := by
  rw [Harmless]
  simp only [h.good.asksForKeys env hpath, true_and]

/-! ## Runs -/

/-- Other calls leave the restore point of a path. -/
theorem checkpoints_step_of_not_touches {call : Int64 × Call} (htouches : ¬ Touches path call.2) :
    (step env unreturned s call).checkpoints path = s.checkpoints path := by
  have hbase : ∀ s' : RevertibleBlockFuse,
      (base env s' call).state.checkpoints = s'.checkpoints := by
    intro s'
    rw [base, Outcome.state_mapState]
  have hrmdir : ∀ p : Str, path ≠ p →
      (s.checkpoints p = none → exec env unreturned s call = base env s call) →
      (∀ root, s.checkpoints p = some root →
        exec env unreturned s call = .returned { status := unreturned } (s.revert p root)) →
      (step env unreturned s call).checkpoints path = s.checkpoints path := by
    intro p hne hplain hreverts
    rw [step]
    cases hp : s.checkpoints p with
    | none => rw [hplain hp, hbase]
    | some root =>
      rw [hreverts root hp]
      exact Function.update_of_ne hne ..
  obtain ⟨now, call⟩ := call
  cases call with
  | mkdir p mode =>
    rw [step, exec_mkdir, hbase, recorded]
    split
    · exact Function.update_of_ne (Ne.symm htouches) ..
    · rfl
  | rmdir p =>
    refine hrmdir p (Ne.symm htouches) (fun hp => ?_) fun root hp => ?_
    · simp only [exec, hp]
    · simp only [exec, hp]
  | unlink p =>
    refine hrmdir p (Ne.symm htouches) (fun hp => ?_) fun root hp => ?_
    · simp only [exec, hp]
    · simp only [exec, hp]
  | getattr p => exact congrFun (hbase s) path
  | readdir p filler => exact congrFun (hbase s) path
  | read p size offset => exact congrFun (hbase s) path
  | write p buffer offset => exact congrFun (hbase s) path
  | create p mode => exact congrFun (hbase s) path

/-- A restore point that is touched by nothing but failures. -/
theorem checkpoints_foldl {calls : List (Int64 × Call)}
    (hclean : Run.EveryStep (step env unreturned) (FailsCleanly env unreturned) s calls)
    (htouched : Run.EveryStep (step env unreturned) (TouchedByFailures env unreturned path) s
      calls) :
    (calls.foldl (step env unreturned) s).checkpoints path = s.checkpoints path := by
  refine (hclean.and htouched).invariant (I := fun s' => s'.checkpoints path = s.checkpoints path)
    rfl fun s' call hs' hcall => ?_
  obtain ⟨hclean, htouched⟩ := hcall
  by_cases htouches : Touches path call.2
  · obtain ⟨s'', hfails⟩ := htouched htouches
    obtain rfl := hclean s'' hfails
    obtain ⟨-, -, reply, -, hreply, -⟩ := hfails
    rw [step, hreply]
    exact hs'
  · rw [checkpoints_step_of_not_touches htouches]
    exact hs'

/-- **In every run, a `mkdir` that fails changes nothing** if and only if each that is rejected asks
for nothing that is missing, and overwrites no restore point by another one. -/
theorem mkdirsFailCleanly_iff (env : Env) (unreturned : Int32) (start : Int64)
    (calls : List (Int64 × Call)) :
    MkdirsFailCleanly env unreturned (new env start) calls ↔
      Run.EveryStep (step env unreturned) (fun s call => Harmless env s call.2) (new env start)
        calls := by
  constructor
  · intro hclean
    exact hclean.unchanged.imp fun _ _ => failsCleanly_iff.mp
  · intro hharmless
    have hclean : Run.EveryStep (step env unreturned) (FailsCleanly env unreturned)
        (new env start) calls := hharmless.imp fun _ _ => failsCleanly_iff.mpr
    refine ⟨hclean, ?_⟩
    rintro path before between after rfl s₁ s₂ htouched
    have hbetween := ((Run.EveryStep.append_iff _ _ _).mp
      ((Run.EveryStep.append_iff _ _ _).mp hclean).2).1
    have hkept : s₂.checkpoints path = s₁.checkpoints path := checkpoints_foldl hbetween htouched
    refine ⟨hkept, fun hnone now => ?_⟩
    rw [hnone] at hkept
    rw [exec]
    simp only [hkept]

/-! ## A restore point that is overwritten -/

open BlockFuse (plainEnv below)

/-- A checkpoint is taken, and a file made after it. -/
def fileAfter : List (Int64 × Call) :=
  [(0, .mkdir (checkpointAt 0x31) 0o755), (1, .create (below 0x61) 0o100644)]

/-- A directory with two subdirectories is removed, one of them before it, and brought back. The
other one has been freed. -/
def halfCleared : List (Int64 × Call) :=
  [(0, .mkdir (below 0x62) 0o755), (1, .mkdir (below 0x62 ++ below 0x63) 0o755),
    (2, .mkdir (below 0x62 ++ below 0x64) 0o755), (3, .mkdir (checkpointAt 0x31) 0o755),
    (4, .rmdir (below 0x62 ++ below 0x63)), (5, .rmdir (below 0x62)),
    (6, .rmdir (checkpointAt 0x31))]

/-- **A second `mkdir` fails and overwrites the restore point**: going back to it does not take away
the file. And a `mkdir` of the subdirectory that is still there puts a null pointer into the map. -/
theorem restore_point_overwritten :
    (let s := fileAfter.foldl (step plainEnv 0) (new plainEnv 0)
      let made := exec plainEnv 0 s (2, .mkdir (checkpointAt 0x31) 0o755)
      made.result = .ok { status := 1 } ∧
      s.checkpoints (checkpointAt 0x31) = some (BlockFuse.new plainEnv 0).rootBlock ∧
      made.state.checkpoints (checkpointAt 0x31) = some s.fuse.rootBlock ∧
      s.fuse.rootBlock ≠ (BlockFuse.new plainEnv 0).rootBlock ∧
      ((exec plainEnv 0 (step plainEnv 0 made.state (3, .rmdir (checkpointAt 0x31)))
        (4, .getattr (below 0x61))).result.map Reply.status) = .ok 0) ∧
    (let s := halfCleared.foldl (step plainEnv 0) (new plainEnv 0)
      let made := exec plainEnv 0 s (7, .mkdir (below 0x62 ++ below 0x63) 0o755)
      made.result = .ok { status := 1 } ∧
      s.fuse.manager.map 7 = none ∧ made.state.fuse.manager.map 7 = some none) := by
  decide +kernel

end RevertibleBlockFuse

end Pingfs
