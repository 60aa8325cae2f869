import Pingfs.Fs.Runs

/-!
# Running out of ids

Ids are never used again, so a file system can only be changed so often. Making a directory below
the root takes two ids and removing it one; `lastId` is the state after some directories were made
and one of them made and removed until a single id is left. The next `mkdir` creates the block of
the new directory and then fails to replace the root.

## Main results

* `lastId_represents` — the state with one id left is an ordinary one
* `Represents.mkdir_of_last` — `mkdir` throws in such a state, and leaves a block behind
-/

namespace Pingfs

namespace BlockFuse

open Zipper

variable {s : BlockFuse} {n : Namespace} {env : Env} {now : Int64}

/-- Making a directory below the root. -/
theorem Represents.mkdir_root (h : Represents s n) (env : Env) (now : Int64) {path : Str}
    (hpath : path ≠ []) (hnone : n.resolve path = none)
    (hparent : FsUtil.parentPath path = FsUtil.separator) (bits : ModeT) :
    ∃ t, Good s t 0 ∧ t.entries = n ∧
      (exec env false s (now, .mkdir path bits)).Meets
        (fun _ s' => s'.idsUsed = s.idsUsed + 2)
        (OutOfIds s t.blocks 2) := by
  obtain ⟨t, hgood, rfl⟩ := h
  refine ⟨t, hgood, rfl, ?_⟩
  rw [t.resolve_entries, Option.map_eq_none_iff] at hnone
  have htop : t.resolve (FsUtil.parentPath path) = some (top t.1 t.2) := by
    rw [hparent]
    rfl
  have hmeets := hgood.mkdir_meets (k := false) env now hpath hnone htop (Mode.ofModeT_or_dir bits)
  rw [add_zero] at hmeets
  rw [exec, program, Program.run_bind]
  exact hmeets.bind (fun _ _ h => h) fun _ _ hpost => hpost.2.2

/-- Removing what is below the root. -/
theorem Represents.rmdir_root (h : Represents s n) (env : Env) (now : Int64) {path : Str}
    (hpath : path ≠ []) {e : Entry} {kids : Forest Entry} {f : Frame Entry}
    (hz : n.resolve path = some ⟨e, kids, [f]⟩) :
    ∃ t, Good s t 0 ∧ t.entries = n ∧
      (exec env false s (now, .rmdir path)).Meets
        (fun _ s' => s'.idsUsed = s.idsUsed + 1)
        (OutOfIds s t.blocks 1) := by
  obtain ⟨t, hgood, rfl⟩ := h
  refine ⟨t, hgood, rfl, ?_⟩
  rw [t.resolve_entries, Option.map_eq_some_iff] at hz
  obtain ⟨⟨a, akids, frames⟩, hz, hmap⟩ := hz
  obtain ⟨f, rfl⟩ : ∃ f, frames = [f] := by
    rw [← List.length_eq_one_iff, ← List.length_map (mapFrame Node.entry)]
    exact congrArg (fun z => z.frames.length) hmap
  have hmeets := hgood.rmdir_meets (k := false) hpath hz
  rw [add_zero] at hmeets
  rw [exec, program, Program.run_bind]
  exact hmeets.bind (fun _ _ h => h) fun _ _ hpost => hpost.2.2

/-- While there are enough ids, such a call takes its ids and does what it should. -/
theorem Represents.step_of_meets {t : Inodes} (h : Represents s n) {call : Int64 × Call} {need : ℕ}
    (hmeets : (exec env false s call).Meets (fun _ s' => s'.idsUsed = s.idsUsed + need)
      (OutOfIds s t.blocks need)) (hids : s.idsUsed + need < 2 ^ 64) :
    Represents (step env false s call) (n.step env storedContents call) ∧
      (step env false s call).idsUsed = s.idsUsed + need := by
  cases hexec : exec env false s call with
  | returned reply s' =>
    rw [hexec] at hmeets
    have hnot : ¬ RanOut env false s call := by simp [RanOut, hexec]
    refine ⟨(h.step_refines hnot).2, ?_⟩
    rwa [step, hexec]
  | halted e s' =>
    rw [hexec] at hmeets
    have hshort := hmeets.short
    omega

/-- With one id left, `mkdir` creates the block of the new directory and then throws. -/
theorem Represents.mkdir_of_last (h : Represents s n) (hlast : s.idsUsed + 2 = 2 ^ 64)
    (env : Env) (now : Int64) {path : Str} (hpath : path ≠ []) (hnone : n.resolve path = none)
    (hparent : FsUtil.parentPath path = FsUtil.separator) (bits : ModeT) :
    ∃ t s' b, Good s t 0 ∧ exec env false s (now, .mkdir path bits) = .halted exhausted s' ∧
      Grown s t.blocks {b} s' := by
  obtain ⟨t, hgood, -, hmeets⟩ := h.mkdir_root env now hpath hnone hparent bits
  cases hexec : exec env false s (now, .mkdir path bits) with
  | returned reply s' =>
    rw [hexec] at hmeets
    have hlt := s'.idsUsed_lt
    have hused : s'.idsUsed = s.idsUsed + 2 := hmeets
    omega
  | halted e s' =>
    rw [hexec] at hmeets
    obtain ⟨rfl, -, created, hgrown, hlastUsed⟩ := hmeets
    have hcard := hgrown.idsUsed_eq
    obtain ⟨b, rfl⟩ := Multiset.card_eq_one.mp (show created.card = 1 by omega)
    exact ⟨t, s', b, hgood, rfl, hgrown⟩

/-! ## The state with one id left -/

/-- Make the directory `/a` and remove it. -/
def makeAndRemove : List (Int64 × Call) :=
  [(0, .mkdir (below 0x61) 0o755), (0, .rmdir (below 0x61))]

/-- How often three ids have to be taken after the first five. -/
def rounds : ℕ := 6148914691236517203

/-- The calls that leave a single id: the directories `/b` and `/c` are made, then `/a` is made and
removed many times. -/
def callsToLastId : List (Int64 × Call) :=
  (0, .mkdir (below 0x62) 0o755) :: (0, .mkdir (below 0x63) 0o755) ::
    (List.replicate rounds makeAndRemove).flatten

/-- One more directory. -/
def exhaustingCalls : List (Int64 × Call) := callsToLastId ++ [(0, .mkdir (below 0x61) 0o755)]

/-- All their paths begin with the separator. -/
theorem head?_of_mem_exhaustingCalls {call : Int64 × Call} (h : call ∈ exhaustingCalls) :
    call.2.path.head? = some FsUtil.slash := by
  rw [exhaustingCalls, callsToLastId, List.cons_append, List.cons_append] at h
  simp only [List.mem_cons, List.mem_append, List.mem_flatten, List.not_mem_nil, or_false] at h
  rcases h with rfl | rfl | ⟨round, hround, hcall⟩ | rfl
  · rfl
  · rfl
  · rw [List.eq_of_mem_replicate hround, makeAndRemove] at hcall
    rcases List.mem_pair.mp hcall with rfl | rfl <;> rfl
  · rfl

/-- The state after the calls that leave a single id. -/
def lastId : BlockFuse := callsToLastId.foldl (step plainEnv false) (new plainEnv 0)

/-- Its namespace: `/b` and `/c`. -/
def lastNamespace : Namespace :=
  [(0, Call.mkdir (below 0x62) 0o755), (0, Call.mkdir (below 0x63) 0o755)].foldl
    (Namespace.step plainEnv storedContents) (.new plainEnv 0)

theorem Represents.mkdir_below (h : Represents s n) (x : UInt8)
    (hnone : n.resolve (below x) = none) (hparent : FsUtil.parentPath (below x) = FsUtil.separator)
    (hids : s.idsUsed + 2 < 2 ^ 64) :
    Represents (step plainEnv false s (0, .mkdir (below x) 0o755))
        (n.step plainEnv storedContents (0, .mkdir (below x) 0o755)) ∧
      (step plainEnv false s (0, .mkdir (below x) 0o755)).idsUsed = s.idsUsed + 2 := by
  obtain ⟨t, -, -, hmeets⟩ := h.mkdir_root plainEnv 0 (List.cons_ne_nil _ _)
    hnone hparent 0o755
  exact h.step_of_meets hmeets hids

theorem Represents.rmdir_below (h : Represents s n) (x : UInt8) {e : Entry} {kids : Forest Entry}
    {f : Frame Entry} (hz : n.resolve (below x) = some ⟨e, kids, [f]⟩)
    (hids : s.idsUsed + 1 < 2 ^ 64) :
    Represents (step plainEnv false s (0, .rmdir (below x)))
        (n.step plainEnv storedContents (0, .rmdir (below x))) ∧
      (step plainEnv false s (0, .rmdir (below x))).idsUsed = s.idsUsed + 1 := by
  obtain ⟨t, -, -, hmeets⟩ := h.rmdir_root plainEnv 0 (List.cons_ne_nil _ _) hz
  exact h.step_of_meets hmeets hids

/-- The directory `/a` can be made, and nothing is left of it when it is removed. -/
structure Cycles (n : Namespace) : Prop where
  absent : n.resolve (below 0x61) = none
  made : ∃ e kids f, (n.step plainEnv storedContents (0, .mkdir (below 0x61) 0o755)).resolve
    (below 0x61) = some ⟨e, kids, [f]⟩
  removed : (n.step plainEnv storedContents (0, .mkdir (below 0x61) 0o755)).step plainEnv
    storedContents (0, .rmdir (below 0x61)) = n

/-- One round takes three ids and changes nothing else. -/
theorem Represents.makeAndRemove (h : Represents s n) (hn : Cycles n)
    (hids : s.idsUsed + 3 < 2 ^ 64) :
    Represents (makeAndRemove.foldl (step plainEnv false) s) n ∧
      (makeAndRemove.foldl (step plainEnv false) s).idsUsed = s.idsUsed + 3 := by
  obtain ⟨hmade, hused⟩ := h.mkdir_below 0x61 hn.absent rfl (by omega)
  obtain ⟨e, kids, f, hz⟩ := hn.made
  obtain ⟨hremoved, hused'⟩ := hmade.rmdir_below 0x61 hz (by omega)
  rw [hn.removed] at hremoved
  rw [BlockFuse.makeAndRemove, List.foldl_cons, List.foldl_cons, List.foldl_nil]
  exact ⟨hremoved, by rw [hused', hused]⟩

theorem Represents.rounds (h : Represents s n) (hn : Cycles n) (k : ℕ)
    (hids : s.idsUsed + 3 * k < 2 ^ 64) :
    Represents
        ((List.replicate k BlockFuse.makeAndRemove).flatten.foldl (step plainEnv false) s) n ∧
      ((List.replicate k BlockFuse.makeAndRemove).flatten.foldl (step plainEnv false) s).idsUsed =
        s.idsUsed + 3 * k := by
  induction k generalizing s with
  | zero => exact ⟨h, rfl⟩
  | succ k ih =>
    obtain ⟨hround, hused⟩ := h.makeAndRemove hn (by omega)
    obtain ⟨hrest, hused'⟩ := ih hround (by omega)
    rw [List.replicate_succ, List.flatten_cons, List.foldl_append]
    exact ⟨hrest, by omega⟩

theorem cycles_lastNamespace : Cycles lastNamespace := ⟨rfl, ⟨_, _, _, rfl⟩, by decide⟩

/-- **One id is left**, and otherwise nothing is unusual. -/
theorem lastId_represents : Represents lastId lastNamespace ∧ lastId.idsUsed + 2 = 2 ^ 64 := by
  obtain ⟨h₁, hused₁⟩ := (represents_new plainEnv 0).mkdir_below 0x62 rfl rfl (by decide)
  obtain ⟨h₂, hused₂⟩ := h₁.mkdir_below 0x63 rfl rfl (by rw [hused₁]; decide)
  have hused : (step plainEnv false (step plainEnv false (new plainEnv 0)
      (0, .mkdir (below 0x62) 0o755)) (0, .mkdir (below 0x63) 0o755)).idsUsed = 5 := by
    rw [hused₂, hused₁]
    rfl
  rw [hused₂] at hused
  obtain ⟨h₃, hused₃⟩ := h₂.rounds cycles_lastNamespace BlockFuse.rounds
    (by unfold BlockFuse.rounds; omega)
  rw [lastId, callsToLastId, List.foldl_cons, List.foldl_cons]
  exact ⟨h₃, by rw [hused₃, hused₂, hused]; rfl⟩

/-! ## A write without ids

A `write` has freed the old contents of the file when it finds that there are no ids for the new
ones. -/

/-- When no id is left, a `write` throws, and what was below the file is gone. -/
theorem Good.write_exhausted {t : Inodes} (h : Good s t 0) (hlast : s.idsUsed + 1 = 2 ^ 64)
    (env : Env) (now : Int64) {path : Str} (hpath : path ≠ []) {z : Zipper Node}
    (hz : t.resolve path = some z) (hfile : z.label.stat.isDir = false) (buffer : Bytes) :
    ∃ s', exec env false s (now, .write path buffer 0) = .halted exhausted s' ∧
      s'.rootBlock = s.rootBlock ∧ Stores s' (pathBlocks z + beside z.frames) := by
  have hmeets := h.write_meets (k := false) env now hpath hz hfile buffer
    (show (0 : Int64).toUInt64.toNat ≤ z.label.data.contents.length from Nat.zero_le _)
  rw [exec, program, Program.run_bind]
  cases hrun : (write env s.fuel now path buffer 0).run (handler false) s with
  | returned status s' =>
    rw [hrun] at hmeets
    obtain ⟨-, made, -, hmade, -, -, -, -, hused⟩ := hmeets
    have hlt := s'.idsUsed_lt
    omega
  | halted e s' =>
    rw [hrun] at hmeets
    obtain ⟨s₁, hkeeps, hout⟩ := hmeets
    obtain ⟨created, hgrown, hlast'⟩ := hout.grown
    have hcard := hgrown.idsUsed_eq
    rw [hkeeps.idsUsed_eq] at hcard
    obtain rfl : created = 0 := Multiset.card_eq_zero.mp (by omega)
    have hstores := hgrown.stores
    rw [zero_add, add_zero] at hstores
    exact ⟨s', by rw [hout.threw, Outcome.bind_halted],
      hgrown.rootBlock_eq.trans hkeeps.rootBlock_eq, hstores⟩

/-- The file `/b` is made, and a byte written to it. -/
def fileCalls : List (Int64 × Call) :=
  [(0, .create (below 0x62) 0o100644), (0, .write (below 0x62) [1] 0)]

/-- The namespace after these calls. -/
def fileNamespace : Namespace :=
  fileCalls.foldl (Namespace.step plainEnv storedContents) (.new plainEnv 0)

/-- Then the other ids are used up. -/
def callsToNoIds : List (Int64 × Call) :=
  fileCalls ++ (List.replicate rounds makeAndRemove).flatten

/-- The state after these calls. -/
def noIds : BlockFuse := callsToNoIds.foldl (step plainEnv false) (new plainEnv 0)

theorem cycles_fileNamespace : Cycles fileNamespace := ⟨by decide, ⟨_, _, _, rfl⟩, by decide⟩

/-- **No id is left**, and otherwise nothing is unusual. -/
theorem noIds_represents : Represents noIds fileNamespace ∧ noIds.idsUsed + 1 = 2 ^ 64 := by
  have hfile := (represents_new plainEnv 0).run_refines
    (show NeverRunsOut plainEnv (new plainEnv 0) fileCalls by decide +kernel)
  have hused : (fileCalls.foldl (step plainEnv false) (new plainEnv 0)).idsUsed = 6 := by
    decide +kernel
  obtain ⟨hrounds, hused'⟩ := hfile.rounds cycles_fileNamespace BlockFuse.rounds
    (by rw [hused]; unfold BlockFuse.rounds; omega)
  rw [noIds, callsToNoIds, List.foldl_append]
  exact ⟨hrounds, by rw [hused', hused]; rfl⟩

end BlockFuse

end Pingfs
