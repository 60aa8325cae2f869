import Pingfs.Fs.Races
import Pingfs.Fs.Runs
import Pingfs.Fs.Snapshots

/-!
# Queries while a file system changes

One thread makes any calls, the others make queries. The thread that makes the calls sets the root
once in a call, when all that is below the new root is there, and only frees blocks after that. So
at any moment the root is that of the state before the call that is going on, or of the state after
it, and what is left of the blocks of that state is as it was: a query that starts then reads that
state, or follows a null pointer where a block of it is gone.

Source: `block_fuse.cc`; the order of `create_block`, the assignment to `root_block_` and the frees.

## Main results

* `closes_program` — what an operation does once it has set the root
* `Server.Writes.exists_snapshot` — the state whose root a query sees
* `Server.queries_read_snapshots` — what a query returns
-/

namespace Pingfs

namespace BlockFuse

open FsM BlockUtil

variable {s : BlockFuse} {env : Env}

/-! ## The end of an operation -/

/-- The operation has still to set the root, or only frees and reads. -/
abbrev Closes {α : Type} (p : FsM α) : Prop := p.Closes IsSet IsClosing

theorem IsRead.isClosing {call : FsCall} (h : IsRead call) : IsClosing call := by
  obtain rfl | ⟨ids, rfl⟩ := isRead_iff.mp h
  · exact ⟨fun h => h, fun h => h⟩
  · exact ⟨fun h => h, fun h => h⟩

theorem IsCreate.not_isSet {call : FsCall} (h : IsCreate call) : ¬ IsSet call := by
  obtain ⟨data, rfl⟩ := isCreate_iff.mp h
  exact fun h => h

theorem closes_of_reads {α : Type} {p : FsM α} (hp : p.Only IsRead) : Closes p :=
  Program.closes_of_only (hp.imp fun _ hread => hread.isClosing.1)

section

variable {α β : Type} {p : FsM α} {f : α → FsM β}

theorem closes_reads_bind (hp : p.Only IsRead) (hf : ∀ a, Closes (f a)) : Closes (p >>= f) :=
  Program.closes_bind_of_only (hp.imp fun _ hread => hread.isClosing.1) hf

theorem closes_creates_bind (hp : p.Only IsCreate) (hf : ∀ a, Closes (f a)) : Closes (p >>= f) :=
  Program.closes_bind_of_only (hp.imp fun _ hcreate => hcreate.not_isSet) hf

theorem closes_bind (hp : Closes p) (hf : ∀ a, (f a).Only IsClosing) : Closes (p >>= f) :=
  Program.Closes.bind hp (fun _ h => h.1) hf

theorem closes_ite {c : Prop} [Decidable c] {p q : FsM α} (hp : Closes p) (hq : Closes q) :
    Closes (if c then p else q) := by
  split
  · exact hp
  · exact hq

end

theorem closing_recursiveFree (fuel : ℕ) (b : Block) :
    (recursiveFreeChildrenBlocks fuel b).Only IsClosing :=
  only_recursiveFree fuel (fun _ => ⟨fun h => h, fun h => h⟩) (fun _ => ⟨fun h => h, fun h => h⟩) b

theorem closing_freeAll (blocks : List Block) : (BlockFuse.freeAll blocks).Only IsClosing :=
  only_forEach (fun _ => (Program.only_request _).mpr ⟨fun h => h, fun h => h⟩) blocks

theorem closes_replaceRoot (blocks chain : List Block)
    (childrenToRemove childrenToAdd : List BlockId) :
    Closes (replaceRoot blocks chain childrenToRemove childrenToAdd) :=
  closes_creates_bind (creates_replaceChain ..) fun _ =>
    closes_creates_bind (Program.only_ofExcept _) fun _ =>
      Or.inl ⟨trivial, fun _ => closing_freeAll blocks⟩

theorem closes_rmdir (fuel : ℕ) (path : Str) : Closes (rmdir fuel path) := by
  refine closes_reads_bind (only_getPath ..) fun blocks => ?_
  split
  · trivial
  · trivial
  · exact closes_reads_bind (Program.only_ofExcept _) fun _ =>
      closes_bind (closes_replaceRoot ..) fun _ =>
        Program.only_bind (closing_recursiveFree ..) fun _ => trivial

theorem closes_mkdir (env : Env) (fuel : ℕ) (now : Int64) (path : Str) (bits : ModeT) :
    Closes (mkdir env fuel now path bits) := by
  refine closes_reads_bind (only_mkdirValid ..) fun valid => ?_
  cases valid with
  | none => trivial
  | some found =>
    exact closes_reads_bind (Program.only_ofExcept _) fun _ =>
      closes_creates_bind (creates_createBlock _) fun _ =>
        closes_bind (closes_replaceRoot ..) fun _ => trivial

theorem closes_create (env : Env) (fuel : ℕ) (now : Int64) (path : Str) (bits : ModeT) :
    Closes (create env fuel now path bits) := by
  have hcheck : (getPath fuel path >>= fun updated =>
      assert (!updated.isEmpty) >>= fun _ => pure true : FsM Bool).Only IsRead :=
    Program.only_bind (only_getPath ..) fun _ => Program.only_bind (only_assert _) fun _ => trivial
  refine closes_reads_bind (only_getPath ..) fun _ => closes_ite trivial
    (closes_reads_bind (Program.only_ofExcept _) fun _ => closes_bind ?_ fun _ =>
      Program.only_ite trivial trivial)
  refine closes_reads_bind (only_getPath ..) fun _ => closes_ite trivial
    (closes_reads_bind (Program.only_ofExcept _) fun _ =>
      closes_reads_bind (Program.only_ofExcept _) fun _ =>
        closes_reads_bind (only_getPath ..) fun _ => closes_ite trivial
          (closes_creates_bind (creates_createBlock _) fun _ =>
            closes_bind (closes_replaceRoot ..) fun _ =>
              hcheck.imp fun _ hread => hread.isClosing))

/-- `write` frees the old contents before it sets the root. -/
theorem closes_write (env : Env) (fuel : ℕ) (now : Int64) (path : Str) (buffer : Bytes)
    (offset : Int64) : Closes (write env fuel now path buffer offset) := by
  refine closes_reads_bind (only_getPath ..) fun blocks => ?_
  cases blocks.getLast? with
  | none => trivial
  | some fileInode =>
    refine closes_reads_bind (Program.only_ofExcept _) fun data => closes_ite trivial
      (closes_reads_bind (only_readFileContents ..) fun contents => closes_ite trivial
        (Program.closes_bind_of_only ((closing_recursiveFree ..).imp fun _ h => h.1) fun _ =>
          closes_bind ?_ fun _ => trivial))
    refine closes_creates_bind (creates_assert _) fun _ => closes_creates_bind
      (Program.only_ite trivial (creates_replaceBlocksForContents ..)) fun ids => ?_
    split
    · trivial
    · exact closes_reads_bind (Program.only_ofExcept _) fun _ => closes_replaceRoot ..

/-- **Once an operation has set the root**, it creates no block and does not set it again. -/
theorem closes_program (env : Env) (fuel : ℕ) (now : Int64) (call : Call) :
    Closes (program env fuel now call) := by
  by_cases hquery : call.isQuery = true
  · exact closes_of_reads (only_program fuel hquery env now)
  cases call with
  | mkdir path mode => exact closes_bind (closes_mkdir ..) fun _ => trivial
  | rmdir path => exact closes_bind (closes_rmdir ..) fun _ => trivial
  | unlink path => exact closes_bind (closes_rmdir ..) fun _ => trivial
  | write path buffer offset => exact closes_bind (closes_write ..) fun _ => trivial
  | create path mode => exact closes_bind (closes_create ..) fun _ => trivial
  | getattr path => exact absurd rfl hquery
  | readdir path filler => exact absurd rfl hquery
  | read path size offset => exact absurd rfl hquery

/-! ## The thread that makes the calls -/

/-- The state after calls made one after the other. -/
abbrev after (env : Env) (s : BlockFuse) (calls : List (Int64 × Call)) : BlockFuse :=
  calls.foldl (step env false) s

/-- The last of `calls` is going on: the program `p` is left of it, in the state `c`. -/
structure Sequential (env : Env) (s : BlockFuse) (calls : List (Int64 × Call)) (p : FsM Reply)
    (c : BlockFuse) : Prop where
  state_eq : (p.run (handler false) c).state = after env s calls
  /-- It has still to set the root, or has done so. -/
  phase : Closes p ∧ c.rootBlock = (after env s calls.dropLast).rootBlock ∧
      Snapshot (after env s calls.dropLast) c ∨
    p.Only IsClosing

variable {calls : List (Int64 × Call)} {p : FsM Reply} {c : BlockFuse}

theorem Sequential.advance (h : Sequential env s calls p c) :
    Sequential env s calls (p.advance (handler false) c).1 (p.advance (handler false) c).2 := by
  refine ⟨by rw [Program.run_advance, h.state_eq], ?_⟩
  rcases h.phase with ⟨hcloses, hroot, hsnapshot⟩ | hclosing
  · cases p with
    | ret reply => exact Or.inl ⟨hcloses, hroot, hsnapshot⟩
    | halt e => exact Or.inl ⟨hcloses, hroot, hsnapshot⟩
    | call call next =>
      have hstate := hsnapshot.handler (k := false) call
      rw [Program.advance]
      rcases hcloses with ⟨hset, hnext⟩ | ⟨hset, hnext⟩
      · cases handler false call c with
        | returned r c' => exact Or.inr (hnext r)
        | halted e c' => exact Or.inr trivial
      · have hroot' := rootBlock_of_not_isSet hset c
        cases hreply : handler false call c with
        | returned r c' =>
          rw [hreply] at hstate hroot'
          exact Or.inl ⟨hnext r, hroot'.trans hroot, hstate⟩
        | halted e c' => exact Or.inr trivial
  · exact Or.inr (hclosing.advance c)

/-- The next call starts where the last one has ended. -/
theorem Sequential.start {blocks : Multiset Block} (hc : c = after env s calls)
    (hs : Stores c blocks) (call : Int64 × Call) :
    Sequential env s (calls ++ [call]) (program env c.fuel call.1 call.2) c := by
  subst hc
  have hafter : after env s (calls ++ [call]) = step env false (after env s calls) call :=
    List.foldl_append
  refine ⟨hafter.symm, Or.inl ⟨closes_program .., ?_⟩⟩
  rw [List.dropLast_concat]
  exact ⟨rfl, hs.snapshot⟩

namespace Server

variable {ι : Type} [DecidableEq ι] {writer : ι} {C : Server ι} {e : Event ι} {n : Namespace}

/-- The call that a thread starts. -/
def Event.callOf (who : ι) : Event ι → Option (Int64 × Call)
  | .start i call => if i = who then some call else none
  | .goOn _ => none

/-- The calls that a thread starts, in order. -/
def callsOf (who : ι) (events : List (Event ι)) : List (Int64 × Call) :=
  events.filterMap (Event.callOf who)

theorem Event.callOf_of_ne {who : ι} (hne : e.who ≠ who) : e.callOf who = none := by
  cases e with
  | start i call => exact if_neg hne
  | goOn i => rfl

omit [DecidableEq ι] in
theorem Idle.state_run_eq {who : ι} (h : C.Idle who) (c : BlockFuse) :
    ((C.programs who).run (handler false) c).state = c := by
  rw [Idle, result] at h
  cases hp : C.programs who with
  | ret reply => rfl
  | halt e => rfl
  | call call next =>
    rw [hp] at h
    cases h

/-- The thread `writer` is in the last of `calls`, on the file system without the null pointers that
the queries of others have left. -/
def Writes (env : Env) (s : BlockFuse) (writer : ι) (calls : List (Int64 × Call))
    (C : Server ι) : Prop :=
  ∃ c, EqUpToNull c C.state ∧ Sequential env s calls (C.programs writer) c

theorem Writes.step {blocks : Multiset Block} (h : Writes env s writer calls C)
    (hreading : Reading writer C) (he : C.Allowed writer e)
    (hs : Stores (after env s calls) blocks) :
    Writes env s writer (calls ++ (e.callOf writer).toList) (C.step env e) := by
  obtain ⟨c, hstate, hseq⟩ := h
  have hadvance : ∀ p : FsM Reply,
      (p.advance (handler false) C.state).1 = (p.advance (handler false) c).1 ∧
        EqUpToNull (p.advance (handler false) c).2 (p.advance (handler false) C.state).2 := fun p =>
    Program.advance_alike (fun call _ _ h => h.handler_alike (k := false) call) p hstate
  by_cases hwho : e.who = writer
  · subst hwho
    cases e with
    | start who call =>
      have hc : c = after env s calls := by
        rw [← hseq.state_eq]
        exact (Idle.state_run_eq he.1 c).symm
      have hnext := (Sequential.start hc (hc ▸ hs) call).advance
      rw [← hstate.fuel_eq] at hnext
      obtain ⟨hprogram, hstate'⟩ := hadvance (program env C.state.fuel call.1 call.2)
      refine ⟨((program env C.state.fuel call.1 call.2).advance (handler false) c).2, ?_, ?_⟩
      · rw [(step_start who call).2]
        exact hstate'
      · rw [Event.who, (step_start who call).1, hprogram, Event.callOf, if_pos rfl]
        exact hnext
    | goOn who =>
      obtain ⟨hprogram, hstate'⟩ := hadvance (C.programs who)
      refine ⟨_, hstate', ?_⟩
      rw [Event.who, (step_goOn who).1, hprogram, Event.callOf, Option.toList_none, List.append_nil]
      exact hseq.advance
  · refine ⟨c, hstate.trans (hreading.eqUpToNull_step he hwho), ?_⟩
    rw [programs_step_of_ne (Ne.symm hwho), Event.callOf_of_ne hwho, Option.toList_none,
      List.append_nil]
    exact hseq

theorem callsOf_cons (who : ι) (e : Event ι) (events : List (Event ι)) :
    callsOf who (e :: events) = (e.callOf who).toList ++ callsOf who events := by
  rw [callsOf, List.filterMap_cons]
  cases e.callOf who <;> rfl

/-- The part of a run of calls up to some point. -/
theorem neverRunsOut_left {calls more : List (Int64 × Call)}
    (h : NeverRunsOut env s (calls ++ more)) : NeverRunsOut env s calls :=
  ((Run.EveryStep.append_iff s calls more).mp h).1

theorem Writes.run {events : List (Event ι)} (hs : Represents s n)
    (h : Writes env s writer calls C) (hreading : Reading writer C)
    (horderly : Orderly env writer C events)
    (hids : NeverRunsOut env s (calls ++ callsOf writer events)) :
    Writes env s writer (calls ++ callsOf writer events) (C.run env events) := by
  induction events generalizing calls C with
  | nil => rwa [callsOf, List.filterMap_nil, List.append_nil]
  | cons e events ih =>
    obtain ⟨t, hgood, -⟩ := hs.run_refines (neverRunsOut_left hids)
    rw [callsOf_cons, ← List.append_assoc] at hids ⊢
    exact ih (h.step hreading horderly.1 hgood.stores) (hreading.step horderly.1) horderly.2 hids

omit [DecidableEq ι] in
/-- **The state whose root is there.** It is that after the calls that have ended, or after the one
that is going on too. -/
theorem Writes.exists_snapshot (hs : Represents s n) (h : Writes env s writer calls C)
    (hids : NeverRunsOut env s calls) :
    ∃ m, m ≤ calls.length ∧ calls.length ≤ m + 1 ∧ (C.Idle writer → m = calls.length) ∧
      C.state.rootBlock = (after env s (calls.take m)).rootBlock ∧
      Snapshot (after env s (calls.take m)) C.state := by
  obtain ⟨c, hstate, hseq⟩ := h
  obtain ⟨t, hgood, -⟩ := hs.run_refines hids
  -- the root of the last call
  have hended (hroot : c.rootBlock = (after env s calls).rootBlock)
      (hsnapshot : Snapshot (after env s calls) c) : ∃ m, m ≤ calls.length ∧
        calls.length ≤ m + 1 ∧ (C.Idle writer → m = calls.length) ∧
          C.state.rootBlock = (after env s (calls.take m)).rootBlock ∧
            Snapshot (after env s (calls.take m)) C.state := by
    refine ⟨calls.length, le_rfl, Nat.le_succ _, fun _ => rfl, ?_, ?_⟩
    · rw [List.take_length, hstate.rootBlock_eq, hroot]
    · rw [List.take_length]
      exact hsnapshot.shrinks hstate.shrinks
  by_cases hidle : C.Idle writer
  · have hc : c = after env s calls := by
      rw [← hseq.state_eq]
      exact (hidle.state_run_eq c).symm
    exact hended (by rw [hc]) (by rw [hc]; exact hgood.stores.snapshot)
  rcases hseq.phase with ⟨-, hroot, hsnapshot⟩ | hclosing
  · rw [List.dropLast_eq_take] at hroot hsnapshot
    refine ⟨calls.length - 1, Nat.sub_le .., by omega, fun h => absurd h hidle, ?_, ?_⟩
    · rw [hstate.rootBlock_eq, hroot]
    · exact hsnapshot.shrinks hstate.shrinks
  · have hshrinks := shrinks_run (k := false) hclosing c
    rw [hseq.state_eq] at hshrinks
    exact hended hshrinks.keeps.rootBlock_eq.symm (.of_shrinks hshrinks hgood.stores)

/-! ## The threads that make queries -/

/-- What every call keeps, every event keeps. -/
theorem step_keeps {I : BlockFuse → Prop} (hcall : ∀ call s, I s → I (handler false call s).state)
    (h : I C.state) (e : Event ι) : I (C.step env e).state := by
  have hadvance : ∀ p : FsM Reply, I (p.advance (handler false) C.state).2 := fun p =>
    (Program.only_true p).advance_state (fun call s _ hs => hcall call s hs) h
  cases e with
  | start who call =>
    rw [(step_start who call).2]
    exact hadvance _
  | goOn who => exact hadvance _

theorem run_keeps {I : BlockFuse → Prop} (hcall : ∀ call s, I s → I (handler false call s).state)
    (h : I C.state) (events : List (Event ι)) : I (C.run env events).state := by
  induction events generalizing C with
  | nil => exact h
  | cons e events ih => exact ih (step_keeps hcall h e)

/-- The query of a thread, however long it goes on beside a snapshot. -/
theorem queries_run {σ : BlockFuse} {blocks : Multiset Block} {result : Except Halt Reply}
    {gone : Prop} {who : ι} (hσ : Stores σ blocks) (hsnapshot : Snapshot σ C.state)
    (hquery : Queries gone σ result (C.programs who)) {events : List (Event ι)}
    (hstart : ∀ call, Event.start who call ∉ events)
    (hgone : Lost σ (C.run env events).state → gone) :
    Queries gone σ result ((C.run env events).programs who) := by
  induction events generalizing C with
  | nil => exact hquery
  | cons e events ih =>
    have hlost (h : Lost σ C.state) : gone :=
      hgone (run_keeps (I := fun s => Snapshot σ s ∧ Lost σ s)
        (fun call s h => ⟨h.1.handler call, h.2.handler h.1 call⟩) ⟨hsnapshot, h⟩
          (e :: events)).2
    refine ih (step_keeps (fun call s h => h.handler call) hsnapshot e) ?_
      (fun call hmem => hstart call (List.mem_cons_of_mem _ hmem)) hgone
    by_cases hwho : who = e.who
    · subst hwho
      cases e with
      | start who call => exact absurd (List.mem_cons_self ..) (hstart call)
      | goOn who =>
        rw [Event.who, (step_goOn who).1]
        exact hquery.advance hσ hsnapshot hlost
    · rwa [programs_step_of_ne hwho]

/-- A query that starts when the root is that of `σ`. -/
theorem result_run {σ : BlockFuse} {t : Inodes} (hσ : Good σ t 0)
    (hsnapshot : Snapshot σ C.state) (hroot : C.state.rootBlock = σ.rootBlock) {who : ι}
    {call : Int64 × Call} (hquery : call.2.isQuery = true) {later : List (Event ι)}
    (hlast : ∀ call, Event.start who call ∉ later) {C' : Server ι}
    (hrun : (C.step env (.start who call)).run env later = C') {r : Except Halt Reply}
    (hr : C'.result who = some r) :
    r = (exec env false σ call).result ∨ r = .error .nullDereference ∧ Lost σ C'.state := by
  have hgood := hsnapshot.good_withIds hσ
  have hfirst : Queries (Lost σ C'.state) (σ.withIds C.state) (exec env false σ call).result
      ((C.step env (.start who call)).programs who) := by
    rw [(step_start who call).1]
    exact hσ.queries_advance hsnapshot hroot env hquery
  have hsnapshot' : Snapshot (σ.withIds C.state) (C.step env (.start who call)).state :=
    step_keeps (fun call s h => h.handler call) hsnapshot.withIds (.start who call)
  have hend : Queries (Lost σ C'.state) (σ.withIds C.state) (exec env false σ call).result
      (((C.step env (.start who call)).run env later).programs who) :=
    queries_run hgood.stores hsnapshot' hfirst hlast fun h => hrun ▸ h
  rw [hrun] at hend
  rw [result] at hr
  cases hp : C'.programs who with
  | ret reply =>
    rw [hp] at hr hend
    obtain rfl := Option.some.inj hr
    exact Or.inl hend.of_ret.symm
  | halt e =>
    rw [hp] at hr hend
    obtain rfl := Option.some.inj hr
    rcases hend.of_halt with ⟨rfl, hlost⟩ | hresult
    · exact Or.inr ⟨rfl, hlost⟩
    · exact Or.inl hresult.symm
  | call call next =>
    rw [hp] at hr
    cases hr

/-- **A query reads a state between two calls.** A thread starts a query while `writer` makes its
calls. The query returns what it would return after the calls that have ended by then, or after
these and the one that is going on; if it does not, it has followed a null pointer, and a block of
that state is gone. -/
theorem queries_read_snapshots (hs : Represents s n) {before later : List (Event ι)} {who : ι}
    {call : Int64 × Call}
    (horderly : Orderly env writer (new s) (before ++ .start who call :: later))
    (hids : NeverRunsOut env s (callsOf writer (before ++ .start who call :: later)))
    (hwho : who ≠ writer) (hlast : ∀ call, Event.start who call ∉ later) :
    ∃ m, m ≤ (callsOf writer before).length ∧ (callsOf writer before).length ≤ m + 1 ∧
      (((new s).run env before).Idle writer → m = (callsOf writer before).length) ∧
      let σ := after env s ((callsOf writer before).take m)
      let C := (new s).run env (before ++ .start who call :: later)
      ∀ r, C.result who = some r →
        r = (exec env false σ call).result ∨ r = .error .nullDereference ∧ Lost σ C.state := by
  obtain ⟨hbefore, hstart, -⟩ := (Run.EveryStep.append_iff ..).mp horderly
  rw [callsOf, List.filterMap_append] at hids
  have hids : NeverRunsOut env s (callsOf writer before) := neverRunsOut_left hids
  have hstarted : Writes env s writer [] (new s) := ⟨s, .refl s, rfl, Or.inr trivial⟩
  have hwrites : Writes env s writer (callsOf writer before) ((new s).run env before) :=
    hstarted.run hs (reading_new s) hbefore hids
  obtain ⟨m, hle, hge, hidle, hroot, hsnapshot⟩ := hwrites.exists_snapshot hs hids
  refine ⟨m, hle, hge, hidle, ?_⟩
  rw [← List.take_append_drop m (callsOf writer before)] at hids
  obtain ⟨t, hgood, -⟩ := hs.run_refines (neverRunsOut_left hids)
  intro σ C r hr
  have hrun : ((new s).run env before).run env (.start who call :: later) = C :=
    List.foldl_append.symm
  exact result_run hgood hsnapshot hroot (hstart.2 hwho) hlast hrun hr

/-- The thread `true` makes a directory, the thread `false` looks at the root meanwhile. -/
theorem queries_read_snapshots_mkdir :
    let before : List (Event Bool) := [.start true (0, .mkdir (below 0x61) 0)]
    let later : List (Event Bool) := [.goOn true, .goOn true, .goOn false, .goOn true, .goOn true]
    ∃ m, m ≤ (callsOf true before).length ∧ (callsOf true before).length ≤ m + 1 ∧
      (((new (BlockFuse.new plainEnv 0)).run plainEnv before).Idle true →
        m = (callsOf true before).length) ∧
      let σ := after plainEnv (BlockFuse.new plainEnv 0) ((callsOf true before).take m)
      let C := (new (BlockFuse.new plainEnv 0)).run plainEnv
        (before ++ .start false (0, .getattr FsUtil.separator) :: later)
      ∀ r, C.result false = some r →
        r = (exec plainEnv false σ (0, .getattr FsUtil.separator)).result ∨
          r = .error .nullDereference ∧ Lost σ C.state :=
  queries_read_snapshots (represents_new plainEnv 0) (by decide) (by decide) (by decide) (by simp)

/-- A query that is on its way to `/a/b` when that directory is removed follows a null pointer. -/
example :
    let path : Str := below 0x61 ++ below 0x62
    let events : List (Event Bool) :=
      [.start true (0, .mkdir (below 0x61) 0)] ++ List.replicate 12 (.goOn true) ++
      [.start true (0, .mkdir path 0)] ++ List.replicate 16 (.goOn true) ++
      [.start false (0, .getattr path), .goOn false, .start true (0, .rmdir path)] ++
      List.replicate 12 (.goOn true) ++ [.goOn false]
    ((new (BlockFuse.new plainEnv 0)).run plainEnv events).result false =
      some (.error .nullDereference) := by decide +kernel

end Server

end BlockFuse

end Pingfs
