import Pingfs.Fs.OperationCalls
import Pingfs.Fs.Runs
import Pingfs.Lib.Simulation

/-!
# Requests of many threads

The file system is called from several threads. A thread starts a call when it has none, and goes on
with it one call to the block manager, or one look at the root, at a time; between two of these the
other threads make theirs. Each of these single calls is taken as one step.

Queries leave nothing behind but null pointers in the map of the manager, under ids whose blocks
are gone. `EqUpToNull` says that two states differ by no more than that. No thread notices it: what
a thread gets to see is what it would see without the queries of the others.

Sources: `block_fuse.cc`, which takes no lock; `memory_block_manager.cc`, which takes one where
`create_block` and `free_block` change the map, and none in `get_blocks`.

## Main results

* `EqUpToNull.handler_alike` — null pointers in the map change no reply
* `Server.queries_unseen` — one thread, with the queries of others and without them
-/

namespace Pingfs

namespace BlockFuse

variable {s s' : BlockFuse} {k : Bool}

/-! ## Null pointers -/

/-- The same file system, but for null pointers in the map of its manager. -/
structure EqUpToNull (s s' : BlockFuse) : Prop where
  rootBlock_eq : s'.rootBlock = s.rootBlock
  idSupplier_eq : s'.manager.idSupplier = s.manager.idSupplier
  join_map_eq : ∀ id, (s'.manager.map id).join = (s.manager.map id).join

namespace EqUpToNull

theorem refl (s : BlockFuse) : EqUpToNull s s := ⟨rfl, rfl, fun _ => rfl⟩

theorem trans {s'' : BlockFuse} (h : EqUpToNull s s') (h' : EqUpToNull s' s'') :
    EqUpToNull s s'' where
  rootBlock_eq := h'.rootBlock_eq.trans h.rootBlock_eq
  idSupplier_eq := h'.idSupplier_eq.trans h.idSupplier_eq
  join_map_eq id := (h'.join_map_eq id).trans (h.join_map_eq id)

theorem idsUsed_eq (h : EqUpToNull s s') : s'.idsUsed = s.idsUsed := by
  rw [idsUsed, idsUsed, h.idSupplier_eq]

theorem fuel_eq (h : EqUpToNull s s') : s'.fuel = s.fuel := congrArg (· + 4) h.idsUsed_eq

/-- The same entry is put into both maps, or taken out of both. -/
theorem join_update (h : EqUpToNull s s') (id : BlockId) (entry : Option (Option Block))
    (j : BlockId) : (Function.update s'.manager.map id entry j).join =
      (Function.update s.manager.map id entry j).join := by
  by_cases hj : j = id
  · rw [hj, Function.update_self, Function.update_self]
  · rw [Function.update_of_ne hj, Function.update_of_ne hj, h.join_map_eq]

/-- **No call notices null pointers.** -/
theorem handler_alike (h : EqUpToNull s s') (call : FsCall) :
    (handler k call s).Alike EqUpToNull (handler k call s') := by
  have hfree : ∀ id, EqUpToNull { s with manager := s.manager.freeBlock id }
      { s' with manager := s'.manager.freeBlock id } := fun id =>
    ⟨h.rootBlock_eq, h.idSupplier_eq, h.join_update id none⟩
  cases call with
  | createBlock data =>
    rw [handler, handler, MemoryBlockManager.createBlock, MemoryBlockManager.createBlock,
      h.idSupplier_eq]
    cases s.manager.idSupplier.nextId with
    | error what => exact ⟨rfl, h⟩
    | ok next => exact ⟨rfl, h.rootBlock_eq, rfl, h.join_update _ _⟩
  | managerFreeBlock id => exact ⟨rfl, hfree id⟩
  | getBlocks ids =>
    refine ⟨?_, h.rootBlock_eq, ?_, fun id => ?_⟩
    · simp only [handler, Outcome.result_returned, MemoryBlockManager.getBlocks_fst, h.join_map_eq]
    · simp only [handler, Outcome.state_returned, MemoryBlockManager.idSupplier_getBlocks,
        h.idSupplier_eq]
    · simp only [handler, Outcome.state_returned, MemoryBlockManager.join_map_getBlocks,
        h.join_map_eq]
  | getRootBlock => exact ⟨congrArg Except.ok h.rootBlock_eq, h⟩
  | setRootBlock newRoot => exact ⟨rfl, rfl, h.idSupplier_eq, h.join_map_eq⟩
  | freeBlock id =>
    cases k with
    | false => exact ⟨rfl, hfree id⟩
    | true => exact ⟨rfl, h⟩

end EqUpToNull

/-- A reading call leaves null pointers at most. -/
theorem eqUpToNull_of_isRead {call : FsCall} (hread : IsRead call) (s : BlockFuse) :
    EqUpToNull s (handler k call s).state := by
  obtain rfl | ⟨ids, rfl⟩ := isRead_iff.mp hread
  · exact .refl s
  · exact ⟨rfl, s.manager.idSupplier_getBlocks ids, s.manager.join_map_getBlocks ids⟩

/-! ## Threads -/

/-- Threads with one file system. A thread that has no call to go on with has a program that is
done: the last one it has run. -/
abbrev Server (ι : Type) := Interleaving ι FsCall FsCall.Reply Halt Reply BlockFuse

namespace Server

variable {ι : Type} [DecidableEq ι]

/-- What happens next: a thread starts a call, up to its first look at the file system, or goes on
with the one that it has started. -/
inductive Event (ι : Type) where
  | start (who : ι) (call : Int64 × Call)
  | goOn (who : ι)

def Event.who : Event ι → ι
  | start who _ => who
  | goOn who => who

/-- No thread has called yet. -/
def new (s : BlockFuse) : Server ι := ⟨fun _ => .ret { status := 0 }, s⟩

/-- The thread has a call before it. -/
def begin (env : Env) (c : Server ι) (who : ι) (call : Int64 × Call) : Server ι where
  programs := Function.update c.programs who (program env c.state.fuel call.1 call.2)
  state := c.state

/-- The thread makes its next call to the file system. -/
abbrev goOn (c : Server ι) (who : ι) : Server ι :=
  Interleaving.step (fun _ => handler false) c who

def step (env : Env) (c : Server ι) : Event ι → Server ι
  | .start who call => (c.begin env who call).goOn who
  | .goOn who => c.goOn who

abbrev run (env : Env) (c : Server ι) (events : List (Event ι)) : Server ι :=
  events.foldl (step env) c

/-- What has come of the last call of a thread, once it has ended. -/
def result (c : Server ι) (who : ι) : Option (Except Halt Reply) :=
  match c.programs who with
  | .ret reply => some (.ok reply)
  | .halt e => some (.error e)
  | .call _ _ => none

/-- The thread has no call to go on with. -/
abbrev Idle (c : Server ι) (who : ι) : Prop := (c.result who).isSome = true

/-- A thread starts a call only when it has none, and no thread but `writer` changes anything. -/
def Allowed (writer : ι) (c : Server ι) : Event ι → Prop
  | .start who call => c.Idle who ∧ (who ≠ writer → call.2.isQuery = true)
  | .goOn _ => True

instance (writer : ι) (c : Server ι) : (e : Event ι) → Decidable (c.Allowed writer e)
  | .start _ _ => inferInstanceAs (Decidable (_ ∧ _))
  | .goOn _ => inferInstanceAs (Decidable True)

/-- All events of a run are allowed. -/
abbrev Orderly (env : Env) (writer : ι) (c : Server ι) (events : List (Event ι)) : Prop :=
  Run.EveryStep (step env) (Allowed writer) c events

variable {env : Env} {writer : ι} {c c' : Server ι}

/-! ### One event -/

theorem programs_step_of_ne {e : Event ι} {who : ι} (hne : who ≠ e.who) :
    (c.step env e).programs who = c.programs who := by
  cases e with
  | start i call =>
    rw [Event.who] at hne
    rw [step, goOn, Interleaving.programs_step_of_ne _ _ hne]
    exact Function.update_of_ne hne ..
  | goOn i =>
    rw [Event.who] at hne
    rw [step, goOn, Interleaving.programs_step_of_ne _ _ hne]

theorem step_start (who : ι) (call : Int64 × Call) :
    (c.step env (.start who call)).programs who =
        ((program env c.state.fuel call.1 call.2).advance (handler false) c.state).1 ∧
      (c.step env (.start who call)).state =
        ((program env c.state.fuel call.1 call.2).advance (handler false) c.state).2 := by
  have hbegin : (c.begin env who call).programs who = program env c.state.fuel call.1 call.2 :=
    Function.update_self ..
  rw [step, goOn, Interleaving.programs_step_self, Interleaving.state_step, hbegin]
  exact ⟨rfl, rfl⟩

theorem step_goOn (who : ι) :
    (c.step env (.goOn who)).programs who =
        ((c.programs who).advance (handler false) c.state).1 ∧
      (c.step env (.goOn who)).state =
        ((c.programs who).advance (handler false) c.state).2 :=
  ⟨Interleaving.programs_step_self (fun _ => handler false) c who, rfl⟩

/-! ### The queries of the other threads -/

/-- The threads other than `writer` are busy with queries. -/
def Reading (writer : ι) (c : Server ι) : Prop :=
  ∀ who, who ≠ writer → (c.programs who).Only IsRead

omit [DecidableEq ι] in
theorem reading_new (s : BlockFuse) : Reading writer (new s : Server ι) := fun _ _ => trivial

theorem eqUpToNull_advance {p : FsM Reply} (hp : p.Only IsRead) (s : BlockFuse) :
    EqUpToNull s (p.advance (handler false) s).2 :=
  hp.advance_state (fun _ s' hread h => h.trans (eqUpToNull_of_isRead hread s')) (.refl s)

theorem Reading.step {e : Event ι} (h : Reading writer c) (he : c.Allowed writer e) :
    Reading writer (c.step env e) := by
  intro who hne
  by_cases hwho : who = e.who
  · subst hwho
    cases e with
    | start who call =>
      rw [Event.who, (step_start who call).1]
      exact (only_program _ (he.2 hne) env call.1).advance _
    | goOn who =>
      rw [Event.who, (step_goOn who).1]
      exact (h who hne).advance _
  · rw [programs_step_of_ne hwho]
    exact h who hne

/-- An event of another thread changes nothing but null pointers. -/
theorem Reading.eqUpToNull_step {e : Event ι} (h : Reading writer c) (he : c.Allowed writer e)
    (hne : e.who ≠ writer) : EqUpToNull c.state (c.step env e).state := by
  cases e with
  | start who call =>
    rw [(step_start who call).2]
    exact eqUpToNull_advance (only_program _ (he.2 hne) env call.1) _
  | goOn who =>
    rw [(step_goOn who).2]
    exact eqUpToNull_advance (h who hne) _

/-- An event of the thread `who` itself, next to states that are the same but for null pointers. -/
theorem step_alike {e : Event ι} (hstate : EqUpToNull c'.state c.state)
    (hprograms : c.programs e.who = c'.programs e.who) :
    (c.step env e).programs e.who = (c'.step env e).programs e.who ∧
      EqUpToNull (c'.step env e).state (c.step env e).state := by
  have hadvance : ∀ p : FsM Reply, _ := fun p =>
    Program.advance_alike (fun call _ _ h => h.handler_alike (k := false) call) p hstate
  cases e with
  | start who call =>
    simp only [Event.who, (step_start who call).1, (step_start who call).2, hstate.fuel_eq]
    exact hadvance _
  | goOn who =>
    rw [Event.who] at hprograms
    simp only [Event.who, (step_goOn who).1, (step_goOn who).2, hprograms]
    exact hadvance _

/-- The events of one thread. -/
def eventsOf (who : ι) (events : List (Event ι)) : List (Event ι) :=
  events.filter fun e => e.who = who

/-- **Queries are not noticed.** Of the thread `writer` and the file system, a run leaves what it
would leave if the other threads had made no query, but for null pointers. -/
theorem Reading.run_alike {events : List (Event ι)} (h : Reading writer c)
    (horderly : Orderly env writer c events) (hstate : EqUpToNull c'.state c.state)
    (hprograms : c.programs writer = c'.programs writer) :
    (c.run env events).programs writer = (c'.run env (eventsOf writer events)).programs writer ∧
      EqUpToNull (c'.run env (eventsOf writer events)).state (c.run env events).state := by
  induction events generalizing c c' with
  | nil => exact ⟨hprograms, hstate⟩
  | cons e events ih =>
    have hreading : Reading writer (c.step env e) := h.step horderly.1
    by_cases hwho : e.who = writer
    · subst hwho
      obtain ⟨hprograms, hstate⟩ : (c.step env e).programs e.who = (c'.step env e).programs e.who ∧
          EqUpToNull (c'.step env e).state (c.step env e).state := step_alike hstate hprograms
      rw [eventsOf, List.filter_cons_of_pos (by simp)]
      exact ih hreading horderly.2 hstate hprograms
    · rw [eventsOf, List.filter_cons_of_neg (by simpa using hwho)]
      refine ih hreading horderly.2 (hstate.trans (h.eqUpToNull_step horderly.1 hwho)) ?_
      rw [programs_step_of_ne (Ne.symm hwho), hprograms]

theorem queries_unseen {s : BlockFuse} {events : List (Event ι)}
    (horderly : Orderly env writer (new s) events) :
    ((new s).run env events).programs writer =
        ((new s).run env (eventsOf writer events)).programs writer ∧
      EqUpToNull ((new s).run env (eventsOf writer events)).state ((new s).run env events).state :=
  (reading_new s).run_alike horderly (.refl s) rfl

/-- A directory is made while another thread looks at the root. -/
theorem queries_unseen_mkdir :
    let s := BlockFuse.new plainEnv 0
    let events : List (Event Bool) := [.start true (0, .mkdir (below 0x61) 0),
      .start false (0, .getattr FsUtil.separator), .goOn true, .goOn true, .goOn true]
    ((new s).run plainEnv events).programs true =
        ((new s).run plainEnv (eventsOf true events)).programs true ∧
      EqUpToNull ((new s).run plainEnv (eventsOf true events)).state
        ((new s).run plainEnv events).state :=
  queries_unseen (by decide)

end Server

end BlockFuse

end Pingfs
