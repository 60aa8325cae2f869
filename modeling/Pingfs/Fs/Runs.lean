import Pingfs.Fs.Updates
import Pingfs.Lib.Run

/-!
# Runs of the file system

A run is a list of calls, each with the time at which it is made. A call that throws, or fails an
assertion, leaves a state too, and the run goes on from it; only a call that runs out of ids may
leave blocks behind that nothing leads to.

## Main results

* `Good.step_refines` — one call
* `Represents.run_refines` — a run: the state at its end represents the namespace it leads to
-/

namespace Pingfs

namespace BlockFuse

variable {s : BlockFuse} {t : Inodes} {garbage : Multiset Block} {env : Env} {k : Bool}

/-- The state after a call, however it ended. -/
def step (env : Env) (freeSuppressed : Bool) (s : BlockFuse) (call : Int64 × Call) : BlockFuse :=
  (exec env freeSuppressed s call).state

/-- The id supplier threw during the call. -/
def RanOut (env : Env) (freeSuppressed : Bool) (s : BlockFuse) (call : Int64 × Call) : Prop :=
  (exec env freeSuppressed s call).result = .error exhausted

instance (env : Env) (freeSuppressed : Bool) (s : BlockFuse) (call : Int64 × Call) :
    Decidable (RanOut env freeSuppressed s call) := inferInstanceAs (Decidable (_ = _))

/-- The id supplier throws at no call of the run. -/
def NeverRunsOut (env : Env) (s : BlockFuse) (calls : List (Int64 × Call)) : Prop :=
  Run.EveryStep (step env false) (fun s call => ¬ RanOut env false s call) s calls

instance (env : Env) (s : BlockFuse) (calls : List (Int64 × Call)) :
    Decidable (NeverRunsOut env s calls) :=
  inferInstanceAs (Decidable (Run.EveryStep _ _ s calls))

/-- **One call.** Unless the ids run out, it replies as the namespace does and ends in it. -/
theorem Good.step_refines (h : Good s t garbage) {call : Int64 × Call}
    (hids : ¬ RanOut env k s call) :
    (exec env k s call).result = (t.entries.exec env storedContents call).1 ∧
      Lands k t garbage (cleared t call.2) (t.entries.step env storedContents call)
        (step env k s call) := by
  have hrefines := h.exec_refines (k := k) env call
  rw [RanOut] at hids
  rw [step, Namespace.step]
  cases hexec : exec env k s call with
  | returned reply s' =>
    rw [hexec] at hrefines
    exact ⟨hrefines.1.symm, hrefines.2⟩
  | halted e s' =>
    rw [hexec] at hrefines hids
    rcases hrefines with rfl | ⟨hresult, hlands⟩
    · exact absurd rfl hids
    · exact ⟨hresult.symm, hlands⟩

/-- The state is that of a tree without garbage, which has the namespace `n`. -/
def Represents (s : BlockFuse) (n : Namespace) : Prop := ∃ t, Good s t 0 ∧ t.entries = n

theorem represents_new (env : Env) (now : Int64) : Represents (new env now) (.new env now) :=
  ⟨_, good_new env now, rfl⟩

theorem Represents.step_refines {n : Namespace} (h : Represents s n) {call : Int64 × Call}
    (hids : ¬ RanOut env false s call) :
    (exec env false s call).result = (n.exec env storedContents call).1 ∧
      Represents (step env false s call) (n.step env storedContents call) := by
  obtain ⟨t, hgood, rfl⟩ := h
  obtain ⟨hresult, t', garbage', hgood', hentries, hgarbage⟩ := hgood.step_refines hids
  obtain rfl : garbage' = 0 := hgarbage
  exact ⟨hresult, t', hgood', hentries⟩

/-- **A whole run.** -/
theorem Represents.run_refines {n : Namespace} (h : Represents s n) {calls : List (Int64 × Call)}
    (hids : NeverRunsOut env s calls) :
    Represents (calls.foldl (step env false) s)
      (calls.foldl (Namespace.step env storedContents) n) := by
  induction calls generalizing s n with
  | nil => exact h
  | cons call calls ih => exact ih (h.step_refines hids.1).2 hids.2

/-! ## Examples of runs -/

/-- The surroundings of the runs that serve as examples. -/
def plainEnv : Env := ⟨0, 0, 0, fun _ _ => 0⟩

/-- The path `/x` for a single character `x`. -/
abbrev below (x : UInt8) : Str := [FsUtil.slash, x]

end BlockFuse

end Pingfs
