import Pingfs.Fs.Requests
import Pingfs.Fs.Runs
import Pingfs.Lib.Simulation

/-!
# Other block managers

The operations of `BlockFuse` are programs of calls to a block manager, any block manager. One that
keeps its blocks elsewhere has a `view`, the file system in memory that its state amounts to, and
may need its surroundings to serve a call. If it answers each call that is served as the block
manager in memory does, every run over it replies as the namespace does.

## Main results

* `Hosts.run_refines` — a whole run gives what the namespace gives
* `Hosts.upTo` — what an operation may ask for, up to the first call that is not served
-/

namespace Pingfs

namespace BlockFuse

variable {σ : Type} (h : Program.Handler FsCall FsCall.Reply Halt σ) (served : FsCall → σ → Prop)
  (Inv : σ → Prop) (view : σ → BlockFuse)

/-- Each call that is served, and asks for what is in the view, is answered as in memory. -/
def Hosts : Prop :=
  ∀ call s s', Inv s ∧ view s = s' → served call s → Mapped call s' →
    (h call s).Alike (fun s s' => Inv s ∧ view s = s') (handler false call s')

/-- A call of the file system at time `now`. -/
def hostedExec (env : Env) (s : σ) (call : Int64 × Call) : Outcome Halt σ Reply :=
  (program env (view s).fuel call.1 call.2).run h s

/-- The state after a call, however it ended. -/
def hostedStep (env : Env) (s : σ) (call : Int64 × Call) : σ := (hostedExec h view env s call).state

/-- All that the call asks the block manager for is served, and there are ids enough for it. -/
structure Works (env : Env) (s : σ) (call : Int64 × Call) : Prop where
  served : (program env (view s).fuel call.1 call.2).EveryCall h served s
  hasIds : (hostedExec h view env s call).result ≠ .error exhausted

instance [∀ call s, Decidable (served call s)] (env : Env) (s : σ) (call : Int64 × Call) :
    Decidable (Works h served view env s call) :=
  decidable_of_iff (_ ∧ _) ⟨fun hboth => Works.mk hboth.1 hboth.2,
    fun hworks => ⟨hworks.served, hworks.hasIds⟩⟩

variable {h served Inv view} {s : σ} {n : Namespace} {env : Env}

/-- **A call of the file system** replies as the namespace does and ends in it. -/
theorem Hosts.step_refines (hosts : Hosts h served Inv view) (hinv : Inv s)
    (hview : Represents (view s) n) {call : Int64 × Call}
    (hworks : Works h served view env s call) :
    (hostedExec h view env s call).result = (n.exec env storedContents call).1 ∧
      Inv (hostedStep h view env s call) ∧
        Represents (view (hostedStep h view env s call)) (n.step env storedContents call) := by
  have hmapped : (program env (view s).fuel call.1 call.2).EveryCall (handler false) Mapped
      (view s) := by
    obtain ⟨t, hgood, -⟩ := hview
    exact hgood.everyCall_exec env call
  obtain ⟨hresult, hafter, hstate⟩ := hworks.served.run_alike hosts hmapped ⟨hinv, rfl⟩
  have hids : ¬ RanOut env false (view s) call := by
    rw [RanOut, exec, hresult]
    exact hworks.hasIds
  obtain ⟨hreply, hrepresents⟩ := hview.step_refines hids
  rw [exec, hresult] at hreply
  refine ⟨hreply, hafter, ?_⟩
  rwa [hostedStep, hostedExec, hstate]

/-- **A whole run** returns what the namespace returns and ends in it. -/
theorem Hosts.run_refines (hosts : Hosts h served Inv view) (hinv : Inv s)
    (hview : Represents (view s) n) {calls : List (Int64 × Call)}
    (hworks : Run.EveryStep (hostedStep h view env) (Works h served view env) s calls) :
    Run.trace (hostedStep h view env) (fun s call => (hostedExec h view env s call).result) s
          calls =
        Run.trace (Namespace.step env storedContents)
          (fun n call => (n.exec env storedContents call).1) n calls ∧
      Inv (calls.foldl (hostedStep h view env) s) ∧
        Represents (view (calls.foldl (hostedStep h view env) s))
          (calls.foldl (Namespace.step env storedContents) n) := by
  induction calls generalizing s n with
  | nil => exact ⟨rfl, hinv, hview⟩
  | cons call calls ih =>
    obtain ⟨hreply, hafter, hrepresents⟩ := hosts.step_refines hinv hview hworks.1
    obtain ⟨hreplies, hend⟩ := ih hafter hrepresents hworks.2
    exact ⟨by rw [Run.trace, Run.trace, hreply, hreplies], hend⟩

/-- **What an operation asks for**, up to the first call that is not served: `want` holds of what is
in the view. -/
theorem Hosts.upTo (hosts : Hosts h served Inv view) (hinv : Inv s) (hview : Represents (view s) n)
    {want : FsCall → σ → Prop} (hwant : ∀ call s, Inv s → Mapped call (view s) → want call s)
    (call : Int64 × Call) :
    (program env (view s).fuel call.1 call.2).UpTo h served want s := by
  obtain ⟨t, hgood, -⟩ := hview
  refine Program.EveryCall.upTo hosts (fun call s s' h hmapped => ?_)
    (hgood.everyCall_exec (k := false) env call) ⟨hinv, rfl⟩
  obtain ⟨hinv, rfl⟩ := h
  exact hwant call s hinv hmapped

end BlockFuse

end Pingfs
