import Pingfs.Lib.History
import Pingfs.Lib.ProgramCalls
import Pingfs.Lib.Run

/-!
# Publishers

`notify` goes through a copy of the subscribers, and what a subscriber does with a notice is not
known to it: its `process` may subscribe and unsubscribe anyone, and may throw. `notify` itself is
protected. The locks are recursive, so the calls of a callback get through, and those of another
thread wait for the end of the `notify`.

What has been subscribed, unsubscribed and called is kept in a log, which the code has not.

Source: `publisher.hpp`.

## Main definitions

* `Publisher.notify` — the loop over the copy
* `Publisher.Faithful` — no one is called that has been unsubscribed, no one else is missed

## Main results

* `Publisher.faithful_iff` — the runs that are faithful
* `Publisher.orderly_of_unsubscribesSelf` — what the copy is made for
-/

namespace Pingfs

/-- What the subscribers of a publisher, and others, may call. -/
inductive PublisherCall (ι : Type) where
  | subscribe (subscriber : ι)
  | unsubscribe (subscriber : ι)
  deriving DecidableEq

/-- What the log is made of. -/
inductive PublisherEvent (ι τ : Type) where
  /-- A call has returned. -/
  | returned (call : PublisherCall ι)
  /-- The subscriber is called with a notice. -/
  | process (subscriber : ι) (notice : τ)
  deriving DecidableEq

/-- `class Publisher`, with subscribers `ι` and notices `τ`. -/
structure Publisher (ι τ : Type) where
  subscribers : List ι
  log : List (PublisherEvent ι τ)

namespace Publisher

variable {ι τ ε : Type}

/-! ### The publisher -/

section Definitions

variable [DecidableEq ι]

/-- `subscribe`. -/
def subscribe (p : Publisher ι τ) (subscriber : ι) : Publisher ι τ where
  subscribers := p.subscribers ++ [subscriber]
  log := p.log ++ [.returned (.subscribe subscriber)]

/-- `unsubscribe`, from all its subscriptions. -/
def unsubscribe (p : Publisher ι τ) (subscriber : ι) : Publisher ι τ where
  subscribers := p.subscribers.filter (· ≠ subscriber)
  log := p.log ++ [.returned (.unsubscribe subscriber)]

/-- What a call does. -/
def answer (p : Publisher ι τ) : PublisherCall ι → Publisher ι τ
  | .subscribe subscriber => p.subscribe subscriber
  | .unsubscribe subscriber => p.unsubscribe subscriber

/-- A call always returns. -/
def handler : Program.Handler (PublisherCall ι) (fun _ => Unit) ε (Publisher ι τ) :=
  fun call p => .returned () (p.answer call)

/-- What `process` of each subscriber does with a notice, after all that has happened: it makes
calls, and returns or throws an `ε`. -/
abbrev Behaviour (ι τ ε : Type) :=
  List (PublisherEvent ι τ) → ι → τ → Program (PublisherCall ι) (fun _ => Unit) ε Unit

/-- The subscriber is about to be called. -/
def calling (p : Publisher ι τ) (subscriber : ι) (notice : τ) : Publisher ι τ :=
  { p with log := p.log ++ [.process subscriber notice] }

section Notify

variable (behaviour : Behaviour ι τ ε) (notice : τ)

/-- `(*iter)->process(notice)`. -/
def process (p : Publisher ι τ) (subscriber : ι) : Outcome ε (Publisher ι τ) Unit :=
  (behaviour p.log subscriber notice).run handler (p.calling subscriber notice)

/-- The loop over the copy. -/
def notifyLoop : List ι → Publisher ι τ → Outcome ε (Publisher ι τ) Unit
  | [], p => .returned () p
  | subscriber :: rest, p =>
    (p.process behaviour notice subscriber).bind fun _ p => notifyLoop rest p

/-- `notify`. -/
def notify (p : Publisher ι τ) : Outcome ε (Publisher ι τ) Unit :=
  notifyLoop behaviour notice p.subscribers p

end Notify

/-! ### Runs -/

/-- What happens to a publisher from outside, one after the other. -/
inductive Request (ι τ : Type) where
  | call (call : PublisherCall ι)
  | notify (notice : τ)

/-- A publisher with these subscribers, of which nothing is known. -/
def start (subscribers : List ι) : Publisher ι τ := ⟨subscribers, []⟩

variable (behaviour : Behaviour ι τ ε)

/-- One request. What a callback has thrown is caught by whoever made it. -/
def step (p : Publisher ι τ) : Request ι τ → Publisher ι τ
  | .call call => p.answer call
  | .notify notice => (p.notify behaviour notice).state

/-! ### What the subscribers are promised -/

/-- `unsubscribe` has returned, and the subscriber has not been subscribed again. -/
def Gone (subscriber : ι) (log : List (PublisherEvent ι τ)) : Prop :=
  History.Since (· = .returned (.unsubscribe subscriber))
    (· = .returned (.subscribe subscriber)) log

/-- No one is called who is gone. -/
def NoneGone (log : List (PublisherEvent ι τ)) : Prop :=
  History.Historically
    (fun before e => ∀ subscriber notice, e = .process subscriber notice → ¬ Gone subscriber before)
    log

/-- Those who are called, in order. -/
def called (log : List (PublisherEvent ι τ)) : List ι :=
  log.filterMap fun
    | .returned _ => none
    | .process subscriber _ => some subscriber

/-- What happens during a `notify`. -/
def events (p : Publisher ι τ) (notice : τ) : List (PublisherEvent ι τ) :=
  (p.notify behaviour notice).state.log.drop p.log.length

/-- During a `notify`, who stays subscribed is called once for each subscription. -/
def CalledOnce (p : Publisher ι τ) : Request ι τ → Prop
  | .call _ => True
  | .notify notice => ∀ subscriber ∈ p.subscribers,
      .returned (.unsubscribe subscriber) ∉ p.events behaviour notice →
        (called (p.events behaviour notice)).count subscriber = p.subscribers.count subscriber

/-- What a run of requests keeps to. -/
@[mk_iff faithful_def]
structure Faithful (p : Publisher ι τ) (requests : List (Request ι τ)) : Prop where
  none_gone : NoneGone (requests.foldl (step behaviour) p).log
  called_once : Run.EveryStep (step behaviour) (CalledOnce behaviour) p requests

/-! ### When the promises are kept -/

section Condition

variable (notice : τ)

/-- Each subscriber is still, or again, among the subscribers when the loop comes to it. -/
def Present : List ι → Publisher ι τ → Prop
  | [], _ => True
  | subscriber :: rest, p =>
    subscriber ∈ p.subscribers ∧
      (p.process behaviour notice subscriber).Meets (fun _ p => Present rest p) fun _ _ => True

/-- Where a callback throws, those that the loop has not come to have been unsubscribed, all
of them, since the log had `began` events. -/
def NoneMissed (began : ℕ) : List ι → Publisher ι τ → Prop
  | [], _ => True
  | subscriber :: rest, p =>
    (p.process behaviour notice subscriber).Meets (fun _ p => NoneMissed began rest p)
      fun _ p => ∀ later ∈ rest, .returned (.unsubscribe later) ∈ p.log.drop began

end Condition

/-- At each turn of a `notify`, the subscriber is present, and none is missed. -/
def Orderly (p : Publisher ι τ) : Request ι τ → Prop
  | .call _ => True
  | .notify notice =>
    Present behaviour notice p.subscribers p ∧
      NoneMissed behaviour notice p.log.length p.subscribers p

end Definitions

/-! ### The log and the subscribers -/

/-- The log says who is gone, and that those of a copy who are no longer subscribed have been
unsubscribed. -/
structure Tracked (copy : List ι) (p : Publisher ι τ) : Prop where
  gone_iff : ∀ subscriber, Gone subscriber p.log ↔
    .returned (.unsubscribe subscriber) ∈ p.log ∧ subscriber ∉ p.subscribers
  unsubscribed : ∀ subscriber ∈ copy, subscriber ∉ p.subscribers →
    .returned (.unsubscribe subscriber) ∈ p.log

theorem tracked_start (subscribers : List ι) : Tracked [] (start subscribers : Publisher ι τ) := by
  refine ⟨?_, List.forall_mem_nil _⟩
  intro subscriber
  simp [start, Gone]

variable {behaviour : Behaviour ι τ ε} {p : Publisher ι τ} {copy rest : List ι} {subscriber : ι}
  {notice : τ}

/-- A copy is made. -/
theorem Tracked.copied (h : Tracked copy p) : Tracked p.subscribers p :=
  ⟨h.gone_iff, fun _ hmem hgone => absurd hmem hgone⟩

theorem Tracked.tail (h : Tracked (subscriber :: rest) p) : Tracked rest p :=
  ⟨h.gone_iff, fun later hlater => h.unsubscribed later (List.mem_cons_of_mem _ hlater)⟩

theorem Tracked.gone_iff_of_mem (h : Tracked copy p) (hmem : subscriber ∈ copy) :
    Gone subscriber p.log ↔ subscriber ∉ p.subscribers := by
  rw [h.gone_iff]
  exact and_iff_right_of_imp (h.unsubscribed subscriber hmem)

theorem Tracked.calling (h : Tracked copy p) (subscriber : ι) (notice : τ) :
    Tracked copy (p.calling subscriber notice) := by
  constructor
  · intro other
    rw [Gone, Publisher.calling, History.since_concat, ← Gone, h.gone_iff]
    simp
  · intro other hmem hgone
    exact List.mem_append_left _ (h.unsubscribed other hmem hgone)

variable [DecidableEq ι]

theorem Tracked.subscribe (h : Tracked copy p) (added : ι) : Tracked copy (p.subscribe added) := by
  constructor
  · intro subscriber
    rw [Gone, Publisher.subscribe, History.since_concat, ← Gone, h.gone_iff]
    by_cases hadded : added = subscriber
    · simp [hadded]
    · simp [hadded, Ne.symm hadded]
  · intro subscriber hmem hgone
    rw [Publisher.subscribe, List.mem_append, not_or] at hgone
    exact List.mem_append_left _ (h.unsubscribed subscriber hmem hgone.1)

theorem Tracked.unsubscribe (h : Tracked copy p) (removed : ι) :
    Tracked copy (p.unsubscribe removed) := by
  constructor
  · intro subscriber
    rw [Gone, Publisher.unsubscribe, History.since_concat, ← Gone, h.gone_iff]
    by_cases hremoved : removed = subscriber
    · simp [hremoved]
    · simp [hremoved, Ne.symm hremoved]
  · intro subscriber hmem hgone
    by_cases hremoved : subscriber = removed
    · simp [Publisher.unsubscribe, hremoved]
    · have hgone' : subscriber ∉ p.subscribers := by
        simpa [Publisher.unsubscribe, hremoved] using hgone
      exact List.mem_append_left _ (h.unsubscribed subscriber hmem hgone')

theorem Tracked.answer (h : Tracked copy p) (call : PublisherCall ι) :
    Tracked copy (p.answer call) := by
  cases call with
  | subscribe added => exact h.subscribe added
  | unsubscribe removed => exact h.unsubscribe removed

theorem Tracked.process (h : Tracked copy p) (behaviour : Behaviour ι τ ε) (notice : τ)
    (subscriber : ι) : Tracked copy (p.process behaviour notice subscriber).state :=
  Program.invariant_run (fun call _ h => h.answer call) _ (h.calling subscriber notice)

/-- What each turn keeps, the loop keeps. -/
theorem notifyLoop_keeps {I : Publisher ι τ → Prop}
    (hstep : ∀ p subscriber, I p → I (p.process behaviour notice subscriber).state) (hp : I p) :
    I (notifyLoop behaviour notice copy p).state := by
  induction copy generalizing p with
  | nil => exact hp
  | cons subscriber rest ih =>
    have hnext := hstep p subscriber hp
    rw [notifyLoop]
    cases hturn : p.process behaviour notice subscriber with
    | returned _ p' =>
      rw [hturn] at hnext
      exact ih hnext
    | halted _ p' =>
      rw [hturn] at hnext
      exact hnext

theorem Tracked.step (h : Tracked [] p) (behaviour : Behaviour ι τ ε) (request : Request ι τ) :
    Tracked [] (p.step behaviour request) := by
  cases request with
  | call call => exact h.answer call
  | notify notice =>
    exact notifyLoop_keeps (fun _ subscriber h => h.process behaviour notice subscriber) h

/-! ### One turn -/

theorem log_answer (call : PublisherCall ι) :
    (p.answer call).log = p.log ++ [.returned call] := by
  cases call <;> rfl

/-- A turn is in the log as the call of the subscriber and the calls that have returned to it. -/
theorem exists_log_process (behaviour : Behaviour ι τ ε) (notice : τ) (p : Publisher ι τ)
    (subscriber : ι) :
    ∃ calls : List (PublisherCall ι), (p.process behaviour notice subscriber).state.log =
      p.log ++ .process subscriber notice :: calls.map .returned := by
  refine Program.invariant_run (I := fun p' : Publisher ι τ => ∃ calls : List (PublisherCall ι),
    p'.log = p.log ++ .process subscriber notice :: calls.map .returned) ?_ _
      (s := p.calling subscriber notice) ⟨[], rfl⟩
  rintro call p' ⟨calls, hlog⟩
  refine ⟨calls ++ [call], ?_⟩
  change (p'.answer call).log = _
  rw [log_answer, hlog]
  simp

omit [DecidableEq ι] in
theorem noneGone_returned {log : List (PublisherEvent ι τ)} (calls : List (PublisherCall ι)) :
    NoneGone (log ++ calls.map .returned) ↔ NoneGone log := by
  induction calls generalizing log with
  | nil => simp
  | cons call calls ih =>
    rw [List.map_cons, List.append_cons, ih, NoneGone, History.historically_concat]
    simp [NoneGone]

theorem noneGone_process (behaviour : Behaviour ι τ ε) (notice : τ) (p : Publisher ι τ)
    (subscriber : ι) :
    NoneGone (p.process behaviour notice subscriber).state.log ↔
      NoneGone p.log ∧ ¬ Gone subscriber p.log := by
  obtain ⟨calls, hlog⟩ := exists_log_process behaviour notice p subscriber
  rw [hlog, List.append_cons, noneGone_returned, NoneGone, History.historically_concat]
  simp [NoneGone]

theorem called_process (behaviour : Behaviour ι τ ε) (notice : τ) (p : Publisher ι τ)
    (subscriber : ι) :
    called (p.process behaviour notice subscriber).state.log = called p.log ++ [subscriber] := by
  obtain ⟨calls, hlog⟩ := exists_log_process behaviour notice p subscriber
  rw [hlog]
  simp [called]

/-! ### The loop -/

/-- No one who is gone is called, if and only if everyone is present in their turn. -/
theorem noneGone_notifyLoop (h : Tracked copy p) :
    NoneGone (notifyLoop behaviour notice copy p).state.log ↔
      NoneGone p.log ∧ Present behaviour notice copy p := by
  induction copy generalizing p with
  | nil => simp [notifyLoop, Present]
  | cons subscriber rest ih =>
    have hpresent : ¬ Gone subscriber p.log ↔ subscriber ∈ p.subscribers := by
      rw [h.gone_iff_of_mem List.mem_cons_self, not_not]
    have hgone := noneGone_process behaviour notice p subscriber
    have htracked := (h.process behaviour notice subscriber).tail
    rw [hpresent] at hgone
    rw [notifyLoop, Present, ← and_assoc, ← hgone]
    cases hturn : p.process behaviour notice subscriber with
    | returned _ p' =>
      rw [hturn] at htracked
      exact ih htracked
    | halted _ p' => simp

/-- The loop calls those of the copy, as far as it comes. -/
theorem exists_called_notifyLoop (behaviour : Behaviour ι τ ε) (notice : τ) (copy : List ι)
    (p : Publisher ι τ) : ∃ done, done <+: copy ∧
    called (notifyLoop behaviour notice copy p).state.log = called p.log ++ done := by
  induction copy generalizing p with
  | nil => exact ⟨[], List.prefix_rfl, (List.append_nil _).symm⟩
  | cons subscriber rest ih =>
    have hcalled := called_process behaviour notice p subscriber
    rw [notifyLoop]
    cases hturn : p.process behaviour notice subscriber with
    | returned _ p' =>
      rw [hturn, Outcome.state_returned] at hcalled
      obtain ⟨done, hdone, hrest⟩ := ih p'
      refine ⟨subscriber :: done, (List.prefix_cons_inj subscriber).mpr hdone, ?_⟩
      rw [Outcome.bind_returned, hrest, hcalled, ← List.append_cons]
    | halted _ p' =>
      rw [hturn] at hcalled
      exact ⟨[subscriber], ⟨rest, rfl⟩, hcalled⟩

/-- Who is not unsubscribed is called for each entry of the copy, if and only if none is missed. -/
theorem noneMissed_iff {began : ℕ} : NoneMissed behaviour notice began copy p ↔
    ∀ subscriber, .returned (.unsubscribe subscriber) ∉
        (notifyLoop behaviour notice copy p).state.log.drop began →
      (called (notifyLoop behaviour notice copy p).state.log).count subscriber =
        (called p.log).count subscriber + copy.count subscriber := by
  induction copy generalizing p with
  | nil => simp [NoneMissed, notifyLoop]
  | cons current rest ih =>
    have hcalled := called_process behaviour notice p current
    rw [NoneMissed, notifyLoop]
    cases hturn : p.process behaviour notice current with
    | returned _ p' =>
      rw [hturn, Outcome.state_returned] at hcalled
      rw [Outcome.meets_returned, Outcome.bind_returned, ih]
      refine forall_congr' fun subscriber => imp_congr_right fun _ => ?_
      rw [hcalled, List.count_append, List.count_singleton, List.count_cons, Nat.add_assoc,
        Nat.add_comm (rest.count subscriber)]
    | halted _ p' =>
      rw [hturn, Outcome.state_halted] at hcalled
      rw [Outcome.meets_halted, Outcome.bind_halted, Outcome.state_halted, hcalled]
      refine forall_congr' fun subscriber => ?_
      have hrest : rest.count subscriber = 0 ↔ subscriber ∉ rest := List.count_eq_zero
      rw [← not_imp_not, ← hrest, List.count_append, List.count_singleton, List.count_cons]
      refine imp_congr_right fun _ => ?_
      omega

theorem log_prefix_notify (behaviour : Behaviour ι τ ε) (notice : τ) (p : Publisher ι τ) :
    p.log <+: (p.notify behaviour notice).state.log := by
  refine notifyLoop_keeps (I := fun p' : Publisher ι τ => p.log <+: p'.log) ?_ List.prefix_rfl
  intro p' subscriber hprefix
  obtain ⟨calls, hlog⟩ := exists_log_process behaviour notice p' subscriber
  rw [hlog]
  exact hprefix.trans (List.prefix_append _ _)

theorem called_notify (behaviour : Behaviour ι τ ε) (notice : τ) (p : Publisher ι τ) :
    called (p.notify behaviour notice).state.log =
      called p.log ++ called (p.events behaviour notice) := by
  have hlog := List.prefix_iff_eq_append.mp (log_prefix_notify behaviour notice p)
  rw [← hlog, called, List.filterMap_append]
  rfl

theorem calledOnce_notify_iff : CalledOnce behaviour p (.notify notice) ↔
    NoneMissed behaviour notice p.log.length p.subscribers p := by
  rw [noneMissed_iff, ← notify, ← events, called_notify]
  constructor
  · intro honce subscriber hstays
    rw [List.count_append, Nat.add_left_cancel_iff]
    by_cases hmem : subscriber ∈ p.subscribers
    · exact honce subscriber hmem hstays
    · -- the loop does not come to who is not in the copy
      obtain ⟨done, hdone, hcalled⟩ := exists_called_notifyLoop behaviour notice p.subscribers p
      rw [← notify, called_notify, List.append_cancel_left_eq] at hcalled
      rw [hcalled, List.count_eq_zero_of_not_mem hmem]
      exact List.count_eq_zero_of_not_mem fun hin => hmem (hdone.subset hin)
  · intro h subscriber _ hstays
    have hcount := h subscriber hstays
    rwa [List.count_append, Nat.add_left_cancel_iff] at hcount

/-! ### Every run -/

/-- One request. -/
theorem noneGone_step (h : Tracked [] p) (behaviour : Behaviour ι τ ε) (request : Request ι τ) :
    NoneGone (p.step behaviour request).log ∧ CalledOnce behaviour p request ↔
      NoneGone p.log ∧ Orderly behaviour p request := by
  cases request with
  | call call =>
    have hcall : NoneGone (p.answer call).log ↔ NoneGone p.log := by
      rw [log_answer]
      exact noneGone_returned [call]
    exact and_congr_left' hcall
  | notify notice =>
    rw [calledOnce_notify_iff, step, notify, noneGone_notifyLoop h.copied, and_assoc]
    rfl

theorem faithful_iff_of_tracked (h : Tracked [] p) (requests : List (Request ι τ)) :
    Faithful behaviour p requests ↔
      NoneGone p.log ∧ Run.EveryStep (step behaviour) (Orderly behaviour) p requests := by
  induction requests generalizing p with
  | nil => exact faithful_def behaviour p []
  | cons request requests ih =>
    have hrest := ih (h.step behaviour request)
    rw [faithful_def] at hrest ⊢
    rw [List.foldl_cons, Run.everyStep_cons, Run.everyStep_cons, and_left_comm, hrest,
      ← and_assoc (a := NoneGone p.log), ← noneGone_step h, and_assoc]
    exact and_left_comm

/-- **The runs that keep the promises**: whoever a `notify` comes to is present, and where a
callback throws none is missed. -/
theorem faithful_iff (behaviour : Behaviour ι τ ε) (subscribers : List ι)
    (requests : List (Request ι τ)) :
    Faithful behaviour (start subscribers) requests ↔
      Run.EveryStep (step behaviour) (Orderly behaviour) (start subscribers) requests := by
  rw [faithful_iff_of_tracked (tracked_start subscribers)]
  exact and_iff_right History.historically_nil

/-- The first subscriber unsubscribes the second. -/
def unsubscribesOther : Behaviour ℕ Unit Empty := fun _ subscriber _ =>
  if subscriber = 0 then Program.request (.unsubscribe 1) else pure ()

/-- The second is called all the same. -/
theorem called_after_unsubscribe :
    ([Request.notify ()].foldl (step unsubscribesOther) (start [0, 1])).log =
        [.process 0 (), .returned (.unsubscribe 1), .process 1 ()] ∧
      ¬ Faithful unsubscribesOther (start [0, 1]) [.notify ()] := by
  refine ⟨rfl, fun h => ?_⟩
  refine h.none_gone [.process 0 (), .returned (.unsubscribe 1)] (.process 1 ()) [] rfl 1 () rfl ?_
  exact ⟨[.process 0 ()], .returned (.unsubscribe 1), [], rfl, rfl, List.forall_mem_nil _⟩

/-! ### Callbacks that unsubscribe themselves -/

/-- Whoever is called unsubscribes no one else. -/
def UnsubscribesSelf (behaviour : Behaviour ι τ ε) : Prop :=
  ∀ log subscriber notice, (behaviour log subscriber notice).Only fun call =>
    ∀ other, call = .unsubscribe other → other = subscriber

/-- Whoever is called returns. -/
def Returns (behaviour : Behaviour ι τ ε) : Prop :=
  ∀ (p : Publisher ι τ) notice subscriber, ∃ p',
    p.process behaviour notice subscriber = .returned () p'

theorem UnsubscribesSelf.mem_process (h : UnsubscribesSelf behaviour) (notice : τ) {other : ι}
    (hother : other ≠ subscriber) (hmem : other ∈ p.subscribers) :
    other ∈ (p.process behaviour notice subscriber).state.subscribers := by
  have hcalls := (h p.log subscriber notice).everyCall (h := handler) (fun _ _ hcall => hcall)
    (p.calling subscriber notice)
  refine hcalls.invariant (I := fun p' : Publisher ι τ => other ∈ p'.subscribers) ?_ hmem
  intro call p' hmem' hcall
  cases call with
  | subscribe added => exact List.mem_append_left _ hmem'
  | unsubscribe removed =>
    have hremoved : other ≠ removed := by rwa [hcall removed rfl]
    exact List.mem_filter.mpr ⟨hmem', decide_eq_true hremoved⟩

theorem UnsubscribesSelf.present_and_noneMissed (h : UnsubscribesSelf behaviour)
    (hreturns : Returns behaviour) {began : ℕ} (hnodup : copy.Nodup)
    (hmem : ∀ subscriber ∈ copy, subscriber ∈ p.subscribers) :
    Present behaviour notice copy p ∧ NoneMissed behaviour notice began copy p := by
  induction copy generalizing p with
  | nil => exact ⟨trivial, trivial⟩
  | cons subscriber rest ih =>
    obtain ⟨hnotin, hrest⟩ := List.nodup_cons.mp hnodup
    obtain ⟨p', hturn⟩ := hreturns p notice subscriber
    have hstill : ∀ other ∈ rest, other ∈ p'.subscribers := by
      intro other hother
      have hne : other ≠ subscriber := ne_of_mem_of_not_mem hother hnotin
      have hkept := h.mem_process notice hne (hmem other (List.mem_cons_of_mem _ hother))
      rwa [hturn] at hkept
    obtain ⟨hpresent, hnone⟩ := ih hrest hstill
    rw [Present, NoneMissed, hturn]
    exact ⟨⟨hmem subscriber List.mem_cons_self, hpresent⟩, hnone⟩

/-- **What the copy is made for**: whoever is subscribed once may unsubscribe itself. -/
theorem orderly_of_unsubscribesSelf (h : UnsubscribesSelf behaviour) (hreturns : Returns behaviour)
    (hnodup : p.subscribers.Nodup) (request : Request ι τ) : Orderly behaviour p request := by
  cases request with
  | call call => trivial
  | notify notice => exact h.present_and_noneMissed hreturns hnodup fun _ hmem => hmem

end Publisher

end Pingfs
