import Pingfs.Lib.Run

/-!
# The rate queue

Functions are added to a queue by any thread; the queue's own thread runs one of them in each round
of its loop, and sleeps at the end of the round. `stop` clears the queue, and the first call of it
joins the thread.

An event is a step of one of the threads: a critical section of `queue_mutex_`, or what lies between
two of them. `service` releases the mutex before it calls the function that it took off the queue;
a call of `stop` may come between the two. The test of `stopped_` in the loop is made without the
mutex and is taken to read its value; a function is taken not to throw, and not to stop the queue
that runs it. The time that a sleep takes is not in the model: that a function waits is that a sleep
has to end before.

Source: `rate_queue.cc`.

## Main results

* `RateQueue.runs_in_order` — what is run, and what of it after a stop
* `RateQueue.rate_limited` — between two functions a sleep ends
* `RateQueue.run_in_time` — each function is run, unless the queue is stopped
-/

namespace Pingfs

/-- Where the thread of a queue is in `service`. -/
inductive RateQueue.Service (α : Type) where
  /-- At the test of the loop. -/
  | testing
  /-- About to lock the mutex. -/
  | locking
  /-- A function is off the queue and the mutex released, and it is not called yet. -/
  | taken (toExec : α)
  /-- It runs the function. -/
  | executing (toExec : α)
  | sleeping
  /-- It has returned. -/
  | ended
  deriving DecidableEq

/-- `class RateQueue`, with its thread, and what has come of the functions. -/
structure RateQueue (α : Type) where
  queue : List α
  stopped : Bool
  service : RateQueue.Service α
  /-- The first call of `stop` has come to the join. -/
  joining : Bool
  /-- It has come back from it. -/
  joined : Bool
  /-- The functions that `add` took, the first one first. -/
  added : List α
  /-- The functions that have returned. -/
  executed : List α
  /-- How many sleeps have ended. -/
  sleeps : ℕ
  deriving DecidableEq

namespace RateQueue

variable {α : Type}

/-- A step of some thread. -/
inductive Event (α : Type) where
  | add (function : α)
  /-- A call of `stop`, up to the join. -/
  | stop
  /-- The join returns. -/
  | join
  /-- The next step of `service`. -/
  | service
  deriving DecidableEq

/-- `start_queue`. -/
def startQueue : RateQueue α := ⟨[], false, .testing, false, false, [], [], 0⟩

/-- `add`; it throws if the queue is stopped. -/
def add (q : RateQueue α) (function : α) : RateQueue α :=
  if q.stopped then q
  else { q with queue := q.queue ++ [function], added := q.added ++ [function] }

/-- `stop`, up to the join. -/
def stop (q : RateQueue α) : RateQueue α :=
  { q with stopped := true, queue := [], joining := q.joining || !q.stopped }

/-- A step of `service`. -/
def serve (q : RateQueue α) : RateQueue α :=
  match q.service with
  | .testing => { q with service := if q.stopped then .ended else .locking }
  | .locking =>
    match q.queue with
    | [] => { q with service := .sleeping }
    | toExec :: queue => { q with queue, service := .taken toExec }
  | .taken toExec => { q with service := .executing toExec }
  | .executing toExec => { q with executed := q.executed ++ [toExec], service := .sleeping }
  | .sleeping => { q with sleeps := q.sleeps + 1, service := .testing }
  | .ended => q

/-- One step. -/
def step (q : RateQueue α) : Event α → RateQueue α
  | .add function => q.add function
  | .stop => q.stop
  | .join => { q with joined := true }
  | .service => q.serve

/-- A join that was come to returns once the thread has. -/
def Allowed (q : RateQueue α) : Event α → Prop
  | .add _ => True
  | .stop => True
  | .join => q.joining = true ∧ q.joined = false ∧ q.service = .ended
  | .service => True

instance [DecidableEq α] (q : RateQueue α) : (e : Event α) → Decidable (q.Allowed e)
  | .add _ => .isTrue trivial
  | .stop => .isTrue trivial
  | .join => inferInstanceAs (Decidable (_ ∧ _ ∧ _))
  | .service => .isTrue trivial

/-- The function that the thread has taken and has not finished. -/
def inHand (q : RateQueue α) : List α :=
  match q.service with
  | .taken toExec => [toExec]
  | .executing toExec => [toExec]
  | _ => []

/-- The functions that have been taken off the queue to be run. -/
def taken (q : RateQueue α) : List α := q.executed ++ q.inHand

/-- The function that is being run. -/
def running (q : RateQueue α) : List α :=
  match q.service with
  | .executing toExec => [toExec]
  | _ => []

/-- The functions that have been begun. -/
def begun (q : RateQueue α) : List α := q.executed ++ q.running

theorem running_prefix_inHand (q : RateQueue α) : q.running <+: q.inHand := by
  cases hservice : q.service with
  | executing toExec =>
    have hsame : q.running ++ [] = q.inHand := by rw [running, inHand, hservice, List.append_nil]
    exact ⟨[], hsame⟩
  | _ =>
    rw [running, hservice]
    exact List.nil_prefix

theorem begun_prefix_taken (q : RateQueue α) : q.begun <+: q.taken :=
  (List.prefix_append_right_inj _).mpr q.running_prefix_inHand

theorem length_inHand_le (q : RateQueue α) : q.inHand.length ≤ 1 := by
  rw [inHand]
  split
  · exact Nat.le_refl _
  · exact Nat.le_refl _
  · exact Nat.zero_le _

/-- At most one function was taken and is not begun. -/
theorem length_taken_le (q : RateQueue α) : q.taken.length ≤ q.begun.length + 1 := by
  have hinHand := q.length_inHand_le
  rw [taken, begun, List.length_append, List.length_append]
  omega

/-! ## One step of the thread -/

/-- What a step of `service` is. -/
inductive Step (q : RateQueue α) : RateQueue α → Prop where
  | leaves (hservice : q.service = .testing) (hstopped : q.stopped = true) :
      Step q { q with service := .ended }
  | goesOn (hservice : q.service = .testing) (hrunning : q.stopped = false) :
      Step q { q with service := .locking }
  | finds (toExec : α) (queue : List α) (hservice : q.service = .locking)
      (hqueue : q.queue = toExec :: queue) : Step q { q with queue, service := .taken toExec }
  | idles (hservice : q.service = .locking) (hqueue : q.queue = []) :
      Step q { q with service := .sleeping }
  | begins (toExec : α) (hservice : q.service = .taken toExec) :
      Step q { q with service := .executing toExec }
  | returns (toExec : α) (hservice : q.service = .executing toExec) :
      Step q { q with executed := q.executed ++ [toExec], service := .sleeping }
  | wakes (hservice : q.service = .sleeping) :
      Step q { q with sleeps := q.sleeps + 1, service := .testing }
  | rests (hservice : q.service = .ended) : Step q q

theorem step_serve (q : RateQueue α) : Step q q.serve := by
  cases hservice : q.service with
  | testing =>
    cases hstopped : q.stopped with
    | true =>
      have hserve : q.serve = { q with service := .ended } := by simp [serve, hservice, hstopped]
      rw [hserve]
      exact .leaves hservice hstopped
    | false =>
      have hserve : q.serve = { q with service := .locking } := by simp [serve, hservice, hstopped]
      rw [hserve]
      exact .goesOn hservice hstopped
  | locking =>
    cases hqueue : q.queue with
    | nil =>
      have hserve : q.serve = { q with service := .sleeping } := by simp [serve, hservice, hqueue]
      rw [hserve]
      exact .idles hservice hqueue
    | cons toExec queue =>
      have hserve : q.serve = { q with queue, service := .taken toExec } := by
        simp [serve, hservice, hqueue]
      rw [hserve]
      exact .finds toExec queue hservice hqueue
  | taken toExec =>
    have hserve : q.serve = { q with service := .executing toExec } := by simp [serve, hservice]
    rw [hserve]
    exact .begins toExec hservice
  | executing toExec =>
    have hserve : q.serve =
        { q with executed := q.executed ++ [toExec], service := .sleeping } := by
      simp [serve, hservice]
    rw [hserve]
    exact .returns toExec hservice
  | sleeping =>
    have hserve : q.serve = { q with sleeps := q.sleeps + 1, service := .testing } := by
      simp [serve, hservice]
    rw [hserve]
    exact .wakes hservice
  | ended =>
    have hserve : q.serve = q := by simp [serve, hservice]
    rw [hserve]
    exact .rests hservice

namespace Step

variable {q q' : RateQueue α}

theorem stopped_eq (h : Step q q') : q'.stopped = q.stopped := by
  cases h <;> rfl

theorem added_eq (h : Step q q') : q'.added = q.added := by
  cases h <;> rfl

/-- A function leaves the queue when it is taken. -/
theorem taken_append (h : Step q q') : q'.taken ++ q'.queue = q.taken ++ q.queue := by
  cases h with
  | finds toExec queue hservice hqueue => simp [taken, inHand, hservice, hqueue]
  | begins toExec hservice => simp [taken, inHand, hservice]
  | returns toExec hservice => simp [taken, inHand, hservice]
  | leaves hservice => simp [taken, inHand, hservice]
  | goesOn hservice => simp [taken, inHand, hservice]
  | idles hservice => simp [taken, inHand, hservice]
  | wakes hservice => simp [taken, inHand, hservice]
  | rests => rfl

theorem queue_suffix (h : Step q q') : q'.queue <:+ q.queue := by
  cases h with
  | finds toExec queue hservice hqueue =>
    rw [hqueue]
    exact List.suffix_cons ..
  | _ => exact List.suffix_rfl

theorem stopped_of_ended (h : Step q q') (hended : q'.service = .ended) :
    q.service = .ended ∨ q.stopped = true := by
  cases h with
  | leaves hservice hstopped => exact Or.inr hstopped
  | rests hservice => exact Or.inl hservice
  | _ => cases hended

theorem eq_of_ended (h : Step q q') (hended : q.service = .ended) : q' = q := by
  cases h with
  | rests => rfl
  | leaves hservice => cases hservice.symm.trans hended
  | goesOn hservice => cases hservice.symm.trans hended
  | finds _ _ hservice => cases hservice.symm.trans hended
  | idles hservice => cases hservice.symm.trans hended
  | begins _ hservice => cases hservice.symm.trans hended
  | returns _ hservice => cases hservice.symm.trans hended
  | wakes hservice => cases hservice.symm.trans hended

theorem joined_eq (h : Step q q') : q'.joined = q.joined := by
  cases h <;> rfl

end Step

/-! ## Order -/

/-- What was added was taken or is in the queue, in order; a stop may have cut the end off. -/
structure InOrder (q : RateQueue α) : Prop where
  added_eq : q.stopped = false → q.added = q.taken ++ q.queue
  queue_eq : q.stopped = true → q.queue = []
  taken_added : q.taken <+: q.added
  stopped_of_ended : q.service = .ended → q.stopped = true
  joined : q.joined = true → q.service = .ended

theorem inOrder_startQueue : InOrder (startQueue : RateQueue α) where
  added_eq _ := rfl
  queue_eq h := absurd h Bool.false_ne_true
  taken_added := List.prefix_rfl
  stopped_of_ended h := by cases h
  joined h := absurd h Bool.false_ne_true

variable {q : RateQueue α}

theorem InOrder.add (h : InOrder q) (function : α) : InOrder (q.add function) := by
  rw [RateQueue.add]
  split_ifs with hstopped
  · exact h
  · have hrunning : q.stopped = false := Bool.eq_false_iff.mpr hstopped
    have hadded : q.added ++ [function] = q.taken ++ (q.queue ++ [function]) := by
      rw [h.added_eq hrunning, List.append_assoc]
    exact ⟨fun _ => hadded, fun hstop => absurd hstop hstopped,
      h.taken_added.trans (List.prefix_append ..), h.stopped_of_ended, h.joined⟩

theorem InOrder.stop (h : InOrder q) : InOrder q.stop :=
  ⟨fun hrunning => absurd hrunning.symm Bool.false_ne_true, fun _ => rfl, h.taken_added,
    fun _ => rfl, h.joined⟩

theorem InOrder.serve (h : InOrder q) : InOrder q.serve := by
  have hstep := step_serve q
  have hqueue : q.stopped = true → q.serve.queue = [] := by
    intro hstopped
    have hsuffix := hstep.queue_suffix
    rw [h.queue_eq hstopped] at hsuffix
    exact List.suffix_nil.mp hsuffix
  have hadded : q.stopped = false → q.added = q.serve.taken ++ q.serve.queue := by
    intro hrunning
    rw [hstep.taken_append]
    exact h.added_eq hrunning
  refine ⟨?_, ?_, ?_, ?_, ?_⟩
  · rw [hstep.stopped_eq, hstep.added_eq]
    exact hadded
  · rw [hstep.stopped_eq]
    exact hqueue
  · rw [hstep.added_eq]
    cases hstopped : q.stopped with
    | true =>
      have hsame := hstep.taken_append
      rw [hqueue hstopped, h.queue_eq hstopped, List.append_nil, List.append_nil] at hsame
      rw [hsame]
      exact h.taken_added
    | false =>
      rw [hadded hstopped]
      exact List.prefix_append ..
  · intro hended
    rw [hstep.stopped_eq]
    exact (hstep.stopped_of_ended hended).elim h.stopped_of_ended id
  · intro hjoined
    rw [hstep.joined_eq] at hjoined
    rw [hstep.eq_of_ended (h.joined hjoined)]
    exact h.joined hjoined

/-- **One step.** -/
theorem InOrder.step (h : InOrder q) {e : Event α} (he : q.Allowed e) : InOrder (q.step e) := by
  cases e with
  | add function => exact h.add function
  | stop => exact h.stop
  | join => exact ⟨h.added_eq, h.queue_eq, h.taken_added, h.stopped_of_ended, fun _ => he.2.2⟩
  | service => exact h.serve

/-! ## After a stop -/

/-- Once it is stopped, no function is added to the queue and none taken off it. -/
theorem InOrder.taken_step (h : InOrder q) (hstopped : q.stopped = true) (e : Event α) :
    (q.step e).stopped = true ∧ (q.step e).taken = q.taken := by
  cases e with
  | add function =>
    rw [RateQueue.step, RateQueue.add, if_pos hstopped]
    exact ⟨hstopped, rfl⟩
  | stop => exact ⟨rfl, rfl⟩
  | join => exact ⟨hstopped, rfl⟩
  | service =>
    have hstep := step_serve q
    refine ⟨hstep.stopped_eq.trans hstopped, ?_⟩
    have hsame := hstep.taken_append
    have hnone : q.serve.queue = [] := h.serve.queue_eq (hstep.stopped_eq.trans hstopped)
    rw [hnone, h.queue_eq hstopped, List.append_nil, List.append_nil] at hsame
    exact hsame

theorem joined_step (hjoined : q.joined = true) (e : Event α) : (q.step e).joined = true := by
  cases e with
  | add function =>
    rw [step, RateQueue.add]
    split_ifs
    · exact hjoined
    · exact hjoined
  | stop => exact hjoined
  | join => rfl
  | service => exact (step_serve q).joined_eq.trans hjoined

/-- Nothing is taken after a stop. -/
theorem InOrder.taken_run (h : InOrder q) (hstopped : q.stopped = true) {es : List (Event α)}
    (hes : Run.EveryStep RateQueue.step Allowed q es) :
    let q' := es.foldl RateQueue.step q
    InOrder q' ∧ q'.taken = q.taken ∧ (q.joined = true → q'.joined = true) := by
  have hrun := hes.invariant (I := fun m => InOrder m ∧ m.stopped = true ∧ m.taken = q.taken ∧
    (q.joined = true → m.joined = true)) ⟨h, hstopped, rfl, id⟩ ?_
  · exact ⟨hrun.1, hrun.2.2⟩
  · rintro m e ⟨hm, hstop, htaken, hjoined⟩ he
    obtain ⟨hstop', hsame⟩ := hm.taken_step hstop e
    exact ⟨hm.step he, hstop', hsame.trans htaken, fun hq => joined_step (hjoined hq) e⟩

theorem taken_of_ended (h : q.service = .ended) : q.taken = q.executed := by
  rw [taken, inHand, h]
  exact List.append_nil _

theorem begun_of_ended (h : q.service = .ended) : q.begun = q.executed := by
  rw [begun, running, h]
  exact List.append_nil _

/-- **Functions are run in order.** In any interleaving of the threads that add and stop with the
queue's own one, what has been taken off the queue is what was added first, each function once and
in the order of the calls, and all of it has been begun but the last one, at most; while the queue
is not stopped, the rest is still to come. Once a call of `stop` has been to its critical section,
no other function is taken, so that the one in hand is the last that can be begun; once the first
call has returned, none is running and none is begun. -/
theorem runs_in_order (es later : List (Event α))
    (h : Run.EveryStep step Allowed (startQueue : RateQueue α) (es ++ later)) :
    let q := es.foldl step startQueue
    let q' := later.foldl step q
    q.begun <+: q.taken ∧ q.taken.length ≤ q.begun.length + 1 ∧ q.taken <+: q.added ∧
      (q.stopped = false → q.added = q.taken ++ q.queue) ∧
      (q.stopped = true → q'.taken = q.taken ∧ q'.begun <+: q.taken) ∧
      (q.joined = true → q'.executed = q.executed ∧ q'.begun = q.executed) := by
  intro q q'
  rw [Run.EveryStep.append_iff] at h
  have hq : InOrder q := h.1.invariant inOrder_startQueue fun _ _ hm he => hm.step he
  refine ⟨q.begun_prefix_taken, q.length_taken_le, hq.taken_added, hq.added_eq, fun hstopped => ?_,
    fun hjoined => ?_⟩
  · have htaken := (hq.taken_run hstopped h.2).2.1
    have hbegun := q'.begun_prefix_taken
    rw [htaken] at hbegun
    exact ⟨htaken, hbegun⟩
  · have hended := hq.joined hjoined
    obtain ⟨hq', htaken, hjoined'⟩ := hq.taken_run (hq.stopped_of_ended hended) h.2
    have hended' : q'.service = .ended := hq'.joined (hjoined' hjoined)
    have hexecuted : q'.executed = q.executed := by
      rw [← taken_of_ended hended', htaken, taken_of_ended hended]
    exact ⟨hexecuted, (begun_of_ended hended').trans hexecuted⟩

/-- Two functions are added, and the queue is stopped when the first one is off the queue and not
begun. -/
theorem runs_in_order_stopped :
    let q := [.add 7, .add 8, .service, .service, .stop].foldl step (startQueue : RateQueue ℕ)
    let q' := [.service, .add 9, .service, .service, .service, .join].foldl step q
    q.begun <+: q.taken ∧ q.taken.length ≤ q.begun.length + 1 ∧ q.taken <+: q.added ∧
      (q.stopped = false → q.added = q.taken ++ q.queue) ∧
      (q.stopped = true → q'.taken = q.taken ∧ q'.begun <+: q.taken) ∧
      (q.joined = true → q'.executed = q.executed ∧ q'.begun = q.executed) :=
  runs_in_order [.add 7, .add 8, .service, .service, .stop]
    [.service, .add 9, .service, .service, .service, .join] (by decide)

/-- A function that is in hand may be begun after the stop. -/
example :
    let q := [.add 7, .service, .service, .stop].foldl step (startQueue : RateQueue ℕ)
    q.begun = [] ∧ q.taken = [7] ∧ (q.step .service).begun = [7] := by
  decide

/-! ## The rate -/

/-- The sleeps that have ended, and the one that has to end before a function can be begun again. -/
def allowance (q : RateQueue α) : ℕ :=
  match q.service with
  | .executing _ => q.sleeps + 1
  | .sleeping => q.sleeps + 1
  | _ => q.sleeps

theorem sleeps_le_allowance (q : RateQueue α) : q.sleeps ≤ q.allowance := by
  rw [allowance]
  split <;> omega

theorem allowance_le (q : RateQueue α) : q.allowance ≤ q.sleeps + 1 := by
  rw [allowance]
  split <;> omega

/-- **One step** begins a function only if the allowance grows. -/
theorem length_begun_step (q : RateQueue α) (e : Event α) :
    (q.step e).begun.length + q.allowance ≤ q.begun.length + (q.step e).allowance := by
  cases e with
  | add function =>
    rw [step, RateQueue.add]
    split_ifs
    · exact Nat.le_refl _
    · exact Nat.le_refl _
  | stop => exact Nat.le_refl _
  | join => exact Nat.le_refl _
  | service =>
    show q.serve.begun.length + _ ≤ _ + q.serve.allowance
    have hstep := step_serve q
    generalize q.serve = q' at hstep ⊢
    cases hstep with
    | leaves hservice => simp [begun, running, allowance, hservice]
    | goesOn hservice => simp [begun, running, allowance, hservice]
    | finds toExec queue hservice => simp [begun, running, allowance, hservice]
    | idles hservice => simp [begun, running, allowance, hservice]
    | begins toExec hservice => simp [begun, running, allowance, hservice]; omega
    | returns toExec hservice => simp [begun, running, allowance, hservice]
    | wakes hservice => simp [begun, running, allowance, hservice]
    | rests => exact Nat.le_refl _

/-- **At most one function for each sleep.** In any interleaving, over any stretch of it, the
functions that are begun are at most one more than the sleeps that end. -/
theorem rate_limited (q : RateQueue α) (es : List (Event α)) :
    let q' := es.foldl step q
    q'.begun.length + q.sleeps ≤ q.begun.length + q'.sleeps + 1 := by
  intro q'
  have hgrows : q'.begun.length + q.allowance ≤ q.begun.length + q'.allowance := by
    have hall : Run.EveryStep step (fun _ _ => True) q es :=
      Run.everyStep_of_forall (fun _ _ _ => trivial) q
    refine hall.invariant (I := fun m => m.begun.length + q.allowance ≤
      q.begun.length + m.allowance) (Nat.le_refl _) fun m e hm _ => ?_
    have hstep := length_begun_step m e
    omega
  have hlow := q.sleeps_le_allowance
  have hhigh := q'.allowance_le
  omega

/-! ## Progress -/

/-- The steps of `service` until so many functions have returned, if they were added. -/
def stepsUntil (n : ℕ) (q : RateQueue α) : ℕ :=
  if n ≤ q.executed.length then 0
  else 5 * (n - q.executed.length - 1) +
    match q.service with
    | .sleeping => 5
    | .testing => 4
    | .locking => 3
    | .taken _ => 2
    | .executing _ => 1
    | .ended => 5

/-- The step is one of `service`. -/
def Event.isService : Event α → Bool
  | .service => true
  | _ => false

theorem stepsUntil_le (n : ℕ) (q : RateQueue α) : q.stepsUntil n ≤ 5 * (n - q.executed.length) := by
  rw [stepsUntil]
  split_ifs with hdone
  · exact Nat.zero_le _
  · split <;> omega

theorem le_of_stepsUntil_eq_zero {n : ℕ} (h : q.stepsUntil n = 0) : n ≤ q.executed.length := by
  rw [stepsUntil] at h
  split_ifs at h with hdone
  · exact hdone
  · split at h <;> omega

/-- **One step of `service`** while there is something to run. -/
theorem InOrder.stepsUntil_serve (h : InOrder q) (hrunning : q.stopped = false) {n : ℕ}
    (hadded : n ≤ q.added.length) : q.serve.stepsUntil n ≤ q.stepsUntil n - 1 := by
  have hstep := step_serve q
  generalize q.serve = q' at hstep ⊢
  cases hstep with
  | leaves hservice hstopped => exact absurd (hrunning.symm.trans hstopped) Bool.false_ne_true
  | rests hservice =>
    exact absurd (hrunning.symm.trans (h.stopped_of_ended hservice)) Bool.false_ne_true
  | idles hservice hqueue =>
    -- everything that was added has returned
    have hall : q.added = q.executed := by
      rw [h.added_eq hrunning, hqueue, taken, inHand, hservice, List.append_nil, List.append_nil]
    rw [hall] at hadded
    rw [stepsUntil, if_pos hadded]
    exact Nat.zero_le _
  | goesOn hservice =>
    simp only [stepsUntil, hservice]
    split_ifs <;> omega
  | finds toExec queue hservice =>
    simp only [stepsUntil, hservice]
    split_ifs <;> omega
  | begins toExec hservice =>
    simp only [stepsUntil, hservice]
    split_ifs <;> omega
  | returns toExec hservice =>
    simp only [stepsUntil, hservice, List.length_append, List.length_singleton]
    split_ifs <;> omega
  | wakes hservice =>
    simp only [stepsUntil, hservice]
    split_ifs <;> omega

/-- Nothing is taken back. -/
theorem added_prefix_step (q : RateQueue α) (e : Event α) : q.added <+: (q.step e).added := by
  cases e with
  | add function =>
    rw [step, RateQueue.add]
    split_ifs
    · exact List.prefix_rfl
    · exact List.prefix_append ..
  | stop => exact List.prefix_rfl
  | join => exact List.prefix_rfl
  | service =>
    have hsame : q.serve.added = q.added := (step_serve q).added_eq
    exact ⟨[], (List.append_nil _).trans hsame.symm⟩

theorem stopped_step {e : Event α} (he : e ≠ .stop) : (q.step e).stopped = q.stopped := by
  cases e with
  | add function =>
    rw [step, RateQueue.add]
    split_ifs <;> rfl
  | stop => exact absurd rfl he
  | join => rfl
  | service => exact (step_serve q).stopped_eq

/-- **Each function is run.** While the queue is not stopped, whatever the other threads do, all
that was added by some time has returned once the thread has made five steps for each function that
was left then. -/
theorem run_in_time (es later : List (Event α))
    (h : Run.EveryStep step (fun q e => q.Allowed e ∧ e ≠ .stop) (startQueue : RateQueue α)
      (es ++ later)) :
    let q := es.foldl step startQueue
    let q' := later.foldl step q
    5 * (q.added.length - q.executed.length) ≤ later.countP Event.isService →
      q.added <+: q'.executed := by
  intro q q' hlong
  rw [Run.EveryStep.append_iff] at h
  have hq : InOrder q ∧ q.stopped = false := by
    refine h.1.invariant (I := fun m => InOrder m ∧ m.stopped = false)
      ⟨inOrder_startQueue, rfl⟩ fun m e hm he => ⟨hm.1.step he.1, ?_⟩
    rw [stopped_step he.2]
    exact hm.2
  have hq' : InOrder q' ∧ q.added <+: q'.added := by
    refine h.2.invariant (I := fun m => InOrder m ∧ q.added <+: m.added)
      ⟨hq.1, List.prefix_rfl⟩ fun m e hm he => ?_
    exact ⟨hm.1.step he.1, hm.2.trans (added_prefix_step m e)⟩
  have hsteps : q'.stepsUntil q.added.length ≤
      q.stepsUntil q.added.length - later.countP Event.isService := by
    refine h.2.foldl_le_sub
      (I := fun m => InOrder m ∧ m.stopped = false ∧ q.added.length ≤ m.added.length)
      ⟨hq.1, hq.2, Nat.le_refl _⟩ ?_
    rintro m e ⟨hm, hrunning, hadded⟩ ⟨he, hne⟩
    have hmore := Nat.le_trans hadded (added_prefix_step m e).length_le
    refine ⟨⟨hm.step he, (stopped_step hne).trans hrunning, hmore⟩, ?_⟩
    cases e with
    | add function =>
      rw [step, RateQueue.add, hrunning]
      exact Nat.le_refl _
    | stop => exact absurd rfl hne
    | join => exact Nat.le_refl _
    | service => exact hm.stepsUntil_serve hrunning hadded
  have hbound := stepsUntil_le q.added.length q
  have hdone : q'.stepsUntil q.added.length = 0 := by omega
  have hexecuted : q'.executed <+: q'.added := (List.prefix_append ..).trans hq'.1.taken_added
  exact List.prefix_of_prefix_length_le hq'.2 hexecuted (le_of_stepsUntil_eq_zero hdone)

/-- Two functions are added while the thread sleeps. -/
theorem run_in_time_two :
    let es : List (Event ℕ) := [.service, .service, .add 7, .add 8]
    let later : List (Event ℕ) := [.service, .service, .service, .service, .service, .add 9,
      .service, .service, .service, .service, .service]
    let q := es.foldl step startQueue
    let q' := later.foldl step q
    q.added <+: q'.executed := by
  intro es later q q'
  exact run_in_time es later (by decide) (by decide)

end RateQueue

end Pingfs
