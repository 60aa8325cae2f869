import Pingfs.Block.AsyncBlockManager

/-!
# Pending requests

Any number of `get_blocks` calls wait on one `AsyncBlockManager` while blocks come in. A run is a
list of events, each a registration or a processed block, in the order in which they take
`map_mutex_`. The manager's map and the sets of ids the responses wait on are kept in step by
every event, and this carries a response from its registration to the event that completes it.

Sources: `async_block_manager.cc`, `async_response.cc`.

## Main results

* `lockstep_run` — a response is listed under an id exactly while it waits on it
* `completes_once` — a request completes once, with its last missing block
* `Quiet.getBlocks` — a request all of whose blocks come by leaves nobody waiting
-/

namespace Pingfs

namespace AsyncResponse

variable {r : AsyncResponse}

theorem waitingOn_foldl_update (r : AsyncResponse) (arrived : List Block) :
    (arrived.foldl update r).waitingOn = r.waitingOn \ (arrived.map Block.id).toFinset := by
  induction arrived generalizing r with
  | nil => simp
  | cons b arrived ih =>
    rw [List.foldl_cons, ih, waitingOn_update]
    ext id
    simp only [Finset.mem_sdiff, Finset.mem_erase, List.map_cons, List.mem_toFinset, List.mem_cons]
    tauto

/-- An update that leaves something to wait for does not set the promise. -/
theorem values_update (hwaits : (r.update b).waitingOn ≠ ∅) : (r.update b).values = r.values := by
  rw [waitingOn_update] at hwaits
  rw [update]
  split
  case isTrue => rw [notifyIfComplete, if_neg hwaits]
  case isFalse => rfl

theorem values_foldl_update_of_waiting {arrived : List Block}
    (hwaits : (arrived.foldl update r).waitingOn ≠ ∅) :
    (arrived.foldl update r).values = r.values := by
  induction arrived generalizing r with
  | nil => rfl
  | cons b arrived ih =>
    have hwaits' : (r.update b).waitingOn ≠ ∅ := by
      intro hempty
      rw [List.foldl_cons, foldl_update_of_empty hempty, hempty] at hwaits
      exact hwaits rfl
    rw [List.foldl_cons, ih hwaits, values_update hwaits']

/-- The promise is set by the last missing block. -/
theorem values_update_ne_iff (r : AsyncResponse) (b : Block) :
    (r.update b).values ≠ r.values ↔ r.waitingOn = {b.id} := by
  constructor
  · intro hset
    have hempty : r.waitingOn.erase b.id = ∅ := by
      by_contra hwaits
      rw [← waitingOn_update] at hwaits
      exact hset (values_update hwaits)
    refine (Finset.erase_eq_empty_iff _ _).mp hempty |>.resolve_left fun hnone => hset ?_
    rw [update_of_notMem (by simp [hnone])]
  · intro hlast
    have hb : b.id ∈ r.waitingOn := by simp [hlast]
    simp [update, notifyIfComplete, hlast]

theorem nodup_map_collect (waitingOn : Finset BlockId) (arrived : List Block) :
    ((collect waitingOn arrived).map Block.id).Nodup :=
  (pairwise_collect waitingOn arrived).imp fun hlt heq => by
    rw [heq] at hlt
    exact Nat.lt_irrefl _ hlt

/-- What is collected for an id is the first block with it. -/
theorem find?_of_mem_collect {waitingOn : Finset BlockId} {arrived : List Block} {b : Block}
    (h : b ∈ collect waitingOn arrived) : arrived.find? (fun a => a.id = b.id) = some b := by
  induction arrived generalizing waitingOn with
  | nil => cases h
  | cons a arrived ih =>
    have hwaits : b.id ∈ waitingOn := (mem_map_collect.mp (List.mem_map_of_mem h)).1
    rw [collect] at h
    split at h
    case isTrue ha =>
      rcases List.mem_cons.mp h with rfl | h
      · simp
      · have hne : a.id ≠ b.id := by
          have hwaits' := (mem_map_collect.mp (List.mem_map_of_mem h)).1
          exact (Finset.ne_of_mem_erase hwaits').symm
        rw [List.find?_cons_of_neg (by simpa using hne)]
        exact ih h
    case isFalse ha =>
      have hne : a.id ≠ b.id := fun heq => ha (heq ▸ hwaits)
      rw [List.find?_cons_of_neg (by simpa using hne)]
      exact ih h

end AsyncResponse

namespace AsyncBlockManager

open AsyncResponse (collect)

/-- What takes `map_mutex_`: a `get_blocks` call that registers, or a processed block. -/
inductive Event where
  | getBlocks (request : List BlockId)
  | process (block : Block)

def step (m : AsyncBlockManager) : Event → AsyncBlockManager
  | .getBlocks request => m.register request
  | .process block => m.process block

/-- The blocks processed in a run, in order. -/
def arrivals : List Event → List Block
  | [] => []
  | .getBlocks _ :: es => arrivals es
  | .process block :: es => block :: arrivals es

variable {m : AsyncBlockManager} {p : ℕ} {r : AsyncResponse}

/-! ## The map and the responses in step -/

/-- `waiting_[id]` lists exactly the responses that wait on `id`. -/
def Lockstep (m : AsyncBlockManager) : Prop :=
  ∀ id p, p ∈ (m.waiting id).getD [] ↔ ∃ r, m.responses[p]? = some r ∧ id ∈ r.waitingOn

theorem lockstep_iff : Lockstep m ↔ ∀ p r, m.responses[p]? = some r → Tracks m p r := by
  constructor
  · intro h p r hr
    refine ⟨hr, fun id => (h id p).trans ?_⟩
    rw [hr]
    simp
  · intro h id p
    constructor
    · intro hp
      have hlt : p < m.responses.length := by
        cases hw : m.waiting id with
        | none => simp [hw] at hp
        | some v => exact m.waiting_lt id v hw p (by simpa [hw] using hp)
      have hr := List.getElem?_eq_getElem hlt
      exact ⟨_, hr, ((h p _ hr).waiting id).mp hp⟩
    · rintro ⟨r, hr, hid⟩
      exact ((h p r hr).waiting id).mpr hid

theorem Tracks.lt_length (h : Tracks m p r) : p < m.responses.length :=
  (List.getElem?_eq_some_iff.mp h.response).1

/-- Another request does not touch a response. -/
theorem Tracks.register (h : Tracks m p r) (request : List BlockId) :
    Tracks (m.register request) p r where
  response := by
    have hr := h.response
    rwa [AsyncBlockManager.register, List.getElem?_append_left h.lt_length]
  waiting id := by
    have hne : p ≠ m.responses.length := Nat.ne_of_lt h.lt_length
    simp only [AsyncBlockManager.register, mem_foldl_pushWaiter, hne, false_and, or_false]
    exact h.waiting id

theorem Tracks.foldl_step (h : Tracks m p r) (es : List Event) :
    Tracks (es.foldl step m) p ((arrivals es).foldl AsyncResponse.update r) := by
  induction es generalizing m r with
  | nil => exact h
  | cons e es ih =>
    cases e with
    | getBlocks request => exact ih (h.register request)
    | process block => exact ih (h.process block)

theorem Lockstep.step (h : Lockstep m) (e : Event) : Lockstep (m.step e) := by
  rw [lockstep_iff] at h ⊢
  intro p r hr
  cases e with
  | getBlocks request =>
    change (m.responses ++ [AsyncResponse.new request])[p]? = some r at hr
    by_cases hp : p < m.responses.length
    · rw [List.getElem?_append_left hp] at hr
      exact (h p r hr).register request
    · obtain rfl : p = m.responses.length := by
        have hlt := (List.getElem?_eq_some_iff.mp hr).1
        rw [List.length_append, List.length_singleton] at hlt
        omega
      rw [List.getElem?_concat_length] at hr
      rw [← Option.some.inj hr]
      exact m.tracks_register request
  | process block =>
    have hlt : p < m.responses.length := by
      by_contra hge
      have hnone : (m.process block).responses[p]? = none := by
        rw [List.getElem?_eq_none_iff, AsyncBlockManager.process]
        split <;> simpa using hge
      rw [AsyncBlockManager.step, hnone] at hr
      cases hr
    have hprocess := (h p _ (List.getElem?_eq_getElem hlt)).process block
    rw [AsyncBlockManager.step, hprocess.response] at hr
    rw [← Option.some.inj hr]
    exact hprocess

/-- **The map and the responses stay in step.** -/
theorem lockstep_run (es : List Event) : Lockstep (es.foldl step new) := by
  refine List.foldlRecOn es _ ?_ ?_
  · intro id p
    simp [new]
  · intro m hm e _
    exact hm.step e

/-! ## One request -/

/-- The requested ids of which no block has been processed. -/
def missing (request : List BlockId) (arrived : List Block) : Finset BlockId :=
  request.toFinset \ (arrived.map Block.id).toFinset

/-- One block for each requested id: the first one processed with it. -/
structure Delivers (request : List BlockId) (arrived delivered : List Block) : Prop where
  nodup : (delivered.map Block.id).Nodup
  mem_ids_iff : ∀ id, id ∈ delivered.map Block.id ↔ id ∈ request
  first : ∀ b ∈ delivered, arrived.find? (fun a => a.id = b.id) = some b

/-- What the promise of the response `p` has been set to, one entry for each `set_value`. -/
def promised (m : AsyncBlockManager) (p : ℕ) : Option (List (List Block)) :=
  m.responses[p]?.map (·.values)

variable {request : List BlockId} {arrived : List Block}

theorem forall_mem_of_missing_eq_empty (h : missing request arrived = ∅) :
    ∀ id ∈ request, id ∈ arrived.map Block.id := by
  intro id hid
  have hsub := Finset.sdiff_eq_empty_iff_subset.mp h
  exact List.mem_toFinset.mp (hsub (List.mem_toFinset.mpr hid))

theorem delivers_collect (h : missing request arrived = ∅) :
    Delivers request arrived (collect request.toFinset arrived) where
  nodup := AsyncResponse.nodup_map_collect _ _
  mem_ids_iff id := by
    rw [AsyncResponse.mem_map_collect, List.mem_toFinset]
    exact and_iff_left_of_imp (forall_mem_of_missing_eq_empty h id)
  first _ hb := AsyncResponse.find?_of_mem_collect hb

/-- What a response's promise has been set to after some blocks. -/
theorem values_foldl_update_new (request : List BlockId) (arrived : List Block) :
    (arrived.foldl AsyncResponse.update (.new request)).values =
      if missing request arrived = ∅ then [collect request.toFinset arrived] else [] := by
  have hwaits := AsyncResponse.waitingOn_foldl_update (.new request) arrived
  rw [AsyncResponse.waitingOn_new] at hwaits
  split
  case isTrue hall =>
    by_cases hempty : request.toFinset = ∅
    · have hnew : AsyncResponse.new request = ⟨∅, [], [[]]⟩ := by
        simp [AsyncResponse.new, AsyncResponse.notifyIfComplete, hempty]
      rw [hnew, AsyncResponse.foldl_update_of_empty rfl, hempty, AsyncResponse.collect_empty]
    · have hnew : AsyncResponse.new request = ⟨request.toFinset, [], []⟩ := by
        simp [AsyncResponse.new, AsyncResponse.notifyIfComplete, hempty]
      rw [hnew, AsyncResponse.values_foldl_update _ hempty rfl
        (by simpa using forall_mem_of_missing_eq_empty hall), List.nil_append]
  case isFalse hmissing =>
    rw [AsyncResponse.values_foldl_update_of_waiting (by rwa [hwaits])]
    have hempty : request.toFinset ≠ ∅ := by
      intro hempty
      rw [missing, hempty, Finset.empty_sdiff] at hmissing
      exact hmissing rfl
    simp [AsyncResponse.new, AsyncResponse.notifyIfComplete, hempty]

/-- The event that sets a promise. -/
theorem Tracks.promised_step_ne_iff (h : Tracks m p r) (e : Event) :
    promised (m.step e) p ≠ promised m p ↔
      ∃ block, e = .process block ∧ r.waitingOn = {block.id} := by
  rw [promised, promised, h.response]
  cases e with
  | getBlocks request => simp [step, (h.register request).response]
  | process block =>
    rw [step, (h.process block).response]
    simp [← AsyncResponse.values_update_ne_iff]

/-- **A request completes once, with its last missing block.** In any run, the promise of a
request is set exactly if a block was processed for each requested id since it was registered, and
then once, to the first block of each; the event that sets it is the one that supplies the last
missing id. -/
theorem completes_once (before : List Event) (request : List BlockId) (after : List Event) :
    let m := (before ++ .getBlocks request :: after).foldl step new
    let p := (before.foldl step new).responses.length
    (missing request (arrivals after) = ∅ → ∃ delivered,
      promised m p = some [delivered] ∧ Delivers request (arrivals after) delivered) ∧
    (missing request (arrivals after) ≠ ∅ → promised m p = some []) ∧
    (∀ e, promised (m.step e) p ≠ promised m p ↔
      ∃ block, e = .process block ∧ missing request (arrivals after) = {block.id}) ∧
    Lockstep m := by
  intro m p
  have htracks : Tracks m p ((arrivals after).foldl AsyncResponse.update (.new request)) := by
    have hm : m = after.foldl step ((before.foldl step new).register request) := List.foldl_append
    rw [hm]
    exact (tracks_register _ request).foldl_step after
  have hpromised : promised m p = some (if missing request (arrivals after) = ∅ then
      [collect request.toFinset (arrivals after)] else []) := by
    rw [promised, htracks.response, Option.map_some, values_foldl_update_new]
  refine ⟨fun hall => ?_, fun hmissing => ?_, fun e => ?_, lockstep_run _⟩
  · rw [hpromised, if_pos hall]
    exact ⟨_, rfl, delivers_collect hall⟩
  · rw [hpromised, if_neg hmissing]
  · rw [htracks.promised_step_ne_iff, AsyncResponse.waitingOn_foldl_update,
      AsyncResponse.waitingOn_new, missing]

/-! ## Between requests -/

/-- Nothing is waited for, and the promise of every request was set once. -/
structure Quiet (m : AsyncBlockManager) : Prop where
  waiting_eq : ∀ id, m.waiting id = none
  answered : ∀ r ∈ m.responses, r.waitingOn = ∅ ∧ ∃ delivered, r.values = [delivered]

theorem quiet_new : Quiet new := ⟨fun _ => rfl, fun _ hr => absurd hr List.not_mem_nil⟩

theorem Quiet.tracks (h : Quiet m) (hr : m.responses[p]? = some r) : Tracks m p r where
  response := hr
  waiting id := by
    obtain ⟨hnone, -⟩ := h.answered r (List.mem_of_getElem? hr)
    simp [h.waiting_eq, hnone]

/-- A block that comes by finds nobody. -/
theorem Quiet.foldl_process (h : Quiet m) (arrived : List Block) :
    arrived.foldl AsyncBlockManager.process m = m := by
  induction arrived with
  | nil => rfl
  | cons block arrived ih =>
    have hsame : m.process block = m := by
      rw [AsyncBlockManager.process, h.waiting_eq]
    rw [List.foldl_cons, hsame, ih]

theorem waiting_process (m : AsyncBlockManager) (block : Block) (id : BlockId) :
    (m.process block).waiting id = if id = block.id then none else m.waiting id := by
  rw [AsyncBlockManager.process]
  cases hw : m.waiting block.id with
  | none =>
    by_cases hid : id = block.id
    · rw [if_pos hid, hid, hw]
    · rw [if_neg hid]
  | some waitingVec => simp [Function.update_apply]

theorem waiting_foldl_process {id : BlockId} (h : id ∈ arrived.map Block.id ∨ m.waiting id = none) :
    (arrived.foldl AsyncBlockManager.process m).waiting id = none := by
  induction arrived generalizing m with
  | nil => simpa using h
  | cons block arrived ih =>
    refine ih ?_
    rw [waiting_process]
    by_cases hid : id = block.id
    · simp [hid]
    · simpa [hid] using h

theorem length_foldl_process (m : AsyncBlockManager) (arrived : List Block) :
    (arrived.foldl AsyncBlockManager.process m).responses.length = m.responses.length := by
  induction arrived generalizing m with
  | nil => rfl
  | cons block arrived ih =>
    rw [List.foldl_cons, ih, AsyncBlockManager.process]
    split
    · rfl
    · simp

theorem waiting_register {id : BlockId} (hid : id ∉ request) (m : AsyncBlockManager) :
    (m.register request).waiting id = m.waiting id := by
  have hfold : ∀ waiting : BlockId → Option (List ℕ),
      request.foldl (fun w i => pushWaiter w m.responses.length i) waiting id = waiting id := by
    induction request with
    | nil =>
      intro waiting
      rfl
    | cons i request ih =>
      intro waiting
      obtain ⟨hne, hrest⟩ := List.ne_and_not_mem_of_not_mem_cons hid
      rw [List.foldl_cons, ih hrest, pushWaiter, Function.update_of_ne hne]
  exact hfold m.waiting

/-- **A request all of whose blocks come by** leaves nobody waiting. -/
theorem Quiet.getBlocks (h : Quiet m) (hall : ∀ id ∈ request, id ∈ arrived.map Block.id) :
    Quiet (arrived.foldl AsyncBlockManager.process (m.register request)) where
  waiting_eq id := by
    by_cases hid : id ∈ request
    · exact waiting_foldl_process (Or.inl (hall id hid))
    · refine waiting_foldl_process (Or.inr ?_)
      rw [waiting_register hid, h.waiting_eq]
  answered r hr := by
    obtain ⟨p, hp⟩ := List.mem_iff_getElem?.mp hr
    by_cases hold : p < m.responses.length
    · have hfirst := List.getElem?_eq_getElem hold
      obtain ⟨hnone, hset⟩ := h.answered _ (List.mem_of_getElem? hfirst)
      have htracks := ((h.tracks hfirst).register request).foldl_process arrived
      rw [htracks.response, AsyncResponse.foldl_update_of_empty hnone] at hp
      rw [← Option.some.inj hp]
      exact ⟨hnone, hset⟩
    · obtain rfl : p = m.responses.length := by
        have hlt := (List.getElem?_eq_some_iff.mp hp).1
        rw [length_foldl_process, AsyncBlockManager.register, List.length_append,
          List.length_singleton] at hlt
        omega
      rw [((tracks_register m request).foldl_process arrived).response] at hp
      have hmissing : missing request arrived = ∅ := by
        refine Finset.sdiff_eq_empty_iff_subset.mpr fun id hid => ?_
        exact List.mem_toFinset.mpr (hall id (List.mem_toFinset.mp hid))
      rw [← Option.some.inj hp, AsyncResponse.waitingOn_foldl_update, values_foldl_update_new,
        if_pos hmissing, AsyncResponse.waitingOn_new]
      exact ⟨hmissing, _, rfl⟩

end AsyncBlockManager

end Pingfs
