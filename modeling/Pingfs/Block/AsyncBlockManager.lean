import Pingfs.Block.MemoryBlockManager
import Mathlib.Data.Finset.Basic
import Mathlib.Data.List.Perm.Basic

/-!
# The asynchronous block manager

`AsyncBlockManager` answers a request for blocks out of the packets that come in. Each request
becomes an `AsyncResponse`, which knows the ids it still waits on and collects the blocks as they
arrive; the manager keeps, for each id, the responses waiting on it.

A `shared_ptr<AsyncResponse>` is an index into the list of all responses made so far. That the
indices in `waiting` are in range is a field of the manager, so a dangling pointer cannot be
built.

Sources: `async_response.cc`, `async_block_manager.cc`.

## Main results

* `AsyncBlockManager.response_process` — a processed block reaches a response as one `update`
* `AsyncResponse.foldl_update_eq_collect` — what a response has collected after any arrivals
* `AsyncBlockManager.getBlocks_eq_memory_iff` — the two managers give the same list exactly when
  the requested ids first arrive in the order of the request, without repetitions
-/

namespace Pingfs

/-- `class AsyncResponse`. `values` are the arguments `promise_.set_value` has been called with:
the first fulfils the promise, a second call would throw. -/
structure AsyncResponse where
  waitingOn : Finset BlockId
  blocks : List Block
  values : List (List Block)

namespace AsyncResponse

/-- `AsyncResponse::notify_if_complete`. -/
def notifyIfComplete (r : AsyncResponse) : AsyncResponse :=
  if r.waitingOn = ∅ then { r with values := r.values ++ [r.blocks] } else r

/-- `AsyncResponse::AsyncResponse`. -/
def new (request : List BlockId) : AsyncResponse :=
  notifyIfComplete ⟨request.toFinset, [], []⟩

/-- `AsyncResponse::update`. -/
def update (r : AsyncResponse) (block : Block) : AsyncResponse :=
  if block.id ∈ r.waitingOn then
    notifyIfComplete { r with
      waitingOn := r.waitingOn.erase block.id
      blocks := r.blocks ++ [block] }
  else r

/-- What the future gives, once the promise is set. -/
def future (r : AsyncResponse) : Option (List Block) := r.values.head?

@[simp] theorem waitingOn_notifyIfComplete (r : AsyncResponse) :
    r.notifyIfComplete.waitingOn = r.waitingOn := by
  unfold notifyIfComplete; split <;> rfl

@[simp] theorem waitingOn_new (request : List BlockId) :
    (new request).waitingOn = request.toFinset := by simp [new]

@[simp] theorem waitingOn_update (r : AsyncResponse) (block : Block) :
    (r.update block).waitingOn = r.waitingOn.erase block.id := by
  unfold update
  split
  case isTrue => simp
  case isFalse h => exact (Finset.erase_eq_of_notMem h).symm

theorem update_of_notMem {r : AsyncResponse} {block : Block} (h : block.id ∉ r.waitingOn) :
    r.update block = r := if_neg h

/-- The second delivery of a block does nothing. -/
@[simp] theorem update_update (r : AsyncResponse) (block : Block) :
    (r.update block).update block = r.update block :=
  update_of_notMem (by simp)

end AsyncResponse

/-- `class AsyncBlockManager`. -/
structure AsyncBlockManager where
  /-- Every `AsyncResponse` made so far; a pointer is a position in this list. -/
  responses : List AsyncResponse
  /-- `waiting_`. -/
  waiting : BlockId → Option (List ℕ)
  waiting_lt : ∀ id v, waiting id = some v → ∀ p ∈ v, p < responses.length

namespace AsyncBlockManager

/-- `AsyncBlockManager::AsyncBlockManager`. -/
def new : AsyncBlockManager := ⟨[], fun _ => none, fun _ _ h => nomatch h⟩

/-- One round of the loop of `get_blocks`: `waiting_[id].push_back(resp_ptr)`. -/
def pushWaiter (waiting : BlockId → Option (List ℕ)) (respPtr : ℕ) (id : BlockId) :
    BlockId → Option (List ℕ) :=
  Function.update waiting id (some ((waiting id).getD [] ++ [respPtr]))

theorem pushWaiter_lt {waiting : BlockId → Option (List ℕ)} {n : ℕ}
    (h : ∀ id v, waiting id = some v → ∀ p ∈ v, p < n + 1) (id : BlockId) :
    ∀ i v, pushWaiter waiting n id i = some v → ∀ p ∈ v, p < n + 1 := by
  intro i v hv p hp
  by_cases hi : i = id
  · subst hi
    obtain rfl : (waiting i).getD [] ++ [n] = v := by simpa [pushWaiter] using hv
    rcases List.mem_append.mp hp with hp | hp
    · cases hw : waiting i with
      | none => simp [hw] at hp
      | some w => exact h i w hw p (by simpa [hw] using hp)
    · simp at hp; omega
  · exact h i v (by simpa [pushWaiter, Function.update_of_ne hi] using hv) p hp

theorem foldl_pushWaiter_lt {n : ℕ} (request : List BlockId) :
    ∀ {waiting : BlockId → Option (List ℕ)}, (∀ id v, waiting id = some v → ∀ p ∈ v, p < n + 1) →
      ∀ id v, request.foldl (fun w i => pushWaiter w n i) waiting id = some v →
        ∀ p ∈ v, p < n + 1 := by
  induction request with
  | nil => intro waiting h; exact h
  | cons id request ih => intro waiting h; exact ih (pushWaiter_lt h id)

/-- `AsyncBlockManager::get_blocks` up to the wait on the future. -/
def register (m : AsyncBlockManager) (request : List BlockId) : AsyncBlockManager where
  responses := m.responses ++ [AsyncResponse.new request]
  waiting := request.foldl (fun w id => pushWaiter w m.responses.length id) m.waiting
  waiting_lt := by
    rw [List.length_append, List.length_singleton]
    exact foldl_pushWaiter_lt request fun id v hv p hp =>
      Nat.lt_succ_of_lt (m.waiting_lt id v hv p hp)

/-- The loop of `process` over the waiters of a block. -/
def updateAll (responses : List AsyncResponse) (waitingVec : List ℕ) (block : Block) :
    List AsyncResponse :=
  waitingVec.foldl (fun rs p => rs.modify p fun r => r.update block) responses

@[simp] theorem length_updateAll (responses : List AsyncResponse) (waitingVec : List ℕ)
    (block : Block) : (updateAll responses waitingVec block).length = responses.length := by
  induction waitingVec generalizing responses with
  | nil => rfl
  | cons p ps ih =>
    have hcons : updateAll responses (p :: ps) block
        = updateAll (responses.modify p fun r => r.update block) ps block := rfl
    rw [hcons, ih, List.length_modify]

/-- `AsyncBlockManager::process`. -/
def process (m : AsyncBlockManager) (block : Block) : AsyncBlockManager :=
  match m.waiting block.id with
  | none => m
  | some waitingVec =>
    { responses := updateAll m.responses waitingVec block
      waiting := Function.update m.waiting block.id none
      waiting_lt := by
        intro id v hv p hp
        rw [length_updateAll]
        by_cases hid : id = block.id
        · subst hid; simp at hv
        · exact m.waiting_lt id v (by simpa [Function.update_of_ne hid] using hv) p hp }

/-- What `get_blocks` returns when, after it has registered, the blocks of `arrivals` reach
`process` in this order; `none` while it still waits. -/
def getBlocks (m : AsyncBlockManager) (request : List BlockId) (arrivals : List Block) :
    Option (List Block) :=
  (arrivals.foldl process (m.register request)).responses[m.responses.length]? >>=
    AsyncResponse.future

/-! ## One response among the others -/

/-- The response `p` points to is `r`, and `p` waits in the manager's map exactly under the ids
that `r` still waits on. -/
structure Tracks (m : AsyncBlockManager) (p : ℕ) (r : AsyncResponse) : Prop where
  response : m.responses[p]? = some r
  waiting : ∀ id, p ∈ (m.waiting id).getD [] ↔ id ∈ r.waitingOn

theorem mem_foldl_pushWaiter {waiting : BlockId → Option (List ℕ)} {n q : ℕ}
    {request : List BlockId} {id : BlockId} :
    q ∈ (request.foldl (fun w i => pushWaiter w n i) waiting id).getD [] ↔
      q ∈ (waiting id).getD [] ∨ q = n ∧ id ∈ request := by
  induction request generalizing waiting with
  | nil => simp
  | cons i request ih =>
    rw [List.foldl_cons, ih]
    by_cases hi : id = i
    · subst hi; simp [pushWaiter]; tauto
    · simp [pushWaiter, hi]

theorem notMem_waiting_length (m : AsyncBlockManager) (id : BlockId) :
    m.responses.length ∉ (m.waiting id).getD [] := by
  intro hmem
  cases hw : m.waiting id with
  | none => simp [hw] at hmem
  | some v => exact Nat.lt_irrefl _ (m.waiting_lt id v hw _ (by simpa [hw] using hmem))

/-- A request that has just been registered is tracked under its distinct ids. -/
theorem tracks_register (m : AsyncBlockManager) (request : List BlockId) :
    Tracks (m.register request) m.responses.length (AsyncResponse.new request) where
  response := by simp [register]
  waiting id := by
    have hnew := notMem_waiting_length m id
    simp only [register, mem_foldl_pushWaiter, AsyncResponse.waitingOn_new, List.mem_toFinset]
    tauto

theorem getElem?_updateAll (responses : List AsyncResponse) (waitingVec : List ℕ) (block : Block)
    (p : ℕ) : (updateAll responses waitingVec block)[p]? =
      if p ∈ waitingVec then responses[p]?.map (·.update block) else responses[p]? := by
  induction waitingVec generalizing responses with
  | nil => rfl
  | cons q qs ih =>
    have hcons : updateAll responses (q :: qs) block
        = updateAll (responses.modify q fun r => r.update block) qs block := rfl
    rw [hcons, ih, List.getElem?_modify]
    by_cases hq : q = p
    · subst hq
      by_cases hqs : q ∈ qs
      · cases responses[q]? <;> simp [hqs]
      · cases responses[q]? <;> simp [hqs]
    · have hp : p ≠ q := Ne.symm hq
      simp [hq, hp]

/-- **A processed block reaches a tracked response as one `update`**, however often the response
waits under the block's id and whoever else waits there. -/
theorem Tracks.process {m : AsyncBlockManager} {p : ℕ} {r : AsyncResponse} (h : Tracks m p r)
    (block : Block) : Tracks (m.process block) p (r.update block) := by
  cases hw : m.waiting block.id with
  | none =>
    have hnot : block.id ∉ r.waitingOn := by rw [← h.waiting, hw]; simp
    rw [AsyncResponse.update_of_notMem hnot]
    simpa [AsyncBlockManager.process, hw] using h
  | some waitingVec =>
    have hmem : p ∈ waitingVec ↔ block.id ∈ r.waitingOn := by simpa [hw] using h.waiting block.id
    constructor
    · simp only [AsyncBlockManager.process, hw, getElem?_updateAll, h.response, Option.map_some]
      split
      case isTrue => rfl
      case isFalse hp => rw [AsyncResponse.update_of_notMem fun hid => hp (hmem.mpr hid)]
    · intro id
      simp only [AsyncBlockManager.process, hw, AsyncResponse.waitingOn_update, Finset.mem_erase]
      by_cases hid : id = block.id
      · subst hid; simp
      · simpa [Function.update_of_ne hid, hid] using h.waiting id

theorem Tracks.foldl_process {m : AsyncBlockManager} {p : ℕ} {r : AsyncResponse}
    (h : Tracks m p r) (arrivals : List Block) :
    Tracks (arrivals.foldl AsyncBlockManager.process m) p
      (arrivals.foldl AsyncResponse.update r) := by
  induction arrivals generalizing m r with
  | nil => exact h
  | cons b bs ih => exact ih (h.process b)

/-- Other requests do not matter: what `get_blocks` returns is what one response collects. -/
theorem getBlocks_eq_future (m : AsyncBlockManager) (request : List BlockId)
    (arrivals : List Block) : m.getBlocks request arrivals =
      (arrivals.foldl AsyncResponse.update (AsyncResponse.new request)).future := by
  rw [getBlocks, ((m.tracks_register request).foldl_process arrivals).response]
  rfl

end AsyncBlockManager

/-! ## What a response collects -/

namespace AsyncResponse

/-- The first block to arrive for each id of `waitingOn`, in order of arrival. -/
def collect (waitingOn : Finset BlockId) : List Block → List Block
  | [] => []
  | b :: bs =>
    if b.id ∈ waitingOn then b :: collect (waitingOn.erase b.id) bs else collect waitingOn bs

theorem mem_map_collect {waitingOn : Finset BlockId} {arrivals : List Block} {id : BlockId} :
    id ∈ (collect waitingOn arrivals).map Block.id ↔
      id ∈ waitingOn ∧ id ∈ arrivals.map Block.id := by
  induction arrivals generalizing waitingOn with
  | nil => simp [collect]
  | cons b bs ih =>
    rw [collect]
    split
    case isTrue hb =>
      rw [List.map_cons, List.mem_cons, ih]
      by_cases hid : id = b.id
      · simp [hid, hb]
      · simp [hid]
    case isFalse hb =>
      rw [ih]
      by_cases hid : id = b.id
      · subst hid; simp [hb]
      · simp [hid]

theorem mem_of_mem_collect {waitingOn : Finset BlockId} {arrivals : List Block} {b : Block}
    (h : b ∈ collect waitingOn arrivals) : b ∈ arrivals := by
  induction arrivals generalizing waitingOn with
  | nil => cases h
  | cons a as ih =>
    rw [collect] at h
    split at h
    case isTrue =>
      rcases List.mem_cons.mp h with rfl | h
      · exact List.mem_cons_self ..
      · exact List.mem_cons_of_mem _ (ih h)
    case isFalse => exact List.mem_cons_of_mem _ (ih h)

/-- Blocks are collected in the order in which their ids first arrive. -/
theorem pairwise_collect (waitingOn : Finset BlockId) (arrivals : List Block) :
    ((collect waitingOn arrivals).map Block.id).Pairwise fun i j =>
      (arrivals.map Block.id).idxOf i < (arrivals.map Block.id).idxOf j := by
  induction arrivals generalizing waitingOn with
  | nil => exact List.Pairwise.nil
  | cons b bs ih =>
    have hlater : ∀ {ids : List BlockId}, b.id ∉ ids →
        (ids.Pairwise fun i j => (bs.map Block.id).idxOf i < (bs.map Block.id).idxOf j) →
        ids.Pairwise fun i j => ((b :: bs).map Block.id).idxOf i
          < ((b :: bs).map Block.id).idxOf j := by
      intro ids hb hids
      refine hids.imp_of_mem fun {i j} hi hj hij => ?_
      have hbi : b.id ≠ i := fun h => hb (h ▸ hi)
      have hbj : b.id ≠ j := fun h => hb (h ▸ hj)
      rw [List.map_cons, List.idxOf_cons_ne _ hbi, List.idxOf_cons_ne _ hbj]
      omega
    rw [collect]
    split
    case isTrue hb =>
      have hb' : b.id ∉ (collect (waitingOn.erase b.id) bs).map Block.id := by
        rw [mem_map_collect]; simp
      refine List.Pairwise.cons (fun j hj => ?_) (hlater hb' (ih _))
      have hbj : b.id ≠ j := fun h => hb' (h ▸ hj)
      rw [List.map_cons, List.idxOf_cons_self, List.idxOf_cons_ne _ hbj]
      omega
    case isFalse hb =>
      exact hlater (fun h => hb (mem_map_collect.mp h).1) (ih _)

@[simp] theorem collect_empty (arrivals : List Block) : collect ∅ arrivals = [] := by
  induction arrivals with
  | nil => rfl
  | cons b bs ih => simpa [collect] using ih

/-- A response that waits on nothing is not touched any more. -/
theorem foldl_update_of_empty {r : AsyncResponse} (h : r.waitingOn = ∅) (arrivals : List Block) :
    arrivals.foldl update r = r := by
  induction arrivals with
  | nil => rfl
  | cons b bs ih => rw [List.foldl_cons, update_of_notMem (by simp [h]), ih]

/-- What the promise of an unfinished response is set to once everything it waits on has
arrived: set once, to what it had collected followed by what it still collects. -/
theorem values_foldl_update {arrivals : List Block} : ∀ r : AsyncResponse, r.waitingOn ≠ ∅ →
    r.values = [] → (∀ id ∈ r.waitingOn, id ∈ arrivals.map Block.id) →
    (arrivals.foldl update r).values = [r.blocks ++ collect r.waitingOn arrivals] := by
  induction arrivals with
  | nil =>
    intro r hr _ hall
    exact absurd (Finset.eq_empty_of_forall_notMem fun id hid => by simpa using hall id hid) hr
  | cons b bs ih =>
    intro r hr hvalues hall
    rw [List.foldl_cons, collect]
    by_cases hb : b.id ∈ r.waitingOn
    · rw [if_pos hb]
      by_cases hlast : r.waitingOn.erase b.id = ∅
      · -- the last missing block: the promise is set here
        have hset : r.update b = ⟨∅, r.blocks ++ [b], [r.blocks ++ [b]]⟩ := by
          simp [update, hb, notifyIfComplete, hlast, hvalues]
        rw [hset, foldl_update_of_empty rfl, hlast, collect_empty]
      · have hstep : r.update b = ⟨r.waitingOn.erase b.id, r.blocks ++ [b], r.values⟩ := by
          simp [update, hb, notifyIfComplete, hlast]
        rw [hstep,
          ih ⟨r.waitingOn.erase b.id, r.blocks ++ [b], r.values⟩ hlast hvalues fun id hid => ?_]
        · simp
        · have hmem := Finset.mem_erase.mp hid
          simpa [hmem.1] using hall id hmem.2
    · rw [if_neg hb, update_of_notMem hb]
      refine ih r hr hvalues fun id hid => ?_
      have hne : id ≠ b.id := fun h => hb (h ▸ hid)
      simpa [hne] using hall id hid

/-- Once every requested id has arrived, the future gives the first block of each, in order of
arrival. -/
theorem future_new (request : List BlockId) (arrivals : List Block)
    (hall : ∀ id ∈ request, id ∈ arrivals.map Block.id) :
    (arrivals.foldl update (new request)).future = some (collect request.toFinset arrivals) := by
  by_cases hempty : request.toFinset = ∅
  · have hnew : new request = ⟨∅, [], [[]]⟩ := by simp [new, notifyIfComplete, hempty]
    rw [hnew, foldl_update_of_empty rfl, hempty, collect_empty]
    rfl
  · have hnew : new request = ⟨request.toFinset, [], []⟩ := by
      simp [new, notifyIfComplete, hempty]
    rw [hnew, future, values_foldl_update _ hempty rfl (by simpa using hall)]
    rfl

end AsyncResponse

namespace AsyncBlockManager

/-! ## Against the in-memory manager -/

/-- When the block of an id first arrives, by its position among the arrivals. -/
def firstArrival (arrivals : List Block) (id : BlockId) : ℕ := (arrivals.map Block.id).idxOf id

/-- Two lists with the same members, both strictly sorted along `f`, are equal. -/
theorem eq_of_pairwise_lt {f : BlockId → ℕ} {l₁ l₂ : List BlockId}
    (h₁ : l₁.Pairwise fun i j => f i < f j) (h₂ : l₂.Pairwise fun i j => f i < f j)
    (hmem : ∀ i, i ∈ l₁ ↔ i ∈ l₂) : l₁ = l₂ := by
  have hnodup : ∀ {l : List BlockId}, (l.Pairwise fun i j => f i < f j) → l.Nodup :=
    fun h => h.imp fun {i j} (hij : f i < f j) (heq : i = j) => Nat.lt_irrefl _ (heq ▸ hij)
  have hperm : l₁.Perm l₂ := (List.perm_ext_iff_of_nodup (hnodup h₁) (hnodup h₂)).mpr hmem
  exact hperm.eq_of_pairwise (fun a b _ _ hab hba => absurd hab (Nat.lt_asymm hba)) h₁ h₂

/-- **The two managers agree exactly on requests that arrive in order.** The
arrivals with a requested id are blocks of the store, and each requested id arrives at least
once. Then `get_blocks` of the asynchronous manager, whatever other requests it
serves, returns, and it returns the list the in-memory manager returns if and only if each
requested id first arrives after those requested before it; in particular none is requested
twice. -/
theorem getBlocks_eq_memory_iff (m : AsyncBlockManager) (store : MemoryBlockManager)
    (request : List BlockId) (arrivals : List Block)
    (hecho : ∀ b ∈ arrivals, b.id ∈ request → store.map b.id = some (some b))
    (hall : ∀ id ∈ request, id ∈ arrivals.map Block.id) :
    (m.getBlocks request arrivals).map (List.map some) = some (store.getBlocks request).1 ↔
      request.Pairwise fun i j => firstArrival arrivals i < firstArrival arrivals j := by
  -- the stored block of each requested id, as a function
  obtain ⟨stored, hst⟩ : ∃ stored : BlockId → Block,
      ∀ id ∈ request, store.map id = some (some (stored id)) ∧ (stored id).id = id := by
    refine ⟨fun id => (store.map id).join.getD ⟨id, .link ⟨[]⟩⟩, fun id hid => ?_⟩
    obtain ⟨b, hb, rfl⟩ := List.mem_map.mp (hall id hid)
    simp [hecho b hb hid]
  set collected := AsyncResponse.collect request.toFinset arrivals with hcollected
  have hids : ∀ i, i ∈ collected.map Block.id ↔ i ∈ request := by
    intro i
    rw [hcollected, AsyncResponse.mem_map_collect, List.mem_toFinset]
    exact and_iff_left_of_imp (hall i)
  have hsorted := AsyncResponse.pairwise_collect request.toFinset arrivals
  have hvals : collected = (collected.map Block.id).map stored := by
    rw [List.map_map]
    refine (List.map_id _).symm.trans (List.map_congr_left fun b hb => ?_)
    have hreq := (hids b.id).mp (List.mem_map_of_mem hb)
    have hecho' := hecho b (AsyncResponse.mem_of_mem_collect hb) hreq
    simpa [(hst b.id hreq).1] using hecho'.symm
  rw [getBlocks_eq_future, AsyncResponse.future_new request arrivals hall,
    MemoryBlockManager.getBlocks_of_mapped fun id hid => (hst id hid).1]
  constructor
  · intro heq
    have hcol : collected = request.map stored := by
      refine List.map_injective_iff.mpr (Option.some_injective _) ?_
      simpa [List.map_map, Function.comp_def] using heq
    have hreq : collected.map Block.id = request := by
      rw [hcol, List.map_map]
      exact (List.map_congr_left fun id hid => (hst id hid).2).trans (List.map_id _)
    rw [← hreq]
    exact hsorted
  · intro hpair
    have hreq : collected.map Block.id = request := eq_of_pairwise_lt hsorted hpair hids
    rw [← hcollected, hvals, hreq]
    simp

/-- A request whose ids first arrive in its order is answered in its order. -/
theorem getBlocks_of_pairwise (m : AsyncBlockManager) {request : List BlockId}
    {arrivals : List Block} {stored : BlockId → Block}
    (hstored : ∀ b ∈ arrivals, b.id ∈ request → stored b.id = b)
    (hall : ∀ id ∈ request, id ∈ arrivals.map Block.id)
    (hpair : request.Pairwise fun i j => firstArrival arrivals i < firstArrival arrivals j) :
    m.getBlocks request arrivals = some (request.map stored) := by
  have hids : ∀ i, i ∈ (AsyncResponse.collect request.toFinset arrivals).map Block.id ↔
      i ∈ request := by
    intro i
    rw [AsyncResponse.mem_map_collect, List.mem_toFinset]
    exact and_iff_left_of_imp (hall i)
  have hsorted := AsyncResponse.pairwise_collect request.toFinset arrivals
  have hrequest := eq_of_pairwise_lt hsorted hpair hids
  rw [getBlocks_eq_future, AsyncResponse.future_new request arrivals hall]
  refine congrArg some ?_
  conv_rhs => rw [← hrequest, List.map_map]
  refine (List.map_id _).symm.trans (List.map_congr_left fun b hb => ?_)
  exact (hstored b (AsyncResponse.mem_of_mem_collect hb)
    ((hids b.id).mp (List.mem_map_of_mem hb))).symm

/-! ### Two leaves of one file -/

/-- The first leaf of a file. -/
def leafA : Block := ⟨1, .fileContents ⟨[0x61]⟩⟩

/-- The second leaf of the file. -/
def leafB : Block := ⟨2, .fileContents ⟨[0x62]⟩⟩

def leafStore : MemoryBlockManager :=
  ⟨⟨3⟩, fun id => if id = 1 then some (some leafA) else if id = 2 then some (some leafB) else none⟩

theorem getBlocks_eq_memory_iff_leaves :
    (new.getBlocks [1, 2] [leafA, leafA, ⟨7, .link ⟨[]⟩⟩, leafB]).map (List.map some)
        = some (leafStore.getBlocks [1, 2]).1 ↔
      [1, 2].Pairwise fun i j => firstArrival [leafA, leafA, ⟨7, .link ⟨[]⟩⟩, leafB] i
        < firstArrival [leafA, leafA, ⟨7, .link ⟨[]⟩⟩, leafB] j :=
  getBlocks_eq_memory_iff new leafStore [1, 2] [leafA, leafA, ⟨7, .link ⟨[]⟩⟩, leafB]
    (by decide) (by simp [leafA, leafB])

/-- The second leaf's echo overtakes the first's: the file comes back as `ba`. -/
theorem getBlocks_ne_memory_of_overtaking :
    ¬ ∀ (m : AsyncBlockManager) (store : MemoryBlockManager) (request : List BlockId)
        (arrivals : List Block), (∀ b ∈ arrivals, b.id ∈ request → store.map b.id = some (some b)) →
        (∀ id ∈ request, id ∈ arrivals.map Block.id) →
        (m.getBlocks request arrivals).map (List.map some) = some (store.getBlocks request).1 := by
  intro h
  have hagree := h new leafStore [1, 2] [leafB, leafA] (by decide)
    (by simp [leafA, leafB])
  revert hagree
  decide

end AsyncBlockManager

end Pingfs
