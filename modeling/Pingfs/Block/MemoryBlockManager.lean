import Pingfs.Block.IdSupplier
import Mathlib.Logic.Function.Basic

/-!
# The in-memory block manager

`MemoryBlockManager` keeps its blocks in a map from ids to shared pointers. The map's values are
nullable: `get_blocks` reads it with `operator[]`, which inserts a null pointer under an id that
is missing.

Sources: `block_manager.cc`, `memory_block_manager.cc`.

## Main results

* `MemoryBlockManager.getBlocks_of_mapped` — a request for mapped ids reads them in order and
  leaves the map alone
-/

namespace Pingfs

/-- The ways a call can end without returning. -/
inductive Halt where
  /-- An exception leaves the call. -/
  | threw (what : String)
  /-- An `assert` fails and the process is aborted. -/
  | assertionFailed
  /-- A null pointer is followed. -/
  | nullDereference
  /-- Memory outside of a buffer is read. -/
  | outOfBounds
  /-- A search goes on for ever. -/
  | diverged
  deriving DecidableEq, Repr

/-- Following a `shared_ptr`. -/
def deref {α : Type} : Option α → Except Halt α
  | some a => .ok a
  | none => .error .nullDereference

/-- `class MemoryBlockManager`, over a `CounterSupplier`. In `map`, `none` is a missing key and
`some none` a null pointer. -/
structure MemoryBlockManager where
  idSupplier : CounterSupplier
  map : BlockId → Option (Option Block)

namespace MemoryBlockManager

/-- `MemoryBlockManager::MemoryBlockManager`. -/
def new (idSupplier : CounterSupplier) : MemoryBlockManager := ⟨idSupplier, fun _ => none⟩

/-- `MemoryBlockManager::create_block`. -/
def createBlock (m : MemoryBlockManager) (data : BlockData) :
    Except String (Block × MemoryBlockManager) := do
  let (id, idSupplier) ← m.idSupplier.nextId
  let block : Block := ⟨id, data⟩
  return (block, ⟨idSupplier, Function.update m.map block.id (some (some block))⟩)

/-- `MemoryBlockManager::free_block`; `CounterSupplier::free_id` does nothing. -/
def freeBlock (m : MemoryBlockManager) (id : BlockId) : MemoryBlockManager :=
  { m with map := Function.update m.map id none }

/-- `map_[id]`: the pointer under `id`, a null one inserted if there was none. -/
def subscript (m : MemoryBlockManager) (id : BlockId) : Option Block × MemoryBlockManager :=
  match m.map id with
  | some block => (block, m)
  | none => (none, { m with map := Function.update m.map id (some none) })

/-- `MemoryBlockManager::get_blocks`. -/
def getBlocks (m : MemoryBlockManager) : List BlockId → List (Option Block) × MemoryBlockManager
  | [] => ([], m)
  | id :: ids =>
    let (block, m') := m.subscript id
    let (blocks, m'') := m'.getBlocks ids
    (block :: blocks, m'')

theorem subscript_of_mapped {m : MemoryBlockManager} {id : BlockId} {block : Option Block}
    (h : m.map id = some block) : m.subscript id = (block, m) := by
  simp [subscript, h]

/-- What a request puts into the map are null pointers. -/
theorem map_getBlocks_some {m : MemoryBlockManager} {ids : List BlockId} {id : BlockId} {b : Block}
    (h : (m.getBlocks ids).2.map id = some (some b)) : m.map id = some (some b) := by
  induction ids generalizing m with
  | nil => exact h
  | cons j js ih =>
    rw [getBlocks] at h
    have hsub := ih h
    rw [subscript] at hsub
    split at hsub
    case h_1 => exact hsub
    case h_2 hnone =>
      have hsub : Function.update m.map j (some none) id = some (some b) := hsub
      by_cases hid : id = j
      · subst hid
        rw [Function.update_self] at hsub
        cases hsub
      · rwa [Function.update_of_ne hid] at hsub

/-- Requests leave what is in the map. -/
theorem map_getBlocks_of_eq_some {m : MemoryBlockManager} {ids : List BlockId} {id : BlockId}
    {block : Option Block} (h : m.map id = some block) :
    (m.getBlocks ids).2.map id = some block := by
  induction ids generalizing m with
  | nil => exact h
  | cons j js ih =>
    rw [getBlocks]
    refine ih ?_
    rw [subscript]
    split
    case h_1 => exact h
    case h_2 hnone =>
      have hne : id ≠ j := by
        rintro rfl
        rw [hnone] at h
        cases h
      exact (Function.update_of_ne hne ..).trans h

/-- Requests change no pointer: what they put into the map was null before. -/
theorem join_map_getBlocks (m : MemoryBlockManager) (ids : List BlockId) (id : BlockId) :
    ((m.getBlocks ids).2.map id).join = (m.map id).join := by
  induction ids generalizing m with
  | nil => rfl
  | cons j js ih =>
    rw [getBlocks, ih, subscript]
    split
    case h_1 => rfl
    case h_2 hnone =>
      by_cases hid : id = j
      · subst hid
        simp [hnone]
      · simp [Function.update_of_ne hid]

/-- A request returns the pointers of the map, null ones for what is missing. -/
theorem getBlocks_fst (m : MemoryBlockManager) (ids : List BlockId) :
    (m.getBlocks ids).1 = ids.map fun id => (m.map id).join := by
  induction ids generalizing m with
  | nil => rfl
  | cons j js ih =>
    have hrest : ∀ id, ((m.subscript j).2.map id).join = (m.map id).join :=
      m.join_map_getBlocks [j]
    have hfirst : (m.subscript j).1 = (m.map j).join := by
      rw [subscript]
      split <;> simp [*]
    rw [getBlocks, List.map_cons, ← hfirst]
    simp only [ih, hrest]

/-- Requests take no ids. -/
theorem idSupplier_getBlocks (m : MemoryBlockManager) (ids : List BlockId) :
    (m.getBlocks ids).2.idSupplier = m.idSupplier := by
  induction ids generalizing m with
  | nil => rfl
  | cons id ids ih =>
    rw [getBlocks, ih, subscript]
    split <;> rfl

theorem isSome_map_getBlocks {m : MemoryBlockManager} {ids : List BlockId} {id : BlockId}
    (h : (m.map id).isSome = true ∨ id ∈ ids) : ((m.getBlocks ids).2.map id).isSome = true := by
  induction ids generalizing m with
  | nil => exact h.resolve_right List.not_mem_nil
  | cons j js ih =>
    rw [getBlocks]
    refine ih ?_
    by_cases hid : id = j
    · subst hid
      refine Or.inl ?_
      rw [subscript]
      split
      case h_1 block hmap => rw [hmap]; rfl
      case h_2 => simp
    · refine h.imp (fun hmap => ?_) fun hmem => (List.mem_cons.mp hmem).resolve_left hid
      rw [subscript]
      split
      case h_1 => exact hmap
      case h_2 => simpa [Function.update_of_ne hid] using hmap

/-- A request for keys of the map leaves it alone. -/
theorem getBlocks_of_isSome {m : MemoryBlockManager} {ids : List BlockId}
    (h : ∀ id ∈ ids, (m.map id).isSome) : (m.getBlocks ids).2 = m := by
  induction ids with
  | nil => rfl
  | cons id ids ih =>
    obtain ⟨block, hblock⟩ := Option.isSome_iff_exists.mp (h id (List.mem_cons_self ..))
    rw [getBlocks, subscript_of_mapped hblock]
    exact ih fun j hj => h j (List.mem_cons_of_mem _ hj)

/-- A request for mapped ids returns what they map to, in the order of the request. -/
theorem getBlocks_of_mapped {m : MemoryBlockManager} {ids : List BlockId} {f : BlockId → Block}
    (h : ∀ id ∈ ids, m.map id = some (some (f id))) :
    m.getBlocks ids = (ids.map fun id => some (f id), m) := by
  induction ids with
  | nil => rfl
  | cons id ids ih =>
    rw [getBlocks, subscript_of_mapped (h id (List.mem_cons_self ..))]
    simp [ih fun j hj => h j (List.mem_cons_of_mem _ hj)]

/-- A request for the ids of stored blocks returns these blocks. -/
theorem getBlocks_stored {m : MemoryBlockManager} {blocks : List Block}
    (h : ∀ b ∈ blocks, m.map b.id = some (some b)) :
    m.getBlocks (blocks.map (·.id)) = (blocks.map some, m) := by
  induction blocks with
  | nil => rfl
  | cons b bs ih =>
    rw [List.map_cons, getBlocks, subscript_of_mapped (h b (List.mem_cons_self ..))]
    simp [ih fun c hc => h c (List.mem_cons_of_mem _ hc)]

end MemoryBlockManager

end Pingfs
