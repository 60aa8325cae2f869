import Pingfs.Fs.Exhaustion
import Mathlib.Data.Fintype.Card
import Mathlib.Data.Set.Finite.Basic
import Mathlib.Logic.Relation

/-!
# The path to a block

`find_path` searches for a block below another one, among the blocks that were retrieved. A block
is appended to the path when the search below it has come back, so that the path is there backwards:
the target comes first, and last a child of the block where the search began. Where the target is
itself such a child, it makes no difference.

Source: `find_path` of `block_util.cc`, `get_path` of `block_fuse.cc`.

## Main results

* `exists_finds` — a search ends, with the way to the target backwards
* `findsInOrder_iff` — when the way is not backwards
-/

namespace Pingfs

namespace BlockUtil

variable (retrieved : BlockId → Option Block) (target : Block)

/-- `c` was retrieved as a child of `b`. -/
def Child (b c : Block) : Prop := c ∈ b.children.filterMap retrieved

/-- The target is `b`, or is reached from it. -/
def Leads (b : Block) : Prop :=
  ∃ c, Relation.ReflTransGen (Child retrieved) b c ∧ c.id = target.id

/-- The blocks lead from `b` to the target: each is a child of the one before, the last is the
target. -/
def IsWay : Block → List Block → Prop
  | b, [] => b.id = target.id
  | b, c :: path => Child retrieved b c ∧ IsWay c path

open Classical in
/-- The first of these children that was retrieved and leads to the target. -/
noncomputable def firstLeading (ids : List BlockId) : Option Block :=
  (ids.filterMap retrieved).find? fun c => decide (Leads retrieved target c)

/-- A search below `b` ends, says whether the target is reached, and appends the way to it. -/
def FindsInOrder (b : Block) : Prop :=
  ∃ r : Bool × List Block, (∃ least, ∀ fuel ≥ least, findPath retrieved target fuel b = .ok r) ∧
    (r.1 = true ↔ Leads retrieved target b) ∧ (r.1 = true → IsWay retrieved target b r.2)

/-- What the search below the children `ids` comes back with: the way below the first child that
leads to the target, backwards, and that child. -/
inductive FindsBelow (ids : List BlockId) : Bool × List Block → Prop
  | none (h : firstLeading retrieved target ids = none) : FindsBelow ids (false, [])
  | some {c : Block} {path : List Block} (h : firstLeading retrieved target ids = some c)
      (hway : IsWay retrieved target c path.reverse) (hhere : c.id = target.id → path = []) :
    FindsBelow ids (true, path ++ [c])

/-- What the search below `b` comes back with. -/
inductive Finds (b : Block) : Bool × List Block → Prop
  | here (h : b.id = target.id) : Finds b (true, [])
  | below {r : Bool × List Block} (hne : b.id ≠ target.id)
      (h : FindsBelow retrieved target b.children r) : Finds b r

variable {retrieved target} {b c : Block}

theorem leads_iff : Leads retrieved target b ↔
    b.id = target.id ∨ ∃ c, Child retrieved b c ∧ Leads retrieved target c := by
  constructor
  · rintro ⟨d, hreach, hd⟩
    rcases hreach.cases_head with rfl | ⟨c, hchild, hrest⟩
    · exact Or.inl hd
    · exact Or.inr ⟨c, hchild, d, hrest, hd⟩
  · rintro (hb | ⟨c, hchild, d, hrest, hd⟩)
    · exact ⟨b, .refl, hb⟩
    · exact ⟨d, .head hchild hrest, hd⟩

/-- The last block of a way. -/
theorem IsWay.id_eq {path : List Block} (h : IsWay retrieved target b (path ++ [c])) :
    c.id = target.id := by
  induction path generalizing b with
  | nil => exact h.2
  | cons d path ih => exact ih h.2

/-- Nothing leads to the target. -/
theorem firstLeading_eq_none {ids : List BlockId} :
    firstLeading retrieved target ids = none ↔
      ∀ c ∈ ids.filterMap retrieved, ¬ Leads retrieved target c := by
  rw [firstLeading, List.find?_eq_none]
  simp only [decide_eq_true_eq]

theorem firstLeading_eq_some {ids : List BlockId} (h : firstLeading retrieved target ids = some c) :
    c ∈ ids.filterMap retrieved ∧ Leads retrieved target c :=
  ⟨List.mem_of_find?_eq_some h, by simpa using List.find?_some h⟩

/-! ## The search -/

/-- The way that was found, turned around. -/
theorem Finds.way {path : List Block} (h : Finds retrieved target b (true, path)) :
    IsWay retrieved target b path.reverse := by
  cases h with
  | here h => exact h
  | below hne h =>
    cases h with
    | some h hway hhere =>
      rw [List.reverse_append, List.reverse_singleton, List.singleton_append]
      exact ⟨(firstLeading_eq_some h).1, hway⟩

/-- It is found if there is one. -/
theorem Finds.found_iff {r : Bool × List Block} (h : Finds retrieved target b r) :
    r.1 = true ↔ Leads retrieved target b := by
  cases h with
  | here h => exact iff_of_true rfl (leads_iff.mpr (Or.inl h))
  | below hne h =>
    cases h with
    | none h =>
      refine iff_of_false Bool.false_ne_true fun hleads => ?_
      obtain ⟨c, hchild, hc⟩ := (leads_iff.mp hleads).resolve_left hne
      exact firstLeading_eq_none.mp h c hchild hc
    | some h hway hhere =>
      obtain ⟨hchild, hleads⟩ := firstLeading_eq_some h
      exact iff_of_true rfl (leads_iff.mpr (Or.inr ⟨_, hchild, hleads⟩))

/-- The loop over the children. -/
theorem exists_findsBelow {ids : List BlockId}
    (h : ∀ c ∈ ids.filterMap retrieved, ∃ r, Finds retrieved target c r ∧
      ∃ least, ∀ fuel ≥ least, findPath retrieved target fuel c = .ok r) :
    ∃ r, FindsBelow retrieved target ids r ∧ ∃ least, ∀ fuel ≥ least,
      findChild retrieved (findPath retrieved target fuel) ids = .ok r := by
  induction ids with
  | nil => exact ⟨(false, []), .none rfl, 0, fun _ _ => rfl⟩
  | cons id ids ih =>
    cases hr : retrieved id with
    | none =>
      rw [List.filterMap_cons_none hr] at h
      obtain ⟨r, hfinds, least, hleast⟩ := ih h
      refine ⟨r, ?_, least, fun fuel hfuel => ?_⟩
      · have hfirst : firstLeading retrieved target (id :: ids) =
            firstLeading retrieved target ids := by
          rw [firstLeading, List.filterMap_cons_none hr, firstLeading]
        cases hfinds with
        | none h => exact .none (hfirst.trans h)
        | some h hway hhere => exact .some (hfirst.trans h) hway hhere
      · rw [findChild, hr]
        exact hleast fuel hfuel
    | some c =>
      rw [List.filterMap_cons_some hr] at h
      obtain ⟨⟨found, path⟩, hc, least, hleast⟩ := h c List.mem_cons_self
      cases found with
      | true =>
        have hleads := hc.found_iff.mp rfl
        have hfirst : firstLeading retrieved target (id :: ids) = some c := by
          rw [firstLeading, List.filterMap_cons_some hr,
            List.find?_cons_of_pos (by simpa using hleads)]
        refine ⟨(true, path ++ [c]), .some hfirst hc.way fun hid => ?_, least, fun fuel hfuel => ?_⟩
        · cases hc with
          | here h => rfl
          | below hne h => exact absurd hid hne
        · rw [findChild, hr]
          simp only [hleast fuel hfuel, bind, Except.bind, pure, Except.pure, if_true]
      | false =>
        have hleads : ¬ Leads retrieved target c := fun hleads =>
          Bool.false_ne_true (hc.found_iff.mpr hleads)
        obtain ⟨r, hfinds, least', hleast'⟩ := ih fun d hd => h d (List.mem_cons_of_mem _ hd)
        have hfirst : firstLeading retrieved target (id :: ids) =
            firstLeading retrieved target ids := by
          rw [firstLeading, List.filterMap_cons_some hr,
            List.find?_cons_of_neg (by simpa using hleads), firstLeading]
        refine ⟨r, ?_, max least least', fun fuel hfuel => ?_⟩
        · cases hfinds with
          | none h => exact .none (hfirst.trans h)
          | some h hway hhere => exact .some (hfirst.trans h) hway hhere
        · rw [findChild, hr]
          simp only [hleast fuel (le_of_max_le_left hfuel), bind, Except.bind, Bool.false_eq_true,
            if_false]
          exact hleast' fuel (le_of_max_le_right hfuel)

/-- Where retrieved blocks are finitely many and none is below itself, going down ends. -/
theorem wellFounded_child (hfinite : {id | (retrieved id).isSome}.Finite)
    (hacyclic : ∀ b, ¬ Relation.TransGen (Child retrieved) b b) :
    WellFounded fun c b => Child retrieved b c := by
  have hretrieved : {c | ∃ id, retrieved id = some c}.Finite := by
    refine ((hfinite.image retrieved).preimage (Option.some_injective _).injOn).subset ?_
    rintro c ⟨id, hid⟩
    exact ⟨id, by simp [hid], hid⟩
  have hmem : ∀ {b c}, Child retrieved b c → ∃ id, retrieved id = some c := by
    intro b c hchild
    obtain ⟨id, -, hid⟩ := List.mem_filterMap.mp hchild
    exact ⟨id, hid⟩
  -- below a retrieved block there are only retrieved ones, so the order is one of a finite set
  let R : {c // ∃ id, retrieved id = some c} → {c // ∃ id, retrieved id = some c} → Prop :=
    fun c b => Relation.TransGen (Child retrieved) b.1 c.1
  have hR : WellFounded R := by
    have : Finite {c // ∃ id, retrieved id = some c} := hretrieved
    have : IsTrans _ R := ⟨fun _ _ _ hab hbc => hbc.trans hab⟩
    have : Std.Irrefl R := ⟨fun c => hacyclic c.1⟩
    exact Finite.wellFounded_of_trans_of_irrefl R
  have hacc : ∀ b : {c // ∃ id, retrieved id = some c},
      Acc (fun c b => Child retrieved b c) b.1 := by
    intro b
    induction b using hR.induction with
    | _ b ih => exact Acc.intro _ fun c hchild => ih ⟨c, hmem hchild⟩ (.single hchild)
  exact ⟨fun b => Acc.intro b fun c hchild => hacc ⟨c, hmem hchild⟩⟩

/-- **A search ends** where going down ends. -/
theorem exists_finds (hwf : WellFounded fun c b => Child retrieved b c) (b : Block) :
    ∃ r, Finds retrieved target b r ∧
      ∃ least, ∀ fuel ≥ least, findPath retrieved target fuel b = .ok r := by
  induction b using hwf.induction with
  | _ b ih =>
    by_cases hid : b.id = target.id
    · refine ⟨(true, []), .here hid, 1, fun fuel hfuel => ?_⟩
      obtain ⟨fuel, rfl⟩ : ∃ n, fuel = n + 1 := ⟨fuel - 1, by omega⟩
      rw [findPath, if_pos hid]
    · obtain ⟨r, hfinds, least, hleast⟩ := exists_findsBelow ih
      refine ⟨r, .below hid hfinds, least + 1, fun fuel hfuel => ?_⟩
      obtain ⟨fuel, rfl⟩ : ∃ n, fuel = n + 1 := ⟨fuel - 1, by omega⟩
      rw [findPath, if_neg hid, ← hleast fuel (by omega)]
      cases hchildren : b.getChildren with
      | none => rw [Block.children, hchildren]; rfl
      | some children => rw [Block.children, hchildren]; rfl

/-- **The way is in order** if and only if the target is the block where the search begins, or the
first child from which it is reached. -/
theorem findsInOrder_iff (hfinite : {id | (retrieved id).isSome}.Finite)
    (hacyclic : ∀ b, ¬ Relation.TransGen (Child retrieved) b b) (b : Block) :
    FindsInOrder retrieved target b ↔
      b.id = target.id ∨ ∀ c, firstLeading retrieved target b.children = some c →
        c.id = target.id := by
  obtain ⟨r, hfinds, least, hleast⟩ := exists_finds (wellFounded_child hfinite hacyclic) b
  constructor
  · rintro ⟨r', ⟨least', hleast'⟩, -, hway⟩
    have hsame : r' = r := by
      have hboth := (hleast' _ (le_max_right least least')).symm.trans
        (hleast _ (le_max_left least least'))
      exact Except.ok.inj hboth
    subst hsame
    cases hfinds with
    | here h => exact Or.inl h
    | below hne h =>
      right
      intro c hc
      cases h with
      | none h =>
        rw [h] at hc
        cases hc
      | some h hway' hhere =>
        obtain rfl := Option.some.inj (h.symm.trans hc)
        exact (hway rfl).id_eq
  · intro h
    refine ⟨r, ⟨least, hleast⟩, hfinds.found_iff, fun hfound => ?_⟩
    cases hfinds with
    | here h => exact h
    | below hne hbelow =>
      cases hbelow with
      | none _ => cases hfound
      | some hfirst hway hhere =>
        have hid := h.resolve_left hne _ hfirst
        rw [hhere hid]
        exact ⟨(firstLeading_eq_some hfirst).1, hid⟩

/-! ### A directory with a link -/

/-- What goes down at every child has no cycle. -/
theorem acyclic_of_rank (rank : Block → ℕ) (h : ∀ b c, Child retrieved b c → rank c < rank b)
    (b : Block) : ¬ Relation.TransGen (Child retrieved) b b := by
  have hdown : ∀ {b c}, Relation.TransGen (Child retrieved) b c → rank c < rank b := by
    intro b c hbelow
    induction hbelow with
    | single hchild => exact h _ _ hchild
    | tail _ hchild ih => exact (h _ _ hchild).trans ih
  intro hcycle
  exact lt_irrefl _ (hdown hcycle)

def plainStat : Stat := ⟨⟨.readWriteExecute, .readExecute, .execute, .dir⟩, 0, 0, 0, 0, 0, 0⟩

/-- A directory `/`, a link in it, and an inode `a` behind the link. -/
def dirOfLink : Block := ⟨1, .dirFile ⟨FsUtil.separator, plainStat, [2]⟩⟩

def linkToInode : Block := ⟨2, .link ⟨[3]⟩⟩

def inodeBehind : Block := ⟨3, .dirFile ⟨[0x61], plainStat, []⟩⟩

/-- What the search for `a` retrieves. -/
def belowDir : BlockId → Option Block :=
  Function.update (Function.update (fun _ => none) 2 (some linkToInode)) 3 (some inodeBehind)

theorem belowDir_eq_some {id : BlockId} (h : belowDir id = some c) :
    c = linkToInode ∨ c = inodeBehind := by
  rw [belowDir, Function.update_apply, Function.update_apply] at h
  split at h
  · exact Or.inr (Option.some.inj h).symm
  · split at h
    · exact Or.inl (Option.some.inj h).symm
    · cases h

theorem finite_belowDir : {id | (belowDir id).isSome}.Finite := by
  refine (Set.toFinite {2, 3}).subset fun id hid => ?_
  by_contra hne
  obtain ⟨h2, h3⟩ := not_or.mp hne
  rw [Set.mem_ofPred_eq, belowDir, Function.update_of_ne h3, Function.update_of_ne h2] at hid
  cases hid

theorem acyclic_belowDir (b : Block) : ¬ Relation.TransGen (Child belowDir) b b := by
  refine acyclic_of_rank (fun b => if b = inodeBehind then 0 else if b = linkToInode then 1 else 2)
    (fun b c hchild => ?_) b
  by_cases hinode : b = inodeBehind
  · subst hinode
    cases hchild
  · by_cases hlink : b = linkToInode
    · subst hlink
      obtain rfl : c = inodeBehind := List.mem_singleton.mp hchild
      decide
    · obtain ⟨id, -, hid⟩ := List.mem_filterMap.mp hchild
      rw [if_neg hinode, if_neg hlink]
      rcases belowDir_eq_some hid with rfl | rfl <;> decide

/-- Where the target is a child of the block, the way to it is found. -/
theorem finds_link : FindsInOrder belowDir linkToInode dirOfLink :=
  (findsInOrder_iff finite_belowDir acyclic_belowDir dirOfLink).mpr <| Or.inr fun c hc => by
    obtain rfl : c = linkToInode := List.mem_singleton.mp (firstLeading_eq_some hc).1
    rfl

/-- Behind the link, the inode comes before the link: so too in the path that `get_path` gives. -/
theorem target_before_link :
    ({id | (belowDir id).isSome}.Finite ∧
      ∀ b, ¬ Relation.TransGen (Child belowDir) b b) ∧
    ¬ FindsInOrder belowDir inodeBehind dirOfLink ∧
    ((BlockFuse.getPath 4 (BlockFuse.below 0x61)).run (BlockFuse.handler false)
      ⟨⟨⟨4⟩, fun id => if id = 1 then some (some dirOfLink) else
        (belowDir id).map some⟩, dirOfLink⟩).result =
      .ok [dirOfLink, inodeBehind, linkToInode] := by
  refine ⟨⟨finite_belowDir, acyclic_belowDir⟩, ?_, rfl⟩
  rintro ⟨r, ⟨least, hleast⟩, -, hway⟩
  have hr : (true, [inodeBehind, linkToInode]) = r :=
    Except.ok.inj (hleast (least + 3) (by omega))
  subst hr
  have hchild : Child belowDir dirOfLink inodeBehind := (hway rfl).1
  exact absurd (List.mem_singleton.mp hchild) (by decide)

end BlockUtil

end Pingfs
