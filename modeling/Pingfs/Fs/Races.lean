import Pingfs.Fs.Additions

/-!
# Two requests at once

The requests of several threads overlap: between any two calls of one, the others make theirs. Two
`mkdir` or `create` run here on one file system, call by call, as a schedule says. A request sets
the root without a look at what it is by then, so that the one that sets it last may undo what the
other has made, and keep blocks that the other has freed. That cannot happen while each request sets
the root only when it is still the one that the request has read last.

Source: `mkdir` and `create_file_block` of `block_fuse.cc`, which say that the checks for this are
missing.

## Main results

* `Race.serial_of_keepsRoot` — a race in which each root set replaces the root read
* `Race.lost_update` — one in which a root set replaces another one
-/

namespace Pingfs

namespace BlockFuse

open FsM BlockUtil

/-- The file system that two requests share, and the root that each of them has read last. -/
structure Shared where
  fuse : BlockFuse
  rootRead : Bool → Option Block

/-- The roots read, after a call of the request `who`. -/
def Shared.note (s : Shared) (who : Bool) : FsCall → Bool → Option Block
  | .getRootBlock => Function.update s.rootRead who (some s.fuse.rootBlock)
  | _ => s.rootRead

/-- How the calls of the request `who` act. -/
def sharedHandler (who : Bool) : Program.Handler FsCall FsCall.Reply Halt Shared :=
  fun call s => (handler false call s.fuse).mapState fun fuse => ⟨fuse, s.note who call⟩

/-- Two requests, each where it has come to. -/
abbrev Race := Interleaving Bool FsCall FsCall.Reply Halt Reply Shared

/-- The next call of the program sets the root. -/
def setsRoot : FsM Reply → Bool
  | .call (.setRootBlock _) _ => true
  | _ => false

namespace Race

/-- Two requests that arrive at once. -/
def start (env : Env) (fuel : ℕ) (s : BlockFuse) (request : Bool → Int64 × Addition) : Race where
  programs who := program env fuel (request who).1 (request who).2.call
  state := ⟨s, fun _ => none⟩

/-- The request `who` makes its next call. -/
abbrev step : Race → Bool → Race := Interleaving.step sharedHandler

/-- If the request sets the root now, the root is still the one it has read last. -/
def KeepsRoot (c : Race) (who : Bool) : Prop :=
  setsRoot (c.programs who) = true → c.state.rootRead who = some c.state.fuse.rootBlock

instance (c : Race) (who : Bool) : Decidable (KeepsRoot c who) :=
  inferInstanceAs (Decidable (_ → _))

/-- The request has returned a success. -/
def Succeeded (c : Race) (who : Bool) : Prop :=
  ∃ reply, c.programs who = .ret reply ∧ reply.status = 0

instance (c : Race) (who : Bool) : Decidable (c.Succeeded who) :=
  match h : c.programs who with
  | .ret reply => decidable_of_iff (reply.status = 0) (by simp [Succeeded, h])
  | .halt _ => isFalse (by simp [Succeeded, h])
  | .call _ _ => isFalse (by simp [Succeeded, h])

end Race

/-- The requests one after the other. -/
def inTurn (env : Env) (s : BlockFuse) (request : Bool → Int64 × Addition) (first : Bool) :
    BlockFuse :=
  [first, !first].foldl (fun s who => step env false s ((request who).1, (request who).2.call)) s

/-- Two requests have led from `s` to `s'` as if one had been made after the other. -/
structure Serial (env : Env) (s : BlockFuse) (request : Bool → Int64 × Addition) (s' : BlockFuse) :
    Prop where
  namespace_eq : ∃ n, s'.namespaceOf = some n ∧
    ∃ first, (inTurn env s request first).namespaceOf = some n
  stored : ∀ id, s'.Reaches id → ∃ b, s'.manager.map id = some (some b)

variable {P : Plan} {fuel : ℕ} {u v : Inodes} {made rest blocks : Multiset Block} {p : FsM Reply}
  {s : Shared} {who : Bool} {old : List Block}

/-! ## One call -/

/-- A call is answered by the file system. -/
theorem advance_shared (p : FsM Reply) (s : Shared) (who : Bool) :
    (p.advance (sharedHandler who) s).1 = (p.advance (handler false) s.fuse).1 ∧
      (p.advance (sharedHandler who) s).2.fuse = (p.advance (handler false) s.fuse).2 := by
  cases p with
  | ret reply => exact ⟨rfl, rfl⟩
  | halt e => exact ⟨rfl, rfl⟩
  | call call next =>
    rw [Program.advance, Program.advance, sharedHandler]
    cases handler false call s.fuse <;> exact ⟨rfl, rfl⟩

/-- A call notes nothing for the other request. -/
theorem rootRead_other (p : FsM Reply) (s : Shared) (who : Bool) :
    (p.advance (sharedHandler who) s).2.rootRead (!who) = s.rootRead (!who) := by
  have hnote : ∀ call : FsCall, s.note who call (!who) = s.rootRead (!who) := by
    intro call
    cases call with
    | getRootBlock => exact Function.update_of_ne (Bool.not_ne_self who) ..
    | createBlock data => rfl
    | managerFreeBlock id => rfl
    | getBlocks ids => rfl
    | setRootBlock newRoot => rfl
    | freeBlock id => rfl
  cases p with
  | ret reply => rfl
  | halt e => rfl
  | call call next =>
    rw [Program.advance, sharedHandler]
    cases handler false call s.fuse <;> exact hnote call

theorem advance_returned {call : FsCall} {next : call.Reply → FsM Reply} {r : call.Reply}
    {fuse : BlockFuse} (hreply : handler false call s.fuse = .returned r fuse) :
    (Program.call call next : FsM Reply).advance (sharedHandler who) s =
      (next r, ⟨fuse, s.note who call⟩) :=
  Program.advance_of_returned (by rw [sharedHandler, hreply]; rfl)

/-- A call that reads leaves the root, the ids and what is there. -/
theorem exists_reply_of_isRead {call : FsCall} (hread : IsRead call) (s : BlockFuse) :
    ∃ r s', handler false call s = .returned r s' ∧ Keeps s s' ∧
      ∀ blocks, Contains s blocks → Contains s' blocks := by
  obtain rfl | ⟨ids, rfl⟩ := isRead_iff.mp hread
  · exact ⟨_, _, rfl, Keeps.refl s, fun _ h => h⟩
  · refine ⟨_, _, rfl, ⟨?_, rfl⟩, fun blocks h => h.getBlocks ids⟩
    simp [idsUsed, MemoryBlockManager.idSupplier_getBlocks]

/-- Only one call sets the root. -/
theorem rootBlock_of_not_isSet {call : FsCall} (hset : ¬ IsSet call) (s : BlockFuse) :
    (handler false call s).state.rootBlock = s.rootBlock := by
  cases call with
  | createBlock data =>
    rw [handler]
    cases s.manager.createBlock data <;> rfl
  | managerFreeBlock id => rfl
  | getBlocks ids => rfl
  | getRootBlock => rfl
  | setRootBlock newRoot => exact absurd trivial hset
  | freeBlock id => rfl

theorem rootBlock_advance (hp : p.Only fun call => ¬ IsSet call) (s : BlockFuse) :
    (p.advance (handler false) s).2.rootBlock = s.rootBlock := by
  cases p with
  | ret reply => rfl
  | halt e => rfl
  | call call next =>
    have hroot := rootBlock_of_not_isSet hp.1 s
    rw [Program.advance]
    cases hreply : handler false call s <;> simpa [hreply] using hroot

/-! ## The turn of a request -/

/-- A request that has not set the root. If it builds on the tree `u`, the root of `u` is the one it
has read last. -/
inductive Plan.Before (P : Plan) (fuel : ℕ) (u : Inodes) (read : Option Block) :
    Multiset Block → FsM Reply → Prop
  | checks {p : FsM Reply} (h : P.Checks fuel p) : Before P fuel u read 0 p
  | underway {made : Multiset Block} {p : FsM Reply} (hread : read = some (u.1.block u.2))
      (h : P.Underway u made p) : Before P fuel u read made p

theorem Plan.Before.checks_or_underway {read : Option Block} (h : P.Before fuel u read made p) :
    made = 0 ∧ P.Checks fuel p ∨ read = some (u.1.block u.2) ∧ P.Underway u made p := by
  cases h with
  | checks h => exact Or.inl ⟨rfl, h⟩
  | underway hread h => exact Or.inr ⟨hread, h⟩

/-- What one call of a request leads to that has not set the root: it fails, or goes on, or sets the
root. The blocks `rest` are not its own. -/
inductive Plan.Turn (P : Plan) (fuel : ℕ) (u : Inodes) (who : Bool) (made rest : Multiset Block)
    (s : Shared) (after : FsM Reply × Shared) : Prop
  | fails (h : Fails after.1)
  | goes {made' : Multiset Block} (h : P.Before fuel u (after.2.rootRead who) made' after.1)
      (hroot : after.2.fuse.rootBlock = s.fuse.rootBlock)
      (hcontains : Contains after.2.fuse (u.blocks + made' + rest))
      (hused : after.2.fuse.idsUsed + made.card = s.fuse.idsUsed + made'.card)
  | sets {v : Inodes} {old : List Block} (h : Frees old after.1) (hleads : P.Leads u made v old)
      (hroot : after.2.fuse.rootBlock = v.1.block v.2)
      (hcontains : Contains after.2.fuse (v.blocks + old + rest))
      (hused : after.2.fuse.idsUsed = s.fuse.idsUsed)

theorem Plan.Checks.turn (h : P.Checks fuel p) (hroot : s.fuse.rootBlock = u.1.block u.2)
    (hs : Contains s.fuse (u.blocks + 0 + rest)) (hfuel : u.blocks.card + 1 < fuel) :
    P.Turn fuel u who 0 rest s (p.advance (sharedHandler who) s) := by
  cases h with
  | fails h => exact .fails (h.advance s)
  | @read call next hread hnext =>
    obtain ⟨r, fuse, hreply, hkeeps, hcontains⟩ := exists_reply_of_isRead hread s.fuse
    rw [advance_returned hreply]
    exact .goes (.checks (hnext r)) hkeeps.rootBlock_eq (hcontains _ hs)
      (congrArg (· + 0) hkeeps.idsUsed_eq)
  | search =>
    rw [getPath_eq P.parent_ne]
    have hreply : handler false .getRootBlock s.fuse = .returned (u.1.block u.2) s.fuse := by
      rw [handler, hroot]
    change P.Turn fuel u who 0 rest s ((Program.call .getRootBlock fun root =>
      getPathLoop fuel (FsUtil.names P.parent) (some root) [root] >>= P.attach : FsM Reply).advance
        (sharedHandler who) s)
    rw [advance_returned hreply]
    rw [add_zero] at hs
    refine .goes
      (.underway ?_ (P.underway_of_root (hs.mono (Multiset.le_add_right _ _)) hroot hfuel)) rfl
      (by simpa using hs) rfl
    exact (Function.update_self ..).trans (congrArg some hroot)

theorem Plan.Underway.turn (h : P.Underway u made p)
    (hread : s.rootRead who = some (u.1.block u.2))
    (hs : Contains s.fuse (u.blocks + made + rest)) :
    P.Turn fuel u who made rest s (p.advance (sharedHandler who) s) := by
  cases h.goes with
  | fails h => exact .fails (h.advance s)
  | @reads bs next hbs hnext =>
    have hget := MemoryBlockManager.getBlocks_stored fun b hb =>
      hs.get b (Multiset.mem_add.mpr (Or.inl (Multiset.mem_add.mpr (Or.inl (hbs b hb)))))
    have hreply : handler false (.getBlocks (bs.map (·.id))) s.fuse =
        .returned (bs.map some) s.fuse := by
      rw [handler, hget]
    rw [advance_returned hreply]
    exact .goes (.underway hread hnext) rfl hs rfl
  | @creates data next hnext =>
    by_cases hz : s.fuse.manager.idSupplier.next = 0
    · have hrun := run_createBlock_exhausted (k := false) data hz
      rw [FsM.createBlock, Program.run_request] at hrun
      rw [Program.advance_of_halted (by rw [sharedHandler, hrun]; rfl)]
      exact .fails trivial
    · have hrun := run_createBlock (k := false) data hz
      rw [FsM.createBlock, Program.run_request] at hrun
      have hcontains := hs.createBlock data hz
      rw [advance_returned hrun]
      refine .goes (.underway hread (hnext _)) rfl ?_ ?_
      · rw [Multiset.add_cons, Multiset.cons_add]
        exact hcontains
      · rw [idsUsed_withCreated data hz, Multiset.card_cons]
        omega
  | @sets v old hleads =>
    have hreply : handler false (.setRootBlock (v.1.block v.2)) s.fuse =
        .returned () { s.fuse with rootBlock := v.1.block v.2 } := rfl
    rw [advance_returned hreply]
    refine .sets ⟨P.tail, P.only_tail, rfl⟩ hleads rfl ?_ rfl
    rw [← hleads.blocks_eq]
    exact hs.setRoot _

theorem Plan.Before.turn (h : P.Before fuel u (s.rootRead who) made p)
    (hroot : s.fuse.rootBlock = u.1.block u.2) (hs : Contains s.fuse (u.blocks + made + rest))
    (hfuel : u.blocks.card + 1 < fuel) :
    P.Turn fuel u who made rest s (p.advance (sharedHandler who) s) := by
  cases h with
  | checks h => exact h.turn hroot hs hfuel
  | underway hread h => exact h.turn hread hs

/-- **A call of a request that has set the root** leaves the root and what belongs to its tree. -/
theorem Frees.turn (h : Frees old p) (hs : Contains s.fuse (blocks + old)) (who : Bool) :
    ∃ old', Frees old' (p.advance (sharedHandler who) s).1 ∧
      Contains (p.advance (sharedHandler who) s).2.fuse (blocks + old') ∧
      Keeps s.fuse (p.advance (sharedHandler who) s).2.fuse := by
  obtain ⟨tail, htail, rfl⟩ := h
  cases old with
  | nil =>
    refine ⟨[], frees_nil (htail.advance s), ?_⟩
    cases tail with
    | ret reply => exact ⟨hs, Keeps.refl _⟩
    | halt e => exact ⟨hs, Keeps.refl _⟩
    | call call next =>
      obtain ⟨r, fuse, hreply, hkeeps, hcontains⟩ := exists_reply_of_isRead htail.1 s.fuse
      change Contains ((Program.call call next : FsM Reply).advance _ s).2.fuse _ ∧ Keeps _
        ((Program.call call next : FsM Reply).advance _ s).2.fuse
      rw [advance_returned hreply]
      exact ⟨hcontains _ hs, hkeeps⟩
  | cons b bs =>
    rw [← Multiset.cons_coe, Multiset.add_cons] at hs
    exact ⟨bs, ⟨tail, htail, rfl⟩, hs.free, ⟨rfl, rfl⟩⟩

theorem Frees.not_isSet (h : Frees old p) : p.Only fun call => ¬ IsSet call := by
  obtain ⟨tail, htail, rfl⟩ := h
  have hreads : tail.Only fun call => ¬ IsSet call := htail.imp fun call hread hset => by
    cases call <;> first | exact hset | exact hread
  induction old with
  | nil => exact hreads
  | cons b bs ih => exact ⟨fun hset => hset, fun _ => ih⟩

/-! ## The race -/

/-- Where two requests have come to that started from the tree `t`, when `used` ids were handed
out. -/
inductive Race.Inv (P : Bool → Plan) (fuel : ℕ) (t : Inodes) (used : ℕ) (c : Race) : Prop
  /-- One of them fails. -/
  | fails (who : Bool) (h : Fails (c.programs who))
  /-- One of them builds on a tree whose root the other has replaced. -/
  | stuck (who : Bool) (hread : c.state.rootRead who ≠ some c.state.fuse.rootBlock)
      (h : MustSet (c.programs who)) (hother : (c.programs !who).Only fun call => ¬ IsSet call)
  /-- No one has set the root. -/
  | opening (made : Bool → Multiset Block) (hroot : c.state.fuse.rootBlock = t.1.block t.2)
      (hcontains : Contains c.state.fuse (t.blocks + (made true + made false)))
      (hused : c.state.fuse.idsUsed = used + ((made true).card + (made false).card))
      (h : ∀ who, (P who).Before fuel t (c.state.rootRead who) (made who) (c.programs who))
  /-- One of them has set the root. -/
  | between (first : Bool) {w : Inodes} {made : Multiset Block} {old : List Block}
      (hw : (P first).Adds t w) (hcard : w.blocks.card = t.blocks.card + 1)
      (hroot : c.state.fuse.rootBlock = w.1.block w.2)
      (hcontains : Contains c.state.fuse (w.blocks + made + old))
      (hused : c.state.fuse.idsUsed = used + (P first).cost + made.card)
      (hfirst : Frees old (c.programs first))
      (h : (P !first).Before fuel w (c.state.rootRead !first) made (c.programs !first))
  /-- Both have. -/
  | closing (first : Bool) {w v : Inodes} {old old' : List Block} (hw : (P first).Adds t w)
      (hv : (P !first).Adds w v) (hroot : c.state.fuse.rootBlock = v.1.block v.2)
      (hcontains : Contains c.state.fuse (v.blocks + old + old'))
      (hused : c.state.fuse.idsUsed = used + (P first).cost + (P !first).cost)
      (hfirst : Frees old (c.programs first)) (h : Frees old' (c.programs !first))

namespace Race

variable {Ps : Bool → Plan} {t : Inodes} {used : ℕ} {c : Race}

theorem sum_bool (made : Bool → Multiset Block) (who : Bool) :
    made true + made false = made who + made !who := by
  cases who
  · exact Multiset.add_comm _ _
  · rfl

/-- A request that has to set the root makes another call. -/
theorem mustSet_advance {p : FsM Reply} (h : MustSet p) (hsets : setsRoot p = false) (s : Shared)
    (who : Bool) :
    MustSet (p.advance (sharedHandler who) s).1 ∧
      (p.advance (sharedHandler who) s).2.rootRead who = s.rootRead who ∧
      (p.advance (sharedHandler who) s).2.fuse.rootBlock = s.fuse.rootBlock := by
  cases p with
  | ret reply => exact ⟨h, rfl, rfl⟩
  | halt e => exact ⟨h, rfl, rfl⟩
  | call call next =>
    have hset : ¬ IsSet call := by
      cases call <;> first | exact fun hset => hset | cases hsets
    obtain ⟨hkind, hnext⟩ := h.resolve_left hset
    have hnote : s.note who call = s.rootRead := by
      cases call with
      | getRootBlock => exact (or_self False ▸ hkind : False).elim
      | createBlock data => rfl
      | managerFreeBlock id => rfl
      | getBlocks ids => rfl
      | setRootBlock newRoot => rfl
      | freeBlock id => rfl
    have hroot := rootBlock_of_not_isSet hset s.fuse
    rw [Program.advance, sharedHandler]
    cases hreply : handler false call s.fuse with
    | returned r fuse =>
      rw [hreply] at hroot
      exact ⟨hnext r, congrFun hnote who, hroot⟩
    | halted e fuse =>
      rw [hreply] at hroot
      exact ⟨trivial, congrFun hnote who, hroot⟩

/-- A request that builds on a tree whose root was replaced may not set the root any more. -/
theorem stuck_step {who : Bool} (hread : c.state.rootRead who ≠ some c.state.fuse.rootBlock)
    (h : MustSet (c.programs who)) (hother : (c.programs !who).Only fun call => ¬ IsSet call)
    (turn : Bool) (hkeeps : KeepsRoot c turn) : Inv Ps fuel t used (c.step turn) := by
  rcases Bool.eq_or_eq_not turn who with rfl | rfl
  · have hsets : setsRoot (c.programs turn) = false := by
      by_contra hsets
      exact hread (hkeeps (Bool.not_eq_false _ ▸ hsets))
    obtain ⟨hmust, hread', hroot⟩ := mustSet_advance h hsets c.state turn
    refine .stuck turn ?_ ?_ ?_
    · rw [Interleaving.state_step, hread', hroot]
      exact hread
    · rwa [Interleaving.programs_step_self]
    · rwa [Interleaving.programs_step_of_ne _ _ (Bool.not_ne_self turn)]
  · obtain ⟨hprogram, hfuse⟩ := advance_shared (c.programs !who) c.state (!who)
    have hother' := rootRead_other (c.programs !who) c.state (!who)
    have hroot := rootBlock_advance hother c.state.fuse
    rw [Bool.not_not] at hother'
    refine .stuck who ?_ ?_ ?_
    · rw [Interleaving.state_step, hother', hfuse, hroot]
      exact hread
    · rwa [Interleaving.programs_step_of_ne _ _ (Bool.self_ne_not who)]
    · rw [Interleaving.programs_step_self]
      exact hother.advance c.state

/-- **No one has set the root.** The first to do so goes on from the tree `t`; what the other has
built on it is of no use any more. -/
theorem opening_step (made : Bool → Multiset Block)
    (hroot : c.state.fuse.rootBlock = t.1.block t.2)
    (hcontains : Contains c.state.fuse (t.blocks + (made true + made false)))
    (hused : c.state.fuse.idsUsed = used + ((made true).card + (made false).card))
    (h : ∀ who, (Ps who).Before fuel t (c.state.rootRead who) (made who) (c.programs who))
    (hfuel : t.blocks.card + 2 < fuel) (turn : Bool) : Inv Ps fuel t used (c.step turn) := by
  rw [sum_bool made turn, ← add_assoc] at hcontains
  have hsum : (made true).card + (made false).card = (made turn).card + (made !turn).card := by
    rw [← Multiset.card_add, sum_bool made turn, Multiset.card_add]
  rw [hsum] at hused
  have hread := rootRead_other (c.programs turn) c.state turn
  cases (h turn).turn hroot hcontains (by omega) with
  | fails hfails => exact .fails turn (by rwa [Interleaving.programs_step_self])
  | @goes made' hbefore hroot' hcontains' hused' =>
    refine .opening (Function.update made turn made') (hroot'.trans hroot) ?_ ?_ fun who => ?_
    · rw [sum_bool _ turn, Function.update_self, Function.update_of_ne (Bool.not_ne_self turn),
        ← add_assoc]
      exact hcontains'
    · rw [← Multiset.card_add, sum_bool _ turn, Function.update_self,
        Function.update_of_ne (Bool.not_ne_self turn), Multiset.card_add]
      change ((c.programs turn).advance _ c.state).2.fuse.idsUsed = _
      omega
    · rcases Bool.eq_or_eq_not who turn with rfl | rfl
      · rw [Function.update_self, Interleaving.programs_step_self]
        exact hbefore
      · rw [Function.update_of_ne (Bool.not_ne_self turn),
          Interleaving.programs_step_of_ne _ _ (Bool.not_ne_self turn), Interleaving.state_step,
          hread]
        exact h !turn
  | @sets v old hfrees hleads hroot' hcontains' hused' =>
    have hcard := congrArg Multiset.card hleads.blocks_eq
    rw [Multiset.card_add, Multiset.card_add, Multiset.coe_card] at hcard
    have hmade := hleads.card_made
    have hold := hleads.length_old
    -- the new root is none of the old blocks
    have hne : t.1.block t.2 ≠ v.1.block v.2 := by
      intro heq
      have hnodup := (hcontains.mono (Multiset.le_add_right _ _)).nodup
      rw [Multiset.map_add] at hnodup
      exact Multiset.disjoint_left.mp (Multiset.disjoint_of_nodup_add hnodup)
        (Multiset.mem_map_of_mem _ (Multiset.mem_cons_self ..))
        (heq ▸ Multiset.mem_map_of_mem _ hleads.root_mem)
    rcases (h !turn).checks_or_underway with ⟨hzero, hchecks⟩ | ⟨hreadOther, hunderway⟩
    · rw [hzero, add_right_comm] at hcontains'
      rw [hzero] at hused
      refine .between turn hleads.adds (by omega) hroot' hcontains' ?_ ?_ ?_
      · rw [Interleaving.state_step, hused', hused, hmade, Multiset.card_zero]
        omega
      · rwa [Interleaving.programs_step_self]
      · rw [Interleaving.programs_step_of_ne _ _ (Bool.not_ne_self turn)]
        exact .checks hchecks
    · refine .stuck (!turn) ?_ ?_ ?_
      · rw [Interleaving.state_step, hread, hreadOther, hroot']
        exact fun heq => hne (Option.some.inj heq)
      · rw [Interleaving.programs_step_of_ne _ _ (Bool.not_ne_self turn)]
        exact hunderway.mustSet
      · rw [Bool.not_not, Interleaving.programs_step_self]
        exact hfrees.not_isSet

/-- **One of them has set the root**, and the other works on the new tree. -/
theorem between_step (first : Bool) {w : Inodes} {made : Multiset Block} {old : List Block}
    (hw : (Ps first).Adds t w) (hcard : w.blocks.card = t.blocks.card + 1)
    (hroot : c.state.fuse.rootBlock = w.1.block w.2)
    (hcontains : Contains c.state.fuse (w.blocks + made + old))
    (hused : c.state.fuse.idsUsed = used + (Ps first).cost + made.card)
    (hfirst : Frees old (c.programs first))
    (h : (Ps !first).Before fuel w (c.state.rootRead !first) made (c.programs !first))
    (hfuel : t.blocks.card + 2 < fuel) (turn : Bool) : Inv Ps fuel t used (c.step turn) := by
  rcases Bool.eq_or_eq_not turn first with rfl | rfl
  · obtain ⟨old', hfrees, hcontains', hkeeps⟩ := hfirst.turn hcontains turn
    have hread := rootRead_other (c.programs turn) c.state turn
    refine .between turn hw hcard (hkeeps.rootBlock_eq.trans hroot) hcontains'
      (hkeeps.idsUsed_eq.trans hused) ?_ ?_
    · rwa [Interleaving.programs_step_self]
    · rw [Interleaving.programs_step_of_ne _ _ (Bool.not_ne_self turn), Interleaving.state_step,
        hread]
      exact h
  · have hstill : (c.step !first).programs first = c.programs first :=
      Interleaving.programs_step_of_ne _ _ (Bool.self_ne_not first)
    cases h.turn hroot hcontains (by omega) with
    | fails hfails => exact .fails (!first) (by rwa [Interleaving.programs_step_self])
    | @goes made' hbefore hroot' hcontains' hused' =>
      refine .between first hw hcard (hroot'.trans hroot) hcontains' ?_ (hstill ▸ hfirst) ?_
      · rw [Interleaving.state_step]
        omega
      · rw [Interleaving.programs_step_self]
        exact hbefore
    | @sets v old' hfrees hleads hroot' hcontains' hused' =>
      rw [add_right_comm] at hcontains'
      refine .closing first hw hleads.adds hroot' hcontains' ?_ (hstill ▸ hfirst) ?_
      · rw [Interleaving.state_step, hused', hused, hleads.card_made]
      · rwa [Interleaving.programs_step_self]

/-- **Both have set the root**, and free what they have replaced. -/
theorem closing_step (first : Bool) {w v : Inodes} {old old' : List Block}
    (hw : (Ps first).Adds t w) (hv : (Ps !first).Adds w v)
    (hroot : c.state.fuse.rootBlock = v.1.block v.2)
    (hcontains : Contains c.state.fuse (v.blocks + old + old'))
    (hused : c.state.fuse.idsUsed = used + (Ps first).cost + (Ps !first).cost)
    (hfirst : Frees old (c.programs first)) (h : Frees old' (c.programs !first)) (turn : Bool) :
    Inv Ps fuel t used (c.step turn) := by
  rcases Bool.eq_or_eq_not turn first with rfl | rfl
  · rw [add_right_comm] at hcontains
    obtain ⟨after, hfrees, hcontains', hkeeps⟩ := hfirst.turn hcontains turn
    rw [add_right_comm] at hcontains'
    refine .closing turn hw hv (hkeeps.rootBlock_eq.trans hroot) hcontains'
      (hkeeps.idsUsed_eq.trans hused) ?_ ?_
    · rwa [Interleaving.programs_step_self]
    · rwa [Interleaving.programs_step_of_ne _ _ (Bool.not_ne_self turn)]
  · obtain ⟨after, hfrees, hcontains', hkeeps⟩ := h.turn hcontains !first
    refine .closing first hw hv (hkeeps.rootBlock_eq.trans hroot) hcontains'
      (hkeeps.idsUsed_eq.trans hused) ?_ ?_
    · rwa [Interleaving.programs_step_of_ne _ _ (Bool.self_ne_not first)]
    · rwa [Interleaving.programs_step_self]

/-- **One call.** -/
theorem Inv.step (h : Inv Ps fuel t used c) (hfuel : t.blocks.card + 2 < fuel) (turn : Bool)
    (hkeeps : KeepsRoot c turn) : Inv Ps fuel t used (c.step turn) := by
  cases h with
  | fails who h => exact .fails who (Interleaving.returns_step turn h)
  | stuck who hread h hother => exact stuck_step hread h hother turn hkeeps
  | opening made hroot hcontains hused h =>
    exact opening_step made hroot hcontains hused h hfuel turn
  | between first hw hcard hroot hcontains hused hfirst h =>
    exact between_step first hw hcard hroot hcontains hused hfirst h hfuel turn
  | closing first hw hv hroot hcontains hused hfirst h =>
    exact closing_step first hw hv hroot hcontains hused hfirst h turn

/-! ### Without ids -/

/-- A request that has not looked at what its parent is for, or fails. -/
inductive Searches (P : Plan) (fuel : ℕ) : FsM Reply → Prop
  | fails {p : FsM Reply} (h : Fails p) : Searches P fuel p
  | checks {p : FsM Reply} (h : P.Checks fuel p) : Searches P fuel p
  | parent {p : FsM (List Block)} (hp : p.Only IsRead) : Searches P fuel (p >>= P.attach)

theorem Searches.advance (h : Searches P fuel p)
    (hids : s.fuse.manager.idSupplier.next = 0) (who : Bool) :
    Searches P fuel (p.advance (sharedHandler who) s).1 := by
  have hparent : ∀ {q : FsM (List Block)}, q.Only IsRead →
      Searches P fuel ((q >>= P.attach).advance (sharedHandler who) s).1 := by
    intro q hq
    cases q with
    | ret blocks =>
      change Searches P fuel ((P.attach blocks).advance (sharedHandler who) s).1
      rcases P.attach_cases blocks with ⟨reply, hstatus, hattach⟩ | hattach
      · rw [hattach]
        exact .fails hstatus
      · have hrun := run_createBlock_exhausted (k := false) (.dirFile ⟨P.name, P.stat, []⟩) hids
        rw [FsM.createBlock, Program.run_request] at hrun
        rw [hattach, addInode]
        change Searches P fuel ((Program.call _ _ : FsM Reply).advance (sharedHandler who) s).1
        rw [Program.advance_of_halted (by rw [sharedHandler, hrun]; rfl)]
        exact .fails trivial
    | halt e => exact .fails trivial
    | call call next =>
      obtain ⟨r, fuse, hreply, -, -⟩ := exists_reply_of_isRead hq.1 s.fuse
      change Searches P fuel ((Program.call call fun r => next r >>= P.attach : FsM Reply).advance
        (sharedHandler who) s).1
      rw [advance_returned hreply]
      exact .parent (hq.2 r)
  cases h with
  | fails h => exact .fails (h.advance s)
  | checks h =>
    cases h with
    | fails h => exact .fails (h.advance s)
    | @read call next hread hnext =>
      obtain ⟨r, fuse, hreply, -, -⟩ := exists_reply_of_isRead hread s.fuse
      rw [advance_returned hreply]
      exact .checks (hnext r)
    | search => exact hparent (only_getPath ..)
  | parent hp => exact hparent hp

/-- Such a request has not returned a success. -/
theorem Searches.status_ne {reply : Reply} (h : Searches P fuel (.ret reply)) :
    reply.status ≠ 0 := by
  generalize hp : (.ret reply : FsM Reply) = p at h
  cases h with
  | fails h =>
    subst hp
    exact h
  | checks h =>
    cases h with
    | fails h =>
      subst hp
      exact h
    | read hread hnext => cases hp
    | search =>
      rw [getPath_eq P.parent_ne] at hp
      cases hp
  | @parent q hq =>
    cases q with
    | ret blocks =>
      have hattach : .ret reply = P.attach blocks := hp
      rcases P.attach_cases blocks with ⟨reply', hstatus, hfails⟩ | hadd
      · rw [hfails] at hattach
        cases hattach
        exact hstatus
      · rw [hadd] at hattach
        cases hattach
    | halt e => cases hp
    | call call next => cases hp

/-- No call gives ids back. -/
theorem next_eq_zero_advance (hids : s.fuse.manager.idSupplier.next = 0) (p : FsM Reply)
    (who : Bool) : (p.advance (sharedHandler who) s).2.fuse.manager.idSupplier.next = 0 := by
  rw [(advance_shared p s who).2]
  rw [next_eq_zero_iff] at hids ⊢
  cases p with
  | ret reply => exact hids
  | halt e => exact hids
  | call call next =>
    have hle := idsUsed_le_handler call s.fuse
    have hlt := (handler false call s.fuse).state.idsUsed_lt
    rw [Program.advance]
    cases hreply : handler false call s.fuse <;>
    · rw [hreply] at hle hlt
      simp only [Outcome.state_returned, Outcome.state_halted] at hle hlt ⊢
      omega

/-- **Without ids no request succeeds.** -/
theorem not_succeeded_of_no_ids {c : Race} (hids : c.state.fuse.manager.idSupplier.next = 0)
    {P : Plan} {who : Bool} (h : Searches P fuel (c.programs who)) (schedule : List Bool) :
    ¬ (schedule.foldl Race.step c).Succeeded who := by
  induction schedule generalizing c with
  | nil =>
    rintro ⟨reply, hreply, hstatus⟩
    rw [List.foldl_nil] at hreply
    rw [hreply] at h
    exact h.status_ne hstatus
  | cons turn schedule ih =>
    refine ih (next_eq_zero_advance hids _ turn) ?_
    by_cases hturn : who = turn
    · subst hturn
      rw [Interleaving.programs_step_self]
      exact h.advance hids who
    · rwa [Interleaving.programs_step_of_ne _ _ hturn]

end Race

/-! ## One after the other -/

section

variable {f : BlockFuse} {t : Inodes} {env : Env} {now : Int64} {a : Addition} {st : Stat}

/-- A request that finds its parent and nothing in its place, while there are ids enough. -/
theorem Good.step_addition (h : Good f t 0) (hvalid : ValidNames a.names)
    (hstat : a.stat env now = .ok st) (hnone : t.resolve (FsUtil.pathOf a.names) = none)
    {z : Zipper Node} (hz : t.resolve (FsUtil.pathOf a.names.dropLast) = some z)
    (hids : f.idsUsed + (z.frames.length + 2) < 2 ^ 64) :
    ∃ t', Good (step env false f (now, a.call)) t' 0 ∧ t'.entries = Namespace.add
        (z.map Node.entry) ⟨Namespace.baseName (FsUtil.pathOf a.names), st, []⟩ ∧
      (step env false f (now, a.call)).idsUsed = f.idsUsed + (z.frames.length + 2) := by
  have hpath := FsUtil.pathOf_ne_nil a.names
  rw [← FsUtil.parentPath_pathOf hvalid] at hz
  refine ⟨Inodes.addAt z f.idsUsed (Namespace.baseName (FsUtil.pathOf a.names)) st, ?_⟩
  rw [Inodes.entries_addAt]
  cases a with
  | mkdir names bits =>
    cases hmode : Mode.ofModeT (bits ||| S_IFDIR) with
    | error what =>
      rw [Addition.stat, hmode] at hstat
      cases hstat
    | ok mode =>
      rw [Addition.stat, hmode] at hstat
      obtain rfl := Except.ok.inj hstat
      have hmeets := h.mkdir_meets (k := false) env now hpath hnone hz hmode
      rw [step, exec, Addition.call, program, Program.run_bind]
      cases hrun : (mkdir env f.fuel now (FsUtil.pathOf names) bits).run (handler false) f with
      | returned status f' =>
        rw [Addition.names, hrun] at hmeets
        obtain ⟨-, hgood, hused⟩ := hmeets
        rw [if_neg Bool.false_ne_true, add_zero] at hgood
        exact ⟨hgood, rfl, hused⟩
      | halted e f' =>
        rw [Addition.names, hrun] at hmeets
        exact absurd hmeets.short (by omega)
  | create names bits =>
    cases hmode : Mode.ofModeT bits with
    | error what =>
      rw [Addition.stat, hmode] at hstat
      cases hstat
    | ok mode =>
      rw [Addition.stat, hmode] at hstat
      obtain rfl := Except.ok.inj hstat
      have hmeets := h.create_meets (k := false) env now hpath hnone hz hmode
      rw [step, exec, Addition.call, program, Program.run_bind]
      cases hrun : (create env f.fuel now (FsUtil.pathOf names) bits).run (handler false) f with
      | returned status f' =>
        rw [Addition.names, hrun] at hmeets
        obtain ⟨-, -, hgood, hused⟩ := hmeets
        rw [if_neg Bool.false_ne_true, add_zero] at hgood
        exact ⟨hgood, rfl, hused⟩
      | halted e f' =>
        rw [Addition.names, hrun] at hmeets
        rcases hmeets with hout | ⟨-, -, hgood, hused⟩
        · exact absurd hout.short (by omega)
        · rw [if_neg Bool.false_ne_true, add_zero] at hgood
          exact ⟨hgood, rfl, hused⟩

/-- The plan is that of the request. -/
structure Plan.Fits (P : Plan) (env : Env) (now : Int64) (a : Addition) : Prop where
  parent_eq : P.parent = FsUtil.pathOf a.names.dropLast
  name_eq : P.name = Namespace.baseName (FsUtil.pathOf a.names)
  stat_eq : a.stat env now = .ok P.stat

/-- What a plan adds, the request adds when it is made by itself. -/
theorem Good.step_of_adds (h : Good f t 0) (hvalid : ValidNames a.names)
    (hP : P.Fits env now a) {u w : Inodes} (hu : t.entries = u.entries) (hadds : P.Adds u w)
    (hnone : t.entries.lookup a.names = none) (hids : f.idsUsed + P.cost < 2 ^ 64) :
    ∃ t', Good (step env false f (now, a.call)) t' 0 ∧ t'.entries = w.entries ∧
      (step env false f (now, a.call)).idsUsed = f.idsUsed + P.cost := by
  obtain ⟨z, hz, hw⟩ := hadds
  -- the parent is at the same place in both trees
  have hplace : t.entries.resolve P.parent = some (z.map Node.entry) := by
    rw [hu, Inodes.resolve_entries, hz, Option.map_some]
  rw [Inodes.resolve_entries, Option.map_eq_some_iff] at hplace
  obtain ⟨y, hy, hmap⟩ := hplace
  have hlength : y.frames.length + 2 = P.cost := by
    rw [length_frames hy, Plan.cost]
  have habsent : t.resolve (FsUtil.pathOf a.names) = none := by
    rw [← Namespace.place_eq_none_iff, t.place_entries hvalid, Option.map_eq_none_iff] at hnone
    exact hnone
  obtain ⟨t', hgood, hentries, hused⟩ := h.step_addition hvalid hP.stat_eq habsent
    (hP.parent_eq ▸ hy) (hlength ▸ hids)
  refine ⟨t', hgood, ?_, hused.trans (congrArg _ hlength)⟩
  rw [hentries, hmap, hw, Plan.entry, hP.name_eq]

/-- There is nothing under the names yet. -/
def Absent (env : Env) (f : BlockFuse) (names : List Str) : Prop :=
  (exec env false f (0, .getattr (FsUtil.pathOf names))).result =
    .ok { status := noSuchFileOrDir }

instance (env : Env) (f : BlockFuse) (names : List Str) : Decidable (Absent env f names) :=
  inferInstanceAs (Decidable (_ = _))

/-- The root is there in every state. -/
theorem Absent.ne_nil {names : List Str} (h : Absent env f names) : names ≠ [] := by
  rintro rfl
  have hroot : (getPath f.fuel (FsUtil.pathOf [])).run (handler false) f =
      .returned [⟨f.rootBlock.id, f.rootBlock.data⟩] f := by
    rw [getPath_eq (FsUtil.pathOf_ne_nil [])]
    rfl
  rw [Absent, exec, program, getattr, resolveInode] at h
  simp only [Program.run_bind, hroot, Outcome.bind_returned, Program.run_pure,
    List.getLast?_singleton] at h
  cases hinode : f.rootBlock.tryCastDirFile with
  | none =>
    rw [hinode] at h
    cases h
  | some inode =>
    rw [hinode] at h
    cases h

theorem Good.lookup_of_absent (h : Good f t 0) {names : List Str} (hvalid : ValidNames names)
    (habsent : Absent env f names) : t.entries.lookup names = none := by
  rw [Absent, h.exec_getattr env 0 (FsUtil.pathOf_ne_nil names), Outcome.result_of,
    Namespace.getattr, Namespace.resolve_pathOf _ hvalid] at habsent
  rw [← Namespace.place_eq_none_iff]
  cases hplace : t.entries.place names with
  | none => rfl
  | some z =>
    rw [hplace] at habsent
    cases habsent

end

/-- **The same namespace** as after the requests one after the other, in the order in which they
have set the root. -/
theorem Good.namespaceOf_inTurn {f : BlockFuse} {t w v : Inodes} {env : Env} (h : Good f t 0)
    (ht : DistinctNames t.entries) {request : Bool → Int64 × Addition} {Ps : Bool → Plan}
    (hvalid : ∀ who, ValidNames (request who).2.names)
    (hne : (request true).2.names ≠ (request false).2.names)
    (habsent : ∀ who, Absent env f (request who).2.names)
    (hP : ∀ who, (Ps who).Fits env (request who).1 (request who).2) (first : Bool)
    (hw : (Ps first).Adds t w) (hv : (Ps !first).Adds w v)
    (hids : f.idsUsed + (Ps first).cost + (Ps !first).cost < 2 ^ 64) :
    (inTurn env f request first).namespaceOf = some v.entries := by
  have hfirst := h.lookup_of_absent (hvalid first) (habsent first)
  have hother := h.lookup_of_absent (hvalid !first) (habsent !first)
  obtain ⟨t₁, hgood₁, hentries₁, hused₁⟩ := h.step_of_adds (hvalid first) (hP first) rfl hw hfirst
    (by omega)
  have hnone : t₁.entries.lookup (request !first).2.names = none := by
    obtain ⟨z, hz, hadd⟩ := hw
    rw [(hP first).parent_eq] at hz
    have hplace : t.entries.place (request first).2.names.dropLast = some (z.map Node.entry) := by
      rw [t.place_entries (hvalid first).dropLast, hz, Option.map_some]
    have hlookup := (ht.add_last (hvalid first) (Namespace.place_eq_none_iff.mpr hfirst) hplace
      (Ps first).stat []).2
    have hnames : (request !first).2.names ≠ (request first).2.names := by
      cases first
      · exact hne
      · exact hne.symm
    rw [hentries₁, hadd, Plan.entry, (hP first).name_eq, hlookup, Function.update_of_ne hnames]
    exact hother
  obtain ⟨t₂, hgood₂, hentries₂, -⟩ := hgood₁.step_of_adds (hvalid !first) (hP !first) hentries₁ hv
    hnone (by omega)
  have hstores := hgood₂.stores
  rw [add_zero] at hstores
  rw [inTurn, List.foldl_cons, List.foldl_cons, List.foldl_nil,
    hstores.contains.namespaceOf_eq hgood₂.rootBlock_eq, hentries₂]

namespace Race

variable {env : Env} {f : BlockFuse} {request : Bool → Int64 × Addition}

/-- What becomes of a race in which both requests succeed. -/
theorem serial_of_inv {Ps : Bool → Plan} {t : Inodes} {c : Race} (h : Good f t 0)
    (ht : DistinctNames t.entries) (hvalid : ∀ who, ValidNames (request who).2.names)
    (hne : (request true).2.names ≠ (request false).2.names)
    (habsent : ∀ who, Absent env f (request who).2.names)
    (hP : ∀ who, (Ps who).Fits env (request who).1 (request who).2)
    (hc : Inv Ps fuel t f.idsUsed c) (hsucceeded : ∀ who, c.Succeeded who) :
    Serial env f request c.state.fuse := by
  have hfails : ∀ who, ¬ Fails (c.programs who) := by
    intro who hfails
    obtain ⟨reply, hreply, hstatus⟩ := hsucceeded who
    rw [hreply] at hfails
    exact hfails hstatus
  -- a request that has not set the root has not returned
  have hbefore : ∀ {u : Inodes} {made : Multiset Block} {read : Option Block} (who : Bool),
      ¬ (Ps who).Before fuel u read made (c.programs who) := by
    intro u made read who hbefore
    obtain ⟨reply, hreply, hstatus⟩ := hsucceeded who
    rw [hreply] at hbefore
    rcases hbefore.checks_or_underway with ⟨-, hchecks⟩ | ⟨-, hunderway⟩
    · exact (Searches.checks hchecks).status_ne hstatus
    · exact hunderway.mustSet hstatus
  cases hc with
  | fails who h => exact absurd h (hfails who)
  | stuck who hread h hother =>
    obtain ⟨reply, hreply, hstatus⟩ := hsucceeded who
    rw [hreply] at h
    exact absurd hstatus h
  | opening made hroot hcontains hused h => exact absurd (h true) (hbefore true)
  | between first hw hcard hroot hcontains hused hfirst h => exact absurd h (hbefore _)
  | @closing first w v old old' hw hv hroot hcontains hused hfirst hother =>
    have hlt := c.state.fuse.idsUsed_lt
    have htree : Contains c.state.fuse v.blocks := by
      rw [add_assoc] at hcontains
      exact hcontains.mono (Multiset.le_add_right _ _)
    refine ⟨⟨v.entries, htree.namespaceOf_eq hroot, first, ?_⟩, fun id hid =>
      htree.isStored_of_reaches hroot hid⟩
    exact h.namespaceOf_inTurn ht hvalid hne habsent hP first hw hv (by omega)

/-- **No update is lost** when each request sets the root only while it is the one it has read last.
The start is a state that calls on paths made of names lead to, and `fuel` is at least what a call
by itself would have. -/
theorem serial_of_keepsRoot (env : Env) (now : Int64) (calls : List (Int64 × Call))
    (hnamed : ∀ call ∈ calls, call.2.Named) (request : Bool → Int64 × Addition)
    (hvalid : ∀ who, ValidNames (request who).2.names)
    (hne : (request true).2.names ≠ (request false).2.names) (fuel : ℕ) (schedule : List Bool) :
    let s := calls.foldl (BlockFuse.step env false) (new env now)
    let c := start env fuel s request
    (∀ who, Absent env s (request who).2.names) → s.fuel ≤ fuel →
      Run.EveryStep step KeepsRoot c schedule → (∀ who, (schedule.foldl step c).Succeeded who) →
        Serial env s request (schedule.foldl step c).state.fuse := by
  intro s c habsent hfuel hkeeps hsucceeded
  -- the modes are modes, since a request with another one fails
  have hstat : ∀ who, ∃ st, (request who).2.stat env (request who).1 = .ok st := by
    intro who
    cases hstat : (request who).2.stat env (request who).1 with
    | ok st => exact ⟨st, rfl⟩
    | error what =>
      have hfails : Fails ((schedule.foldl step c).programs who) :=
        Interleaving.returns_run schedule (Addition.fails_of_stat_error hstat)
      obtain ⟨reply, hreply, hstatus⟩ := hsucceeded who
      rw [hreply] at hfails
      exact absurd hstatus hfails
  choose st hst using hstat
  have hplan : ∀ who, ∃ P : Plan, P.Fits env (request who).1 (request who).2 ∧
      P.Checks fuel (c.programs who) := by
    intro who
    obtain ⟨P, hparent, hname, hstat, hchecks⟩ := Addition.exists_plan (hvalid who)
      (habsent who).ne_nil (hst who)
    exact ⟨P, ⟨hparent, hname, hstat ▸ hst who⟩, hchecks⟩
  choose Ps hP hchecks using hplan
  by_cases hids : s.manager.idSupplier.next = 0
  · exact absurd (hsucceeded true) (not_succeeded_of_no_ids hids (.checks (hchecks true)) schedule)
  · have hleft : s.idsUsed + 1 < 2 ^ 64 := by
      have hused := mt next_eq_zero_iff.mpr hids
      have hlt := s.idsUsed_lt
      omega
    obtain ⟨t, hgood, ht⟩ := orderly_run env now hnamed hleft
    have hcard : t.blocks.card + 2 < s.fuel := hgood.card_blocks_lt_fuel
    have hstart : Inv Ps fuel t s.idsUsed c := by
      have hstores := hgood.stores
      refine .opening (fun _ => 0) hgood.rootBlock_eq ?_ rfl fun who => .checks (hchecks who)
      exact hstores.contains
    have hend : Inv Ps fuel t s.idsUsed (schedule.foldl step c) :=
      hkeeps.invariant hstart fun c' turn hc' hturn => hc'.step (by omega) turn hturn
    exact serial_of_inv hgood ht hvalid hne habsent hP hend hsucceeded

/-! ### Two directories -/

/-- One directory is to be made in a directory, another one next to it. -/
def twoDirs (who : Bool) : Int64 × Addition :=
  bif who then (1, .mkdir [[0x64], [0x61]] 0o755) else (2, .mkdir [[0x62]] 0o755)

/-- The file system with the directory. -/
def oneDir : BlockFuse :=
  [(0, Call.mkdir (FsUtil.pathOf [[0x64]]) 0o755)].foldl (BlockFuse.step plainEnv false)
    (new plainEnv 0)

/-- The second request looks at the tree and waits, then reads the root that the first one has set,
and builds on it while the first one frees. -/
def waiting : List Bool :=
  [true, true, false, false] ++ .replicate 6 true ++ [false, true, false, false, false, true, false]

theorem serial_of_waiting :
    Serial plainEnv oneDir twoDirs
      (waiting.foldl step (start plainEnv oneDir.fuel oneDir twoDirs)).state.fuse :=
  serial_of_keepsRoot plainEnv 0 [(0, .mkdir (FsUtil.pathOf [[0x64]]) 0o755)]
    (by simpa using ⟨[[0x64]], by decide, rfl⟩) twoDirs (by decide) (by decide) oneDir.fuel waiting
    (by decide +kernel) le_rfl (by decide +kernel) (by decide +kernel)

/-- The second request waits before it sets the root, and sets it after the first one. -/
def overtaken : List Bool := .replicate 5 false ++ .replicate 10 true ++ .replicate 2 false

/-- Both requests succeed, and the root lists a directory that is gone. -/
theorem lost_update :
    let c := overtaken.foldl step (start plainEnv oneDir.fuel oneDir twoDirs)
    (∀ who, Absent plainEnv oneDir (twoDirs who).2.names) ∧ (∀ who, c.Succeeded who) ∧
      ¬ Serial plainEnv oneDir twoDirs c.state.fuse := by
  intro c
  have hgone : c.state.fuse.namespaceOf = none := by decide +kernel
  refine ⟨by decide +kernel, by decide +kernel, ?_⟩
  rintro ⟨⟨n, hn, -⟩, -⟩
  rw [hgone] at hn
  cases hn

end Race

end BlockFuse

end Pingfs
