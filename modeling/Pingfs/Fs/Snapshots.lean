import Pingfs.Fs.Additions
import Pingfs.Fs.Server

/-!
# A state that others go on from

A block never changes, and an id is handed out once. So a state of the file system can be read after
others have gone on from it: what is left of its blocks is as it was (`Snapshot`), and a block that
is gone shows as a null pointer. A query looks at the root once, and then only asks for blocks. It
follows every pointer that its reply depends on: if one of them is null it ends there, and if none
is, it returns what it would return in the state whose root it has seen.

Source: the searches of `block_fuse.cc` and `block_util.cc`.

## Main results

* `tolerant_searchInode`, `tolerant_getDirFiles`, `tolerant_getFileContents` — the searches follow
  every pointer they depend on
* `Snapshot.handler` — no call takes a snapshot's blocks for others
* `Good.queries_advance` — a query that has seen the root of a snapshot
-/

namespace Pingfs

open BlockFuse

/-- The same pointer, or a null one if blocks are `gone`. -/
abbrev MayBeNull (gone : Prop) (x' x : Option Block) : Prop := x' = none ∧ gone ∨ x' = x

/-- One reply to a call is as good as another one, if blocks may be `gone`, and the root be another
one by now. -/
def FsCall.Fewer (gone : Prop) : (call : FsCall) → call.Reply → call.Reply → Prop
  | .getBlocks _, r', r => List.Forall₂ (MayBeNull gone) r' r
  | .getRootBlock, _, _ => True
  | .createBlock _, r', r => r' = r
  | .managerFreeBlock _, r', r => r' = r
  | .setRootBlock _, r', r => r' = r
  | .freeBlock _, r', r => r' = r

namespace BlockFuse

open FsM BlockUtil

/-- Where pointers are null, the program follows one of them or goes on as it would have, and it
does so whatever the root is. -/
abbrev Tolerant (gone : Prop) {α : Type} (p : FsM α) : Prop :=
  p.Tolerates (FsCall.Fewer gone) fun e => e = .nullDereference ∧ gone

variable {s s' : BlockFuse} {t : Inodes} {k : Bool} {gone : Prop}

/-! ## Queries follow their pointers -/

theorem getPathPartHelper_fewer {response' response : List (Option Block)}
    (h : List.Forall₂ (MayBeNull gone) response' response) (name : Str)
    (retrieved : BlockId → Option Block) :
    (∃ e, getPathPartHelper name retrieved response' = .error e ∧ e = .nullDereference ∧ gone) ∨
      getPathPartHelper name retrieved response' = getPathPartHelper name retrieved response := by
  induction h generalizing retrieved with
  | nil => exact Or.inr rfl
  | @cons x' x pointers' pointers hx hrest ih =>
    rcases hx with ⟨rfl, hgone⟩ | rfl
    · exact Or.inl ⟨_, rfl, rfl, hgone⟩
    cases x' with
    | none => exact Or.inr rfl
    | some block =>
      by_cases hname : (block.tryCastDirFile.map (·.name)) = some name
      · refine Or.inr ((if_pos hname).trans (if_pos hname).symm)
      rcases ih (Function.update retrieved block.id (some block)) with ⟨e, hnull, hgone⟩ | hsame
      · refine Or.inl ⟨e, (if_neg hname).trans ?_, hgone⟩
        rw [hnull]
        rfl
      · refine Or.inr ((if_neg hname).trans (Eq.trans ?_ (if_neg hname).symm))
        rw [hsame]

theorem tolerant_searchInode (name : Str) (fuel : ℕ) (ids : List BlockId)
    (retrieved : BlockId → Option Block) : Tolerant gone (searchInode name fuel ids retrieved) := by
  induction fuel generalizing ids retrieved with
  | zero => exact Program.tolerates_halt _
  | succ fuel ih =>
    rw [searchInode]
    refine Program.tolerates_ite (Program.tolerates_pure _)
      (Program.approximates_request_bind fun response' response hfewer =>
        Program.approximates_ofExcept_bind (getPathPartHelper_fewer hfewer name retrieved)
          fun found _ => ?_)
    obtain ⟨target, more, retrieved⟩ := found
    cases target with
    | none => exact ih more retrieved
    | some target => exact Program.tolerates_pure _

/-- Below the root no search looks at the root. -/
theorem tolerant_getPathLoop (fuel : ℕ) {parts : List Str}
    (hparts : ∀ part ∈ parts, part ≠ FsUtil.separator) (fromBlock : Option Block)
    (blocks : List Block) : Tolerant gone (getPathLoop fuel parts fromBlock blocks) := by
  induction parts generalizing fromBlock blocks with
  | nil => exact Program.tolerates_pure _
  | cons part parts ih =>
    have hpart : Tolerant gone (getPathPart fuel part fromBlock) := by
      rw [getPathPart, if_neg (hparts part (List.mem_cons_self ..))]
      refine Program.tolerates_bind (Program.tolerates_ofExcept _) fun fromBlock =>
        Program.tolerates_bind ?_ fun dirFile =>
          Program.tolerates_bind (tolerant_searchInode ..) fun found => ?_
      · cases fromBlock.tryCastDirFile with
        | none => exact Program.tolerates_halt _
        | some dirFile => exact Program.tolerates_pure _
      · obtain ⟨target, retrieved⟩ := found
        cases target with
        | none => exact Program.tolerates_pure _
        | some target =>
          exact Program.tolerates_bind (Program.tolerates_ofExcept _) fun _ =>
            Program.tolerates_pure _
    refine Program.tolerates_bind hpart fun blockPath => ?_
    cases blockPath.getLast? with
    | none => exact Program.tolerates_pure _
    | some last =>
      exact ih (fun p hp => hparts p (List.mem_cons_of_mem _ hp)) (some last) (blocks ++ blockPath)

theorem traceBlocks_fewer {response' response : List (Option Block)}
    (h : List.Forall₂ (MayBeNull gone) response' response) :
    (∃ e, traceBlocks response' = .error e ∧ e = .nullDereference ∧ gone) ∨
      traceBlocks response' = traceBlocks response := by
  induction h with
  | nil => exact Or.inr rfl
  | @cons x' x pointers' pointers hx hrest ih =>
    rcases hx with ⟨rfl, hgone⟩ | rfl
    · exact Or.inl ⟨_, rfl, rfl, hgone⟩
    cases x' with
    | none => exact Or.inr rfl
    | some block =>
      rcases ih with ⟨e, hnull, hgone⟩ | hsame
      · refine Or.inl ⟨e, ?_, hgone⟩
        simp only [traceBlocks, deref, bind, Except.bind, hnull]
      · refine Or.inr ?_
        simp only [traceBlocks, hsame]

theorem tolerant_getDirFiles (fuel : ℕ) (ids : List BlockId) :
    Tolerant gone (getDirFiles fuel ids) := by
  induction fuel generalizing ids with
  | zero => exact Program.tolerates_halt _
  | succ fuel ih =>
    rw [getDirFiles]
    exact Program.tolerates_ite (Program.tolerates_pure _)
      (Program.approximates_request_bind fun response' response hfewer =>
        Program.approximates_ofExcept_bind (traceBlocks_fewer hfewer) fun found _ =>
          Program.tolerates_bind (ih found.2) fun _ => Program.tolerates_pure _)

/-- Pointers are followed one after the other here, the blocks below each before the next one. -/
theorem approximates_gatherContents {below : List BlockId → FsM (List FileContentsBlockData)}
    (hbelow : ∀ ids, Tolerant gone (below ids)) {response' response : List (Option Block)}
    (h : List.Forall₂ (MayBeNull gone) response' response) :
    (gatherContents below response').Approximates (FsCall.Fewer gone)
      (fun e => e = .nullDereference ∧ gone) Eq (gatherContents below response) := by
  induction h with
  | nil => exact Program.tolerates_pure _
  | @cons x' x pointers' pointers hx hrest ih =>
    have hmore : ∀ first : List FileContentsBlockData,
        (gatherContents below pointers' >>= fun rest => pure (first ++ rest)).Approximates
          (FsCall.Fewer gone) (fun e => e = .nullDereference ∧ gone) Eq
            (gatherContents below pointers >>= fun rest => pure (first ++ rest)) := fun first =>
      Program.approximates_bind ih fun rest' rest hsame => ⟨_, rfl, by rw [hsame]⟩
    rcases hx with ⟨rfl, hgone⟩ | rfl
    · exact Or.inl ⟨rfl, hgone⟩
    cases x' with
    | none => exact Or.inr rfl
    | some block =>
      simp only [gatherContents]
      refine Program.approximates_ofExcept_bind (Or.inr rfl) fun block _ => ?_
      cases block.tryCastContents with
      | some contents => exact hmore [contents]
      | none =>
        cases block.tryCastLink with
        | some linkData =>
          refine Program.approximates_bind (hbelow _) fun linked' linked hsame => ?_
          subst hsame
          exact hmore linked'
        | none => exact ih

theorem tolerant_getFileContents (fuel : ℕ) (ids : List BlockId) :
    Tolerant gone (getFileContents fuel ids) := by
  induction fuel generalizing ids with
  | zero => exact Program.tolerates_halt _
  | succ fuel ih =>
    exact Program.approximates_request_bind fun response' response hfewer =>
      approximates_gatherContents ih hfewer

theorem tolerant_readFileContents (fuel : ℕ) (fileInode : DirFileBlockData) :
    Tolerant gone (readFileContents fuel fileInode) :=
  Program.tolerates_bind (Program.tolerates_ite (Program.tolerates_pure _)
    (Program.tolerates_halt _)) fun _ =>
      Program.tolerates_bind (tolerant_getFileContents ..) fun _ => Program.tolerates_pure _

/-- The program halts, or looks at the root and then at nothing but blocks. -/
def LooksOnce (gone : Prop) {α : Type} (p : FsM α) : Prop :=
  (∃ e, p = .halt e) ∨ ∃ next, p = .call .getRootBlock next ∧ ∀ root, Tolerant gone (next root)

theorem LooksOnce.bind {α β : Type} {p : FsM α} {f : α → FsM β} (hp : LooksOnce gone p)
    (hf : ∀ a, Tolerant gone (f a)) : LooksOnce gone (p >>= f) := by
  rcases hp with ⟨e, rfl⟩ | ⟨next, rfl, hnext⟩
  · exact Or.inl ⟨e, rfl⟩
  · exact Or.inr ⟨_, rfl, fun root => Program.tolerates_bind (hnext root) hf⟩

theorem looksOnce_getPath (fuel : ℕ) (path : Str) : LooksOnce gone (getPath fuel path) := by
  by_cases hpath : path = []
  · subst hpath
    exact Or.inl ⟨_, rfl⟩
  · rw [getPath_eq hpath]
    exact Or.inr ⟨_, rfl, fun root => tolerant_getPathLoop fuel
      (fun part hpart => FsUtil.ne_separator_of_mem_names hpart) (some root) [root]⟩

/-- **A query** looks at the root once. -/
theorem looksOnce_program (env : Env) (fuel : ℕ) (now : Int64) {call : Call}
    (hquery : call.isQuery = true) : LooksOnce gone (program env fuel now call) := by
  cases call with
  | getattr path =>
    refine LooksOnce.bind (LooksOnce.bind (LooksOnce.bind (looksOnce_getPath ..)
      fun _ => Program.tolerates_pure _) fun resolved => ?_) fun _ => Program.tolerates_pure _
    cases resolved with
    | none => exact Program.tolerates_pure _
    | some resolved =>
      refine Program.tolerates_bind ?_ fun _ => Program.tolerates_pure _
      cases resolved.tryCastDirFile with
      | none => exact Program.tolerates_halt _
      | some dirFile => exact Program.tolerates_pure _
  | readdir path filler =>
    refine LooksOnce.bind (LooksOnce.bind (looksOnce_getPath ..) fun blocks => ?_)
      fun _ => Program.tolerates_pure _
    cases blocks.getLast? with
    | none => exact Program.tolerates_pure _
    | some inode =>
      dsimp only
      cases inode.tryCastDirFile with
      | none => exact Program.tolerates_pure _
      | some dirFile =>
        exact Program.tolerates_ite (Program.tolerates_pure _)
          (Program.tolerates_ite (Program.tolerates_pure _)
            (Program.tolerates_bind (tolerant_getDirFiles ..) fun _ => Program.tolerates_pure _))
  | read path size offset =>
    refine LooksOnce.bind (LooksOnce.bind (looksOnce_getPath ..) fun blocks => ?_)
      fun _ => Program.tolerates_pure _
    cases blocks.getLast? with
    | none => exact Program.tolerates_pure _
    | some inode =>
      dsimp only
      cases inode.tryCastDirFile with
      | none => exact Program.tolerates_pure _
      | some dirFile =>
        exact Program.tolerates_ite (Program.tolerates_pure _)
          (Program.tolerates_bind (tolerant_readFileContents ..) fun _ =>
            Program.tolerates_ofExcept _)
  | mkdir path mode => exact absurd hquery Bool.false_ne_true
  | rmdir path => exact absurd hquery Bool.false_ne_true
  | unlink path => exact absurd hquery Bool.false_ne_true
  | write path buffer offset => exact absurd hquery Bool.false_ne_true
  | create path mode => exact absurd hquery Bool.false_ne_true

/-! ## What is left of a state -/

/-- Blocks may be gone in `s'` that are there in `s`, and nothing else has happened. -/
structure Shrinks (s s' : BlockFuse) : Prop where
  join_map : ∀ id b, (s'.manager.map id).join = some b → (s.manager.map id).join = some b
  keeps : Keeps s s'

namespace Shrinks

theorem refl (s : BlockFuse) : Shrinks s s := ⟨fun _ _ hb => hb, Keeps.refl s⟩

theorem trans {s'' : BlockFuse} (h : Shrinks s s') (h' : Shrinks s' s'') : Shrinks s s'' :=
  ⟨fun id b hb => h.join_map id b (h'.join_map id b hb), h.keeps.trans h'.keeps⟩

end Shrinks

theorem EqUpToNull.shrinks (h : EqUpToNull s s') : Shrinks s s' :=
  ⟨fun id b hb => by rwa [← h.join_map_eq], h.idsUsed_eq, h.rootBlock_eq⟩

theorem shrinks_withFreed (s : BlockFuse) (id : BlockId) : Shrinks s (s.withFreed id) := by
  refine ⟨fun j b hb => ?_, keeps_withFreed s id⟩
  change (Function.update s.manager.map id none j).join = some b at hb
  by_cases hj : j = id
  · rw [hj, Function.update_self] at hb
    cases hb
  · rwa [Function.update_of_ne hj] at hb

/-- What an operation still does when it has set the root. -/
def IsClosing (call : FsCall) : Prop := ¬ IsSet call ∧ ¬ IsCreate call

theorem isClosing_or (call : FsCall) : IsClosing call ∨ (∃ data, call = .createBlock data) ∨
    ∃ newRoot, call = .setRootBlock newRoot := by
  cases call <;> simp [IsClosing, IsSet, IsCreate]

theorem shrinks_handler {call : FsCall} (hclosing : IsClosing call) (s : BlockFuse) :
    Shrinks s (handler k call s).state := by
  cases call with
  | createBlock data => exact absurd trivial hclosing.2
  | managerFreeBlock id => exact shrinks_withFreed s id
  | getBlocks ids =>
    have hread : IsRead (.getBlocks ids) := trivial
    exact (eqUpToNull_of_isRead (k := k) hread s).shrinks
  | getRootBlock => exact .refl s
  | setRootBlock newRoot => exact absurd trivial hclosing.1
  | freeBlock id =>
    cases k with
    | false => exact shrinks_withFreed s id
    | true => exact .refl s

theorem shrinks_run {α : Type} {p : FsM α} (hp : p.Only IsClosing) (s : BlockFuse) :
    Shrinks s (p.run (handler k) s).state :=
  have hcalls : p.EveryCall (handler k) (fun call _ => IsClosing call) s :=
    hp.everyCall (fun _ _ h => h) s
  hcalls.invariant (fun _ s' h hclosing => h.trans (shrinks_handler hclosing s')) (.refl s)

/-- What is left in `s` of the blocks of `σ` is as it was, and no new block will get their ids. -/
structure Snapshot (σ s : BlockFuse) : Prop where
  same : ∀ id b b', (σ.manager.map id).join = some b → (s.manager.map id).join = some b' → b' = b
  le_idsUsed : ∀ id b, (σ.manager.map id).join = some b → id.toNat ≤ s.idsUsed

theorem Stores.snapshot {blocks : Multiset Block} (h : Stores s blocks) : Snapshot s s := by
  refine ⟨fun id b b' hb hb' => ?_, fun id b hb => ?_⟩
  · rw [hb] at hb'
    exact (Option.some.inj hb').symm
  · obtain ⟨c, hc, rfl, hsome⟩ := h.holds.exists_of_eq_some (Option.join_eq_some_iff.mp hb)
    exact h.le_idsUsed c hc

namespace Snapshot

variable {σ : BlockFuse}

theorem shrinks (h : Snapshot σ s) (h' : Shrinks s s') : Snapshot σ s' where
  same id b b' hb hb' := h.same id b b' hb (h'.join_map id b' hb')
  le_idsUsed id b hb := (h.le_idsUsed id b hb).trans_eq h'.keeps.idsUsed_eq.symm

/-- A state that has only lost blocks since is found in the one before. -/
theorem of_shrinks {blocks : Multiset Block} (h : Shrinks s σ) (hσ : Stores σ blocks) :
    Snapshot σ s where
  same id b b' hb hb' := by
    rw [h.join_map id b hb] at hb'
    exact (Option.some.inj hb').symm
  le_idsUsed id b hb := (hσ.snapshot.le_idsUsed id b hb).trans_eq h.keeps.idsUsed_eq

/-- A new block gets an id that no block of the snapshot has. -/
theorem map_withCreated (h : Snapshot σ s) (hz : s.manager.idSupplier.next ≠ 0) (data : BlockData)
    {id : BlockId} {b : Block} (hb : (σ.manager.map id).join = some b) :
    (s.withCreated data).manager.map id = s.manager.map id := by
  have hle := h.le_idsUsed id b hb
  refine Function.update_of_ne (fun heq => ?_) ..
  have hlt := (s.withCreated data).idsUsed_lt
  rw [idsUsed_withCreated data hz] at hlt
  rw [heq, UInt64.toNat_ofNat_of_lt' hlt] at hle
  omega

/-- **A call.** -/
theorem handler (h : Snapshot σ s) (call : FsCall) :
    Snapshot σ (BlockFuse.handler k call s).state := by
  obtain hclosing | ⟨data, rfl⟩ | ⟨newRoot, rfl⟩ := isClosing_or call
  · exact h.shrinks (shrinks_handler hclosing s)
  · by_cases hz : s.manager.idSupplier.next = 0
    · rw [handler_createBlock_exhausted data hz]
      exact h
    rw [handler_createBlock data hz, Outcome.state_returned]
    refine ⟨fun id b b' hb hb' => ?_, fun id b hb => ?_⟩
    · rw [h.map_withCreated hz data hb] at hb'
      exact h.same id b b' hb hb'
    · rw [idsUsed_withCreated data hz]
      exact (h.le_idsUsed id b hb).trans (Nat.le_succ _)
  · exact ⟨h.same, h.le_idsUsed⟩

end Snapshot

/-- A block of `σ` is gone in `s`. -/
def Lost (σ s : BlockFuse) : Prop :=
  ∃ id b, (σ.manager.map id).join = some b ∧ (s.manager.map id).join = none

/-- **What is gone stays gone**: its id is not handed out again. -/
theorem Lost.handler {σ : BlockFuse} (h : Lost σ s) (hs : Snapshot σ s) (call : FsCall) :
    Lost σ (BlockFuse.handler k call s).state := by
  obtain ⟨id, b, hb, hnone⟩ := h
  have hshrinks : ∀ s', Shrinks s s' → Lost σ s' := by
    intro s' h
    refine ⟨id, b, hb, Option.eq_none_iff_forall_ne_some.mpr fun b' hb' => ?_⟩
    have hbefore := h.join_map id b' hb'
    rw [hnone] at hbefore
    cases hbefore
  obtain hclosing | ⟨data, rfl⟩ | ⟨newRoot, rfl⟩ := isClosing_or call
  · exact hshrinks _ (shrinks_handler hclosing s)
  · by_cases hz : s.manager.idSupplier.next = 0
    · rw [handler_createBlock_exhausted data hz]
      exact ⟨id, b, hb, hnone⟩
    · rw [handler_createBlock data hz, Outcome.state_returned]
      exact ⟨id, b, hb, by rw [hs.map_withCreated hz data hb, hnone]⟩
  · exact ⟨id, b, hb, hnone⟩

/-! ## A query beside a snapshot -/

/-- A query that goes on with what is left of `σ`, where it gives `result`. -/
abbrev Queries (gone : Prop) (σ : BlockFuse) (result : Except Halt Reply) (p : FsM Reply) : Prop :=
  Program.Follows (FsCall.Fewer gone) (fun e => e = .nullDereference ∧ gone) (handler false) σ
    IsRead result p

/-- Pointers to what is left of the blocks. -/
theorem Snapshot.fewer_getBlocks {σ : BlockFuse} (h : Snapshot σ s) {blocks : Multiset Block}
    (hσ : Stores σ blocks) (hgone : Lost σ s → gone) {ids : List BlockId}
    (hmapped : (σ.manager.getBlocks ids).2 = σ.manager) :
    FsCall.Fewer gone (.getBlocks ids) (s.manager.getBlocks ids).1 (σ.manager.getBlocks ids).1 := by
  rw [FsCall.Fewer, MemoryBlockManager.getBlocks_fst, MemoryBlockManager.getBlocks_fst,
    List.forall₂_map_left_iff, List.forall₂_map_right_iff]
  refine List.forall₂_same.mpr fun id hid => ?_
  have hsome := MemoryBlockManager.isSome_map_getBlocks (m := σ.manager) (Or.inr hid)
  rw [hmapped] at hsome
  obtain ⟨pointer, hpointer⟩ := Option.isSome_iff_exists.mp hsome
  obtain ⟨b, hb, rfl, rfl⟩ := hσ.holds.exists_of_eq_some hpointer
  cases hleft : (s.manager.map b.id).join with
  | none => exact Or.inl ⟨rfl, hgone ⟨b.id, b, by rw [hpointer]; rfl, hleft⟩⟩
  | some b' =>
    refine Or.inr ?_
    rw [hpointer, h.same b.id b b' (by rw [hpointer]; rfl) hleft]
    rfl

/-- The query makes its next call, wherever others have gone on to. -/
theorem Queries.advance {σ : BlockFuse} {blocks : Multiset Block} {result : Except Halt Reply}
    {p : FsM Reply} (hp : Queries gone σ result p) (hσ : Stores σ blocks) (h : Snapshot σ s)
    (hgone : Lost σ s → gone) : Queries gone σ result (p.advance (handler false) s).1 := by
  refine Program.Follows.advance hp fun call r hread hreply => ?_
  obtain rfl | ⟨ids, rfl⟩ := isRead_iff.mp hread
  · exact ⟨_, _, rfl, trivial⟩
  · obtain ⟨hr, hstate⟩ := Outcome.returned.inj hreply
    subst hr
    exact ⟨_, _, rfl, h.fewer_getBlocks hσ hgone (congrArg BlockFuse.manager hstate)⟩

/-- The blocks and the root of one state, with the ids of another one. -/
def withIds (σ s : BlockFuse) : BlockFuse := ⟨⟨s.manager.idSupplier, σ.manager.map⟩, σ.rootBlock⟩

theorem Snapshot.withIds {σ : BlockFuse} (h : Snapshot σ s) : Snapshot (σ.withIds s') s :=
  ⟨h.same, h.le_idsUsed⟩

theorem Snapshot.good_withIds {σ : BlockFuse} (h : Snapshot σ s) (hσ : Good σ t 0) :
    Good (σ.withIds s) t 0 := by
  refine ⟨hσ.rootBlock_eq, hσ.stores.holds, fun b hb => ?_⟩
  refine h.le_idsUsed b.id b ?_
  rw [hσ.stores.holds.get b hb]
  rfl

/-- **A query that has looked at the root** of a snapshot. -/
theorem Good.queries_advance {σ : BlockFuse} (hσ : Good σ t 0) (h : Snapshot σ s)
    (hroot : s.rootBlock = σ.rootBlock) (env : Env) {call : Int64 × Call}
    (hquery : call.2.isQuery = true) :
    Queries gone (σ.withIds s) (exec env false σ call).result
      ((program env s.fuel call.1 call.2).advance (handler false) s).1 := by
  have hgood := h.good_withIds hσ
  have hcalls : (program env s.fuel call.1 call.2).EveryCall (handler false) Mapped
      (σ.withIds s) := hgood.everyCall_of_isQuery readsMeet_mapped env hquery
  have hresult : (exec env false σ call).result = ((program env s.fuel call.1 call.2).run
      (handler false) (σ.withIds s)).result := by
    change _ = (exec env false (σ.withIds s) call).result
    rw [hσ.exec_of_isQuery env storedContents hquery,
      hgood.exec_of_isQuery env storedContents hquery, Outcome.result_of, Outcome.result_of]
  have hsteady := hcalls.steady (only_program _ hquery env call.1) fun q hread hmapped => by
    obtain rfl | ⟨ids, rfl⟩ := isRead_iff.mp hread
    · exact ⟨_, rfl⟩
    · have hkept : ((σ.withIds s).manager.getBlocks ids).2 = (σ.withIds s).manager :=
        MemoryBlockManager.getBlocks_of_isSome hmapped
      exact ⟨_, by rw [handler, hkept]⟩
  rw [← hresult] at hsteady
  obtain ⟨e, hhalt⟩ | ⟨next, hcall, htolerant⟩ :=
    looksOnce_program env s.fuel call.1 hquery
  · rw [hhalt] at hsteady ⊢
    exact ⟨_, Or.inr rfl, hsteady⟩
  · rw [hcall] at hsteady ⊢
    obtain ⟨-, root, hreply, hrest⟩ := hsteady
    obtain rfl : σ.rootBlock = root := (Outcome.returned.inj hreply).1
    rw [Program.advance_of_returned
      (show handler false .getRootBlock s = .returned σ.rootBlock s by rw [handler, hroot])]
    exact ⟨next σ.rootBlock, htolerant σ.rootBlock, hrest⟩

end BlockFuse

end Pingfs
