import Pingfs.Lib.Forest

/-!
# Looking up keys in a tree

`lookup` follows a list of keys from the root. Seen this way a tree is a partial map from lists of
keys to labels, and where siblings have distinct keys a rebuilt path shows nothing but the change
at its end.

## Main results

* `lookup_graft` — what is found in a tree with a rebuilt path
* `lookup_insert`, `lookup_remove`, `lookup_replace` — what a new, a removed or a relabelled node
  changes
* `every_graft` — what holds at every node, of its label and the keys of its children in any
  order, holds after the path was rebuilt
-/

namespace Forest

variable {α κ : Type}

/-- `P` holds at every node, of its label and the keys of its children. -/
def Every (P : α → List κ → Prop) (key : α → κ) : Forest α → Prop
  | nil => True
  | cons a kids rest => P a (kids.roots.map key) ∧ Every P key kids ∧ Every P key rest

section

variable {P : α → List κ → Prop} {key : α → κ}

@[simp] theorem every_nil : Every P key nil := trivial

@[simp] theorem every_cons {a : α} {kids rest : Forest α} :
    Every P key (cons a kids rest) ↔
      P a (kids.roots.map key) ∧ Every P key kids ∧ Every P key rest := Iff.rfl

@[simp] theorem every_append {f g : Forest α} :
    Every P key (f ++ g) ↔ Every P key f ∧ Every P key g := by
  induction f with
  | nil => simp
  | cons a kids rest _ ih => simp [ih, and_assoc]

end

/-- The first child with the key `k`, and its children. -/
def child [DecidableEq κ] (key : α → κ) (k : κ) : Forest α → Option (α × Forest α)
  | nil => none
  | cons a kids rest => if key a = k then some (a, kids) else child key k rest

/-- The label that a list of keys leads to, from the root `a`. -/
def lookup [DecidableEq κ] (key : α → κ) : α → Forest α → List κ → Option α
  | a, _, [] => some a
  | _, kids, k :: ks => (child key k kids).bind fun (b, bkids) => lookup key b bkids ks

variable [DecidableEq κ] {key : α → κ} {k : κ}

@[simp] theorem lookup_nil (a : α) (kids : Forest α) : lookup key a kids [] = some a := by
  rw [lookup]

@[simp] theorem lookup_cons (a : α) (kids : Forest α) (k : κ) (ks : List κ) :
    lookup key a kids (k :: ks) =
      (child key k kids).bind fun (b, bkids) => lookup key b bkids ks := by
  rw [lookup]

theorem child_append (f g : Forest α) :
    child key k (f ++ g) = (child key k f).or (child key k g) := by
  induction f with
  | nil => rfl
  | cons a kids rest _ ih =>
    by_cases hk : key a = k
    · simp [child, hk]
    · simp [child, hk, ih]

theorem child_eq_none {f : Forest α} : child key k f = none ↔ k ∉ f.roots.map key := by
  induction f with
  | nil => simp [child]
  | cons a kids rest _ ih =>
    by_cases hk : key a = k
    · simp [child, hk]
    · simp [child, hk, ih, Ne.symm hk]

end Forest

namespace Zipper

open Forest

variable {α κ : Type} [DecidableEq κ] {key : α → κ}

/-! ## Places and lookups -/

theorem child_eq_splitAt (k : κ) (f : Forest α) :
    child key k f = (splitAt key k f).map fun (_, b, bkids, _) => (b, bkids) := by
  induction f with
  | nil => rfl
  | cons a kids rest _ ih =>
    by_cases hk : key a = k
    · simp [child, splitAt, hk]
    · simp only [child, splitAt, hk, if_false, ih, Option.map_map, Function.comp_def]

/-- A lookup goes through the places on its way. -/
theorem lookup_append (z : Zipper α) (ks ls : List κ) :
    lookup key z.label z.kids (ks ++ ls) =
      (descend key z ks).bind fun y => lookup key y.label y.kids ls := by
  induction ks generalizing z with
  | nil => rfl
  | cons k ks ih =>
    rw [List.cons_append, lookup_cons, child_eq_splitAt, descend_cons, down]
    cases splitAt key k z.kids with
    | none => rfl
    | some found =>
      obtain ⟨before, b, bkids, after⟩ := found
      exact ih ⟨b, bkids, ⟨z.label, before, after⟩ :: z.frames⟩

/-- A lookup gives the label of the place that a descent leads to. -/
theorem lookup_eq_descend (z : Zipper α) (ks : List κ) :
    lookup key z.label z.kids ks = (descend key z ks).map (·.label) := by
  have happend : lookup key z.label z.kids (ks ++ []) = _ := lookup_append z ks []
  rw [List.append_nil] at happend
  rw [happend]
  cases descend key z ks <;> rfl

/-- The keys on the way from the root to a node. -/
def pathKeys (key : α → κ) : List (Frame α) → α → List κ
  | [], _ => []
  | f :: fs, a => pathKeys key fs f.label ++ [key a]

omit [DecidableEq κ] in
theorem length_pathKeys (fs : List (Frame α)) (a : α) : (pathKeys key fs a).length = fs.length := by
  induction fs generalizing a with
  | nil => rfl
  | cons f fs ih => rw [pathKeys, List.length_append, ih, List.length_singleton, List.length_cons]

/-- A descent from the root leaves its keys on the way. -/
theorem pathKeys_descend {z y : Zipper α} {ks : List κ} (h : descend key z ks = some y) :
    pathKeys key y.frames y.label = pathKeys key z.frames z.label ++ ks := by
  induction ks generalizing z with
  | nil =>
    obtain rfl : z = y := by simpa using h
    rw [List.append_nil]
  | cons k ks ih =>
    obtain ⟨x, hx, hy⟩ := Option.bind_eq_some_iff.mp h
    rw [ih hy, ← key_down hx]
    simp only [down, Option.map_eq_some_iff] at hx
    obtain ⟨⟨before, b, bkids, after⟩, -, rfl⟩ := hx
    rw [pathKeys, List.append_assoc, List.singleton_append]

/-! ## Rebuilt paths -/

omit [DecidableEq κ] in
/-- On the way to a node no sibling has the key of the node that is passed. -/
def Apart (key : α → κ) : List (Frame α) → α → Prop
  | [], _ => True
  | f :: fs, a => key a ∉ f.before.roots.map key ∧ key a ∉ f.after.roots.map key ∧
      Apart key fs f.label

/-- The keys of a place lead to it. -/
theorem lookup_plug {fs : List (Frame α)} {a : α} (h : Apart key fs a) (kids : Forest α)
    (ks : List κ) :
    lookup key (plug fs a kids).1 (plug fs a kids).2 (pathKeys key fs a ++ ks) =
      lookup key a kids ks := by
  induction fs generalizing a kids ks with
  | nil => rfl
  | cons f fs ih =>
    obtain ⟨hbefore, -, hup⟩ := h
    rw [plug, pathKeys, List.append_assoc, List.singleton_append, ih hup, lookup_cons, child_append,
      child_eq_none.mpr hbefore]
    simp [child]

/-- **What is found after a path was rebuilt** over a new node with the old one's key: below the
place the new tree, and elsewhere what was there before. -/
theorem lookup_graft {fs : List (Frame α)} {a a' : α} (hkey : key a' = key a)
    (h : Apart key fs a) (kids kids' : Forest α) (i : ℕ) (ks : List κ) :
    lookup key (graft (fun _ b => b) fs a' kids' i).1 (graft (fun _ b => b) fs a' kids' i).2 ks =
      if pathKeys key fs a <+: ks then lookup key a' kids' (ks.drop (pathKeys key fs a).length)
      else lookup key (plug fs a kids).1 (plug fs a kids).2 ks := by
  induction fs generalizing a a' kids kids' i ks with
  | nil => simp [graft, pathKeys]
  | cons f fs ih =>
    obtain ⟨hbefore, hafter, hup⟩ := h
    rw [graft, plug, ih rfl hup (f.before ++ cons a kids f.after), pathKeys]
    by_cases hprefix : pathKeys key fs f.label <+: ks
    case neg =>
      have hlonger : ¬ pathKeys key fs f.label ++ [key a] <+: ks := fun hlong =>
        hprefix ((List.prefix_append _ _).trans hlong)
      rw [if_neg hprefix, if_neg hlonger]
    case pos =>
      obtain ⟨ms, rfl⟩ := hprefix
      rw [if_pos (List.prefix_append _ _), lookup_plug hup, List.drop_left]
      simp only [List.prefix_append_right_inj]
      cases ms with
      | nil => simp
      | cons m ms =>
        by_cases hm : key a = m
        · subst hm
          have hdrop : (pathKeys key fs f.label ++ key a :: ms).drop
              (pathKeys key fs f.label ++ [key a]).length = ms := by
            rw [List.append_cons _ (key a) ms, List.drop_left]
          rw [if_pos (by simp), hdrop, lookup_cons, child_append, child_append,
            child_eq_none.mpr hbefore, child_eq_none.mpr hafter]
          simp [child, hkey]
        · rw [if_neg (by simpa using hm), lookup_cons, lookup_cons, child_append, child_append,
            child_append]
          simp [child, hkey, hm]

/-- A new last child is found under its key, and nothing else changes. -/
theorem lookup_insert {fs : List (Frame α)} {a : α} (h : Apart key fs a) {kids : Forest α} {b : α}
    (hb : key b ∉ kids.roots.map key) (i : ℕ) (ks : List κ) :
    lookup key (graft (fun _ c => c) fs a (kids ++ tree b nil) i).1
        (graft (fun _ c => c) fs a (kids ++ tree b nil) i).2 ks =
      if ks = pathKeys key fs a ++ [key b] then some b
      else lookup key (plug fs a kids).1 (plug fs a kids).2 ks := by
  rw [lookup_graft rfl h kids]
  by_cases hprefix : pathKeys key fs a <+: ks
  case neg =>
    have hne : ks ≠ pathKeys key fs a ++ [key b] := by
      rintro rfl
      exact hprefix (List.prefix_append _ _)
    rw [if_neg hprefix, if_neg hne]
  case pos =>
    obtain ⟨ms, rfl⟩ := hprefix
    rw [if_pos (List.prefix_append _ _), lookup_plug h, List.drop_left]
    simp only [List.append_cancel_left_eq]
    cases ms with
    | nil => simp
    | cons m ms =>
      rw [lookup_cons, lookup_cons, child_append]
      by_cases hm : key b = m
      · subst hm
        rw [child_eq_none.mpr hb]
        cases ms <;> simp [child]
      · simp [child, hm, Ne.symm hm]

/-- A removed child is not found any more, nor is anything below it. -/
theorem lookup_remove {f : Frame α} {fs : List (Frame α)} {a : α} (h : Apart key (f :: fs) a)
    (kids : Forest α) (i : ℕ) (ks : List κ) :
    lookup key (graft (fun _ c => c) fs f.label (f.before ++ f.after) i).1
        (graft (fun _ c => c) fs f.label (f.before ++ f.after) i).2 ks =
      if pathKeys key (f :: fs) a <+: ks then none
      else lookup key (plug (f :: fs) a kids).1 (plug (f :: fs) a kids).2 ks := by
  obtain ⟨hbefore, hafter, hup⟩ := h
  rw [plug, lookup_graft rfl hup (f.before ++ cons a kids f.after), pathKeys]
  by_cases hprefix : pathKeys key fs f.label <+: ks
  case neg =>
    have hlonger : ¬ pathKeys key fs f.label ++ [key a] <+: ks := fun hlong =>
      hprefix ((List.prefix_append _ _).trans hlong)
    rw [if_neg hprefix, if_neg hlonger]
  case pos =>
    obtain ⟨ms, rfl⟩ := hprefix
    rw [if_pos (List.prefix_append _ _), lookup_plug hup, List.drop_left]
    simp only [List.prefix_append_right_inj]
    cases ms with
    | nil => simp
    | cons m ms =>
      rw [lookup_cons, lookup_cons, child_append, child_append]
      by_cases hm : key a = m
      · subst hm
        rw [child_eq_none.mpr hbefore, child_eq_none.mpr hafter]
        simp
      · simp [child, hm]

/-- A leaf with a new label is found under its key, and nothing else changes. -/
theorem lookup_replace {fs : List (Frame α)} {a a' : α} (hkey : key a' = key a)
    (h : Apart key fs a) (i : ℕ) (ks : List κ) :
    lookup key (graft (fun _ c => c) fs a' nil i).1 (graft (fun _ c => c) fs a' nil i).2 ks =
      if ks = pathKeys key fs a then some a'
      else lookup key (plug fs a nil).1 (plug fs a nil).2 ks := by
  rw [lookup_graft hkey h nil]
  by_cases hprefix : pathKeys key fs a <+: ks
  case neg =>
    have hne : ks ≠ pathKeys key fs a := by
      rintro rfl
      exact hprefix (List.prefix_refl _)
    rw [if_neg hprefix, if_neg hne]
  case pos =>
    obtain ⟨ms, rfl⟩ := hprefix
    rw [if_pos (List.prefix_append _ _), lookup_plug h, List.drop_left]
    cases ms <;> simp [child]

/-! ## What holds at every node -/

omit [DecidableEq κ]

variable {P : α → List κ → Prop}

/-- What holds at every node of a whole tree holds at every node below a place. -/
theorem every_of_plug {fs : List (Frame α)} {a : α} {kids : Forest α}
    (h : Every P key (tree (plug fs a kids).1 (plug fs a kids).2)) : Every P key (tree a kids) := by
  induction fs generalizing a kids with
  | nil => exact h
  | cons f fs ih =>
    have hup := ih h
    simp only [every_cons, every_append, every_nil, and_true] at hup ⊢
    exact ⟨hup.2.2.1, hup.2.2.2.1⟩

/-- Where siblings have distinct keys, they are distinct on every way. -/
theorem apart_of_every (hP : ∀ a ks, P a ks → ks.Nodup) {fs : List (Frame α)} {a : α}
    {kids : Forest α} (h : Every P key (tree (plug fs a kids).1 (plug fs a kids).2)) :
    Apart key fs a := by
  induction fs generalizing a kids with
  | nil => trivial
  | cons f fs ih =>
    have hframe : Every P key (tree f.label (f.before ++ .cons a kids f.after)) := every_of_plug h
    have hnodup := hP _ _ hframe.1
    rw [roots_append, List.map_append, roots_cons, List.map_cons] at hnodup
    refine ⟨fun hmem => ?_, ?_, ih h⟩
    · exact List.disjoint_of_nodup_append hnodup hmem (List.mem_cons_self ..)
    · exact (List.nodup_cons.mp (List.Nodup.of_append_right hnodup)).1

/-- **A rebuilt path keeps what holds at every node**, if the order of children does not matter. -/
theorem every_graft (hperm : ∀ a ks ls, ks.Perm ls → P a ks → P a ls) {fs : List (Frame α)}
    {a a' : α} {kids kids' : Forest α}
    (h : Every P key (tree (plug fs a kids).1 (plug fs a kids).2)) (hkey : key a' = key a)
    (h' : Every P key (tree a' kids')) (i : ℕ) :
    Every P key (tree (graft (fun _ b => b) fs a' kids' i).1
      (graft (fun _ b => b) fs a' kids' i).2) := by
  induction fs generalizing a a' kids kids' i with
  | nil => exact h'
  | cons f fs ih =>
    have hframe : Every P key (tree f.label (f.before ++ .cons a kids f.after)) := every_of_plug h
    simp only [every_cons, every_append, every_nil, and_true] at hframe h'
    refine ih h rfl ?_ (i + 1)
    simp only [every_cons, every_append, every_nil, and_true]
    refine ⟨hperm _ _ _ ?_ hframe.1, ⟨hframe.2.1, hframe.2.2.2.2⟩, h'⟩
    -- the child on the path goes to the end
    simp only [roots_append, roots_cons, roots_nil, List.map_append, List.map_cons, List.map_nil,
      hkey, List.append_assoc]
    exact List.Perm.append_left _ (List.perm_append_singleton _ _).symm

end Zipper
