import Mathlib.Data.List.Nodup
import Mathlib.Tactic.Common

/-!
# Forests and paths in them

A `Forest` is a list of trees, each with a label and a forest of children. A `Zipper` is a place
in a tree: the tree there, and the frames that lead from it up to the root. Two ways lead back to
a whole tree: `plug` puts everything back where it was, and `graft` rebuilds the path as a
copy-on-write store does, each rebuilt child at the end of its parent's children and each frame
with a new label.

## Main results

* `Zipper.plug_down`, `Zipper.plug_descend` — a place reached from a tree is a place of it
* `Zipper.plug_map`, `Zipper.graft_map`, `Zipper.descend_map` — relabelling commutes with all of
  these
-/

/-- A list of trees with labels in `α`: the first tree's label and children, and the rest. -/
inductive Forest (α : Type) where
  | nil
  | cons (a : α) (kids rest : Forest α)
  deriving DecidableEq, Repr

namespace Forest

variable {α β κ : Type}

/-- The trees of one forest, then those of another. -/
def append : Forest α → Forest α → Forest α
  | nil, g => g
  | cons a kids rest, g => cons a kids (rest.append g)

instance : Append (Forest α) := ⟨append⟩

/-- A single tree. -/
abbrev tree (a : α) (kids : Forest α) : Forest α := cons a kids nil

/-- The labels of the roots. -/
def roots : Forest α → List α
  | nil => []
  | cons a _ rest => a :: rest.roots

/-- The labels of all nodes, children after their parent. -/
def labels : Forest α → List α
  | nil => []
  | cons a kids rest => a :: (kids.labels ++ rest.labels)

def map (f : α → β) : Forest α → Forest β
  | nil => nil
  | cons a kids rest => cons (f a) (kids.map f) (rest.map f)

@[simp] theorem nil_append (g : Forest α) : nil ++ g = g := rfl

@[simp] theorem cons_append (a : α) (kids rest g : Forest α) :
    cons a kids rest ++ g = cons a kids (rest ++ g) := rfl

@[simp] theorem append_nil (f : Forest α) : f ++ nil = f := by
  induction f with
  | nil => rfl
  | cons a kids rest _ ih => rw [cons_append, ih]

theorem append_assoc (f g h : Forest α) : f ++ g ++ h = f ++ (g ++ h) := by
  induction f with
  | nil => rfl
  | cons a kids rest _ ih => simp only [cons_append, ih]

@[simp] theorem roots_nil : (nil : Forest α).roots = [] := rfl

@[simp] theorem roots_cons (a : α) (kids rest : Forest α) :
    (cons a kids rest).roots = a :: rest.roots := rfl

@[simp] theorem roots_append (f g : Forest α) : (f ++ g).roots = f.roots ++ g.roots := by
  induction f with
  | nil => rfl
  | cons a kids rest _ ih => simp [ih]

theorem roots_eq_nil {f : Forest α} (h : f.roots = []) : f = nil := by
  cases f with
  | nil => rfl
  | cons a kids rest => exact nomatch h

@[simp] theorem labels_nil : (nil : Forest α).labels = [] := rfl

@[simp] theorem labels_cons (a : α) (kids rest : Forest α) :
    (cons a kids rest).labels = a :: (kids.labels ++ rest.labels) := rfl

@[simp] theorem labels_append (f g : Forest α) : (f ++ g).labels = f.labels ++ g.labels := by
  induction f with
  | nil => rfl
  | cons a kids rest _ ih => simp [ih]

@[simp] theorem map_nil (f : α → β) : nil.map f = nil := rfl

@[simp] theorem map_cons (f : α → β) (a : α) (kids rest : Forest α) :
    (cons a kids rest).map f = cons (f a) (kids.map f) (rest.map f) := rfl

@[simp] theorem map_append (f : α → β) (g h : Forest α) : (g ++ h).map f = g.map f ++ h.map f := by
  induction g with
  | nil => rfl
  | cons a kids rest _ ih => simp [ih]

theorem map_eq_nil {f : α → β} {g : Forest α} (h : g.map f = nil) : g = nil := by
  cases g with
  | nil => rfl
  | cons a kids rest => cases h

/-- What maps to a single node is one. -/
theorem map_eq_tree {f : α → β} {g : Forest α} {b : β} (h : g.map f = tree b nil) :
    ∃ a, g = tree a nil ∧ f a = b := by
  cases g with
  | nil => cases h
  | cons a kids rest =>
    injection h with hlabel hkids hrest
    exact ⟨a, by rw [map_eq_nil hkids, map_eq_nil hrest], hlabel⟩

@[simp] theorem roots_map (f : α → β) (g : Forest α) : (g.map f).roots = g.roots.map f := by
  induction g with
  | nil => rfl
  | cons a kids rest _ ih => simp [ih]

end Forest

/-- A node on the way to a place: its label, and the children before and after the one the way
goes on to. -/
structure Frame (α : Type) where
  label : α
  before : Forest α
  after : Forest α

/-- A place in a tree: the tree there, and the way up, the parent first. -/
structure Zipper (α : Type) where
  label : α
  kids : Forest α
  frames : List (Frame α)

namespace Zipper

open Forest

variable {α β κ : Type}

/-- The place at the root of a tree. -/
def top (a : α) (kids : Forest α) : Zipper α := ⟨a, kids, []⟩

/-! ## Going down -/

/-- The first tree of a forest whose label has the key `k`, between the trees before and after. -/
def splitAt [DecidableEq κ] (key : α → κ) (k : κ) :
    Forest α → Option (Forest α × α × Forest α × Forest α)
  | nil => none
  | cons a kids rest =>
    if key a = k then some (nil, a, kids, rest)
    else (splitAt key k rest).map fun (before, b, bkids, after) =>
      (cons a kids before, b, bkids, after)

/-- To the first child with the key `k`. -/
def down [DecidableEq κ] (key : α → κ) (z : Zipper α) (k : κ) : Option (Zipper α) :=
  (splitAt key k z.kids).map fun (before, b, bkids, after) =>
    ⟨b, bkids, ⟨z.label, before, after⟩ :: z.frames⟩

/-- Down a list of keys. -/
def descend [DecidableEq κ] (key : α → κ) (z : Zipper α) (ks : List κ) : Option (Zipper α) :=
  ks.foldlM (down key) z

section

variable [DecidableEq κ] {key : α → κ} {k : κ}

theorem splitAt_eq_some {f before bkids after : Forest α} {b : α}
    (h : splitAt key k f = some (before, b, bkids, after)) :
    f = before ++ cons b bkids after ∧ key b = k ∧ ∀ a ∈ before.roots, key a ≠ k := by
  induction f generalizing before with
  | nil => simp [splitAt] at h
  | cons a kids rest _ ih =>
    by_cases hk : key a = k
    · simp only [splitAt, hk, if_true, Option.some.injEq, Prod.mk.injEq] at h
      obtain ⟨rfl, rfl, rfl, rfl⟩ := h
      simp [hk]
    · simp only [splitAt, hk, if_false, Option.map_eq_some_iff, Prod.mk.injEq] at h
      obtain ⟨⟨before', b', bkids', after'⟩, hsplit, rfl, rfl, rfl, rfl⟩ := h
      obtain ⟨rfl, hb, hbefore⟩ := ih hsplit
      refine ⟨rfl, hb, fun c hc => ?_⟩
      rcases List.mem_cons.mp hc with rfl | hc
      · exact hk
      · exact hbefore c hc

theorem splitAt_eq_none {f : Forest α} :
    splitAt key k f = none ↔ ∀ a ∈ f.roots, key a ≠ k := by
  induction f with
  | nil => simp [splitAt]
  | cons a kids rest _ ih =>
    by_cases hk : key a = k
    · simp [splitAt, hk]
    · simp [splitAt, hk, ih]

theorem splitAt_map {f : α → β} {keyβ : β → κ} (hkey : ∀ a, keyβ (f a) = key a) (g : Forest α) :
    splitAt keyβ k (g.map f) = (splitAt key k g).map fun (before, b, bkids, after) =>
      (before.map f, f b, bkids.map f, after.map f) := by
  induction g with
  | nil => rfl
  | cons a kids rest _ ih =>
    by_cases hk : key a = k
    · simp [splitAt, hkey, hk]
    · simp only [Forest.map_cons, splitAt, hkey, hk, if_false, ih]
      cases splitAt key k rest <;> simp

@[simp] theorem descend_nil (z : Zipper α) : descend key z [] = some z := rfl

@[simp] theorem descend_cons (z : Zipper α) (k : κ) (ks : List κ) :
    descend key z (k :: ks) = (down key z k).bind fun z => descend key z ks := rfl

theorem descend_append (z : Zipper α) (ks ls : List κ) :
    descend key z (ks ++ ls) = (descend key z ks).bind fun z => descend key z ls :=
  List.foldlM_append

/-- A place reached downwards has the key it was looked up by. -/
theorem key_down {z y : Zipper α} (h : down key z k = some y) : key y.label = k := by
  simp only [down, Option.map_eq_some_iff] at h
  obtain ⟨⟨before, b, bkids, after⟩, hsplit, rfl⟩ := h
  exact (splitAt_eq_some hsplit).2.1

end

/-! ## Going back up -/

/-- The whole tree, everything in its place: its root and the children of the root. -/
def plug : List (Frame α) → α → Forest α → α × Forest α
  | [], a, kids => (a, kids)
  | f :: fs, a, kids => plug fs f.label (f.before ++ cons a kids f.after)

/-- The whole tree with the path rebuilt: the `i`-th frame up has the label `relabel i`, and its
child on the path comes last. -/
def graft (relabel : ℕ → α → α) : List (Frame α) → α → Forest α → ℕ → α × Forest α
  | [], a, kids, _ => (a, kids)
  | f :: fs, a, kids, i =>
    graft relabel fs (relabel i f.label) (f.before ++ f.after ++ tree a kids) (i + 1)

theorem plug_down [DecidableEq κ] {key : α → κ} {z y : Zipper α} {k : κ}
    (h : down key z k = some y) : plug y.frames y.label y.kids = plug z.frames z.label z.kids := by
  simp only [down, Option.map_eq_some_iff] at h
  obtain ⟨⟨before, b, bkids, after⟩, hsplit, rfl⟩ := h
  rw [plug, ← (splitAt_eq_some hsplit).1]

/-- **A place reached from the root is a place in the tree.** -/
theorem plug_descend [DecidableEq κ] {key : α → κ} {z y : Zipper α} {ks : List κ}
    (h : descend key z ks = some y) :
    plug y.frames y.label y.kids = plug z.frames z.label z.kids := by
  induction ks generalizing z with
  | nil =>
    obtain rfl : z = y := by simpa using h
    rfl
  | cons k ks ih =>
    obtain ⟨x, hx, hy⟩ := Option.bind_eq_some_iff.mp h
    rw [ih hy, plug_down hx]

/-! ## Relabelling -/

def mapFrame (f : α → β) (fr : Frame α) : Frame β :=
  ⟨f fr.label, fr.before.map f, fr.after.map f⟩

def map (f : α → β) (z : Zipper α) : Zipper β :=
  ⟨f z.label, z.kids.map f, z.frames.map (mapFrame f)⟩

theorem plug_map (f : α → β) (fs : List (Frame α)) (a : α) (kids : Forest α) :
    plug (fs.map (mapFrame f)) (f a) (kids.map f) =
      ((f (plug fs a kids).1), (plug fs a kids).2.map f) := by
  induction fs generalizing a kids with
  | nil => rfl
  | cons fr fs ih =>
    rw [List.map_cons, plug, plug, ← ih]
    simp [mapFrame]

theorem graft_map {f : α → β} {relabel : ℕ → α → α} {relabel' : ℕ → β → β}
    (h : ∀ i a, f (relabel i a) = relabel' i (f a)) (fs : List (Frame α)) (a : α)
    (kids : Forest α) (i : ℕ) :
    graft relabel' (fs.map (mapFrame f)) (f a) (kids.map f) i =
      ((f (graft relabel fs a kids i).1), (graft relabel fs a kids i).2.map f) := by
  induction fs generalizing a kids i with
  | nil => rfl
  | cons fr fs ih =>
    rw [List.map_cons, graft, graft, ← ih, h]
    simp [mapFrame]

/-- Without relabelling it does not matter how the frames are numbered. -/
theorem graft_id (fs : List (Frame α)) (a : α) (kids : Forest α) (i j : ℕ) :
    graft (fun _ b => b) fs a kids i = graft (fun _ b => b) fs a kids j := by
  induction fs generalizing a kids i j with
  | nil => rfl
  | cons fr fs ih => exact ih _ _ _ _

theorem down_map [DecidableEq κ] {key : α → κ} {keyβ : β → κ} {f : α → β}
    (hkey : ∀ a, keyβ (f a) = key a) (z : Zipper α) (k : κ) :
    down keyβ (z.map f) k = (down key z k).map (map f) := by
  simp only [down, map, splitAt_map hkey, Option.map_map, Function.comp_def, List.map_cons,
    mapFrame]

theorem descend_map [DecidableEq κ] {key : α → κ} {keyβ : β → κ} {f : α → β}
    (hkey : ∀ a, keyβ (f a) = key a) (z : Zipper α) (ks : List κ) :
    descend keyβ (z.map f) ks = (descend key z ks).map (map f) := by
  induction ks generalizing z with
  | nil => rfl
  | cons k ks ih =>
    rw [descend_cons, descend_cons, down_map hkey]
    cases down key z k with
    | none => rfl
    | some y => simpa using ih y

end Zipper
