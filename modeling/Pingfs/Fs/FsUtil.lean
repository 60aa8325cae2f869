import Pingfs.Block.MemoryBlockManager

/-!
# Paths

`separate_path` cuts an absolute path at its separators, `join` puts components back together.
The first component is always the separator itself; the first character of the path is skipped
without being looked at.

Source: `fs_util.cc`.

## Main results

* `separatePath_ok` — every non-empty path is separated, into the root and separator-free names
* `separatePath_pathOf`, `join_components` — a path made of names is separated into these names,
  and its components join to it
* `separatePathByIndex_eq` — the loop over the separators of a path is the split at each of them
* `splits_and_joins` — splitting and joining are inverse
-/

namespace Pingfs

namespace FsUtil

/-- The character `/`. -/
abbrev slash : UInt8 := 0x2f

/-- `FsUtil::get_separator`. -/
def separator : Str := [slash]

/-- `FsUtil::separate_path`. On the empty string `substr(1)` throws. -/
def separatePath (absPath : Str) : Except Halt (List Str) :=
  if absPath = separator then .ok [separator]
  else
    match absPath with
    | [] => .error (.threw "std::out_of_range")
    | _ :: rest => .ok (separator :: rest.splitOn slash)

/-- The loop of `FsUtil::join` and the last component after it. -/
def joinLoop : List Str → Str
  | [] => []
  | [last] => last
  | path :: paths =>
    if path = separator then path ++ joinLoop paths else path ++ separator ++ joinLoop paths

/-- `FsUtil::join`. On no components at all the bound `paths.size() - 1` wraps and the loop reads
past the end. -/
def join (paths : List Str) : Except Halt Str :=
  if paths = [] then .error .outOfBounds else .ok (joinLoop paths)

theorem notMem_of_mem_splitOn {rest part : Str} (h : part ∈ rest.splitOn slash) : slash ∉ part := by
  induction rest generalizing part with
  | nil =>
    obtain rfl : part = [] := by simpa [List.splitOn_nil] using h
    simp
  | cons c rest ih =>
    rw [List.splitOn_cons_eq_if_modifyHead] at h
    split at h
    case isTrue =>
      rcases List.mem_cons.mp h with rfl | h
      · simp
      · exact ih h
    case isFalse hc =>
      obtain ⟨first, others, hsplit⟩ := List.exists_cons_of_ne_nil (List.splitOn_ne_nil slash rest)
      rw [hsplit, List.modifyHead_cons] at h
      rcases List.mem_cons.mp h with rfl | h
      · have hfirst : slash ∉ first := ih (by simp [hsplit])
        have hc' : slash ≠ c := fun heq => hc (beq_iff_eq.mpr heq.symm)
        exact List.not_mem_cons_of_ne_of_not_mem hc' hfirst
      · exact ih (by simp [hsplit, h])

/-- Every path but the empty one is separated: the root first, then names without a separator. -/
theorem separatePath_ok {path : Str} (h : path ≠ []) :
    ∃ names, separatePath path = .ok (separator :: names) ∧ ∀ name ∈ names, slash ∉ name := by
  by_cases hroot : path = separator
  · exact ⟨[], by simp [separatePath, hroot], by simp⟩
  · obtain ⟨c, rest, rfl⟩ := List.exists_cons_of_ne_nil h
    exact ⟨rest.splitOn slash, by simp [separatePath, hroot], fun _ => notMem_of_mem_splitOn⟩

/-! ### Paths made of names -/

/-- The absolute path of a list of names: `/` for none, `/a/b` for two. -/
def pathOf : List Str → Str
  | [] => separator
  | name :: names => separator ++ [slash].intercalate (name :: names)

theorem separatePath_pathOf {names : List Str} (hsep : ∀ name ∈ names, slash ∉ name)
    (hne : ∀ name ∈ names, name ≠ []) : separatePath (pathOf names) = .ok (separator :: names) := by
  cases names with
  | nil => simp [pathOf, separatePath]
  | cons name names =>
    have hroot : pathOf (name :: names) ≠ separator := by
      obtain ⟨c, cs, hname⟩ := List.exists_cons_of_ne_nil (hne name (List.mem_cons_self ..))
      cases names <;> simp [pathOf, separator, hname, List.intercalate, List.intersperse]
    have hpath : pathOf (name :: names) = slash :: [slash].intercalate (name :: names) := rfl
    rw [separatePath.eq_def, if_neg hroot, hpath]
    simp only [List.splitOn_intercalate slash hsep (by simp)]

theorem joinLoop_names {name : Str} {names : List Str} (hsep : ∀ n ∈ name :: names, slash ∉ n) :
    joinLoop (name :: names) = [slash].intercalate (name :: names) := by
  induction names generalizing name with
  | nil => simp [joinLoop, List.intercalate]
  | cons next names ih =>
    have hname : name ≠ separator := by
      rintro rfl
      exact hsep _ (List.mem_cons_self ..) (by simp [separator])
    rw [joinLoop, if_neg hname, ih fun n hn => hsep n (List.mem_cons_of_mem _ hn)]
    · simp [List.intercalate, List.intersperse, separator]
    · simp

/-- The components of a path of names join to the path. -/
theorem join_components {names : List Str} (hsep : ∀ name ∈ names, slash ∉ name) :
    join (separator :: names) = .ok (pathOf names) := by
  cases names with
  | nil => simp [join, joinLoop, pathOf]
  | cons name names =>
    rw [join, if_neg (by simp), joinLoop, if_pos rfl, joinLoop_names hsep]
    · rfl
    · simp

/-! ### The loop over the separators

`separate_path` finds one separator after the other, by its index, and cuts out what is between two
of them. -/

/-- `abs_path.find(get_separator(), from_index)`. `npos` is `none`. -/
def find (absPath : Str) (fromIndex : ℕ) : Option ℕ :=
  ((absPath.drop fromIndex).findIdx? (· == slash)).map (fromIndex + ·)

/-- `std::string::substr`. -/
def substr (s : Str) (pos count : ℕ) : Except Halt Str :=
  if pos > s.length then .error (.threw "std::out_of_range") else .ok ((s.drop pos).take count)

/-- A separator that is found stands between parts of the path. -/
theorem find_eq_some {absPath : Str} {fromIndex index : ℕ}
    (h : find absPath fromIndex = some index) :
    fromIndex ≤ index ∧ index < absPath.length ∧
      slash ∉ (absPath.drop fromIndex).take (index - fromIndex) ∧
        absPath.drop fromIndex = (absPath.drop fromIndex).take (index - fromIndex) ++
          slash :: absPath.drop (index + 1) := by
  obtain ⟨i, hi, rfl⟩ := Option.map_eq_some_iff.mp h
  obtain ⟨hlt, hslash, hbefore⟩ := List.findIdx?_eq_some_iff_getElem.mp hi
  rw [beq_iff_eq] at hslash
  rw [Nat.add_sub_cancel_left]
  refine ⟨Nat.le_add_right .., ?_, ?_, ?_⟩
  · rw [List.length_drop] at hlt
    omega
  · intro hmem
    obtain ⟨j, hj, hget⟩ := List.getElem_of_mem hmem
    rw [List.length_take] at hj
    rw [List.getElem_take] at hget
    exact hbefore j (by omega) (beq_iff_eq.mpr hget)
  · have hrest : absPath.drop (fromIndex + i + 1) = (absPath.drop fromIndex).drop (i + 1) := by
      rw [List.drop_drop, Nat.add_assoc]
    rw [hrest, ← hslash, List.getElem_cons_drop, List.take_append_drop]

/-- The loop of `separate_path` and the suffix after it. -/
def separateLoop (absPath : Str) (fromIndex : ℕ) (splitPath : List Str) : Except Halt (List Str) :=
  match _hfind : find absPath fromIndex with
  | some index => do
    let part ← substr absPath fromIndex (index - fromIndex)
    separateLoop absPath (index + 1) (splitPath ++ [part])
  | none => do
    let suffix ← substr absPath fromIndex absPath.length
    return splitPath ++ [suffix]
termination_by absPath.length - fromIndex
decreasing_by
  obtain ⟨hfrom, hindex, -⟩ := find_eq_some _hfind
  omega

/-- `FsUtil::separate_path` with its indices. -/
def separatePathByIndex (absPath : Str) : Except Halt (List Str) :=
  if absPath = separator then .ok [separator] else separateLoop absPath 1 [separator]

theorem separateLoop_eq (absPath : Str) {fromIndex : ℕ} (hfrom : fromIndex ≤ absPath.length)
    (splitPath : List Str) : separateLoop absPath fromIndex splitPath =
      .ok (splitPath ++ (absPath.drop fromIndex).splitOn slash) := by
  induction fromIndex, splitPath using separateLoop.induct absPath with
  | case1 fromIndex splitPath index hfind ih =>
    obtain ⟨hle, hlt, hpart, hsplit⟩ := find_eq_some hfind
    have hsubstr : substr absPath fromIndex (index - fromIndex) =
        .ok ((absPath.drop fromIndex).take (index - fromIndex)) := if_neg (by omega)
    have hrest := ih ((absPath.drop fromIndex).take (index - fromIndex)) (by omega)
    rw [separateLoop]
    split
    · case h_1 index' hfind' =>
      obtain rfl := Option.some.inj (hfind.symm.trans hfind')
      rw [hsubstr]
      refine hrest.trans ?_
      rw [hsplit, List.splitOn_append_cons_self_of_not_mem hpart, List.append_assoc,
        List.singleton_append, ← hsplit]
    · case h_2 hnone => cases hfind.symm.trans hnone
  | case2 fromIndex splitPath hfind =>
    have hsubstr : substr absPath fromIndex absPath.length = .ok (absPath.drop fromIndex) := by
      rw [substr, if_neg (by omega), List.take_of_length_le (List.drop_sublist ..).length_le]
    have hnone : slash ∉ absPath.drop fromIndex := by
      intro hmem
      have hother := List.findIdx?_eq_none_iff.mp (Option.map_eq_none_iff.mp hfind) slash hmem
      rw [beq_self_eq_true] at hother
      cases hother
    rw [separateLoop]
    split
    · case h_1 index hindex => cases hfind.symm.trans hindex
    · rw [hsubstr, List.splitOn_eq_singleton hnone]
      rfl

/-- **The loop is the split at every separator.** -/
theorem separatePathByIndex_eq (absPath : Str) :
    separatePathByIndex absPath = separatePath absPath := by
  rw [separatePathByIndex, separatePath.eq_def]
  split
  · rfl
  · cases absPath with
    | nil =>
      rw [separateLoop]
      rfl
    | cons c rest => exact separateLoop_eq (c :: rest) (Nat.succ_pos _) [separator]

/-- What is between separators joins again, empty names included. -/
theorem join_splitOn (rest : Str) :
    join (separator :: rest.splitOn slash) = .ok (slash :: rest) := by
  obtain ⟨name, names, hnames⟩ := List.exists_cons_of_ne_nil (List.splitOn_ne_nil slash rest)
  have hpath : pathOf (rest.splitOn slash) = slash :: rest := by
    rw [hnames, pathOf, ← hnames, List.intercalate_splitOn]
    rfl
  rw [join_components fun _ => notMem_of_mem_splitOn, hpath]

/-- **A path splits and joins back**, whatever comes after its first separator; and components that
are the root and names join to a path that splits into them. -/
theorem splits_and_joins :
    (∀ path : Str, path.head? = some slash → ∃ names,
      separatePathByIndex path = .ok (separator :: names) ∧ (∀ name ∈ names, slash ∉ name) ∧
        join (separator :: names) = .ok path) ∧
    ∀ names : List Str, (∀ name ∈ names, name ≠ [] ∧ slash ∉ name) → ∃ path,
      join (separator :: names) = .ok path ∧
        separatePathByIndex path = .ok (separator :: names) := by
  simp only [separatePathByIndex_eq]
  constructor
  · intro path hpath
    obtain ⟨rest, rfl⟩ := List.head?_eq_some_iff.mp hpath
    by_cases hrest : rest = []
    · subst hrest
      exact ⟨[], rfl, List.forall_mem_nil _, rfl⟩
    · have hroot : slash :: rest ≠ separator := by
        intro hsame
        exact hrest (List.cons.inj hsame).2
      refine ⟨rest.splitOn slash, ?_, fun _ => notMem_of_mem_splitOn, join_splitOn rest⟩
      rw [separatePath.eq_def, if_neg hroot]
  · intro names hnames
    have hsep : ∀ name ∈ names, slash ∉ name := fun name hname => (hnames name hname).2
    have hne : ∀ name ∈ names, name ≠ [] := fun name hname => (hnames name hname).1
    exact ⟨_, join_components hsep, separatePath_pathOf hsep hne⟩

/-- The path `/a//b/`, and the names `a` and `b`. -/
theorem splits_and_joins_ab :
    (∃ names, separatePathByIndex [0x2f, 0x61, 0x2f, 0x2f, 0x62, 0x2f] = .ok (separator :: names) ∧
      (∀ name ∈ names, slash ∉ name) ∧
        join (separator :: names) = .ok [0x2f, 0x61, 0x2f, 0x2f, 0x62, 0x2f]) ∧
    ∃ path, join [separator, [0x61], [0x62]] = .ok path ∧
      separatePathByIndex path = .ok [separator, [0x61], [0x62]] :=
  ⟨splits_and_joins.1 _ rfl, splits_and_joins.2 [[0x61], [0x62]] (by decide)⟩

end FsUtil

end Pingfs
