import AutomatisedPipeline.Text.Basic

/-!
The check of a path before it is deleted (`validate_graph_path_safe` of `graph_paths.rs`).

The check reads the last component of the path and compares the raw text with a list of literal
spellings; what is deleted is the entry that the text denotes. A directory has many spellings, and
the check keeps its promise for a path exactly if it is not another spelling of a listed one
(`validateGraphPathSafe_iff`). Where a path has no empty components, no `.` and no `..`, the only
such spelling is `/graph` (`Plain.safe`).
-/

namespace AutomatisedPipeline.QueryHandlers

open Text

/-! ### The check -/

/-- `FORBIDDEN_GRAPH_PATH_PREFIXES`. -/
def forbiddenGraphPathPrefixes : List Str :=
  ["/", "/Users", "/home", "/root", "/tmp", "/var", "/etc", "/usr", "/bin", "/sbin", "/dev",
    "/opt", "/System", "/Library"].map String.toList

/-- The last segment of a graph path. -/
def graphName : Str := "graph".toList

/-- Why a path is not safe. -/
inductive UnsafeGraphPath where
  | notAbsolute
  | notGraph
  | forbidden
deriving DecidableEq, Repr

/-- The text of the error, with the path as `{:?}` writes it. -/
def UnsafeGraphPath.message (shown : Str) : UnsafeGraphPath → Str
  | notAbsolute =>
      "unsafe_graph_path: must be absolute (got ".toList ++ (shown ++ ")".toList)
  | notGraph =>
      "unsafe_graph_path: must end in '/graph' (got ".toList ++ (shown ++ ")".toList)
  | forbidden =>
      "unsafe_graph_path: ".toList ++ (shown ++ " is a forbidden system path".toList)

/-- `Path::is_absolute`. -/
def isAbsolute (path : Str) : Bool := path.head? == some '/'

/-- `Path::file_name`: the last component, if it is a name. -/
def fileName (path : Str) : Option Str :=
  (components path).getLast?.filter fun last => last ≠ ['.', '.']

/-- `validate_graph_path_safe`. -/
def validateGraphPathSafe (path : Str) : Except UnsafeGraphPath Unit :=
  if isAbsolute path = false then .error .notAbsolute
  else if (fileName path).getD [] ≠ graphName then .error .notGraph
  else if ∃ root ∈ forbiddenGraphPathPrefixes, path = root ∨ path = root ++ "/graph".toList then
    .error .forbidden
  else .ok ()

/-! ### What a path denotes -/

/-- The parent of an entry; the root is its own. -/
def enter (dir : List Str) (part : Str) : List Str :=
  if part = ['.', '.'] then dir.dropLast else dir ++ [part]

/-- The names from the root to what an absolute path denotes, after lexical normalisation. -/
def denoted (path : Str) : List Str := (components path).foldl enter []

/-- The names from the root to the directory before the last component. -/
def directory (path : Str) : List Str := (components path).dropLast.foldl enter []

/-- The directories of the list. -/
def forbiddenRoots : List (List Str) := forbiddenGraphPathPrefixes.map denoted

/-- What a deletion may have for its target. -/
structure Safe (path : Str) : Prop where
  isGraph : (denoted path).getLast? = some graphName
  notRoot : denoted path ∉ forbiddenRoots
  notUnder : ∀ root ∈ forbiddenRoots, denoted path ≠ root ++ [graphName]

theorem fileName_eq_some {path name : Str} :
    fileName path = some name ↔
      ∃ front, components path = front ++ [name] ∧ name ≠ ['.', '.'] := by
  rw [fileName, Option.filter_eq_some_iff, List.getLast?_eq_some_iff]
  simp [exists_and_right]

/-- A path that ends in a name denotes that entry of its directory. -/
theorem denoted_eq {path name : Str} (h : fileName path = some name) :
    denoted path = directory path ++ [name] := by
  obtain ⟨front, hparts, hname⟩ := fileName_eq_some.mp h
  rw [denoted, directory, hparts, List.foldl_append, List.dropLast_concat, List.foldl_cons,
    List.foldl_nil, enter, if_neg hname]

theorem fileName_getD {path : Str} :
    (fileName path).getD [] = graphName ↔ fileName path = some graphName := by
  cases h : fileName path with
  | none => decide
  | some name => simp

theorem forbiddenRoots_getLast {root : List Str} (h : root ∈ forbiddenRoots) :
    root.getLast? ≠ some graphName := by
  revert root
  decide

/-- A path is safe if it is an entry `graph` of a directory which is not on the list. -/
theorem safe_iff {path : Str} (h : fileName path = some graphName) :
    Safe path ↔ directory path ∉ forbiddenRoots := by
  have hdenoted := denoted_eq h
  constructor
  · exact fun hsafe hmem => hsafe.notUnder _ hmem hdenoted
  · intro hmem
    refine ⟨by rw [hdenoted, List.getLast?_concat], fun hroot => ?_, fun root hroot heq => ?_⟩
    · exact forbiddenRoots_getLast hroot (by rw [hdenoted, List.getLast?_concat])
    · rw [hdenoted] at heq
      rw [List.append_cancel_right heq] at hmem
      exact hmem hroot

/-! ### The list of spellings -/

/-- The spellings that the check refuses. -/
def forbiddenEntries : List Str :=
  forbiddenGraphPathPrefixes ++ forbiddenGraphPathPrefixes.map (· ++ "/graph".toList)

theorem validateGraphPathSafe_eq_ok {path : Str} (habs : isAbsolute path = true) :
    validateGraphPathSafe path = .ok () ↔
      fileName path = some graphName ∧ path ∉ forbiddenEntries := by
  have hentries : (∃ root ∈ forbiddenGraphPathPrefixes,
      path = root ∨ path = root ++ "/graph".toList) ↔ path ∈ forbiddenEntries := by
    simp only [forbiddenEntries, List.mem_append, List.mem_map]
    grind
  rw [validateGraphPathSafe, if_neg (by simp [habs])]
  by_cases hname : fileName path = some graphName
  · rw [if_neg (not_not.mpr (fileName_getD.mpr hname))]
    by_cases hmem : path ∈ forbiddenEntries
    · rw [if_pos (hentries.mpr hmem)]
      simp [hmem]
    · rw [if_neg (mt hentries.mp hmem)]
      simp [hname, hmem]
  · rw [if_pos (mt fileName_getD.mp hname)]
    simp [hname]

/-! ### Plain spellings -/

/-- Names that are written as they are. -/
def Plain (parts : List Str) : Prop :=
  ∀ part ∈ parts, part ≠ [] ∧ '/' ∉ part ∧ part ≠ ['.'] ∧ part ≠ ['.', '.']

/-- The absolute path of some names. -/
def spell (parts : List Str) : Str := '/' :: ['/'].intercalate parts

theorem Plain.components {parts : List Str} (h : Plain parts) (hne : parts ≠ []) :
    components (spell parts) = parts := by
  have hjoin : spell parts = ['/'].intercalate ([] :: parts) := by
    obtain ⟨part, rest, rfl⟩ := List.exists_cons_of_ne_nil hne
    rfl
  have hsplit : (spell parts).splitOn '/' = [] :: parts := by
    rw [hjoin, List.splitOn_intercalate]
    · exact List.forall_mem_cons.mpr ⟨List.not_mem_nil, fun part hpart => (h part hpart).2.1⟩
    · exact List.cons_ne_nil _ _
  rw [Text.components, hsplit, List.filter_cons_of_neg (by simp), List.filter_eq_self]
  exact fun part hpart => by simpa using ⟨(h part hpart).1, (h part hpart).2.2.1⟩

theorem foldl_enter_of_plain {parts : List Str} (h : Plain parts) (dir : List Str) :
    parts.foldl enter dir = dir ++ parts := by
  induction parts generalizing dir with
  | nil => rw [List.foldl_nil, List.append_nil]
  | cons part parts ih =>
      obtain ⟨hpart, hparts⟩ := List.forall_mem_cons.mp h
      rw [List.foldl_cons, ih hparts, enter, if_neg hpart.2.2.2, ← List.append_cons]

/-- The one plain spelling of each listed entry is on the list, except that of the root. -/
theorem spell_mem_forbiddenEntries {root : List Str} (h : root ∈ forbiddenRoots) (hne : root ≠ []) :
    spell (root ++ [graphName]) ∈ forbiddenEntries := by
  revert root
  decide

/-- An accepted path in its plain spelling is safe, unless it is `/graph`. -/
theorem Plain.safe {parts : List Str} (h : Plain parts) (hroot : parts ≠ [graphName])
    (hok : validateGraphPathSafe (spell parts) = .ok ()) : Safe (spell parts) := by
  obtain ⟨hname, hother⟩ := (validateGraphPathSafe_eq_ok rfl).mp hok
  obtain ⟨front, hparts, -⟩ := fileName_eq_some.mp hname
  have hne : parts ≠ [] := by
    rintro rfl
    exact absurd hname (by decide)
  rw [h.components hne] at hparts
  refine (safe_iff hname).mpr fun hmem => hother ?_
  have hfront : Plain front := fun part hpart => h part (hparts ▸ List.mem_append_left _ hpart)
  rw [directory, h.components hne, hparts, List.dropLast_concat, foldl_enter_of_plain hfront,
    List.nil_append] at hmem
  rw [hparts]
  refine spell_mem_forbiddenEntries hmem fun hnil => hroot ?_
  rw [hparts, hnil, List.nil_append]

/-! ### All spellings -/

/-- An accepted path is safe if and only if it is no other spelling of an entry `graph` of a listed
directory. -/
theorem validateGraphPathSafe_iff (path : Str) (habs : isAbsolute path = true) :
    (validateGraphPathSafe path = .ok () → Safe path) ↔
      (fileName path = some graphName → directory path ∈ forbiddenRoots →
        path ∈ forbiddenEntries) := by
  rw [validateGraphPathSafe_eq_ok habs]
  constructor
  · intro h hname hmem
    by_contra hother
    exact (safe_iff hname).mp (h ⟨hname, hother⟩) hmem
  · rintro h ⟨hname, hother⟩
    exact (safe_iff hname).mpr fun hmem => hother (h hname hmem)

theorem validateGraphPathSafe_iff_data :
    validateGraphPathSafe "/data/./graph".toList = .ok () ∧ Safe "/data/./graph".toList := by
  have hok : validateGraphPathSafe "/data/./graph".toList = .ok () := by decide
  have hother : directory "/data/./graph".toList ∉ forbiddenRoots := by decide
  exact ⟨hok, (validateGraphPathSafe_iff _ (by decide)).mpr (fun _ hmem => absurd hmem hother) hok⟩

/-- `/graph` is an entry of the root, whose listed spelling is `//graph`. -/
theorem not_safe_of_validateGraphPathSafe :
    ¬ ∀ path, isAbsolute path = true → validateGraphPathSafe path = .ok () → Safe path := by
  intro h
  have hsafe := h "/graph".toList (by decide) (by decide)
  exact hsafe.notUnder [] (by decide) (by decide)

end AutomatisedPipeline.QueryHandlers
