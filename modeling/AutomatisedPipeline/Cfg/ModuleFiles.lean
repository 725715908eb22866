import AutomatisedPipeline.Cfg.Compiles
import AutomatisedPipeline.Indexer.Specifiers
import AutomatisedPipeline.Logic.FirstMatch

/-!
The file that a `mod name;` names.

A `Declaration` is the item as it stands in a file: the code reads it with `r#` in front of a raw
name, with a `path` literal as the text between its quotes, and with the last of several literals.
The compiler looks beside the file that it has loaded (`Place.find`), for the name and the string of
the first literal. `follows_iff` says for which declarations of which loaded files both find the
same among any Rust files.
-/

namespace AutomatisedPipeline.Cfg

open Text
open Indexer (trimMatches)

/-! ### Paths -/

/-- Some first part of the path has more `..` than names. -/
def Climbs (path : Path) : Prop :=
  ∃ before, before <+: path ∧ before.length < 2 * before.count ['.', '.']

/-- What lies above so many directories is where some first part leaves all of them. -/
theorem lexical_eq_none (out path : Path) :
    lexical out path = none ↔
      ∃ before, before <+: path ∧ out.length + before.length < 2 * before.count ['.', '.'] := by
  induction path generalizing out with
  | nil =>
      refine iff_of_false (by simp [lexical]) ?_
      rintro ⟨before, hbefore, hlt⟩
      rw [List.prefix_nil.mp hbefore] at hlt
      exact absurd hlt (Nat.not_lt_zero _)
  | cons c path ih =>
      have hcons : (∃ before, before <+: c :: path ∧
            out.length + before.length < 2 * before.count ['.', '.']) ↔
          ∃ before, before <+: path ∧
            out.length + (before.length + 1) < 2 * (c :: before).count ['.', '.'] := by
        constructor
        · rintro ⟨before, hbefore, hlt⟩
          cases before with
          | nil => exact absurd hlt (Nat.not_lt_zero _)
          | cons b before =>
              obtain ⟨rfl, hrest⟩ := List.cons_prefix_cons.mp hbefore
              exact ⟨before, hrest, hlt⟩
        · rintro ⟨before, hbefore, hlt⟩
          exact ⟨c :: before, List.cons_prefix_cons.mpr ⟨rfl, hbefore⟩, hlt⟩
      rw [hcons, lexical]
      split
      · rename_i hc
        subst hc
        simp only [List.count_cons_self]
        split
        · rename_i hout
          subst hout
          exact iff_of_true rfl ⟨[], List.nil_prefix, by simp⟩
        · rename_i hout
          have hpos : 0 < out.length := List.length_pos_iff.mpr hout
          rw [ih, List.length_dropLast]
          refine exists_congr fun before => and_congr_right fun _ => ?_
          omega
      · rename_i hc
        rw [ih, List.length_append, List.length_singleton]
        refine exists_congr fun before => and_congr_right fun _ => ?_
        rw [List.count_cons_of_ne hc]
        omega

/-- A path that climbs above the root names nothing, and any other names something. -/
theorem lexical_eq_none_iff (path : Path) : lexical [] path = none ↔ Climbs path := by
  rw [lexical_eq_none, Climbs]
  simp only [List.length_nil, Nat.zero_add]

/-! ### Declarations in a file -/

/-- A string literal: how it is written, and the string. -/
structure Literal where
  text : Str
  value : Str

/-- The literal of a string without quotes and escapes. -/
def Literal.plain (s : Str) : Literal := ⟨'"' :: (s ++ ['"']), s⟩

/-- An attribute as it stands in a file. -/
inductive SourceAttribute where
  | path (value : Literal)
  | attr (a : Attribute)

/-- What `record_attribute` takes an attribute for. -/
def SourceAttribute.read : SourceAttribute → Attribute
  | .path value => .path (trimMatches (· == '"') value.text)
  | .attr a => a

/-- What an attribute is for the compiler. -/
def SourceAttribute.meant : SourceAttribute → Attribute
  | .path value => .path value.value
  | .attr a => a

/-- A `mod name;` or `mod r#name;` as it stands in a file. -/
structure Declaration where
  name : Str
  raw : Bool
  attributes : List SourceAttribute
  isName : name ≠ [] ∧ '/' ∉ name ∧ '.' ∉ name

namespace Declaration

variable (d : Declaration)

/-- The text of the name. -/
def nameText : Str := if d.raw then 'r' :: '#' :: d.name else d.name

/-- `mod_decl` of the item. -/
def modDecl : ModDecl := Cfg.modDecl d.nameText (d.attributes.map SourceAttribute.read)

/-- The paths that the `path` attributes have for the code. -/
def readPaths : List Str := (d.attributes.map SourceAttribute.read).flatMap Attribute.written

/-- The paths of the `path` attributes. -/
def meantPaths : List Str := (d.attributes.map SourceAttribute.meant).flatMap Attribute.written

/-- The paths under which the item may name its file: those of its `cfg_attr`s, and for when none
of them applies its first `path` attribute, if it has one. -/
def paths : List (Option Str) :=
  d.modDecl.altPaths.map (fun alt => some alt.path) ++ [d.meantPaths.head?]

/-- The declaration as it is when no `cfg_attr` applies. -/
def fallback : ModDecl := { d.modDecl with cfg := d.modDecl.fallbackCfg, altPaths := [] }

theorem fallback_name : d.fallback.name = d.nameText := name_modDecl _ _

theorem fallback_pathAttr : d.fallback.pathAttr = d.readPaths.getLast? := pathAttr_modDecl _ _

/-- Both find the `path` attributes. -/
theorem readPaths_eq_nil_iff : d.readPaths = [] ↔ d.meantPaths = [] := by
  rw [readPaths, meantPaths, List.flatMap_eq_nil_iff, List.flatMap_eq_nil_iff,
    List.forall_mem_map, List.forall_mem_map]
  refine forall₂_congr fun a _ => ?_
  cases a with
  | path value => simp [SourceAttribute.read, SourceAttribute.meant, Attribute.written]
  | attr a => rfl

theorem nameText_eq_name_iff : d.nameText = d.name ↔ d.raw = false := by
  cases hraw : d.raw with
  | false => simp [nameText, hraw]
  | true =>
      refine iff_of_false (fun h => ?_) (by decide)
      have hlength := congrArg List.length h
      simp only [nameText, hraw, if_true, List.length_cons] at hlength
      omega

theorem nameText_isName : d.nameText ≠ [] ∧ '/' ∉ d.nameText ∧ '.' ∉ d.nameText := by
  rw [nameText]
  split
  · simpa using d.isName.2
  · exact d.isName

end Declaration

/-! ### The files that are named -/

/-- A path attribute in a directory. -/
def pathFile (dir : Path) (path : Str) : Option Path :=
  if path.head? = some '/' then none else lexical [] (dir ++ components path)

namespace ModuleTree

variable (tree : ModuleTree)

/-- `owns_directory` of `children`. -/
def owns (file : Path) : Bool := file ∈ tree.crateEntries || file.getLast? == some "mod.rs".toList

/-- The files that `module_file` tries for a name. -/
def nameFiles (file : Path) (name : Str) : List Path :=
  match tree.subOf file with
  | some sub => moduleFile.candidates (file.dropLast ++ sub) name
  | none => []

theorem moduleFile_path {file : Path} {owns : Bool} {decl : ModDecl} {path : Str}
    (h : decl.pathAttr = some path) :
    tree.moduleFile file owns decl = (pathFile file.dropLast path).filter tree.has := by
  rw [moduleFile, h]
  dsimp only
  rw [pathFile]
  split <;> rfl

theorem moduleFile_name {file : Path} {decl : ModDecl} (h : decl.pathAttr = none) :
    tree.moduleFile file (tree.owns file) decl =
      (tree.nameFiles file decl.name).find? tree.has := by
  have howns : tree.owns file = true ↔
      file ∈ tree.crateEntries ∨ file.getLast? = some "mod.rs".toList := by
    simp [owns]
  rw [moduleFile, h, nameFiles, subOf]
  dsimp only
  by_cases hown : tree.owns file = true
  · rw [if_pos (howns.mp hown)]
    simp only [hown, if_true, List.append_nil]
    cases file.getLast? <;> rfl
  · rw [if_neg (mt howns.mpr hown)]
    simp only [hown]
    cases file.getLast? <;> rfl

end ModuleTree

theorem find_path (has : Path → Bool) (u : LoadedFile) (name path : Str) :
    (u.place.find has name (some path)).map LoadedFile.file =
      (pathFile u.file.dropLast path).filter has := by
  simp only [LoadedFile.place, Place.find, pathFile]
  split
  · rfl
  · cases (lexical [] (u.file.dropLast ++ components path)).filter has <;> rfl

theorem find_name (has : Path → Bool) (u : LoadedFile) (name : Str) :
    (u.place.find has name none).map LoadedFile.file =
      (ModuleTree.moduleFile.candidates (u.file.dropLast ++ u.sub) name).find? has := by
  simp only [LoadedFile.place, Place.find, ModuleTree.moduleFile.candidates]
  rw [show (fun u : LoadedFile => has u.file) = has ∘ LoadedFile.file from rfl, ← List.find?_map]
  rfl

/-! ### When both find the same -/

section Follows

variable (tree : ModuleTree) (u : LoadedFile) (d : Declaration)

/-- For each path under which the declaration may name its file, `module_file` finds the indexed
file that the compiler looks for. -/
def Follows : Prop :=
  d.modDecl.alternatives.map (tree.moduleFile u.file (tree.owns u.file)) =
    d.paths.map fun path => (u.place.find tree.has d.name path).map LoadedFile.file

instance : Decidable (Follows tree u d) := inferInstanceAs (Decidable (_ = _))

/-- The code reads of a declaration without `path` attribute the name, and takes the file to own the
directory in which the compiler looks; and of one with such attributes it reads a path that names
what the first of them names. -/
def Declaration.ReadIn : Prop :=
  match d.readPaths.getLast?, d.meantPaths.head? with
  | none, none => tree.subOf u.file = some u.sub ∧ d.raw = false
  | some path, some path' => pathFile u.file.dropLast path = pathFile u.file.dropLast path'
  | _, _ => False

variable {tree u d}

/-- The paths of `cfg_attr`s are read as they stand, so the item's own path or name decides. -/
theorem follows_iff_fallback :
    Follows tree u d ↔
      tree.moduleFile u.file (tree.owns u.file) d.fallback =
        (u.place.find tree.has d.name d.meantPaths.head?).map LoadedFile.file := by
  have halts : d.modDecl.altPaths.map (fun alt => tree.moduleFile u.file (tree.owns u.file)
        ⟨d.modDecl.name, some alt.path, d.modDecl.gated alt.pred, []⟩) =
      d.modDecl.altPaths.map fun alt =>
        (u.place.find tree.has d.name (some alt.path)).map LoadedFile.file :=
    List.map_congr_left fun alt _ => (tree.moduleFile_path rfl).trans (find_path _ _ _ _).symm
  rw [Follows, ModDecl.alternatives, Declaration.paths, List.map_append, List.map_append,
    List.map_map, List.map_map]
  constructor
  · intro h
    exact List.head_eq_of_cons_eq (List.append_inj_right h (by simp))
  · intro h
    exact congrArg₂ (· ++ ·) halts (congrArg (fun found => [found]) h)

/-- The files that are tried for a name, which has no directories. -/
theorem candidates_eq {name : Str} (h : name ≠ [] ∧ '/' ∉ name ∧ '.' ∉ name) (dir : Path) :
    ModuleTree.moduleFile.candidates dir name =
      [dir ++ [name ++ ".rs".toList], dir ++ [name, "mod.rs".toList]] := by
  have hdot : name ≠ ['.'] := fun heq => h.2.2 (heq ▸ List.mem_cons_self)
  have hrs : '/' ∉ name ++ ".rs".toList := by
    rw [List.mem_append, not_or]
    exact ⟨h.2.1, by decide⟩
  have hname : components name = [name] := by
    rw [components, List.splitOn_eq_singleton h.2.1]
    simp [h.1, hdot]
  have hfile : components (name ++ ".rs".toList) = [name ++ ".rs".toList] := by
    have hlong : (name ++ ".rs".toList).length ≠ 1 := by simp
    have hne : name ++ ".rs".toList ≠ [] ∧ name ++ ".rs".toList ≠ ['.'] :=
      ⟨by simp, fun heq => hlong (by rw [heq]; rfl)⟩
    rw [components, List.splitOn_eq_singleton hrs, List.filter_cons_of_pos (by simpa using hne)]
    rfl
  rw [ModuleTree.moduleFile.candidates, hname, hfile, List.append_assoc, List.singleton_append]

theorem candidates_nodup {name : Str} (h : name ≠ [] ∧ '/' ∉ name ∧ '.' ∉ name) (dir : Path) :
    (ModuleTree.moduleFile.candidates dir name).Nodup := by
  rw [candidates_eq h, List.nodup_cons]
  refine ⟨fun hmem => ?_, List.nodup_singleton _⟩
  have hlength := congrArg List.length (List.mem_singleton.mp hmem)
  simp at hlength

theorem candidates_inj {name name' : Str} (h : name ≠ [] ∧ '/' ∉ name ∧ '.' ∉ name)
    (h' : name' ≠ [] ∧ '/' ∉ name' ∧ '.' ∉ name') {dir dir' : Path} :
    ModuleTree.moduleFile.candidates dir name = ModuleTree.moduleFile.candidates dir' name' ↔
      dir = dir' ∧ name = name' := by
  constructor
  · intro heq
    rw [candidates_eq h, candidates_eq h'] at heq
    obtain ⟨hdir, hfile⟩ := List.append_singleton_inj.mp (List.cons.inj heq).1
    exact ⟨hdir, List.append_cancel_right hfile⟩
  · rintro ⟨rfl, rfl⟩
    rfl

variable (tree u d)

/-- The files that `module_file` tries. -/
def readFiles : List Path :=
  match d.readPaths.getLast? with
  | some path => (pathFile u.file.dropLast path).toList
  | none => tree.nameFiles u.file d.nameText

/-- The files that the compiler tries. -/
def meantFiles : List Path :=
  match d.meantPaths.head? with
  | some path => (pathFile u.file.dropLast path).toList
  | none => ModuleTree.moduleFile.candidates (u.file.dropLast ++ u.sub) d.name

theorem filter_eq_find {α : Type} (o : Option α) (p : α → Bool) : o.filter p = o.toList.find? p := by
  cases o with
  | none => rfl
  | some a => cases h : p a <;> simp [Option.filter, h]

theorem moduleFile_fallback :
    tree.moduleFile u.file (tree.owns u.file) d.fallback =
      (readFiles tree u d).find? tree.has := by
  have hattr := d.fallback_pathAttr
  rw [readFiles]
  cases hread : d.readPaths.getLast? with
  | some path => rw [tree.moduleFile_path (hattr.trans hread), filter_eq_find]
  | none => rw [tree.moduleFile_name (hattr.trans hread), d.fallback_name]

theorem find_meant :
    (u.place.find tree.has d.name d.meantPaths.head?).map LoadedFile.file =
      (meantFiles u d).find? tree.has := by
  rw [meantFiles]
  cases hmeant : d.meantPaths.head? with
  | some path => rw [find_path, filter_eq_find]
  | none => rw [find_name]

theorem readFiles_nodup : (readFiles tree u d).Nodup := by
  rw [readFiles]
  split
  · rename_i path _
    cases pathFile u.file.dropLast path <;> simp
  · rw [ModuleTree.nameFiles]
    split
    · exact candidates_nodup d.nameText_isName _
    · exact List.nodup_nil

theorem meantFiles_nodup : (meantFiles u d).Nodup := by
  rw [meantFiles]
  split
  · rename_i path _
    cases pathFile u.file.dropLast path <;> simp
  · exact candidates_nodup d.isName _

/-- A path is tried alone, and a name in two files. -/
theorem toList_ne_candidates (o : Option Path) {name : Str}
    (h : name ≠ [] ∧ '/' ∉ name ∧ '.' ∉ name) (dir : Path) :
    o.toList ≠ ModuleTree.moduleFile.candidates dir name := by
  rw [candidates_eq h]
  cases o <;> simp

theorem toList_inj {α : Type} {o o' : Option α} : o.toList = o'.toList ↔ o = o' := by
  cases o <;> cases o' <;> simp

/-- The files that both try are the same exactly where the declaration is read as it is meant. -/
theorem readFiles_eq_iff : readFiles tree u d = meantFiles u d ↔ d.ReadIn tree u := by
  rw [readFiles, meantFiles, Declaration.ReadIn]
  cases hread : d.readPaths.getLast? with
  | some path =>
      cases hmeant : d.meantPaths.head? with
      | some path' => exact toList_inj
      | none => exact iff_of_false (toList_ne_candidates _ d.isName _) id
  | none =>
      cases hmeant : d.meantPaths.head? with
      | some path' =>
          have hnone := d.readPaths_eq_nil_iff.mp (List.getLast?_eq_none_iff.mp hread)
          rw [hnone] at hmeant
          cases hmeant
      | none =>
          dsimp only
          rw [ModuleTree.nameFiles]
          cases tree.subOf u.file with
          | none =>
              refine iff_of_false (fun h => ?_) (fun h => absurd h.1 (by simp))
              rw [candidates_eq d.isName] at h
              cases h
          | some sub =>
              dsimp only
              rw [candidates_inj d.nameText_isName d.isName, List.append_cancel_left_eq,
                d.nameText_eq_name_iff, Option.some.injEq]

variable {tree u d}

theorem follows_iff_find :
    Follows tree u d ↔
      (readFiles tree u d).find? tree.has = (meantFiles u d).find? tree.has := by
  rw [follows_iff_fallback, moduleFile_fallback, find_meant]

end Follows

/-- `src/main.rs` declares `src/a.rs` by a `path` attribute, and that declares `src/y.rs`. -/
private def besides : RustSources where
  indexed := [["src".toList, "main.rs".toList], ["src".toList, "a.rs".toList],
    ["src".toList, "y.rs".toList]]
  onDisk path := path ∈ [["src".toList, "main.rs".toList], ["src".toList, "a.rs".toList],
    ["src".toList, "y.rs".toList]]
  readToString path :=
    if path = ["src".toList, "main.rs".toList] then some "#[path = \"a.rs\"] mod x;".toList
    else some "mod y;".toList
  items source :=
    if source = "#[path = \"a.rs\"] mod x;".toList then [.file "x".toList [.path "a.rs".toList]]
    else if source = "mod y;".toList then [.file "y".toList []]
    else []
  indexed_onDisk path hpath := decide_eq_true hpath
  spelled source h := by
    split_ifs at h with hmain hother
    · rw [hmain]
      decide
    · rw [hother]
      decide
    · exact absurd rfl h

end AutomatisedPipeline.Cfg
