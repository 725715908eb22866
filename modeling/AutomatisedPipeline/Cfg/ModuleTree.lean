import AutomatisedPipeline.Cfg.Predicate
import AutomatisedPipeline.Text.Find

/-!
The module tree of a crate: the `mod name;` declarations of a Rust file
(`rust_mod_decls.rs`) and the files they name (`feature_gated.rs`).

A path is the list of its components. The files on disk and the syntax tree that
`mod_decls` reads come with the codebase.
-/

namespace AutomatisedPipeline.Cfg

open Text

/-! ### Declarations -/

/-- `AltPath`: the file that a `cfg_attr` gives a declaration, and the predicate that gives
it, where it parsed. -/
structure AltPath where
  pred : Option CfgPredicate
  path : Str
deriving DecidableEq, Repr

/-- `ModDecl`: one `mod name;` item. Its `cfg` is missing when one of the attributes did not
parse. -/
structure ModDecl where
  name : Str
  pathAttr : Option Str
  cfg : Option (List CfgPredicate)
  altPaths : List AltPath
deriving DecidableEq, Repr

namespace ModDecl

/-- `gated` of `alternatives`: the gate of the declaration and a predicate of its own. -/
def gated (decl : ModDecl) (extra : Option CfgPredicate) : Option (List CfgPredicate) :=
  match decl.cfg, extra with
  | some all, some pred => some (all ++ [pred])
  | _, _ => none

/-- The negated predicates of the alternatives, `none` when one did not parse. -/
def noneApplies : List AltPath → Option (List CfgPredicate)
  | [] => some []
  | alt :: alts =>
      match alt.pred, noneApplies alts with
      | some pred, some rest => some (.not pred :: rest)
      | _, _ => none

/-- `fallback_cfg` of `alternatives`. -/
def fallbackCfg (decl : ModDecl) : Option (List CfgPredicate) :=
  match decl.cfg, noneApplies decl.altPaths with
  | some all, some negated => some (all ++ negated)
  | _, _ => none

/-- `alternatives`: one declaration for each `cfg_attr` path, then the declaration itself for
when none of them applies. -/
def alternatives (decl : ModDecl) : List ModDecl :=
  decl.altPaths.map (fun alt =>
      { name := decl.name, pathAttr := some alt.path, cfg := decl.gated alt.pred, altPaths := [] })
    ++ [{ decl with cfg := decl.fallbackCfg, altPaths := [] }]

end ModDecl

/-! ### Files -/

/-- A path relative to the root, by its components. -/
abbrev Path := List Str

/-- `id_of`. -/
def idOf (path : Path) : Str :=
  (join ['/'] path).map fun c => if c = '\\' then '/' else c

/-- `Path::file_stem` of a file name: the name before its last dot, unless nothing stands
there. -/
def fileStem (name : Str) : Str :=
  match name.reverse.dropWhile (· ≠ '.') with
  | [] => name
  | [_] => name
  | _ :: before => before.reverse

/-- `lexical` behind the components `out`. -/
def lexical (out : Path) : Path → Option Path
  | [] => some out
  | component :: rest =>
      if component = ['.', '.'] then
        if out = [] then none else lexical out.dropLast rest
      else lexical (out ++ [component]) rest

/-- The Rust files of a codebase: those that are indexed, what `read_to_string` returns of a
file, and the declarations that `mod_decls` finds in a source. -/
structure SourceTree where
  indexed : List Path
  readToString : Path → Option Str
  modDecls : Str → List ModDecl

/-- `ModuleTree`. -/
structure ModuleTree extends SourceTree where
  crateEntries : List Path

namespace ModuleTree

variable (tree : ModuleTree)

/-- `exists` of `children`. -/
def has (path : Path) : Bool := path ∈ tree.indexed

/-- `module_file`. -/
def moduleFile (file : Path) (ownsDirectory : Bool) (decl : ModDecl) : Option Path :=
  let parent := file.dropLast
  match decl.pathAttr with
  | some path =>
      if path.head? = some '/' then none
      else (lexical [] (parent ++ components path)).filter tree.has
  | none =>
      match file.getLast? with
      | none => if ownsDirectory then (candidates parent decl.name).find? tree.has else none
      | some name =>
          let dir := if ownsDirectory then parent else parent ++ components (fileStem name)
          (candidates dir decl.name).find? tree.has
where
  candidates (dir : Path) (name : Str) : List Path :=
    [dir ++ components (name ++ ".rs".toList), dir ++ components name ++ ["mod.rs".toList]]

/-- `declared_children`. -/
def declaredChildren (file : Path) (ownsDirectory : Bool) : List (ModDecl × Path) :=
  match tree.readToString file with
  | none => []
  | some source =>
      if (find "mod".toList source).isNone then []
      else
        (tree.modDecls source).flatMap fun decl =>
          decl.alternatives.filterMap fun alternative =>
            (tree.moduleFile file ownsDirectory alternative).map (alternative, ·)

/-- `children`: the declarations of `file` that name an indexed file. -/
def children (file : Path) : List (ModDecl × Path) :=
  tree.declaredChildren file (file ∈ tree.crateEntries || file.getLast? == some "mod.rs".toList)

variable {tree}

theorem mem_indexed_of_moduleFile {file target : Path} {ownsDirectory : Bool} {decl : ModDecl}
    (h : tree.moduleFile file ownsDirectory decl = some target) : target ∈ tree.indexed := by
  have hhas : tree.has target = true → target ∈ tree.indexed := of_decide_eq_true
  unfold moduleFile at h
  split at h
  · split at h
    · cases h
    · exact hhas (Option.filter_eq_some_iff.mp h).2
  · split at h
    · split at h
      · exact hhas (List.find?_some h)
      · cases h
    · exact hhas (List.find?_some h)

/-- Only indexed files are declared. -/
theorem mem_indexed_of_children {file : Path} {child : ModDecl × Path}
    (h : child ∈ tree.children file) : child.2 ∈ tree.indexed := by
  unfold children declaredChildren at h
  split at h
  · cases h
  · split at h
    · cases h
    · obtain ⟨decl, -, h⟩ := List.mem_flatMap.mp h
      obtain ⟨alternative, -, h⟩ := List.mem_filterMap.mp h
      obtain ⟨target, htarget, rfl⟩ := Option.map_eq_some_iff.mp h
      exact mem_indexed_of_moduleFile htarget

/-- A file declares another. -/
def Declares (tree : ModuleTree) (file target : Path) : Prop :=
  target ∈ (tree.children file).map Prod.snd

end ModuleTree

end AutomatisedPipeline.Cfg
