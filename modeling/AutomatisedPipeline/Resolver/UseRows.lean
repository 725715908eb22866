import AutomatisedPipeline.Resolver.TypeEdges

/-!
The `use` declarations of a Rust repository (`resolver/receiver/imports.rs`), the facts of Cargo
they are read with, and module paths (`resolver/receiver/written_path.rs`).

A scope is a file or an inline module, and its module path leads to it from the root of its crate.
The imports are kept by scope, and the scopes by module path; what is found there are the rows
that were put in, in whatever order (`mem_ofScope`, `mem_scopesAt`).
-/

namespace AutomatisedPipeline.Receiver

open Text Resolver

/-! ### Crates -/

/-- `CrateEvidence`: what Cargo said about the workspace. -/
structure CrateEvidence where
  known : Bool
  crateNames : List Str
  targets : List (Str × Option Str)
  owners : List (Str × List Str)
  logicalModules : List (Str × List Str)

/-- `same_crate`. -/
def sameCrate (evidence : CrateEvidence) (callerFile file : Str) : Bool :=
  if ¬ evidence.known then true
  else
    match evidence.owners.lookup callerFile, evidence.owners.lookup file with
    | some a, some b => a.any fun owner => decide (owner ∈ b)
    | _, _ => true

/-- `library_owns`. -/
def libraryOwns (evidence : CrateEvidence) (lib file : Str) : Bool :=
  match evidence.owners.lookup file with
  | some owners => owners.any fun owner => evidence.targets.lookup owner == some (some lib)
  | none => false

/-! ### Module paths -/

/-- The loop of `path_segments`: the text outside of generic arguments, without white space. -/
def outsideGenerics : Nat → Str → Str
  | _, [] => []
  | depth, '<' :: rest => outsideGenerics (depth + 1) rest
  | depth, '>' :: rest => outsideGenerics (depth - 1) rest
  | depth, c :: rest =>
      if depth = 0 ∧ ¬ isWhitespace c then c :: outsideGenerics depth rest
      else outsideGenerics depth rest

/-- `split("::")` without the empty pieces. -/
def scopeSegments (path : Str) : List Str := (Impact.splitScope [] path).filter (· ≠ [])

/-- `path_segments`. -/
def pathSegments (path : Str) : List Str := scopeSegments (outsideGenerics 0 path)

/-- `str::trim_end_matches` of `.rs`, from the reversed text. -/
def trimRs : Str → Str
  | 's' :: 'r' :: '.' :: rest => trimRs rest
  | rest => rest

/-- The part of a path that `file_module_path` reads: what is below `src/`, or below one of the
directories of targets. -/
def belowSource (file : Str) : Str :=
  let targetDirs := ["tests/", "benches/", "examples/"].map String.toList
  let outside := (targetDirs.findSome? fun dir => dir.isPrefixOf? file).getD file
  match rfind "src/".toList file with
  | some i => if i = 0 ∨ ['/'].isSuffixOf (file.take i) then file.drop (i + 4) else outside
  | none => outside

/-- `file_module_path`. -/
def fileModulePath (evidence : CrateEvidence) (file : Str) : List Str :=
  match evidence.logicalModules.lookup file with
  | some logical => logical
  | none =>
      let name := afterLast ['/'] file
      if (evidence.targets.lookup file).isSome ∨ name = "lib.rs".toList ∨ name = "main.rs".toList then []
      else
        let below := (trimRs (belowSource file).reverse).reverse
        let segments := (below.splitOn '/').filter (· ≠ [])
        if segments.getLast? = some "mod".toList then segments.dropLast else segments

/-- The text of a name behind its file. -/
def behindFile (qn : Str) : Str := ((extractFilePrefixOrSelf qn).isPrefixOf? qn).getD []

/-- `scope_module_path`. -/
def scopeModulePath (evidence : CrateEvidence) (scope : Str) : List Str :=
  fileModulePath evidence (extractFilePrefixOrSelf scope) ++ scopeSegments (behindFile scope)

/-- `module_path_of`. -/
def modulePathOf (evidence : CrateEvidence) (qn : Str) : List Str :=
  fileModulePath evidence (extractFilePrefixOrSelf qn) ++ pathSegments (behindFile qn)

/-! ### Imports -/

/-- `ImportRow`: the path as written, its `as` name and whether it is a glob. -/
structure ImportRow where
  path : Str
  «alias» : Str
  isGlob : Bool
deriving DecidableEq, Repr

/-- `ImportRow::binds`. -/
def ImportRow.binds (row : ImportRow) : Str :=
  if row.«alias» = [] then afterLast "::".toList row.path else row.«alias»

/-- `ModuleImports`. -/
structure ModuleImports where
  byScope : List (Str × List ImportRow)
  byModule : List (List Str × List Str)
  modules : List (List Str × List Str)

/-- `ModuleImports::insert`. -/
def ModuleImports.insert (evidence : CrateEvidence) (imports : ModuleImports)
    (row : Str × ImportRow) : ModuleImports :=
  { imports with
    byModule :=
      if (imports.byScope.lookup row.1).isSome then imports.byModule
      else Assoc.upsert (scopeModulePath evidence row.1) [] (· ++ [row.1]) imports.byModule
    byScope := Assoc.upsert row.1 [] (· ++ [row.2]) imports.byScope }

/-- `ModuleImports::add_module`. -/
def ModuleImports.addModule (evidence : CrateEvidence) (imports : ModuleImports) (qn : Str) :
    ModuleImports :=
  { imports with
    modules := Assoc.upsert (scopeModulePath evidence qn) [] (· ++ [extractFilePrefixOrSelf qn])
      imports.modules }

/-- `ModuleImports::load`, from the names of the files, modules and enums, and the rows of
imports with their scopes. -/
def ModuleImports.load (evidence : CrateEvidence) (names : List Str)
    (rows : List (Str × ImportRow)) : ModuleImports :=
  let rust := names.filter fun qn => ".rs".toList.isSuffixOf (extractFilePrefixOrSelf qn)
  rows.foldl (ModuleImports.insert evidence)
    (rust.foldl (ModuleImports.addModule evidence) ⟨[], [], []⟩)

/-- `ModuleImports::module_files`. -/
def ModuleImports.moduleFiles (imports : ModuleImports) (path : List Str) : List Str :=
  (imports.modules.lookup path).getD []

/-- `ModuleImports::of_scope`. -/
def ModuleImports.ofScope (imports : ModuleImports) (scope : Str) : List ImportRow :=
  (imports.byScope.lookup scope).getD []

/-- `ModuleImports::scopes_at`. -/
def ModuleImports.scopesAt (imports : ModuleImports) (path : List Str) : List Str :=
  (imports.byModule.lookup path).getD []

/-- `PathFacts`. -/
structure PathFacts where
  idx : SymbolIndex
  evidence : CrateEvidence
  imports : ModuleImports

/-! ### What is found -/

section Load

variable (evidence : CrateEvidence)

theorem foldl_insert_modules (rows : List (Str × ImportRow)) (imports : ModuleImports) :
    (rows.foldl (ModuleImports.insert evidence) imports).modules = imports.modules := by
  induction rows generalizing imports with
  | nil => rfl
  | cons row rows ih => rw [List.foldl_cons, ih, ModuleImports.insert]

theorem foldl_addModule (names : List Str) (imports : ModuleImports) :
    (names.foldl (ModuleImports.addModule evidence) imports).byScope = imports.byScope ∧
      (names.foldl (ModuleImports.addModule evidence) imports).byModule = imports.byModule := by
  induction names generalizing imports with
  | nil => exact ⟨rfl, rfl⟩
  | cons name names ih =>
      rw [List.foldl_cons]
      obtain ⟨hscope, hmodule⟩ := ih (imports.addModule evidence name)
      exact ⟨hscope, hmodule⟩

/-! One row more: each lookup of the imports in terms of the lookups before it. -/

theorem lookup_byScope_insert (imports : ModuleImports) (row : Str × ImportRow) (scope : Str) :
    (imports.insert evidence row).byScope.lookup scope =
      if scope = row.1 then some (imports.ofScope row.1 ++ [row.2])
      else imports.byScope.lookup scope :=
  Assoc.lookup_upsert ..

theorem mem_ofScope_insert {imports : ModuleImports} {row : Str × ImportRow} {scope : Str}
    {found : ImportRow} :
    found ∈ (imports.insert evidence row).ofScope scope ↔
      found ∈ imports.ofScope scope ∨ (scope, found) = row := by
  rw [ModuleImports.ofScope, lookup_byScope_insert, Prod.ext_iff]
  by_cases heq : scope = row.1
  · rw [if_pos heq, Option.getD_some, List.mem_append, List.mem_singleton, heq]
    simp only [true_and]
  · rw [if_neg heq]
    exact (or_iff_left fun h => heq h.1).symm

theorem hasScope_insert {imports : ModuleImports} {row : Str × ImportRow} {scope : Str} :
    ((imports.insert evidence row).byScope.lookup scope).isSome ↔
      (imports.byScope.lookup scope).isSome ∨ scope = row.1 := by
  rw [lookup_byScope_insert]
  by_cases heq : scope = row.1
  · rw [if_pos heq]
    exact iff_of_true rfl (.inr heq)
  · rw [if_neg heq]
    exact (or_iff_left heq).symm

/-- A scope is recorded at its module path with its first row. -/
theorem scopesAt_insert (imports : ModuleImports) (row : Str × ImportRow) (path : List Str) :
    (imports.insert evidence row).scopesAt path =
      imports.scopesAt path ++
        if ¬ (imports.byScope.lookup row.1).isSome ∧ path = scopeModulePath evidence row.1
        then [row.1] else [] := by
  rw [ModuleImports.scopesAt, ModuleImports.insert]
  dsimp only
  by_cases hknown : (imports.byScope.lookup row.1).isSome = true
  · rw [if_pos hknown, if_neg fun h => h.1 hknown, List.append_nil]
    rfl
  · rw [if_neg hknown, Assoc.lookup_upsert]
    by_cases hpath : path = scopeModulePath evidence row.1
    · rw [if_pos hpath, if_pos ⟨hknown, hpath⟩, hpath]
      rfl
    · rw [if_neg hpath, if_neg fun h => hpath h.2, List.append_nil]
      rfl

/-- The rows kept of each scope, and the scopes kept at each module path. -/
structure Holds (imports : ModuleImports) (rows : List (Str × ImportRow)) : Prop where
  ofScope : ∀ scope row, row ∈ imports.ofScope scope ↔ (scope, row) ∈ rows
  hasScope : ∀ scope, (imports.byScope.lookup scope).isSome ↔ ∃ row, (scope, row) ∈ rows
  scopesAt : ∀ path scope, scope ∈ imports.scopesAt path ↔
    scopeModulePath evidence scope = path ∧ ∃ row, (scope, row) ∈ rows
  nodup : ∀ path, (imports.scopesAt path).Nodup

variable {evidence}

theorem exists_mem_append_singleton {rows : List (Str × ImportRow)} {row : Str × ImportRow}
    {scope : Str} :
    (∃ found, (scope, found) ∈ rows ++ [row]) ↔
      (∃ found, (scope, found) ∈ rows) ∨ scope = row.1 := by
  simp only [List.mem_append, List.mem_singleton, exists_or, Prod.ext_iff, exists_and_left,
    exists_eq, and_true]

theorem Holds.insert {imports : ModuleImports} {rows : List (Str × ImportRow)}
    (h : Holds evidence imports rows) (row : Str × ImportRow) :
    Holds evidence (imports.insert evidence row) (rows ++ [row]) := by
  -- a scope that has a row is already at its module path, and at no other
  have hnew : ∀ path scope, (¬ (imports.byScope.lookup row.1).isSome ∧
      path = scopeModulePath evidence row.1) ∧ scope = row.1 →
        scope ∉ imports.scopesAt path := by
    rintro path scope ⟨⟨hfresh, -⟩, rfl⟩ hat
    exact hfresh ((h.hasScope row.1).mpr ((h.scopesAt path row.1).mp hat).2)
  constructor
  · intro scope found
    rw [mem_ofScope_insert, h.ofScope, List.mem_append, List.mem_singleton]
  · intro scope
    rw [hasScope_insert, h.hasScope, exists_mem_append_singleton]
  · intro path scope
    rw [scopesAt_insert, List.mem_append, h.scopesAt, exists_mem_append_singleton,
      and_or_left, List.mem_ite_nil_right, List.mem_singleton]
    constructor
    · rintro (hold | ⟨⟨-, rfl⟩, rfl⟩)
      · exact .inl hold
      · exact .inr ⟨rfl, rfl⟩
    · rintro (hold | ⟨rfl, rfl⟩)
      · exact .inl hold
      · by_cases hknown : (imports.byScope.lookup row.1).isSome
        · exact .inl ⟨rfl, (h.hasScope row.1).mp hknown⟩
        · exact .inr ⟨⟨hknown, rfl⟩, rfl⟩
  · intro path
    rw [scopesAt_insert]
    apply (h.nodup path).append
    · split
      · exact List.nodup_singleton _
      · exact List.nodup_nil
    · intro scope hat hadded
      rw [List.mem_ite_nil_right, List.mem_singleton] at hadded
      exact hnew path scope hadded hat

/-- What was put in is what is found. -/
theorem holds_load (evidence : CrateEvidence) (names : List Str) (rows : List (Str × ImportRow)) :
    Holds evidence (ModuleImports.load evidence names rows) rows := by
  have hrun : ∀ (rows done : List (Str × ImportRow)) (imports : ModuleImports),
      Holds evidence imports done →
        Holds evidence (rows.foldl (ModuleImports.insert evidence) imports) (done ++ rows) := by
    intro rows
    induction rows with
    | nil =>
        intro done imports h
        rwa [List.append_nil]
    | cons row rows ih =>
        intro done imports h
        have hnext := ih (done ++ [row]) (imports.insert evidence row) (h.insert row)
        rwa [List.append_assoc] at hnext
  obtain ⟨hscope, hmodule⟩ := foldl_addModule evidence
    (names.filter fun qn => ".rs".toList.isSuffixOf (extractFilePrefixOrSelf qn)) ⟨[], [], []⟩
  refine hrun rows [] _ ⟨?_, ?_, ?_, ?_⟩
  · intro scope row
    rw [ModuleImports.ofScope, hscope]
    exact iff_of_false List.not_mem_nil List.not_mem_nil
  · intro scope
    rw [hscope]
    refine iff_of_false Bool.false_ne_true ?_
    rintro ⟨row, hrow⟩
    cases hrow
  · intro path scope
    rw [ModuleImports.scopesAt, hmodule]
    refine iff_of_false List.not_mem_nil ?_
    rintro ⟨-, row, hrow⟩
    cases hrow
  · intro path
    rw [ModuleImports.scopesAt, hmodule]
    exact List.nodup_nil

/-- The modules do not depend on the rows. -/
theorem moduleFiles_load (evidence : CrateEvidence) (names : List Str)
    (rows rows' : List (Str × ImportRow)) (path : List Str) :
    (ModuleImports.load evidence names rows).moduleFiles path =
      (ModuleImports.load evidence names rows').moduleFiles path := by
  rw [ModuleImports.moduleFiles, ModuleImports.moduleFiles, ModuleImports.load, ModuleImports.load,
    foldl_insert_modules, foldl_insert_modules]

end Load

end AutomatisedPipeline.Receiver
