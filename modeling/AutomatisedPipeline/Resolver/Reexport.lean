import AutomatisedPipeline.Logic.Walk
import AutomatisedPipeline.Resolver.UseRows

/-!
Where a path leads once the `use` declarations of each module it ends in are followed
(`resolver/receiver/reexport.rs`).

A path only leads further through a module that has `use` rows, and its name is then a segment of
the first path, of such a module or of a row. So finitely many paths lead further, and the worklist
runs empty (`followRun_ends`). What it returns is what can be reached and stays
(`follow_closure`).
-/

namespace AutomatisedPipeline.Receiver

open Text Resolver

/-! ### Paths -/

/-- `Anchor`: a path from the root of the caller's crate, from that of a library, or the end of
a path. -/
inductive Anchor where
  | crateRoot (segments : List Str)
  | library (lib : Str) (segments : List Str)
  | suffix (segments : List Str)
deriving DecidableEq, Repr

namespace Anchor

/-- `Anchor::written`. -/
def written : Anchor → List Str
  | crateRoot segments => segments
  | library _ segments => segments
  | suffix segments => segments

/-- `Anchor::library`. -/
def lib : Anchor → Option Str
  | library lib _ => some lib
  | _ => none

/-- The module path and the name at the end of some segments. -/
def splitLast (segments : List Str) : Option (List Str × Str) :=
  segments.getLast?.map fun name => (segments.dropLast, name)

/-- `Anchor::exact_split`. -/
def exactSplit : Anchor → Option (List Str × Str)
  | crateRoot segments => splitLast segments
  | library _ segments => splitLast segments
  | suffix _ => none

/-- The anchor of a path in the caller's crate or in a library. -/
def within : Option Str → List Str → Anchor
  | some lib, segments => library lib segments
  | none, segments => crateRoot segments

theorem splitLast_eq_some {segments path : List Str} {name : Str} :
    splitLast segments = some (path, name) ↔ segments = path ++ [name] := by
  rcases List.eq_nil_or_concat segments with rfl | ⟨front, last, rfl⟩
  · simp [splitLast]
  · rw [List.concat_eq_append, splitLast, List.getLast?_concat, List.dropLast_concat]
    simp [eq_comm]

theorem exactSplit_eq_some {anchor : Anchor} {path : List Str} {name : Str}
    (h : anchor.exactSplit = some (path, name)) : anchor = within anchor.lib (path ++ [name]) := by
  cases anchor with
  | crateRoot segments => rw [splitLast_eq_some.mp h]; rfl
  | library lib segments => rw [splitLast_eq_some.mp h]; rfl
  | suffix segments => cases h

@[simp] theorem written_within (lib : Option Str) (segments : List Str) :
    (within lib segments).written = segments := by
  cases lib <;> rfl

@[simp] theorem lib_within (lib : Option Str) (segments : List Str) :
    (within lib segments).lib = lib := by
  cases lib <;> rfl

end Anchor

/-- `anchor_in`: the path of some segments written in a module. -/
def anchorIn (evidence : CrateEvidence) (lib : Option Str) (path segments : List Str) :
    Option Anchor :=
  match segments with
  | [] => none
  | first :: rest =>
      if first = "crate".toList then some (.within lib rest)
      else if first = "self".toList then some (.within lib (path ++ rest))
      else if first = "super".toList then
        let ups := (segments.takeWhile (· = "super".toList)).length
        if path.length < ups then none
        else some (.within lib (path.take (path.length - ups) ++ segments.drop ups))
      else if first ∈ evidence.crateNames then some (.library first rest)
      else some (.within lib (path ++ segments))

/-! ### The worklist -/

/-- `rows_of_module`. -/
def rowsOfModule (facts : PathFacts) (callerFile : Str) (anchor : Anchor) (path : List Str) :
    List ImportRow :=
  let inCrate := fun scope =>
    match anchor.lib with
    | some lib => libraryOwns facts.evidence lib (extractFilePrefixOrSelf scope)
    | none => sameCrate facts.evidence callerFile (extractFilePrefixOrSelf scope)
  ((facts.imports.scopesAt path).filter inCrate).flatMap facts.imports.ofScope

/-- One turn of `follow`: whether the path is returned, and what is put on the worklist. -/
def followStep (facts : PathFacts) (callerFile : Str) (anchor : Anchor) : Bool × List Anchor :=
  match anchor.exactSplit with
  | none => (true, [])
  | some (path, name) =>
      let rows := rowsOfModule facts callerFile anchor path
      let globs := rows.filter (·.isGlob)
      let explicit := rows.filter fun row => ¬ row.isGlob ∧ row.binds = name
      if explicit = [] then
        (true, globs.filterMap fun glob =>
          anchorIn facts.evidence anchor.lib path (pathSegments glob.path ++ [name]))
      else
        let next := explicit.filterMap fun row =>
          anchorIn facts.evidence anchor.lib path (pathSegments row.path)
        if next ≠ [] ∧ ∀ n ∈ next, n = anchor then (true, []) else (false, next)

/-- The names that a path may come to end in. -/
def namePool (facts : PathFacts) (start : Anchor) : List Str :=
  start.written ++ (facts.imports.byModule.flatMap Prod.fst ++
    facts.imports.byScope.flatMap fun entry => entry.2.flatMap fun row => pathSegments row.path)

/-- The libraries that a path may come to be read in. -/
def libPool (facts : PathFacts) (start : Anchor) : List (Option Str) :=
  none :: start.lib :: facts.evidence.crateNames.map some

/-- The paths that may lead further. -/
def anchorPool (facts : PathFacts) (start : Anchor) : List Anchor :=
  (libPool facts start).flatMap fun lib => facts.imports.byModule.flatMap fun entry =>
    (namePool facts start).map fun name => .within lib (entry.1 ++ [name])

/-- The loop of `follow`: the paths seen. -/
def followRun (facts : PathFacts) (callerFile : Str) (start : Anchor) : Option (List Anchor) :=
  Walk.walk id (fun anchor => (followStep facts callerFile anchor).2)
    (1 + ((anchorPool facts start).dedup.map fun anchor =>
      (followStep facts callerFile anchor).2.length).sum) [start] []

/-- `follow`: the paths seen that stay. -/
def follow (facts : PathFacts) (callerFile : Str) (start : Anchor) : List Anchor :=
  ((followRun facts callerFile start).getD []).filter fun anchor =>
    (followStep facts callerFile anchor).1

/-! ### The worklist runs empty -/

section Ends

variable {facts : PathFacts} {callerFile : Str} {start : Anchor}

/-- What is read in a module has its segments from the module and the path written there. -/
theorem anchorIn_spec {evidence : CrateEvidence} {lib : Option Str} {path segments : List Str}
    {anchor : Anchor} (h : anchorIn evidence lib path segments = some anchor) :
    (∀ s ∈ anchor.written, s ∈ path ∨ s ∈ segments) ∧
      (anchor.lib = lib ∨ ∃ name ∈ evidence.crateNames, anchor.lib = some name) := by
  cases segments with
  | nil => cases h
  | cons first rest =>
      rw [anchorIn] at h
      split at h
      · cases h
        rw [Anchor.written_within, Anchor.lib_within]
        exact ⟨fun s hs => .inr (List.mem_cons_of_mem _ hs), .inl rfl⟩
      split at h
      · cases h
        rw [Anchor.written_within, Anchor.lib_within]
        refine ⟨fun s hs => ?_, .inl rfl⟩
        exact (List.mem_append.mp hs).imp_right (List.mem_cons_of_mem _)
      split at h
      · dsimp only at h
        split at h
        · cases h
        · cases h
          rw [Anchor.written_within, Anchor.lib_within]
          refine ⟨fun s hs => ?_, .inl rfl⟩
          exact (List.mem_append.mp hs).imp List.mem_of_mem_take List.mem_of_mem_drop
      split at h
      · rename_i hcrate
        cases h
        exact ⟨fun s hs => .inr (List.mem_cons_of_mem _ hs), .inr ⟨first, hcrate, rfl⟩⟩
      · cases h
        rw [Anchor.written_within, Anchor.lib_within]
        exact ⟨fun s hs => List.mem_append.mp hs, .inl rfl⟩

/-- The segments and the library of a path come from the pools. -/
structure FromPools (facts : PathFacts) (start anchor : Anchor) : Prop where
  names : ∀ s ∈ anchor.written, s ∈ namePool facts start
  lib : anchor.lib ∈ libPool facts start

theorem fromPools_self : FromPools facts start start where
  names _ hs := List.mem_append_left _ hs
  lib := List.mem_cons_of_mem _ List.mem_cons_self

theorem mem_rowsOfModule_iff {anchor : Anchor} {path : List Str} {row : ImportRow} :
    row ∈ rowsOfModule facts callerFile anchor path ↔
      ∃ scope ∈ facts.imports.scopesAt path, row ∈ facts.imports.ofScope scope ∧
        match anchor.lib with
        | some lib => libraryOwns facts.evidence lib (extractFilePrefixOrSelf scope) = true
        | none => sameCrate facts.evidence callerFile (extractFilePrefixOrSelf scope) = true := by
  rw [rowsOfModule, List.mem_flatMap]
  refine exists_congr fun scope => ?_
  rw [List.mem_filter, and_assoc]
  refine and_congr_right fun _ => ?_
  cases anchor.lib with
  | none => exact and_comm
  | some lib => exact and_comm

/-- A row that is read stands in a module that has rows, and its segments are in the pool. -/
theorem pools_of_row (start : Anchor) {anchor : Anchor} {path : List Str} {row : ImportRow}
    (h : row ∈ rowsOfModule facts callerFile anchor path) :
    path ∈ facts.imports.byModule.map Prod.fst ∧
      ∀ s ∈ pathSegments row.path, s ∈ namePool facts start := by
  obtain ⟨scope, hscope, hrow, -⟩ := mem_rowsOfModule_iff.mp h
  constructor
  · rw [ModuleImports.scopesAt] at hscope
    cases hlookup : facts.imports.byModule.lookup path with
    | none =>
        rw [hlookup] at hscope
        cases hscope
    | some scopes => exact List.mem_map.mpr ⟨(path, scopes), Assoc.mem_of_lookup hlookup, rfl⟩
  · intro s hs
    rw [ModuleImports.ofScope] at hrow
    cases hlookup : facts.imports.byScope.lookup scope with
    | none =>
        rw [hlookup] at hrow
        cases hrow
    | some rows =>
        rw [hlookup] at hrow
        refine List.mem_append_right _ (List.mem_append_right _ ?_)
        refine List.mem_flatMap.mpr ⟨(scope, rows), Assoc.mem_of_lookup hlookup, ?_⟩
        exact List.mem_flatMap.mpr ⟨row, hrow, hs⟩

/-- A path that is put on the worklist is read off a row of the module of the one at hand. -/
theorem exists_row_of_next {anchor next : Anchor}
    (h : next ∈ (followStep facts callerFile anchor).2) :
    ∃ path name, anchor.exactSplit = some (path, name) ∧
      ∃ row ∈ rowsOfModule facts callerFile anchor path,
        anchorIn facts.evidence anchor.lib path (pathSegments row.path) = some next ∨
          anchorIn facts.evidence anchor.lib path (pathSegments row.path ++ [name]) = some next := by
  rw [followStep] at h
  cases hsplit : anchor.exactSplit with
  | none =>
      rw [hsplit] at h
      cases h
  | some split =>
      obtain ⟨path, name⟩ := split
      rw [hsplit] at h
      refine ⟨path, name, rfl, ?_⟩
      dsimp only at h
      split at h
      · obtain ⟨row, hrow, hnext⟩ := List.mem_filterMap.mp h
        exact ⟨row, List.mem_of_mem_filter hrow, .inr hnext⟩
      · split at h
        · cases h
        · obtain ⟨row, hrow, hnext⟩ := List.mem_filterMap.mp h
          exact ⟨row, List.mem_of_mem_filter hrow, .inl hnext⟩

theorem FromPools.next {anchor next : Anchor} (h : FromPools facts start anchor)
    (hnext : next ∈ (followStep facts callerFile anchor).2) : FromPools facts start next := by
  obtain ⟨path, name, hsplit, row, hrow, hread⟩ := exists_row_of_next hnext
  have hwritten : anchor.written = path ++ [name] := by
    rw [Anchor.exactSplit_eq_some hsplit, Anchor.written_within]
  have hpath : ∀ s ∈ path, s ∈ namePool facts start := fun s hs =>
    h.names s (hwritten ▸ List.mem_append_left _ hs)
  have hname : name ∈ namePool facts start :=
    h.names name (hwritten ▸ List.mem_append_right _ (List.mem_singleton_self name))
  have hsegments := (pools_of_row start hrow).2
  obtain ⟨segments, hread, hsegments⟩ : ∃ segments,
      anchorIn facts.evidence anchor.lib path segments = some next ∧
        ∀ s ∈ segments, s ∈ namePool facts start := by
    rcases hread with hread | hread
    · exact ⟨_, hread, hsegments⟩
    · refine ⟨_, hread, fun s hs => ?_⟩
      rcases List.mem_append.mp hs with hs | hs
      · exact hsegments s hs
      · rw [List.mem_singleton.mp hs]
        exact hname
  obtain ⟨hfrom, hlib⟩ := anchorIn_spec hread
  constructor
  · intro s hs
    exact (hfrom s hs).elim (hpath s) (hsegments s)
  · rcases hlib with hlib | ⟨lib, hcrate, hlib⟩
    · rw [hlib]
      exact h.lib
    · rw [hlib]
      exact List.mem_cons_of_mem _ (List.mem_cons_of_mem _ (List.mem_map_of_mem hcrate))

/-- A path that leads further is one of the pool. -/
theorem FromPools.mem_anchorPool {anchor : Anchor} (h : FromPools facts start anchor)
    (hnext : (followStep facts callerFile anchor).2 ≠ []) : anchor ∈ anchorPool facts start := by
  obtain ⟨next, hnext⟩ := List.exists_mem_of_ne_nil _ hnext
  obtain ⟨path, name, hsplit, row, hrow, -⟩ := exists_row_of_next hnext
  have hanchor := Anchor.exactSplit_eq_some hsplit
  obtain ⟨entry, hentry, rfl⟩ := List.mem_map.mp (pools_of_row start hrow).1
  refine List.mem_flatMap.mpr ⟨anchor.lib, h.lib, List.mem_flatMap.mpr ⟨entry, hentry, ?_⟩⟩
  refine List.mem_map.mpr ⟨name, h.names name ?_, hanchor.symm⟩
  rw [hanchor, Anchor.written_within]
  exact List.mem_append_right _ (List.mem_singleton_self name)

/-- The worklist runs empty. -/
theorem followRun_ends (facts : PathFacts) (callerFile : Str) (start : Anchor) :
    ∃ seen, followRun facts callerFile start = some seen := by
  refine Walk.walk_ends_under (P := FromPools facts start)
    (S := (anchorPool facts start).toFinset)
    (fun anchor => (followStep facts callerFile anchor).2.length)
    (fun _ h _ hnext => h.next hnext)
    (fun _ h hne => ⟨List.mem_toFinset.mpr (h.mem_anchorPool hne), Nat.le_refl _⟩) ?_ ?_
  · intro anchor hanchor
    rw [List.mem_singleton.mp hanchor]
    exact fromPools_self
  · rw [List.length_singleton, ← Walk.sum_toFinset_eq]
    exact Nat.add_le_add_left (Finset.sum_le_sum_of_subset Finset.sdiff_subset) _

end Ends

/-! ### What the steps reach -/

section Steps

variable (evidence : CrateEvidence) (rows : List (Str × ImportRow)) (callerFile : Str)

/-- The row stands in the module, in the crate that the path is read in. -/
def Held (anchor : Anchor) (path : List Str) (row : ImportRow) : Prop :=
  ∃ scope, (scope, row) ∈ rows ∧ scopeModulePath evidence scope = path ∧
    match anchor.lib with
    | some lib => libraryOwns evidence lib (extractFilePrefixOrSelf scope) = true
    | none => sameCrate evidence callerFile (extractFilePrefixOrSelf scope) = true

/-- An explicit `use` of the module binds the name. -/
def Bound (anchor : Anchor) (path : List Str) (name : Str) (row : ImportRow) : Prop :=
  Held evidence rows callerFile anchor path row ∧ row.isGlob = false ∧ row.binds = name

/-- One step: an explicit `use` that binds the name of the path replaces the path by the one it
writes. Where there is none, each glob adds the path that it would give. -/
inductive Leads : Anchor → Anchor → Prop
  | explicit {anchor next : Anchor} {path : List Str} {name : Str} {row : ImportRow} :
      anchor.exactSplit = some (path, name) → Bound evidence rows callerFile anchor path name row →
      anchorIn evidence anchor.lib path (pathSegments row.path) = some next → Leads anchor next
  | glob {anchor next : Anchor} {path : List Str} {name : Str} {row : ImportRow} :
      anchor.exactSplit = some (path, name) →
      (∀ other, ¬Bound evidence rows callerFile anchor path name other) →
      Held evidence rows callerFile anchor path row → row.isGlob = true →
      anchorIn evidence anchor.lib path (pathSegments row.path ++ [name]) = some next →
      Leads anchor next

/-- A path that has no step of its own stays. So does one whose name no explicit `use` binds, and
one where explicit `use`s that can be read bind it and all of them write the path itself. -/
def Stays (anchor : Anchor) : Prop :=
  ∀ path name, anchor.exactSplit = some (path, name) →
    (∀ row, ¬Bound evidence rows callerFile anchor path name row) ∨
      ((∃ row, Bound evidence rows callerFile anchor path name row ∧
        anchorIn evidence anchor.lib path (pathSegments row.path) = some anchor) ∧
      ∀ row next, Bound evidence rows callerFile anchor path name row →
        anchorIn evidence anchor.lib path (pathSegments row.path) = some next → next = anchor)

end Steps

section Closure

variable {evidence : CrateEvidence} {rows : List (Str × ImportRow)} {callerFile : Str}
  {facts : PathFacts}

/-- The facts hold the rows and are read with the evidence. -/
structure Reads (facts : PathFacts) (evidence : CrateEvidence) (rows : List (Str × ImportRow)) :
    Prop where
  evidence_eq : facts.evidence = evidence
  holds : Holds evidence facts.imports rows

theorem reads_load (idx : SymbolIndex) (evidence : CrateEvidence) (names : List Str)
    (rows : List (Str × ImportRow)) :
    Reads ⟨idx, evidence, ModuleImports.load evidence names rows⟩ evidence rows :=
  ⟨rfl, holds_load evidence names rows⟩

/-- Which rows there are matters, and not their order. -/
theorem reads_load_perm (idx : SymbolIndex) (evidence : CrateEvidence) (names : List Str)
    {rows' : List (Str × ImportRow)} (hperm : rows'.Perm rows) :
    Reads ⟨idx, evidence, ModuleImports.load evidence names rows'⟩ evidence rows := by
  obtain ⟨hevidence, hofScope, hhasScope, hscopesAt, hnodup⟩ := reads_load idx evidence names rows'
  simp only [hperm.mem_iff] at hofScope hhasScope hscopesAt
  exact ⟨hevidence, hofScope, hhasScope, hscopesAt, hnodup⟩

theorem Reads.mem_rowsOfModule_iff (h : Reads facts evidence rows) {anchor : Anchor}
    {path : List Str} {row : ImportRow} :
    row ∈ rowsOfModule facts callerFile anchor path ↔ Held evidence rows callerFile anchor path row := by
  obtain ⟨heq, hholds⟩ := h
  rw [Receiver.mem_rowsOfModule_iff, heq]
  refine exists_congr fun scope => ?_
  rw [hholds.scopesAt, hholds.ofScope]
  constructor
  · rintro ⟨⟨hat, -⟩, hrow, hcrate⟩
    exact ⟨hrow, hat, hcrate⟩
  · rintro ⟨hrow, hat, hcrate⟩
    exact ⟨⟨hat, row, hrow⟩, hrow, hcrate⟩

theorem Reads.mem_explicit_iff (h : Reads facts evidence rows) {anchor : Anchor} {path : List Str}
    {name : Str} {row : ImportRow} :
    row ∈ (rowsOfModule facts callerFile anchor path).filter
        (fun row => ¬ row.isGlob ∧ row.binds = name) ↔
      Bound evidence rows callerFile anchor path name row := by
  rw [List.mem_filter, h.mem_rowsOfModule_iff, decide_eq_true_iff, Bool.not_eq_true, Bound]

theorem stays_iff {anchor : Anchor} {path : List Str} {name : Str}
    (hsplit : anchor.exactSplit = some (path, name)) :
    Stays evidence rows callerFile anchor ↔
      (∀ row, ¬Bound evidence rows callerFile anchor path name row) ∨
        ((∃ row, Bound evidence rows callerFile anchor path name row ∧
          anchorIn evidence anchor.lib path (pathSegments row.path) = some anchor) ∧
        ∀ row next, Bound evidence rows callerFile anchor path name row →
          anchorIn evidence anchor.lib path (pathSegments row.path) = some next → next = anchor) := by
  refine ⟨fun hstays => hstays path name hsplit, fun hstays path' name' heq => ?_⟩
  rw [hsplit] at heq
  cases heq
  exact hstays

theorem leads_iff {anchor next : Anchor} {path : List Str} {name : Str}
    (hsplit : anchor.exactSplit = some (path, name)) :
    Leads evidence rows callerFile anchor next ↔
      (∃ row, Bound evidence rows callerFile anchor path name row ∧
        anchorIn evidence anchor.lib path (pathSegments row.path) = some next) ∨
      ((∀ row, ¬Bound evidence rows callerFile anchor path name row) ∧
        ∃ row, (Held evidence rows callerFile anchor path row ∧ row.isGlob = true) ∧
          anchorIn evidence anchor.lib path (pathSegments row.path ++ [name]) = some next) := by
  constructor
  · intro hleads
    cases hleads with
    | explicit heq hrow hread =>
        rw [hsplit] at heq
        cases heq
        exact .inl ⟨_, hrow, hread⟩
    | glob heq hfree hheld hglob hread =>
        rw [hsplit] at heq
        cases heq
        exact .inr ⟨hfree, _, ⟨hheld, hglob⟩, hread⟩
  · rintro (⟨row, hrow, hread⟩ | ⟨hfree, row, ⟨hheld, hglob⟩, hread⟩)
    · exact .explicit hsplit hrow hread
    · exact .glob hsplit hfree hheld hglob hread

/-- A turn at a path whose name no explicit `use` binds. -/
theorem Reads.followStep_free (h : Reads facts evidence rows) {anchor : Anchor} {path : List Str}
    {name : Str} (hsplit : anchor.exactSplit = some (path, name))
    (hfree : ∀ row, ¬Bound evidence rows callerFile anchor path name row) :
    (followStep facts callerFile anchor).1 = true ∧
      ∀ next, next ∈ (followStep facts callerFile anchor).2 ↔
        Leads evidence rows callerFile anchor next := by
  have hnone : (rowsOfModule facts callerFile anchor path).filter
      (fun row => ¬ row.isGlob ∧ row.binds = name) = [] := by
    rw [List.eq_nil_iff_forall_not_mem]
    exact fun row hrow => hfree row (h.mem_explicit_iff.mp hrow)
  rw [followStep, hsplit, h.evidence_eq]
  dsimp only
  rw [if_pos hnone]
  refine ⟨rfl, fun next => ?_⟩
  rw [leads_iff hsplit, List.mem_filterMap]
  simp only [List.mem_filter, h.mem_rowsOfModule_iff]
  constructor
  · exact fun hnext => .inr ⟨hfree, hnext⟩
  · rintro (⟨row, hrow, -⟩ | ⟨-, hnext⟩)
    · exact absurd hrow (hfree row)
    · exact hnext

/-! Where explicit `use`s bind the name, what they write decides. -/

section Written

variable {anchor : Anchor} {path : List Str} {name : Str}
  (hsplit : anchor.exactSplit = some (path, name)) {bound : ImportRow}
  (hbound : Bound evidence rows callerFile anchor path name bound) {written : List Anchor}
  (hwritten : ∀ next, next ∈ written ↔ ∃ row, Bound evidence rows callerFile anchor path name row ∧
    anchorIn evidence anchor.lib path (pathSegments row.path) = some next)

include hsplit hbound hwritten

theorem leads_iff_written {next : Anchor} :
    Leads evidence rows callerFile anchor next ↔ next ∈ written := by
  rw [leads_iff hsplit, hwritten]
  exact or_iff_left fun hglob => hglob.1 bound hbound

/-- The path stays where the path itself is all that is written. -/
theorem stays_iff_written :
    Stays evidence rows callerFile anchor ↔ written ≠ [] ∧ ∀ next ∈ written, next = anchor := by
  rw [stays_iff hsplit]
  constructor
  · rintro (hfree | ⟨hread, hall⟩)
    · exact absurd hbound (hfree bound)
    · refine ⟨List.ne_nil_of_mem ((hwritten anchor).mpr hread), fun next hnext => ?_⟩
      obtain ⟨row, hrow, hread⟩ := (hwritten next).mp hnext
      exact hall row next hrow hread
  · rintro ⟨hne, hall⟩
    refine .inr ⟨?_, fun row next hrow hread => hall next ((hwritten next).mpr ⟨row, hrow, hread⟩)⟩
    obtain ⟨next, hnext⟩ := List.exists_mem_of_ne_nil _ hne
    obtain rfl := hall next hnext
    exact (hwritten next).mp hnext

end Written

/-- A turn at a path whose name explicit `use`s bind: it stays where they all write the path
itself, and is replaced by what they write elsewhere. -/
theorem Reads.followStep_bound (h : Reads facts evidence rows) {anchor : Anchor} {path : List Str}
    {name : Str} (hsplit : anchor.exactSplit = some (path, name)) {bound : ImportRow}
    (hbound : Bound evidence rows callerFile anchor path name bound) :
    ((followStep facts callerFile anchor).1 = true ↔ Stays evidence rows callerFile anchor) ∧
      (∀ next, next ∈ (followStep facts callerFile anchor).2 →
        Leads evidence rows callerFile anchor next) ∧
      ∀ next, Leads evidence rows callerFile anchor next →
        next = anchor ∨ next ∈ (followStep facts callerFile anchor).2 := by
  have hexplicit : ∀ row, row ∈ (rowsOfModule facts callerFile anchor path).filter
      (fun row => ¬ row.isGlob ∧ row.binds = name) ↔
        Bound evidence rows callerFile anchor path name row := fun row => h.mem_explicit_iff
  rw [followStep, hsplit, h.evidence_eq]
  dsimp only
  generalize (rowsOfModule facts callerFile anchor path).filter
    (fun row => ¬ row.isGlob ∧ row.binds = name) = explicit at hexplicit
  have hwritten : ∀ next, next ∈ explicit.filterMap (fun row =>
      anchorIn evidence anchor.lib path (pathSegments row.path)) ↔
        ∃ row, Bound evidence rows callerFile anchor path name row ∧
          anchorIn evidence anchor.lib path (pathSegments row.path) = some next := by
    intro next
    simp only [List.mem_filterMap, hexplicit]
  rw [if_neg (List.ne_nil_of_mem ((hexplicit bound).mpr hbound)),
    stays_iff_written hsplit hbound hwritten]
  simp only [leads_iff_written hsplit hbound hwritten]
  generalize explicit.filterMap (fun row =>
    anchorIn evidence anchor.lib path (pathSegments row.path)) = written
  by_cases hself : written ≠ [] ∧ ∀ next ∈ written, next = anchor
  · rw [if_pos hself]
    refine ⟨iff_of_true rfl hself, ?_, fun next hnext => .inl (hself.2 next hnext)⟩
    intro next hnext
    cases hnext
  · rw [if_neg hself]
    exact ⟨iff_of_false Bool.false_ne_true hself, fun _ hnext => hnext, fun _ hnext => .inr hnext⟩

/-- What one turn returns and puts on the worklist. -/
theorem Reads.followStep_spec (h : Reads facts evidence rows) (anchor : Anchor) :
    ((followStep facts callerFile anchor).1 = true ↔ Stays evidence rows callerFile anchor) ∧
      (∀ next, next ∈ (followStep facts callerFile anchor).2 →
        Leads evidence rows callerFile anchor next) ∧
      ∀ next, Leads evidence rows callerFile anchor next →
        next = anchor ∨ next ∈ (followStep facts callerFile anchor).2 := by
  cases hsplit : anchor.exactSplit with
  | none =>
      have hnot : ∀ path name, anchor.exactSplit ≠ some (path, name) := by
        intro path name heq
        rw [hsplit] at heq
        cases heq
      rw [followStep, hsplit]
      refine ⟨iff_of_true rfl fun path name heq => absurd heq (hnot path name), ?_, ?_⟩
      · intro next hnext
        cases hnext
      · intro next hleads
        cases hleads with
        | explicit heq _ _ => exact absurd heq (hnot _ _)
        | glob heq _ _ _ _ => exact absurd heq (hnot _ _)
  | some split =>
      obtain ⟨path, name⟩ := split
      by_cases hbound : ∃ row, Bound evidence rows callerFile anchor path name row
      · obtain ⟨bound, hbound⟩ := hbound
        exact h.followStep_bound hsplit hbound
      · have hfree := not_exists.mp hbound
        obtain ⟨hstays, hnext⟩ := h.followStep_free hsplit hfree
        refine ⟨iff_of_true hstays ((stays_iff hsplit).mpr (.inl hfree)), ?_, ?_⟩
        · exact fun next => (hnext next).mp
        · exact fun next hleads => .inr ((hnext next).mpr hleads)

/-- The paths returned are those that can be reached and stay. -/
theorem Reads.mem_follow_iff (h : Reads facts evidence rows) {start anchor : Anchor} :
    anchor ∈ follow facts callerFile start ↔
      Relation.ReflTransGen (Leads evidence rows callerFile) start anchor ∧
        Stays evidence rows callerFile anchor := by
  obtain ⟨seen, hrun⟩ := followRun_ends facts callerFile start
  have hreach : ∀ anchor, anchor ∈ seen ↔
      Relation.ReflTransGen (Leads evidence rows callerFile) start anchor := by
    intro anchor
    rw [Walk.mem_walk_iff hrun]
    constructor
    · intro hway
      induction hway with
      | refl => exact .refl
      | tail _ hstep ih => exact ih.tail ((h.followStep_spec _).2.1 _ hstep)
    · intro hway
      induction hway with
      | refl => exact .refl
      | tail _ hleads ih =>
          rcases (h.followStep_spec _).2.2 _ hleads with rfl | hstep
          · exact ih
          · exact ih.tail hstep
  rw [follow, hrun, Option.getD_some, List.mem_filter, hreach]
  exact and_congr_right fun _ => (h.followStep_spec anchor).1

/-- Following ends, and what it returns are the paths that can be reached from the first one and
stay, whatever the order of the rows. -/
theorem follow_closure (idx : SymbolIndex) (evidence : CrateEvidence) (names : List Str)
    (rows : List (Str × ImportRow)) (callerFile : Str) (start : Anchor) :
    let facts : PathFacts := ⟨idx, evidence, ModuleImports.load evidence names rows⟩
    (∃ seen, followRun facts callerFile start = some seen) ∧
      (∀ anchor, anchor ∈ follow facts callerFile start ↔
        Relation.ReflTransGen (Leads evidence rows callerFile) start anchor ∧
          Stays evidence rows callerFile anchor) ∧
      ∀ rows' : List (Str × ImportRow), rows'.Perm rows → ∀ anchor,
        anchor ∈ follow ⟨idx, evidence, ModuleImports.load evidence names rows'⟩ callerFile start ↔
          anchor ∈ follow facts callerFile start := by
  intro facts
  have hreads := reads_load idx evidence names rows
  refine ⟨followRun_ends facts callerFile start, fun anchor => hreads.mem_follow_iff, ?_⟩
  intro rows' hperm anchor
  have hreads' := reads_load_perm idx evidence names hperm
  rw [hreads'.mem_follow_iff, hreads.mem_follow_iff]

/-- The crate of one file. -/
def oneCrate : CrateEvidence where
  known := false
  crateNames := []
  targets := []
  owners := []
  logicalModules := []

def rootFacts (rows : List (Str × ImportRow)) : PathFacts :=
  ⟨buildSymbolIndex fun _ => [], oneCrate, ModuleImports.load oneCrate [] rows⟩

def useAs (path name : String) : Str × ImportRow :=
  ("src/lib.rs".toList, ⟨path.toList, name.toList, false⟩)

/-- A path whose `use` climbs past the root is not returned, although that `use` leads nowhere. With
a second `use` that writes the path itself it is returned, although the first does not. -/
theorem not_follow_elsewhere :
    let lost := [useAs "super::b" "a"]
    let kept := [useAs "super::b" "a", useAs "crate::a" "a"]
    let start := Anchor.crateRoot ["a".toList]
    ((∀ path name row next, start.exactSplit = some (path, name) →
        Bound oneCrate lost "src/lib.rs".toList start path name row →
        anchorIn oneCrate start.lib path (pathSegments row.path) = some next → next = start) ∧
      start ∉ follow (rootFacts lost) "src/lib.rs".toList start) ∧
    (∃ path name row, start.exactSplit = some (path, name) ∧
        Bound oneCrate kept "src/lib.rs".toList start path name row ∧
        anchorIn oneCrate start.lib path (pathSegments row.path) ≠ some start) ∧
      start ∈ follow (rootFacts kept) "src/lib.rs".toList start := by
  refine ⟨⟨?_, by decide +kernel⟩, ⟨[], "a".toList, (useAs "super::b" "a").2, rfl, ?_, ?_⟩,
    by decide +kernel⟩
  · intro path name row next hsplit hbound hread
    cases hsplit
    obtain ⟨⟨scope, hrow, -⟩, -⟩ := hbound
    cases List.mem_singleton.mp hrow
    have hlost : anchorIn oneCrate none [] (pathSegments "super::b".toList) = none := by
      decide +kernel
    cases hlost.symm.trans hread
  · exact ⟨⟨"src/lib.rs".toList, List.mem_cons_self, by decide +kernel, rfl⟩, rfl, by decide +kernel⟩
  · decide +kernel

end Closure

end AutomatisedPipeline.Receiver
