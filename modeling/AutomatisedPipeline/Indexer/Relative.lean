import AutomatisedPipeline.Indexer.LightLink
import AutomatisedPipeline.Resolver.Includes

/-!
Relative references (`resolve_exact`, `resolve_specifier`). A reference that starts with `./` or
`../` is read from the directory of the file it stands in. Where that names no indexed file it is
read once more from the root of the repository, as references in documents often are.
-/

namespace AutomatisedPipeline.Indexer

open Text Includes

/-! ### What a reference names -/

/-- A reference that is read from a directory. -/
def Relative (spec : Str) : Prop := "./".toList <+: spec ∨ "../".toList <+: spec

instance (spec : Str) : Decidable (Relative spec) := inferInstanceAs (Decidable (_ ∨ _))

/-- The id of the file at a path. -/
def fileIdOf (parts : List Str) : Str :=
  (join ['/'] parts).map fun c => if c = '\\' then '/' else c

/-- The lexical resolution of a reference from a directory. There is none where a `..` climbs above
the root. -/
def Names (dir : List Str) (spec id : Str) : Prop :=
  ∃ parts, Leads [] (dir ++ spec.splitOn '/') parts ∧ fileIdOf parts = id

/-- The reference does not climb above the root from this directory. -/
def Stays (dir : List Str) (spec : Str) : Prop := ∃ id, Names dir spec id

theorem names_iff {dir : List Str} {spec id : Str} : Names dir spec id ↔
    (((dir ++ spec.splitOn '/').foldlM foldSegment []).map fileIdOf) = some id := by
  rw [Option.map_eq_some_iff]
  exact exists_congr fun parts => and_congr_left' foldlM_foldSegment.symm

instance (dir : List Str) (spec id : Str) : Decidable (Names dir spec id) :=
  decidable_of_iff _ names_iff.symm

theorem stays_iff {dir : List Str} {spec : Str} :
    Stays dir spec ↔ ((dir ++ spec.splitOn '/').foldlM foldSegment []).isSome = true := by
  rw [← Option.isSome_map (f := fileIdOf), Option.isSome_iff_exists]
  exact exists_congr fun id => names_iff

instance (dir : List Str) (spec : Str) : Decidable (Stays dir spec) :=
  decidable_of_iff _ stays_iff.symm

/-- Where no `..` climbs above the root, dropping it there makes no difference. -/
theorem normalizeFrom_of_leads {out segs parts : List Str} (h : Leads out segs parts) :
    normalizeFrom out (segs.filter fun part => part ≠ [] ∧ part ≠ ['.']) = parts := by
  induction h with
  | here => rfl
  | stay hskip _ ih =>
      rw [List.filter_cons_of_neg, ih]
      rw [decide_eq_true_iff, not_and_or, not_not, not_not]
      exact hskip
  | @up dir rest parts name _ ih =>
      rw [List.filter_cons_of_pos (by decide), normalizeFrom, List.foldl_cons, if_pos rfl,
        List.dropLast_concat]
      exact ih
  | @down dir rest parts segment hne hdot hup _ ih =>
      have hkeep : decide (segment ≠ [] ∧ segment ≠ ['.']) = true := decide_eq_true ⟨hne, hdot⟩
      rw [List.filter_cons, if_pos hkeep, normalizeFrom, List.foldl_cons, if_neg hup]
      exact ih

theorem filter_parentParts (fromId : Str) :
    ((parentParts fromId).filter fun part => part ≠ [] ∧ part ≠ ['.']) = parentParts fromId := by
  apply List.filter_eq_self.mpr
  intro part hpart
  exact (List.mem_filter.mp (List.mem_of_mem_dropLast hpart)).2

theorem Relative.not_absolute {spec : Str} (h : Relative spec) : ['/'].isPrefixOf spec = false := by
  rcases h with ⟨rest, rfl⟩ | ⟨rest, rfl⟩ <;> rfl

/-- A reference that stays in the repository is normalized to what it names. -/
theorem normalizeJoin_of_names {dir : List Str} {spec id : Str} (hspec : Relative spec)
    (hdir : (dir.filter fun part => part ≠ [] ∧ part ≠ ['.']) = dir) (h : Names dir spec id) :
    normalizeJoin dir spec = id := by
  obtain ⟨parts, hleads, rfl⟩ := h
  have hparts := normalizeFrom_of_leads hleads
  rw [List.filter_append, hdir] at hparts
  rw [normalizeJoin, hspec.not_absolute, if_neg Bool.false_ne_true, fileIdOf, ← hparts]
  rw [normalizeFrom, normalizeFrom, normalizeFrom, List.foldl_append]
  rfl

/-! ### What a reference is resolved to -/

/-- The first indexed file among a path followed by each of the suffixes. -/
def firstIndexed (suffixes : List String) (fileIds : List Str) (base : Str) : Option Str :=
  if base = [] then none
  else (suffixes.map fun suffix => base ++ suffix.toList).find? (· ∈ fileIds)

theorem find_candidatePaths (suffixes : List String) (fromId spec : Str) (fileIds : List Str) :
    ((candidatePaths fromId spec).flatMap fun base =>
        suffixes.map fun suffix => base ++ suffix.toList).find? (· ∈ fileIds) =
      (firstIndexed suffixes fileIds (normalizeJoin (parentParts fromId) spec)).or
        (firstIndexed suffixes fileIds (normalizeJoin [] spec)) := by
  rw [candidatePaths, firstIndexed, firstIndexed]
  generalize normalizeJoin (parentParts fromId) spec = near
  generalize normalizeJoin [] spec = far
  by_cases hnear : near = [] <;> by_cases hfar : far = [] <;> simp [hnear, hfar]

/-- A relative reference is read lexically: from the directory of its file, and from the root
where that finds no indexed file. Of readings that climb above the root nothing is said. -/
structure ReadLexically (suffixes : List String) (fromId spec : Str) (fileIds : List Str)
    (resolved : Option Str) : Prop where
  near : ∀ base target, Names (parentParts fromId) spec base →
    firstIndexed suffixes fileIds base = some target → resolved = some target
  far : ∀ base top, Names (parentParts fromId) spec base →
    firstIndexed suffixes fileIds base = none → Names [] spec top →
      resolved = firstIndexed suffixes fileIds top
  only : ∀ target, resolved = some target → Stays (parentParts fromId) spec → Stays [] spec →
    (∃ base, Names (parentParts fromId) spec base ∧
      firstIndexed suffixes fileIds base = some target) ∨
    ∃ base top, Names (parentParts fromId) spec base ∧
      firstIndexed suffixes fileIds base = none ∧ Names [] spec top ∧
      firstIndexed suffixes fileIds top = some target

theorem readLexically_or {suffixes : List String} {fromId spec : Str} {fileIds : List Str}
    (hspec : Relative spec) : ReadLexically suffixes fromId spec fileIds
      ((firstIndexed suffixes fileIds (normalizeJoin (parentParts fromId) spec)).or
        (firstIndexed suffixes fileIds (normalizeJoin [] spec))) := by
  have hnear : ∀ base, Names (parentParts fromId) spec base →
      normalizeJoin (parentParts fromId) spec = base := fun base =>
    normalizeJoin_of_names hspec (filter_parentParts fromId)
  have hfar : ∀ top, Names [] spec top → normalizeJoin [] spec = top := fun top =>
    normalizeJoin_of_names hspec rfl
  constructor
  · intro base target hbase hfound
    rw [hnear base hbase, hfound]
    rfl
  · intro base top hbase hmissing htop
    rw [hnear base hbase, hmissing, hfar top htop]
    rfl
  · intro target hresolved hstay hroot
    obtain ⟨base, hbase⟩ := hstay
    obtain ⟨top, htop⟩ := hroot
    rw [hnear base hbase, hfar top htop, Option.or_eq_some_iff] at hresolved
    rcases hresolved with hfound | ⟨hmissing, hfound⟩
    · exact .inl ⟨base, hbase, hfound⟩
    · exact .inr ⟨base, top, hbase, hmissing, htop, hfound⟩

/-- The resolvers for documents and scripts and for JavaScript read relative references
lexically, the second one with the suffixes that Node tries. -/
theorem resolve_relative_lexical {fromId spec : Str} (hspec : Relative spec) (fileIds : List Str) :
    ReadLexically [""] fromId spec fileIds (resolveExact fromId spec fileIds) ∧
      ReadLexically jsResolveSuffixes fromId spec fileIds
        (resolveSpecifier fromId spec fileIds) := by
  constructor
  · have h := find_candidatePaths [""] fromId spec fileIds
    simp only [List.map_cons, List.map_nil, String.toList_empty, List.append_nil,
      List.flatMap_singleton'] at h
    rw [resolveExact, h]
    exact readLexically_or hspec
  · rw [resolveSpecifier, find_candidatePaths]
    exact readLexically_or hspec

theorem resolve_relative_lexical_sibling :
    Relative "./x.md".toList ∧
      ReadLexically [""] "a/b.md".toList "./x.md".toList ["a/x.md".toList]
        (resolveExact "a/b.md".toList "./x.md".toList ["a/x.md".toList]) :=
  ⟨by decide, (resolve_relative_lexical (by decide) _).1⟩

/-- A reference to a missing sibling is resolved to the file of that name at the root, and so is
one that climbs out of the repository. -/
theorem not_resolveExact_sibling :
    (Relative "./x.md".toList ∧
      resolveExact "a/b.md".toList "./x.md".toList ["x.md".toList] = some "x.md".toList ∧
      ¬Names (parentParts "a/b.md".toList) "./x.md".toList "x.md".toList) ∧
    Relative "../x.md".toList ∧ ¬Stays (parentParts "a.md".toList) "../x.md".toList ∧
      resolveExact "a.md".toList "../x.md".toList ["x.md".toList] = some "x.md".toList := by
  decide +kernel

end AutomatisedPipeline.Indexer
