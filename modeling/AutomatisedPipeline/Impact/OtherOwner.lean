import AutomatisedPipeline.Impact.Names
import AutomatisedPipeline.Resolver.CallSites
import AutomatisedPipeline.Store.Ddl

/-!
Which open call sites that share the target's bare name name another owner
(`clustering/impact_other_owner.rs`).

The filter of the source remembers what it has read about a type name, so it puts each
query once; here the query is put for each site.
-/

namespace AutomatisedPipeline.Impact

open Text Cypher Store

/-! ### The facts of the graph -/

/-- `exists`. -/
def existsRow (q : Query Table) : GraphM (Option Bool) := do
  match ← runQuery q with
  | none => return none
  | some rows => return some (rows.any fun row => !row.isEmpty)

/-- `exists` says whether the engine finds a match. -/
theorem run_existsRow {missing : Table → List String} {g : Graph (storedSchema missing)}
    (engine : Engine g) {q : Query Table} {name : Var × String}
    {keys : List (Var × String)} (hreturns : q.returns = .columns (name :: keys))
    (hlimit : q.limit = some 1) :
    ((existsRow q).run engine.answer).getD false = true ↔ engine.Finds q := by
  rw [existsRow, Asks.run_bind, runQuery, Asks.run_question, Engine.Finds]
  cases h : engine.answer (.query q) with
  | none => exact iff_of_false Bool.false_ne_true fun hfinds => Bool.false_ne_true hfinds.1
  | some rows =>
      rw [← engine.rows_ne_nil h hreturns (by simp [hlimit])]
      have hwide : ∀ row ∈ rows, row ≠ [] := by
        have hanswer := engine.sound _ _ h
        simp only [Answers, hreturns] at hanswer
        obtain ⟨found, -, rfl⟩ := hanswer
        intro row hrow
        rw [hlimit] at hrow
        obtain ⟨get, -, rfl⟩ := List.mem_map.mp (List.mem_of_mem_take hrow)
        exact List.cons_ne_nil _ _
      change (rows.any fun row => !row.isEmpty) = true ↔ true = true ∧ rows ≠ []
      rw [and_iff_right rfl, List.any_eq_true]
      constructor
      · rintro ⟨row, hrow, -⟩
        exact List.ne_nil_of_mem hrow
      · intro hne
        obtain ⟨row, hrow⟩ := List.exists_mem_of_ne_nil rows hne
        exact ⟨row, hrow, by simpa using hwide row hrow⟩

/-- The query for a node of a label by one of its columns. -/
def nodeByColumn (label : NodeLabel) (column : String) (value : Str) : Query Table where
  pattern := .node (.code label)
  cond := .eq .a column value
  returns := .columns [(.a, "id")]
  limit := some 1

/-- `is_repo_type`. -/
def isRepoType (name : Str) : GraphM Bool :=
  [NodeLabel.struct, .enum].anyM fun label => do
    return (← existsRow (nodeByColumn label "name" name)) == some true

/-- `is_aliased`. -/
def isAliased (name : Str) : GraphM Bool :=
  [(NodeLabel.typeAlias, "name"), (.«import», "alias")].anyM fun source => do
    return (← existsRow (nodeByColumn source.1 source.2 name)) != some false

/-- The query of `type_derefs`. -/
def derefQuery (name : Str) : Query Table where
  pattern := .node (.code .method)
  cond := .and (.contains .a "trait_name" "Deref".toList)
    (.contains .a "receiver_type" ("::".toList ++ name))
  returns := .columns [(.a, "id")]
  limit := some 1

/-- `type_derefs`. -/
def typeDerefs (name : Str) : GraphM Bool := do
  return (← existsRow (derefQuery name)) != some false

/-! ### The filter -/

/-- `CLOSED_STD_TYPES`. -/
def closedStdTypes : List Str :=
  ["bool", "char", "str", "u8", "u16", "u32", "u64", "u128", "usize", "i8", "i16", "i32", "i64",
    "i128", "isize", "f32", "f64", "String", "Vec", "VecDeque", "HashMap", "HashSet", "BTreeMap",
    "BTreeSet", "BinaryHeap", "Option", "Result"].map String.toList

/-- `RUST`. -/
def rust : Str := "rust".toList

/-- `SiteSpelling`. -/
structure SiteSpelling where
  callee : Str
  receiverHint : Str
  reason : Str
  language : Str

/-- `OtherOwnerFilter`, without what it remembers. -/
structure OtherOwnerFilter where
  owner : Str
  traitName : Option Str
deriving DecidableEq

/-- The query of `for_target` for the method that is the target. -/
def targetMethodQuery (esc : Str) : Query Table where
  pattern := .node (.code .method)
  cond := .and (.or (.eq .a "id" esc) (.eq .a "qualified_name" esc)) (.eq .a "language" rust)
  returns := .columns [(.a, "receiver_type"), (.a, "trait_name")]
  limit := some 1

/-- `OtherOwnerFilter::for_target`. -/
def OtherOwnerFilter.forTarget (esc : Str) : GraphM (Option OtherOwnerFilter) := do
  match (← runQuery (targetMethodQuery esc)).bind List.head? with
  | none => return none
  | some row =>
      let ownerQn := stripGenerics (Indexer.trim (cell row 0))
      let traitName := afterLast "::".toList (stripGenerics (Indexer.trim (cell row 1)))
      let concrete ← [NodeLabel.struct, .enum].anyM fun label => do
        return (← existsRow (nodeByColumn label "qualified_name" ownerQn)) == some true
      let owner := afterLast "::".toList ownerQn
      if concrete && !owner.isEmpty then
        return some { owner := owner, traitName := if traitName.isEmpty then none else some traitName }
      else return none

/-- `is_self_or_owner`. -/
def OtherOwnerFilter.isSelfOrOwner (filter : OtherOwnerFilter) (name : Str) : Bool :=
  name == "Self".toList || name == "self".toList || name == filter.owner

/-- `path_is_another_owner`. -/
def OtherOwnerFilter.pathIsAnotherOwner (filter : OtherOwnerFilter) (qualifier reason : Str) :
    GraphM Bool := do
  if filter.isSelfOrOwner qualifier then return false
  if ← isAliased qualifier then return false
  if ← isRepoType qualifier then return true
  if reason ≠ Resolver.Reason.externalCallee.text then return false
  match filter.traitName with
  | none => return true
  | some _ => return closedStdTypes.contains qualifier

/-- `receiver_is_another_type`. -/
def OtherOwnerFilter.receiverIsAnotherType (filter : OtherOwnerFilter) (hint : Str) :
    GraphM Bool := do
  match hintTypeName hint with
  | none => return false
  | some name =>
      if filter.isSelfOrOwner name then return false
      if ← isAliased name then return false
      if ← isRepoType name then return !(← typeDerefs name)
      return closedStdTypes.contains name

/-- `OtherOwnerFilter::excludes`. -/
def OtherOwnerFilter.excludes (filter : OtherOwnerFilter) (site : SiteSpelling) : GraphM Bool :=
  if site.language ≠ rust then return false
  else if '.' ∈ site.callee then filter.receiverIsAnotherType site.receiverHint
  else
    match calleeNamesType site.callee with
    | some qualifier => filter.pathIsAnotherOwner qualifier site.reason
    | none => return false

/-- The spelling of the site that a row is about. -/
def siteSpelling (row : Row) : SiteSpelling where
  callee := cell row 2
  receiverHint := cell row 4
  reason := cell row 1
  language := cell row 3

/-- `drop_other_owner_sites`. -/
def dropOtherOwnerSites (esc : Str) (rows : List Row) : GraphM (List Row × Nat) := do
  match ← OtherOwnerFilter.forTarget esc with
  | none => return (rows, 0)
  | some filter =>
      let kept ← Asks.collect (fun row => do
        if ← filter.excludes (siteSpelling row) then return [] else return [row]) rows
      return (kept, rows.length - kept.length)

/-! ### What is left out -/

variable (answer : GraphStatement → GraphAnswer)

/-- The site of a row is left out of the count of the target. -/
def Excluded (esc : Str) (row : Row) : Bool :=
  match (OtherOwnerFilter.forTarget esc).run answer with
  | none => false
  | some filter => (filter.excludes (siteSpelling row)).run answer

theorem run_dropOtherOwnerSites (esc : Str) (rows : List Row) :
    (dropOtherOwnerSites esc rows).run answer =
      (rows.filter fun row => !Excluded answer esc row, rows.countP (Excluded answer esc)) := by
  rw [dropOtherOwnerSites, Asks.run_bind]
  unfold Excluded
  cases (OtherOwnerFilter.forTarget esc).run answer with
  | none => simp
  | some filter =>
      have hkept : (Asks.collect (fun row => do
            if ← filter.excludes (siteSpelling row) then return [] else return [row])
          rows).run answer =
          rows.filter fun row => !(filter.excludes (siteSpelling row)).run answer := by
        rw [Asks.run_collect]
        induction rows with
        | nil => rfl
        | cons row rows ih =>
            rw [List.flatMap_cons, ih]
            cases h : (filter.excludes (siteSpelling row)).run answer <;> simp [h]
      simp only [Asks.run_bind, Asks.run_pure, hkept, Prod.mk.injEq, true_and]
      rw [← List.countP_eq_length_filter, List.length_eq_countP_add_countP
        (fun row => (filter.excludes (siteSpelling row)).run answer) (l := rows)]
      simp

end AutomatisedPipeline.Impact
