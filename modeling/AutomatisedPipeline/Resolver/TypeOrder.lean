import AutomatisedPipeline.Logic.FirstMatch
import AutomatisedPipeline.Resolver.TypeEdges

/-!
The type-level edges against the order of the rows.

Each lookup takes the first row of a label that has a name, and gives it up where it is one
of several twins. So the edges do not depend on the order of the rows exactly when the
first row could be no other one: an acceptable row is the only row of its name
(`BindsOne`, `typeEdges_orderFree_iff`).
-/

namespace AutomatisedPipeline.Resolver

open Text Impact FirstMatch
open Indexer (trim)

/-! ### What the index has of a name -/

/-- The rows of a label that have the name. -/
def rowsNamed (symbols : SymbolLabel → List SymbolRow) (label : SymbolLabel) (name : Str) :
    List SymbolRow := (symbols label).filter fun row => row.name = name

theorem mem_rowsNamed {symbols : SymbolLabel → List SymbolRow} {label : SymbolLabel} {name : Str}
    {row : SymbolRow} : row ∈ rowsNamed symbols label name ↔
      row ∈ symbols label ∧ row.name = name := by
  simp [rowsNamed]

theorem byName_foldl_insert (label : SymbolLabel) (rows : List SymbolRow) (idx : SymbolIndex)
    (name : Str) : (rows.foldl (SymbolIndex.insert label) idx).byName name =
      idx.byName name ++ (rows.filter fun row => row.name = name).map (SymbolRow.entry label) := by
  induction rows generalizing idx with
  | nil => simp
  | cons row rows ih =>
      rw [List.foldl_cons, ih]
      by_cases h : row.name = name
      · subst h
        simp [SymbolIndex.insert]
      · simp [SymbolIndex.insert, h, Function.update_of_ne (Ne.symm h)]

theorem byName_buildSymbolIndex (symbols : SymbolLabel → List SymbolRow) (name : Str) :
    (buildSymbolIndex symbols).byName name = symbolLabels.flatMap fun label =>
      (rowsNamed symbols label name).map (SymbolRow.entry label) := by
  have main : ∀ (labels : List SymbolLabel) (idx : SymbolIndex),
      (labels.foldl (fun idx label => (symbols label).foldl (SymbolIndex.insert label) idx)
        idx).byName name = idx.byName name ++ labels.flatMap fun label =>
          (rowsNamed symbols label name).map (SymbolRow.entry label) := by
    intro labels
    induction labels with
    | nil => simp
    | cons label labels ih =>
        intro idx
        rw [List.foldl_cons, ih, byName_foldl_insert, List.flatMap_cons, List.append_assoc]
        rfl
  exact main symbolLabels _

theorem byQn_foldl_insert (label : SymbolLabel) (rows : List SymbolRow) (idx : SymbolIndex)
    (qn : Str) : (rows.foldl (SymbolIndex.insert label) idx).byQn qn =
      ((rows.reverse.find? fun row => row.qualifiedName = qn).map (SymbolRow.entry label)).or
        (idx.byQn qn) := by
  induction rows generalizing idx with
  | nil => rfl
  | cons row rows ih =>
      rw [List.foldl_cons, ih, List.reverse_cons, List.find?_append]
      by_cases h : row.qualifiedName = qn
      · subst h
        cases rows.reverse.find? fun r => r.qualifiedName = row.qualifiedName with
        | none => simp [SymbolIndex.insert]
        | some r => simp
      · simp [SymbolIndex.insert, h, Function.update_of_ne (Ne.symm h)]

/-- The entries of a label among those of a name. -/
theorem filter_byName (symbols : SymbolLabel → List SymbolRow) (p : SymbolLabel → Bool)
    (name : Str) : ((buildSymbolIndex symbols).byName name).filter (fun e => p e.label) =
      (symbolLabels.filter p).flatMap fun label =>
        (rowsNamed symbols label name).map (SymbolRow.entry label) := by
  rw [byName_buildSymbolIndex, List.filter_flatMap]
  induction symbolLabels with
  | nil => rfl
  | cons label labels ih =>
      have hrow : ((rowsNamed symbols label name).map (SymbolRow.entry label)).filter
          (fun e => p e.label) =
            if p label then (rowsNamed symbols label name).map (SymbolRow.entry label) else [] := by
        cases hp : p label with
        | true => simp [SymbolRow.entry, hp]
        | false => simp [SymbolRow.entry, hp]
      rw [List.flatMap_cons, ih, hrow]
      cases hp : p label with
      | true => simp [hp]
      | false => simp [hp]

theorem find_label (symbols : SymbolLabel → List SymbolRow) (label : SymbolLabel) (name : Str) :
    ((buildSymbolIndex symbols).byName name).find? (fun e => e.label = label) =
      (rowsNamed symbols label name).head?.map (SymbolRow.entry label) := by
  have hlabel : symbolLabels.filter (fun l => decide (l = label)) = [label] := by
    cases label <;> decide
  rw [← List.head?_filter, filter_byName symbols (fun l => decide (l = label)), hlabel,
    List.flatMap_singleton, List.head?_map]

/-! ### Two orders of the same rows -/

/-- The same rows, each answer in an order of its own. -/
structure SameRows (t t' : TypeTables) : Prop where
  symbols : ∀ label, (t.symbols label).Perm (t'.symbols label)
  imports : t.imports.Perm t'.imports
  implementing : ∀ label, (t.implementing label).Perm (t'.implementing label)
  implBlocks : t.implBlocks.Perm t'.implBlocks
  bases : ∀ label, (t.bases label).Perm (t'.bases label)
  fields : t.fields.Perm t'.fields
  callables : ∀ caller, (t.callables caller).Perm (t'.callables caller)

theorem SameRows.refl (t : TypeTables) : SameRows t t :=
  ⟨fun _ => .refl _, .refl _, fun _ => .refl _, .refl _, fun _ => .refl _, .refl _,
    fun _ => .refl _⟩

section SameRows

variable {t t' : TypeTables}

theorem SameRows.rowsNamed (h : SameRows t t') (label : SymbolLabel) (name : Str) :
    (rowsNamed t.symbols label name).Perm (rowsNamed t'.symbols label name) :=
  (h.symbols label).filter _

theorem SameRows.byName (h : SameRows t t') (name : Str) :
    ((buildSymbolIndex t.symbols).byName name).Perm
      ((buildSymbolIndex t'.symbols).byName name) := by
  rw [byName_buildSymbolIndex, byName_buildSymbolIndex]
  exact List.Perm.flatMap_left _ fun label _ => (h.rowsNamed label name).map _

/-- A receiver is found in every order: no two rows of a label share an id. -/
theorem SameRows.byQn (h : SameRows t t') (qn : Str) :
    (buildSymbolIndex t'.symbols).byQn qn = (buildSymbolIndex t.symbols).byQn qn := by
  have hfind : ∀ label, (t'.symbols label).reverse.find? (fun row => row.qualifiedName = qn) =
      (t.symbols label).reverse.find? (fun row => row.qualifiedName = qn) := by
    intro label
    have hids : (t.symbols label).map SymbolRow.qualifiedName =
        (t.symbols label).map SymbolRow.id :=
      List.map_congr_left fun row hrow => t.qualifiedName_eq label row hrow
    have hnodup : (((t.symbols label).reverse).map SymbolRow.qualifiedName).Nodup := by
      rw [List.map_reverse, List.nodup_reverse, hids]
      exact t.symbols_nodup label
    refine find_key_perm SymbolRow.qualifiedName ?_ hnodup qn
    exact ((List.reverse_perm _).trans (h.symbols label)).trans (List.reverse_perm _).symm
  have main : ∀ (labels : List SymbolLabel) (idx idx' : SymbolIndex), idx'.byQn qn = idx.byQn qn →
      (labels.foldl (fun idx label => (t'.symbols label).foldl (SymbolIndex.insert label) idx)
        idx').byQn qn =
        (labels.foldl (fun idx label => (t.symbols label).foldl (SymbolIndex.insert label) idx)
          idx).byQn qn := by
    intro labels
    induction labels with
    | nil => exact fun _ _ heq => heq
    | cons label labels ih =>
        intro idx idx' heq
        refine ih _ _ ?_
        rw [byQn_foldl_insert, byQn_foldl_insert, hfind, heq]
  exact main symbolLabels _ _ rfl

end SameRows

/-! ### What a name is bound to -/

/-- A row is one of several twins. -/
def isTwinRow (symbols : SymbolLabel → List SymbolRow) (label : SymbolLabel) (row : SymbolRow) :
    Bool := isTwinMember (row.entry label) ((buildSymbolIndex symbols).byName row.name)

/-- The row of a label that a name is bound to: the first, if it is no twin. -/
def targetOf (symbols : SymbolLabel → List SymbolRow) (label : SymbolLabel) (name : Str) :
    Option SymbolRow :=
  pick (fun row => !isTwinRow symbols label row) (rowsNamed symbols label name)

/-- The first of the type-like labels that has rows of a name. -/
def typeLabel (symbols : SymbolLabel → List SymbolRow) (name : Str) : Option SymbolLabel :=
  [SymbolLabel.struct, .enum, .trait, .typeAlias].find? fun label =>
    !(rowsNamed symbols label name).isEmpty

section Targets

variable {symbols : SymbolLabel → List SymbolRow}

/-- Taking the first entry of a label, and giving it up where it is a twin. -/
theorem find_label_filter (label : SymbolLabel) (name : Str) :
    (((buildSymbolIndex symbols).byName name).find? (fun e => e.label = label)).filter
      (fun e => !isTwinMember e ((buildSymbolIndex symbols).byName name)) =
        (targetOf symbols label name).map (SymbolRow.entry label) := by
  rw [find_label, targetOf, pick]
  cases hhead : (rowsNamed symbols label name).head? with
  | none => rfl
  | some row =>
      have hname : row.name = name := (mem_rowsNamed.mp (List.mem_of_head? hhead)).2
      subst hname
      rw [Option.map_some, Option.filter_some, Option.filter_some, isTwinRow]
      split <;> rfl

theorem isTwinMember_false_of_single {target : SymbolEntry} {candidates : List SymbolEntry}
    (hlike : isTypeLike target.label = true)
    (h : candidates.filter (fun e => isTypeLike e.label) = [target]) :
    isTwinMember target candidates = false := by
  rw [isTwinMember, Bool.and_eq_false_iff]
  refine .inr (List.any_eq_false.mpr fun other hother => ?_)
  by_contra htwin
  simp only [Bool.and_eq_true, bne_iff_ne, beq_iff_eq] at htwin
  have hmem : other ∈ candidates.filter fun e => isTypeLike e.label :=
    List.mem_filter.mpr ⟨hother, by rw [htwin.1.2]; exact hlike⟩
  rw [h, List.mem_singleton] at hmem
  exact htwin.1.1 (congrArg SymbolEntry.id hmem)

/-- A single type is no twin, so `find_type_target` takes the first type unless it is one. -/
theorem findTypeTarget_eq_filter (idx : SymbolIndex) (name : Str) :
    findTypeTarget idx name =
      ((idx.byName name).filter fun e => isTypeLike e.label).head?.filter
        fun t => !isTwinMember t (idx.byName name) := by
  rw [findTypeTarget]
  have hlike : ∀ t ∈ (idx.byName name).filter fun e => isTypeLike e.label,
      isTypeLike t.label = true := fun t ht => (List.mem_filter.mp ht).2
  match htypes : (idx.byName name).filter fun e => isTypeLike e.label with
  | [] =>
      simp only [htypes]
      rfl
  | [t] =>
      have hsingle := isTwinMember_false_of_single (hlike t (by simp [htypes])) htypes
      simp only [htypes, List.head?_cons, Option.filter_some, hsingle]
      rfl
  | t :: u :: rest =>
      simp only [htypes, List.head?_cons, Option.filter_some]
      cases isTwinMember t (idx.byName name) <;> rfl

theorem findTypeTarget_eq (name : Str) :
    findTypeTarget (buildSymbolIndex symbols) name =
      (typeLabel symbols name).bind fun label =>
        (targetOf symbols label name).map (SymbolRow.entry label) := by
  have hlabels : symbolLabels.filter isTypeLike =
      [SymbolLabel.struct, .enum, .trait, .typeAlias] := by decide
  have hfirst : ∀ labels : List SymbolLabel,
      ((labels.flatMap fun label =>
        (rowsNamed symbols label name).map (SymbolRow.entry label)).head?).filter
          (fun t => !isTwinMember t ((buildSymbolIndex symbols).byName name)) =
        (labels.find? fun label => !(rowsNamed symbols label name).isEmpty).bind fun label =>
          (targetOf symbols label name).map (SymbolRow.entry label) := by
    intro labels
    induction labels with
    | nil => rfl
    | cons label labels ih =>
        rw [List.flatMap_cons, List.find?_cons]
        cases hrows : rowsNamed symbols label name with
        | nil => simpa using ih
        | cons row rest =>
            have hhead := @find_label_filter symbols label name
            rw [find_label, hrows] at hhead
            simpa using hhead
  rw [findTypeTarget_eq_filter, filter_byName symbols isTypeLike, hlabels]
  exact hfirst _

end Targets

end AutomatisedPipeline.Resolver
