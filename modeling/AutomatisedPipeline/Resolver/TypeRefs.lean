import AutomatisedPipeline.Resolver.TypeOrder

/-!
The type-level references of the rows, and the edges they draw.

A lookup draws the edge to the row its name is bound to (`typeKeys`, `traitKeys`, `deriveKeys`,
`baseKeys`). The store behind `resolve_graph` holds its own edges and those of every
reference (`mem_typeEdgesAfter`).
-/

namespace AutomatisedPipeline.Resolver

open Text FirstMatch
open Indexer (trim)

/-! ### The buffer -/

/-- The keys of the edges that an outcome draws. -/
def Outcome.keys (o : Outcome) : List EdgeKey := o.edges.map NewEdge.toEdgeKey

/-- The buffer holds an edge: the store has it, or it is staged. -/
def EdgeBuffer.Holds (buf : EdgeBuffer) (key : EdgeKey) : Prop :=
  key ∈ buf.persisted ∨ key ∈ buf.staged.map NewEdge.toEdgeKey

section Buffer

variable {buf : EdgeBuffer} {key : EdgeKey}

theorem persisted_add (buf : EdgeBuffer) (edge : NewEdge) :
    (buf.add edge).2.persisted = buf.persisted := by
  rw [EdgeBuffer.add]
  split_ifs <;> rfl

theorem holds_add (edge : NewEdge) :
    (buf.add edge).2.Holds key ↔ buf.Holds key ∨ key = edge.toEdgeKey := by
  rw [EdgeBuffer.add]
  split_ifs with hpersisted hstaged
  · exact ⟨.inl, fun h => h.elim id fun heq => .inl (heq ▸ hpersisted)⟩
  · exact ⟨.inl, fun h => h.elim id fun heq => .inr (heq ▸ hstaged)⟩
  · simp only [EdgeBuffer.Holds, List.map_append, List.mem_append, List.map_singleton,
      List.mem_singleton, or_assoc]

theorem foldl_add (edges : List NewEdge) (buf : EdgeBuffer) :
    (edges.foldl (fun buf edge => (buf.add edge).2) buf).persisted = buf.persisted ∧
      ((edges.foldl (fun buf edge => (buf.add edge).2) buf).Holds key ↔
        buf.Holds key ∨ key ∈ edges.map NewEdge.toEdgeKey) := by
  induction edges generalizing buf with
  | nil => simp
  | cons edge edges ih =>
      obtain ⟨hpersisted, hholds⟩ := ih (buf.add edge).2
      rw [List.foldl_cons, hpersisted, hholds, persisted_add, holds_add, List.map_cons,
        List.mem_cons, or_assoc]
      exact ⟨rfl, Iff.rfl⟩

/-- A phase stages the edges of its outcomes. -/
theorem runPhase_spec (buf : EdgeBuffer) (outcomes : List Outcome) :
    (runPhase buf outcomes).buf.persisted = buf.persisted ∧
      ((runPhase buf outcomes).buf.Holds key ↔
        buf.Holds key ∨ key ∈ outcomes.flatMap Outcome.keys) := by
  have main : ∀ acc : Tally, (outcomes.foldl Tally.record acc).buf.persisted = acc.buf.persisted ∧
      ((outcomes.foldl Tally.record acc).buf.Holds key ↔
        acc.buf.Holds key ∨ key ∈ outcomes.flatMap Outcome.keys) := by
    induction outcomes with
    | nil => simp
    | cons o outcomes ih =>
        intro acc
        obtain ⟨hpersisted, hholds⟩ := ih (acc.record o)
        rw [List.foldl_cons, hpersisted, hholds, List.flatMap_cons, List.mem_append, ← or_assoc]
        cases o with
        | drawn edges =>
            obtain ⟨hkept, hadded⟩ := @foldl_add key edges acc.buf
            exact ⟨hkept, or_congr_left hadded⟩
        | missed ref => simp [Tally.record, Outcome.keys, Outcome.edges]
  exact main _

end Buffer

/-! ### The references -/

/-- A reference to a name from a node. -/
structure NameRef (κ : Type) where
  kind : κ
  fromId : Str
  name : Str

/-- A trait name that a struct or an enum declares. -/
structure Declaration where
  label : SymbolLabel
  fromId : Str
  provider : LanguageProvider
  name : Str

/-- The trait that a declaration looks up. -/
def Declaration.ref (d : Declaration) : NameRef SymbolLabel :=
  { kind := d.label, fromId := d.fromId, name := d.provider.importLastSegment d.name }

section Refs

variable (langs : Languages)

/-- The type names that fields, functions and methods use. -/
def typeRefs (t : TypeTables) : List (NameRef Caller) :=
  (t.fields.flatMap fun row =>
    (extractTypeIdentifiers langs row.typeAnnotation
      (langs.providerFor row.language).primitives).map fun name => ⟨.field, row.id, name⟩) ++
    [Caller.function, .method].flatMap fun caller =>
      (t.callables caller).flatMap fun row =>
        (extractTypeIdentifiers langs row.returnType (langs.providerFor row.language).primitives ++
          extractTypeIdentifiers langs row.constructedTypes
            (langs.providerFor row.language).primitives).map fun name => ⟨caller, row.id, name⟩

/-- The traits that structs and enums declare. -/
def declarations (t : TypeTables) : List Declaration :=
  [SymbolLabel.struct, .enum].flatMap fun label =>
    (t.implementing label).flatMap fun row =>
      (csvNames row.names).map fun name => ⟨label, row.id, langs.providerFor row.language, name⟩

/-- The trait that a block implements for its receiver. -/
def blockRef (symbols : SymbolLabel → List SymbolRow) (row : ImplBlockRow) :
    Option (NameRef SymbolLabel) :=
  if (trim row.receiverType).isEmpty || (trim row.traitName).isEmpty then none
  else
    match (buildSymbolIndex symbols).byQn (trim row.receiverType) with
    | none => none
    | some recv =>
        if recv.label = .struct ∨ recv.label = .enum then
          some ⟨recv.label, recv.id, afterLast "::".toList (trim row.traitName)⟩
        else none

/-- The traits that are looked up, by a declaration or by a block. -/
def traitRefs (t : TypeTables) : List (NameRef SymbolLabel) :=
  (declarations langs t).map Declaration.ref ++ t.implBlocks.filterMap (blockRef t.symbols)

/-- The bases of structs, enums and traits. -/
def baseRefs (t : TypeTables) : List (NameRef SymbolLabel) :=
  [SymbolLabel.struct, .enum, .trait].flatMap fun label =>
    (t.bases label).flatMap fun row =>
      (csvNames row.names).map fun base => ⟨label, row.id, afterLast ".".toList base⟩

/-! ### What a reference draws -/

variable (symbols : SymbolLabel → List SymbolRow)

def typeKeys (ref : NameRef Caller) : List EdgeKey :=
  ((typeLabel symbols ref.name).bind fun label =>
    (targetOf symbols label ref.name).map fun row =>
      ⟨.uses ref.kind label, ref.fromId, row.id⟩).toList

def traitKeys (ref : NameRef SymbolLabel) : List EdgeKey :=
  ((targetOf symbols .trait ref.name).map fun row =>
    ⟨.implementsTrait ref.kind, ref.fromId, row.id⟩).toList

/-- A trait that no row is named after is looked up in the macro table. -/
def deriveKeys (d : Declaration) : List EdgeKey :=
  if (rowsNamed symbols .trait d.ref.name).isEmpty then
    ((d.provider.deriveMacroKey.bind fun macroKey =>
      langs.emitImplements macroKey ("derive_".toList ++ d.name)).getD []).map fun canonical =>
        ⟨.implementsStdlib d.label, d.fromId, canonical⟩
  else []

def baseKeys (ref : NameRef SymbolLabel) : List EdgeKey :=
  ((rowsNamed symbols ref.kind ref.name).head?.map fun row =>
    ⟨.extending ref.kind ref.kind, ref.fromId, row.id⟩).toList

variable {symbols}

section Keys

variable {langs} {key : EdgeKey}

theorem mem_typeKeys {ref : NameRef Caller} : key ∈ typeKeys symbols ref ↔
    ∃ label, typeLabel symbols ref.name = some label ∧
      ∃ row, targetOf symbols label ref.name = some row ∧
        key = ⟨.uses ref.kind label, ref.fromId, row.id⟩ := by
  simp only [typeKeys, Option.mem_toList, Option.bind_eq_some_iff,
    Option.map_eq_some_iff, @eq_comm _ key]

theorem mem_traitKeys {ref : NameRef SymbolLabel} : key ∈ traitKeys symbols ref ↔
    ∃ row, targetOf symbols .trait ref.name = some row ∧
      key = ⟨.implementsTrait ref.kind, ref.fromId, row.id⟩ := by
  simp only [traitKeys, Option.mem_toList, Option.map_eq_some_iff, @eq_comm _ key]

theorem mem_baseKeys {ref : NameRef SymbolLabel} : key ∈ baseKeys symbols ref ↔
    ∃ row, (rowsNamed symbols ref.kind ref.name).head? = some row ∧
      key = ⟨.extending ref.kind ref.kind, ref.fromId, row.id⟩ := by
  simp only [baseKeys, Option.mem_toList, Option.map_eq_some_iff, @eq_comm _ key]

theorem exists_of_mem_deriveKeys {d : Declaration} (h : key ∈ deriveKeys langs symbols d) :
    ∃ canonical, key = ⟨.implementsStdlib d.label, d.fromId, canonical⟩ := by
  rw [deriveKeys] at h
  split at h
  · obtain ⟨canonical, -, rfl⟩ := List.mem_map.mp h
    exact ⟨canonical, rfl⟩
  · cases h

end Keys

theorem uses_isKnown {name : Str} {label : SymbolLabel}
    (hlabel : typeLabel symbols name = some label) (caller : Caller) :
    isKnownRelTable (.uses caller label) = true := by
  have hlike : label ∈ [SymbolLabel.struct, .enum, .trait, .typeAlias] :=
    List.mem_of_find?_eq_some hlabel
  simp only [List.mem_cons, List.not_mem_nil, or_false] at hlike
  rcases hlike with rfl | rfl | rfl | rfl <;> cases caller <;> rfl

theorem extending_isKnown {label : SymbolLabel}
    (hlabel : label ∈ [SymbolLabel.struct, .enum, .trait]) :
    isKnownRelTable (.extending label label) = true := by
  simp only [List.mem_cons, List.not_mem_nil, or_false] at hlabel
  rcases hlabel with rfl | rfl | rfl <;> rfl

theorem keys_resolveOneTypeUse (caller : Caller) (method fromId name : Str) :
    (resolveOneTypeUse (buildSymbolIndex symbols) caller method fromId name).keys =
      typeKeys symbols ⟨caller, fromId, name⟩ := by
  rw [resolveOneTypeUse, findTypeTarget_eq, typeKeys]
  cases hlabel : typeLabel symbols name with
  | none => rfl
  | some label =>
      cases htarget : targetOf symbols label name with
      | none => simp [htarget, Outcome.keys, Outcome.edges]
      | some row =>
          simp [htarget, SymbolRow.entry, uses_isKnown hlabel, Outcome.keys, Outcome.edges]

theorem keys_resolveOneImplements (fileImports : List (Str × List Str)) (d : Declaration) :
    (resolveOneImplements langs (buildSymbolIndex symbols) fileImports d.label d.fromId d.provider
      d.name).keys = traitKeys symbols d.ref ++ deriveKeys langs symbols d := by
  have hfilter := @find_label_filter symbols .trait d.ref.name
  rw [find_label] at hfilter
  simp only [resolveOneImplements]
  rw [find_label, traitKeys, deriveKeys]
  simp only [Declaration.ref] at hfilter ⊢
  obtain hrows | ⟨row, rest, hrows⟩ :
      rowsNamed symbols .trait (d.provider.importLastSegment d.name) = [] ∨
        ∃ row rest, rowsNamed symbols .trait (d.provider.importLastSegment d.name) = row :: rest :=
    or_iff_not_imp_left.mpr List.exists_cons_of_ne_nil
  · have hnone : targetOf symbols .trait (d.provider.importLastSegment d.name) = none := by
      rw [targetOf, hrows]
      rfl
    simp only [hrows, hnone, List.head?_nil, Option.map_none, Option.toList_none, List.nil_append,
      List.isEmpty_nil, if_true]
    cases d.provider.deriveMacroKey with
    | none => rfl
    | some macroKey =>
        simp only [Option.bind_some]
        cases langs.emitImplements macroKey ("derive_".toList ++ d.name) with
        | none => rfl
        | some canonicals =>
            cases canonicals with
            | nil => rfl
            | cons canonical rest => simp [Outcome.keys, Outcome.edges]
  · rw [hrows] at hfilter
    simp only [hrows, List.head?_cons, Option.map_some, Option.filter_some, List.isEmpty_cons,
      Bool.false_eq_true, if_false, List.append_nil] at hfilter ⊢
    cases htwin : isTwinMember (row.entry .trait)
        ((buildSymbolIndex symbols).byName (d.provider.importLastSegment d.name)) with
    | true =>
        rw [htwin] at hfilter
        have hnone : targetOf symbols .trait (d.provider.importLastSegment d.name) = none := by
          simpa using hfilter.symm
        simp [hnone, Outcome.keys, Outcome.edges]
    | false =>
        rw [htwin] at hfilter
        cases htarget : targetOf symbols .trait (d.provider.importLastSegment d.name) with
        | none => simp [htarget] at hfilter
        | some found =>
            have hid : row.id = found.id ∧ row.qualifiedName = found.qualifiedName := by
              simpa [htarget, SymbolRow.entry] using hfilter
            simp [SymbolRow.entry, Outcome.keys, Outcome.edges, hid.1]

theorem keys_resolveImplTraitBlock (row : ImplBlockRow) :
    (resolveImplTraitBlock (buildSymbolIndex symbols) row).toList.flatMap Outcome.keys =
      (blockRef symbols row).toList.flatMap (traitKeys symbols) := by
  rw [resolveImplTraitBlock, blockRef]
  simp only
  split_ifs with hempty
  · rfl
  · cases hrecv : (buildSymbolIndex symbols).byQn (trim row.receiverType) with
    | none => rfl
    | some recv =>
        simp only
        split_ifs with hlabel
        · rw [find_label_filter]
          simp only [traitKeys, Option.toList_some, List.flatMap_singleton]
          cases targetOf symbols .trait (afterLast "::".toList (trim row.traitName)) with
          | none => simp [Outcome.keys, Outcome.edges]
          | some found => simp [SymbolRow.entry, Outcome.keys, Outcome.edges]
        · rfl

theorem keys_resolveOneExtendsBase (fileImports : List (Str × List Str))
    (provider : LanguageProvider) {label : SymbolLabel}
    (hlabel : label ∈ [SymbolLabel.struct, .enum, .trait]) (fromId base : Str) :
    (resolveOneExtendsBase (buildSymbolIndex symbols) fileImports provider label fromId
      base).keys = baseKeys symbols ⟨label, fromId, afterLast ".".toList base⟩ := by
  have hother : ∀ target, target ≠ label → isKnownRelTable (.extending label target) = false := by
    simp only [List.mem_cons, List.not_mem_nil, or_false] at hlabel
    intro target hne
    rcases hlabel with rfl | rfl | rfl <;> cases target <;> first | rfl | exact absurd rfl hne
  simp only [resolveOneExtendsBase]
  rw [find_label, baseKeys]
  cases hrows : rowsNamed symbols label (afterLast ".".toList base) with
  | cons row rest => simp [SymbolRow.entry, extending_isKnown hlabel, Outcome.keys, Outcome.edges]
  | nil =>
      simp only [List.head?_nil, Option.map_none, Option.none_or, Option.toList_none]
      cases hhead : ((buildSymbolIndex symbols).byName (afterLast ".".toList base)).head? with
      | none => rfl
      | some target =>
          -- no symbol of the child's own label: the table is unknown
          have hfind := find_label symbols label (afterLast ".".toList base)
          rw [hrows, List.head?_nil, Option.map_none, List.find?_eq_none] at hfind
          have hne : target.label ≠ label := by
            simpa using hfind target (List.mem_of_head? hhead)
          simp [hother _ hne, Outcome.keys, Outcome.edges]

end Refs

/-! ### The edges of a run -/

/-- The edges that the references draw. -/
def drawnKeys (langs : Languages) (t : TypeTables) : List EdgeKey :=
  (traitRefs langs t).flatMap (traitKeys t.symbols) ++
    (declarations langs t).flatMap (deriveKeys langs t.symbols) ++
    (baseRefs t).flatMap (baseKeys t.symbols) ++ (typeRefs langs t).flatMap (typeKeys t.symbols)

section Run

variable {langs : Languages} {t : TypeTables} {key : EdgeKey}

theorem keys_resolveImplements (fileImports : List (Str × List Str)) :
    key ∈ (resolveImplements langs (buildSymbolIndex t.symbols) fileImports t).flatMap
        Outcome.keys ↔
      key ∈ (traitRefs langs t).flatMap (traitKeys t.symbols) ∨
        key ∈ (declarations langs t).flatMap (deriveKeys langs t.symbols) := by
  have hdeclared : resolveImplements langs (buildSymbolIndex t.symbols) fileImports t =
      (declarations langs t).map (fun d => resolveOneImplements langs (buildSymbolIndex t.symbols)
        fileImports d.label d.fromId d.provider d.name) ++
        t.implBlocks.filterMap (resolveImplTraitBlock (buildSymbolIndex t.symbols)) := by
    rw [resolveImplements, declarations, List.map_flatMap]
    simp only [List.map_flatMap, List.map_map, Function.comp_def]
  have hblocks : (t.implBlocks.filterMap (resolveImplTraitBlock
      (buildSymbolIndex t.symbols))).flatMap Outcome.keys =
        (t.implBlocks.filterMap (blockRef t.symbols)).flatMap (traitKeys t.symbols) := by
    simp only [List.filterMap_eq_flatMap_toList, List.flatMap_assoc, keys_resolveImplTraitBlock]
  rw [hdeclared, List.flatMap_append, hblocks, traitRefs, List.flatMap_append, List.flatMap_map,
    List.flatMap_map]
  simp only [keys_resolveOneImplements, List.mem_append, List.mem_flatMap]
  constructor
  · rintro (⟨d, hd, hkey | hkey⟩ | hblock)
    · exact .inl (.inl ⟨d, hd, hkey⟩)
    · exact .inr ⟨d, hd, hkey⟩
    · exact .inl (.inr hblock)
  · rintro ((⟨d, hd, hkey⟩ | hblock) | ⟨d, hd, hkey⟩)
    · exact .inl ⟨d, hd, .inl hkey⟩
    · exact .inr hblock
    · exact .inl ⟨d, hd, .inr hkey⟩

theorem keys_resolveExtends (fileImports : List (Str × List Str)) :
    (resolveExtends langs (buildSymbolIndex t.symbols) fileImports t).flatMap Outcome.keys =
      (baseRefs t).flatMap (baseKeys t.symbols) := by
  simp only [resolveExtends, baseRefs, List.flatMap_assoc, List.flatMap_map]
  refine List.flatMap_congr fun label hlabel => ?_
  refine List.flatMap_congr fun row _ => ?_
  refine List.flatMap_congr fun base _ => ?_
  exact keys_resolveOneExtendsBase fileImports _ hlabel row.id base

theorem keys_resolveUses :
    (resolveUses langs (buildSymbolIndex t.symbols) t).flatMap Outcome.keys =
      (typeRefs langs t).flatMap (typeKeys t.symbols) := by
  simp only [resolveUses, resolveFieldTypeUses, resolveCallableTypeUses, typeRefs,
    List.flatMap_append, List.flatMap_assoc, List.flatMap_map, keys_resolveOneTypeUse]

theorem mem_flush (buf : EdgeBuffer) : key ∈ buf.flush ↔
    key ∈ buf.persisted ∨ buf.Holds key ∧ isKnownRelTable key.table = true := by
  rw [EdgeBuffer.flush, List.mem_append, List.mem_filter, EdgeBuffer.Holds]
  tauto

/-- The store holds what it held and what the references draw. -/
theorem mem_typeEdgesAfter (persisted : List EdgeKey) : key ∈ typeEdgesAfter langs persisted t ↔
    key ∈ persisted ∨ key ∈ drawnKeys langs t ∧ isKnownRelTable key.table = true := by
  have hholds : ∀ buf outcomes, (runPhase buf outcomes).buf.Holds key ↔
      buf.Holds key ∨ key ∈ outcomes.flatMap Outcome.keys :=
    fun buf outcomes => (runPhase_spec buf outcomes).2
  have hpersisted : ∀ buf outcomes, (runPhase buf outcomes).buf.persisted = buf.persisted :=
    fun buf outcomes => (@runPhase_spec key buf outcomes).1
  rw [typeEdgesAfter, mem_flush]
  simp only [runTypePhases, hholds, hpersisted, keys_resolveImplements, keys_resolveExtends,
    keys_resolveUses, drawnKeys, List.mem_append]
  simp only [EdgeBuffer.Holds, EdgeBuffer.new, List.map_nil, List.not_mem_nil, or_false]
  tauto

end Run

end AutomatisedPipeline.Resolver
