import AutomatisedPipeline.Impact.Names
import AutomatisedPipeline.Resolver.FileIds

/-!
The type-level phases of `resolve_graph`: `resolver/implements.rs`, `resolver/extends.rs`
and `resolver/uses.rs`, over the symbol index and the edge buffer of `resolver/mod.rs`.

The store comes as its answers to the queries of these phases (`TypeTables`), each a list of
rows in the order the store gives them. A reference is looked up by name and gives an
`Outcome`: the edges it draws, or why it draws none. No lookup reads the buffer, so the
outcomes of a phase are listed first and staged after.
-/

namespace AutomatisedPipeline.Resolver

open Text Cfg Impact
open Indexer (trim splitWhitespace)

/-! ### Tables -/

/-- The labels of the symbol index. -/
inductive SymbolLabel where
  | function | method | struct | enum | trait | constant | typeAlias | mod | file
deriving DecidableEq, Repr

/-- The `labels` of `build_symbol_index`, in the order they are read. -/
def symbolLabels : List SymbolLabel :=
  [.function, .method, .struct, .enum, .trait, .constant, .typeAlias, .mod, .file]

def SymbolLabel.text : SymbolLabel → Str
  | .function => "Function".toList
  | .method => "Method".toList
  | .struct => "Struct".toList
  | .enum => "Enum".toList
  | .trait => "Trait".toList
  | .constant => "Constant".toList
  | .typeAlias => "TypeAlias".toList
  | .mod => "Module".toList
  | .file => "File".toList

/-- `n.id, n.name` and the qualified name, for a file its path. -/
structure SymbolRow where
  id : Str
  name : Str
  qualifiedName : Str
deriving DecidableEq, Repr

/-- `s.id`, a column of comma-separated names and `s.language`. -/
structure NamesRow where
  id : Str
  names : Str
  language : Str
deriving DecidableEq, Repr

/-- `m.receiver_type, m.trait_name` of the methods that have both. -/
structure ImplBlockRow where
  receiverType : Str
  traitName : Str
deriving DecidableEq, Repr

/-- `f.id, f.type_annotation, f.language`. -/
structure FieldRow where
  id : Str
  typeAnnotation : Str
  language : Str
deriving DecidableEq, Repr

/-- `f.id, f.return_type, f.constructed_types, f.language`. -/
structure CallableRow where
  id : Str
  returnType : Str
  constructedTypes : Str
  language : Str
deriving DecidableEq, Repr

/-- What uses a type: a field, a function or a method. -/
inductive Caller where
  | field | function | method
deriving DecidableEq, Repr

def Caller.text : Caller → Str
  | .field => "Field".toList
  | .function => "Function".toList
  | .method => "Method".toList

/-- The answers of the store, those on imports being their ids and paths. An id is the primary
key of its table, and the indexer writes the qualified name of a symbol as its id. -/
structure TypeTables where
  symbols : SymbolLabel → List SymbolRow
  imports : List (Str × Str)
  implementing : SymbolLabel → List NamesRow
  implBlocks : List ImplBlockRow
  bases : SymbolLabel → List NamesRow
  fields : List FieldRow
  callables : Caller → List CallableRow
  symbols_nodup : ∀ label, ((symbols label).map SymbolRow.id).Nodup
  qualifiedName_eq : ∀ label, ∀ row ∈ symbols label, row.qualifiedName = row.id

/-- The relationship tables that these phases name. -/
inductive RelTable where
  | implementsTrait (label : SymbolLabel)
  | implementsStdlib (label : SymbolLabel)
  | extending (label target : SymbolLabel)
  | uses (caller : Caller) (target : SymbolLabel)
deriving DecidableEq, Repr

def RelTable.text : RelTable → Str
  | .implementsTrait label => "Implements_".toList ++ label.text ++ "_Trait".toList
  | .implementsStdlib label => "Implements_".toList ++ label.text ++ "_StdlibSymbol".toList
  | .extending label target => "Extends_".toList ++ label.text ++ '_' :: target.text
  | .uses caller target => "Uses_".toList ++ caller.text ++ '_' :: target.text

/-- `REL_TABLES`, those of these phases. -/
def relTables : List RelTable :=
  [.implementsTrait .struct, .implementsTrait .enum, .extending .trait .trait,
    .extending .struct .struct, .extending .enum .enum, .uses .function .struct,
    .uses .function .enum, .uses .function .trait, .uses .function .typeAlias,
    .uses .method .struct, .uses .method .enum, .uses .method .trait, .uses .method .typeAlias,
    .uses .field .struct, .uses .field .enum, .uses .field .trait, .uses .field .typeAlias,
    .implementsStdlib .struct, .implementsStdlib .enum]

/-- `is_known_rel_table`. -/
def isKnownRelTable (table : RelTable) : Bool := table ∈ relTables

/-! ### The symbol index -/

/-- `SymbolEntry`. -/
structure SymbolEntry where
  id : Str
  label : SymbolLabel
  qualifiedName : Str
deriving DecidableEq, Repr

/-- `SymbolIndex`, its maps as the functions that read them: a name that no symbol has
gives an empty list. -/
structure SymbolIndex where
  byName : Str → List SymbolEntry
  byQn : Str → Option SymbolEntry

def SymbolRow.entry (label : SymbolLabel) (row : SymbolRow) : SymbolEntry :=
  { id := row.id, label, qualifiedName := row.qualifiedName }

/-- The loop body of `build_symbol_index`. -/
def SymbolIndex.insert (label : SymbolLabel) (idx : SymbolIndex) (row : SymbolRow) :
    SymbolIndex :=
  { byName := Function.update idx.byName row.name (idx.byName row.name ++ [row.entry label])
    byQn := Function.update idx.byQn row.qualifiedName (some (row.entry label)) }

/-- `build_symbol_index`. -/
def buildSymbolIndex (symbols : SymbolLabel → List SymbolRow) : SymbolIndex :=
  symbolLabels.foldl (fun idx label => (symbols label).foldl (SymbolIndex.insert label) idx)
    { byName := fun _ => [], byQn := fun _ => none }

/-- `is_twin_member`. -/
def isTwinMember (target : SymbolEntry) (candidates : List SymbolEntry) : Bool :=
  hasCfgGate target.qualifiedName &&
    candidates.any fun other =>
      other.id != target.id && other.label == target.label &&
        stripCfgGates other.qualifiedName == stripCfgGates target.qualifiedName

/-! ### The edge buffer -/

/-- The key of an edge. -/
structure EdgeKey where
  table : RelTable
  fromId : Str
  toId : Str
deriving DecidableEq, Repr

/-- An edge to stage, with its properties. -/
structure NewEdge extends EdgeKey where
  confidence : Str
  method : Str
deriving DecidableEq, Repr

/-- `AddOutcome`. -/
inductive AddOutcome where
  | inserted | alreadyPersisted | duplicateInRun
deriving DecidableEq, Repr

/-- `EdgeBuffer`: the edges of the store and those of this run. -/
structure EdgeBuffer where
  persisted : List EdgeKey
  staged : List NewEdge

/-- `EdgeBuffer::new`. -/
def EdgeBuffer.new (existing : List EdgeKey) : EdgeBuffer := { persisted := existing, staged := [] }

/-- `EdgeBuffer::add`. -/
def EdgeBuffer.add (buf : EdgeBuffer) (edge : NewEdge) : AddOutcome × EdgeBuffer :=
  if edge.toEdgeKey ∈ buf.persisted then (.alreadyPersisted, buf)
  else if edge.toEdgeKey ∈ buf.staged.map NewEdge.toEdgeKey then (.duplicateInRun, buf)
  else (.inserted, { buf with staged := buf.staged ++ [edge] })

/-- `EdgeBuffer::flush`: the edges of the store behind it. A table that the store does not
know is skipped. -/
def EdgeBuffer.flush (buf : EdgeBuffer) : List EdgeKey :=
  buf.persisted ++ (buf.staged.map NewEdge.toEdgeKey).filter fun key => isKnownRelTable key.table

/-! ### Languages -/

/-- What these phases ask of a `LanguageProvider`. -/
structure LanguageProvider where
  primitives : List Str
  importLastSegment : Str → Str
  isExternalImport : Str → Bool
  deriveMacroKey : Option Str

/-- The languages, the table of macro expansions (what `macro_expansion::lookup` emits) and
`char::is_uppercase`. -/
structure Languages where
  providerFor : Str → LanguageProvider
  emitImplements : Str → Str → Option (List Str)
  isUppercase : Char → Bool

/-- `UnresolvedRef`. -/
structure UnresolvedRef where
  kind : Str
  fromId : Str
  targetText : Str
  reason : Str
deriving DecidableEq, Repr

/-- `EXTERNAL_UNRESOLVED_REASON`. -/
def externalUnresolvedReason : Str := "external crate".toList

def noTargetInCorpus : Str := "no_target_in_corpus".toList

/-- `unresolved_base_reason`. -/
def unresolvedBaseReason (provider : LanguageProvider) (fileImports : List (Str × List Str))
    (childQn lookup : Str) : Str :=
  let paths := (fileImports.lookup (extractFilePrefixOrSelf childQn)).getD []
  if paths.any fun path =>
      provider.isExternalImport path && provider.importLastSegment path == lookup
  then externalUnresolvedReason
  else noTargetInCorpus

/-- What looking a reference up says: the edges to draw, or the reference that stays
unresolved. -/
inductive Outcome where
  | drawn (edges : List NewEdge)
  | missed (ref : UnresolvedRef)

/-- The edges that an outcome draws. -/
def Outcome.edges : Outcome → List NewEdge
  | .drawn edges => edges
  | .missed _ => []

/-! ### Implements -/

section Implements

variable (langs : Languages) (idx : SymbolIndex) (fileImports : List (Str × List Str))

/-- A column that the store has no value for. -/
def isAbsent (column : Str) : Bool := column.isEmpty || column == "Null(String)".toList

/-- The names of a comma-separated column. -/
def csvNames (csv : Str) : List Str :=
  if isAbsent csv then [] else ((csv.splitOn ',').map trim).filter fun name => !name.isEmpty

/-- `resolve_one_implements`. -/
def resolveOneImplements (label : SymbolLabel) (fromId : Str) (provider : LanguageProvider)
    (name : Str) : Outcome :=
  let lookup := provider.importLastSegment name
  let candidates := idx.byName lookup
  let missed := Outcome.missed
    { kind := "Implements".toList, fromId, targetText := name,
      reason := unresolvedBaseReason provider fileImports fromId lookup }
  match candidates.find? fun e => e.label = .trait with
  | some t =>
      if isTwinMember t candidates then missed
      else
        .drawn [{ table := .implementsTrait label, fromId, toId := t.id,
                  confidence := "0.95".toList, method := "declared-implements".toList }]
  | none =>
      match provider.deriveMacroKey with
      | none => missed
      | some macroKey =>
          match langs.emitImplements macroKey ("derive_".toList ++ name) with
          | none => missed
          | some [] => missed
          | some canonicals =>
              .drawn (canonicals.map fun canonical =>
                { table := .implementsStdlib label, fromId, toId := canonical,
                  confidence := "0.9".toList, method := "derive-macro".toList })

/-- The loop body of `resolve_impl_trait_blocks`: a row whose receiver is no struct and no
enum is skipped. -/
def resolveImplTraitBlock (row : ImplBlockRow) : Option Outcome :=
  let receiverQn := trim row.receiverType
  let traitName := trim row.traitName
  if receiverQn.isEmpty || traitName.isEmpty then none
  else
    match idx.byQn receiverQn with
    | none => none
    | some recv =>
        if recv.label = .struct ∨ recv.label = .enum then
          let candidates := idx.byName (afterLast "::".toList traitName)
          match (candidates.find? fun e => e.label = .trait).filter
              fun t => !isTwinMember t candidates with
          | some t =>
              some (.drawn [{ table := .implementsTrait recv.label, fromId := recv.id,
                              toId := t.id, confidence := "0.95".toList,
                              method := "impl-block".toList }])
          | none =>
              some (.missed { kind := "Implements".toList, fromId := recv.id,
                              targetText := traitName, reason := noTargetInCorpus })
        else none

/-- `resolve_implements`. -/
def resolveImplements (tables : TypeTables) : List Outcome :=
  ([SymbolLabel.struct, .enum].flatMap fun label =>
    (tables.implementing label).flatMap fun row =>
      (csvNames row.names).map
        (resolveOneImplements langs idx fileImports label row.id
          (langs.providerFor row.language))) ++
    tables.implBlocks.filterMap (resolveImplTraitBlock idx)

/-! ### Extends -/

/-- `resolve_one_extends_base`: a symbol of the child's own label comes before any other. -/
def resolveOneExtendsBase (provider : LanguageProvider) (label : SymbolLabel)
    (childQn rawBase : Str) : Outcome :=
  let lookup := afterLast ".".toList rawBase
  let candidates := idx.byName lookup
  match (candidates.find? fun c => c.label = label).or candidates.head? with
  | none =>
      .missed { kind := "Extends".toList, fromId := childQn, targetText := rawBase,
                reason := unresolvedBaseReason provider fileImports childQn lookup }
  | some target =>
      if isKnownRelTable (.extending label target.label) then
        .drawn [{ table := .extending label target.label, fromId := childQn, toId := target.id,
                  confidence := "0.95".toList, method := "declared-extends".toList }]
      else
        .missed { kind := "Extends".toList, fromId := childQn, targetText := rawBase,
                  reason := "no_rel_table_for_".toList ++ label.text ++ "_to_".toList ++
                    target.label.text }

/-- `resolve_extends`. -/
def resolveExtends (tables : TypeTables) : List Outcome :=
  [SymbolLabel.struct, .enum, .trait].flatMap fun label =>
    (tables.bases label).flatMap fun row =>
      (csvNames row.names).map
        (resolveOneExtendsBase idx fileImports (langs.providerFor row.language) label row.id)

/-! ### Uses -/

/-- The characters that `extract_type_identifiers` takes for blanks. -/
def typePunctuation : List Char := ['&', '*', '<', '>', ',', '(', ')', '[', ']']

/-- `extract_type_identifiers`. -/
def extractTypeIdentifiers (typeAnn : Str) (primitives : List Str) : List Str :=
  let cleaned := typeAnn.map fun c => if c ∈ typePunctuation then ' ' else c
  (splitWhitespace cleaned).filter fun token =>
    !(token.head? == some '\'' || token ∈ ["mut".toList, "dyn".toList, "impl".toList]) &&
      !(token ∈ primitives) && token.head?.any langs.isUppercase

def isTypeLike (label : SymbolLabel) : Bool :=
  label ∈ [SymbolLabel.struct, .enum, .trait, .typeAlias]

/-- `find_type_target`. -/
def findTypeTarget (typeName : Str) : Option SymbolEntry :=
  let candidates := idx.byName typeName
  match candidates.filter fun e => isTypeLike e.label with
  | [] => none
  | [t] => some t
  | t :: _ :: _ => if isTwinMember t candidates then none else some t

/-- `resolve_one_field_type_use` and `resolve_one_callable_type_use`. -/
def resolveOneTypeUse (caller : Caller) (method fromId typeName : Str) : Outcome :=
  let missed (reason : Str) := Outcome.missed
    { kind := "Uses".toList, fromId, targetText := typeName, reason }
  match findTypeTarget idx typeName with
  | none => missed "type not found in graph".toList
  | some target =>
      let table := RelTable.uses caller target.label
      if isKnownRelTable table then
        .drawn [{ table, fromId, toId := target.id, confidence := "0.9".toList, method }]
      else missed ("unknown rel table ".toList ++ table.text)

/-- `resolve_field_type_uses`. -/
def resolveFieldTypeUses (tables : TypeTables) : List Outcome :=
  tables.fields.flatMap fun row =>
    (extractTypeIdentifiers langs row.typeAnnotation
      (langs.providerFor row.language).primitives).map
      (resolveOneTypeUse idx .field "type-annotation-parse".toList row.id)

/-- `resolve_callable_type_uses`. -/
def resolveCallableTypeUses (tables : TypeTables) : List Outcome :=
  [Caller.function, .method].flatMap fun caller =>
    (tables.callables caller).flatMap fun row =>
      let primitives := (langs.providerFor row.language).primitives
      (extractTypeIdentifiers langs row.returnType primitives ++
        extractTypeIdentifiers langs row.constructedTypes primitives).map
        (resolveOneTypeUse idx caller "type-reference-parse".toList row.id)

/-- `resolve_uses`. -/
def resolveUses (tables : TypeTables) : List Outcome :=
  resolveFieldTypeUses langs idx tables ++ resolveCallableTypeUses langs idx tables

end Implements

/-! ### The phases -/

/-- `Tally`, with the buffer that the phases share. -/
structure Tally where
  resolved : Nat
  total : Nat
  unresolved : List UnresolvedRef
  buf : EdgeBuffer

/-- One outcome is counted, and its edges are staged. -/
def Tally.record (acc : Tally) : Outcome → Tally
  | .drawn edges =>
      { acc with resolved := acc.resolved + 1, total := acc.total + 1,
                 buf := edges.foldl (fun buf edge => (buf.add edge).2) acc.buf }
  | .missed ref =>
      { acc with total := acc.total + 1, unresolved := acc.unresolved ++ [ref] }

/-- A phase on the buffer that the phases before it leave. -/
def runPhase (buf : EdgeBuffer) (outcomes : List Outcome) : Tally :=
  outcomes.foldl Tally.record { resolved := 0, total := 0, unresolved := [], buf }

/-- The three phases of `run_phases`, in order. -/
def runTypePhases (langs : Languages) (tables : TypeTables) (buf : EdgeBuffer) :
    Tally × Tally × Tally :=
  let idx := buildSymbolIndex tables.symbols
  let fileImports := buildFileImportMap tables.imports
  let implementing := runPhase buf (resolveImplements langs idx fileImports tables)
  let extending := runPhase implementing.buf (resolveExtends langs idx fileImports tables)
  let uses := runPhase extending.buf (resolveUses langs idx tables)
  (implementing, extending, uses)

/-- The type-level edges of the store behind `resolve_graph`. -/
def typeEdgesAfter (langs : Languages) (persisted : List EdgeKey) (tables : TypeTables) :
    List EdgeKey := (runTypePhases langs tables (.new persisted)).2.2.buf.flush

end AutomatisedPipeline.Resolver
