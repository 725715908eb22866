import AutomatisedPipeline.Cfg.Select
import AutomatisedPipeline.MacroExpansion.Destination
import AutomatisedPipeline.Resolver.Ambiguity
import AutomatisedPipeline.Resolver.Statements
import AutomatisedPipeline.Resolver.TypeEdges
import AutomatisedPipeline.Store.Columns

/-!
One macro site (`resolver_layers.rs`, `macro_expansion/dispatch.rs`, `macro_expansion/rust.rs`).

A site is looked up in a table of rules or in a table of fixed expansions. It comes to one unit,
staged with its two rows or left open with a reason, or to no unit, where the macro calls nothing
(`comes_resolveOne`): no macro of the tables emits more than one call.
-/

namespace AutomatisedPipeline.MacroExpansion

open Text
open Resolver (CallSite Evidence Reason SymbolLabel confidenceFor extractFilePrefixOrSelf)

/-! ### The tables of the macros -/

/-- `Dispatch`. -/
inductive Dispatch where
  | receiverType (alternatives : List Alternative)
  | argShape (rules : List (Str × Str))
  | formDependent
  | noCall
deriving DecidableEq, Repr

/-- `DEST_MACROS`. -/
def destMacros : List Str := ["write", "writeln"].map String.toList

/-- `VEC_MACROS`. -/
def vecMacros : List Str := ["vec"].map String.toList

/-- `FORM_DEPENDENT_MACROS`. -/
def formDependentMacros : List Str :=
  ["panic", "assert", "debug_assert", "todo", "unimplemented", "unreachable"].map String.toList

/-- `NO_CALL_MACROS`. -/
def noCallMacros : List Str :=
  ["matches", "include_str", "include_bytes", "concat", "stringify", "env", "option_env", "cfg",
    "line", "file", "column", "module_path"].map String.toList

/-- `VEC_BY_SHAPE`. -/
def vecByShape : List (Str × Str) :=
  [("empty".toList, "std::vec::Vec::new".toList), ("repeat".toList, "std::vec::from_elem".toList)]

/-- `dispatch_for`. -/
def dispatchFor (macroName : Str) : Option Dispatch :=
  if macroName ∈ destMacros then some (.receiverType writeFmtAlternatives)
  else if macroName ∈ vecMacros then some (.argShape vecByShape)
  else if macroName ∈ formDependentMacros then some .formDependent
  else if macroName ∈ noCallMacros then some .noCall
  else none

/-- `decide_by_shape`. -/
def decideByShape (rules : List (Str × Str)) (shape : Str) : Decision :=
  match rules.find? fun rule => rule.1 = shape with
  | some (_, canonical) => .target canonical .argShape
  | none => .noStableTarget

/-- `RUST_MACROS`: the name and the `emit_calls` of each. -/
def rustMacros : List (Str × List Str) :=
  [("println", ["std::io::_print"]), ("eprintln", ["std::io::_eprint"]),
    ("print", ["std::io::_print"]), ("eprint", ["std::io::_eprint"]),
    ("format", ["std::fmt::format"]), ("assert_eq", ["core::panicking::assert_failed"]),
    ("assert_ne", ["core::panicking::assert_failed"]),
    ("debug_assert_eq", ["core::panicking::assert_failed"]),
    ("debug_assert_ne", ["core::panicking::assert_failed"]), ("dbg", ["std::io::_eprint"]),
    ("derive_Debug", []), ("derive_Clone", []), ("derive_Copy", []), ("derive_PartialEq", []),
    ("derive_Eq", []), ("derive_Hash", []), ("derive_Default", []), ("derive_PartialOrd", []),
    ("derive_Ord", [])].map fun entry => (entry.1.toList, entry.2.map String.toList)

/-- `lookup`, in the table of Rust. -/
def lookup (macroName : Str) : Option (List Str) :=
  (rustMacros.find? fun entry => entry.1 = macroName).map Prod.snd

/-! ### Rows -/

/-- The relationship tables that end at a `StdlibSymbol`. -/
inductive StdTable where
  | calls (caller : SymbolLabel)
  | siteCalls
  | implements (label : SymbolLabel)
deriving DecidableEq, Repr

namespace StdTable

def text : StdTable → Str
  | .calls caller => "Calls_".toList ++ caller.text ++ "_StdlibSymbol".toList
  | .siteCalls => "Calls_CallSite_StdlibSymbol".toList
  | .implements label => "Implements_".toList ++ label.text ++ "_StdlibSymbol".toList

/-- The name of the table starts with `Calls_`. -/
def isCalls : StdTable → Bool
  | .implements _ => false
  | _ => true

/-- `is_known_rel_table`. -/
def isKnownRelTable (table : StdTable) : Bool :=
  table.text ∈ Store.relTables.map fun schema => schema.1.toList

end StdTable

/-- A row of one of these tables; its confidence is in hundredths. -/
structure StdRow where
  table : StdTable
  source : Str
  target : Str
  confidence : Nat
  method : Str
deriving DecidableEq, Repr

namespace StdRow

/-- The key of the edge buffer. -/
def key (row : StdRow) : StdTable × Str × Str := (row.table, row.source, row.target)

/-- `MACRO_METHOD_PREFIX`. -/
def macroMethodPrefix : Str := "macro-expansion".toList

/-- A row that `reset_macro_expansion` deletes. -/
def isMacro (row : StdRow) : Bool :=
  row.table.isCalls && macroMethodPrefix.isPrefixOf row.method

end StdRow

/-! ### One site -/

/-- `resolution_label`. -/
def resolutionLabel : Evidence → Str
  | .uniqueGlobal => "unique-match".toList
  | .receiverBound => "receiver-type".toList
  | .importMatch => "import-scope-lookup".toList
  | .receiverLocalBinding => "receiver-local-binding".toList
  | .receiverReturnType => "receiver-return-type".toList
  | .sameFileUnique => "same-file-unique".toList
  | .packageProximity => "package-proximity".toList
  | .macroExpansion => "macro-expansion".toList
  | .macroReceiverType => "macro-expansion-receiver-type".toList
  | .cfgSelected => "cfg-selected".toList

/-- `evidence_of`. -/
def evidenceOf : Basis → Evidence
  | .receiverType => .macroReceiverType
  | .argShape => .macroExpansion

/-- `UnresolvedRef`, of the kind `Calls`. -/
structure UnresolvedRef where
  fromId : Str
  targetText : Str
  reason : Str
deriving DecidableEq, Repr

/-- What one site comes to: the symbols asked for, the rows offered to the edge buffer, and the
counts. -/
structure Outcome where
  created : List Str
  rows : List StdRow
  resolved : Nat
  total : Nat
  unresolved : List UnresolvedRef
  noCall : Nat
deriving DecidableEq

namespace Outcome

def empty : Outcome := ⟨[], [], 0, 0, [], 0⟩

/-- The counts of two outcomes together. -/
def append (a b : Outcome) : Outcome where
  created := a.created ++ b.created
  rows := a.rows ++ b.rows
  resolved := a.resolved + b.resolved
  total := a.total + b.total
  unresolved := a.unresolved ++ b.unresolved
  noCall := a.noCall + b.noCall

end Outcome

/-- `MacroRow`. -/
structure MacroRow where
  csId : Str
  macroName : Str
  receiverHint : Str
  argShape : Str
deriving DecidableEq, Repr

/-- `MacroSite`. -/
structure MacroSite where
  csId : Str
  callerQn : Str
  rel : StdTable
deriving DecidableEq, Repr

/-- What the pass reads besides the sites and their rows: the label of a caller, the types that a
file defines, its imports, whether it is outside every target, two columns of the sites, and which
nodes there are. -/
structure MacroContext where
  callerLabelOf : Str → SymbolLabel
  isTypeDefinedInFile : Str → Str → Bool
  imports : Str → List Import
  outsideTargets : Str → Bool
  receiverHint : Str → Str
  argShape : Str → Str
  hasNode : SymbolLabel → Str → Bool

/-- `unresolved_unit`. -/
def unresolvedUnit (row : MacroRow) (reason : String) : Outcome :=
  { Outcome.empty with
    total := 1
    unresolved := [⟨row.csId, row.macroName ++ ['!'], reason.toList⟩] }

/-- `ensure_symbol` and `stage_macro_emission`. -/
def stageMacroEmission (site : MacroSite) (canonical : Str) (evidence : Evidence) : Outcome :=
  if site.rel.isKnownRelTable then
    { Outcome.empty with
      created := [canonical]
      rows :=
        [⟨site.rel, site.callerQn, canonical, confidenceFor evidence, resolutionLabel evidence⟩,
          ⟨.siteCalls, site.csId, canonical, confidenceFor evidence, resolutionLabel evidence⟩]
      resolved := 1
      total := 1 }
  else
    { Outcome.empty with
      created := [canonical]
      total := 1
      unresolved := [⟨site.csId, canonical, "unknown rel table ".toList ++ site.rel.text⟩] }

/-- `resolve_decided`. -/
def resolveDecided (ctx : MacroContext) (row : MacroRow) (site : MacroSite) (rule : Dispatch) :
    Outcome :=
  let decision :=
    match rule with
    | .receiverType alternatives =>
        let file := extractFilePrefixOrSelf row.csId
        let name := lastSegment row.receiverHint
        decideByReceiver alternatives
          { declared := row.receiverHint
            definedInFile := !name.isEmpty && ctx.isTypeDefinedInFile file name }
          (ctx.imports file)
    | .argShape rules => decideByShape rules row.argShape
    | .formDependent | .noCall => .calleeByArguments
  match decision with
  | .target canonical basis => stageMacroEmission site canonical (evidenceOf basis)
  | .noStableTarget =>
      unresolvedUnit row "expansion calls compiler internals whose paths change between versions"
  | .calleeByArguments => unresolvedUnit row "callee depends on the arguments of the macro"
  | .typeNotDetermined => unresolvedUnit row "destination type not determined"

/-- `resolve_one`. -/
def resolveOne (ctx : MacroContext) (row : MacroRow) : Outcome :=
  let rule := dispatchFor row.macroName
  if rule = some .noCall then { Outcome.empty with noCall := 1 }
  else
    let callerQn := Cfg.extractCallerFromCallsiteId row.csId
    let callerLabel := ctx.callerLabelOf callerQn
    if callerLabel ≠ .function ∧ callerLabel ≠ .method then
      unresolvedUnit row "caller is not a callable (Function|Method)"
    else
      let site : MacroSite := ⟨row.csId, callerQn, .calls callerLabel⟩
      match rule with
      | some rule => resolveDecided ctx row site rule
      | none =>
          match lookup row.macroName with
          | none => unresolvedUnit row "no macro-expansion table entry"
          | some [] => unresolvedUnit row "expansion has no emit_calls entries"
          | some emitCalls => emitCalls.foldl (fun outcome canonical =>
              outcome.append (stageMacroEmission site canonical .macroExpansion)) .empty

/-- The row that `read_rows` makes of a site. -/
def macroRow (ctx : MacroContext) (site : CallSite) : MacroRow where
  csId := site.id
  macroName := lastSegment site.calleeName.dropLast
  receiverHint := ctx.receiverHint site.id
  argShape := ctx.argShape site.id

/-- What a macro site comes to. -/
def outcomeOf (ctx : MacroContext) (site : CallSite) : Outcome := resolveOne ctx (macroRow ctx site)

/-- The reason that the pass records for a site, if it does. -/
def reasonOf (ctx : MacroContext) (site : CallSite) : Option (Reason × Str) :=
  let outcome := outcomeOf ctx site
  if outcome.resolved > 0 then none
  else
    some (Resolver.macroReason
      { outsideTargets := ctx.outsideTargets (extractFilePrefixOrSelf site.id)
        emitted := []
        missed := outcome.unresolved.map UnresolvedRef.reason })

/-! ### What a site comes to -/

/-- A macro of the table emits at most one call. -/
theorem emitCalls_of_mem : ∀ entry ∈ rustMacros, entry.2.length ≤ 1 := by
  decide +kernel

theorem isKnownRelTable_calls {label : SymbolLabel} (h : label = .function ∨ label = .method) :
    (StdTable.calls label).isKnownRelTable = true := by
  rcases h with rfl | rfl <;> decide

/-- The outcome of a site that is staged: one unit and its two rows. -/
def stagedOutcome (site : MacroSite) (canonical : Str) (evidence : Evidence) : Outcome where
  created := [canonical]
  rows :=
    [⟨site.rel, site.callerQn, canonical, confidenceFor evidence, resolutionLabel evidence⟩,
      ⟨.siteCalls, site.csId, canonical, confidenceFor evidence, resolutionLabel evidence⟩]
  resolved := 1
  total := 1
  unresolved := []
  noCall := 0

/-- The site of an expansion. -/
def macroSite (ctx : MacroContext) (csId : Str) : MacroSite where
  csId := csId
  callerQn := Cfg.extractCallerFromCallsiteId csId
  rel := .calls (ctx.callerLabelOf (Cfg.extractCallerFromCallsiteId csId))

/-- A site is staged, or is one open unit, or is no unit. -/
inductive Comes (ctx : MacroContext) (csId : Str) : Outcome → Prop where
  | staged (canonical : Str) {evidence : Evidence} :
      evidence = .macroExpansion ∨ evidence = .macroReceiverType →
        Comes ctx csId (stagedOutcome (macroSite ctx csId) canonical evidence)
  | missed {row : MacroRow} {reason : String} :
      row.csId = csId → Comes ctx csId (unresolvedUnit row reason)
  | noCall : Comes ctx csId { Outcome.empty with noCall := 1 }

theorem stageMacroEmission_eq {site : MacroSite} (h : site.rel.isKnownRelTable = true)
    (canonical : Str) (evidence : Evidence) :
    stageMacroEmission site canonical evidence = stagedOutcome site canonical evidence := by
  rw [stageMacroEmission, if_pos h]
  rfl

theorem Outcome.empty_append (outcome : Outcome) : Outcome.empty.append outcome = outcome := by
  simp [Outcome.append, Outcome.empty]

theorem comes_resolveDecided {ctx : MacroContext} {row : MacroRow}
    (hknown : (macroSite ctx row.csId).rel.isKnownRelTable = true) (rule : Dispatch) :
    Comes ctx row.csId (resolveDecided ctx row (macroSite ctx row.csId) rule) := by
  unfold resolveDecided
  extract_lets file name decision
  cases decision with
  | target canonical basis =>
      dsimp only
      rw [stageMacroEmission_eq hknown]
      exact .staged canonical (by cases basis <;> simp [evidenceOf])
  | noStableTarget => exact .missed rfl
  | calleeByArguments => exact .missed rfl
  | typeNotDetermined => exact .missed rfl

/-- A table has at most one call for a macro, so each site is one unit at most. -/
theorem comes_resolveOne (ctx : MacroContext) (row : MacroRow) :
    Comes ctx row.csId (resolveOne ctx row) := by
  rw [resolveOne]
  split
  · exact .noCall
  dsimp only
  split
  · exact .missed rfl
  · rename_i hcallable
    have hknown : (macroSite ctx row.csId).rel.isKnownRelTable = true :=
      isKnownRelTable_calls (by tauto)
    split
    · exact comes_resolveDecided hknown _
    · split
      · exact .missed rfl
      · exact .missed rfl
      · rename_i emitCalls hnone hlookup
        obtain ⟨entry, hfind, hcalls⟩ := Option.map_eq_some_iff.mp hlookup
        have hlength := emitCalls_of_mem entry (List.mem_of_find?_eq_some hfind)
        rw [hcalls] at hlength
        match emitCalls, hnone, hlength with
        | [], hnone, _ => exact absurd rfl hnone
        | [canonical], _, _ =>
            rw [List.foldl_cons, List.foldl_nil, Outcome.empty_append]
            rw [show (⟨row.csId, _, _⟩ : MacroSite) = macroSite ctx row.csId from rfl,
              stageMacroEmission_eq hknown]
            exact .staged canonical (.inl rfl)

namespace Comes

variable {ctx : MacroContext} {csId : Str} {outcome : Outcome}

theorem total_eq (h : Comes ctx csId outcome) :
    outcome.resolved + outcome.unresolved.length = outcome.total := by
  cases h <;> rfl

theorem unit_eq (h : Comes ctx csId outcome) : outcome.total + outcome.noCall = 1 := by
  cases h <;> rfl

/-- The layer's own rows are the ones that it takes back. -/
theorem isMacro_of_mem (h : Comes ctx csId outcome) {row : StdRow} (hrow : row ∈ outcome.rows) :
    row.isMacro = true := by
  cases h with
  | @staged canonical evidence hevidence =>
      have hprefix : StdRow.macroMethodPrefix.isPrefixOf (resolutionLabel evidence) = true := by
        rcases hevidence with rfl | rfl <;> decide
      rcases List.mem_pair.mp hrow with rfl | rfl
      · rw [StdRow.isMacro, hprefix]
        rfl
      · rw [StdRow.isMacro, hprefix]
        rfl
  | missed => cases hrow
  | noCall => cases hrow

theorem target_mem_created (h : Comes ctx csId outcome) {row : StdRow}
    (hrow : row ∈ outcome.rows) : row.target ∈ outcome.created := by
  cases h with
  | staged canonical hevidence =>
      rcases List.mem_pair.mp hrow with rfl | rfl <;> exact List.mem_singleton_self canonical
  | missed => cases hrow
  | noCall => cases hrow

/-- A row at the level of the site is of the site, and goes to the one symbol asked for. -/
theorem eq_of_siteCalls (h : Comes ctx csId outcome) {row : StdRow} (hrow : row ∈ outcome.rows)
    (htable : row.table = .siteCalls) :
    row.source = csId ∧ outcome.created = [row.target] ∧ outcome.resolved = 1 := by
  cases h with
  | staged canonical hevidence =>
      rcases List.mem_pair.mp hrow with rfl | rfl
      · cases htable
      · exact ⟨rfl, rfl, rfl⟩
  | missed => cases hrow
  | noCall => cases hrow

end Comes

theorem comes_outcomeOf (ctx : MacroContext) (s : CallSite) : Comes ctx s.id (outcomeOf ctx s) :=
  comes_resolveOne ctx (macroRow ctx s)

end AutomatisedPipeline.MacroExpansion
