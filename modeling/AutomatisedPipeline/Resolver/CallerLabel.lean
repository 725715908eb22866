import AutomatisedPipeline.Cfg.Select
import AutomatisedPipeline.Resolver.Ambiguity
import AutomatisedPipeline.Resolver.NestedScope
import AutomatisedPipeline.Resolver.TypeOrder

/-!
The edges drawn for a call site (`resolver/calls.rs`, the macro pass of `resolver_layers.rs`).

Which table an edge goes to is read off the label of the caller, and that label is looked up in
`by_qn`, where of several symbols of one qualified name the one loaded last stays. Functions and
methods are loaded first, so a namesake of any other kind takes the label of a caller, and no table
starts at that kind (`edges_kept_iff`).
-/

namespace AutomatisedPipeline.Calls

open Text Resolver
open Cfg (extractCallerFromCallsiteId)

/-! ### Call sites -/

/-- `RowInput`: one row of the scan over call sites. -/
structure RowInput where
  csId : Str
  callee : Str
  language : Str
  receiverHint : Str
  receiverHintVia : Str
  calleeShape : Str
deriving DecidableEq, Repr

/-- `CallSite`: the row with its caller. -/
structure CallSite extends RowInput where
  callerQn : Str
  callerLabel : SymbolLabel
deriving DecidableEq, Repr

/-- `determine_caller_label`. -/
def determineCallerLabel (idx : SymbolIndex) (callerQn : Str) : SymbolLabel :=
  match idx.byQn callerQn with
  | some entry => entry.label
  | none => .function

/-- The relationship tables of calls. -/
inductive CallTable where
  | calls (caller target : SymbolLabel)
  | uses (caller target : SymbolLabel)
  | callsStdlib (caller : SymbolLabel)
  | siteCalls (target : SymbolLabel)
  | siteCallsStdlib
deriving DecidableEq, Repr

def CallTable.text : CallTable → Str
  | .calls caller target => "Calls_".toList ++ caller.text ++ '_' :: target.text
  | .uses caller target => "Uses_".toList ++ caller.text ++ '_' :: target.text
  | .callsStdlib caller => "Calls_".toList ++ caller.text ++ "_StdlibSymbol".toList
  | .siteCalls target => "Calls_CallSite_".toList ++ target.text
  | .siteCallsStdlib => "Calls_CallSite_StdlibSymbol".toList

/-- The types that a call can use. -/
def usableLabels : List SymbolLabel := [.struct, .enum, .trait, .typeAlias]

/-- `call_rel_table`. -/
def callRelTable (caller target : SymbolLabel) : Option CallTable :=
  if caller ∈ callableLabels then
    if target ∈ callableLabels then some (.calls caller target)
    else if target ∈ usableLabels then some (.uses caller target)
    else none
  else none

/-- `call_site_rel_table`. -/
def callSiteRelTable (target : SymbolLabel) : Option CallTable :=
  if target = .function ∨ target = .method ∨ target = .struct then some (.siteCalls target) else none

/-- `REL_TABLES`, those of calls. -/
def callTables : List CallTable :=
  [.calls .function .function, .calls .function .method, .calls .method .function,
    .calls .method .method, .siteCalls .function, .siteCalls .method, .siteCallsStdlib,
    .siteCalls .struct, .callsStdlib .function, .callsStdlib .method, .uses .function .struct,
    .uses .function .enum, .uses .function .trait, .uses .function .typeAlias,
    .uses .method .struct, .uses .method .enum, .uses .method .trait, .uses .method .typeAlias]

/-- An edge that is offered to the buffer. -/
structure CallEdge where
  table : CallTable
  fromId : Str
  toId : Str
  evidence : Evidence
  confidence : Nat
deriving DecidableEq, Repr

/-! ### Resolution -/

/-- What the rest of the resolver finds for a site: its receiver gates, the scoping of the
candidates, the gate of a written path, the policy, the choice among twins and the expansion
of a macro. -/
structure Lookups where
  openCall : RowInput → Option (Resolution SymbolEntry)
  receiverGate : SymbolIndex → CallSite → Str → Option (Resolution SymbolEntry)
  namesExternalPath : SymbolIndex → CallSite → Str → Bool
  namedCandidates : SymbolIndex → CallSite → Str → Option (List SymbolEntry)
  qualifiedPathGate : SymbolIndex → CallSite → List SymbolEntry → Option (Resolution SymbolEntry)
  resolveTwoPass : CallSite → Str → List SymbolEntry → Resolution SymbolEntry
  choose : Str → List SymbolEntry → Option SymbolEntry
  emissions : SymbolIndex → RowInput → List (Str × Evidence)

/-- `resolve_single_call`. -/
def resolveSingleCall (lookups : Lookups) (idx : SymbolIndex) (site : CallSite) (fileId : Str) :
    Resolution SymbolEntry :=
  match lookups.receiverGate idx site fileId with
  | some gated => gated
  | none =>
      if lookups.namesExternalPath idx site fileId then .notFound
      else
        match lookups.namedCandidates idx site fileId with
        | none => .notFound
        | some candidates =>
            match lookups.qualifiedPathGate idx site candidates with
            | some gated => gated
            | none => lookups.resolveTwoPass site fileId candidates

/-- The caller's part of `resolve_one_call_site`. -/
def siteOf (idx : SymbolIndex) (row : RowInput) : CallSite :=
  let callerQn := extractCallerFromCallsiteId row.csId
  { row with callerQn, callerLabel := determineCallerLabel idx callerQn }

/-- `stage_call_edge`: the edges it offers to the buffer. -/
def stageCallEdge (site : CallSite) (target : SymbolEntry) (evidence : Evidence)
    (confidence : Nat) : List CallEdge :=
  match callRelTable site.callerLabel target.label with
  | none => []
  | some table =>
      if table ∉ callTables then []
      else
        ⟨table, site.callerQn, target.id, evidence, confidence⟩ ::
          match callSiteRelTable target.label with
          | none => []
          | some siteTable => [⟨siteTable, site.csId, target.id, evidence, confidence⟩]

/-- The target that a site is matched with, and on what evidence. -/
def matchedCall (lookups : Lookups) (idx : SymbolIndex) (row : RowInput) :
    Option (SymbolEntry × Evidence × Nat) :=
  let site := siteOf idx row
  let resolution := (lookups.openCall row).getD
    (resolveSingleCall lookups idx site (extractFilePrefixOrSelf site.callerQn))
  match resolution with
  | .resolved target evidence confidence => some (target, evidence, confidence)
  | .ambiguous candidates => (lookups.choose site.callerQn candidates).map fun twin =>
      (twin, .cfgSelected, confidenceFor .cfgSelected)
  | .notFound => none

/-- The edges of `resolve_one_call_site`. -/
def resolveOneCallSite (lookups : Lookups) (idx : SymbolIndex) (row : RowInput) : List CallEdge :=
  match matchedCall lookups idx row with
  | none => []
  | some (target, evidence, confidence) => stageCallEdge (siteOf idx row) target evidence confidence

/-- The edges of `MacroPass::resolve_one`. -/
def resolveOneMacro (lookups : Lookups) (idx : SymbolIndex) (row : RowInput) : List CallEdge :=
  let callerQn := extractCallerFromCallsiteId row.csId
  let callerLabel := determineCallerLabel idx callerQn
  if callerLabel ≠ .function ∧ callerLabel ≠ .method then []
  else
    (lookups.emissions idx row).flatMap fun (canonical, evidence) =>
      if .callsStdlib callerLabel ∉ callTables then []
      else
        [⟨.callsStdlib callerLabel, callerQn, canonical, evidence, confidenceFor evidence⟩,
          ⟨.siteCallsStdlib, row.csId, canonical, evidence, confidenceFor evidence⟩]

/-! ### The caller's label -/

/-- Some symbol of the name is of a kind that calls nothing. -/
def OtherKind (symbols : SymbolLabel → List SymbolRow) (qn : Str) : Prop :=
  ∃ label, label ∉ callableLabels ∧ ∃ row ∈ symbols label, row.qualifiedName = qn

section Load

variable (symbols : SymbolLabel → List SymbolRow) (qn : Str)

/-- A symbol of one of the labels has the name. -/
def Named (labels : List SymbolLabel) : Prop :=
  ∃ label ∈ labels, ∃ row ∈ symbols label, row.qualifiedName = qn

variable {qn}

/-- Where rows of a label have the name, the last of them is found. -/
theorem byQn_insertRows {label : SymbolLabel} {rows : List SymbolRow}
    (h : ∃ row ∈ rows, row.qualifiedName = qn) (idx : SymbolIndex) :
    ∃ entry, (rows.foldl (SymbolIndex.insert label) idx).byQn qn = some entry ∧
      entry.label = label := by
  rw [byQn_foldl_insert]
  cases hfind : rows.reverse.find? fun row => row.qualifiedName = qn with
  | none =>
      obtain ⟨row, hrow, heq⟩ := h
      have hmissing := List.find?_eq_none.mp hfind row (List.mem_reverse.mpr hrow)
      exact absurd (decide_eq_true heq) hmissing
  | some found => exact ⟨found.entry label, rfl, rfl⟩

/-- Where no row has the name, what was found is still found. -/
theorem byQn_insertRows_of_not {label : SymbolLabel} {rows : List SymbolRow}
    (h : ¬∃ row ∈ rows, row.qualifiedName = qn) (idx : SymbolIndex) :
    (rows.foldl (SymbolIndex.insert label) idx).byQn qn = idx.byQn qn := by
  have hfind : (rows.reverse.find? fun row => row.qualifiedName = qn) = none := by
    refine List.find?_eq_none.mpr fun row hrow => ?_
    rw [decide_eq_true_iff]
    exact fun heq => h ⟨row, List.mem_reverse.mp hrow, heq⟩
  rw [byQn_foldl_insert, hfind]
  rfl

variable {symbols}

theorem named_cons {label : SymbolLabel} {labels : List SymbolLabel} :
    Named symbols qn (label :: labels) ↔
      (∃ row ∈ symbols label, row.qualifiedName = qn) ∨ Named symbols qn labels :=
  List.exists_mem_cons_iff ..

variable (symbols qn) in
/-- The symbol of a name is the one loaded last. -/
theorem byQn_foldl (labels : List SymbolLabel) (idx : SymbolIndex) :
    let loaded := labels.foldl
      (fun idx label => (symbols label).foldl (SymbolIndex.insert label) idx) idx
    (Named symbols qn labels → ∃ entry, loaded.byQn qn = some entry ∧ entry.label ∈ labels) ∧
    (¬Named symbols qn labels → loaded.byQn qn = idx.byQn qn) := by
  induction labels generalizing idx with
  | nil => exact ⟨fun ⟨_, h, _⟩ => absurd h List.not_mem_nil, fun _ => rfl⟩
  | cons label labels ih =>
      intro loaded
      obtain ⟨hsome, hnone⟩ := ih ((symbols label).foldl (SymbolIndex.insert label) idx)
      rw [named_cons]
      constructor
      · intro h
        by_cases htail : Named symbols qn labels
        · obtain ⟨entry, hentry, hlabel⟩ := hsome htail
          exact ⟨entry, hentry, List.mem_cons_of_mem _ hlabel⟩
        · obtain ⟨entry, hentry, hlabel⟩ := byQn_insertRows (h.resolve_right htail) idx
          refine ⟨entry, (hnone htail).trans hentry, ?_⟩
          rw [hlabel]
          exact List.mem_cons_self
      · intro h
        obtain ⟨hhead, htail⟩ := not_or.mp h
        exact (hnone htail).trans (byQn_insertRows_of_not hhead idx)

end Load

/-- The labels of symbols other than functions and methods. -/
def otherLabels : List SymbolLabel := [.struct, .enum, .trait, .constant, .typeAlias, .mod, .file]

theorem mem_otherLabels (label : SymbolLabel) : label ∈ otherLabels ↔ label ∉ callableLabels := by
  cases label <;> decide

theorem named_otherLabels {symbols : SymbolLabel → List SymbolRow} {qn : Str} :
    Named symbols qn otherLabels ↔ OtherKind symbols qn := by
  simp only [Named, mem_otherLabels]
  rfl

/-- A caller is taken for a function or method exactly where no other symbol has its name. -/
theorem determineCallerLabel_mem_iff (symbols : SymbolLabel → List SymbolRow) (qn : Str) :
    determineCallerLabel (buildSymbolIndex symbols) qn ∈ callableLabels ↔ ¬OtherKind symbols qn := by
  have hsplit : symbolLabels = callableLabels ++ otherLabels := rfl
  obtain ⟨hother, hplain⟩ := byQn_foldl symbols qn otherLabels
    (callableLabels.foldl (fun idx label => (symbols label).foldl (SymbolIndex.insert label) idx)
      { byName := fun _ => [], byQn := fun _ => none })
  obtain ⟨hcallable, hnone⟩ := byQn_foldl symbols qn callableLabels
    { byName := fun _ => [], byQn := fun _ => none }
  rw [named_otherLabels] at hother hplain
  rw [determineCallerLabel, buildSymbolIndex, hsplit, List.foldl_append]
  by_cases hkind : OtherKind symbols qn
  · obtain ⟨entry, hentry, hlabel⟩ := hother hkind
    rw [hentry]
    exact iff_of_false ((mem_otherLabels entry.label).mp hlabel) (not_not.mpr hkind)
  · rw [hplain hkind]
    refine iff_of_true ?_ hkind
    by_cases hnamed : Named symbols qn callableLabels
    · obtain ⟨entry, hentry, hlabel⟩ := hcallable hnamed
      rw [hentry]
      exact hlabel
    · rw [hnone hnamed]
      exact List.mem_cons_self

/-! ### The edges of a caller -/

/-- The labels that a call edge may end at. -/
def targetLabels : List SymbolLabel := callableLabels ++ usableLabels

section Edges

variable {lookups : Lookups} {symbols : SymbolLabel → List SymbolRow} {row : RowInput}

theorem stageCallEdge_eq_nil_iff {site : CallSite} {target : SymbolEntry} {evidence : Evidence}
    {confidence : Nat} : stageCallEdge site target evidence confidence = [] ↔
      site.callerLabel ∉ callableLabels ∨ target.label ∉ targetLabels := by
  have hcases : ∀ caller label, callRelTable caller label = none ↔
      caller ∉ callableLabels ∨ label ∉ targetLabels := by
    intro caller label
    cases caller <;> cases label <;> decide
  have hknown : ∀ caller label table, callRelTable caller label = some table →
      table ∈ callTables := by
    intro caller label table h
    cases caller <;> cases label <;> cases h <;> decide
  rw [stageCallEdge, ← hcases]
  cases htable : callRelTable site.callerLabel target.label with
  | none => exact iff_of_true rfl rfl
  | some table =>
      dsimp only
      rw [if_neg (not_not.mpr (hknown _ _ _ htable))]
      exact iff_of_false (List.cons_ne_nil _ _) (Option.some_ne_none _)

/-- A call that is matched with something a call edge may end at. -/
def Hits (lookups : Lookups) (idx : SymbolIndex) (row : RowInput) : Prop :=
  ∃ target evidence confidence,
    matchedCall lookups idx row = some (target, evidence, confidence) ∧ target.label ∈ targetLabels

/-- No edge is drawn for a call exactly where its caller has a namesake of another kind, or it is
matched with nothing that a call edge may end at. -/
theorem resolveOneCallSite_eq_nil_iff :
    resolveOneCallSite lookups (buildSymbolIndex symbols) row = [] ↔
      OtherKind symbols (extractCallerFromCallsiteId row.csId) ∨
        ¬Hits lookups (buildSymbolIndex symbols) row := by
  have hlabel : (siteOf (buildSymbolIndex symbols) row).callerLabel ∈ callableLabels ↔
      ¬OtherKind symbols (extractCallerFromCallsiteId row.csId) :=
    determineCallerLabel_mem_iff symbols _
  rw [resolveOneCallSite, Hits]
  cases hmatch : matchedCall lookups (buildSymbolIndex symbols) row with
  | none =>
      refine iff_of_true rfl (.inr ?_)
      rintro ⟨target, evidence, confidence, h, -⟩
      cases h
  | some found =>
      obtain ⟨target, evidence, confidence⟩ := found
      dsimp only
      rw [stageCallEdge_eq_nil_iff, hlabel, not_not]
      refine or_congr_right (not_congr ⟨fun h => ⟨target, evidence, confidence, rfl, h⟩, ?_⟩)
      rintro ⟨target', evidence', confidence', h, htarget⟩
      cases h
      exact htarget

theorem resolveOneMacro_eq_nil_iff :
    resolveOneMacro lookups (buildSymbolIndex symbols) row = [] ↔
      OtherKind symbols (extractCallerFromCallsiteId row.csId) ∨
        lookups.emissions (buildSymbolIndex symbols) row = [] := by
  have hlabel := determineCallerLabel_mem_iff symbols (extractCallerFromCallsiteId row.csId)
  have hmem : ∀ label, label ∈ callableLabels ↔ ¬(label ≠ .function ∧ label ≠ .method) := by
    intro label
    cases label <;> decide
  have hknown : ∀ label, label ∈ callableLabels → CallTable.callsStdlib label ∈ callTables := by
    intro label
    cases label <;> decide
  rw [resolveOneMacro]
  generalize determineCallerLabel (buildSymbolIndex symbols)
    (extractCallerFromCallsiteId row.csId) = label at hlabel
  dsimp only
  by_cases hcallable : label ∈ callableLabels
  · rw [if_neg ((hmem label).mp hcallable), or_iff_right (hlabel.mp hcallable)]
    simp only [hknown label hcallable, not_true_eq_false, if_false]
    cases lookups.emissions (buildSymbolIndex symbols) row with
    | nil => exact iff_of_true rfl rfl
    | cons emission rest => exact iff_of_false (List.cons_ne_nil _ _) (List.cons_ne_nil _ _)
  · rw [if_pos (not_not.mp (mt (hmem label).mpr hcallable))]
    exact iff_of_true rfl (.inl (not_not.mp (mt hlabel.mpr hcallable)))

end Edges

/-! ### A namesake of another kind -/

/-- The tables after one more symbol, at any place among those of its label. -/
structure Adds (before : SymbolLabel → List SymbolRow) (label : SymbolLabel) (new : SymbolRow)
    (after : SymbolLabel → List SymbolRow) : Prop where
  added : ∃ front back, before label = front ++ back ∧ after label = front ++ new :: back
  others : ∀ other, other ≠ label → after other = before other

section Namesake

variable {before after : SymbolLabel → List SymbolRow} {label : SymbolLabel} {new : SymbolRow}
  {row : RowInput}

theorem Adds.otherKind (h : Adds before label new after) (hlabel : label ∉ callableLabels) :
    OtherKind after new.qualifiedName := by
  obtain ⟨front, back, -, hafter⟩ := h.added
  refine ⟨label, hlabel, new, ?_, rfl⟩
  rw [hafter]
  exact List.mem_append_right _ List.mem_cons_self

/-- A namesake of another kind leaves the edges of a call as they are exactly where one is there
already, or the call is matched with nothing that a call edge may end at; and those of a macro
where one is there, or the macro calls nothing. What is looked up with the namesake there does not
matter. -/
theorem edges_kept_iff (lookups lookups' : Lookups) (hadds : Adds before label new after)
    (hlabel : label ∉ callableLabels)
    (hname : new.qualifiedName = extractCallerFromCallsiteId row.csId) :
    (resolveOneCallSite lookups' (buildSymbolIndex after) row =
        resolveOneCallSite lookups (buildSymbolIndex before) row ↔
      OtherKind before (extractCallerFromCallsiteId row.csId) ∨
        ¬Hits lookups (buildSymbolIndex before) row) ∧
    (resolveOneMacro lookups' (buildSymbolIndex after) row =
        resolveOneMacro lookups (buildSymbolIndex before) row ↔
      OtherKind before (extractCallerFromCallsiteId row.csId) ∨
        lookups.emissions (buildSymbolIndex before) row = []) := by
  have hother := hadds.otherKind hlabel
  rw [hname] at hother
  rw [resolveOneCallSite_eq_nil_iff.mpr (.inl hother), resolveOneMacro_eq_nil_iff.mpr (.inl hother)]
  exact ⟨eq_comm.trans resolveOneCallSite_eq_nil_iff, eq_comm.trans resolveOneMacro_eq_nil_iff⟩

end Namesake

/-! ### A module and a function of one name -/

instance : Candidate SymbolEntry := ⟨SymbolEntry.qualifiedName⟩

/-- The lookup by name, which is all there is to a plain call by an unqualified name. -/
def byNameLookups : Lookups where
  openCall _ := none
  receiverGate _ _ _ := none
  namesExternalPath _ _ _ := false
  namedCandidates idx site _ :=
    if idx.byName site.callee = [] then none
    else some (visibleCandidates idx (idx.byName site.callee) site.callerQn false)
  qualifiedPathGate _ _ _ := none
  resolveTwoPass _ fileId candidates := resolve candidates ⟨[], fileId, none⟩
  choose _ _ := none
  emissions _ _ := []

def symbolRow (qn : String) : SymbolRow :=
  ⟨qn.toList, afterLast "::".toList qn.toList, qn.toList⟩

/-- Two functions of a file. -/
def twoFunctions : SymbolLabel → List SymbolRow
  | .function => [symbolRow "src/lib.rs::parse", symbolRow "src/lib.rs::gcd"]
  | _ => []

/-- The same file with `mod parse`. -/
def withModule : SymbolLabel → List SymbolRow
  | .function => [symbolRow "src/lib.rs::parse", symbolRow "src/lib.rs::gcd"]
  | .mod => [symbolRow "src/lib.rs::parse"]
  | _ => []

/-- The call of `gcd` in `parse`. -/
def callOfGcd : RowInput :=
  ⟨"src/lib.rs::parse::call@3".toList, "gcd".toList, "rust".toList, [], [], []⟩

theorem adds_module : Adds twoFunctions .mod (symbolRow "src/lib.rs::parse") withModule where
  added := ⟨[], [], rfl, rfl⟩
  others other hother := by
    cases other with
    | mod => exact absurd rfl hother
    | _ => rfl

/-- A call in `parse` of what no node is named. -/
def callOfLcm : RowInput :=
  ⟨"src/lib.rs::parse::call@4".toList, "lcm".toList, "rust".toList, [], [], []⟩

theorem edges_kept_iff_module :
    resolveOneCallSite byNameLookups (buildSymbolIndex withModule) callOfLcm =
      resolveOneCallSite byNameLookups (buildSymbolIndex twoFunctions) callOfLcm := by
  refine (edges_kept_iff byNameLookups byNameLookups adds_module (by decide)
    (by decide +kernel)).1.mpr (.inr ?_)
  have hnone : matchedCall byNameLookups (buildSymbolIndex twoFunctions) callOfLcm = none := by
    decide +kernel
  rintro ⟨_, _, _, hmatched, -⟩
  rw [hnone] at hmatched
  cases hmatched

/-- A module of the name of a function takes the calls of the function away. -/
theorem edges_not_kept_module :
    Adds twoFunctions .mod (symbolRow "src/lib.rs::parse") withModule ∧
      (symbolRow "src/lib.rs::parse").name ≠ callOfGcd.callee ∧
      resolveOneCallSite byNameLookups (buildSymbolIndex twoFunctions) callOfGcd =
        [⟨.calls .function .function, "src/lib.rs::parse".toList, "src/lib.rs::gcd".toList,
            .uniqueGlobal, 95⟩,
          ⟨.siteCalls .function, "src/lib.rs::parse::call@3".toList, "src/lib.rs::gcd".toList,
            .uniqueGlobal, 95⟩] ∧
      resolveOneCallSite byNameLookups (buildSymbolIndex withModule) callOfGcd = [] :=
  ⟨adds_module, by decide +kernel, by decide +kernel, by decide +kernel⟩

end AutomatisedPipeline.Calls
