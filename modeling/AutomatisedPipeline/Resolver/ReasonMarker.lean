import AutomatisedPipeline.Logic.Run
import AutomatisedPipeline.Resolver.CallSites
import AutomatisedPipeline.Resolver.FileIds

/-!
The reason marker of a graph over the passes that write call sites.

A full index writes the rows marker, `resolve_graph` the reason marker, and neither an
incremental refresh nor a language-server pass touches them. With both in place the graph
vouches for its sites: every open one carries a reason of the closed set, every resolved
one carries none. A refresh inserts the sites of the files it parses with no reason and
opens those whose edge its purge takes away, and it leaves the marker, so the graph goes
on vouching for them. `reason_marker_kept_iff` says in which runs that never happens.

What the resolver finds for a site, and what a language server answers, are given; what
each of them makes of a finding is the source's.
-/

namespace AutomatisedPipeline.Resolver

open Text

/-! ### The graph as the passes see it -/

/-- A row of a `Calls_CallSite_*` table: the site, the label and id of what it resolved
to, and the `resolution_method`. -/
structure SiteRow where
  site : Str
  label : Str
  target : Str
  method : Str
deriving DecidableEq, Repr

/-- The call sites, their rows, and the forms that the two marker rows hold. -/
structure SiteGraph where
  sites : CallSiteTable
  rows : List SiteRow
  rowsForm : Option Nat
  reasonForm : Option Nat

/-- `CALLSITE_ROWS_FORM`. -/
def callsiteRowsForm : Nat := 1

/-- `CALLSITE_REASON_FORM`. -/
def callsiteReasonForm : Nat := 3

/-- `has_callsite_rows`. -/
def SiteGraph.hasCallsiteRows (g : SiteGraph) : Bool := g.rowsForm = some callsiteRowsForm

/-- `has_callsite_reasons`, the `reasons_recorded` of a summary. -/
def SiteGraph.hasCallsiteReasons (g : SiteGraph) : Bool := g.reasonForm = some callsiteReasonForm

/-- `write_callsite_reason_marker`. -/
def SiteGraph.writeCallsiteReasonMarker (g : SiteGraph) : SiteGraph :=
  if !g.hasCallsiteRows then { g with reasonForm := none }
  else { g with reasonForm := some callsiteReasonForm }

/-- `EdgeBuffer::add`: a row that is there is not written again. -/
def addRow (rows : List SiteRow) (row : SiteRow) : List SiteRow :=
  if rows.any fun r => r.site = row.site && r.label = row.label && r.target = row.target then rows
  else rows ++ [row]

/-! ### Full index -/

/-- A call site as the parser gives it: id, callee and language. -/
structure ParsedSite where
  id : Str
  calleeName : Str
  language : Str
deriving DecidableEq, Repr

/-- `append_callsite_properties`: open, with no reason. -/
def ParsedSite.row (site : ParsedSite) : CallSite :=
  ⟨site.id, site.calleeName, site.language, .fresh⟩

def insertSites (parsed : List ParsedSite) (table : CallSiteTable) : CallSiteTable :=
  parsed.foldl (fun table site => table.insert site.row) table

/-- A full index clears every marker, writes the sites of the tree and marks its rows. -/
def fullIndex (parsed : List ParsedSite) : SiteGraph where
  sites := insertSites parsed .empty
  rows := []
  rowsForm := some callsiteRowsForm
  reasonForm := none

/-! ### Incremental refresh -/

/-- The paths of a change set, and what the reparsed files hold: their call sites, and the
labels and ids of their nodes. -/
structure Refresh where
  changed : List Str
  added : List Str
  deleted : List Str
  renamedOld : List Str
  renamedNew : List Str
  parsed : List ParsedSite
  symbols : List (Str × Str)

namespace Refresh

def purgedRels (refresh : Refresh) : List Str :=
  refresh.changed ++ refresh.deleted ++ refresh.renamedOld

def reparsedSet (refresh : Refresh) : List Str :=
  refresh.changed ++ refresh.added ++ refresh.renamedNew

def leaving (refresh : Refresh) : List Str := refresh.reparsedSet ++ refresh.purgedRels

end Refresh

/-- `starts_with(id, '<rel>::')` for one of the paths. -/
def inFiles (rels : List Str) (id : Str) : Bool :=
  rels.any fun rel => (rel ++ "::".toList).isPrefixOf id

/-- What `reopen_sites_resolved_into` collects. -/
def reopenedSites (g : SiteGraph) (refresh : Refresh) : List Str :=
  (g.rows.filter fun row =>
    inFiles refresh.purgedRels row.target && !refresh.leaving.contains (filePathOf row.site)).map
      SiteRow.site

/-- `reopen_sites_resolved_into`. -/
def reopenSitesResolvedInto (g : SiteGraph) (refresh : Refresh) : SiteGraph :=
  { g with
    sites :=
      ((g.sites.markCallsitesUnresolved (reopenedSites g refresh)).setCallsiteUnresolvedReason
        (reopenedSites g refresh) []) }

/-- `purge_file_symbols` of the purged files. -/
def purge (g : SiteGraph) (refresh : Refresh) : SiteGraph :=
  { g with
    sites := g.sites.delete fun site => inFiles refresh.purgedRels site.id
    rows := g.rows.filter fun row =>
      !inFiles refresh.purgedRels row.site && !inFiles refresh.purgedRels row.target }

/-- `snapshot_inbound_edges`. -/
def snapshotRows (g : SiteGraph) (refresh : Refresh) : List SiteRow :=
  g.rows.filter fun row =>
    inFiles refresh.changed row.target && !refresh.reparsedSet.contains (filePathOf row.site)

/-- `relink_inbound_edges`: a row comes back where both its ends exist. -/
def relinkRows (g : SiteGraph) (refresh : Refresh) (saved : List SiteRow) : SiteGraph :=
  { g with
    rows := g.rows ++ saved.filter fun row =>
      decide ((row.label, row.target) ∈ refresh.symbols) &&
        decide (row.site ∈ g.sites.rows.map CallSite.id) }

/-- `restore_sites_with_edge`. -/
def restoreSitesWithEdge (g : SiteGraph) (ids : List Str) : SiteGraph :=
  { g with
    sites := g.sites.markNodesResolved
      ((g.rows.map SiteRow.site).filter fun id => ids.contains id) }

/-- The graph of a refresh before its last statement. -/
def relinked (g : SiteGraph) (refresh : Refresh) : SiteGraph :=
  let opened := purge (reopenSitesResolvedInto g refresh) refresh
  relinkRows { opened with sites := insertSites refresh.parsed opened.sites } refresh
    (snapshotRows g refresh)

/-- `apply_changes`, on call sites. -/
def applyRefresh (g : SiteGraph) (refresh : Refresh) : SiteGraph :=
  restoreSitesWithEdge (relinked g refresh) (reopenedSites g refresh)

/-! ### Resolution -/

/-- `Decline`. -/
inductive Decline where
  | foreignReturnType
  | scope (rule : Str)
  | declarationOnly
  | pointerCall (shape : Str)
  | noReceiverType
deriving DecidableEq, Repr

/-- `Failure`. -/
inductive Failure where
  | notFound (decline : Option Decline)
  | ambiguous (count : Nat) (twins : Bool)
  | noRelTable (label : Str)
deriving DecidableEq, Repr

/-- What `classify` reads of the graph for a site. -/
structure SiteFacts where
  outsideTargets : Bool
  rust : Bool
  namesRepoVariant : Bool
  externalOrigin : Option Decline → Option Str
  receiverHint : Str
  selfValue : Bool
  nameIsKnown : Bool

/-- A target the policy found: whether the schema has a table for the caller's label and
its own, and the method. -/
structure CallTarget where
  label : Str
  id : Str
  hasRelTable : Bool
  method : Str
deriving DecidableEq, Repr

/-- `PolicyResolution`, with the twin that `cfg_select::choose` picks. -/
inductive PolicyResolution where
  | resolved (target : CallTarget)
  | ambiguous (candidates : Nat) (chosen : Option CallTarget) (twins : Bool)
  | notFound (decline : Option Decline)
deriving DecidableEq, Repr

/-- What the expansion of a macro site comes to: the targets an edge was staged for, with
their methods, and the reasons of what has no edge. -/
structure MacroAnswer where
  outsideTargets : Bool
  emitted : List (Str × Str)
  missed : List Str

/-- What the resolver finds on a graph. -/
structure Findings where
  facts : CallSite → SiteFacts
  resolution : CallSite → PolicyResolution
  expansion : CallSite → MacroAnswer
  /-- A language-server row to a twin that the build compiles out. -/
  compiledOut : SiteRow → Bool

/-- Decimal digits. -/
def countText (n : Nat) : Str := (toString n).toList

/-- `classify`: what a failure leaves once the file, the shape of the call and the label
of a target are ruled out. -/
def classifyRest (facts : SiteFacts) (site : CallSite) (failure : Failure) : Reason × Str :=
  let decline :=
    match failure with
    | .notFound decline => decline
    | _ => none
  match facts.externalOrigin decline, decline, failure with
  | some origin, _, _ => (.externalCallee, origin)
  | none, some (.scope rule), _ => (.declinedByScope, rule)
  | none, some .declarationOnly, _ => (.notFound, "declaration_only".toList)
  | none, _, .ambiguous count _ => (.ambiguous, countText count)
  | none, _, _ =>
      if facts.rust && decide ('.' ∈ site.calleeName) && facts.receiverHint.isEmpty &&
          !facts.selfValue then
        (.noReceiverType, [])
      else if facts.nameIsKnown then (.notFound, [])
      else (.unknownCallee, [])

/-- `classify`. -/
def classify (facts : SiteFacts) (site : CallSite) (failure : Failure) : Reason × Str :=
  if facts.outsideTargets then (.outsideTargets, [])
  else
    match failure with
    | .notFound (some (.pointerCall shape)) => (.indirectCall, shape)
    | .notFound (some .noReceiverType) => (.noReceiverType, [])
    | .noRelTable label =>
        if label ∉ ["Function".toList, "Method".toList, "Struct".toList] then
          (.notACall, "names_".toList ++ label)
        else (.notFound, "no_rel_table:".toList ++ label)
    | failure =>
        if facts.namesRepoVariant then (.notACall, "enum_variant".toList)
        else
          match failure with
          | .ambiguous _ true => (.cfgTwins, [])
          | failure => classifyRest facts site failure

/-- What becomes of a site: an edge to a target, or a reason. -/
inductive SiteOutcome where
  | staged (target : CallTarget)
  | opened (reason : Reason) (detail : Str)
deriving DecidableEq, Repr

/-- `stage_call_edge`, with the reason of a target no edge can name. -/
def stageCallEdge (facts : SiteFacts) (site : CallSite) (target : CallTarget) : SiteOutcome :=
  if target.hasRelTable then .staged target
  else .opened (classify facts site (.noRelTable target.label)).1
    (classify facts site (.noRelTable target.label)).2

/-- `resolve_one_call_site`. -/
def resolveOneCallSite (findings : Findings) (site : CallSite) : SiteOutcome :=
  let facts := findings.facts site
  match findings.resolution site with
  | .resolved target => stageCallEdge facts site target
  | .ambiguous _ (some twin) _ => stageCallEdge facts site twin
  | .ambiguous count none twins =>
      .opened (classify facts site (.ambiguous count twins)).1
        (classify facts site (.ambiguous count twins)).2
  | .notFound decline =>
      .opened (classify facts site (.notFound decline)).1
        (classify facts site (.notFound decline)).2

/-- `macro_detail`. -/
def macroDetail (reason : Str) : Str :=
  if reason = "caller is not a callable (Function|Method)".toList then "not_callable".toList
  else if reason = "no macro-expansion table entry".toList then "no_table_entry".toList
  else if reason = "expansion has no emit_calls entries".toList then "no_emit_calls".toList
  else if reason =
      "expansion calls compiler internals whose paths change between versions".toList then
    "internal_callees".toList
  else if reason = "callee depends on the arguments of the macro".toList then
    "callee_by_arguments".toList
  else if reason = "destination type not determined".toList then "type_not_determined".toList
  else "no_rel_table".toList

/-- `macro_reason`. -/
def macroReason (answer : MacroAnswer) : Reason × Str :=
  if answer.outsideTargets then (.outsideTargets, [])
  else
    match answer.missed with
    | [] => (.notACall, [])
    | miss :: _ => (.macroSite, macroDetail miss)

/-- A pass of the resolver over the rows it reads: the sites it resolves are marked and
cleared, the others are given their reason. -/
def recordOutcomes (table : CallSiteTable) (reads : CallSite → Bool)
    (outcome : CallSite → Option (Reason × Str)) : CallSiteTable :=
  let resolvedIds := (table.rows.filter fun s => reads s && (outcome s).isNone).map CallSite.id
  let reasons := (table.rows.filter reads).filterMap fun s =>
    (outcome s).map fun why => (s.id, why)
  ((table.markNodesResolved resolvedIds).clearCallsiteReasons resolvedIds).writeCallsiteReasons
    reasons

/-- The reason that `resolve_calls` records for a site, if it does. -/
def callReason (findings : Findings) (site : CallSite) : Option (Reason × Str) :=
  match resolveOneCallSite findings site with
  | .staged _ => none
  | .opened reason detail => some (reason, detail)

/-- `resolve_calls`. -/
def resolveCalls (findings : Findings) (table : CallSiteTable) : CallSiteTable :=
  recordOutcomes table (fun s => !s.isMacro) (callReason findings)

/-- The reason that the macro pass records for a site, if it does. -/
def expansionReason (findings : Findings) (site : CallSite) : Option (Reason × Str) :=
  if (findings.expansion site).emitted.length > 0 then none
  else some (macroReason (findings.expansion site))

/-- `run_macro_expansion`. -/
def runMacroExpansion (findings : Findings) (table : CallSiteTable) : CallSiteTable :=
  recordOutcomes table CallSite.isMacro (expansionReason findings)

/-- `call_site_rel_table`. -/
def callSiteRelTable (label : Str) : Bool :=
  label ∈ ["Function".toList, "Method".toList, "StdlibSymbol".toList, "Struct".toList]

/-- The rows both passes stage for a site. -/
def stagedRows (findings : Findings) (site : CallSite) : List SiteRow :=
  if site.isMacro then
    (findings.expansion site).emitted.map fun target =>
      ⟨site.id, "StdlibSymbol".toList, target.1, target.2⟩
  else
    match resolveOneCallSite findings site with
    | .staged target =>
        if callSiteRelTable target.label then [⟨site.id, target.label, target.id, target.method⟩]
        else []
    | .opened _ _ => []

/-- `reset_macro_expansion`. -/
def resetMacroExpansion (g : SiteGraph) : SiteGraph :=
  { g with
    sites := g.sites.mapState fun site =>
      if site.isMacro then { site.state with isResolved := some false } else site.state
    rows := g.rows.filter fun row =>
      !(row.label = "StdlibSymbol".toList && "macro-expansion".toList.isPrefixOf row.method) }

/-- `reset_call_rows`. -/
def resetCallRows (method : Str) (g : SiteGraph) : SiteGraph :=
  { g with
    sites := g.sites.markCallsitesUnresolved
      ((g.rows.filter fun row => row.method = method).map SiteRow.site)
    rows := g.rows.filter fun row => !(row.method = method) }

/-- `reset_compiled_out_lsp_rows`. -/
def resetCompiledOutLspRows (findings : Findings) (g : SiteGraph) : SiteGraph :=
  let dropped := fun row : SiteRow =>
    row.method = "lsp-definition".toList && findings.compiledOut row
  let reopened := (g.rows.filter dropped).map SiteRow.site
  { g with
    sites := (g.sites.markCallsitesUnresolved reopened).setCallsiteUnresolvedReason reopened
      Reason.cfgTwins.text
    rows := g.rows.filter fun row => !dropped row }

/-- What `resolve_graph` does before it reads the sites. -/
def resetRows (findings : Findings) (g : SiteGraph) : SiteGraph :=
  resetCompiledOutLspRows findings
    (resetCallRows "receiver-return-type".toList
      (resetCallRows "cfg-selected".toList (resetMacroExpansion g)))

/-- `resolve_graph`, on call sites. -/
def resolveGraph (g : SiteGraph) (findings : Findings) : SiteGraph :=
  let opened := resetRows findings g
  let decided :=
    { opened with
      sites := runMacroExpansion findings (resolveCalls findings opened.sites) }
  let marked := decided.writeCallsiteReasonMarker
  { marked with
    rows := (opened.sites.rows.flatMap (stagedRows findings)).foldl addRow marked.rows }

/-! ### The language-server pass -/

/-- What the pass makes of a site: its file is outside every target; an edge, and its row
where there is a table for it; a twin compiled out; a definition outside the root; another
failure; or no answer. -/
inductive LspAnswer where
  | outsideTargets
  | added (row : Option (Str × Str))
  | compiledOutTwin
  | external
  | failed
  | unanswered
deriving DecidableEq, Repr

/-- `collect_unresolved_callsites`. -/
def collectUnresolvedCallsites (table : CallSiteTable) : List CallSite :=
  table.rows.filter fun s => s.state.isOpen && !s.isMacro

/-- The ids that `record` collects under one kind of answer. -/
def answered (table : CallSiteTable) (answer : CallSite → LspAnswer)
    (kind : LspAnswer → Bool) : List Str :=
  ((collectUnresolvedCallsites table).filter fun s => kind (answer s)).map CallSite.id

def LspAnswer.isAdded : LspAnswer → Bool
  | .added _ => true
  | _ => false

/-- `mark_resolved`. -/
def markResolved (table : CallSiteTable) (answer : CallSite → LspAnswer) : CallSiteTable :=
  let newlyResolved := answered table answer LspAnswer.isAdded
  let outside := answered table answer fun a => a = .outsideTargets
  let twins := answered table answer fun a => a = .compiledOutTwin
  let external := answered table answer fun a => a = .external
  ((((table.markNodesResolved newlyResolved).clearCallsiteReasons
    newlyResolved).setCallsiteUnresolvedReason outside
      Reason.outsideTargets.text).setCallsiteUnresolvedReason twins
        Reason.cfgTwins.text).promoteCallsiteReasonToExternal external "lsp_definition".toList

/-- The rows `insert_lsp_edge` writes for a site. -/
def lspRows (answer : CallSite → LspAnswer) (site : CallSite) : List SiteRow :=
  match answer site with
  | .added (some target) => [⟨site.id, target.1, target.2, "lsp-definition".toList⟩]
  | _ => []

/-- `resolve_with_lsp`, on call sites. -/
def resolveWithLsp (g : SiteGraph) (answer : CallSite → LspAnswer) : SiteGraph :=
  { g with
    sites := markResolved g.sites answer
    rows := ((collectUnresolvedCallsites g.sites).flatMap (lspRows answer)).foldl addRow g.rows }

/-! ### Runs -/

/-- A pass over the graph. -/
inductive Pass where
  | fullIndex (parsed : List ParsedSite)
  | incremental (refresh : Refresh)
  | resolve (findings : Findings)
  | languageServer (answer : CallSite → LspAnswer)

def SiteGraph.run (g : SiteGraph) : Pass → SiteGraph
  | .fullIndex parsed => Resolver.fullIndex parsed
  | .incremental refresh => applyRefresh g refresh
  | .resolve findings => resolveGraph g findings
  | .languageServer answer => resolveWithLsp g answer

/-- Where both markers carry the current form, every open site has exactly one reason of
the closed set and every resolved site has neither reason nor detail. -/
def Vouched (g : SiteGraph) : Prop :=
  g.hasCallsiteRows = true → g.hasCallsiteReasons = true →
    ∀ site ∈ g.sites.rows, site.state.Explained ∧ site.state.Clean

/-- A per-site row that a refresh leaves or brings back: neither end is purged, or its
target is in a changed file and is there again, and its site is not parsed again. -/
def Survives (refresh : Refresh) (row : SiteRow) : Prop :=
  (inFiles refresh.purgedRels row.site = false ∧ inFiles refresh.purgedRels row.target = false) ∨
    (inFiles refresh.changed row.target = true ∧ filePathOf row.site ∉ refresh.reparsedSet ∧
      (row.label, row.target) ∈ refresh.symbols)

/-- The site stands before the refresh and is not in a purged file. -/
def Remains (g : SiteGraph) (refresh : Refresh) (id : Str) : Prop :=
  ∃ s ∈ g.sites.rows, s.id = id ∧ inFiles refresh.purgedRels id = false

/-- The refresh inserts the site, or opens it. -/
def Blanked (g : SiteGraph) (refresh : Refresh) (id : Str) : Prop :=
  (¬ Remains g refresh id ∧ ∃ p ∈ refresh.parsed, p.id = id) ∨
    (Remains g refresh id ∧ id ∈ reopenedSites g refresh)

/-- Every site that the refresh inserts or opens was one that it opens and that has a row
which survives. -/
def LeavesNoBlank (g : SiteGraph) (refresh : Refresh) : Prop :=
  ∀ id, Blanked g refresh id →
    id ∈ reopenedSites g refresh ∧ ∃ row ∈ g.rows, row.site = id ∧ Survives refresh row

/-- A refresh of a graph with both markers leaves no blank. -/
def KeepsReasons (g : SiteGraph) : Pass → Prop
  | .incremental refresh =>
      g.hasCallsiteRows = true → g.hasCallsiteReasons = true → LeavesNoBlank g refresh
  | _ => True

/-! ### A pass of the resolver -/

theorem recordOutcomes_spec {table : CallSiteTable} {reads : CallSite → Bool}
    {outcome : CallSite → Option (Reason × Str)} {s : CallSite}
    (hs : s ∈ (recordOutcomes table reads outcome).rows) :
    ∃ t ∈ table.rows, CallSiteTable.SameSite s t ∧ (t.state.Clean → s.state.Clean) ∧
      (reads t = true ∨ t.state.Explained → s.state.Explained) := by
  obtain ⟨u, hu, hsu, hclean, hexplained⟩ := CallSiteTable.mem_writeCallsiteReasons hs
  obtain ⟨v, hv, rfl⟩ := CallSiteTable.mem_update.mp hu
  obtain ⟨t, ht, rfl⟩ := CallSiteTable.mem_update.mp hv
  refine ⟨t, ht, hsu, fun h => hclean ?_, fun h => hexplained ?_⟩
  · by_cases hid : t.id ∈ (table.rows.filter fun s => reads s && (outcome s).isNone).map CallSite.id
    · simp only [hid, if_true]
      exact fun _ => ⟨rfl, rfl⟩
    · simpa [hid] using h
  · by_cases hid : t.id ∈ (table.rows.filter fun s => reads s && (outcome s).isNone).map CallSite.id
    · right
      simp only [hid, if_true]
      exact SiteState.explained_of_resolved rfl
    · rcases h with hreads | h
      · -- the site is read and not resolved: its reason is in the list
        left
        rw [table.id_mem_filter_iff ht, hreads, Bool.true_and, Option.isNone_iff_eq_none] at hid
        obtain ⟨why, hwhy⟩ := Option.ne_none_iff_exists'.mp hid
        refine List.mem_map.mpr ⟨(t.id, why), List.mem_filterMap.mpr ⟨t, ?_, ?_⟩, rfl⟩
        · exact List.mem_filter.mpr ⟨ht, hreads⟩
        · rw [hwhy, Option.map_some]
      · right
        simpa [hid] using h

theorem clean_resetRows {g : SiteGraph} (findings : Findings)
    (h : ∀ s ∈ g.sites.rows, s.state.Clean) :
    ∀ s ∈ (resetRows findings g).sites.rows, s.state.Clean := by
  have hopened : ∀ {st : SiteState}, st.isResolved = some false → st.Clean := by
    intro st hst hresolved
    rw [hst] at hresolved
    cases hresolved
  have hmacro : ∀ s ∈ (resetMacroExpansion g).sites.rows, s.state.Clean := by
    intro s hs
    obtain ⟨t, ht, rfl⟩ := CallSiteTable.mem_mapState.mp hs
    dsimp only
    split
    · exact hopened rfl
    · exact h t ht
  have hcalls (method : Str) {g : SiteGraph} (h : ∀ s ∈ g.sites.rows, s.state.Clean) :
      ∀ s ∈ (resetCallRows method g).sites.rows, s.state.Clean :=
    CallSiteTable.forall_update (fun s hs _ => h s hs) fun _ _ _ => hopened rfl
  refine CallSiteTable.forall_update (fun s hs hid => ?_) fun s hs hid => ?_
  · exact CallSiteTable.forall_update (fun t ht _ => hcalls _ (hcalls _ hmacro) t ht)
      (fun _ _ _ => hopened rfl) s hs
  · obtain ⟨t, -, rfl⟩ := CallSiteTable.mem_update.mp hs
    simp only [hid, if_true]
    exact hopened rfl

/-- After the resolver every site is explained, whatever it was before. -/
theorem resolveGraph_sites {g : SiteGraph} (findings : Findings)
    (h : ∀ s ∈ g.sites.rows, s.state.Clean) :
    ∀ s ∈ (resolveGraph g findings).sites.rows, s.state.Explained ∧ s.state.Clean := by
  intro s hs
  have hsites : (resolveGraph g findings).sites =
      runMacroExpansion findings (resolveCalls findings (resetRows findings g).sites) := by
    simp only [resolveGraph, SiteGraph.writeCallsiteReasonMarker]
    split <;> rfl
  rw [hsites] at hs
  obtain ⟨u, hu, -, hcleanu, hexplainedu⟩ := recordOutcomes_spec hs
  obtain ⟨t, ht, htu, hcleant, hexplainedt⟩ := recordOutcomes_spec hu
  refine ⟨hexplainedu ?_, hcleanu (hcleant (clean_resetRows findings h t ht))⟩
  cases hmacro : u.isMacro with
  | true => exact .inl rfl
  | false =>
      right
      refine hexplainedt (.inl ?_)
      rw [← htu.isMacro, hmacro]
      rfl

theorem hasCallsiteRows_resolveGraph (g : SiteGraph) (findings : Findings) :
    (resolveGraph g findings).hasCallsiteRows = g.hasCallsiteRows := by
  simp only [resolveGraph, SiteGraph.writeCallsiteReasonMarker]
  split <;> rfl

/-! ### The language-server pass -/

/-- A site the pass read gets at most one of its writes. -/
theorem mem_answered_iff {table : CallSiteTable} {answer : CallSite → LspAnswer}
    {kind : LspAnswer → Bool} {s : CallSite} (hs : s ∈ table.rows) :
    s.id ∈ answered table answer kind ↔
      (s.state.isOpen && !s.isMacro) = true ∧ kind (answer s) = true := by
  rw [answered, collectUnresolvedCallsites, List.filter_filter, table.id_mem_filter_iff hs,
    Bool.and_eq_true, and_comm]

/-- What an answer writes on a site that the pass read. -/
def LspAnswer.write (answer : LspAnswer) (state : SiteState) : SiteState :=
  match answer with
  | .added _ => ⟨some true, [], []⟩
  | .outsideTargets => { state with reason := Reason.outsideTargets.text, detail := [] }
  | .compiledOutTwin => { state with reason := Reason.cfgTwins.text, detail := [] }
  | .external =>
      if state.isOpen && decide (state.reason ∈ improvable.map Reason.text) then
        { state with reason := Reason.externalCallee.text, detail := "lsp_definition".toList }
      else state
  | .failed | .unanswered => state

/-- The writes of the pass, site by site: no two of them name one site. -/
theorem markResolved_eq (table : CallSiteTable) (answer : CallSite → LspAnswer) :
    markResolved table answer = table.mapState fun t =>
      if t.state.isOpen && !t.isMacro then (answer t).write t.state else t.state := by
  have hmarked (ids : List Str) : table.markNodesResolved ids = table.mapState fun t =>
      if t.id ∈ ids then { t.state with isResolved := some true } else t.state := rfl
  simp only [markResolved, hmarked, CallSiteTable.clearCallsiteReasons,
    CallSiteTable.setCallsiteUnresolvedReason, CallSiteTable.promoteCallsiteReasonToExternal,
    CallSiteTable.update_mapState]
  refine CallSiteTable.mapState_congr fun t ht => ?_
  have hmem (kind : LspAnswer → Bool) : t.id ∈ answered table answer kind ↔
      (t.state.isOpen && !t.isMacro) = true ∧ kind (answer t) = true := mem_answered_iff ht
  by_cases hread : (t.state.isOpen && !t.isMacro) = true
  · simp only [hmem, hread, true_and, if_true]
    cases answer t <;> rfl
  · simp only [hmem, hread, false_and, if_false, Bool.false_eq_true]

theorem SiteState.Clean.write {state : SiteState} (hclean : state.Clean)
    (hopen : state.isOpen = true) (answer : LspAnswer) : (answer.write state).Clean := by
  have hunresolved : state.isResolved ≠ some true := by simpa [SiteState.isOpen] using hopen
  cases answer with
  | added row => exact fun _ => ⟨rfl, rfl⟩
  | outsideTargets | compiledOutTwin => exact fun h => absurd h hunresolved
  | external =>
      simp only [LspAnswer.write]
      split
      · exact fun h => absurd h hunresolved
      · exact hclean
  | failed | unanswered => exact hclean

theorem SiteState.Explained.write {state : SiteState} (hexplained : state.Explained)
    (answer : LspAnswer) : (answer.write state).Explained := by
  cases answer with
  | added row => exact SiteState.explained_of_resolved rfl
  | outsideTargets => exact SiteState.explained_of_reason (rfl : _ = Reason.outsideTargets.text)
  | compiledOutTwin => exact SiteState.explained_of_reason (rfl : _ = Reason.cfgTwins.text)
  | external =>
      simp only [LspAnswer.write]
      split
      · exact SiteState.explained_of_reason (rfl : _ = Reason.externalCallee.text)
      · exact hexplained
  | failed | unanswered => exact hexplained

theorem markResolved_sites {table : CallSiteTable} (answer : CallSite → LspAnswer)
    {s : CallSite} (hs : s ∈ (markResolved table answer).rows) :
    ∃ t ∈ table.rows, (t.state.Clean → s.state.Clean) ∧
      (t.state.Explained → s.state.Explained) := by
  rw [markResolved_eq] at hs
  obtain ⟨t, ht, rfl⟩ := CallSiteTable.mem_mapState.mp hs
  refine ⟨t, ht, fun h => ?_, fun h => ?_⟩
  · dsimp only
    split
    · rename_i hread
      exact h.write (Bool.and_eq_true_iff.mp hread).1 _
    · exact h
  · dsimp only
    split
    · exact h.write _
    · exact h

/-! ### The refresh -/

theorem mem_insertSites {parsed : List ParsedSite} {table : CallSiteTable} {s : CallSite}
    (hs : s ∈ (insertSites parsed table).rows) :
    s ∈ table.rows ∨ ((∀ t ∈ table.rows, t.id ≠ s.id) ∧ ∃ p ∈ parsed, p.row = s) := by
  induction parsed generalizing table with
  | nil => exact .inl hs
  | cons p parsed ih =>
      rcases ih hs with hmem | ⟨hnew, q, hq, rfl⟩
      · rcases CallSiteTable.mem_insert.mp hmem with hmem | ⟨hnew, rfl⟩
        · exact .inl hmem
        · refine .inr ⟨fun t ht hid => hnew ?_, p, List.mem_cons_self, rfl⟩
          exact List.mem_map.mpr ⟨t, ht, hid⟩
      · refine .inr ⟨fun t ht => hnew t ?_, q, List.mem_cons_of_mem p hq, rfl⟩
        exact CallSiteTable.mem_insert.mpr (.inl ht)

theorem rows_subset_insertSites {parsed : List ParsedSite} {table : CallSiteTable} {s : CallSite}
    (hs : s ∈ table.rows) : s ∈ (insertSites parsed table).rows := by
  induction parsed generalizing table with
  | nil => exact hs
  | cons p parsed ih => exact ih (CallSiteTable.mem_insert.mpr (.inl hs))

/-- Every parsed site has a row afterwards. -/
theorem exists_mem_insertSites {parsed : List ParsedSite} {table : CallSiteTable}
    {p : ParsedSite} (hp : p ∈ parsed) : ∃ s ∈ (insertSites parsed table).rows, s.id = p.id := by
  induction parsed generalizing table with
  | nil => cases hp
  | cons q parsed ih =>
      rcases List.mem_cons.mp hp with rfl | hp
      · have hinserted : ∃ s ∈ (table.insert p.row).rows, s.id = p.id := by
          by_cases hid : p.row.id ∈ table.rows.map CallSite.id
          · obtain ⟨s, hs, hsid⟩ := List.mem_map.mp hid
            exact ⟨s, CallSiteTable.mem_insert.mpr (.inl hs), hsid⟩
          · exact ⟨p.row, CallSiteTable.mem_insert.mpr (.inr ⟨hid, rfl⟩), rfl⟩
        obtain ⟨s, hs, hid⟩ := hinserted
        have hkept : s ∈ (insertSites parsed (table.insert p.row)).rows :=
          rows_subset_insertSites hs
        exact ⟨s, hkept, hid⟩
      · exact ih hp

/-- The sites after the purge. -/
theorem mem_purged {g : SiteGraph} {refresh : Refresh} {s : CallSite} :
    s ∈ (purge (reopenSitesResolvedInto g refresh) refresh).sites.rows ↔
      ∃ t ∈ g.sites.rows, inFiles refresh.purgedRels t.id = false ∧
        { t with
          state := if t.id ∈ reopenedSites g refresh then .fresh else t.state } = s := by
  simp only [purge, reopenSitesResolvedInto, CallSiteTable.mem_delete,
    CallSiteTable.setCallsiteUnresolvedReason, CallSiteTable.markCallsitesUnresolved,
    CallSiteTable.update_update, CallSiteTable.mem_update]
  constructor
  · rintro ⟨⟨t, ht, rfl⟩, hfile⟩
    exact ⟨t, ht, hfile, rfl⟩
  · rintro ⟨t, ht, hfile, rfl⟩
    exact ⟨⟨t, ht, rfl⟩, hfile⟩

theorem relinked_sites (g : SiteGraph) (refresh : Refresh) :
    (relinked g refresh).sites =
      insertSites refresh.parsed (purge (reopenSitesResolvedInto g refresh) refresh).sites :=
  rfl

/-- The sites before the last statement: those the refresh inserts or opens are fresh, the
others are as they were. -/
theorem mem_relinked {g : SiteGraph} {refresh : Refresh} {s : CallSite}
    (hs : s ∈ (relinked g refresh).sites.rows) :
    (Blanked g refresh s.id ∧ s.state = .fresh) ∨
      (s.id ∉ reopenedSites g refresh ∧ ¬ Blanked g refresh s.id ∧ s ∈ g.sites.rows) := by
  rw [relinked_sites] at hs
  rcases mem_insertSites hs with hold | ⟨hnew, p, hp, rfl⟩
  · obtain ⟨t, ht, hfile, rfl⟩ := mem_purged.mp hold
    have hremains : Remains g refresh t.id := ⟨t, ht, rfl, hfile⟩
    by_cases hid : t.id ∈ reopenedSites g refresh
    · exact .inl ⟨.inr ⟨hremains, hid⟩, by simp [hid]⟩
    · refine .inr ⟨hid, ?_, by simpa [hid] using ht⟩
      rintro (⟨hnot, -⟩ | ⟨-, hopened⟩)
      · exact hnot hremains
      · exact hid hopened
  · refine .inl ⟨.inl ⟨?_, p, hp, rfl⟩, rfl⟩
    rintro ⟨t, ht, hid, hfile⟩
    exact hnew _ (mem_purged.mpr ⟨t, ht, by rwa [hid], rfl⟩) hid

/-- Every site that the refresh inserts or opens is there. -/
theorem exists_mem_relinked {g : SiteGraph} {refresh : Refresh} {id : Str}
    (h : Blanked g refresh id) : ∃ s ∈ (relinked g refresh).sites.rows, s.id = id := by
  rw [relinked_sites]
  rcases h with ⟨-, p, hp, rfl⟩ | ⟨⟨t, ht, rfl, hfile⟩, -⟩
  · exact exists_mem_insertSites hp
  · exact ⟨_, rows_subset_insertSites (mem_purged.mpr ⟨t, ht, hfile, rfl⟩), rfl⟩

/-- A site holds a row after the relink exactly when one of its rows survives. -/
theorem mem_relinked_rows_iff {g : SiteGraph} {refresh : Refresh} {s : CallSite}
    (hs : s ∈ (relinked g refresh).sites.rows) :
    s.id ∈ (relinked g refresh).rows.map SiteRow.site ↔
      ∃ row ∈ g.rows, row.site = s.id ∧ Survives refresh row := by
  have hrows : (relinked g refresh).rows =
      (g.rows.filter fun row =>
        !inFiles refresh.purgedRels row.site && !inFiles refresh.purgedRels row.target) ++
      (snapshotRows g refresh).filter fun row =>
        decide ((row.label, row.target) ∈ refresh.symbols) &&
          decide (row.site ∈ (relinked g refresh).sites.rows.map CallSite.id) := rfl
  simp only [hrows, List.map_append, List.mem_append, List.mem_map, List.mem_filter,
    snapshotRows, Bool.and_eq_true, Bool.not_eq_true', List.contains_eq_mem,
    decide_eq_true_eq, decide_eq_false_iff_not]
  constructor
  · rintro (⟨row, ⟨hrow, hsite, htarget⟩, hid⟩ | ⟨row, ⟨⟨hrow, hchanged, howner⟩, hsymbol, -⟩, hid⟩)
    · exact ⟨row, hrow, hid, .inl ⟨hsite, htarget⟩⟩
    · exact ⟨row, hrow, hid, .inr ⟨hchanged, howner, hsymbol⟩⟩
  · rintro ⟨row, hrow, hid, ⟨hsite, htarget⟩ | ⟨hchanged, howner, hsymbol⟩⟩
    · exact .inl ⟨row, ⟨hrow, hsite, htarget⟩, hid⟩
    · exact .inr ⟨row, ⟨⟨hrow, hchanged, howner⟩, hsymbol, s, hs, hid.symm⟩, hid⟩

/-- The sites after the refresh. -/
theorem mem_applyRefresh {g : SiteGraph} {refresh : Refresh} {s : CallSite} :
    s ∈ (applyRefresh g refresh).sites.rows ↔
      ∃ t ∈ (relinked g refresh).sites.rows,
        { t with
          state :=
            if t.id ∈ (relinked g refresh).rows.map SiteRow.site ∧
                t.id ∈ reopenedSites g refresh then
              { t.state with isResolved := some true }
            else t.state } = s := by
  rw [applyRefresh, restoreSitesWithEdge, CallSiteTable.markNodesResolved,
    CallSiteTable.mem_update]
  simp only [List.mem_filter, List.contains_eq_mem, decide_eq_true_eq]

theorem clean_applyRefresh {g : SiteGraph} {refresh : Refresh}
    (h : ∀ s ∈ g.sites.rows, s.state.Clean) :
    ∀ s ∈ (applyRefresh g refresh).sites.rows, s.state.Clean := by
  intro s hs
  obtain ⟨t, ht, rfl⟩ := mem_applyRefresh.mp hs
  rcases mem_relinked ht with ⟨-, hfresh⟩ | ⟨hnot, -, hold⟩
  · dsimp only
    rw [hfresh]
    split
    · exact fun _ => ⟨rfl, rfl⟩
    · exact SiteState.clean_fresh
  · simpa [hnot] using h t hold

/-- A refresh leaves every site explained exactly when it leaves no blank. -/
theorem explained_applyRefresh_iff {g : SiteGraph} {refresh : Refresh}
    (h : ∀ s ∈ g.sites.rows, s.state.Explained) :
    (∀ s ∈ (applyRefresh g refresh).sites.rows, s.state.Explained) ↔
      LeavesNoBlank g refresh := by
  constructor
  · intro hall id hblank
    obtain ⟨t, ht, rfl⟩ := exists_mem_relinked hblank
    have hfresh : t.state = .fresh := by
      rcases mem_relinked ht with ⟨-, hfresh⟩ | ⟨-, hnot, -⟩
      · exact hfresh
      · exact absurd hblank hnot
    have hexplained := hall _ (mem_applyRefresh.mpr ⟨t, ht, rfl⟩)
    by_cases hback : t.id ∈ (relinked g refresh).rows.map SiteRow.site ∧
        t.id ∈ reopenedSites g refresh
    · exact ⟨hback.2, (mem_relinked_rows_iff ht).mp hback.1⟩
    · dsimp only at hexplained
      rw [if_neg hback, hfresh] at hexplained
      exact absurd hexplained (SiteState.not_explained rfl rfl)
  · intro hnone s hs
    obtain ⟨t, ht, rfl⟩ := mem_applyRefresh.mp hs
    rcases mem_relinked ht with ⟨hblank, -⟩ | ⟨hnot, -, hold⟩
    · obtain ⟨hopened, hrow⟩ := hnone t.id hblank
      have hback := (mem_relinked_rows_iff ht).mpr hrow
      dsimp only
      rw [if_pos ⟨hback, hopened⟩]
      exact SiteState.explained_of_resolved rfl
    · simpa [hnot] using h t hold

/-! ### Runs keep what the marker says -/

/-- Over rows of the current form, a resolved site has no reason. -/
def CleanRows (g : SiteGraph) : Prop :=
  g.hasCallsiteRows = true → ∀ s ∈ g.sites.rows, s.state.Clean

theorem run_cleanRows {g : SiteGraph} (h : CleanRows g) (pass : Pass) : CleanRows (g.run pass) := by
  cases pass with
  | fullIndex parsed =>
      intro _ s hs
      rcases mem_insertSites hs with hold | ⟨-, p, -, rfl⟩
      · cases hold
      · exact SiteState.clean_fresh
  | incremental refresh => exact fun hrows => clean_applyRefresh (h hrows)
  | resolve findings =>
      intro hrows s hs
      rw [SiteGraph.run, hasCallsiteRows_resolveGraph] at hrows
      exact (resolveGraph_sites findings (h hrows) s hs).2
  | languageServer answer =>
      intro hrows s hs
      obtain ⟨t, ht, hclean, -⟩ := markResolved_sites answer hs
      exact hclean (h hrows t ht)

theorem vouched_run_iff {g : SiteGraph} (h : CleanRows g) (hvouched : Vouched g) (pass : Pass) :
    Vouched (g.run pass) ↔ KeepsReasons g pass := by
  cases pass with
  | fullIndex parsed =>
      refine iff_of_true (fun _ hreasons => ?_) trivial
      cases hreasons
  | incremental refresh =>
      constructor
      · intro hafter hrows hreasons
        refine (explained_applyRefresh_iff fun s hs => (hvouched hrows hreasons s hs).1).mp ?_
        exact fun s hs => (hafter hrows hreasons s hs).1
      · intro hkeeps hrows hreasons s hs
        have hexplained := (explained_applyRefresh_iff fun s hs =>
          (hvouched hrows hreasons s hs).1).mpr (hkeeps hrows hreasons)
        exact ⟨hexplained s hs, clean_applyRefresh (h hrows) s hs⟩
  | resolve findings =>
      refine iff_of_true (fun hrows _ => ?_) trivial
      rw [SiteGraph.run, hasCallsiteRows_resolveGraph] at hrows
      exact resolveGraph_sites findings (h hrows)
  | languageServer answer =>
      refine iff_of_true (fun hrows hreasons s hs => ?_) trivial
      obtain ⟨t, ht, hclean, hexplained⟩ := markResolved_sites answer hs
      obtain ⟨he, hc⟩ := hvouched hrows hreasons t ht
      exact ⟨hexplained he, hclean hc⟩

/-- From a graph that vouches for nothing, every state of a run keeps what its markers say
exactly when every refresh of a graph with both markers leaves no blank: each site that it
inserts or opens was one it opened and has an edge that survives. -/
theorem reason_marker_kept_iff (g : SiteGraph) (h : g.hasCallsiteRows = false)
    (passes : List Pass) :
    (∀ state ∈ passes.scanl SiteGraph.run g, Vouched state) ↔
      Run.EveryStep SiteGraph.run KeepsReasons g passes := by
  have hclean : CleanRows g := by
    intro hrows
    rw [h] at hrows
    cases hrows
  have hvouched : Vouched g := by
    intro hrows
    rw [h] at hrows
    cases hrows
  have hstep (g : SiteGraph) (pass : Pass) (hinv : CleanRows g) (hgood : Vouched g) :
      Vouched (g.run pass) ↔ KeepsReasons g pass := vouched_run_iff hinv hgood pass
  exact Run.forall_mem_scanl_iff (fun g pass (hinv : CleanRows g) => run_cleanRows hinv pass)
    hstep hclean hvouched passes

/-- A graph before anything is indexed. -/
def SiteGraph.new : SiteGraph := ⟨.empty, [], none, none⟩

/-- The findings of a resolver that finds no target for any call. -/
def nothingFound : Findings where
  facts := fun _ => ⟨false, true, false, fun _ => none, [], false, false⟩
  resolution := fun _ => .notFound none
  expansion := fun _ => ⟨false, [], []⟩
  compiledOut := fun _ => false

def callSiteOf (id : String) : ParsedSite := ⟨id.toList, "helper".toList, "rust".toList⟩

/-- A refresh that adds a file with one call. -/
def addsOneCall : Refresh where
  changed := []
  added := ["b.rs".toList]
  deleted := []
  renamedOld := []
  renamedNew := []
  parsed := [callSiteOf "b.rs::g::call@2:5"]
  symbols := [("Function".toList, "b.rs::g".toList)]

theorem reason_marker_kept_from_new :
    (∀ state ∈ [Pass.fullIndex [callSiteOf "a.rs::f::call@2:5"], .resolve nothingFound].scanl
        SiteGraph.run SiteGraph.new, Vouched state) ↔
      Run.EveryStep SiteGraph.run KeepsReasons SiteGraph.new
        [.fullIndex [callSiteOf "a.rs::f::call@2:5"], .resolve nothingFound] :=
  reason_marker_kept_iff SiteGraph.new rfl _

/-- A full index, a resolve pass, and a refresh that adds a file: both markers stand, and
the call of the new file is open with no reason. -/
def refreshedRun : List Pass :=
  [.fullIndex [callSiteOf "a.rs::f::call@2:5"], .resolve nothingFound, .incremental addsOneCall]

theorem refreshed_site_has_no_reason :
    ¬ ∀ g : SiteGraph, g.hasCallsiteRows = false → ∀ passes : List Pass,
      ∀ state ∈ passes.scanl SiteGraph.run g, Vouched state := by
  intro h
  have hlast : refreshedRun.foldl SiteGraph.run .new ∈ refreshedRun.scanl SiteGraph.run .new :=
    List.mem_of_getLast? rfl
  have hvouched := h .new rfl refreshedRun _ hlast
  have hsite : (callSiteOf "b.rs::g::call@2:5").row ∈
      (refreshedRun.foldl SiteGraph.run .new).sites.rows := by decide
  have hexplained := (hvouched rfl rfl _ hsite).1
  exact SiteState.not_explained rfl rfl hexplained

end AutomatisedPipeline.Resolver
