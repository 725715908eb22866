import AutomatisedPipeline.Logic.MapOrder
import AutomatisedPipeline.LspResolver.Edges
import AutomatisedPipeline.Resolver.Statements

/-!
One pass of the language server over the open call sites (`lsp_resolver.rs`, `lsp_resolver/pass.rs`,
`lsp_resolver/unlinked.rs`).

The sites are grouped by their files, and a hash map decides the order of the files. A file outside
every Cargo target is not asked about; of any other file each site is asked, until the time is up.
What the pass has counted and collected is what its log says (`drivePass_eq`), in which each site
comes at most once. So the report accounts for every site, and the sites that the next pass reads
are those that this one has not resolved (`report_accounts`). Where the time is not up, the order of
the files does not matter (`report_of_order`).
-/

namespace AutomatisedPipeline.LspResolver

open Text Resolver

/-! ### The sites -/

/-- `UnresolvedCallSite`, with its file. -/
structure PassSite extends UnresolvedCallSite where
  filePath : Str
deriving DecidableEq, Repr

/-- The columns of the call sites that the pass reads besides their state, and whether a label has a
node of a qualified name. -/
structure SiteColumns where
  position : Str → Nat × Nat
  hasNode : SymbolLabel → Str → Bool

namespace SiteColumns

variable (columns : SiteColumns)

/-- `determine_caller_label`. -/
def determineCallerLabel (callerQn : Str) : SymbolLabel :=
  ([.function, .method].find? fun label => columns.hasNode label callerQn).getD .function

/-- `parse_callsite_id`. -/
def parseCallsiteId (id : Str) : Str × Str :=
  let callerQn := Cfg.extractCallerFromCallsiteId id
  (extractFilePrefixOrSelf callerQn, callerQn)

/-- The site of a row. -/
def site (row : CallSite) : PassSite :=
  let (filePath, callerQn) := parseCallsiteId row.id
  { id := row.id
    callerQn := callerQn
    callerLabel := columns.determineCallerLabel callerQn
    calleeName := row.calleeName
    line := (columns.position row.id).1
    col := (columns.position row.id).2
    filePath := filePath }

/-- `collect_unresolved_callsites`. -/
def collect (table : CallSiteTable) : List PassSite :=
  (collectUnresolvedCallsites table).map columns.site

end SiteColumns

/-- `group_by_file`, in the order of insertion. -/
def groupByFile (sites : List PassSite) : List (Str × List PassSite) :=
  sites.foldl (fun groups site => Assoc.upsert site.filePath [] (· ++ [site]) groups) []

/-! ### The check for unlinked files -/

inductive CargoAttribution where
  | insideBuildTargets
  | outsideBuildTargets
  | unknown
deriving DecidableEq, Repr

structure PulledDiagnostic where
  code : Option Str
  message : Str
deriving DecidableEq, Repr

/-- `unlinked_file_message`. -/
def unlinkedFileMessage (diagnostics : List PulledDiagnostic) : Option Str :=
  (diagnostics.find? fun d => d.code = some "unlinked-file".toList).map PulledDiagnostic.message

structure UnlinkedFileFinding where
  relPath : Str
  message : Str
  cargoAttribution : CargoAttribution
deriving DecidableEq, Repr

structure UnlinkedFileCheck where
  pullSupported : Bool
  filesChecked : Nat
  unlinked : List UnlinkedFileFinding
  linkedDespiteOutsideTargets : List Str
deriving DecidableEq, Repr

/-- `check_file`, for what the server has answered. -/
def UnlinkedFileCheck.checkFile (check : UnlinkedFileCheck) (rel : Str)
    (attribution : CargoAttribution) (diagnostics : Option (List PulledDiagnostic)) :
    UnlinkedFileCheck :=
  match diagnostics with
  | none => check
  | some diagnostics =>
      let check := { check with filesChecked := check.filesChecked + 1 }
      match unlinkedFileMessage diagnostics with
      | some message =>
          { check with unlinked := check.unlinked ++ [⟨rel, message, attribution⟩] }
      | none =>
          if attribution = .outsideBuildTargets then
            { check with
              linkedDespiteOutsideTargets := check.linkedDespiteOutsideTargets ++ [rel] }
          else check

theorem UnlinkedFileCheck.pullSupported_checkFile (check : UnlinkedFileCheck) (rel : Str)
    (attribution : CargoAttribution) (diagnostics : Option (List PulledDiagnostic)) :
    (check.checkFile rel attribution diagnostics).pullSupported = check.pullSupported := by
  cases diagnostics with
  | none => rfl
  | some diagnostics =>
      simp only [checkFile]
      split
      · rfl
      · split <;> rfl

/-! ### The tally -/

structure LspPass where
  total : Nat
  resolved : Nat
  failed : Nat
  outsideTargets : Nat
  newlyResolved : List Str
  outsideTargetIds : List Str
  compiledOutTwinIds : List Str
  externalIds : List Str
  unlinked : UnlinkedFileCheck
  failedByReason : List (Str × Nat)
deriving DecidableEq

/-- `is_lsp_timeout`. -/
def isLspTimeout (e : Str) : Bool := "lsp_timeout:".toList.isPrefixOf e

/-- What a definition request comes to. -/
abbrev Definition? : Type := Except Str (Option DefinitionResult)

namespace LspPass

def new (totalSites : Nat) (pullSupported : Bool) : LspPass where
  total := totalSites
  resolved := 0
  failed := 0
  outsideTargets := 0
  newlyResolved := []
  outsideTargetIds := []
  compiledOutTwinIds := []
  externalIds := []
  unlinked := ⟨pullSupported, 0, [], []⟩
  failedByReason := []

def fail (pass : LspPass) (why : Str) : LspPass :=
  { pass with
    failed := pass.failed + 1
    failedByReason := Assoc.upsert why 0 (· + 1) pass.failedByReason }

def markOutsideTargets (pass : LspPass) (sites : List PassSite) : LspPass :=
  { pass with
    outsideTargets := pass.outsideTargets + sites.length
    outsideTargetIds := pass.outsideTargetIds ++ sites.map (·.id) }

def record (pass : LspPass) (ctx : SiteContext) (site : PassSite) : Definition? → LspPass
  | .ok (some answer) =>
      match lspEdge site.toUnresolvedCallSite answer ctx with
      | .added =>
          { pass with
            resolved := pass.resolved + 1
            newlyResolved := pass.newlyResolved ++ [site.id] }
      | .compiledOutTwin =>
          let pass := pass.fail "compiled_out_twin".toList
          { pass with compiledOutTwinIds := pass.compiledOutTwinIds ++ [site.id] }
      | .notAdded why =>
          let pass := pass.fail why.asStr
          if why = .external then { pass with externalIds := pass.externalIds ++ [site.id] }
          else pass
  | .ok none => pass.fail "no_definition".toList
  | .error e => if isLspTimeout e then pass else pass.fail "error".toList

/-- `mark_resolved`; an empty list of ids writes nothing. -/
def markResolved (pass : LspPass) (table : CallSiteTable) : CallSiteTable :=
  ((((table.markNodesResolved pass.newlyResolved).clearCallsiteReasons
    pass.newlyResolved).setCallsiteUnresolvedReason pass.outsideTargetIds
      Reason.outsideTargets.text).setCallsiteUnresolvedReason pass.compiledOutTwinIds
        Reason.cfgTwins.text).promoteCallsiteReasonToExternal pass.externalIds
          "lsp_definition".toList

end LspPass

/-- `LspResolutionResult`, as `into_result` fills it in. -/
structure LspResolutionResult where
  resolvedCount : Nat
  failedCount : Nat
  skippedCount : Nat
  outsideTargetsCount : Nat
  unlinkedCheck : UnlinkedFileCheck
  failedByReason : List (Str × Nat)
deriving DecidableEq

def LspPass.intoResult (pass : LspPass) : LspResolutionResult where
  resolvedCount := pass.resolved
  failedCount := pass.failed
  skippedCount := pass.total - (pass.resolved + pass.failed + pass.outsideTargets)
  outsideTargetsCount := pass.outsideTargets
  unlinkedCheck :=
    { pass.unlinked with
      unlinked := pass.unlinked.unlinked.mergeSort fun a b => a.relPath ≤ b.relPath
      linkedDespiteOutsideTargets := pass.unlinked.linkedDespiteOutsideTargets.mergeSort }
  failedByReason := pass.failedByReason

/-! ### The loop -/

/-- What the pass asks: Cargo about a file, the file system and the server to open it, the server
about an open file and about a site of it, and the clock, each time it looks, whether the time is
up. -/
structure Workspace where
  attribution : Str → CargoAttribution
  pullSupported : Bool
  openDocument : Str → Option Str
  pullDiagnostics : Str → Option (List PulledDiagnostic)
  definition : Str → PassSite → Definition?
  context : SiteContext
  expired : Nat → Bool

/-- The pass with the looks at the clock, and whether the time has run out. -/
structure Driven where
  pass : LspPass
  looks : Nat
  stopped : Bool

section Drive

variable (w : Workspace)

/-- The loop over the sites of an open file. -/
def driveSites (uri : Str) : List PassSite → LspPass → Nat → Driven
  | [], pass, looks => ⟨pass, looks, false⟩
  | site :: sites, pass, looks =>
      let pass := pass.record w.context site (w.definition uri site)
      if w.expired looks then ⟨pass, looks + 1, true⟩ else driveSites uri sites pass (looks + 1)

/-- `check_unlinked`, of a file that no target compiles. -/
def checkUnlinked (file : Str) (pass : LspPass) : LspPass :=
  match w.openDocument file with
  | some uri =>
      { pass with
        unlinked := pass.unlinked.checkFile file (w.attribution file) (w.pullDiagnostics uri) }
  | none => pass

/-- The loop over the files. -/
def driveFiles : List (Str × List PassSite) → LspPass → Nat → LspPass
  | [], pass, _ => pass
  | (file, sites) :: files, pass, looks =>
      if w.attribution file = .outsideBuildTargets then
        let pass := pass.markOutsideTargets sites
        if w.pullSupported then
          driveFiles files (if w.expired looks then pass else checkUnlinked w file pass) (looks + 1)
        else driveFiles files pass looks
      else
        match w.openDocument file with
        | none => driveFiles files pass looks
        | some uri =>
            let pass :=
              if w.pullSupported then
                { pass with
                  unlinked :=
                    pass.unlinked.checkFile file (w.attribution file) (w.pullDiagnostics uri) }
              else pass
            let driven := driveSites w uri sites pass looks
            if driven.stopped then driven.pass else driveFiles files driven.pass driven.looks

/-- `drive_pass`, for an order of the hash map. -/
def drivePass (order : MapOrder (Str × List PassSite)) (unresolved : List PassSite) : LspPass :=
  driveFiles w (order.yield (groupByFile unresolved))
    (.new unresolved.length w.pullSupported) 0

/-- `nothing_to_resolve`. -/
def nothingToResolve : LspResolutionResult := ⟨0, 0, 0, 0, ⟨false, 0, [], []⟩, []⟩

/-- `resolve_with_lsp`, for the counters and the call sites. -/
def resolveWithLsp (columns : SiteColumns) (order : MapOrder (Str × List PassSite))
    (table : CallSiteTable) : LspResolutionResult × CallSiteTable :=
  if columns.collect table = [] then (nothingToResolve, table)
  else
    let pass := drivePass w order (columns.collect table)
    (pass.intoResult, pass.markResolved table)

end Drive

/-! ### The log of a pass -/

/-- What a pass does with a site or a file. -/
inductive PassEvent where
  | outside (site : PassSite)
  | checked (file : Str) (attribution : CargoAttribution)
      (diagnostics : Option (List PulledDiagnostic))
  | asked (site : PassSite) (definition : Definition?)

/-- What one event does to the tally. -/
def LspPass.apply (ctx : SiteContext) (pass : LspPass) : PassEvent → LspPass
  | .outside site => pass.markOutsideTargets [site]
  | .checked file attribution diagnostics =>
      { pass with unlinked := pass.unlinked.checkFile file attribution diagnostics }
  | .asked site definition => pass.record ctx site definition

section Log

variable (w : Workspace)

/-- The events of the loop over the sites of a file, the looks at the clock behind them, and whether
the time has run out. -/
def sitesLog (uri : Str) : List PassSite → Nat → List PassEvent × Nat × Bool
  | [], looks => ([], looks, false)
  | site :: sites, looks =>
      if w.expired looks then ([.asked site (w.definition uri site)], looks + 1, true)
      else
        let (events, looks, stopped) := sitesLog uri sites (looks + 1)
        (.asked site (w.definition uri site) :: events, looks, stopped)

/-- The check of a file, where it can be opened. -/
def checkLog (file : Str) : List PassEvent :=
  match w.openDocument file with
  | some uri => [.checked file (w.attribution file) (w.pullDiagnostics uri)]
  | none => []

/-- The events of the loop over the files. -/
def filesLog : List (Str × List PassSite) → Nat → List PassEvent
  | [], _ => []
  | (file, sites) :: files, looks =>
      if w.attribution file = .outsideBuildTargets then
        sites.map .outside ++
          if w.pullSupported then
            (if w.expired looks then [] else checkLog w file) ++ filesLog files (looks + 1)
          else filesLog files looks
      else
        match w.openDocument file with
        | none => filesLog files looks
        | some uri =>
            let (events, looks, stopped) := sitesLog w uri sites looks
            (if w.pullSupported then checkLog w file else []) ++
              (events ++ if stopped then [] else filesLog files looks)

variable {w}

theorem driveSites_eq (uri : Str) (sites : List PassSite) (pass : LspPass) (looks : Nat) :
    driveSites w uri sites pass looks =
      ⟨(sitesLog w uri sites looks).1.foldl (LspPass.apply w.context) pass,
        (sitesLog w uri sites looks).2.1, (sitesLog w uri sites looks).2.2⟩ := by
  induction sites generalizing pass looks with
  | nil => rfl
  | cons site sites ih =>
      rw [driveSites, sitesLog]
      split
      · rfl
      · rw [ih]
        rfl

theorem foldl_outside (ctx : SiteContext) (pass : LspPass) (sites : List PassSite) :
    (sites.map PassEvent.outside).foldl (LspPass.apply ctx) pass =
      pass.markOutsideTargets sites := by
  induction sites generalizing pass with
  | nil => simp [LspPass.markOutsideTargets]
  | cons site sites ih =>
      rw [List.map_cons, List.foldl_cons, ih]
      simp [LspPass.apply, LspPass.markOutsideTargets]
      omega

theorem foldl_checkLog (pass : LspPass) (file : Str) :
    (checkLog w file).foldl (LspPass.apply w.context) pass = checkUnlinked w file pass := by
  rw [checkLog, checkUnlinked]
  cases w.openDocument file <;> rfl

theorem driveFiles_eq (files : List (Str × List PassSite)) (pass : LspPass) (looks : Nat) :
    driveFiles w files pass looks =
      (filesLog w files looks).foldl (LspPass.apply w.context) pass := by
  induction files generalizing pass looks with
  | nil => rfl
  | cons group files ih =>
      obtain ⟨file, sites⟩ := group
      rw [driveFiles, filesLog]
      split
      · rw [List.foldl_append, foldl_outside]
        split
        · rw [List.foldl_append, ih]
          split
          · rfl
          · rw [foldl_checkLog]
        · rw [ih]
      · cases hopen : w.openDocument file with
        | none => exact ih pass looks
        | some uri =>
            simp only [driveSites_eq]
            rw [List.foldl_append, List.foldl_append]
            have hcheck : (if w.pullSupported then checkLog w file else []).foldl
                (LspPass.apply w.context) pass =
                  if w.pullSupported then
                    { pass with
                      unlinked := pass.unlinked.checkFile file (w.attribution file)
                        (w.pullDiagnostics uri) }
                  else pass := by
              split
              · rw [foldl_checkLog, checkUnlinked, hopen]
              · rfl
            rw [hcheck]
            split
            · rfl
            · rw [ih]

/-- A pass is what its log comes to. -/
theorem drivePass_eq (order : MapOrder (Str × List PassSite)) (unresolved : List PassSite) :
    drivePass w order unresolved = (filesLog w (order.yield (groupByFile unresolved)) 0).foldl
      (LspPass.apply w.context) (.new unresolved.length w.pullSupported) :=
  driveFiles_eq _ _ _

end Log

/-! ### What the tally says -/

/-- What the answer to a request makes of a site, its row aside. -/
def answerOf (ctx : SiteContext) (site : PassSite) : Definition? → LspAnswer
  | .ok (some answer) =>
      match lspEdge site.toUnresolvedCallSite answer ctx with
      | .added => .added none
      | .compiledOutTwin => .compiledOutTwin
      | .notAdded .external => .external
      | .notAdded _ => .failed
  | .ok none => .failed
  | .error e => if isLspTimeout e then .unanswered else .failed

/-- The site of an event, and what the pass makes of it. -/
def PassEvent.settled (ctx : SiteContext) : PassEvent → Option (PassSite × LspAnswer)
  | .outside site => some (site, .outsideTargets)
  | .checked _ _ _ => none
  | .asked site definition => some (site, answerOf ctx site definition)

/-- Why an event is counted as a failure. -/
def PassEvent.why (ctx : SiteContext) : PassEvent → Option Str
  | .asked site (.ok (some answer)) =>
      match lspEdge site.toUnresolvedCallSite answer ctx with
      | .added => none
      | .compiledOutTwin => some "compiled_out_twin".toList
      | .notAdded why => some why.asStr
  | .asked _ (.ok none) => some "no_definition".toList
  | .asked _ (.error e) => if isLspTimeout e then none else some "error".toList
  | _ => none

def PassEvent.isCheck : PassEvent → Bool
  | .checked _ _ diagnostics => diagnostics.isSome
  | _ => false

def PassEvent.finding : PassEvent → Option UnlinkedFileFinding
  | .checked file attribution (some diagnostics) =>
      (unlinkedFileMessage diagnostics).map fun message => ⟨file, message, attribution⟩
  | _ => none

def PassEvent.linked : PassEvent → Option Str
  | .checked file .outsideBuildTargets (some diagnostics) =>
      if unlinkedFileMessage diagnostics = none then some file else none
  | _ => none

/-- The ids that the pass collects under one kind of answer. -/
def idsOf (settled : List (PassSite × LspAnswer)) (kind : LspAnswer → Bool) : List Str :=
  (settled.filter fun s => kind s.2).map fun s => s.1.id

/-- Counts one more under a reason. -/
def tallyReason (reasons : List (Str × Nat)) (why : Str) : List (Str × Nat) :=
  Assoc.upsert why 0 (· + 1) reasons

/-- The tally of a log. -/
structure Tallies (ctx : SiteContext) (pass : LspPass) (events : List PassEvent) : Prop where
  resolved : pass.resolved = pass.newlyResolved.length
  outside : pass.outsideTargets = pass.outsideTargetIds.length
  failed : pass.failed = (events.filterMap (PassEvent.why ctx)).length
  newlyResolved :
    pass.newlyResolved = idsOf (events.filterMap (PassEvent.settled ctx)) LspAnswer.isAdded
  outsideIds : pass.outsideTargetIds =
    idsOf (events.filterMap (PassEvent.settled ctx)) fun a => a = .outsideTargets
  twinIds : pass.compiledOutTwinIds =
    idsOf (events.filterMap (PassEvent.settled ctx)) fun a => a = .compiledOutTwin
  externalIds : pass.externalIds =
    idsOf (events.filterMap (PassEvent.settled ctx)) fun a => a = .external
  reasons : pass.failedByReason = (events.filterMap (PassEvent.why ctx)).foldl tallyReason []
  checked : pass.unlinked.filesChecked = (events.filter PassEvent.isCheck).length
  findings : pass.unlinked.unlinked = events.filterMap PassEvent.finding
  linked : pass.unlinked.linkedDespiteOutsideTargets = events.filterMap PassEvent.linked

section Tallies

variable {ctx : SiteContext} {pass : LspPass} {events : List PassEvent}

theorem idsOf_append (settled settled' : List (PassSite × LspAnswer)) (kind : LspAnswer → Bool) :
    idsOf (settled ++ settled') kind = idsOf settled kind ++ idsOf settled' kind := by
  rw [idsOf, List.filter_append, List.map_append]
  rfl

/-- What one event adds to a tally. -/
structure Adds (ctx : SiteContext) (pass pass' : LspPass) (event : PassEvent) : Prop where
  resolved : pass'.resolved = pass.resolved + (idsOf (event.settled ctx).toList LspAnswer.isAdded).length
  outside : pass'.outsideTargets =
    pass.outsideTargets + (idsOf (event.settled ctx).toList fun a => a = .outsideTargets).length
  failed : pass'.failed = pass.failed + (event.why ctx).toList.length
  newlyResolved :
    pass'.newlyResolved = pass.newlyResolved ++ idsOf (event.settled ctx).toList LspAnswer.isAdded
  outsideIds : pass'.outsideTargetIds =
    pass.outsideTargetIds ++ idsOf (event.settled ctx).toList fun a => a = .outsideTargets
  twinIds : pass'.compiledOutTwinIds =
    pass.compiledOutTwinIds ++ idsOf (event.settled ctx).toList fun a => a = .compiledOutTwin
  externalIds : pass'.externalIds =
    pass.externalIds ++ idsOf (event.settled ctx).toList fun a => a = .external
  reasons : pass'.failedByReason = (event.why ctx).toList.foldl tallyReason pass.failedByReason
  checked : pass'.unlinked.filesChecked = pass.unlinked.filesChecked + event.isCheck.toNat
  findings : pass'.unlinked.unlinked = pass.unlinked.unlinked ++ event.finding.toList
  linked : pass'.unlinked.linkedDespiteOutsideTargets =
    pass.unlinked.linkedDespiteOutsideTargets ++ event.linked.toList

theorem adds_outside (pass : LspPass) (site : PassSite) :
    Adds ctx pass (pass.apply ctx (.outside site)) (.outside site) := by
  constructor <;>
    simp [LspPass.apply, LspPass.markOutsideTargets, PassEvent.settled, PassEvent.why, idsOf,
      LspAnswer.isAdded, PassEvent.isCheck, PassEvent.finding, PassEvent.linked]

theorem adds_checked (pass : LspPass) (file : Str) (attribution : CargoAttribution)
    (diagnostics : Option (List PulledDiagnostic)) :
    Adds ctx pass (pass.apply ctx (.checked file attribution diagnostics))
      (.checked file attribution diagnostics) := by
  refine ⟨rfl, rfl, rfl, (List.append_nil _).symm, (List.append_nil _).symm,
    (List.append_nil _).symm, (List.append_nil _).symm, rfl, ?_, ?_, ?_⟩
  all_goals
    simp only [LspPass.apply, UnlinkedFileCheck.checkFile]
    cases diagnostics with
    | none => cases attribution <;> simp [PassEvent.isCheck, PassEvent.finding, PassEvent.linked]
    | some diagnostics =>
        cases hmessage : unlinkedFileMessage diagnostics <;> cases attribution <;>
          simp [hmessage, PassEvent.isCheck, PassEvent.finding, PassEvent.linked]

theorem adds_asked (pass : LspPass) (site : PassSite) (definition : Definition?) :
    Adds ctx pass (pass.apply ctx (.asked site definition)) (.asked site definition) := by
  rcases definition with e | (_ | answer)
  · by_cases htimeout : isLspTimeout e = true <;> constructor <;>
      simp [LspPass.apply, LspPass.record, LspPass.fail, htimeout, PassEvent.settled, answerOf,
        PassEvent.why, idsOf, LspAnswer.isAdded, tallyReason, PassEvent.isCheck, PassEvent.finding,
        PassEvent.linked]
  · constructor <;>
      simp [LspPass.apply, LspPass.record, LspPass.fail, PassEvent.settled, answerOf, PassEvent.why,
        idsOf, LspAnswer.isAdded, tallyReason, PassEvent.isCheck, PassEvent.finding,
        PassEvent.linked]
  · cases hedge : lspEdge site.toUnresolvedCallSite answer ctx with
    | added | compiledOutTwin =>
        constructor <;>
          simp [LspPass.apply, LspPass.record, LspPass.fail, hedge, PassEvent.settled, answerOf,
            PassEvent.why, idsOf, LspAnswer.isAdded, tallyReason, PassEvent.isCheck,
            PassEvent.finding, PassEvent.linked]
    | notAdded why =>
        cases why <;> constructor <;>
          simp [LspPass.apply, LspPass.record, LspPass.fail, hedge, PassEvent.settled, answerOf,
            PassEvent.why, idsOf, LspAnswer.isAdded, tallyReason, PassEvent.isCheck,
            PassEvent.finding, PassEvent.linked]

theorem adds_apply (pass : LspPass) (event : PassEvent) :
    Adds ctx pass (pass.apply ctx event) event := by
  cases event with
  | outside site => exact adds_outside pass site
  | checked file attribution diagnostics => exact adds_checked pass file attribution diagnostics
  | asked site definition => exact adds_asked pass site definition

theorem filterMap_concat {α β : Type} (f : α → Option β) (l : List α) (a : α) :
    (l ++ [a]).filterMap f = l.filterMap f ++ (f a).toList := by
  rw [List.filterMap_append]
  cases h : f a <;> simp [h]

/-- One event more. -/
theorem Tallies.apply (h : Tallies ctx pass events) (event : PassEvent) :
    Tallies ctx (pass.apply ctx event) (events ++ [event]) := by
  have hadds : Adds ctx pass (pass.apply ctx event) event := adds_apply pass event
  refine ⟨?_, ?_, ?_, ?_, ?_, ?_, ?_, ?_, ?_, ?_, ?_⟩
  · rw [hadds.resolved, hadds.newlyResolved, List.length_append, h.resolved]
  · rw [hadds.outside, hadds.outsideIds, List.length_append, h.outside]
  · rw [hadds.failed, filterMap_concat, List.length_append, h.failed]
  · rw [hadds.newlyResolved, filterMap_concat, idsOf_append, h.newlyResolved]
  · rw [hadds.outsideIds, filterMap_concat, idsOf_append, h.outsideIds]
  · rw [hadds.twinIds, filterMap_concat, idsOf_append, h.twinIds]
  · rw [hadds.externalIds, filterMap_concat, idsOf_append, h.externalIds]
  · rw [hadds.reasons, filterMap_concat, List.foldl_append, h.reasons]
  · rw [hadds.checked, List.filter_append, List.length_append, h.checked, List.filter_singleton]
    cases event.isCheck <;> rfl
  · rw [hadds.findings, filterMap_concat, h.findings]
  · rw [hadds.linked, filterMap_concat, h.linked]

theorem tallies_foldl (total : Nat) (pullSupported : Bool) (events : List PassEvent) :
    Tallies ctx (events.foldl (LspPass.apply ctx) (.new total pullSupported)) events := by
  induction events using List.reverseRecOn with
  | nil => exact ⟨rfl, rfl, rfl, rfl, rfl, rfl, rfl, rfl, rfl, rfl, rfl⟩
  | append_singleton events event ih =>
      rw [List.foldl_append, List.foldl_cons, List.foldl_nil]
      exact ih.apply event

end Tallies

/-! ### Each site once -/

section Sites

variable {w : Workspace}

/-- The sites of a log. -/
def sitesOf (ctx : SiteContext) (events : List PassEvent) : List PassSite :=
  (events.filterMap (PassEvent.settled ctx)).map Prod.fst

theorem sitesOf_append (ctx : SiteContext) (events events' : List PassEvent) :
    sitesOf ctx (events ++ events') = sitesOf ctx events ++ sitesOf ctx events' := by
  rw [sitesOf, List.filterMap_append, List.map_append]
  rfl

theorem sitesOf_outside (ctx : SiteContext) (sites : List PassSite) :
    sitesOf ctx (sites.map .outside) = sites := by
  induction sites with
  | nil => rfl
  | cons site sites ih => exact congrArg (site :: ·) ih

theorem sitesOf_checkLog (ctx : SiteContext) (file : Str) : sitesOf ctx (checkLog w file) = [] := by
  rw [checkLog]
  cases w.openDocument file <;> rfl

theorem sitesOf_sitesLog (ctx : SiteContext) (uri : Str) (sites : List PassSite) (looks : Nat) :
    (sitesOf ctx (sitesLog w uri sites looks).1).Sublist sites := by
  induction sites generalizing looks with
  | nil => exact List.Sublist.refl _
  | cons site sites ih =>
      rw [sitesLog]
      split
      · exact (List.nil_sublist sites).cons_cons site
      · exact (ih (looks + 1)).cons_cons site

theorem sitesOf_filesLog (ctx : SiteContext) (files : List (Str × List PassSite)) (looks : Nat) :
    (sitesOf ctx (filesLog w files looks)).Sublist (files.flatMap Prod.snd) := by
  induction files generalizing looks with
  | nil => exact List.Sublist.refl _
  | cons group files ih =>
      obtain ⟨file, sites⟩ := group
      rw [filesLog, List.flatMap_cons]
      split
      · rw [sitesOf_append, sitesOf_outside]
        refine (List.Sublist.refl sites).append ?_
        split
        · rw [sitesOf_append]
          split
          · exact ih _
          · rw [sitesOf_checkLog]
            exact ih _
        · exact ih _
      · cases w.openDocument file with
        | none => exact (ih looks).trans (List.sublist_append_right _ _)
        | some uri =>
            simp only [sitesOf_append]
            have hcheck : sitesOf ctx (if w.pullSupported then checkLog w file else []) = [] := by
              split
              · exact sitesOf_checkLog ctx file
              · rfl
            rw [hcheck, List.nil_append]
            refine (sitesOf_sitesLog ctx uri sites looks).append ?_
            split
            · exact List.nil_sublist _
            · exact ih _

theorem flatMap_upsert (file : Str) (site : PassSite) (groups : List (Str × List PassSite)) :
    ((Assoc.upsert file [] (· ++ [site]) groups).flatMap Prod.snd).Perm
      (site :: groups.flatMap Prod.snd) := by
  induction groups with
  | nil => exact .refl _
  | cons group groups ih =>
      rw [Assoc.upsert]
      split
      · rw [List.flatMap_cons, List.flatMap_cons, List.append_assoc]
        exact List.perm_middle
      · rw [List.flatMap_cons, List.flatMap_cons]
        exact (ih.append_left _).trans List.perm_middle

/-- The groups hold the sites. -/
theorem flatMap_groupByFile (sites : List PassSite) :
    ((groupByFile sites).flatMap Prod.snd).Perm sites := by
  induction sites using List.reverseRecOn with
  | nil => exact .refl _
  | append_singleton sites site ih =>
      rw [groupByFile, List.foldl_append, List.foldl_cons, List.foldl_nil]
      refine (flatMap_upsert _ _ _).trans ((ih.cons site).trans ?_)
      exact (List.perm_append_singleton site sites).symm

theorem nodup_files (sites : List PassSite) : ((groupByFile sites).map Prod.fst).Nodup := by
  induction sites using List.reverseRecOn with
  | nil => exact List.nodup_nil
  | append_singleton sites site ih =>
      rw [groupByFile, List.foldl_append, List.foldl_cons, List.foldl_nil]
      exact Assoc.nodup_keys_upsert _ _ _ ih

/-- The log of a pass. -/
def passLog (w : Workspace) (order : MapOrder (Str × List PassSite)) (unresolved : List PassSite) :
    List PassEvent := filesLog w (order.yield (groupByFile unresolved)) 0

/-- No site is settled twice, and none that was not read. -/
theorem sitesOf_passLog (order : MapOrder (Str × List PassSite)) (unresolved : List PassSite) :
    (sitesOf w.context (passLog w order unresolved)).Subperm unresolved :=
  (sitesOf_filesLog w.context _ 0).subperm.trans
    (((order.perm _).flatMap_right _).trans (flatMap_groupByFile unresolved)).subperm

theorem tallies_passLog (order : MapOrder (Str × List PassSite)) (unresolved : List PassSite) :
    Tallies w.context (drivePass w order unresolved) (passLog w order unresolved) := by
  rw [drivePass_eq]
  exact tallies_foldl _ _ _

end Sites

/-! ### The report -/

/-- A failure is counted as one. -/
def failed : LspAnswer → Bool
  | .compiledOutTwin | .external | .failed => true
  | _ => false

section Report

variable {ctx : SiteContext}

theorem length_why (events : List PassEvent) :
    (events.filterMap (PassEvent.why ctx)).length =
      (idsOf (events.filterMap (PassEvent.settled ctx)) failed).length := by
  induction events using List.reverseRecOn with
  | nil => rfl
  | append_singleton events event ih =>
      rw [filterMap_concat, filterMap_concat, idsOf_append, List.length_append, List.length_append,
        ih, Nat.add_right_inj]
      rcases event with site | ⟨file, attribution, diagnostics⟩ | ⟨site, e | (_ | answer)⟩
      · rfl
      · rfl
      · by_cases htimeout : isLspTimeout e = true <;>
          simp [PassEvent.why, PassEvent.settled, answerOf, htimeout, idsOf, failed]
      · rfl
      · cases hedge : lspEdge site.toUnresolvedCallSite answer ctx with
        | added | compiledOutTwin =>
            simp [PassEvent.why, PassEvent.settled, answerOf, hedge, idsOf, failed]
        | notAdded why =>
            cases why <;> simp [PassEvent.why, PassEvent.settled, answerOf, hedge, idsOf, failed]

/-- The kinds that are counted exclude each other. -/
theorem length_idsOf_le (settled : List (PassSite × LspAnswer)) :
    (idsOf settled LspAnswer.isAdded).length + (idsOf settled failed).length +
      (idsOf settled fun a => a = .outsideTargets).length ≤ settled.length := by
  induction settled with
  | nil => exact Nat.le_refl 0
  | cons s settled ih =>
      obtain ⟨site, answer⟩ := s
      cases answer <;> simp [idsOf, LspAnswer.isAdded, failed] at ih ⊢ <;> omega

/-- No event changes the number of the sites, or what the server supports. -/
theorem kept_foldl (events : List PassEvent) (pass : LspPass) :
    (events.foldl (LspPass.apply ctx) pass).total = pass.total ∧
      (events.foldl (LspPass.apply ctx) pass).unlinked.pullSupported =
        pass.unlinked.pullSupported := by
  refine List.foldlRecOn events _
    (motive := fun p : LspPass =>
      p.total = pass.total ∧ p.unlinked.pullSupported = pass.unlinked.pullSupported)
    ⟨rfl, rfl⟩ fun p hp event _ => ?_
  rw [← hp.1, ← hp.2]
  rcases event with site | ⟨file, attribution, diagnostics⟩ | ⟨site, e | (_ | answer)⟩
  · exact ⟨rfl, rfl⟩
  · exact ⟨rfl, UnlinkedFileCheck.pullSupported_checkFile _ _ _ _⟩
  · rw [LspPass.apply, LspPass.record]
    split <;> exact ⟨rfl, rfl⟩
  · exact ⟨rfl, rfl⟩
  · rw [LspPass.apply, LspPass.record]
    cases lspEdge site.toUnresolvedCallSite answer ctx with
    | added | compiledOutTwin => exact ⟨rfl, rfl⟩
    | notAdded why => cases why <;> exact ⟨rfl, rfl⟩

theorem sum_tallyReason (reasons : List Str) :
    ((reasons.foldl tallyReason []).map Prod.snd).sum = reasons.length := by
  induction reasons using List.reverseRecOn with
  | nil => rfl
  | append_singleton reasons why ih =>
      rw [List.foldl_append, List.foldl_cons, List.foldl_nil, List.length_append, ← ih]
      exact Assoc.sum_upsert why 0 (· + 1) (fun _ n => n) 1 (fun _ => rfl) rfl _

/-- What a list of settled sites says of a row. -/
def answerIn (settled : List (PassSite × LspAnswer)) (row : CallSite) : LspAnswer :=
  ((settled.find? fun s => s.1.id = row.id).map Prod.snd).getD .unanswered

theorem answerIn_eq {settled : List (PassSite × LspAnswer)}
    (hnodup : (settled.map fun s => s.1.id).Nodup) {s : PassSite × LspAnswer} (hs : s ∈ settled)
    {row : CallSite} (hid : s.1.id = row.id) : answerIn settled row = s.2 := by
  rw [answerIn]
  cases hfind : settled.find? fun s => s.1.id = row.id with
  | none => exact absurd (List.find?_eq_none.mp hfind s hs) (by simp [hid])
  | some s' =>
      have hid' : s'.1.id = row.id := by simpa using List.find?_some hfind
      rw [List.inj_on_of_nodup_map hnodup (List.mem_of_find?_eq_some hfind) hs (hid'.trans hid.symm)]
      rfl

theorem nodup_ids {columns : SiteColumns} {table : CallSiteTable}
    {settled : List (PassSite × LspAnswer)}
    (hsub : (settled.map Prod.fst).Subperm (columns.collect table)) :
    (settled.map fun s => s.1.id).Nodup := by
  have hids : ((columns.collect table).map (·.id)).Nodup := by
    rw [SiteColumns.collect, List.map_map]
    exact (List.filter_sublist.map CallSite.id).nodup table.unique
  obtain ⟨sites, hperm, hsublist⟩ := hsub
  have hnodup := ((hperm.map (·.id)).nodup_iff).mp ((hsublist.map (·.id)).nodup hids)
  rwa [List.map_map] at hnodup

/-- The ids that the pass collects are those that the answers give. -/
theorem mem_idsOf_iff {columns : SiteColumns} {table : CallSiteTable}
    {settled : List (PassSite × LspAnswer)}
    (hsub : (settled.map Prod.fst).Subperm (columns.collect table)) (kind : LspAnswer → Bool)
    (hkind : kind .unanswered = false) (id : Str) :
    id ∈ idsOf settled kind ↔ id ∈ answered table (answerIn settled) kind := by
  have hnodup := nodup_ids hsub
  rw [idsOf, answered, List.mem_map, List.mem_map]
  constructor
  · rintro ⟨s, hs, rfl⟩
    obtain ⟨hs, hanswer⟩ := List.mem_filter.mp hs
    obtain ⟨row, hrow, hsite⟩ := List.mem_map.mp (hsub.subset (List.mem_map_of_mem hs))
    have hid : s.1.id = row.id := congrArg (·.id) hsite.symm
    refine ⟨row, List.mem_filter.mpr ⟨hrow, ?_⟩, hid.symm⟩
    rw [answerIn_eq hnodup hs hid]
    exact hanswer
  · rintro ⟨row, hrow, rfl⟩
    obtain ⟨hrow, hanswer⟩ := List.mem_filter.mp hrow
    cases hfind : settled.find? fun s => s.1.id = row.id with
    | none =>
        rw [answerIn, hfind] at hanswer
        exact absurd (hkind.symm.trans hanswer) Bool.false_ne_true
    | some s =>
        have hid : s.1.id = row.id := by simpa using List.find?_some hfind
        rw [answerIn, hfind] at hanswer
        exact ⟨s, List.mem_filter.mpr ⟨List.mem_of_find?_eq_some hfind, hanswer⟩, hid⟩

/-- Of the rows that were read, as many are resolved as ids have been collected. -/
theorem length_unresolved {columns : SiteColumns} {table : CallSiteTable}
    {settled : List (PassSite × LspAnswer)}
    (hsub : (settled.map Prod.fst).Subperm (columns.collect table)) :
    ((collectUnresolvedCallsites table).filter fun row =>
        !(answerIn settled row).isAdded).length + (idsOf settled LspAnswer.isAdded).length =
      (collectUnresolvedCallsites table).length := by
  have hperm : (idsOf settled LspAnswer.isAdded).Perm
      (answered table (answerIn settled) LspAnswer.isAdded) := by
    refine (List.perm_ext_iff_of_nodup ?_ ?_).mpr (mem_idsOf_iff hsub _ rfl)
    · exact (List.filter_sublist.map _).nodup (nodup_ids hsub)
    · exact ((List.filter_sublist.trans List.filter_sublist).map _).nodup table.unique
  rw [hperm.length_eq, answered, List.length_map, Nat.add_comm]
  exact (List.length_eq_length_filter_add _).symm

/-- The writes of the pass are those of its answers, row by row. -/
theorem markResolved_eq_answers {columns : SiteColumns} {table : CallSiteTable} {pass : LspPass}
    {events : List PassEvent} (h : Tallies ctx pass events)
    (hsub : (sitesOf ctx events).Subperm (columns.collect table)) :
    pass.markResolved table =
      Resolver.markResolved table (answerIn (events.filterMap (PassEvent.settled ctx))) := by
  have hadded := mem_idsOf_iff hsub LspAnswer.isAdded rfl
  have houtside := mem_idsOf_iff hsub (fun a => a = .outsideTargets) rfl
  have htwins := mem_idsOf_iff hsub (fun a => a = .compiledOutTwin) rfl
  have hexternal := mem_idsOf_iff hsub (fun a => a = .external) rfl
  simp only [LspPass.markResolved, Resolver.markResolved, CallSiteTable.markNodesResolved,
    CallSiteTable.clearCallsiteReasons, CallSiteTable.setCallsiteUnresolvedReason,
    CallSiteTable.promoteCallsiteReasonToExternal, h.newlyResolved, h.outsideIds, h.twinIds,
    h.externalIds]
  rw [CallSiteTable.update_congr hexternal, CallSiteTable.update_congr htwins,
    CallSiteTable.update_congr houtside, CallSiteTable.update_congr hadded,
    CallSiteTable.update_congr hadded]

/-- A write leaves a site open, unless it resolves it. -/
theorem isOpen_write {state : SiteState} (hopen : state.isOpen = true) (answer : LspAnswer) :
    (answer.write state).isOpen = !answer.isAdded := by
  cases answer with
  | added row => rfl
  | outsideTargets | compiledOutTwin => exact hopen
  | external =>
      rw [LspAnswer.write]
      split
      · exact hopen
      · exact hopen
  | failed | unanswered => exact hopen

/-- What the next pass reads. -/
theorem collect_markResolved (columns : SiteColumns) (table : CallSiteTable)
    (answer : CallSite → LspAnswer) : columns.collect (Resolver.markResolved table answer) =
      ((collectUnresolvedCallsites table).filter fun row => !(answer row).isAdded).map
        columns.site := by
  rw [SiteColumns.collect, collectUnresolvedCallsites, markResolved_eq, CallSiteTable.mapState,
    collectUnresolvedCallsites, List.filter_map, List.map_map, List.filter_filter]
  refine (List.map_congr_left fun row _ => rfl).trans ?_
  congr 1
  refine List.filter_congr fun row _ => ?_
  by_cases hread : (row.state.isOpen && !row.isMacro) = true
  · obtain ⟨hopen, hmacro⟩ := Bool.and_eq_true_iff.mp hread
    have hsame : CallSite.isMacro { row with state := (answer row).write row.state } = row.isMacro :=
      rfl
    simp only [Function.comp_apply, hread, if_true, isOpen_write hopen, Bool.and_true]
    rw [hsame, hmacro, Bool.and_true]
  · simp only [Function.comp_apply, hread, if_false, Bool.and_false, Bool.false_eq_true]

theorem report_accounts_of_pass (w : Workspace) (columns : SiteColumns)
    (order : MapOrder (Str × List PassSite)) (table : CallSiteTable) :
    let pass := drivePass w order (columns.collect table)
    let report := pass.intoResult
    let written := pass.markResolved table
    report.resolvedCount + report.failedCount + report.skippedCount +
        report.outsideTargetsCount = (columns.collect table).length ∧
      (report.failedByReason.map Prod.snd).sum = report.failedCount ∧
      (columns.collect written).Sublist (columns.collect table) ∧
      (columns.collect written).length + report.resolvedCount = (columns.collect table).length := by
  have htallies : Tallies w.context (drivePass w order (columns.collect table)) _ :=
    tallies_passLog order (columns.collect table)
  have hsub : (sitesOf w.context (passLog w order _)).Subperm _ :=
    sitesOf_passLog order (columns.collect table)
  have hresolved := htallies.resolved
  have hfailed := htallies.failed
  have houtside := htallies.outside
  rw [htallies.newlyResolved] at hresolved
  rw [length_why] at hfailed
  rw [htallies.outsideIds] at houtside
  have hle := length_idsOf_le ((passLog w order (columns.collect table)).filterMap
    (PassEvent.settled w.context))
  have hlength := hsub.length_le
  rw [sitesOf, List.length_map] at hlength
  have htotal : (drivePass w order (columns.collect table)).total =
      (columns.collect table).length := by
    rw [drivePass_eq]
    exact (kept_foldl _ _).1
  have hwritten := markResolved_eq_answers htallies hsub
  refine ⟨?_, ?_, ?_, ?_⟩
  · simp only [LspPass.intoResult, htotal]
    omega
  · simp only [LspPass.intoResult]
    rw [htallies.reasons, sum_tallyReason, htallies.failed]
  · rw [hwritten, collect_markResolved]
    exact List.filter_sublist.map _
  · simp only [LspPass.intoResult]
    rw [hwritten, collect_markResolved, hresolved, SiteColumns.collect, List.length_map,
      List.length_map]
    exact length_unresolved hsub

/-- The report of a pass, whenever its time runs out, accounts for every site that was read: four
counters add up to their number, the reasons to the failures, and the next pass reads the sites that
have not been resolved, fewer by the number of those that have. -/
theorem report_accounts (w : Workspace) (columns : SiteColumns)
    (order : MapOrder (Str × List PassSite)) (table : CallSiteTable) :
    let report := (resolveWithLsp w columns order table).1
    let written := (resolveWithLsp w columns order table).2
    report.resolvedCount + report.failedCount + report.skippedCount +
        report.outsideTargetsCount = (columns.collect table).length ∧
      (report.failedByReason.map Prod.snd).sum = report.failedCount ∧
      (columns.collect written).Sublist (columns.collect table) ∧
      (columns.collect written).length + report.resolvedCount = (columns.collect table).length := by
  simp only [resolveWithLsp]
  split
  · rename_i hnone
    simp [nothingToResolve, hnone]
  · exact report_accounts_of_pass w columns order table

end Report

/-! ### The order of the files -/

section Order

variable {w : Workspace}

/-- What a pass does with one file while there is time. -/
def groupLog (w : Workspace) (group : Str × List PassSite) : List PassEvent :=
  if w.attribution group.1 = .outsideBuildTargets then
    group.2.map .outside ++ if w.pullSupported then checkLog w group.1 else []
  else
    match w.openDocument group.1 with
    | none => []
    | some uri =>
        (if w.pullSupported then checkLog w group.1 else []) ++
          group.2.map fun site => .asked site (w.definition uri site)

theorem sitesLog_of_time (htime : ∀ n, w.expired n = false) (uri : Str) (sites : List PassSite)
    (looks : Nat) : sitesLog w uri sites looks =
      (sites.map fun site => .asked site (w.definition uri site), looks + sites.length, false) := by
  induction sites generalizing looks with
  | nil => rfl
  | cons site sites ih =>
      rw [sitesLog, htime, if_neg Bool.false_ne_true, ih, List.length_cons, Nat.add_right_comm]
      rfl

theorem filesLog_of_time (htime : ∀ n, w.expired n = false) (files : List (Str × List PassSite))
    (looks : Nat) : filesLog w files looks = files.flatMap (groupLog w) := by
  induction files generalizing looks with
  | nil => rfl
  | cons group files ih =>
      obtain ⟨file, sites⟩ := group
      rw [filesLog, List.flatMap_cons, groupLog]
      split
      · rw [List.append_assoc, htime, if_neg Bool.false_ne_true, ih, ih]
        split <;> rfl
      · cases w.openDocument file with
        | none => exact ih looks
        | some uri =>
            simp only [sitesLog_of_time htime, Bool.false_eq_true, if_false]
            rw [ih, List.append_assoc]

theorem passLog_perm (htime : ∀ n, w.expired n = false)
    (order order' : MapOrder (Str × List PassSite)) (unresolved : List PassSite) :
    (passLog w order unresolved).Perm (passLog w order' unresolved) := by
  rw [passLog, passLog, filesLog_of_time htime, filesLog_of_time htime]
  exact ((order.perm _).trans (order'.perm _).symm).flatMap_right _

/-- The file of a check. -/
def PassEvent.checkedFile : PassEvent → Option Str
  | .checked file _ _ => some file
  | _ => none

theorem checkedFile_groupLog (group : Str × List PassSite) :
    ((groupLog w group).filterMap PassEvent.checkedFile).Sublist [group.1] := by
  have hcheck : ((if w.pullSupported then checkLog w group.1 else []).filterMap
      PassEvent.checkedFile).Sublist [group.1] := by
    split
    · rw [checkLog]
      cases w.openDocument group.1 with
      | none => exact List.nil_sublist _
      | some uri => exact List.Sublist.refl _
    · exact List.nil_sublist _
  rw [groupLog]
  split
  · have hnone : (group.2.map PassEvent.outside).filterMap PassEvent.checkedFile = [] := by
      simp [List.filterMap_map, PassEvent.checkedFile, Function.comp_def]
    rw [List.filterMap_append, hnone]
    exact hcheck
  · cases w.openDocument group.1 with
    | none => exact List.nil_sublist _
    | some uri =>
        have hnone : (group.2.map fun site => PassEvent.asked site (w.definition uri site)).filterMap
            PassEvent.checkedFile = [] := by
          simp [List.filterMap_map, PassEvent.checkedFile, Function.comp_def]
        rw [List.filterMap_append, hnone, List.append_nil]
        exact hcheck

/-- No file is checked twice. -/
theorem nodup_checkedFile (htime : ∀ n, w.expired n = false)
    (order : MapOrder (Str × List PassSite)) (unresolved : List PassSite) :
    ((passLog w order unresolved).filterMap PassEvent.checkedFile).Nodup := by
  have hsub : ∀ files : List (Str × List PassSite),
      ((files.flatMap (groupLog w)).filterMap PassEvent.checkedFile).Sublist
        (files.map Prod.fst) := by
    intro files
    induction files with
    | nil => exact List.Sublist.refl _
    | cons group files ih =>
        rw [List.flatMap_cons, List.filterMap_append, List.map_cons]
        exact (checkedFile_groupLog group).append ih
  rw [passLog, filesLog_of_time htime]
  exact (hsub _).nodup ((((order.perm _).map Prod.fst).nodup_iff).mpr (nodup_files unresolved))

theorem relPath_findings (events : List PassEvent) :
    ((events.filterMap PassEvent.finding).map UnlinkedFileFinding.relPath).Sublist
      (events.filterMap PassEvent.checkedFile) := by
  induction events with
  | nil => exact List.Sublist.refl _
  | cons event events ih =>
      rcases event with site | ⟨file, attribution, _ | diagnostics⟩ | ⟨site, definition⟩
      · exact ih
      · exact ih.cons file
      · cases hmessage : unlinkedFileMessage diagnostics with
        | none => simpa [PassEvent.finding, PassEvent.checkedFile, hmessage] using ih.cons file
        | some message =>
            simpa [PassEvent.finding, PassEvent.checkedFile, hmessage] using ih.cons_cons file
      · exact ih

section Agree

variable {ctx : SiteContext} {pass pass' : LspPass} {events events' : List PassEvent}

theorem idsOf_perm {settled settled' : List (PassSite × LspAnswer)} (h : settled.Perm settled')
    (kind : LspAnswer → Bool) : (idsOf settled kind).Perm (idsOf settled' kind) :=
  (h.filter _).map _

/-- The writes of two passes whose events are the same. -/
theorem Tallies.markResolved_of_perm (h : Tallies ctx pass events)
    (h' : Tallies ctx pass' events') (hperm : events.Perm events') (table : CallSiteTable) :
    pass.markResolved table = pass'.markResolved table := by
  have hsettled := hperm.filterMap (PassEvent.settled ctx)
  have hadded (id : Str) : id ∈ pass.newlyResolved ↔ id ∈ pass'.newlyResolved := by
    rw [h.newlyResolved, h'.newlyResolved, (idsOf_perm hsettled _).mem_iff]
  have houtside (id : Str) : id ∈ pass.outsideTargetIds ↔ id ∈ pass'.outsideTargetIds := by
    rw [h.outsideIds, h'.outsideIds, (idsOf_perm hsettled _).mem_iff]
  have htwins (id : Str) : id ∈ pass.compiledOutTwinIds ↔ id ∈ pass'.compiledOutTwinIds := by
    rw [h.twinIds, h'.twinIds, (idsOf_perm hsettled _).mem_iff]
  have hexternal (id : Str) : id ∈ pass.externalIds ↔ id ∈ pass'.externalIds := by
    rw [h.externalIds, h'.externalIds, (idsOf_perm hsettled _).mem_iff]
  simp only [LspPass.markResolved, CallSiteTable.markNodesResolved,
    CallSiteTable.clearCallsiteReasons, CallSiteTable.setCallsiteUnresolvedReason,
    CallSiteTable.promoteCallsiteReasonToExternal]
  rw [CallSiteTable.update_congr hexternal, CallSiteTable.update_congr htwins,
    CallSiteTable.update_congr houtside, CallSiteTable.update_congr hadded,
    CallSiteTable.update_congr hadded]

/-- The results of two passes whose events are the same, the order of the reasons aside. -/
theorem Tallies.intoResult_of_perm (h : Tallies ctx pass events)
    (h' : Tallies ctx pass' events') (hperm : events.Perm events')
    (hfiles : (events.filterMap PassEvent.checkedFile).Nodup) (htotal : pass.total = pass'.total)
    (hpull : pass.unlinked.pullSupported = pass'.unlinked.pullSupported) :
    pass.intoResult = { pass'.intoResult with failedByReason := pass.failedByReason } ∧
      ∀ why, pass.failedByReason.lookup why = pass'.failedByReason.lookup why := by
  have hsettled := hperm.filterMap (PassEvent.settled ctx)
  have hresolved : pass.resolved = pass'.resolved := by
    rw [h.resolved, h'.resolved, h.newlyResolved, h'.newlyResolved,
      (idsOf_perm hsettled _).length_eq]
  have hfailed : pass.failed = pass'.failed := by
    rw [h.failed, h'.failed, (hperm.filterMap _).length_eq]
  have houtside : pass.outsideTargets = pass'.outsideTargets := by
    rw [h.outside, h'.outside, h.outsideIds, h'.outsideIds, (idsOf_perm hsettled _).length_eq]
  have hchecked : pass.unlinked.filesChecked = pass'.unlinked.filesChecked := by
    rw [h.checked, h'.checked, (hperm.filter _).length_eq]
  have hfindings : (pass.unlinked.unlinked.mergeSort fun a b => a.relPath ≤ b.relPath) =
      pass'.unlinked.unlinked.mergeSort fun a b => a.relPath ≤ b.relPath := by
    rw [h.findings, h'.findings]
    refine MapOrder.mergeSort_eq_of_perm (fun a b c => ?_) (fun a b => ?_) (hperm.filterMap _)
      fun a ha b hb => ?_
    · simpa using le_trans
    · simpa using le_total _ _
    · intro hle hge
      have hnodup := (relPath_findings events).nodup hfiles
      exact List.inj_on_of_nodup_map hnodup ha hb
        (le_antisymm (of_decide_eq_true hle) (of_decide_eq_true hge))
  have hlinked : pass.unlinked.linkedDespiteOutsideTargets.mergeSort =
      pass'.unlinked.linkedDespiteOutsideTargets.mergeSort := by
    rw [h.linked, h'.linked]
    refine MapOrder.mergeSort_eq_of_perm (fun a b c => ?_) (fun a b => ?_) (hperm.filterMap _)
      fun a _ b _ => ?_
    · simpa using le_trans
    · simpa using le_total _ _
    · exact fun hle hge => le_antisymm (of_decide_eq_true hle) (of_decide_eq_true hge)
  refine ⟨?_, fun why => ?_⟩
  · simp only [LspPass.intoResult, hresolved, hfailed, houtside, htotal, hfindings, hlinked,
      hchecked, hpull]
  · rw [h.reasons, h'.reasons]
    exact Assoc.lookup_foldl_upsert_perm (fun _ _ _ => rfl) (hperm.filterMap _) [] why

end Agree

/-- While there is time the order in which the hash map yields the files decides nothing: the report
and the written call sites are the same, if each question has one answer. -/
theorem report_of_order (htime : ∀ n, w.expired n = false) (columns : SiteColumns)
    (order order' : MapOrder (Str × List PassSite)) (table : CallSiteTable) :
    let (report, written) := resolveWithLsp w columns order table
    let (report', written') := resolveWithLsp w columns order' table
    report = { report' with failedByReason := report.failedByReason } ∧
      (∀ why, report.failedByReason.lookup why = report'.failedByReason.lookup why) ∧
      written = written' := by
  simp only [resolveWithLsp]
  split
  · exact ⟨rfl, fun _ => rfl, rfl⟩
  · have h : Tallies w.context _ _ := tallies_passLog order (columns.collect table)
    have h' : Tallies w.context _ _ := tallies_passLog order' (columns.collect table)
    have hperm := passLog_perm htime order order' (columns.collect table)
    have hfiles := nodup_checkedFile htime order (columns.collect table)
    obtain ⟨hreport, hreasons⟩ := h.intoResult_of_perm h' hperm hfiles
      (by rw [drivePass_eq, drivePass_eq, (kept_foldl _ _).1, (kept_foldl _ _).1])
      (by rw [drivePass_eq, drivePass_eq, (kept_foldl _ _).2, (kept_foldl _ _).2])
    exact ⟨hreport, hreasons, h.markResolved_of_perm h' hperm table⟩

/-- A workspace in which no target compiles `b.rs`, and the server finds no definition. -/
def sampleWorkspace : Workspace where
  attribution file := if file = "b.rs".toList then .outsideBuildTargets else .insideBuildTargets
  pullSupported := true
  openDocument file := some file
  pullDiagnostics uri := some [⟨some "unlinked-file".toList, uri⟩]
  definition _ _ := .ok none
  context := ⟨fun _ => none, [], ⟨fun _ => none, fun _ => none, []⟩, fun _ => none, fun _ _ _ => false⟩
  expired _ := false

def sampleColumns : SiteColumns := ⟨fun _ => (1, 1), fun _ _ => false⟩

/-- A call in each of two files. -/
def sampleSites : CallSiteTable where
  rows :=
    [⟨"a.rs::f::call@1:1".toList, "g".toList, "rust".toList, .fresh⟩,
      ⟨"b.rs::h::call@2:1".toList, "g".toList, "rust".toList, .fresh⟩]
  unique := by decide

/-- One call fails and one lies outside the build targets, in either order. -/
theorem report_of_order_sample :
    let (report, written) := resolveWithLsp sampleWorkspace sampleColumns (.inserted _) sampleSites
    let (report', written') :=
      resolveWithLsp sampleWorkspace sampleColumns (.backwards _) sampleSites
    (report'.resolvedCount = 0 ∧ report'.failedCount = 1 ∧ report'.skippedCount = 0 ∧
        report'.outsideTargetsCount = 1) ∧
      report = { report' with failedByReason := report.failedByReason } ∧
      (∀ why, report.failedByReason.lookup why = report'.failedByReason.lookup why) ∧
      written = written' :=
  ⟨by decide +kernel,
    report_of_order (fun _ => rfl) sampleColumns (.inserted _) (.backwards _) sampleSites⟩

end Order

end AutomatisedPipeline.LspResolver
