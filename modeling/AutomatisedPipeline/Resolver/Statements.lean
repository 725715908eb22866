import AutomatisedPipeline.Resolver.ReasonMarker

/-!
An incremental refresh as the statements it runs, one after another
(`incremental/mod.rs`, `stale_sites.rs`, `edges.rs`, `mutate.rs`).

A statement runs as a whole or not at all. Those on other tables (files, directories,
contents, imports, infrastructure) leave sites, rows and their targets alone. A pass that
completes comes to the graph of `applyRefresh` (`completed_eq_applyRefresh`).
-/

namespace AutomatisedPipeline.Resolver

open Text

/-! ### The store and its statements -/

/-- The graph with the nodes a row can lead to, by label and id. -/
structure NodeGraph extends SiteGraph where
  nodes : List (Str × Str)

/-- The statements of a refresh. -/
inductive Statement where
  /-- One batch of `mark_callsites_unresolved`. -/
  | markUnresolved (ids : List Str)
  /-- One batch of `set_callsite_unresolved_reason`, with no reason. -/
  | clearReason (ids : List Str)
  /-- `purge_file_symbols`. -/
  | purgeSymbols (rel : Str)
  | insertSites (parsed : List ParsedSite)
  | insertNodes (nodes : List (Str × Str))
  /-- `insert_edge` for a saved row. -/
  | relink (row : SiteRow)
  /-- One batch of `mark_nodes_resolved`. -/
  | markResolved (ids : List Str)

def NodeGraph.exec (g : NodeGraph) : Statement → NodeGraph
  | .markUnresolved ids => { g with sites := g.sites.markCallsitesUnresolved ids }
  | .clearReason ids => { g with sites := g.sites.setCallsiteUnresolvedReason ids [] }
  | .purgeSymbols rel =>
      { g with
        sites := g.sites.delete fun site => inFiles [rel] site.id
        nodes := g.nodes.filter fun node => !inFiles [rel] node.2
        rows := g.rows.filter fun row => !inFiles [rel] row.site && !inFiles [rel] row.target }
  | .insertSites parsed => { g with sites := insertSites parsed g.sites }
  | .insertNodes nodes => { g with nodes := g.nodes ++ nodes }
  | .relink row =>
      if (row.label, row.target) ∈ g.nodes ∧ row.site ∈ g.sites.rows.map CallSite.id then
        { g with rows := g.rows ++ [row] }
      else g
  | .markResolved ids => { g with sites := g.sites.markNodesResolved ids }

/-! ### The change set -/

/-- A bulk insert of a file that is parsed. -/
inductive Insert where
  | ofSites (parsed : List ParsedSite)
  | ofNodes (nodes : List (Str × Str))

namespace Insert

def statement : Insert → Statement
  | .ofSites parsed => .insertSites parsed
  | .ofNodes nodes => .insertNodes nodes

def parsed : Insert → List ParsedSite
  | .ofSites sites => sites
  | .ofNodes _ => []

def nodes : Insert → List (Str × Str)
  | .ofSites _ => []
  | .ofNodes inserted => inserted

end Insert

/-- A file and the inserts of its parse, in the order of the flush: the ids of a file begin with
its path. -/
structure ParsedFile where
  rel : Str
  inserts : List Insert
  sites_under : ∀ insert ∈ inserts, ∀ site ∈ insert.parsed, inFiles [rel] site.id = true
  nodes_under : ∀ insert ∈ inserts, ∀ node ∈ insert.nodes, inFiles [rel] node.2 = true

/-- `ChangeSet`: a rename has the old path and the new file. -/
structure ChangeSet where
  changed : List ParsedFile
  added : List ParsedFile
  deleted : List Str
  renamed : List (Str × ParsedFile)

namespace ChangeSet

/-- The files that are parsed again, in their order. -/
def reparsed (changes : ChangeSet) : List ParsedFile :=
  changes.changed ++ (changes.added ++ changes.renamed.map Prod.snd)

/-- The change set by its paths, and what the parsed files hold. -/
def refresh (changes : ChangeSet) : Refresh where
  changed := changes.changed.map ParsedFile.rel
  added := changes.added.map ParsedFile.rel
  deleted := changes.deleted
  renamedOld := changes.renamed.map Prod.fst
  renamedNew := changes.renamed.map fun r => r.2.rel
  parsed := changes.reparsed.flatMap fun file => file.inserts.flatMap Insert.parsed
  symbols := changes.reparsed.flatMap fun file => file.inserts.flatMap Insert.nodes

end ChangeSet

/-! ### The pass -/

/-- `BULK_BATCH_SIZE`. -/
def bulkBatchSize : Nat := 500

/-- `<[_]>::chunks`, of a batch each; a list of `fuel` elements has no more of them. -/
def chunksLoop : Nat → List Str → List (List Str)
  | 0, _ => []
  | fuel + 1, ids =>
      if ids = [] then [] else ids.take bulkBatchSize :: chunksLoop fuel (ids.drop bulkBatchSize)

def chunks (ids : List Str) : List (List Str) := chunksLoop ids.length ids

/-- The ids of a hash set, sorted. -/
def sorted (ids : List Str) : List Str := ids.dedup.mergeSort fun a b => decide (a ≤ b)

/-- The writes of `reopen_sites_resolved_into`. -/
def reopenStatements (g : NodeGraph) (refresh : Refresh) : List Statement :=
  let ids := sorted (reopenedSites g.toSiteGraph refresh)
  (chunks ids).map .markUnresolved ++ (chunks ids).map .clearReason

def purgeStatements (refresh : Refresh) : List Statement := refresh.purgedRels.map .purgeSymbols

def reparseStatements (changes : ChangeSet) : List Statement :=
  changes.reparsed.flatMap fun file => file.inserts.map Insert.statement

/-- The writes of `relink_inbound_edges`; a row that the store does not accept is skipped. -/
def relinkStatements (g : NodeGraph) (refresh : Refresh) (accepts : SiteRow → Bool) :
    List Statement :=
  ((snapshotRows g.toSiteGraph refresh).filter accepts).map .relink

/-- The sites of `ids` that hold a row. -/
def sitesWithEdge (g : NodeGraph) (ids : List Str) : List Str :=
  sorted ((g.rows.map SiteRow.site).filter fun id => ids.contains id)

/-- The writes of `restore_sites_with_edge`. -/
def restoreStatements (g : NodeGraph) (ids : List Str) : List Statement :=
  (chunks (sitesWithEdge g ids)).map .markResolved

/-- The purge, the parse and the relink. -/
def rewriteStatements (g : NodeGraph) (changes : ChangeSet) (accepts : SiteRow → Bool) :
    List Statement :=
  purgeStatements changes.refresh ++
    (reparseStatements changes ++ relinkStatements g changes.refresh accepts)

/-- What `apply_changes` runs up to the relink. -/
def statementsToRelink (g : NodeGraph) (changes : ChangeSet) (accepts : SiteRow → Bool) :
    List Statement :=
  reopenStatements g changes.refresh ++ rewriteStatements g changes accepts

/-- The statements of `apply_changes`: what is set back depends on the rows after the relink. -/
def applyStatements (g : NodeGraph) (changes : ChangeSet) (accepts : SiteRow → Bool) :
    List Statement :=
  statementsToRelink g changes accepts ++
    restoreStatements ((statementsToRelink g changes accepts).foldl NodeGraph.exec g)
      (sorted (reopenedSites g.toSiteGraph changes.refresh))

/-- The graph where the pass stops after so many statements. -/
def stoppedAfter (k : Nat) (g : NodeGraph) (changes : ChangeSet) (accepts : SiteRow → Bool) :
    NodeGraph :=
  ((applyStatements g changes accepts).take k).foldl NodeGraph.exec g

/-- The graph after a completed pass. -/
def completed (g : NodeGraph) (changes : ChangeSet) (accepts : SiteRow → Bool) : NodeGraph :=
  (applyStatements g changes accepts).foldl NodeGraph.exec g

/-! ### Batches -/

theorem flatten_chunksLoop {fuel : Nat} {ids : List Str} (h : ids.length ≤ fuel) :
    (chunksLoop fuel ids).flatten = ids := by
  induction fuel generalizing ids with
  | zero =>
      obtain rfl := List.length_eq_zero_iff.mp (Nat.le_zero.mp h)
      rfl
  | succ fuel ih =>
      rw [chunksLoop]
      split
      · rename_i hnil
        exact hnil.symm
      · rename_i hne
        have hpos : 0 < ids.length := List.length_pos_iff.mpr hne
        rw [List.flatten_cons, ih, List.take_append_drop]
        rw [List.length_drop, bulkBatchSize]
        omega

theorem exists_mem_chunks {ids : List Str} {id : Str} :
    (∃ chunk ∈ chunks ids, id ∈ chunk) ↔ id ∈ ids := by
  rw [← List.mem_flatten, chunks, flatten_chunksLoop le_rfl]

theorem mem_sorted {ids : List Str} {id : Str} : id ∈ sorted ids ↔ id ∈ ids := by
  rw [sorted, List.mem_mergeSort, List.mem_dedup]

/-! ### A completed pass -/

namespace CallSiteTable

theorem rows_injective : Function.Injective CallSiteTable.rows := by
  rintro ⟨rows, _⟩ ⟨rows', _⟩ h
  obtain rfl : rows = rows' := h
  rfl

theorem update_congr {table : CallSiteTable} {ids ids' : List Str} {f : SiteState → SiteState}
    (h : ∀ id, id ∈ ids ↔ id ∈ ids') : table.update ids f = table.update ids' f := by
  refine mapState_congr fun s _ => ?_
  simp only [h s.id]

theorem update_nil (table : CallSiteTable) (f : SiteState → SiteState) :
    table.update [] f = table := by
  apply rows_injective
  simp [update, mapState]

/-- Two batches of a write that is the same twice are one. -/
theorem update_append {table : CallSiteTable} {ids ids' : List Str} {f : SiteState → SiteState}
    (hf : ∀ state, f (f state) = f state) :
    (table.update ids f).update ids' f = table.update (ids ++ ids') f := by
  rw [show table.update ids f = table.mapState _ from rfl, update_mapState, update]
  refine mapState_congr fun s _ => ?_
  by_cases h : s.id ∈ ids <;> by_cases h' : s.id ∈ ids' <;> simp [h, h', hf]

theorem delete_delete (table : CallSiteTable) (p q : CallSite → Bool) :
    (table.delete p).delete q = table.delete fun s => p s || q s := by
  apply rows_injective
  simp [delete, List.filter_filter, Bool.and_comm]

end CallSiteTable

/-- The batches of a write on the flags come to the write on all the ids. -/
theorem foldl_exec_batches (batch : List Str → Statement) (f : SiteState → SiteState)
    (hbatch : ∀ (g : NodeGraph) ids, g.exec (batch ids) = { g with sites := g.sites.update ids f })
    (hf : ∀ state, f (f state) = f state) (ids : List Str) (g : NodeGraph) :
    ((chunks ids).map batch).foldl NodeGraph.exec g =
      { g with sites := g.sites.update ids f } := by
  have hrun : ∀ (batches : List (List Str)) (g : NodeGraph),
      (batches.map batch).foldl NodeGraph.exec g =
        { g with sites := g.sites.update batches.flatten f } := by
    intro batches
    induction batches with
    | nil =>
        intro g
        rw [List.flatten_nil, CallSiteTable.update_nil]
        rfl
    | cons first batches ih =>
        intro g
        rw [List.map_cons, List.foldl_cons, ih, hbatch, List.flatten_cons,
          ← CallSiteTable.update_append hf]
  rw [hrun, chunks, flatten_chunksLoop le_rfl]

theorem inFiles_cons (rel : Str) (rels : List Str) (id : Str) :
    inFiles (rel :: rels) id = (inFiles [rel] id || inFiles rels id) := by
  simp [inFiles]

theorem foldl_exec_purge (rels : List Str) (g : NodeGraph) :
    (rels.map Statement.purgeSymbols).foldl NodeGraph.exec g =
      { g with
        sites := g.sites.delete fun site => inFiles rels site.id
        nodes := g.nodes.filter fun node => !inFiles rels node.2
        rows := g.rows.filter fun row => !inFiles rels row.site && !inFiles rels row.target } := by
  induction rels generalizing g with
  | nil =>
      have hsites : g.sites.delete (fun site => inFiles [] site.id) = g.sites := by
        apply CallSiteTable.rows_injective
        simp [CallSiteTable.delete, inFiles]
      rw [hsites]
      simp [inFiles]
  | cons rel rels ih =>
      rw [List.map_cons, List.foldl_cons, ih, NodeGraph.exec, CallSiteTable.delete_delete,
        List.filter_filter, List.filter_filter]
      simp only [inFiles_cons rel rels, Bool.not_or]
      congr 2
      · congr 1
        funext row
        ac_rfl
      · funext node
        exact Bool.and_comm _ _

theorem insertSites_append (parsed parsed' : List ParsedSite) (table : CallSiteTable) :
    insertSites (parsed ++ parsed') table = insertSites parsed' (insertSites parsed table) :=
  List.foldl_append

theorem foldl_exec_inserts (inserts : List Insert) (g : NodeGraph) :
    (inserts.map Insert.statement).foldl NodeGraph.exec g =
      { g with
        sites := insertSites (inserts.flatMap Insert.parsed) g.sites
        nodes := g.nodes ++ inserts.flatMap Insert.nodes } := by
  induction inserts generalizing g with
  | nil => simp [insertSites]
  | cons insert inserts ih =>
      rw [List.map_cons, List.foldl_cons, ih, List.flatMap_cons, List.flatMap_cons,
        insertSites_append, ← List.append_assoc]
      cases insert with
      | ofSites parsed =>
          simp only [Insert.statement, NodeGraph.exec, Insert.parsed, Insert.nodes, List.append_nil]
      | ofNodes nodes =>
          simp only [Insert.statement, NodeGraph.exec, Insert.parsed, Insert.nodes]
          rfl

theorem foldl_exec_relink (saved : List SiteRow) (g : NodeGraph) :
    (saved.map Statement.relink).foldl NodeGraph.exec g =
      { g with
        rows := g.rows ++ saved.filter fun row => decide ((row.label, row.target) ∈ g.nodes) &&
          decide (row.site ∈ g.sites.rows.map CallSite.id) } := by
  induction saved generalizing g with
  | nil => simp
  | cons row saved ih =>
      rw [List.map_cons, List.foldl_cons, ih, NodeGraph.exec, List.filter_cons]
      by_cases hends : (row.label, row.target) ∈ g.nodes ∧ row.site ∈ g.sites.rows.map CallSite.id
      · rw [if_pos hends, if_pos (by simpa using hends), List.append_assoc]
        rfl
      · rw [if_neg hends, if_neg (by simpa using hends)]

/-- The reopening comes to `reopen_sites_resolved_into`. -/
theorem foldl_exec_reopen (g : NodeGraph) (refresh : Refresh) :
    (reopenStatements g refresh).foldl NodeGraph.exec g =
      { g with toSiteGraph := reopenSitesResolvedInto g.toSiteGraph refresh } := by
  rw [reopenStatements, List.foldl_append,
    foldl_exec_batches .markUnresolved (fun state => { state with isResolved := some false })
      (fun _ _ => rfl) fun _ => rfl,
    foldl_exec_batches .clearReason (fun state => { state with reason := [], detail := [] })
      (fun _ _ => rfl) fun _ => rfl]
  have hids : ∀ id, id ∈ sorted (reopenedSites g.toSiteGraph refresh) ↔
      id ∈ reopenedSites g.toSiteGraph refresh := fun id => mem_sorted
  rw [reopenSitesResolvedInto, CallSiteTable.setCallsiteUnresolvedReason,
    CallSiteTable.markCallsitesUnresolved, CallSiteTable.update_congr hids,
    CallSiteTable.update_congr hids]

/-- A saved row leads to a changed file, whose nodes were purged: its target is there again when
the parse inserts it. -/
theorem mem_nodes_iff_of_saved {g : NodeGraph} {refresh : Refresh} {row : SiteRow}
    (hrow : row ∈ snapshotRows g.toSiteGraph refresh) {inserted : List (Str × Str)} :
    (row.label, row.target) ∈
        (g.nodes.filter fun node => !inFiles refresh.purgedRels node.2) ++ inserted ↔
      (row.label, row.target) ∈ inserted := by
  obtain ⟨-, htest⟩ := List.mem_filter.mp hrow
  have hchanged := (Bool.and_eq_true_iff.mp htest).1
  have hpurged : inFiles refresh.purgedRels row.target = true := by
    rw [inFiles, List.any_eq_true] at hchanged ⊢
    obtain ⟨rel, hrel, hprefix⟩ := hchanged
    exact ⟨rel, List.mem_append_left _ (List.mem_append_left _ hrel), hprefix⟩
  rw [List.mem_append, or_iff_right]
  intro hold
  simp [hpurged] at hold

/-- The statements up to the relink come to `relinked`. -/
theorem foldl_exec_toRelink (g : NodeGraph) (changes : ChangeSet) :
    ((statementsToRelink g changes fun _ => true).foldl NodeGraph.exec g).toSiteGraph =
      relinked g.toSiteGraph changes.refresh := by
  have hinserts : reparseStatements changes =
      (changes.reparsed.flatMap ParsedFile.inserts).map Insert.statement := by
    rw [reparseStatements, List.map_flatMap]
  have hnodes : (changes.reparsed.flatMap ParsedFile.inserts).flatMap Insert.nodes =
      changes.refresh.symbols := List.flatMap_assoc
  have hsites : (changes.reparsed.flatMap ParsedFile.inserts).flatMap Insert.parsed =
      changes.refresh.parsed := List.flatMap_assoc
  rw [statementsToRelink, rewriteStatements, List.foldl_append, List.foldl_append,
    List.foldl_append, foldl_exec_reopen, purgeStatements, foldl_exec_purge, hinserts,
    foldl_exec_inserts, relinkStatements, foldl_exec_relink, List.filter_true, hnodes, hsites]
  refine congrArg (fun rows => { relinked g.toSiteGraph changes.refresh with rows := rows })
    (congrArg (_ ++ ·) (List.filter_congr fun row hrow => ?_))
  simp only [mem_nodes_iff_of_saved hrow]
  rfl

/-- A pass that completes, and whose relinks are all accepted, is the refresh as one step. -/
theorem completed_eq_applyRefresh (g : NodeGraph) (changes : ChangeSet) :
    (completed g changes fun _ => true).toSiteGraph =
      applyRefresh g.toSiteGraph changes.refresh := by
  rw [completed, applyStatements, List.foldl_append, restoreStatements,
    foldl_exec_batches .markResolved (fun state => { state with isResolved := some true })
      (fun _ _ => rfl) fun _ => rfl, applyRefresh, restoreSitesWithEdge, ← foldl_exec_toRelink]
  refine congrArg (fun sites => { ((statementsToRelink g changes fun _ => true).foldl
    NodeGraph.exec g).toSiteGraph with sites := sites }) (CallSiteTable.update_congr fun id => ?_)
  rw [sitesWithEdge, mem_sorted]
  simp [mem_sorted]

end AutomatisedPipeline.Resolver
