import AutomatisedPipeline.Resolver.Statements

/-!
The flags of the call sites wherever an incremental refresh stops.

The sites of other files that hold a row into a purged file are opened before the purge,
while their rows still stand, and set back only after the relink, those of them that hold a
row then. In between no statement touches a site outside the files of the change. So such a
site is never marked resolved without a row.
-/

namespace AutomatisedPipeline.Resolver

open Text

/-! ### Sites outside the change -/

/-- The state of a site. -/
def CallSiteTable.stateOf (table : CallSiteTable) (id : Str) : Option SiteState :=
  (table.rows.find? fun site => site.id = id).map CallSite.state

/-- Neither the file that an id names nor a prefix of it is one of the files. -/
def Outside (rels : List Str) (id : Str) : Prop := filePathOf id ∉ rels ∧ inFiles rels id = false

/-- The site holds a row. -/
def HoldsRow (rows : List SiteRow) (id : Str) : Prop := ∃ row ∈ rows, row.site = id

/-- The site holds a row into one of the files. -/
def HoldsRowInto (rels : List Str) (rows : List SiteRow) (id : Str) : Prop :=
  ∃ row ∈ rows, row.site = id ∧ inFiles rels row.target = true

/-- The site is marked resolved. -/
def MarkedResolved (g : NodeGraph) (id : Str) : Prop :=
  ∃ state, g.sites.stateOf id = some state ∧ state.isResolved = some true

/-! ### What a statement changes -/

namespace CallSiteTable

theorem stateOf_update (table : CallSiteTable) (ids : List Str) (f : SiteState → SiteState)
    (id : Str) : (table.update ids f).stateOf id =
      (table.stateOf id).map fun state => if id ∈ ids then f state else state := by
  rw [stateOf, stateOf, update, mapState, List.find?_map, Option.map_map, Option.map_map]
  have hsame : ((fun s : CallSite => decide (s.id = id)) ∘ fun s : CallSite =>
      { s with state := if s.id ∈ ids then f s.state else s.state }) =
        fun s : CallSite => decide (s.id = id) := rfl
  rw [hsame]
  cases hfind : table.rows.find? fun s => s.id = id with
  | none => rfl
  | some s =>
      obtain rfl := of_decide_eq_true
        (List.find?_some (p := fun s : CallSite => decide (s.id = id)) hfind)
      rfl

theorem stateOf_delete (table : CallSiteTable) (p : Str → Bool) (id : Str) :
    (table.delete fun s => p s.id).stateOf id = if p id then none else table.stateOf id := by
  rw [stateOf, stateOf, delete, List.find?_filter]
  split
  · rename_i hp
    rw [Option.map_eq_none_iff, List.find?_eq_none]
    intro s _ hs
    obtain ⟨hkept, hid⟩ := of_decide_eq_true hs
    rw [of_decide_eq_true hid, hp] at hkept
    cases hkept
  · rename_i hp
    congr 2
    funext s
    by_cases hid : s.id = id
    · simp [hid, hp]
    · simp [hid]

theorem stateOf_insert {table : CallSiteTable} {site : CallSite} {id : Str} (h : site.id ≠ id) :
    (table.insert site).stateOf id = table.stateOf id := by
  rw [insert]
  split
  · rfl
  · rw [stateOf, stateOf, List.find?_append, List.find?_cons_of_neg (by simpa using h),
      List.find?_nil, Option.or_none]

theorem stateOf_insertSites {table : CallSiteTable} {parsed : List ParsedSite} {id : Str}
    (h : ∀ site ∈ parsed, site.id ≠ id) :
    (insertSites parsed table).stateOf id = table.stateOf id := by
  refine List.foldlRecOn (motive := fun t : CallSiteTable => t.stateOf id = table.stateOf id)
    parsed _ rfl fun t ht site hsite => ?_
  rw [stateOf_insert (h site hsite), ht]

end CallSiteTable

namespace Statement

/-- The statement is about the site. -/
def Concerns (id : Str) : Statement → Prop
  | .markUnresolved ids => id ∈ ids
  | .clearReason ids => id ∈ ids
  | .purgeSymbols rel => inFiles [rel] id = true
  | .insertSites parsed => ∃ site ∈ parsed, site.id = id
  | .insertNodes _ => False
  | .relink _ => False
  | .markResolved ids => id ∈ ids

end Statement

/-- A statement changes the state of no site but those it is about. -/
theorem stateOf_exec {g : NodeGraph} {w : Statement} {id : Str} (h : ¬ w.Concerns id) :
    (g.exec w).sites.stateOf id = g.sites.stateOf id := by
  cases w with
  | markUnresolved ids | clearReason ids | markResolved ids =>
      have hids : id ∉ ids := h
      refine (CallSiteTable.stateOf_update g.sites ids _ id).trans ?_
      simp only [if_neg hids]
      exact Option.map_id'
  | purgeSymbols rel =>
      have hrel : ¬ inFiles [rel] id = true := h
      refine (CallSiteTable.stateOf_delete g.sites (inFiles [rel]) id).trans ?_
      rw [if_neg hrel]
  | insertSites parsed =>
      exact CallSiteTable.stateOf_insertSites fun site hsite hid => h ⟨site, hsite, hid⟩
  | insertNodes nodes => rfl
  | relink row =>
      rw [NodeGraph.exec]
      split <;> rfl

theorem inFiles_of_mem {rels : List Str} {rel id : Str} (hrel : rel ∈ rels)
    (h : inFiles [rel] id = true) : inFiles rels id = true := by
  rw [inFiles, List.any_eq_true] at h ⊢
  obtain ⟨rel', hrel', hprefix⟩ := h
  rw [List.mem_singleton] at hrel'
  exact ⟨rel, hrel, hrel' ▸ hprefix⟩

/-- The parsed files, by their paths. -/
theorem reparsedSet_refresh (changes : ChangeSet) :
    changes.refresh.reparsedSet = changes.reparsed.map ParsedFile.rel := by
  simp [Refresh.reparsedSet, ChangeSet.refresh, ChangeSet.reparsed]

section Outside

variable {changes : ChangeSet} {id : Str}

theorem mem_reopenedSites_iff {g : SiteGraph} (h : Outside changes.refresh.leaving id) :
    id ∈ reopenedSites g changes.refresh ↔
      HoldsRowInto changes.refresh.purgedRels g.rows id := by
  rw [reopenedSites, List.mem_map]
  constructor
  · rintro ⟨row, hrow, hid⟩
    obtain ⟨hrow, htest⟩ := List.mem_filter.mp hrow
    exact ⟨row, hrow, hid, (Bool.and_eq_true_iff.mp htest).1⟩
  · rintro ⟨row, hrow, rfl, htarget⟩
    refine ⟨row, List.mem_filter.mpr ⟨hrow, ?_⟩, rfl⟩
    simpa [htarget] using h.1

/-- No statement between the reopening and the restoring is about a site outside the change. -/
theorem not_concerns_middle {g : NodeGraph} {accepts : SiteRow → Bool}
    (h : Outside changes.refresh.leaving id) {w : Statement}
    (hw : w ∈ rewriteStatements g changes accepts) :
    ¬ w.Concerns id := by
  have hnot : ∀ rel ∈ changes.refresh.leaving, ¬ inFiles [rel] id = true := by
    intro rel hrel hid
    exact Bool.false_ne_true (h.2.symm.trans (inFiles_of_mem hrel hid))
  obtain hw | hw := List.mem_append.mp hw
  · obtain ⟨rel, hrel, rfl⟩ := List.mem_map.mp hw
    exact hnot rel (List.mem_append_right _ hrel)
  obtain hw | hw := List.mem_append.mp hw
  · obtain ⟨file, hfile, hw⟩ := List.mem_flatMap.mp hw
    obtain ⟨insert, hinsert, rfl⟩ := List.mem_map.mp hw
    cases insert with
    | ofSites parsed =>
        rintro ⟨site, hsite, rfl⟩
        refine hnot file.rel (List.mem_append_left _ ?_) (file.sites_under _ hinsert site hsite)
        rw [reparsedSet_refresh]
        exact List.mem_map.mpr ⟨file, hfile, rfl⟩
    | ofNodes nodes => exact not_false
  · obtain ⟨row, -, rfl⟩ := List.mem_map.mp hw
    exact not_false

/-! ### The flag of a site that was opened -/

/-- The site is open. -/
def Opened (id : Str) (g : NodeGraph) : Prop :=
  ∃ state, g.sites.stateOf id = some state ∧ state.isResolved = some false

theorem Opened.not_markedResolved {g : NodeGraph} (h : Opened id g) : ¬ MarkedResolved g id := by
  rintro ⟨state, hstate, hresolved⟩
  obtain ⟨state', hstate', hopen⟩ := h
  rw [hstate] at hstate'
  rw [Option.some.inj hstate', hopen] at hresolved
  cases hresolved

theorem Opened.exec {g : NodeGraph} {w : Statement} (h : Opened id g) (hw : ¬ w.Concerns id) :
    Opened id (g.exec w) := by
  rw [Opened, stateOf_exec hw]
  exact h

theorem stateOf_markUnresolved (g : NodeGraph) (ids : List Str) (id : Str) :
    (g.exec (.markUnresolved ids)).sites.stateOf id = (g.sites.stateOf id).map fun state =>
      if id ∈ ids then { state with isResolved := some false } else state :=
  CallSiteTable.stateOf_update g.sites ids _ id

theorem stateOf_clearReason (g : NodeGraph) (ids : List Str) (id : Str) :
    (g.exec (.clearReason ids)).sites.stateOf id = (g.sites.stateOf id).map fun state =>
      if id ∈ ids then { state with reason := [], detail := [] } else state :=
  CallSiteTable.stateOf_update g.sites ids _ id

theorem stateOf_markResolved (g : NodeGraph) (ids : List Str) (id : Str) :
    (g.exec (.markResolved ids)).sites.stateOf id = (g.sites.stateOf id).map fun state =>
      if id ∈ ids then { state with isResolved := some true } else state :=
  CallSiteTable.stateOf_update g.sites ids _ id

/-- What the reopening runs. -/
theorem mem_reopenStatements {g : NodeGraph} {refresh : Refresh} {w : Statement}
    (hw : w ∈ reopenStatements g refresh) :
    ∃ chunk ∈ chunks (sorted (reopenedSites g.toSiteGraph refresh)),
      w = .markUnresolved chunk ∨ w = .clearReason chunk := by
  obtain hw | hw := List.mem_append.mp hw
  · obtain ⟨chunk, hchunk, rfl⟩ := List.mem_map.mp hw
    exact ⟨chunk, hchunk, .inl rfl⟩
  · obtain ⟨chunk, hchunk, rfl⟩ := List.mem_map.mp hw
    exact ⟨chunk, hchunk, .inr rfl⟩

/-- The batch of a site opens it, and the other batches leave it open. -/
theorem opened_of_reopen {g : NodeGraph} {refresh : Refresh} {state : SiteState}
    (hstate : g.sites.stateOf id = some state) (hid : id ∈ reopenedSites g.toSiteGraph refresh) :
    Opened id ((reopenStatements g refresh).foldl NodeGraph.exec g) := by
  obtain ⟨chunk, hchunk, hmem⟩ := exists_mem_chunks.mpr (mem_sorted.mpr hid)
  have hmark : Statement.markUnresolved chunk ∈ reopenStatements g refresh :=
    List.mem_append_left _ (List.mem_map.mpr ⟨chunk, hchunk, rfl⟩)
  refine Run.foldl_reaches (P := fun g => ∃ state, g.sites.stateOf id = some state) hmark
    ⟨state, hstate⟩ ?_ ?_ ?_
  · rintro w hw s ⟨state, hs⟩
    obtain ⟨other, -, rfl | rfl⟩ := mem_reopenStatements hw
    · exact ⟨_, by rw [stateOf_markUnresolved, hs, Option.map_some]⟩
    · exact ⟨_, by rw [stateOf_clearReason, hs, Option.map_some]⟩
  · rintro s ⟨state, hs⟩
    exact ⟨_, by rw [stateOf_markUnresolved, hs, Option.map_some, if_pos hmem], rfl⟩
  · rintro w hw s ⟨state, hs, hopen⟩
    obtain ⟨other, -, rfl | rfl⟩ := mem_reopenStatements hw
    · refine ⟨_, by rw [stateOf_markUnresolved, hs, Option.map_some], ?_⟩
      split
      · rfl
      · exact hopen
    · refine ⟨_, by rw [stateOf_clearReason, hs, Option.map_some], ?_⟩
      split <;> exact hopen

/-- While sites are opened, every row stands. -/
theorem rows_of_reopen {g : NodeGraph} {refresh : Refresh} (k : Nat) :
    (((reopenStatements g refresh).take k).foldl NodeGraph.exec g).rows = g.rows := by
  refine Run.forall_take (P := fun s : NodeGraph => s.rows = g.rows) rfl (fun w hw s hs => ?_) k
  obtain ⟨chunk, -, rfl | rfl⟩ := mem_reopenStatements hw
  · exact hs
  · exact hs

/-! ### The end of the pass -/

theorem mem_restoreStatements {g : NodeGraph} {ids : List Str} {w : Statement}
    (hw : w ∈ restoreStatements g ids) :
    ∃ chunk ∈ chunks (sitesWithEdge g ids), w = .markResolved chunk := by
  obtain ⟨chunk, hchunk, rfl⟩ := List.mem_map.mp hw
  exact ⟨chunk, hchunk, rfl⟩

theorem mem_sitesWithEdge {g : NodeGraph} {ids : List Str} :
    id ∈ sitesWithEdge g ids ↔ HoldsRow g.rows id ∧ id ∈ ids := by
  rw [sitesWithEdge, mem_sorted, List.mem_filter, List.mem_map, List.contains_iff_mem]
  rfl

theorem rows_of_restore {g : NodeGraph} {ids : List Str} (k : Nat) :
    (((restoreStatements g ids).take k).foldl NodeGraph.exec g).rows = g.rows := by
  refine Run.forall_take (P := fun s : NodeGraph => s.rows = g.rows) rfl (fun w hw s hs => ?_) k
  obtain ⟨chunk, -, rfl⟩ := mem_restoreStatements hw
  exact hs

/-- A site that holds no row is not set back. -/
theorem opened_of_restore {g : NodeGraph} {ids : List Str} (hopen : Opened id g)
    (hrow : ¬ HoldsRow g.rows id) (k : Nat) :
    Opened id (((restoreStatements g ids).take k).foldl NodeGraph.exec g) := by
  refine Run.forall_take (P := Opened id) hopen (fun w hw s hs => hs.exec ?_) k
  obtain ⟨chunk, hchunk, rfl⟩ := mem_restoreStatements hw
  exact fun hmem => hrow (mem_sitesWithEdge.mp (exists_mem_chunks.mp ⟨chunk, hchunk, hmem⟩)).1

/-- A site that was opened and holds a row is set back. -/
theorem markedResolved_of_restore {g : NodeGraph} {ids : List Str} (hopen : Opened id g)
    (hrow : HoldsRow g.rows id) (hid : id ∈ ids) :
    MarkedResolved ((restoreStatements g ids).foldl NodeGraph.exec g) id := by
  obtain ⟨state, hstate, -⟩ := hopen
  obtain ⟨chunk, hchunk, hmem⟩ := exists_mem_chunks.mpr (mem_sitesWithEdge.mpr ⟨hrow, hid⟩)
  refine Run.foldl_reaches (P := fun g => ∃ state, g.sites.stateOf id = some state)
    (Q := fun g => MarkedResolved g id) (List.mem_map.mpr ⟨chunk, hchunk, rfl⟩)
    ⟨state, hstate⟩ ?_ ?_ ?_
  · rintro w hw s ⟨state, hs⟩
    obtain ⟨other, -, rfl⟩ := mem_restoreStatements hw
    exact ⟨_, by rw [stateOf_markResolved, hs, Option.map_some]⟩
  · rintro s ⟨state, hs⟩
    exact ⟨_, by rw [stateOf_markResolved, hs, Option.map_some, if_pos hmem], rfl⟩
  · rintro w hw s ⟨state, hs, hresolved⟩
    obtain ⟨other, -, rfl⟩ := mem_restoreStatements hw
    refine ⟨_, by rw [stateOf_markResolved, hs, Option.map_some], ?_⟩
    split
    · rfl
    · exact hresolved

/-! ### Wherever the pass stops -/

variable {g : NodeGraph} {accepts : SiteRow → Bool} {state : SiteState}

/-- From the reopening to the relink, a site that was opened is open. -/
theorem opened_to_relink (hout : Outside changes.refresh.leaving id)
    (hstate : g.sites.stateOf id = some state)
    (hheld : HoldsRowInto changes.refresh.purgedRels g.rows id) (k : Nat) :
    Opened id (((rewriteStatements g changes accepts).take k).foldl NodeGraph.exec
      ((reopenStatements g changes.refresh).foldl NodeGraph.exec g)) := by
  refine Run.forall_take ?_ (fun w hw s hs => hs.exec (not_concerns_middle hout hw)) k
  exact opened_of_reopen hstate ((mem_reopenedSites_iff hout).mpr hheld)

theorem opened_at_relink (hout : Outside changes.refresh.leaving id)
    (hstate : g.sites.stateOf id = some state)
    (hheld : HoldsRowInto changes.refresh.purgedRels g.rows id) :
    Opened id ((statementsToRelink g changes accepts).foldl NodeGraph.exec g) := by
  rw [statementsToRelink, List.foldl_append,
    ← List.take_length (l := rewriteStatements g changes accepts)]
  exact opened_to_relink hout hstate hheld _

/-- A site that held a row into a purged file is marked resolved nowhere without a row. -/
theorem holdsRow_of_markedResolved (hout : Outside changes.refresh.leaving id)
    (hstate : g.sites.stateOf id = some state)
    (hheld : HoldsRowInto changes.refresh.purgedRels g.rows id) (k : Nat)
    (hmarked : MarkedResolved (stoppedAfter k g changes accepts) id) :
    HoldsRow (stoppedAfter k g changes accepts).rows id := by
  revert hmarked
  rw [stoppedAfter, applyStatements]
  refine Run.forall_take_append
    (P := fun s : NodeGraph => MarkedResolved s id → HoldsRow s.rows id) ?_ ?_ k
  · refine Run.forall_take_append
      (P := fun s : NodeGraph => MarkedResolved s id → HoldsRow s.rows id) ?_ ?_
    · intro k _
      rw [rows_of_reopen]
      obtain ⟨row, hrow, hid, -⟩ := hheld
      exact ⟨row, hrow, hid⟩
    · intro k hmarked
      exact absurd hmarked (opened_to_relink hout hstate hheld k).not_markedResolved
  · intro k hmarked
    rw [rows_of_restore]
    by_contra hrow
    exact (opened_of_restore (opened_at_relink hout hstate hheld) hrow k).not_markedResolved hmarked

/-- After a completed pass it is marked resolved exactly when it holds a row. -/
theorem markedResolved_completed_iff (hout : Outside changes.refresh.leaving id)
    (hstate : g.sites.stateOf id = some state)
    (hheld : HoldsRowInto changes.refresh.purgedRels g.rows id) :
    MarkedResolved (completed g changes accepts) id ↔
      HoldsRow (completed g changes accepts).rows id := by
  constructor
  · intro hmarked
    have hend : stoppedAfter (applyStatements g changes accepts).length g changes accepts =
        completed g changes accepts := by
      rw [stoppedAfter, List.take_length, completed]
    rw [← hend] at hmarked ⊢
    exact holdsRow_of_markedResolved hout hstate hheld _ hmarked
  · intro hrow
    rw [completed, applyStatements, List.foldl_append] at hrow ⊢
    rw [← List.take_length (l := restoreStatements _ _), rows_of_restore] at hrow
    exact markedResolved_of_restore (opened_at_relink hout hstate hheld) hrow
      (mem_sorted.mpr ((mem_reopenedSites_iff hout).mpr hheld))

/-- No statement is about a site without a row into a purged file. -/
theorem not_concerns_of_not_held (hout : Outside changes.refresh.leaving id)
    (hheld : ¬ HoldsRowInto changes.refresh.purgedRels g.rows id) {w : Statement}
    (hw : w ∈ applyStatements g changes accepts) : ¬ w.Concerns id := by
  have hnot : id ∉ sorted (reopenedSites g.toSiteGraph changes.refresh) := fun hmem =>
    hheld ((mem_reopenedSites_iff hout).mp (mem_sorted.mp hmem))
  obtain hw | hw := List.mem_append.mp hw
  · obtain hw | hw := List.mem_append.mp hw
    · obtain ⟨chunk, hchunk, rfl | rfl⟩ := mem_reopenStatements hw
      · exact fun hmem => hnot (exists_mem_chunks.mp ⟨chunk, hchunk, hmem⟩)
      · exact fun hmem => hnot (exists_mem_chunks.mp ⟨chunk, hchunk, hmem⟩)
    · exact not_concerns_middle hout hw
  · obtain ⟨chunk, hchunk, rfl⟩ := mem_restoreStatements hw
    exact fun hmem => hnot (mem_sitesWithEdge.mp (exists_mem_chunks.mp ⟨chunk, hchunk, hmem⟩)).2

/-- For a site outside the files of the change: if it held a row into a purged file, then
wherever the pass stops it is marked resolved only with a row, and after a completed pass exactly
with one; if it held none, its state is the same wherever the pass stops. -/
theorem flags_of_refresh (hstate : g.sites.stateOf id = some state)
    (hout : Outside changes.refresh.leaving id) :
    (HoldsRowInto changes.refresh.purgedRels g.rows id →
      (∀ k, MarkedResolved (stoppedAfter k g changes accepts) id →
        HoldsRow (stoppedAfter k g changes accepts).rows id) ∧
      (MarkedResolved (completed g changes accepts) id ↔
        HoldsRow (completed g changes accepts).rows id)) ∧
    (¬ HoldsRowInto changes.refresh.purgedRels g.rows id →
      ∀ k, (stoppedAfter k g changes accepts).sites.stateOf id = some state) := by
  constructor
  · intro hheld
    exact ⟨holdsRow_of_markedResolved hout hstate hheld,
      markedResolved_completed_iff hout hstate hheld⟩
  · intro hheld k
    refine Run.forall_take (P := fun s : NodeGraph => s.sites.stateOf id = some state) hstate
      (fun w hw s hs => ?_) k
    rw [stateOf_exec (not_concerns_of_not_held hout hheld hw), hs]

end Outside

/-! ### A changed target -/

/-- A call that is resolved into another file. -/
def callerGraph : NodeGraph where
  sites := ⟨[⟨"b.rs::f::call@2:5".toList, "helper".toList, "rust".toList, ⟨some true, [], []⟩⟩],
    List.nodup_singleton _⟩
  rows := [⟨"b.rs::f::call@2:5".toList, "Function".toList, "a.rs::helper".toList, []⟩]
  rowsForm := some callsiteRowsForm
  reasonForm := some callsiteReasonForm
  nodes := [("Function".toList, "a.rs::helper".toList), ("Function".toList, "b.rs::f".toList)]

/-- That file is changed and holds the target still. -/
def targetChanged : ChangeSet where
  changed :=
    [{ rel := "a.rs".toList
       inserts := [.ofNodes [("Function".toList, "a.rs::helper".toList)]]
       sites_under := by decide +kernel
       nodes_under := by decide +kernel }]
  added := []
  deleted := []
  renamed := []

theorem flags_of_targetChanged :
    (∀ k, MarkedResolved (stoppedAfter k callerGraph targetChanged fun _ => true)
        "b.rs::f::call@2:5".toList →
      HoldsRow (stoppedAfter k callerGraph targetChanged fun _ => true).rows
        "b.rs::f::call@2:5".toList) ∧
    (MarkedResolved (completed callerGraph targetChanged fun _ => true)
        "b.rs::f::call@2:5".toList ↔
      HoldsRow (completed callerGraph targetChanged fun _ => true).rows
        "b.rs::f::call@2:5".toList) := by
  have hstate : callerGraph.sites.stateOf "b.rs::f::call@2:5".toList =
      some ⟨some true, [], []⟩ := by
    decide +kernel
  have hout : Outside targetChanged.refresh.leaving "b.rs::f::call@2:5".toList := by
    rw [Outside]
    decide +kernel
  refine (flags_of_refresh hstate hout).1 ⟨_, List.mem_singleton_self _, rfl, ?_⟩
  decide +kernel

end AutomatisedPipeline.Resolver
