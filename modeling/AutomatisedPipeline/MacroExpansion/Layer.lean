import AutomatisedPipeline.Logic.FirstMatch
import AutomatisedPipeline.MacroExpansion.Site

/-!
The macro layer of a resolution (`resolver_layers.rs`, `graph_store/macro_reset.rs`).

A run takes back what the layer wrote before and decides every macro site again, so what it leaves
is a function of the sites and of the rows that are not its own: earlier runs leave no trace, and a
second run changes nothing (`expandMacros_of_sameSource`). Each site is one unit of the tallies, and
its state, its rows and the tallies say the same (`macro_sites_accounted`).
-/

namespace AutomatisedPipeline.MacroExpansion

open Text
open Resolver (CallSite CallSiteTable Reason SiteState SymbolLabel confidenceFor)

/-! ### The layer -/

/-- The part of a graph that the layer reads and writes: the call sites, the ids of the stdlib
symbols and the rows that end at one. -/
structure LayerGraph where
  sites : CallSiteTable
  symbols : List Str
  rows : List StdRow
  nodup : symbols.Nodup
  target_mem : ∀ row ∈ rows, row.target ∈ symbols

/-- `reset_macro_expansion`. A symbol goes with the last row that ends at it. -/
def resetMacroExpansion (g : LayerGraph) : LayerGraph where
  sites := g.sites.mapState fun site =>
    if site.isMacro then { site.state with isResolved := some false } else site.state
  symbols := g.symbols.filter fun id => g.rows.any fun row => !row.isMacro && row.target = id
  rows := g.rows.filter fun row => !row.isMacro
  nodup := g.nodup.filter _
  target_mem := by
    intro row hrow
    obtain ⟨hmem, hkept⟩ := List.mem_filter.mp hrow
    refine List.mem_filter.mpr ⟨g.target_mem row hmem, List.any_eq_true.mpr ⟨row, hmem, ?_⟩⟩
    simpa using hkept

/-- `ensure_stdlib_symbol`: a second `CREATE` of an id is refused. -/
def ensureStdlibSymbol (symbols : List Str) (canonical : Str) : List Str :=
  if canonical ∈ symbols then symbols else symbols ++ [canonical]

/-- `EdgeBuffer::add`. -/
def stage (persisted : List (StdTable × Str × Str)) (staged : List StdRow) (row : StdRow) :
    List StdRow :=
  if row.key ∈ persisted then staged
  else if row.key ∈ staged.map StdRow.key then staged
  else staged ++ [row]

/-- The node where a row starts is there. -/
def hasSource (ctx : MacroContext) (sites : CallSiteTable) (row : StdRow) : Bool :=
  match row.table with
  | .calls label | .implements label => ctx.hasNode label row.source
  | .siteCalls => row.source ∈ sites.rows.map CallSite.id

theorem nodup_ensureStdlibSymbol {symbols : List Str} (h : symbols.Nodup) (canonical : Str) :
    (ensureStdlibSymbol symbols canonical).Nodup := by
  rw [ensureStdlibSymbol]
  split
  · exact h
  · rename_i hnew
    exact h.append (List.nodup_singleton _) (by simpa using hnew)

theorem mem_foldl_ensure {created symbols : List Str} {s : Str} :
    s ∈ created.foldl ensureStdlibSymbol symbols ↔ s ∈ symbols ∨ s ∈ created := by
  induction created generalizing symbols with
  | nil => simp
  | cons canonical created ih =>
      rw [List.foldl_cons, ih, List.mem_cons, ← or_assoc]
      refine or_congr_left ?_
      rw [ensureStdlibSymbol]
      split
      · rename_i hold
        exact ⟨.inl, fun h => h.elim id fun heq => heq ▸ hold⟩
      · rw [List.mem_append, List.mem_singleton]

theorem nodup_foldl_ensure {symbols : List Str} (h : symbols.Nodup) (created : List Str) :
    (created.foldl ensureStdlibSymbol symbols).Nodup :=
  List.foldlRecOn created _ h fun _ hacc canonical _ => nodup_ensureStdlibSymbol hacc canonical

/-- `run_macro_expansion` between `load_existing_edges` and `flush`: the graph behind it, and what
the sites come to together. No lookup reads the buffer, so the sites are decided first. -/
def runMacroExpansion (ctx : MacroContext) (g : LayerGraph) : LayerGraph × Outcome :=
  let outcome := ((g.sites.rows.filter CallSite.isMacro).map (outcomeOf ctx)).foldl
    Outcome.append .empty
  let symbols := outcome.created.foldl ensureStdlibSymbol g.symbols
  let staged := outcome.rows.foldl (stage (g.rows.map StdRow.key)) []
  let after : LayerGraph :=
    { sites := Resolver.recordOutcomes g.sites CallSite.isMacro (reasonOf ctx)
      symbols := symbols
      rows := g.rows ++ staged.filter fun row => hasSource ctx g.sites row && row.target ∈ symbols
      nodup := nodup_foldl_ensure g.nodup _
      target_mem := by
        intro row hrow
        rcases List.mem_append.mp hrow with hold | hnew
        · exact mem_foldl_ensure.mpr (.inl (g.target_mem row hold))
        · have htarget := (Bool.and_eq_true_iff.mp (List.mem_filter.mp hnew).2).2
          exact of_decide_eq_true htarget }
  (after, outcome)

/-- The layer's part of `resolve_graph`. The phases before it write no macro site and no row that
ends at a stdlib symbol. -/
def expandMacros (ctx : MacroContext) (g : LayerGraph) : LayerGraph × Outcome :=
  runMacroExpansion ctx (resetMacroExpansion g)

/-! ### The sites that are left -/

section Sites

variable {ctx : MacroContext} {table : CallSiteTable}

/-- The reasons of some rows, written over what another write left. -/
theorem writeCallsiteReasons_mapState (outcome : CallSite → Option (Reason × Str))
    {l : List CallSite} (hl : l.Sublist table.rows) (f : CallSite → SiteState) :
    (table.mapState f).writeCallsiteReasons
        (l.filterMap fun s => (outcome s).map fun why => (s.id, why)) =
      table.mapState fun s =>
        match (if s ∈ l then outcome s else none) with
        | some why => SiteState.giveReason why.1 why.2 (f s)
        | none => f s := by
  induction l generalizing f with
  | nil => exact CallSiteTable.mapState_congr fun s _ => by simp
  | cons a l ih =>
      have hrest : l.Sublist table.rows := (List.sublist_cons_self a l).trans hl
      have hnew : a ∉ l := by
        have hnodup := (hl.map CallSite.id).nodup table.unique
        rw [List.map_cons, List.nodup_cons] at hnodup
        exact fun hmem => hnodup.1 (List.mem_map_of_mem hmem)
      have ha : a ∈ table.rows := hl.subset List.mem_cons_self
      rw [List.filterMap_cons]
      cases hwhy : outcome a with
      | none =>
          rw [Option.map_none, ih hrest]
          refine CallSiteTable.mapState_congr fun s _ => ?_
          by_cases hs : s = a
          · subst hs
            simp [hwhy]
          · simp [hs]
      | some why =>
          rw [Option.map_some, CallSiteTable.writeCallsiteReasons, List.foldl_cons,
            CallSiteTable.update_mapState]
          refine (ih hrest _).trans (CallSiteTable.mapState_congr fun s hs => ?_)
          by_cases heq : s = a
          · subst heq
            simp [hnew, hwhy]
          · have hid : s.id ≠ a.id := fun hid => heq (table.eq_of_id_eq hs ha hid)
            simp [heq, hid]

/-- What a pass of the resolver leaves of a site. -/
theorem recordOutcomes_eq (table : CallSiteTable) (reads : CallSite → Bool)
    (outcome : CallSite → Option (Reason × Str)) :
    Resolver.recordOutcomes table reads outcome = table.mapState fun s =>
      if reads s then
        match outcome s with
        | none => ⟨some true, [], []⟩
        | some why => SiteState.giveReason why.1 why.2 s.state
      else s.state := by
  rw [Resolver.recordOutcomes, CallSiteTable.markNodesResolved, CallSiteTable.clearCallsiteReasons,
    CallSiteTable.update_update, CallSiteTable.update]
  refine (writeCallsiteReasons_mapState outcome List.filter_sublist _).trans
    (CallSiteTable.mapState_congr fun s hs => ?_)
  simp only [table.id_mem_filter_iff hs, List.mem_filter, hs, true_and]
  cases reads s <;> cases outcome s <;> rfl

/-- The state in which the layer leaves a macro site. -/
def finalState (ctx : MacroContext) (site : CallSite) : SiteState :=
  match reasonOf ctx site with
  | none => ⟨some true, [], []⟩
  | some why => ⟨some false, why.1.text, why.2⟩

/-- The layer writes the state of the macro sites and of no other. -/
theorem sites_expandMacros (ctx : MacroContext) (g : LayerGraph) :
    (expandMacros ctx g).1.sites = g.sites.mapState fun site =>
      if site.isMacro then finalState ctx site else site.state := by
  have hsites : (expandMacros ctx g).1.sites =
      Resolver.recordOutcomes (resetMacroExpansion g).sites CallSite.isMacro (reasonOf ctx) := rfl
  rw [hsites, recordOutcomes_eq]
  apply Resolver.CallSiteTable.rows_injective
  simp only [resetMacroExpansion, CallSiteTable.mapState, List.map_map]
  refine List.map_congr_left fun s _ => ?_
  -- The callee and the language of a site decide whether it is a macro, and its outcome.
  have hrust (state : SiteState) : CallSite.isMacro { s with state } = s.isMacro := rfl
  have hreason (state : SiteState) : reasonOf ctx { s with state } = reasonOf ctx s := rfl
  simp only [Function.comp_apply, hrust, hreason, finalState]
  cases s.isMacro with
  | false => rfl
  | true => cases reasonOf ctx s <;> rfl

end Sites

/-! ### The rows that are left -/

section Rows

variable {ctx : MacroContext}

theorem stage_congr {persisted persisted' : List (StdTable × Str × Str)}
    (h : ∀ key, key ∈ persisted ↔ key ∈ persisted') : stage persisted = stage persisted' := by
  funext staged row
  rw [stage, stage, if_congr (h _) rfl rfl]

/-- What is staged: the first row of each key that the graph did not have. -/
theorem foldl_stage_eq (persisted : List (StdTable × Str × Str)) (offered : List StdRow) :
    offered.foldl (stage persisted) [] =
      KeepFirst.keepFirst StdRow.key (offered.filter fun row => row.key ∉ persisted) := by
  rw [KeepFirst.keepFirst, List.foldl_filter]
  congr 1
  funext staged row
  rw [stage, KeepFirst.stage]
  by_cases hold : row.key ∈ persisted <;> simp [hold]

theorem mem_offered_of_staged {persisted : List (StdTable × Str × Str)} {offered : List StdRow}
    {row : StdRow} (h : row ∈ offered.foldl (stage persisted) []) :
    row ∈ offered ∧ row.key ∉ persisted := by
  rw [foldl_stage_eq] at h
  have hmem := List.mem_filter.mp (KeepFirst.mem_of_mem_keepFirst h)
  exact ⟨hmem.1, of_decide_eq_true hmem.2⟩

/-- The key of a row that is offered is held: by a row of the graph, or by one that is staged. -/
theorem held_of_offered {persisted : List (StdTable × Str × Str)} {offered : List StdRow}
    {row : StdRow} (h : row ∈ offered) :
    row.key ∈ persisted ∨ row.key ∈ (offered.foldl (stage persisted) []).map StdRow.key := by
  by_cases hold : row.key ∈ persisted
  · exact .inl hold
  · rw [foldl_stage_eq, KeepFirst.mem_map_keepFirst]
    exact .inr (List.mem_map_of_mem (List.mem_filter.mpr ⟨h, decide_eq_true hold⟩))

/-- What the sites of a table come to together. -/
def outcomes (ctx : MacroContext) (table : CallSiteTable) : List Outcome :=
  (table.rows.filter CallSite.isMacro).map (outcomeOf ctx)

/-- Outcomes added up. -/
theorem foldl_append_spec (l : List Outcome) :
    l.foldl Outcome.append .empty =
      { created := l.flatMap Outcome.created
        rows := l.flatMap Outcome.rows
        resolved := (l.map Outcome.resolved).sum
        total := (l.map Outcome.total).sum
        unresolved := l.flatMap Outcome.unresolved
        noCall := (l.map Outcome.noCall).sum } := by
  induction l using List.reverseRecOn with
  | nil => rfl
  | append_singleton l o ih =>
      rw [List.foldl_append, ih]
      simp [Outcome.append]

/-- The outcome of a run. -/
theorem snd_expandMacros (ctx : MacroContext) (g : LayerGraph) :
    (expandMacros ctx g).2 = (outcomes ctx g.sites).foldl Outcome.append .empty := by
  have hreset : outcomes ctx (resetMacroExpansion g).sites = outcomes ctx g.sites := by
    simp only [outcomes, resetMacroExpansion, CallSiteTable.mapState, List.filter_map,
      List.map_map]
    rfl
  rw [← hreset]
  rfl

/-- The rows of a graph that the layer has not written. -/
def LayerGraph.kept (g : LayerGraph) : List StdRow := g.rows.filter fun row => !row.isMacro

/-- The rows that a run draws. -/
def LayerGraph.drawn (ctx : MacroContext) (g : LayerGraph) : List StdRow :=
  ((expandMacros ctx g).2.rows.foldl (stage (g.kept.map StdRow.key)) []).filter fun row =>
    hasSource ctx g.sites row && row.target ∈ (expandMacros ctx g).1.symbols

theorem hasSource_congr {sites sites' : CallSiteTable}
    (h : sites.rows.map CallSite.id = sites'.rows.map CallSite.id) (row : StdRow) :
    hasSource ctx sites row = hasSource ctx sites' row := by
  rw [hasSource, hasSource, h]

theorem ids_mapState (table : CallSiteTable) (f : CallSite → SiteState) :
    (table.mapState f).rows.map CallSite.id = table.rows.map CallSite.id := by
  rw [CallSiteTable.mapState, List.map_map]
  rfl

theorem rows_expandMacros (ctx : MacroContext) (g : LayerGraph) :
    (expandMacros ctx g).1.rows = g.kept ++ g.drawn ctx := by
  have hsource : hasSource ctx (resetMacroExpansion g).sites = hasSource ctx g.sites :=
    funext fun row => hasSource_congr (ids_mapState _ _) row
  rw [LayerGraph.drawn, ← hsource]
  rfl

/-- The symbols are those that a kept row ends at, and those that the sites asked for. -/
theorem mem_symbols_expandMacros {g : LayerGraph} {s : Str} :
    s ∈ (expandMacros ctx g).1.symbols ↔
      (∃ row ∈ g.kept, row.target = s) ∨ s ∈ (expandMacros ctx g).2.created := by
  have hsymbols : (expandMacros ctx g).1.symbols =
      (expandMacros ctx g).2.created.foldl ensureStdlibSymbol (resetMacroExpansion g).symbols := rfl
  rw [hsymbols, mem_foldl_ensure, resetMacroExpansion, List.mem_filter, List.any_eq_true]
  refine or_congr_left ⟨?_, ?_⟩
  · rintro ⟨-, row, hrow, hkept⟩
    rw [Bool.and_eq_true, decide_eq_true_iff] at hkept
    exact ⟨row, List.mem_filter.mpr ⟨hrow, hkept.1⟩, hkept.2⟩
  · rintro ⟨row, hrow, rfl⟩
    obtain ⟨hrow, hkept⟩ := List.mem_filter.mp hrow
    exact ⟨g.target_mem row hrow, row, hrow, by simpa using hkept⟩

theorem mem_rows_snd {g : LayerGraph} {row : StdRow} :
    row ∈ (expandMacros ctx g).2.rows ↔
      ∃ s ∈ g.sites.rows, s.isMacro = true ∧ row ∈ (outcomeOf ctx s).rows := by
  rw [snd_expandMacros, foldl_append_spec]
  simp only [outcomes, List.flatMap_map, List.mem_flatMap, List.mem_filter, and_assoc]

theorem mem_created_snd {g : LayerGraph} {s : CallSite} {symbol : Str} (hs : s ∈ g.sites.rows)
    (hrust : s.isMacro = true) (hsymbol : symbol ∈ (outcomeOf ctx s).created) :
    symbol ∈ (expandMacros ctx g).2.created := by
  rw [snd_expandMacros, foldl_append_spec, outcomes, List.mem_flatMap]
  exact ⟨_, List.mem_map_of_mem (List.mem_filter.mpr ⟨hs, hrust⟩), hsymbol⟩

theorem mem_outcome_of_drawn {g : LayerGraph} {row : StdRow} (h : row ∈ g.drawn ctx) :
    ∃ s ∈ g.sites.rows, s.isMacro = true ∧ row ∈ (outcomeOf ctx s).rows :=
  mem_rows_snd.mp (mem_offered_of_staged (List.mem_filter.mp h).1).1

theorem isMacro_of_mem_drawn {g : LayerGraph} {row : StdRow} (h : row ∈ g.drawn ctx) :
    row.isMacro = true := by
  obtain ⟨s, -, -, hrow⟩ := mem_outcome_of_drawn h
  exact (comes_outcomeOf ctx s).isMacro_of_mem hrow

end Rows

/-! ### The accounts of a run -/

section Accounts

variable {ctx : MacroContext} {g : LayerGraph}

theorem finalState_isOpen (ctx : MacroContext) (s : CallSite) :
    (finalState ctx s).isOpen = decide ((outcomeOf ctx s).resolved = 0) := by
  rw [finalState, reasonOf]
  by_cases hresolved : (outcomeOf ctx s).resolved > 0
  · rw [if_pos hresolved, decide_eq_false (by omega)]
    rfl
  · rw [if_neg hresolved, decide_eq_true (by omega)]
    rfl

theorem explained_finalState (ctx : MacroContext) (s : CallSite) :
    (finalState ctx s).Explained := by
  rw [finalState]
  cases reasonOf ctx s with
  | none => exact Resolver.SiteState.explained_of_resolved rfl
  | some why => exact Resolver.SiteState.explained_of_reason (rfl : _ = why.1.text)

/-- The macro sites behind a run. -/
theorem macros_expandMacros (ctx : MacroContext) (g : LayerGraph) :
    (expandMacros ctx g).1.sites.rows.filter CallSite.isMacro =
      (g.sites.rows.filter CallSite.isMacro).map fun s => { s with state := finalState ctx s } := by
  rw [sites_expandMacros, CallSiteTable.mapState, List.filter_map]
  refine List.map_congr_left fun s hs => ?_
  have hrust : s.isMacro = true := (List.mem_filter.mp hs).2
  rw [hrust]
  rfl

theorem sum_total_add_noCall (ctx : MacroContext) (l : List CallSite) :
    ((l.map (outcomeOf ctx)).map Outcome.total).sum +
      ((l.map (outcomeOf ctx)).map Outcome.noCall).sum = l.length := by
  induction l with
  | nil => rfl
  | cons s l ih =>
      have hs := (comes_outcomeOf ctx s).unit_eq
      simp only [List.map_cons, List.sum_cons, List.length_cons]
      omega

theorem sum_resolved_add_unresolved (ctx : MacroContext) (l : List CallSite) :
    ((l.map (outcomeOf ctx)).map Outcome.resolved).sum +
        ((l.map (outcomeOf ctx)).flatMap Outcome.unresolved).length =
      ((l.map (outcomeOf ctx)).map Outcome.total).sum := by
  induction l with
  | nil => rfl
  | cons s l ih =>
      have hs := (comes_outcomeOf ctx s).total_eq
      simp only [List.map_cons, List.sum_cons, List.flatMap_cons, List.length_append]
      omega

theorem sum_resolved_eq (ctx : MacroContext) (l : List CallSite) :
    ((l.map (outcomeOf ctx)).map Outcome.resolved).sum =
      (l.filter fun s => !(finalState ctx s).isOpen).length := by
  induction l with
  | nil => rfl
  | cons s l ih =>
      have htotal := (comes_outcomeOf ctx s).total_eq
      have hunit := (comes_outcomeOf ctx s).unit_eq
      simp only [List.map_cons, List.sum_cons, List.filter_cons, finalState_isOpen] at ih ⊢
      by_cases hopen : (outcomeOf ctx s).resolved = 0
      · simp only [hopen, decide_true, Bool.not_true, Bool.false_eq_true, if_false]
        omega
      · simp only [hopen, decide_false, Bool.not_false, if_true, List.length_cons]
        omega

/-- A row that a site offers is held behind the run, if the node where it starts is there. -/
theorem held_of_outcome {s : CallSite} {row : StdRow} (hs : s ∈ g.sites.rows)
    (hrust : s.isMacro = true) (hrow : row ∈ (outcomeOf ctx s).rows)
    (hsource : hasSource ctx g.sites row = true) :
    row.key ∈ (expandMacros ctx g).1.rows.map StdRow.key := by
  rw [rows_expandMacros, List.map_append, List.mem_append]
  refine (held_of_offered (mem_rows_snd.mpr ⟨s, hs, hrust, hrow⟩)).imp_right fun hstaged => ?_
  obtain ⟨staged, hmem, hkey⟩ := List.mem_map.mp hstaged
  obtain ⟨table, source, target, confidence, method⟩ := row
  obtain ⟨table', source', target', confidence', method'⟩ := staged
  obtain ⟨rfl, rfl, rfl⟩ : table' = table ∧ source' = source ∧ target' = target := by
    simpa [StdRow.key] using hkey
  refine List.mem_map.mpr ⟨_, List.mem_filter.mpr ⟨hmem, ?_⟩, rfl⟩
  have htarget : target' ∈ (expandMacros ctx g).1.symbols :=
    mem_symbols_expandMacros.mpr (.inr (mem_created_snd hs hrust
      ((comes_outcomeOf ctx s).target_mem_created hrow)))
  exact Bool.and_eq_true_iff.mpr ⟨hsource, decide_eq_true htarget⟩

/-- A macro row at the level of a site is the one that the site asked for. -/
theorem siteCalls_of_mem {s : CallSite} {row : StdRow} (hs : s ∈ g.sites.rows)
    (hrow : row ∈ (expandMacros ctx g).1.rows) (hrust : row.isMacro = true)
    (htable : row.table = .siteCalls) (hsource : row.source = s.id) :
    (outcomeOf ctx s).created = [row.target] ∧ (outcomeOf ctx s).resolved = 1 := by
  rw [rows_expandMacros, List.mem_append] at hrow
  rcases hrow with hkept | hdrawn
  · have hnot := (List.mem_filter.mp hkept).2
    rw [hrust] at hnot
    cases hnot
  · obtain ⟨t, ht, -, hoffered⟩ := mem_outcome_of_drawn hdrawn
    obtain ⟨hid, hspec⟩ := (comes_outcomeOf ctx t).eq_of_siteCalls hoffered htable
    obtain rfl : s = t := g.sites.eq_of_id_eq hs ht (hsource.symm.trans hid)
    exact hspec

/-- The symbol that a site is resolved to: a row from the site ends at it, one from the caller as
well if the caller is there, and every row of the layer from the site ends at it. -/
structure ResolvedTo (ctx : MacroContext) (g : LayerGraph) (site : MacroSite) (canonical : Str) :
    Prop where
  symbol : canonical ∈ g.symbols
  siteRow : (StdTable.siteCalls, site.csId, canonical) ∈ g.rows.map StdRow.key
  callerRow : ctx.hasNode (ctx.callerLabelOf site.callerQn) site.callerQn = true →
    (site.rel, site.callerQn, canonical) ∈ g.rows.map StdRow.key
  sole : ∀ row ∈ g.rows, row.isMacro = true → row.table = .siteCalls → row.source = site.csId →
    row.target = canonical

theorem resolvedTo_of_resolved {s : CallSite} (hs : s ∈ g.sites.rows) (hrust : s.isMacro = true)
    (hresolved : (outcomeOf ctx s).resolved ≠ 0) :
    ∃ canonical, ResolvedTo ctx (expandMacros ctx g).1 (macroSite ctx s.id) canonical := by
  generalize houtcome : outcomeOf ctx s = outcome at hresolved
  cases houtcome ▸ comes_outcomeOf ctx s with
  | missed => exact absurd rfl hresolved
  | noCall => exact absurd rfl hresolved
  | @staged canonical evidence hevidence =>
      refine ⟨canonical, ?_, ?_, fun hcaller => ?_, fun row hrow hrowMacro htable hsource => ?_⟩
      · refine mem_symbols_expandMacros.mpr (.inr (mem_created_snd hs hrust ?_))
        rw [houtcome]
        exact List.mem_singleton_self canonical
      · have hmem : (⟨.siteCalls, s.id, canonical, confidenceFor evidence,
            resolutionLabel evidence⟩ : StdRow) ∈ (outcomeOf ctx s).rows := by
          rw [houtcome]
          exact List.mem_cons_of_mem _ (List.mem_singleton_self _)
        exact held_of_outcome hs hrust hmem (decide_eq_true (List.mem_map_of_mem hs))
      · have hmem : (⟨(macroSite ctx s.id).rel, (macroSite ctx s.id).callerQn, canonical,
            confidenceFor evidence, resolutionLabel evidence⟩ : StdRow) ∈
              (outcomeOf ctx s).rows := by
          rw [houtcome]
          exact List.mem_cons_self
        exact held_of_outcome hs hrust hmem hcaller
      · have hone := (siteCalls_of_mem hs hrow hrowMacro htable hsource).1
        rw [houtcome] at hone
        exact (List.singleton_inj.mp hone).symm

/-- Every macro site is one unit of the tallies or a macro that calls nothing; behind the run it is
resolved, with the rows of its one symbol, or it has a reason and no row of the layer. -/
theorem macro_sites_accounted (ctx : MacroContext) (g : LayerGraph) :
    let after := (expandMacros ctx g).1
    let tally := (expandMacros ctx g).2
    let macros := after.sites.rows.filter CallSite.isMacro
    tally.total + tally.noCall = macros.length ∧
      tally.resolved + tally.unresolved.length = tally.total ∧
      tally.resolved = (macros.filter fun s => !s.state.isOpen).length ∧
      ∀ s ∈ macros,
        (s.state.isOpen = false →
          ∃ canonical, ResolvedTo ctx after (macroSite ctx s.id) canonical) ∧
        (s.state.isOpen = true → s.state.Explained ∧
          ∀ row ∈ after.rows, row.isMacro = true → row.table = .siteCalls →
            row.source ≠ s.id) := by
  intro after tally macros
  have hmacros : macros = _ := macros_expandMacros ctx g
  have htally : tally = _ := (snd_expandMacros ctx g).trans (foldl_append_spec _)
  rw [htally, hmacros]
  refine ⟨?_, sum_resolved_add_unresolved ctx _, ?_, ?_⟩
  · rw [List.length_map]
    exact sum_total_add_noCall ctx _
  · rw [List.filter_map, List.length_map]
    exact sum_resolved_eq ctx _
  · intro s' hs'
    obtain ⟨s, hs, rfl⟩ := List.mem_map.mp hs'
    obtain ⟨hs, hrust⟩ := List.mem_filter.mp hs
    dsimp only
    rw [finalState_isOpen]
    refine ⟨fun hresolved => ?_, fun hopen => ⟨explained_finalState ctx s, ?_⟩⟩
    · exact resolvedTo_of_resolved hs hrust (of_decide_eq_false hresolved)
    · intro row hrow hrowMacro htable hsource
      have hone := (siteCalls_of_mem hs hrow hrowMacro htable hsource).2
      have hzero := of_decide_eq_true hopen
      omega

end Accounts

/-! ### A function of the source -/

/-- Two graphs that differ at most in what the layer writes: the states of the macro sites, its own
rows, and stdlib symbols. -/
structure SameSource (g g' : LayerGraph) : Prop where
  sites : List.Forall₂ (fun s s' : CallSite =>
    CallSiteTable.SameSite s s' ∧ (s.isMacro = false → s.state = s'.state)) g.sites.rows
      g'.sites.rows
  rows : g.kept.Perm g'.kept

/-- Two graphs with the same call sites, symbols and rows. -/
structure Agree (g g' : LayerGraph) : Prop where
  sites : g.sites = g'.sites
  symbols : g.symbols.Perm g'.symbols
  rows : g.rows.Perm g'.rows

section Source

variable {ctx : MacroContext} {g g' : LayerGraph}

theorem outcomeOf_congr {s s' : CallSite} (h : CallSiteTable.SameSite s s') :
    outcomeOf ctx s = outcomeOf ctx s' := by
  rw [outcomeOf, outcomeOf, macroRow, macroRow, h.1, h.2.1]

theorem reasonOf_congr {s s' : CallSite} (h : CallSiteTable.SameSite s s') :
    reasonOf ctx s = reasonOf ctx s' := by
  rw [reasonOf, reasonOf, outcomeOf_congr h, h.1]

theorem SameSource.ids (h : SameSource g g') :
    g.sites.rows.map CallSite.id = g'.sites.rows.map CallSite.id := by
  rw [← List.forall₂_eq_eq_eq, List.forall₂_map_left_iff, List.forall₂_map_right_iff]
  exact h.sites.imp fun _ _ h => h.1.1

theorem SameSource.outcomes_eq (h : SameSource g g') :
    outcomes ctx g.sites = outcomes ctx g'.sites := by
  have main : ∀ {l l' : List CallSite}, List.Forall₂ (fun s s' : CallSite =>
      CallSiteTable.SameSite s s' ∧ (s.isMacro = false → s.state = s'.state)) l l' →
      (l.filter CallSite.isMacro).map (outcomeOf ctx) =
        (l'.filter CallSite.isMacro).map (outcomeOf ctx) := by
    intro l l' hsites
    induction hsites with
    | nil => rfl
    | @cons s s' l l' hsame _ ih =>
        rw [List.filter_cons, List.filter_cons, hsame.1.isMacro]
        split
        · rw [List.map_cons, List.map_cons, outcomeOf_congr hsame.1, ih]
        · exact ih
  exact main h.sites

theorem SameSource.snd_eq (h : SameSource g g') :
    (expandMacros ctx g).2 = (expandMacros ctx g').2 := by
  rw [snd_expandMacros, snd_expandMacros, h.outcomes_eq]

theorem SameSource.sites_eq (h : SameSource g g') :
    (expandMacros ctx g).1.sites = (expandMacros ctx g').1.sites := by
  rw [sites_expandMacros, sites_expandMacros]
  apply Resolver.CallSiteTable.rows_injective
  simp only [CallSiteTable.mapState]
  rw [← List.forall₂_eq_eq_eq, List.forall₂_map_left_iff, List.forall₂_map_right_iff]
  refine h.sites.imp fun s s' hsame => ?_
  obtain ⟨hsite, hstate⟩ := hsame
  have hfinal : finalState ctx s = finalState ctx s' := by
    rw [finalState, finalState, reasonOf_congr hsite]
  have hboth : (if s.isMacro then finalState ctx s else s.state) =
      if s'.isMacro then finalState ctx s' else s'.state := by
    rw [← hsite.isMacro, ← hfinal]
    cases hrust : s.isMacro with
    | false => exact hstate hrust
    | true => rfl
  obtain ⟨id, callee, language, state⟩ := s
  obtain ⟨id', callee', language', state'⟩ := s'
  obtain ⟨rfl, rfl, rfl⟩ := hsite
  exact congrArg (CallSite.mk id callee language) hboth

theorem SameSource.agree (h : SameSource g g') :
    Agree (expandMacros ctx g).1 (expandMacros ctx g').1 := by
  have hmem (s : Str) :
      s ∈ (expandMacros ctx g).1.symbols ↔ s ∈ (expandMacros ctx g').1.symbols := by
    rw [mem_symbols_expandMacros, mem_symbols_expandMacros, h.snd_eq]
    refine or_congr_left (exists_congr fun row => and_congr_left fun _ => h.rows.mem_iff)
  refine ⟨h.sites_eq, ?_, ?_⟩
  · exact (List.perm_ext_iff_of_nodup (expandMacros ctx g).1.nodup
      (expandMacros ctx g').1.nodup).mpr hmem
  · have hdrawn : g.drawn ctx = g'.drawn ctx := by
      rw [LayerGraph.drawn, LayerGraph.drawn, h.snd_eq,
        stage_congr fun key => (h.rows.map StdRow.key).mem_iff]
      refine List.filter_congr fun row _ => ?_
      rw [hasSource_congr h.ids, decide_eq_decide.mpr (hmem row.target)]
    rw [rows_expandMacros, rows_expandMacros, hdrawn]
    exact h.rows.append_right _

/-- A run writes nothing but the layer. -/
theorem SameSource.expandMacros (h : SameSource g g') :
    SameSource (MacroExpansion.expandMacros ctx g).1 g' where
  sites := by
    rw [sites_expandMacros, CallSiteTable.mapState, List.forall₂_map_left_iff]
    refine h.sites.imp fun s s' hsame => ⟨hsame.1, fun hrust => ?_⟩
    have hs : s.isMacro = false := hrust
    rw [hs]
    exact hsame.2 hs
  rows := by
    have hkept : g.kept.filter (fun row => !row.isMacro) = g.kept := by
      rw [LayerGraph.kept, List.filter_filter]
      simp only [Bool.and_self]
    have hdrawn : (g.drawn ctx).filter (fun row => !row.isMacro) = [] :=
      List.filter_eq_nil_iff.mpr fun row hrow => by simp [isMacro_of_mem_drawn hrow]
    rw [LayerGraph.kept, rows_expandMacros, List.filter_append, hkept, hdrawn, List.append_nil]
    exact h.rows

/-- Whatever runs came before, a run leaves what it leaves on the sites and the rows that are not
the layer's. -/
theorem expandMacros_of_sameSource (ctx : MacroContext) (earlier : List MacroContext)
    (h : SameSource g g') :
    let before := earlier.foldl (fun graph ctx => (expandMacros ctx graph).1) g
    Agree (expandMacros ctx before).1 (expandMacros ctx g').1 ∧
      (expandMacros ctx before).2 = (expandMacros ctx g').2 := by
  have hbefore : SameSource (earlier.foldl (fun graph ctx => (expandMacros ctx graph).1) g) g' := by
    induction earlier generalizing g with
    | nil => exact h
    | cons _ earlier ih => exact ih h.expandMacros
  exact ⟨hbefore.agree, hbefore.snd_eq⟩

/-- A file with one macro site. -/
def sampleSite (state : SiteState) : CallSite :=
  ⟨"a.rs::main::call@1".toList, "println!".toList, "rust".toList, state⟩

def sampleContext : MacroContext where
  callerLabelOf _ := .function
  isTypeDefinedInFile _ _ := false
  imports _ := []
  outsideTargets _ := false
  receiverHint _ := []
  argShape _ := []
  hasNode _ _ := true

/-- The graph of the file as it is parsed. -/
def parsedGraph : LayerGraph where
  sites := ⟨[sampleSite .fresh], by decide⟩
  symbols := []
  rows := []
  nodup := List.nodup_nil
  target_mem := by simp

/-- The graph of the file with a row of a rule that is gone. -/
def staleGraph : LayerGraph where
  sites := ⟨[sampleSite ⟨some true, [], []⟩], by decide⟩
  symbols := ["core::fmt::Arguments::new_v1".toList]
  rows := [⟨.siteCalls, "a.rs::main::call@1".toList, "core::fmt::Arguments::new_v1".toList, 95,
    "macro-expansion".toList⟩]
  nodup := List.nodup_singleton _
  target_mem := by simp

theorem expandMacros_of_sameSource_sample :
    let before := [sampleContext].foldl (fun graph ctx => (expandMacros ctx graph).1) staleGraph
    Agree (expandMacros sampleContext before).1 (expandMacros sampleContext parsedGraph).1 ∧
      (expandMacros sampleContext before).2 = (expandMacros sampleContext parsedGraph).2 :=
  expandMacros_of_sameSource sampleContext [sampleContext]
    ⟨.cons ⟨⟨rfl, rfl, rfl⟩, by decide⟩ .nil, .of_eq (by decide)⟩

end Source

end AutomatisedPipeline.MacroExpansion
