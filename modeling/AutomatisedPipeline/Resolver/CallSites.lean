import AutomatisedPipeline.Text.Basic

/-!
The `CallSite` rows of a graph and the writes on their resolution state
(`graph_store/callsite_reasons.rs`, `graph_store/writes.rs`).

A site is resolved, or it is open and a reason says why. Every write names the sites it
is about by their ids, the primary key of the table, and changes nothing but the three
columns of `SiteState`; `mem_update` is what the later proofs use of them. The columns
`unresolved_reason` and `unresolved_detail` read as empty where they were never set.
-/

namespace AutomatisedPipeline.Resolver

open Text

/-! ### The reasons -/

/-- The closed set of reasons: six by construction, five that name a gap of the
resolver. -/
inductive Reason where
  | outsideTargets
  | macroSite
  | notACall
  | cfgTwins
  | externalCallee
  | indirectCall
  | declinedByScope
  | ambiguous
  | noReceiverType
  | notFound
  | unknownCallee
deriving DecidableEq, Repr

/-- What is stored for a reason. -/
def Reason.text : Reason → Str
  | .outsideTargets => "outside_compiled_targets".toList
  | .macroSite => "macro_site".toList
  | .notACall => "not_a_call".toList
  | .cfgTwins => "cfg_twins".toList
  | .externalCallee => "external_callee".toList
  | .indirectCall => "indirect_call".toList
  | .declinedByScope => "declined_by_scope".toList
  | .ambiguous => "ambiguous_candidates".toList
  | .noReceiverType => "no_receiver_type".toList
  | .notFound => "not_found".toList
  | .unknownCallee => "unknown_callee".toList

theorem Reason.text_injective : Function.Injective Reason.text := by
  intro a b
  cases a <;> cases b <;> decide

/-- `IMPROVABLE`. -/
def improvable : List Reason :=
  [.declinedByScope, .ambiguous, .noReceiverType, .notFound, .unknownCallee]

/-! ### The table -/

/-- The columns a pass writes. -/
structure SiteState where
  isResolved : Option Bool
  reason : Str
  detail : Str
deriving DecidableEq, Repr

/-- A row of `CallSite`, with the columns the passes read. -/
structure CallSite where
  id : Str
  calleeName : Str
  language : Str
  state : SiteState
deriving DecidableEq, Repr

/-- `is_resolved IS NULL OR is_resolved = false`. -/
def SiteState.isOpen (state : SiteState) : Bool := state.isResolved ≠ some true

/-- The state of a row that was just parsed. -/
def SiteState.fresh : SiteState := ⟨some false, [], []⟩

/-- A resolved site has no reason and no detail. -/
def SiteState.Clean (state : SiteState) : Prop :=
  state.isResolved = some true → state.reason = [] ∧ state.detail = []

/-- An open site has exactly one reason of the closed set. -/
def SiteState.Explained (state : SiteState) : Prop :=
  state.isOpen = true → ∃! reason : Reason, state.reason = reason.text

/-- The statement of `write_callsite_reasons` for one site. -/
def SiteState.giveReason (reason : Reason) (detail : Str) (state : SiteState) : SiteState :=
  if state.isOpen then { state with reason := reason.text, detail } else state

/-- `is_rust_macro_site`. -/
def CallSite.isMacro (site : CallSite) : Bool :=
  site.language = "rust".toList && ['!'].isSuffixOf site.calleeName

/-- The table `CallSite`: `id` is its primary key. -/
structure CallSiteTable where
  rows : List CallSite
  unique : (rows.map CallSite.id).Nodup

namespace CallSiteTable

def empty : CallSiteTable := ⟨[], List.nodup_nil⟩

/-- Writes the state of every row. -/
def mapState (table : CallSiteTable) (f : CallSite → SiteState) : CallSiteTable where
  rows := table.rows.map fun site => { site with state := f site }
  unique := by
    rw [List.map_map]
    exact table.unique

/-- `UNWIND ids AS rid MATCH (n:CallSite {id: rid}) SET ..`. -/
def update (table : CallSiteTable) (ids : List Str) (f : SiteState → SiteState) :
    CallSiteTable :=
  table.mapState fun site => if site.id ∈ ids then f site.state else site.state

/-- Deletes the rows for which `p` holds. -/
def delete (table : CallSiteTable) (p : CallSite → Bool) : CallSiteTable where
  rows := table.rows.filter fun site => !p site
  unique := (List.filter_sublist.map CallSite.id).nodup table.unique

/-- Inserts a parsed row, unless its id is there. -/
def insert (table : CallSiteTable) (site : CallSite) : CallSiteTable :=
  if h : site.id ∈ table.rows.map CallSite.id then table
  else
    { rows := table.rows ++ [site]
      unique := by
        rw [List.map_append, List.map_singleton]
        exact table.unique.append (List.nodup_singleton _) (by simpa using h) }

/-! ### The writes -/

/-- `mark_nodes_resolved` on call sites. -/
def markNodesResolved (ids : List Str) (table : CallSiteTable) : CallSiteTable :=
  table.update ids fun state => { state with isResolved := some true }

/-- `mark_callsites_unresolved`. -/
def markCallsitesUnresolved (ids : List Str) (table : CallSiteTable) : CallSiteTable :=
  table.update ids fun state => { state with isResolved := some false }

/-- `clear_callsite_reasons`. -/
def clearCallsiteReasons (ids : List Str) (table : CallSiteTable) : CallSiteTable :=
  table.update ids fun state => { state with reason := [], detail := [] }

/-- `set_callsite_unresolved_reason`: it does not look at `is_resolved`. -/
def setCallsiteUnresolvedReason (ids : List Str) (reason : Str) (table : CallSiteTable) :
    CallSiteTable :=
  table.update ids fun state => { state with reason, detail := [] }

/-- `write_callsite_reasons`. -/
def writeCallsiteReasons (reasons : List (Str × Reason × Str)) (table : CallSiteTable) :
    CallSiteTable :=
  reasons.foldl (fun table row => table.update [row.1] (SiteState.giveReason row.2.1 row.2.2)) table

/-- `promote_callsite_reason_to_external`. -/
def promoteCallsiteReasonToExternal (ids : List Str) (detail : Str) (table : CallSiteTable) :
    CallSiteTable :=
  table.update ids fun state =>
    if state.isOpen && decide (state.reason ∈ improvable.map Reason.text) then
      { state with reason := Reason.externalCallee.text, detail }
    else state

end CallSiteTable

/-! ### The state of a row -/

namespace SiteState

theorem clean_fresh : fresh.Clean := by
  intro h
  cases h

theorem explained_of_reason {state : SiteState} {reason : Reason}
    (h : state.reason = reason.text) : state.Explained := by
  intro _
  exact ⟨reason, h, fun other hother => Reason.text_injective (hother.symm.trans h)⟩

theorem explained_of_resolved {state : SiteState} (h : state.isResolved = some true) :
    state.Explained := by
  intro hopen
  simp [isOpen, h] at hopen

theorem not_explained {state : SiteState} (hopen : state.isOpen = true)
    (hblank : state.reason = []) : ¬ state.Explained := by
  intro h
  obtain ⟨reason, hreason, -⟩ := h hopen
  rw [hblank] at hreason
  revert hreason
  cases reason <;> decide

@[simp] theorem isResolved_giveReason (reason : Reason) (detail : Str) (state : SiteState) :
    (giveReason reason detail state).isResolved = state.isResolved := by
  rw [giveReason]
  split <;> rfl

theorem Clean.giveReason {state : SiteState} (h : state.Clean) (reason : Reason) (detail : Str) :
    (SiteState.giveReason reason detail state).Clean := by
  rw [SiteState.giveReason]
  split
  · rename_i hopen
    intro hresolved
    simp only [isOpen, decide_eq_true_eq] at hopen
    exact absurd hresolved hopen
  · exact h

theorem explained_giveReason (reason : Reason) (detail : Str) (state : SiteState) :
    (giveReason reason detail state).Explained := by
  rw [giveReason]
  split
  · exact explained_of_reason rfl
  · rename_i hopen
    intro h
    exact absurd h hopen

end SiteState

/-! ### What the writes leave -/

namespace CallSiteTable

theorem mem_mapState {table : CallSiteTable} {f : CallSite → SiteState} {site : CallSite} :
    site ∈ (table.mapState f).rows ↔ ∃ s ∈ table.rows, { s with state := f s } = site := by
  simp [mapState]

theorem mapState_congr {table : CallSiteTable} {f g : CallSite → SiteState}
    (h : ∀ s ∈ table.rows, f s = g s) : table.mapState f = table.mapState g := by
  simp only [mapState, mk.injEq]
  exact List.map_congr_left fun s hs => by rw [h s hs]

/-- A write on what another write left. -/
theorem update_mapState (table : CallSiteTable) (f : CallSite → SiteState) (ids : List Str)
    (g : SiteState → SiteState) :
    (table.mapState f).update ids g =
      table.mapState fun s => if s.id ∈ ids then g (f s) else f s := by
  simp only [update, mapState, mk.injEq, List.map_map]
  rfl

theorem update_update (table : CallSiteTable) (ids : List Str) (f g : SiteState → SiteState) :
    (table.update ids f).update ids g = table.update ids fun state => g (f state) := by
  rw [show table.update ids f = table.mapState _ from rfl, update_mapState]
  refine mapState_congr fun s _ => ?_
  split <;> rfl

theorem mem_update {table : CallSiteTable} {ids : List Str} {f : SiteState → SiteState}
    {site : CallSite} :
    site ∈ (table.update ids f).rows ↔
      ∃ s ∈ table.rows,
        { s with state := if s.id ∈ ids then f s.state else s.state } = site := by
  rw [update, mem_mapState]

theorem mem_delete {table : CallSiteTable} {p : CallSite → Bool} {site : CallSite} :
    site ∈ (table.delete p).rows ↔ site ∈ table.rows ∧ p site = false := by
  simp [delete]

theorem mem_insert {table : CallSiteTable} {new site : CallSite} :
    site ∈ (table.insert new).rows ↔
      site ∈ table.rows ∨ (new.id ∉ table.rows.map CallSite.id ∧ site = new) := by
  rw [insert]
  split
  · rename_i h
    simp [h]
  · rename_i h
    simp [h]

/-- Rows are told apart by their ids. -/
theorem eq_of_id_eq (table : CallSiteTable) {s t : CallSite} (hs : s ∈ table.rows)
    (ht : t ∈ table.rows) (h : s.id = t.id) : s = t :=
  List.inj_on_of_nodup_map table.unique hs ht h

/-- The ids of the rows a test holds for, read at a row. -/
theorem id_mem_filter_iff (table : CallSiteTable) {p : CallSite → Bool} {s : CallSite}
    (hs : s ∈ table.rows) :
    s.id ∈ (table.rows.filter p).map CallSite.id ↔ p s = true := by
  rw [List.mem_map]
  constructor
  · rintro ⟨t, ht, hid⟩
    obtain ⟨htable, hp⟩ := List.mem_filter.mp ht
    rwa [table.eq_of_id_eq htable hs hid] at hp
  · intro hp
    exact ⟨s, List.mem_filter.mpr ⟨hs, hp⟩, rfl⟩

/-! ### Rows traced through the writes -/

/-- Two rows of one site, at two times. -/
def SameSite (s t : CallSite) : Prop :=
  s.id = t.id ∧ s.calleeName = t.calleeName ∧ s.language = t.language

theorem SameSite.isMacro {s t : CallSite} (h : SameSite s t) : s.isMacro = t.isMacro := by
  rw [CallSite.isMacro, CallSite.isMacro, h.2.1, h.2.2]

/-- What a write keeps, row by row. -/
theorem forall_update {P : CallSite → Prop} {table : CallSiteTable} {ids : List Str}
    {f : SiteState → SiteState} (hother : ∀ s ∈ table.rows, s.id ∉ ids → P s)
    (hthese : ∀ s ∈ table.rows, s.id ∈ ids → P { s with state := f s.state }) :
    ∀ s ∈ (table.update ids f).rows, P s := by
  intro s hs
  obtain ⟨t, ht, rfl⟩ := mem_update.mp hs
  by_cases hid : t.id ∈ ids
  · simpa [hid] using hthese t ht hid
  · simpa [hid] using hother t ht hid

/-- The reasons that are written explain their sites, and no site loses what it had. -/
theorem mem_writeCallsiteReasons {reasons : List (Str × Reason × Str)} {table : CallSiteTable}
    {s : CallSite} (hs : s ∈ (table.writeCallsiteReasons reasons).rows) :
    ∃ t ∈ table.rows, SameSite s t ∧ (t.state.Clean → s.state.Clean) ∧
      (t.id ∈ reasons.map Prod.fst ∨ t.state.Explained → s.state.Explained) := by
  induction reasons generalizing table with
  | nil => exact ⟨s, hs, ⟨rfl, rfl, rfl⟩, id, by simp⟩
  | cons row reasons ih =>
      obtain ⟨t, ht, hsame, hclean, hexplained⟩ := ih hs
      obtain ⟨u, hu, rfl⟩ := mem_update.mp ht
      refine ⟨u, hu, hsame, fun h => hclean ?_, fun h => hexplained ?_⟩
      · split
        · exact h.giveReason _ _
        · exact h
      · by_cases hid : u.id = row.1
        · right
          simp only [hid, List.mem_singleton, if_true]
          exact SiteState.explained_giveReason _ _ _
        · simpa [hid] using h

end CallSiteTable

end AutomatisedPipeline.Resolver
