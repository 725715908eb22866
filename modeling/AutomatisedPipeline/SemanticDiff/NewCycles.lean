import AutomatisedPipeline.SemanticDiff.Cycles

/-!
The new cycles of a diff (`new_cycles` of `semantic_diff.rs`).

A cycle is compared by its text, and the text of a cycle is also the name of a node or the
text of another cycle when names hold commas; a node with a loop inside a bigger component
is reported by its name although it is no cycle of its own. `KeysTell` is what the texts
must tell for the report to be that of the new cycles, and `reportsNewCycles_iff` says that
nothing else is needed.
-/

namespace AutomatisedPipeline.SemanticDiff

open Text

/-- A cycle of the snapshot after that is none of the snapshot before. -/
def IsNew (before after : Snapshot) (members : Finset Str) : Prop :=
  after.IsCycle members ∧ ¬before.IsCycle members

/-- The report has the text of each new cycle, once, and no other text. -/
def ReportsNewCycles (before after : Snapshot) : Prop :=
  ∃ cycles : List (Finset Str), cycles.Nodup ∧
    (∀ members, members ∈ cycles ↔ IsNew before after members) ∧
      (newCycles before after).Perm (cycles.map cycleKey)

/-- What the texts must tell apart. -/
structure KeysTell (before after : Snapshot) : Prop where
  /-- Two new cycles have different texts. -/
  new_new : ∀ members members', IsNew before after members → IsNew before after members' →
    cycleKey members = cycleKey members' → members = members'
  /-- A new cycle has not the text of an old one. -/
  new_old : ∀ members members', IsNew before after members → before.IsCycle members' →
    cycleKey members ≠ cycleKey members'
  /-- The text of a new cycle is not the name of an old node with a loop inside a bigger
  component. -/
  new_loop : ∀ members x, IsNew before after members → before.InnerLoop x → cycleKey members ≠ x
  /-- The name of a node with a loop inside a bigger component was reported before, or is the
  text of a new cycle. -/
  loop : ∀ x, after.InnerLoop x → (∃ members, before.IsCycle members ∧ cycleKey members = x) ∨
    before.InnerLoop x ∨ ∃ members, IsNew before after members ∧ cycleKey members = x

/-! ### Texts of cycles -/

theorem cycleKey_singleton (x : Str) : cycleKey {x} = x := by
  rw [cycleKey, Finset.sort_singleton]
  simp [joinNames, List.intercalate]

/-- The text of two names or more has a comma. -/
theorem comma_mem_cycleKey {members : Finset Str} (h : 2 ≤ members.card) :
    ',' ∈ cycleKey members := by
  have hlength : 2 ≤ (members.sort (· ≤ ·)).length := by rwa [Finset.length_sort]
  rw [cycleKey, joinNames]
  cases hnames : members.sort (· ≤ ·) with
  | nil => simp [hnames] at hlength
  | cons x names =>
      cases names with
      | nil => simp [hnames] at hlength
      | cons y rest => simp [List.intercalate, List.intersperse]

/-- Every node is in a component. -/
theorem exists_component {g : Snapshot} {x : Str} (h : g.Named x) :
    ∃ members, g.IsComponent members ∧ x ∈ members := by
  obtain ⟨i, rfl⟩ := (named_iff g).mp h
  obtain ⟨nodes, hnodes, hi⟩ := exists_scc g i
  exact ⟨_, (isComponent_iff g).mpr ⟨nodes, hnodes, rfl⟩, hi⟩

/-- What is reported of a snapshot: the texts of its cycles, and the names of the nodes with
a loop inside a bigger component. -/
theorem mem_cycles {g : Snapshot} {k : Str} : k ∈ stronglyConnectedCycles g ↔
    (∃ members, g.IsCycle members ∧ cycleKey members = k) ∨ g.InnerLoop k := by
  rw [mem_stronglyConnectedCycles]
  constructor
  · rintro (⟨members, hcomponent, hcard, hkey⟩ | hloop)
    · exact .inl ⟨members, ⟨hcomponent, .inl hcard⟩, hkey⟩
    · obtain ⟨members, hcomponent, hmem⟩ := exists_component hloop.1
      by_cases hcard : 2 ≤ members.card
      · exact .inr ⟨hloop, members, hcomponent, hmem, hcard⟩
      · have hone : members = {k} := by
          refine Finset.eq_singleton_iff_unique_mem.mpr ⟨hmem, fun y hy => ?_⟩
          exact Finset.card_le_one.mp (by omega) y hy k hmem
        exact .inl ⟨members, ⟨hcomponent, .inr ⟨k, hone, hloop⟩⟩, by rw [hone, cycleKey_singleton]⟩
  · rintro (⟨members, ⟨hcomponent, hcard | ⟨x, rfl, hloop⟩⟩, rfl⟩ | hinner)
    · exact .inl ⟨members, hcomponent, hcard, rfl⟩
    · rw [cycleKey_singleton]
      exact .inr hloop
    · exact .inr hinner.1

section Report

variable {before after : Snapshot}

theorem mem_newCycles {k : Str} : k ∈ newCycles before after ↔
    k ∈ stronglyConnectedCycles after ∧ k ∉ stronglyConnectedCycles before := by
  rw [newCycles, diffCycleSets, List.mem_filter, decide_eq_true_eq]

theorem nodup_newCycles : (newCycles before after).Nodup :=
  (nodup_stronglyConnectedCycles after).filter _

/-- Where the texts tell enough, the report has exactly the texts of the new cycles. -/
theorem mem_newCycles_of_keysTell (h : KeysTell before after) {k : Str} :
    k ∈ newCycles before after ↔ ∃ members, IsNew before after members ∧ cycleKey members = k := by
  rw [mem_newCycles, mem_cycles, mem_cycles]
  constructor
  · rintro ⟨⟨members, hcycle, rfl⟩ | hinner, hold⟩
    · exact ⟨members, ⟨hcycle, fun hbefore => hold (.inl ⟨members, hbefore, rfl⟩)⟩, rfl⟩
    · rcases h.loop k hinner with hreported | hreported | hnew
      · exact absurd (.inl hreported) hold
      · exact absurd (.inr hreported) hold
      · exact hnew
  · rintro ⟨members, hnew, rfl⟩
    refine ⟨.inl ⟨members, hnew.1, rfl⟩, ?_⟩
    rintro (⟨members', hbefore, hkey⟩ | hinner)
    · exact h.new_old members members' hnew hbefore hkey.symm
    · exact h.new_loop members _ hnew hinner rfl

theorem reports_of_keysTell (h : KeysTell before after) : ReportsNewCycles before after := by
  classical
  have hmem := fun k => @mem_newCycles_of_keysTell _ _ h k
  choose! cycleOf hcycleOf using fun k (hk : k ∈ newCycles before after) => (hmem k).mp hk
  have hkeys : ((newCycles before after).map cycleOf).map cycleKey = newCycles before after := by
    rw [List.map_map]
    exact List.map_congr_left (fun k hk => (hcycleOf k hk).2) |>.trans (List.map_id _)
  refine ⟨(newCycles before after).map cycleOf, ?_, fun members => ?_, ?_⟩
  · refine List.Nodup.of_map cycleKey ?_
    rw [hkeys]
    exact nodup_newCycles
  · rw [List.mem_map]
    constructor
    · rintro ⟨k, hk, rfl⟩
      exact (hcycleOf k hk).1
    · intro hnew
      have hk := (hmem (cycleKey members)).mpr ⟨members, hnew, rfl⟩
      obtain ⟨hnew', hkey⟩ := hcycleOf _ hk
      exact ⟨_, hk, h.new_new _ _ hnew' hnew hkey⟩
  · rw [hkeys]

theorem keysTell_of_reports (h : ReportsNewCycles before after) : KeysTell before after := by
  obtain ⟨cycles, -, hcycles, hperm⟩ := h
  have hnodup : (cycles.map cycleKey).Nodup := hperm.nodup_iff.mp nodup_newCycles
  have hmem : ∀ k, k ∈ newCycles before after ↔
      ∃ members, IsNew before after members ∧ cycleKey members = k := by
    intro k
    rw [hperm.mem_iff, List.mem_map]
    simp only [hcycles]
  have hnew : ∀ members, IsNew before after members →
      ¬((∃ members', before.IsCycle members' ∧ cycleKey members' = cycleKey members) ∨
        before.InnerLoop (cycleKey members)) := by
    intro members hnew
    rw [← mem_cycles]
    exact (mem_newCycles.mp ((hmem _).mpr ⟨members, hnew, rfl⟩)).2
  constructor
  · intro members members' hm hm' hkey
    exact List.inj_on_of_nodup_map hnodup ((hcycles _).mpr hm) ((hcycles _).mpr hm') hkey
  · exact fun members members' hm hbefore hkey => hnew members hm (.inl ⟨members', hbefore, hkey.symm⟩)
  · rintro members _ hm hinner rfl
    exact hnew members hm (.inr hinner)
  · intro x hinner
    by_cases hold : x ∈ stronglyConnectedCycles before
    · rcases mem_cycles.mp hold with hreported | hreported
      · exact .inl hreported
      · exact .inr (.inl hreported)
    · exact .inr (.inr ((hmem x).mp (mem_newCycles.mpr ⟨mem_cycles.mpr (.inr hinner), hold⟩)))

end Report

/-- The diff reports exactly the new cycles if and only if their texts tell them apart. -/
theorem reportsNewCycles_iff (before after : Snapshot) :
    ReportsNewCycles before after ↔ KeysTell before after :=
  ⟨keysTell_of_reports, reports_of_keysTell⟩

/-- Two functions that call nothing. -/
def quiet : Snapshot where
  nodes := [("Function".toList, [['a'], ['b']])]
  edges := []

/-- The two functions call each other, and one of them itself. -/
def calling : Snapshot where
  nodes := [("Function".toList, [['a'], ['b']])]
  edges := [(['a'], "Calls".toList, ['b']), (['b'], "Calls".toList, ['a']),
    (['a'], "Calls".toList, ['a'])]

theorem quiet_not_links (x y : Str) : ¬quiet.Links x y := by
  rintro ⟨-, -, kind, hedge⟩
  cases hedge

theorem quiet_not_isCycle (members : Finset Str) : ¬quiet.IsCycle members := by
  rintro ⟨⟨x, -, hx⟩, hcard | ⟨y, -, hloop⟩⟩
  · obtain ⟨y, hy, z, hz, hne⟩ := Finset.one_lt_card.mp hcard
    have honly : ∀ y, quiet.Reaches x y → y = x := by
      intro y h
      rcases Relation.ReflTransGen.cases_tail h with heq | ⟨z, -, hlink⟩
      · exact heq
      · exact absurd hlink (quiet_not_links z y)
    exact hne ((honly y ((hx y).mp hy).1).trans (honly z ((hx z).mp hz).1).symm)
  · exact quiet_not_links y y hloop

theorem calling_named : calling.Named ['a'] ∧ calling.Named ['b'] :=
  ⟨⟨_, List.mem_singleton_self _, by decide⟩, ⟨_, List.mem_singleton_self _, by decide⟩⟩

/-- The two functions are in one component. -/
theorem calling_component {members : Finset Str} (h : calling.IsComponent members)
    (ha : ['a'] ∈ members) : ['b'] ∈ members := by
  obtain ⟨hnamedA, hnamedB⟩ := calling_named
  have hab : calling.Links ['a'] ['b'] := ⟨hnamedA, hnamedB, "Calls".toList, by decide⟩
  have hba : calling.Links ['b'] ['a'] := ⟨hnamedB, hnamedA, "Calls".toList, by decide⟩
  obtain ⟨x, -, hx⟩ := h
  obtain ⟨hto, hback⟩ := (hx _).mp ha
  exact (hx _).mpr ⟨hto.tail hab, .head hba hback⟩

/-- The report has the name of the function that calls itself beside the new cycle of the
two. -/
theorem inner_loop_is_reported : ¬ReportsNewCycles quiet calling := by
  intro h
  have htell := keysTell_of_reports h
  obtain ⟨members, hcomponent, ha⟩ := exists_component calling_named.1
  have hb := calling_component hcomponent ha
  have hinner : calling.InnerLoop ['a'] :=
    ⟨⟨calling_named.1, calling_named.1, "Calls".toList, by decide⟩, members, hcomponent, ha,
      Finset.one_lt_card.mpr ⟨['a'], ha, ['b'], hb, by decide⟩⟩
  rcases htell.loop ['a'] hinner with ⟨members, hold, -⟩ | hold | ⟨members, hnew, hkey⟩
  · exact quiet_not_isCycle members hold
  · exact quiet_not_links _ _ hold.1
  · rcases hnew.1.2 with hcard | ⟨x, rfl, -⟩
    · have hcomma := comma_mem_cycleKey hcard
      rw [hkey] at hcomma
      exact absurd hcomma (by decide)
    · rw [cycleKey_singleton] at hkey
      have hmem := calling_component hnew.1.1 (Finset.mem_singleton.mpr hkey.symm)
      rw [hkey] at hmem
      exact absurd (Finset.mem_singleton.mp hmem) (by decide)

end AutomatisedPipeline.SemanticDiff
