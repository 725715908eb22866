import AutomatisedPipeline.Impact.GetImpact

/-!
Which open call sites of a target's name `get_impact` accounts for.

The name is read out of the text by which the target is asked for, so a sequence or line
suffix in an id stays in it. A site of that name is counted, or it is left out because its
spelling names another owner; the spelling is compared with the bare names of the types of
the whole repository, not read in the scope of the site. What a spelling can denote in its
scope is no part of the graph: it comes here as a parameter.
-/

namespace AutomatisedPipeline.Impact

open Text Cypher Store

/-! ### Graphs of earlier builds -/

/-- The columns that `get_impact` looks for before it reads them. -/
def optionalColumns (hasReason hasHint : Bool) : Table → List String
  | .code .callSite =>
      (if hasReason then [] else ["unresolved_reason"]) ++
        (if hasHint then [] else ["receiver_hint"])
  | _ => []

variable {hasReason hasHint : Bool}

/-- The schema of a graph with or without the two columns. -/
abbrev siteSchema (hasReason hasHint : Bool) : Cypher.Schema Table :=
  storedSchema (optionalColumns hasReason hasHint)

variable {g : Graph (siteSchema hasReason hasHint)}

theorem columns_siteSchema {table : Table} (h : table ≠ .code .callSite) :
    (siteSchema hasReason hasHint).columns table = ddlColumns table := by
  have hnone : optionalColumns hasReason hasHint table = [] := by
    cases table with
    | code label => cases label <;> first | rfl | exact absurd rfl h
    | graphMarker => rfl
  simp [siteSchema, storedSchema, hnone]

theorem mem_siteColumns (hasReason hasHint : Bool) :
    "is_resolved" ∈ (siteSchema hasReason hasHint).columns (.code .callSite) ∧
    "callee_name" ∈ (siteSchema hasReason hasHint).columns (.code .callSite) ∧
    "id" ∈ (siteSchema hasReason hasHint).columns (.code .callSite) ∧
    "language" ∈ (siteSchema hasReason hasHint).columns (.code .callSite) ∧
    ("unresolved_reason" ∈ (siteSchema hasReason hasHint).columns (.code .callSite) ↔
      hasReason = true) ∧
    ("receiver_hint" ∈ (siteSchema hasReason hasHint).columns (.code .callSite) ↔
      hasHint = true) := by
  cases hasReason <;> cases hasHint <;> decide +kernel

/-! ### What the source says of a site -/

/-- An unresolved call site whose callee ends in the segment. -/
def OpenNamed (name : Str) (s : Node (siteSchema hasReason hasHint)) : Prop :=
  s.label = .code .callSite ∧ s.props "is_resolved" = .flag false ∧
    ∃ callee, s.props "callee_name" = .text callee ∧ lastSegment callee = name

/-- Some node of the labels has the value in the column. -/
def SomeNode (g : Graph (siteSchema hasReason hasHint)) (label : NodeLabel) (column : String)
    (value : Str) : Prop :=
  ∃ n ∈ g.nodes, n.label = .code label ∧ n.props column = .text value

/-- The repository defines a struct or an enum of the name. -/
def RepoType (g : Graph (siteSchema hasReason hasHint)) (name : Str) : Prop :=
  SomeNode g .struct "name" name ∨ SomeNode g .enum "name" name

/-- The name is a type alias or the alias of an import, anywhere in the repository. -/
def Aliased (g : Graph (siteSchema hasReason hasHint)) (name : Str) : Prop :=
  SomeNode g .typeAlias "name" name ∨ SomeNode g .«import» "alias" name

/-- Some method of a trait with `Deref` in its name is written for a type of the name. -/
def Derefs (g : Graph (siteSchema hasReason hasHint)) (name : Str) : Prop :=
  ∃ m ∈ g.nodes, m.label = .code .method ∧
    (∃ text, m.props "trait_name" = .text text ∧ "Deref".toList <:+: text) ∧
    ∃ text, m.props "receiver_type" = .text text ∧ ("::".toList ++ name) <:+: text

/-- The text of a column of a site, as it is printed. -/
def siteText (s : Node (siteSchema hasReason hasHint)) (column : String) : Str :=
  (s.props column).asText

/-- The hint of a site; empty where the graph has none. -/
def siteHint (s : Node (siteSchema hasReason hasHint)) : Str :=
  if hasHint then siteText s "receiver_hint" else []

/-- The name of a type that is not the owner by its spelling: it is neither `Self` nor the
owner's bare name, and nothing in the repository is an alias of that name. -/
def OtherName (g : Graph (siteSchema hasReason hasHint)) (filter : OtherOwnerFilter)
    (name : Str) : Prop :=
  filter.isSelfOrOwner name = false ∧ ¬Aliased g name

/-- The spelling of a site names another owner. -/
def NamesOther (g : Graph (siteSchema hasReason hasHint)) (filter : OtherOwnerFilter)
    (s : Node (siteSchema hasReason hasHint)) : Prop :=
  siteText s "language" = rust ∧
    if '.' ∈ siteText s "callee_name" then
      ∃ name, hintTypeName (siteHint s) = some name ∧ OtherName g filter name ∧
        (RepoType g name ∧ ¬Derefs g name ∨ ¬RepoType g name ∧ name ∈ closedStdTypes)
    else
      ∃ name, calleeNamesType (siteText s "callee_name") = some name ∧ OtherName g filter name ∧
        (RepoType g name ∨ siteText s "unresolved_reason" = Resolver.Reason.externalCallee.text ∧
          (filter.traitName = none ∨ name ∈ closedStdTypes))

/-! ### What the filter leaves out -/

section Filter

variable {engine : Engine g}

theorem finds_iff (havail : engine.Available) {q : Query Table}
    (hbinds : q.Binds (siteSchema hasReason hasHint)) : engine.Finds q ↔ g.found q ≠ [] := by
  rw [Engine.Finds, havail]
  exact and_iff_right hbinds

/-- A query for one node that binds is answered. -/
theorem existsRow_eq_some (havail : engine.Available) {q : Query Table}
    (hbinds : q.Binds (siteSchema hasReason hasHint)) {name : Var × String}
    (hreturns : q.returns = .columns [name]) (hlimit : q.limit = some 1) :
    ∃ b, (existsRow q).run engine.answer = some b ∧ (b = true ↔ g.found q ≠ []) := by
  have hfinds := run_existsRow engine hreturns hlimit
  rw [finds_iff havail hbinds] at hfinds
  obtain ⟨rows, hrows⟩ := Option.isSome_iff_exists.mp ((havail (.query q)).mpr hbinds)
  have hrun : (existsRow q).run engine.answer = some (rows.any fun row => !row.isEmpty) := by
    simp [existsRow, runQuery, hrows]
  rw [hrun] at hfinds
  exact ⟨_, hrun, hfinds⟩

theorem binds_nodeByColumn {label : NodeLabel} {column : String} (hsite : label ≠ .callSite)
    (hcolumn : column ∈ ddlColumns (.code label)) (value : Str) :
    (nodeByColumn label column value).Binds (siteSchema hasReason hasHint) := by
  have hcolumns : (siteSchema hasReason hasHint).columns (.code label) = ddlColumns (.code label) :=
    columns_siteSchema (by simpa using hsite)
  have hid := id_mem_ddlColumns (.code label)
  simp [Query.Binds, nodeByColumn, Cond.names, Returns.names, Pattern.columns, hcolumns, hcolumn,
    hid]

theorem found_nodeByColumn (label : NodeLabel) (column : String) (value : Str) :
    g.found (nodeByColumn label column value) ≠ [] ↔ SomeNode g label column value := by
  rw [g.found_node rfl]
  simp only [nodeByColumn, Cond.holds, textIs_eq_iff, ne_eq, List.map_eq_nil_iff,
    List.filter_eq_nil_iff, not_forall, decide_eq_true_eq, not_not, SomeNode, Node.get,
    exists_prop]

theorem run_isRepoType (havail : engine.Available) (name : Str) :
    (isRepoType name).run engine.answer = true ↔ RepoType g name := by
  have hlabel (label : NodeLabel) (hlabel : label = .struct ∨ label = .enum) :
      ((existsRow (nodeByColumn label "name" name)).run engine.answer == some true) = true ↔
        SomeNode g label "name" name := by
    have hbinds : (nodeByColumn label "name" name).Binds (siteSchema hasReason hasHint) := by
      rcases hlabel with rfl | rfl
      · exact binds_nodeByColumn (by decide) (by decide) name
      · exact binds_nodeByColumn (by decide) (by decide) name
    obtain ⟨b, hrun, hb⟩ := existsRow_eq_some havail hbinds rfl rfl
    rw [hrun, ← found_nodeByColumn, ← hb]
    simp
  have hstruct := hlabel .struct (Or.inl rfl)
  have henum := hlabel .enum (Or.inr rfl)
  simp only [isRepoType, Asks.run_anyM, List.any_cons, List.any_nil, Bool.or_false,
    Bool.or_eq_true, Asks.run_bind, Asks.run_pure, hstruct, henum, RepoType]

theorem isRepoType_eq_false (havail : engine.Available) {name : Str} (h : ¬RepoType g name) :
    (isRepoType name).run engine.answer = false := by
  rwa [← Bool.not_eq_true, run_isRepoType havail]

theorem run_isAliased (havail : engine.Available) (name : Str) :
    (isAliased name).run engine.answer = true ↔ Aliased g name := by
  have hlabel {label : NodeLabel} {column : String}
      (hbinds : (nodeByColumn label column name).Binds (siteSchema hasReason hasHint)) :
      ((existsRow (nodeByColumn label column name)).run engine.answer != some false) = true ↔
        SomeNode g label column name := by
    obtain ⟨b, hrun, hb⟩ := existsRow_eq_some havail hbinds rfl rfl
    rw [hrun, ← found_nodeByColumn, ← hb]
    simp
  have htype : (nodeByColumn .typeAlias "name" name).Binds (siteSchema hasReason hasHint) :=
    binds_nodeByColumn (by decide) (by decide) name
  have huse : (nodeByColumn .«import» "alias" name).Binds (siteSchema hasReason hasHint) :=
    binds_nodeByColumn (by decide) (by decide) name
  have halias := hlabel htype
  have himport := hlabel huse
  simp only [isAliased, Asks.run_anyM, List.any_cons, List.any_nil, Bool.or_false,
    Bool.or_eq_true, Asks.run_bind, Asks.run_pure, halias, himport, Aliased]

theorem isAliased_eq_false (havail : engine.Available) {name : Str} (h : ¬Aliased g name) :
    (isAliased name).run engine.answer = false := by
  rwa [← Bool.not_eq_true, run_isAliased havail]

theorem textIs_contains_iff {v : Value} {s : Str} :
    v.textIs (fun t => (find s t).isSome) = true ↔ ∃ t, v = .text t ∧ s <:+: t := by
  have hfind (t : Str) : (find s t).isSome = true ↔ s <:+: t := by
    rw [Option.isSome_iff_ne_none, ne_eq, find_eq_none_iff, not_not]
  cases v <;> simp [Value.textIs, hfind]

theorem run_typeDerefs (havail : engine.Available) (name : Str) :
    (typeDerefs name).run engine.answer = true ↔ Derefs g name := by
  have hcolumns : (siteSchema hasReason hasHint).columns (.code .method) =
      ddlColumns (.code .method) := columns_siteSchema (by decide)
  have hbinds : (derefQuery name).Binds (siteSchema hasReason hasHint) := by
    have hid := id_mem_ddlColumns (.code .method)
    have htrait : "trait_name" ∈ ddlColumns (.code .method) := by decide
    have hreceiver : "receiver_type" ∈ ddlColumns (.code .method) := by decide
    simp [Query.Binds, derefQuery, Cond.names, Returns.names, Pattern.columns, hcolumns, hid,
      htrait, hreceiver]
  obtain ⟨b, hrun, hb⟩ := existsRow_eq_some havail hbinds rfl rfl
  have hfound : g.found (derefQuery name) ≠ [] ↔ Derefs g name := by
    have hholds (m : Node (siteSchema hasReason hasHint)) :
        (derefQuery name).cond.holds m.get = true ↔
          (∃ text, m.props "trait_name" = .text text ∧ "Deref".toList <:+: text) ∧
            ∃ text, m.props "receiver_type" = .text text ∧ ("::".toList ++ name) <:+: text := by
      rw [derefQuery, Cond.holds, Bool.and_eq_true]
      exact and_congr textIs_contains_iff textIs_contains_iff
    rw [g.found_node rfl]
    simp only [ne_eq, List.map_eq_nil_iff, List.filter_eq_nil_iff, not_forall, decide_eq_true_eq,
      not_not, Derefs, hholds, exists_prop]
  rw [typeDerefs, Asks.run_bind, Asks.run_pure, hrun, ← hfound, ← hb]
  simp

theorem otherName_iff {filter : OtherOwnerFilter} {name : Str} :
    OtherName g filter name ↔ ¬ filter.isSelfOrOwner name = true ∧ ¬Aliased g name := by
  rw [OtherName, Bool.not_eq_true]

theorem run_pathIsAnotherOwner (havail : engine.Available) (filter : OtherOwnerFilter)
    (name reason : Str) :
    (filter.pathIsAnotherOwner name reason).run engine.answer = true ↔
      OtherName g filter name ∧
        (RepoType g name ∨ reason = Resolver.Reason.externalCallee.text ∧
          (filter.traitName = none ∨ name ∈ closedStdTypes)) := by
  rw [otherName_iff, OtherOwnerFilter.pathIsAnotherOwner]
  by_cases hself : filter.isSelfOrOwner name = true
  · simp [hself]
  by_cases halias : Aliased g name
  · simp [hself, halias, (run_isAliased havail name).mpr halias]
  have hrun := isAliased_eq_false havail halias
  by_cases hrepo : RepoType g name
  · simp [hself, halias, hrun, hrepo, (run_isRepoType havail name).mpr hrepo]
  have hnone := isRepoType_eq_false havail hrepo
  by_cases hreason : reason = Resolver.Reason.externalCallee.text
  · cases htrait : filter.traitName with
    | none => simp [hself, halias, hrun, hrepo, hreason]
    | some traitName => simp [hself, halias, hrun, hrepo, hnone, hreason]
  · simp [hself, halias, hrun, hrepo, hnone, hreason]

theorem run_receiverIsAnotherType (havail : engine.Available) (filter : OtherOwnerFilter)
    (hint : Str) :
    (filter.receiverIsAnotherType hint).run engine.answer = true ↔
      ∃ name, hintTypeName hint = some name ∧ OtherName g filter name ∧
        (RepoType g name ∧ ¬Derefs g name ∨ ¬RepoType g name ∧ name ∈ closedStdTypes) := by
  rw [OtherOwnerFilter.receiverIsAnotherType]
  cases hintTypeName hint with
  | none => simp
  | some name =>
      simp only [Option.some.injEq, exists_eq_left', otherName_iff]
      by_cases hself : filter.isSelfOrOwner name = true
      · simp [hself]
      by_cases halias : Aliased g name
      · simp [hself, halias, (run_isAliased havail name).mpr halias]
      have hrun := isAliased_eq_false havail halias
      by_cases hrepo : RepoType g name
      · have hderefs := run_typeDerefs havail name
        simp [hself, halias, hrun, hrepo, (run_isRepoType havail name).mpr hrepo, ← hderefs]
      · have hnone := isRepoType_eq_false havail hrepo
        simp [hself, halias, hrun, hrepo, hnone]

theorem siteSpelling_siteRow (s : Node (siteSchema hasReason hasHint)) :
    siteSpelling (siteRow hasHint s) =
      { callee := siteText s "callee_name"
        receiverHint := siteHint s
        reason := siteText s "unresolved_reason"
        language := siteText s "language" } := by
  cases hasHint <;> rfl

/-- The filter excludes the sites whose spelling names another owner. -/
theorem run_excludes (havail : engine.Available) (filter : OtherOwnerFilter)
    (s : Node (siteSchema hasReason hasHint)) :
    (filter.excludes (siteSpelling (siteRow hasHint s))).run engine.answer = true ↔
      NamesOther g filter s := by
  rw [siteSpelling_siteRow, OtherOwnerFilter.excludes, NamesOther]
  by_cases hlang : siteText s "language" = rust
  · rw [if_neg (not_not.mpr hlang), and_iff_right hlang]
    split
    · exact run_receiverIsAnotherType havail filter (siteHint s)
    · cases calleeNamesType (siteText s "callee_name") with
      | none => simp
      | some name =>
          simpa using run_pathIsAnotherOwner havail filter name (siteText s "unresolved_reason")
  · simp [hlang]

/-! ### The owner of the target -/

/-- A method in Rust that the target denotes. -/
def TargetMethod (g : Graph (siteSchema hasReason hasHint)) (target : Str)
    (m : Node (siteSchema hasReason hasHint)) : Prop :=
  m ∈ g.nodes ∧ m.label = .code .method ∧ Denotes target m ∧ m.props "language" = .text rust

/-- The row that is read about a method. -/
def methodRow (m : Node (siteSchema hasReason hasHint)) : Row :=
  [m.props "receiver_type", m.props "trait_name"]

/-- The method that the store gives for the target. -/
def Chosen (engine : Engine g) (target : Str) (m : Node (siteSchema hasReason hasHint)) : Prop :=
  TargetMethod g target m ∧
    ∃ rest, engine.answer (.query (targetMethodQuery target)) = some (methodRow m :: rest)

/-- The qualified name of the owner of a method. -/
def ownerOf (m : Node (siteSchema hasReason hasHint)) : Str :=
  stripGenerics (Indexer.trim (siteText m "receiver_type"))

/-- The owner of a method is a struct or an enum of the repository. -/
def OwnerKnown (g : Graph (siteSchema hasReason hasHint))
    (m : Node (siteSchema hasReason hasHint)) : Prop :=
  (SomeNode g .struct "qualified_name" (ownerOf m) ∨ SomeNode g .enum "qualified_name" (ownerOf m)) ∧
    afterLast "::".toList (ownerOf m) ≠ []

/-- The filter of a method: the bare names of its owner and its trait. -/
def filterOf (m : Node (siteSchema hasReason hasHint)) : OtherOwnerFilter :=
  let traitName := afterLast "::".toList (stripGenerics (Indexer.trim (siteText m "trait_name")))
  { owner := afterLast "::".toList (ownerOf m)
    traitName := if traitName.isEmpty then none else some traitName }

theorem rows_targetMethod {target : Str} {rows : List Row}
    (h : engine.answer (.query (targetMethodQuery target)) = some rows) {row : Row}
    (hrow : row ∈ rows) : ∃ m, TargetMethod g target m ∧ row = methodRow m := by
  obtain ⟨found, hperm, rfl⟩ := engine.sound _ _ h
  rw [g.found_node rfl] at hperm
  obtain ⟨get, hget, rfl⟩ := List.mem_map.mp (List.mem_of_mem_take hrow)
  obtain ⟨m, hm, rfl⟩ := List.mem_map.mp (hperm.subset hget)
  obtain ⟨hmem, hholds⟩ := List.mem_filter.mp hm
  obtain ⟨hlabel, hcond⟩ := of_decide_eq_true hholds
  simp only [targetMethodQuery, Cond.holds, Bool.and_eq_true, Bool.or_eq_true,
    textIs_eq_iff] at hcond
  exact ⟨m, ⟨hmem, hlabel, hcond.1, hcond.2⟩, rfl⟩

/-- The run of the filter for a target whose method has been read. -/
theorem run_forTarget_of_row (havail : engine.Available) {target : Str} {rest : List Row}
    {m : Node (siteSchema hasReason hasHint)}
    (h : engine.answer (.query (targetMethodQuery target)) = some (methodRow m :: rest)) :
    ((OtherOwnerFilter.forTarget target).run engine.answer = some (filterOf m) ∧ OwnerKnown g m) ∨
      ((OtherOwnerFilter.forTarget target).run engine.answer = none ∧ ¬OwnerKnown g m) := by
  have hlabel (label : NodeLabel) (hlabel : label = .struct ∨ label = .enum) :
      ((existsRow (nodeByColumn label "qualified_name" (ownerOf m))).run engine.answer ==
          some true) = true ↔ SomeNode g label "qualified_name" (ownerOf m) := by
    have hbinds : (nodeByColumn label "qualified_name" (ownerOf m)).Binds
        (siteSchema hasReason hasHint) := by
      rcases hlabel with rfl | rfl
      · exact binds_nodeByColumn (by decide) (by decide) _
      · exact binds_nodeByColumn (by decide) (by decide) _
    obtain ⟨b, hrun, hb⟩ := existsRow_eq_some havail hbinds rfl rfl
    rw [hrun, ← found_nodeByColumn, ← hb]
    simp
  have hconcrete : ([NodeLabel.struct, .enum].any fun label =>
      ((existsRow (nodeByColumn label "qualified_name" (ownerOf m))).run engine.answer ==
        some true)) = true ↔ SomeNode g .struct "qualified_name" (ownerOf m) ∨
          SomeNode g .enum "qualified_name" (ownerOf m) := by
    simp only [List.any_cons, List.any_nil, Bool.or_false, Bool.or_eq_true,
      hlabel .struct (Or.inl rfl), hlabel .enum (Or.inr rfl)]
  have hrun : (OtherOwnerFilter.forTarget target).run engine.answer =
      if (([NodeLabel.struct, .enum].any fun label =>
        ((existsRow (nodeByColumn label "qualified_name" (ownerOf m))).run engine.answer ==
          some true)) && !(afterLast "::".toList (ownerOf m)).isEmpty) = true
      then some (filterOf m) else none := by
    rw [OtherOwnerFilter.forTarget, Asks.run_bind, runQuery, Asks.run_question, h]
    simp only [Option.bind_some, List.head?_cons, Asks.run_bind, Asks.run_anyM, Asks.run_pure]
    split
    · rename_i hcond
      exact (if_pos hcond).symm
    · rename_i hcond
      exact (if_neg hcond).symm
  rw [hrun]
  split
  · rename_i hboth
    rw [Bool.and_eq_true, hconcrete] at hboth
    exact Or.inl ⟨rfl, hboth.1, by simpa using hboth.2⟩
  · rename_i hboth
    rw [Bool.and_eq_true, hconcrete] at hboth
    exact Or.inr ⟨rfl, fun hknown => hboth ⟨hknown.1, by simpa using hknown.2⟩⟩

/-- The filter of a target is the filter of the method that the store gives. -/
theorem run_forTarget (havail : engine.Available) (target : Str) (filter : OtherOwnerFilter) :
    (OtherOwnerFilter.forTarget target).run engine.answer = some filter ↔
      ∃ m, Chosen engine target m ∧ OwnerKnown g m ∧ filter = filterOf m := by
  constructor
  · intro hrun
    rcases hrows : engine.answer (.query (targetMethodQuery target)) with _ | (_ | ⟨row, rest⟩)
    · rw [OtherOwnerFilter.forTarget, Asks.run_bind, runQuery, Asks.run_question, hrows] at hrun
      cases hrun
    · rw [OtherOwnerFilter.forTarget, Asks.run_bind, runQuery, Asks.run_question, hrows] at hrun
      cases hrun
    · obtain ⟨m, hm, rfl⟩ := rows_targetMethod hrows List.mem_cons_self
      rcases run_forTarget_of_row havail hrows with ⟨hfilter, hknown⟩ | ⟨hnone, -⟩
      · exact ⟨m, ⟨hm, rest, hrows⟩, hknown, Option.some.inj (hrun.symm.trans hfilter)⟩
      · rw [hnone] at hrun
        cases hrun
  · rintro ⟨m, ⟨-, rest, hrows⟩, hknown, rfl⟩
    rcases run_forTarget_of_row havail hrows with ⟨hfilter, -⟩ | ⟨-, hunknown⟩
    · exact hfilter
    · exact absurd hknown hunknown

end Filter

/-! ### What is accounted for -/

/-- The name that sites are looked for by. -/
def bareName (target : Str) : Str := lastSegment (stripCfgGates target)

theorem attribution_getImpact (engine : Engine g) (target : Str) :
    ((getImpact target).run engine.answer).attribution =
      (unresolvedCallsiteAttribution target (bareName target)).run engine.answer := by
  simp only [getImpact, resolveEpistemics, bareName, Asks.run_bind, Asks.run_pure]

/-- Every open site of the name is counted or left out, a site is left out only where its
spelling cannot denote the owner of the target, the two numbers are the numbers of those
sites, and the values by reason sum to the first. `canDenote` says whether the qualifier or
the receiver of a site, read in the site's scope, can denote a type. -/
structure Accounted (engine : Engine g) (target name : Str)
    (canDenote : Node (siteSchema hasReason hasHint) → Str → Prop) : Prop where
  covered : ∀ s ∈ g.nodes, OpenNamed name s →
    Counts engine target (bareName target) s ∨ LeftOut engine target (bareName target) s
  rightly : ∀ s ∈ g.nodes, OpenNamed name s → LeftOut engine target (bareName target) s →
    ∀ m ∈ g.nodes, m.label = .code .method → Denotes target m → ¬canDenote s (ownerOf m)
  total : ((getImpact target).run engine.answer).attribution.total =
    g.nodes.countP fun s => Counts engine target (bareName target) s
  excluded : ((getImpact target).run engine.answer).attribution.excludedOtherOwner =
    g.nodes.countP fun s => LeftOut engine target (bareName target) s
  reasons : (((getImpact target).run engine.answer).attribution.byReason.map Prod.snd).sum =
    ((getImpact target).run engine.answer).attribution.total

/-- The name that sites are looked for by finds the sites of the declared name: it is that
name, or there is no site, but for those behind a third colon. -/
def NameFound (g : Graph (siteSchema hasReason hasHint)) (target name : Str) : Prop :=
  bareName target = name ∨
    ∀ s ∈ g.nodes, OpenNamed name s → (bareName target).head? = some ':' ∧
      ∃ callee, s.props "callee_name" = .text callee ∧ ("::".toList ++ bareName target) <:+ callee

/-- No site of the name whose spelling names another owner by bare names can denote the
owner in its scope. -/
def SpellingsSeparate (engine : Engine g) (target name : Str)
    (canDenote : Node (siteSchema hasReason hasHint) → Str → Prop) : Prop :=
  ∀ chosen, Chosen engine target chosen → OwnerKnown g chosen → hasReason = true →
    ∀ s ∈ g.nodes, OpenNamed name s → NamesOther g (filterOf chosen) s →
      ∀ m ∈ g.nodes, m.label = .code .method → Denotes target m → ¬canDenote s (ownerOf m)

theorem openSite_iff {bare : Str} {s : Node (siteSchema hasReason hasHint)} :
    OpenSite bare s ↔ s.label = .code .callSite ∧ s.props "is_resolved" = .flag false ∧
      ∃ callee, s.props "callee_name" = .text callee ∧
        (callee = bare ∨ (".".toList ++ bare) <:+ callee ∨ ("::".toList ++ bare) <:+ callee) := by
  rw [OpenSite]
  refine and_congr_right fun _ => ?_
  simp only [unresolvedNameFilter, Cond.holds, Bool.and_eq_true, Bool.or_eq_true, Node.get,
    beq_iff_eq]
  refine and_congr_right fun _ => ?_
  cases s.props "callee_name" <;>
    simp [Value.textIs, or_assoc, List.isSuffixOf_iff_suffix]

/-- The open sites of a name that are looked for by another one. -/
theorem openSites_iff_nameFound (target name : Str) :
    (∀ s ∈ g.nodes, OpenNamed name s → OpenSite (bareName target) s) ↔
      NameFound g target name := by
  have hdot : ¬ ".".toList <:+: bareName target := not_dot_lastSegment _
  have hscope : ¬ "::".toList <:+: bareName target := not_scope_lastSegment _
  constructor
  · intro h
    by_cases heq : bareName target = name
    · exact Or.inl heq
    refine Or.inr fun s hs hopen => ?_
    obtain ⟨-, -, callee', hcallee', hends⟩ := openSite_iff.mp (h s hs hopen)
    obtain ⟨-, -, callee, hcallee, hlast⟩ := hopen
    obtain rfl : callee = callee' := Value.text.inj (hcallee.symm.trans hcallee')
    rcases hends with hself | hend | hend
    · exact absurd ((lastSegment_self hdot hscope).symm.trans (hself ▸ hlast)) heq
    · exact absurd ((lastSegment_of_dot hdot hscope hend).symm.trans hlast) heq
    · by_cases hcolon : (bareName target).head? = some ':'
      · exact ⟨hcolon, callee, hcallee, hend⟩
      · exact absurd ((lastSegment_of_scope hdot hscope hcolon hend).symm.trans hlast) heq
  · rintro (rfl | h) s hs hopen
    · obtain ⟨hlabel, hresolved, callee, hcallee, hlast⟩ := hopen
      exact openSite_iff.mpr ⟨hlabel, hresolved, callee, hcallee, ends_of_lastSegment hlast⟩
    · obtain ⟨-, callee, hcallee, hend⟩ := h s hs hopen
      exact openSite_iff.mpr ⟨hopen.1, hopen.2.1, callee, hcallee, Or.inr (Or.inr hend)⟩

section Available

variable {engine : Engine g}

theorem showsColumn_iff (havail : engine.Available) :
    (ShowsColumn engine .callSite "unresolved_reason" ↔ hasReason = true) ∧
      (ShowsColumn engine .callSite "receiver_hint" ↔ hasHint = true) := by
  have hinfo : (engine.answer (.tableInfo (.code .callSite))).isSome :=
    (havail (.tableInfo (.code .callSite))).mpr trivial
  obtain ⟨-, -, -, -, hreason, hhint⟩ := mem_siteColumns hasReason hasHint
  exact ⟨(and_iff_right hinfo).trans hreason, (and_iff_right hinfo).trans hhint⟩

theorem answers_openSites (havail : engine.Available) (bare : Str) :
    (engine.answer (.query (countQuery bare))).isSome ∧
      (hasReason = true → (engine.answer (.query (openSitesQuery bare hasHint))).isSome) := by
  obtain ⟨hresolved, hcallee, hid, hlanguage, hreason, hhint⟩ :=
    mem_siteColumns hasReason hasHint
  constructor
  · refine (havail _).mpr ?_
    simp [Statement.Binds, Query.Binds, countQuery, unresolvedNameFilter, Cond.names,
      Returns.names, Pattern.columns, hresolved, hcallee]
  · intro h
    refine (havail _).mpr ?_
    have hcolumns : ∀ name ∈ siteColumns hasHint, name.2 ∈
        (openSitesQuery bare hasHint).pattern.columns (siteSchema hasReason hasHint) name.1 := by
      cases hasHint with
      | false =>
          simp [siteColumns, openSitesQuery, Pattern.columns, hid, hcallee, hlanguage,
            hreason.mpr h]
      | true =>
          simp [siteColumns, openSitesQuery, Pattern.columns, hid, hcallee, hlanguage,
            hreason.mpr h, hhint.mpr rfl]
    intro name hname
    rcases List.mem_append.mp hname with hcond | hreturn
    · simp only [openSitesQuery, unresolvedNameFilter, Cond.names, List.cons_append,
        List.nil_append, List.mem_cons, List.not_mem_nil, or_false] at hcond
      rcases hcond with rfl | rfl | rfl | rfl
      · exact hresolved
      · exact hcallee
      · exact hcallee
      · exact hcallee
    · exact hcolumns name hreturn

/-- A site is left out where its spelling names another owner than that of the method that
the store gives. -/
theorem leftOut_iff (havail : engine.Available) {target bare : Str}
    {s : Node (siteSchema hasReason hasHint)} :
    LeftOut engine target bare s ↔ OpenSite bare s ∧ hasReason = true ∧
      ∃ chosen, Chosen engine target chosen ∧ OwnerKnown g chosen ∧
        NamesOther g (filterOf chosen) s := by
  obtain ⟨hreason, hhint⟩ := showsColumn_iff havail
  have hdecide : decide (ShowsColumn engine .callSite "receiver_hint") = hasHint := by
    rw [Bool.eq_iff_iff, decide_eq_true_eq, hhint]
  rw [LeftOut, hreason, hdecide]
  refine and_congr_right fun _ => and_congr_right fun hcolumn => ?_
  rw [and_iff_right ((answers_openSites havail bare).2 hcolumn), Excluded]
  constructor
  · intro hexcluded
    cases hfilter : (OtherOwnerFilter.forTarget target).run engine.answer with
    | none =>
        rw [hfilter] at hexcluded
        cases hexcluded
    | some filter =>
        rw [hfilter] at hexcluded
        obtain ⟨chosen, hchosen, hknown, rfl⟩ := (run_forTarget havail target filter).mp hfilter
        exact ⟨chosen, hchosen, hknown, (run_excludes havail _ s).mp hexcluded⟩
  · rintro ⟨chosen, hchosen, hknown, hnames⟩
    rw [(run_forTarget havail target (filterOf chosen)).mpr ⟨chosen, hchosen, hknown, rfl⟩]
    exact (run_excludes havail _ s).mpr hnames

/-- An open site that is found is counted or left out. -/
theorem counts_or_leftOut_iff (havail : engine.Available) {target bare : Str}
    {s : Node (siteSchema hasReason hasHint)} :
    Counts engine target bare s ∨ LeftOut engine target bare s ↔ OpenSite bare s := by
  obtain ⟨hreason, hhint⟩ := showsColumn_iff havail
  have hdecide : decide (ShowsColumn engine .callSite "receiver_hint") = hasHint := by
    rw [Bool.eq_iff_iff, decide_eq_true_eq, hhint]
  obtain ⟨hcount, hsites⟩ := answers_openSites havail bare
  constructor
  · rintro (hcounts | hleft)
    · exact hcounts.1
    · exact hleft.1
  · intro hopen
    rw [Counts, LeftOut, hdecide, and_iff_right hopen, and_iff_right hopen]
    by_cases hcolumn : ShowsColumn engine .callSite "unresolved_reason"
    · rw [if_pos hcolumn, and_iff_right hcolumn, and_iff_right (hsites (hreason.mp hcolumn)),
        and_iff_right (hsites (hreason.mp hcolumn))]
      exact (Bool.eq_false_or_eq_true _).symm
    · rw [if_neg hcolumn]
      exact Or.inl hcount

end Available

/-- The open sites of a name are accounted for exactly where the name read out of the target
finds them and the spellings that are left out cannot denote the owner of the target. -/
theorem accounted_iff (engine : Engine g) (havail : engine.Available) (target name : Str)
    (canDenote : Node (siteSchema hasReason hasHint) → Str → Prop) :
    Accounted engine target name canDenote ↔
      NameFound g target name ∧ SpellingsSeparate engine target name canDenote := by
  rw [← openSites_iff_nameFound]
  constructor
  · intro h
    have hopen : ∀ s ∈ g.nodes, OpenNamed name s → OpenSite (bareName target) s :=
      fun s hs hnamed => (counts_or_leftOut_iff havail).mp (h.covered s hs hnamed)
    refine ⟨hopen, fun chosen hchosen hknown hcolumn s hs hnamed hother => ?_⟩
    exact h.rightly s hs hnamed
      ((leftOut_iff havail).mpr ⟨hopen s hs hnamed, hcolumn, chosen, hchosen, hknown, hother⟩)
  · rintro ⟨hopen, hseparate⟩
    refine ⟨fun s hs hnamed => (counts_or_leftOut_iff havail).mpr (hopen s hs hnamed), ?_, ?_, ?_, ?_⟩
    · intro s hs hnamed hleft
      obtain ⟨-, hcolumn, chosen, hchosen, hknown, hother⟩ := (leftOut_iff havail).mp hleft
      exact hseparate chosen hchosen hknown hcolumn s hs hnamed hother
    · rw [attribution_getImpact]
      exact total_eq engine target _
    · rw [attribution_getImpact]
      exact excludedOtherOwner_eq engine target _
    · rw [attribution_getImpact]
      exact sum_byReason engine target _

/-! ### A call of another owner -/

/-- A method `draw` of `Chart`, a type `Table` beside it, and two open calls of `draw`: one of
`Table::draw`, and one on a receiver without a hint. -/
def twoOwnersGraph : Graph (siteSchema true true) where
  nodes := [
    Node.of _ (.code .method)
      [("id", .text "src/lib.rs::Chart::draw".toList),
        ("qualified_name", .text "src/lib.rs::Chart::draw".toList), ("name", .text "draw".toList),
        ("receiver_type", .text "src/lib.rs::Chart".toList), ("language", .text rust)],
    Node.of _ (.code .struct)
      [("name", .text "Chart".toList), ("qualified_name", .text "src/lib.rs::Chart".toList)],
    Node.of _ (.code .struct)
      [("name", .text "Table".toList), ("qualified_name", .text "src/lib.rs::Table".toList)],
    Node.of _ (.code .callSite)
      [("id", .text "src/lib.rs::main::call@3".toList), ("callee_name", .text "Table::draw".toList),
        ("is_resolved", .flag false), ("language", .text rust)],
    Node.of _ (.code .callSite)
      [("id", .text "src/lib.rs::main::call@4".toList), ("callee_name", .text "chart.draw".toList),
        ("is_resolved", .flag false), ("language", .text rust)]]
  edges := []
  ends_mem := by simp

/-- In the scope of its call `Table` is the type of that name. -/
def inItsScope (s : Node (siteSchema true true)) (owner : Str) : Prop :=
  siteText s "callee_name" = "Table::draw".toList → owner = "src/lib.rs::Table".toList

theorem open_call_is_accounted_for :
    Accounted twoOwnersGraph.engine "src/lib.rs::Chart::draw".toList "draw".toList inItsScope ∧
      LeftOut twoOwnersGraph.engine "src/lib.rs::Chart::draw".toList "draw".toList
        (twoOwnersGraph.nodes.get ⟨3, by decide⟩) := by
  refine ⟨(accounted_iff _ (Graph.engine_available _) _ _ _).mpr ⟨Or.inl (by decide +kernel), ?_⟩,
    by decide +kernel⟩
  rintro chosen - - - s hs ⟨hsite, -⟩ ⟨-, hother⟩ m hm hmethod - hcan
  have howner : ownerOf m = "src/lib.rs::Chart".toList := by
    simp only [twoOwnersGraph, List.mem_cons, List.not_mem_nil, or_false] at hm
    rcases hm with rfl | rfl | rfl | rfl | rfl
    · decide +kernel
    all_goals cases hmethod
  simp only [twoOwnersGraph, List.mem_cons, List.not_mem_nil, or_false] at hs
  rcases hs with rfl | rfl | rfl | rfl | rfl
  · cases hsite
  · cases hsite
  · cases hsite
  · rw [howner] at hcan
    exact absurd (hcan (by decide +kernel)) (by decide +kernel)
  · rw [if_pos (by decide +kernel)] at hother
    obtain ⟨name, hname, -⟩ := hother
    have hnone : hintTypeName (siteHint twoOwnersGraph.nodes[4]) = none := by decide +kernel
    cases hnone.symm.trans hname
/-! ### A name behind a sequence number -/

/-- A function `foo` with the id, and an open call of `foo`. -/
def openCallGraph (id : Str) : Graph (siteSchema true true) where
  nodes := [
    Node.of _ (.code .function)
      [("id", .text id), ("name", .text "foo".toList), ("qualified_name", .text id)],
    Node.of _ (.code .callSite)
      [("id", .text "main.go::main#2::call@3:2#4".toList), ("callee_name", .text "foo".toList),
        ("is_resolved", .flag false), ("language", .text "go".toList)]]
  edges := []
  ends_mem := by simp

/-- The id of a function in Go ends in a sequence number, and its open call is neither
counted nor left out. -/
theorem open_call_is_lost :
    Denotes "main.go::foo#1".toList
        ((openCallGraph "main.go::foo#1".toList).nodes.head (by simp [openCallGraph])) ∧
      ((openCallGraph "main.go::foo#1".toList).nodes.head (by simp [openCallGraph])).props "name" =
        .text "foo".toList ∧
      ¬ Accounted (openCallGraph "main.go::foo#1".toList).engine "main.go::foo#1".toList
        "foo".toList fun _ _ => False := by
  refine ⟨by decide +kernel, by decide +kernel, fun h => ?_⟩
  have hopen : ¬ OpenSite (bareName "main.go::foo#1".toList)
      ((openCallGraph "main.go::foo#1".toList).nodes.getLast (by simp [openCallGraph])) := by
    decide +kernel
  have hnamed : OpenNamed "foo".toList
      ((openCallGraph "main.go::foo#1".toList).nodes.getLast (by simp [openCallGraph])) :=
    ⟨by decide +kernel, by decide +kernel, "foo".toList, by decide +kernel, by decide +kernel⟩
  rcases h.covered _ (List.getLast_mem _) hnamed with hcounts | hleft
  · exact hopen hcounts.1
  · exact hopen hleft.1

end AutomatisedPipeline.Impact
