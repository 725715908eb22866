import AutomatisedPipeline.Search.Context

/-!
The neighbours that `get_context` and `get_impact` give of one symbol.

Both walk the same tables for a direction. `get_impact` binds `qualified_name` only where
the label declares it; `get_context` binds it on both ends, so the binder rejects its query
for a table with a label that lacks the column, and the rejected query reads as an empty
one. `context_matches_impact_iff` says when the lists agree all the same: the edges of those
tables into the symbol are none, or the other ones fill the list to its cap.
-/

namespace AutomatisedPipeline.Search

open Text Cypher Store Impact

/-! ### Lists with a cap -/

/-- A loop whose steps append what they find and cut the list off at the cap: the list is
what all the steps find, cut off at the cap. -/
theorem foldl_capped {α β : Type} {cap : Nat} {f : List β → α → List β} {part : α → List β}
    (hstep : ∀ acc a, acc.length ≤ cap → f acc a = (acc ++ part a).take cap) (l : List α)
    {acc : List β} (hacc : acc.length ≤ cap) :
    l.foldl f acc = (acc ++ l.flatMap part).take cap := by
  induction l generalizing acc with
  | nil => simp [List.take_of_length_le hacc]
  | cons a l ih =>
      rw [List.foldl_cons, hstep acc a hacc, ih (List.length_take_le _ _), List.flatMap_cons,
        ← List.append_assoc, List.take_append, @List.take_append _ (acc ++ part a),
        List.take_take, Nat.min_self]
      rcases Nat.le_total cap (acc ++ part a).length with h | h
      · have hlen : ((acc ++ part a).take cap).length = cap := List.length_take_of_le h
        rw [hlen, Nat.sub_self, Nat.sub_eq_zero_of_le h]
      · rw [List.take_of_length_le h]

theorem take_append_take {α : Type} (cap : Nat) (l m : List α) :
    (l ++ m.take cap).take cap = (l ++ m).take cap := by
  rw [List.take_append, List.take_append, List.take_take, Nat.min_eq_left (Nat.sub_le _ _)]

/-- Elements that yield nothing can be left out. -/
theorem flatMap_filter {α β : Type} {p : α → Bool} {f : α → List β} {l : List α}
    (h : ∀ a ∈ l, p a = false → f a = []) : (l.filter p).flatMap f = l.flatMap f := by
  induction l with
  | nil => rfl
  | cons a l ih =>
      have hrest := ih fun b hb => h b (List.mem_cons_of_mem _ hb)
      cases hp : p a with
      | true => rw [List.filter_cons_of_pos hp, List.flatMap_cons, List.flatMap_cons, hrest]
      | false =>
          rw [List.filter_cons_of_neg (by simp [hp]), hrest, List.flatMap_cons,
            h a List.mem_cons_self hp, List.nil_append]

theorem foldl_pushRelated {rows : List Row} (hrows : ∀ row ∈ rows, 2 ≤ row.length)
    (label : NodeLabel) {related : List RelatedSymbol}
    (h : related.length ≤ maxRelatedPerDirection) :
    rows.foldl (pushRelated label) related =
      (related ++ rows.map (relatedOfRow label)).take maxRelatedPerDirection := by
  induction rows generalizing related with
  | nil => simp [List.take_of_length_le h]
  | cons row rows ih =>
      have hrow := hrows row List.mem_cons_self
      have hrest := fun r hr => hrows r (List.mem_cons_of_mem _ hr)
      rw [List.foldl_cons, List.map_cons]
      rcases Nat.lt_or_ge related.length maxRelatedPerDirection with hlt | hge
      · have hpush : pushRelated label related row = related ++ [relatedOfRow label row] := by
          rw [pushRelated, if_neg (Nat.not_le.mpr hlt), if_pos hrow]
        rw [hpush, ih hrest (by simpa using hlt), List.append_assoc, List.singleton_append]
      · have hpush : pushRelated label related row = related := by
          rw [pushRelated, if_pos hge]
        rw [hpush, ih hrest h, List.take_append_of_le_length hge,
          List.take_append_of_le_length hge]

/-! ### What the traversal of `get_context` finds -/

/-- Both labels of a table declare what the traversal binds on them. -/
def Readable (table : RelSchema) : Prop :=
  "name" ∈ ddlColumns (.code table.2.1) ∧ "qualified_name" ∈ ddlColumns (.code table.2.1) ∧
    "qualified_name" ∈ ddlColumns (.code table.2.2)

instance (table : RelSchema) : Decidable (Readable table) :=
  inferInstanceAs (Decidable (_ ∧ _))

theorem binds_relatedQuery (escaped : Str) (table : RelSchema) :
    (relatedQuery .b .a escaped table).Binds schema ↔ Readable table := by
  have hid := id_mem_ddlColumns (.code table.2.2)
  simp only [Query.Binds, relatedQuery, Cond.names, Returns.names, Pattern.columns, columns_schema,
    List.cons_append, List.nil_append, List.forall_mem_cons, List.not_mem_nil, IsEmpty.forall_iff,
    implies_true, Readable]
  tauto

/-- A standard library symbol has no qualified name. -/
theorem Readable.not_stdlib {table : RelSchema} (h : Readable table) :
    table.2.2 ≠ .stdlibSymbol := by
  intro heq
  have := h.2.2
  rw [heq] at this
  exact absurd this (by decide +kernel)

variable {g : Graph schema}

/-- The neighbour that an edge into the symbol gives. -/
def relatedOfEdge (table : RelSchema) (e : Edge schema) : RelatedSymbol where
  qualifiedName := (e.source.props "qualified_name").asText
  name := (e.source.props "name").asText
  label := table.2.1

theorem related_rows (engine : Engine g) {escaped : Str} {table : RelSchema} {rows : List Row}
    (h : engine.answer (.query (relatedQuery .b .a escaped table)) = some rows) :
    ∃ part : List RelatedSymbol,
      part.Perm ((tableEdges g escaped table).map (relatedOfEdge table)) ∧
      ∀ related : List RelatedSymbol, related.length ≤ maxRelatedPerDirection →
        rows.foldl (pushRelated table.2.1) related =
          (related ++ part).take maxRelatedPerDirection := by
  obtain ⟨found, hperm, rfl⟩ := engine.sound _ _ h
  rw [found_edge _ rfl] at hperm
  have hedges : (g.edges.filter fun e =>
      InTable e table ∧ (relatedQuery .b .a escaped table).cond.holds e.get) =
        tableEdges g escaped table := by
    refine List.filter_congr fun e _ => decide_eq_decide.mpr (and_congr_right fun _ => ?_)
    simp only [relatedQuery, Cond.holds, Bool.or_eq_true, textIs_eq_iff, Denotes, Edge.get]
    exact or_comm
  rw [hedges] at hperm
  refine ⟨found.map fun get => relatedOfRow table.2.1
      (project [(.a, "name"), (.a, "qualified_name")] get), ?_, fun related hrelated => ?_⟩
  · refine (hperm.map _).trans ?_
    rw [List.map_map]
    exact List.Perm.refl _
  · change (List.take maxRelatedPerDirection (found.map (project _))).foldl _ related = _
    rw [foldl_pushRelated ?_ _ hrelated, List.map_take, take_append_take, List.map_map]
    · rfl
    · intro row hrow
      obtain ⟨get, -, rfl⟩ := List.mem_map.mp (List.mem_of_mem_take hrow)
      exact Nat.le_refl 2

theorem relatedStep_run (engine : Engine g) (havail : engine.Available) (escaped : Str)
    (start : String) (table : RelSchema) :
    ∃ part : List RelatedSymbol,
      part.Perm (if Traversed start table ∧ Readable table then
        (tableEdges g escaped table).map (relatedOfEdge table) else []) ∧
      ∀ related : List RelatedSymbol, related.length ≤ maxRelatedPerDirection →
        (relatedStep .b .a (fun table => table.2.1) escaped start related table).run
          engine.answer = (related ++ part).take maxRelatedPerDirection := by
  have hbinds := havail (.query (relatedQuery .b .a escaped table))
  rw [Statement.Binds, binds_relatedQuery] at hbinds
  by_cases h : Traversed start table ∧ Readable table
  · obtain ⟨rows, hrows⟩ := Option.isSome_iff_exists.mp (hbinds.mpr h.2)
    obtain ⟨part, hperm, hfold⟩ := related_rows engine hrows
    refine ⟨part, by rwa [if_pos h], fun related hrelated => ?_⟩
    rcases Nat.lt_or_ge related.length maxRelatedPerDirection with hlt | hge
    · simp [relatedStep, runQuery, Nat.not_le.mpr hlt, h.1.1, h.1.2, h.2.not_stdlib, hrows,
        hfold related hrelated]
    · simp [relatedStep, List.take_append_of_le_length hge, Nat.le_antisymm hrelated hge]
  · refine ⟨[], by rw [if_neg h], fun related hrelated => ?_⟩
    rw [List.append_nil, List.take_of_length_le hrelated]
    by_cases hstart : startsWith table.1 start = true
    · by_cases hsite : table.2.1 = .callSite
      · simp [relatedStep, hstart, hsite]
      · have hunread : ¬Readable table := fun hread => h ⟨⟨hstart, hsite⟩, hread⟩
        have hnone : engine.answer (.query (relatedQuery .b .a escaped table)) = none := by
          rw [← Option.not_isSome_iff_eq_none, hbinds]
          exact hunread
        simp [relatedStep, runQuery, hstart, hsite, hnone, apply_ite (Asks.run engine.answer)]
    · simp [relatedStep, hstart]

/-- The list holds the edges of the readable tables into the symbol, cut off at the cap. -/
theorem findRelatedIn_run (engine : Engine g) (havail : engine.Available) (escaped : Str)
    (start : String) :
    ∃ all : List RelatedSymbol,
      all.Perm ((dependentEdges g escaped (relTables.filter fun table =>
        Traversed start table ∧ Readable table)).map fun e => relatedOfEdge e.1 e.2) ∧
      (findRelatedIn escaped start).run engine.answer = all.take maxRelatedPerDirection := by
  have hpart (table : RelSchema) : ∃ part : List RelatedSymbol,
      part.Perm (if Traversed start table ∧ Readable table then
        (tableEdges g escaped table).map (relatedOfEdge table) else []) ∧
      ∀ related : List RelatedSymbol, related.length ≤ maxRelatedPerDirection →
        (relatedStep .b .a (fun table => table.2.1) escaped start related table).run
          engine.answer = (related ++ part).take maxRelatedPerDirection :=
    relatedStep_run engine havail escaped start table
  choose part hperm hstep using hpart
  refine ⟨relTables.flatMap part, ?_, ?_⟩
  · rw [dependentEdges]
    generalize relTables = tables
    induction tables with
    | nil => exact List.Perm.refl _
    | cons table tables ih =>
        rw [List.flatMap_cons]
        have htable := hperm table
        by_cases h : Traversed start table ∧ Readable table
        · rw [if_pos h] at htable
          rw [List.filter_cons_of_pos (by simpa using h), List.flatMap_cons, List.map_append,
            List.map_map]
          exact htable.append ih
        · rw [if_neg h] at htable
          rw [List.filter_cons_of_neg (by simpa using h), htable.eq_nil]
          exact ih
  · rw [findRelatedIn, Asks.run_foldlM]
    exact foldl_capped (fun acc table => hstep table acc) relTables (Nat.zero_le _)

/-! ### The two answers -/

/-- The directions in which both tools list the neighbours that depend on a symbol. -/
inductive Direction where
  | importedBy
  | calledBy
  | implementedBy
  | usedBy
deriving DecidableEq, Repr

/-- The prefix of the tables of a direction. -/
def Direction.start : Direction → String
  | .importedBy => "Imports_"
  | .calledBy => "Calls_"
  | .implementedBy => "Implements_"
  | .usedBy => "Uses_"

def SymbolContext.toward (ctx : SymbolContext) : Direction → List RelatedSymbol
  | .importedBy => ctx.importedBy
  | .calledBy => ctx.calledBy
  | .implementedBy => ctx.implementedBy
  | .usedBy => ctx.usedBy

/-- The section of `get_impact` for a direction. -/
def dependentsToward (deps : Dependents) : Direction → List ImpactNode
  | .importedBy => deps.importers
  | .calledBy => deps.callers
  | .implementedBy => deps.implementors
  | .usedBy => deps.users

/-- The node that an entry of a list is about. -/
def RelatedSymbol.node (r : RelatedSymbol) : Str × NodeLabel := (r.qualifiedName, r.label)

def impactNodeKey (n : ImpactNode) : Str × NodeLabel := (n.qualifiedName, n.label)

/-- The list holds the nodes of the other one, all of them where it is not full. -/
def UpToCap (shown all : List (Str × NodeLabel)) : Prop :=
  shown.Subperm all ∧ (shown.length < maxRelatedPerDirection → shown.Perm all)

/-- The answer of `get_context` for a name lists the same neighbours as the one of
`get_impact` for the symbol that the name resolves to. -/
def SameNeighbours (engine : Engine g) (input : Str) : Prop :=
  ∀ ctx, (getContext input).run engine.answer = .ok ctx → ∀ d : Direction,
    UpToCap ((ctx.toward d).map RelatedSymbol.node)
      ((dependentsToward ((getImpact ctx.qualifiedName).run engine.answer).dependents d).map
        impactNodeKey)

theorem toward_getContext {answer : GraphStatement → GraphAnswer} {input : Str}
    {ctx : SymbolContext} (h : (getContext input).run answer = .ok ctx) (d : Direction) :
    ctx.toward d = (findRelatedIn ctx.qualifiedName d.start).run answer := by
  rw [getContext, Asks.run_bind] at h
  cases hresolved : (resolveQualifiedName input).run answer with
  | error e => simp [hresolved] at h
  | ok resolved =>
      rw [hresolved, Asks.run_bind] at h
      cases hdetails : (findNodeDetails resolved).run answer with
      | error text => simp [hdetails] at h
      | ok details =>
          rw [hdetails] at h
          simp only [Asks.run_bind, Asks.run_pure, Except.ok.injEq] at h
          subst h
          cases d <;> rfl

theorem run_attach_keys (answer : GraphStatement → GraphAnswer) (callers : List ImpactNode) :
    (((attach callers).run answer).1).map impactNodeKey = callers.map impactNodeKey := by
  simp [attach, impactNodeKey, Function.comp_def]

theorem dependentsToward_getImpact (answer : GraphStatement → GraphAnswer) (target : Str)
    (d : Direction) :
    (dependentsToward ((getImpact target).run answer).dependents d).map impactNodeKey =
      ((reverseDependents target d.start).run answer).map impactNodeKey := by
  cases d with
  | calledBy =>
      simp only [getImpact, collectDependents, Asks.run_bind, Asks.run_pure, dependentsToward]
      exact run_attach_keys answer _
  | importedBy => simp [getImpact, collectDependents, dependentsToward, Direction.start]
  | implementedBy => simp [getImpact, collectDependents, dependentsToward, Direction.start]
  | usedBy => simp [getImpact, collectDependents, dependentsToward, Direction.start]

/-! ### When they agree -/

/-- The tables of a direction. -/
def directionTables (d : Direction) : List RelSchema := relTables.filter (Traversed d.start)

/-- The tables of a direction that `get_context` can read. -/
def readTables (d : Direction) : List RelSchema :=
  relTables.filter fun table => Traversed d.start table ∧ Readable table

/-- The node at the source of an edge, as `get_impact` names it. -/
def sourceKey (e : RelSchema × Edge schema) : Str × NodeLabel :=
  impactNodeKey (edgeNode 1 e.1 e.2)

theorem sourceKey_of_readable {e : RelSchema × Edge schema} (h : Readable e.1) :
    (relatedOfEdge e.1 e.2).node = sourceKey e := by
  have hqn : labelHasQualifiedName e.1.2.1 = true := (labelHasQualifiedName_iff _).mpr h.2.1
  simp only [RelatedSymbol.node, relatedOfEdge, sourceKey, impactNodeKey, edgeNode, hqn, if_true]

theorem Direction.isResolutionRel {d : Direction} {rel : String}
    (h : startsWith rel d.start = true) : isResolutionRel rel = true := by
  cases d <;> simp_all [Store.isResolutionRel, Direction.start]

theorem impact_perm (engine : Engine g) (havail : engine.Available) (target : Str)
    (d : Direction) :
    (((reverseDependents target d.start).run engine.answer).map impactNodeKey).Perm
      ((dependentEdges g target (directionTables d)).map sourceKey) := by
  have hanswered : (relTables.filter fun table => Traversed d.start table ∧
      (engine.answer (.query (reverseQuery target table))).isSome) = directionTables d := by
    refine List.filter_congr fun table htable => decide_eq_decide.mpr ?_
    refine and_iff_left_of_imp fun htraversed => (havail _).mpr (binds_reverseQuery target ?_)
    exact confidence_mem_relProperties table htable (Direction.isResolutionRel htraversed.1)
  have hperm := (reverseDependents_perm engine target d.start).map impactNodeKey
  rw [hanswered, List.map_map] at hperm
  exact hperm

theorem readTables_eq (d : Direction) :
    readTables d = (directionTables d).filter fun table => Readable table := by
  rw [readTables, directionTables, List.filter_filter]
  exact List.filter_congr fun table _ => by simp [and_comm]

/-- The edges that `get_context` reads are among those that `get_impact` reads. -/
theorem readEdges_sublist (target : Str) (d : Direction) :
    (dependentEdges g target (readTables d)).Sublist
      (dependentEdges g target (directionTables d)) := by
  rw [readTables_eq]
  exact List.filter_sublist.flatMap _

/-- An edge through which the node at its source depends on the symbol. -/
def DependsOn (d : Direction) (target : Str) (e : Edge schema) : Prop :=
  startsWith e.table d.start = true ∧ e.source.label ≠ .code .callSite ∧ Denotes target e.target

/-- Both ends of an edge declare what `get_context` binds on them. -/
def ReadableEdge (e : Edge schema) : Prop :=
  "name" ∈ schema.columns e.source.label ∧ "qualified_name" ∈ schema.columns e.source.label ∧
    "qualified_name" ∈ schema.columns e.target.label

/-- Every edge that `get_impact` reads for a direction is one that `get_context` reads, if
and only if each of them has ends that declare what is bound on them. -/
theorem length_eq_iff (target : Str) (d : Direction) :
    (dependentEdges g target (readTables d)).length =
        (dependentEdges g target (directionTables d)).length ↔
      ∀ e ∈ g.edges, DependsOn d target e → ReadableEdge e := by
  constructor
  · intro hlength e he hdepends
    obtain ⟨table, htable, hin⟩ := exists_table e
    have hsource : table.2.1 ≠ .callSite := fun heq => hdepends.2.1 (by rw [hin.2.1, heq])
    have hmem : (table, e) ∈ dependentEdges g target (directionTables d) := by
      refine List.mem_flatMap.mpr ⟨table, List.mem_filter.mpr ⟨htable, ?_⟩, ?_⟩
      · exact decide_eq_true ⟨hin.1 ▸ hdepends.1, hsource⟩
      · refine List.mem_map_of_mem (List.mem_filter.mpr ⟨he, decide_eq_true ⟨hin, hdepends.2.2⟩⟩)
    rw [← (readEdges_sublist target d).eq_of_length hlength] at hmem
    obtain ⟨other, hother, hpair⟩ := List.mem_flatMap.mp hmem
    obtain ⟨_, _, heq⟩ := List.mem_map.mp hpair
    obtain rfl : other = table := congrArg Prod.fst heq
    have hread := (of_decide_eq_true (List.mem_filter.mp hother).2).2
    simpa only [ReadableEdge, columns_schema, hin.2.1, hin.2.2] using (id hread : _ ∧ _ ∧ _)
  · intro h
    rw [readTables_eq]
    refine congrArg List.length (flatMap_filter fun table htable hunread => ?_)
    have htraversed := of_decide_eq_true (List.mem_filter.mp htable).2
    have hempty : tableEdges g target table = [] := by
      refine List.filter_eq_nil_iff.mpr fun e he hin => ?_
      obtain ⟨hin, hdenotes⟩ := of_decide_eq_true hin
      have hsource : e.source.label ≠ .code .callSite := by
        rw [hin.2.1]
        simpa using htraversed.2
      have hread := h e he ⟨by rw [hin.1]; exact htraversed.1, hsource, hdenotes⟩
      simp only [ReadableEdge, columns_schema, hin.2.1, hin.2.2] at hread
      exact of_decide_eq_false hunread hread
    rw [hempty, List.map_nil]

/-- What the two lists of a direction hold of the edges into the symbol. -/
theorem upToCap_iff {shown all read dependents : List (Str × NodeLabel)}
    (hshown : shown = read.take maxRelatedPerDirection) (hsub : read.Subperm all)
    (hall : dependents.Perm all) :
    UpToCap shown dependents ↔
      maxRelatedPerDirection ≤ read.length ∨ read.length = all.length := by
  have htake : shown.Subperm dependents := by
    rw [hshown, hall.subperm_left]
    exact (List.take_sublist _ _).subperm.trans hsub
  rw [UpToCap, and_iff_right htake]
  rcases Nat.lt_or_ge read.length maxRelatedPerDirection with hlt | hge
  · have heq : shown = read := by rw [hshown, List.take_of_length_le hlt.le]
    rw [heq, or_iff_right (Nat.not_le.mpr hlt)]
    constructor
    · intro h
      exact ((h hlt).trans hall).length_eq
    · intro hlength _
      exact (hsub.perm_of_length_le hlength.ge).trans hall.symm
  · refine iff_of_true (fun hlt => absurd hlt ?_) (Or.inl hge)
    rw [hshown, List.length_take_of_le hge]
    exact Nat.lt_irrefl _

/-- The two tools give the same neighbours of a symbol, up to the cap, exactly where for each
direction the edges that `get_context` can read fill its list, or every edge into the symbol
has ends that declare the properties that it binds on them. -/
theorem context_matches_impact_iff (engine : Engine g) (havail : engine.Available) (input : Str) :
    SameNeighbours engine input ↔
      ∀ ctx, (getContext input).run engine.answer = .ok ctx → ∀ d : Direction,
        maxRelatedPerDirection ≤ (dependentEdges g ctx.qualifiedName (readTables d)).length ∨
          ∀ e ∈ g.edges, DependsOn d ctx.qualifiedName e → ReadableEdge e := by
  refine forall_congr' fun ctx => forall_congr' fun hctx => forall_congr' fun d => ?_
  obtain ⟨all, hperm, hrun⟩ := findRelatedIn_run engine havail ctx.qualifiedName d.start
  have hread : (all.map RelatedSymbol.node).Perm
      ((dependentEdges g ctx.qualifiedName (readTables d)).map sourceKey) := by
    refine (hperm.map _).trans (List.Perm.of_eq ?_)
    rw [List.map_map]
    refine List.map_congr_left fun e he => sourceKey_of_readable ?_
    obtain ⟨table, htable, hmem⟩ := List.mem_flatMap.mp he
    obtain ⟨_, _, rfl⟩ := List.mem_map.mp hmem
    exact (of_decide_eq_true (List.mem_filter.mp htable).2).2
  have hsub := hread.subperm.trans ((readEdges_sublist ctx.qualifiedName d).map sourceKey).subperm
  have hall := impact_perm engine havail ctx.qualifiedName d
  rw [toward_getContext hctx, hrun, dependentsToward_getImpact, List.map_take,
    upToCap_iff rfl hsub hall, hread.length_eq, List.length_map, List.length_map, length_eq_iff]

/-! ### A file that imports a function -/

/-- `src/b.rs::run`. -/
def runNode : Node schema :=
  Node.of schema (.code .function)
    [("id", .text "src/b.rs::run".toList), ("name", .text "run".toList),
      ("qualified_name", .text "src/b.rs::run".toList)]

/-- `src/c.rs::main`. -/
def mainNode : Node schema :=
  Node.of schema (.code .function)
    [("id", .text "src/c.rs::main".toList), ("name", .text "main".toList),
      ("qualified_name", .text "src/c.rs::main".toList)]

/-- `src/a.rs`. -/
def fileNode : Node schema :=
  Node.of schema (.code .file)
    [("id", .text "src/a.rs".toList), ("name", .text "a.rs".toList)]

/-- The function `main` calls `run`. -/
def callGraph : Graph schema where
  nodes := [runNode, mainNode]
  edges := [{
    table := "Calls_Function_Function"
    source := mainNode
    target := runNode
    props := fun _ => .null
    table_mem := by decide +kernel }]
  ends_mem := by simp

/-- The file imports `run`. -/
def importGraph : Graph schema where
  nodes := [runNode, fileNode]
  edges := [{
    table := "Imports_File_Function"
    source := fileNode
    target := runNode
    props := fun _ => .null
    table_mem := by decide +kernel }]
  ends_mem := by simp

theorem context_matches_impact_for_a_caller :
    ((getContext "src/b.rs::run".toList).run callGraph.engine.answer).map
        (fun ctx => ctx.calledBy.map RelatedSymbol.node) =
      .ok [("src/c.rs::main".toList, .function)] ∧
      SameNeighbours callGraph.engine "src/b.rs::run".toList := by
  refine ⟨by decide +kernel, ?_⟩
  refine (context_matches_impact_iff callGraph.engine (Graph.engine_available _) _).mpr ?_
  intro ctx _ d
  refine Or.inr fun e he _ => ?_
  obtain rfl := List.mem_singleton.mp he
  exact ⟨by decide +kernel, by decide +kernel, by decide +kernel⟩

/-- `get_impact` lists the file among the importers, `get_context` lists nothing. -/
theorem context_misses_a_file_importer :
    ¬ SameNeighbours importGraph.engine "src/b.rs::run".toList := by
  intro h
  have hctx : ((getContext "src/b.rs::run".toList).run importGraph.engine.answer).map
      (fun ctx => (ctx.qualifiedName, ctx.importedBy)) = .ok ("src/b.rs::run".toList, []) := by
    decide +kernel
  have himpact : ((getImpact "src/b.rs::run".toList).run
      importGraph.engine.answer).dependents.importers.map impactNodeKey =
        [("src/a.rs".toList, .file)] := by
    decide +kernel
  cases hrun : (getContext "src/b.rs::run".toList).run importGraph.engine.answer with
  | error e =>
      rw [hrun] at hctx
      cases hctx
  | ok ctx =>
      rw [hrun] at hctx
      simp only [Except.map, Except.ok.injEq, Prod.mk.injEq] at hctx
      have hlists := (h ctx hrun .importedBy).2
      rw [SymbolContext.toward, hctx.1, hctx.2, dependentsToward, himpact] at hlists
      exact absurd (hlists (by decide)).length_eq (by decide)

end AutomatisedPipeline.Search
