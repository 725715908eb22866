import AutomatisedPipeline.Indexer.Incremental

/-!
The part of a graph that one file accounts for: its File node, the edge from its
directory, its symbols and the structure among them. Indexing a file adds its
part and nothing else, whatever the state holds of files that are apart from it.
-/

namespace AutomatisedPipeline.Indexer

open Text Store

section Part

variable (ps : Parser) (policy : ParsePolicy) (f : SourceFile)

def parseOf : Option (Language × ParseResult) :=
  (parseSource ps (.of policy f) f f.relativePath).2

/-- The symbols kept of a file. -/
def acceptedOf : List ExtractedNode :=
  match parseOf ps policy f with
  | none => []
  | some (lang, result) =>
      acceptedNodes lang (FileScope.of policy f).restrictToPublicApi [] [] result.nodes

def symbolRows : List Node :=
  match parseOf ps policy f with
  | none => []
  | some (lang, _) => (acceptedOf ps policy f).map (Node.symbol · lang)

def parseErrorsOf : Nat := ((parseOf ps policy f).map fun p => p.2.parseErrors).getD 0

def symbolLabels : List (Str × Label) :=
  (acceptedOf ps policy f).map fun node => (node.qualifiedName, Label.symbol node.label)

/-- The edges staged for the references of a file. -/
def refEdges : List Edge :=
  match parseOf ps policy f with
  | none => []
  | some (_, result) =>
      result.refs.filterMap (parsedEdge (symbolLabels ps policy f ++ [(f.relativePath, .file)]))

def fileGraph : GraphStore := ⟨{fileNode f f.relativePath (parseErrorsOf ps policy f)}, 0⟩

/-- The edges that are staged and have both ends. -/
def symbolGraph : GraphStore :=
  let rows : GraphStore := ⟨symbolRows ps policy f, 0⟩
  ⟨symbolRows ps policy f,
    (refEdges ps policy f : Multiset Edge).filter (fileGraph ps policy f + rows).Live⟩

def parentEdges : List Edge :=
  if f.dirs = [] then []
  else [containsEdge containsDirFile (pathString f.dirs) f.relativePath]

def parentGraph : GraphStore := ⟨0, parentEdges f⟩

/-- All that the graph has of the file itself. -/
def filePart : GraphStore := fileGraph ps policy f + parentGraph f + symbolGraph ps policy f

end Part

/-! ### Symbols -/

theorem acceptedNodes_congr {language : Language} {restrict : Bool} {nodes : List ExtractedNode}
    {dropped : List Str} {seen seen' : List (SymbolLabel × Str)}
    (h : ∀ node ∈ nodes, node.seenKey ∈ seen ↔ node.seenKey ∈ seen') :
    acceptedNodes language restrict dropped seen nodes =
      acceptedNodes language restrict dropped seen' nodes := by
  induction nodes generalizing dropped seen seen' with
  | nil => rfl
  | cons node rest ih =>
      have hrest : ∀ n ∈ rest, n.seenKey ∈ seen ↔ n.seenKey ∈ seen' :=
        fun n hn => h n (List.mem_cons_of_mem _ hn)
      have hcons : ∀ n ∈ rest, n.seenKey ∈ node.seenKey :: seen ↔
          n.seenKey ∈ node.seenKey :: seen' := by
        intro n hn
        rw [List.mem_cons, List.mem_cons, hrest n hn]
      simp only [acceptedNodes, h node List.mem_cons_self, ih hrest, ih hcons]

theorem mem_acceptedNodes {language : Language} {restrict : Bool} {nodes : List ExtractedNode}
    {dropped : List Str} {seen : List (SymbolLabel × Str)} {node : ExtractedNode}
    (h : node ∈ acceptedNodes language restrict dropped seen nodes) :
    node ∈ nodes ∧ node.seenKey ∉ seen := by
  induction nodes generalizing dropped seen with
  | nil => simp [acceptedNodes] at h
  | cons first rest ih =>
      simp only [acceptedNodes] at h
      split at h
      · exact ⟨List.mem_cons_of_mem _ (ih h).1, (ih h).2⟩
      · split at h
        · exact ⟨List.mem_cons_of_mem _ (ih h).1, (ih h).2⟩
        · rename_i hnew
          rcases List.mem_cons.mp h with rfl | h
          · exact ⟨List.mem_cons_self, hnew⟩
          · obtain ⟨hmem, hseen⟩ := ih h
            exact ⟨List.mem_cons_of_mem _ hmem, fun hold => hseen (List.mem_cons_of_mem _ hold)⟩

theorem acceptedNodes_nodup {language : Language} {restrict : Bool} (nodes : List ExtractedNode)
    (dropped : List Str) (seen : List (SymbolLabel × Str)) :
    ((acceptedNodes language restrict dropped seen nodes).map ExtractedNode.seenKey).Nodup := by
  induction nodes generalizing dropped seen with
  | nil => simp [acceptedNodes]
  | cons first rest ih =>
      simp only [acceptedNodes]
      split
      · exact ih _ _
      · split
        · exact ih _ _
        · rw [List.map_cons, List.nodup_cons]
          refine ⟨?_, ih _ _⟩
          intro hmem
          obtain ⟨node, hnode, hkey⟩ := List.mem_map.mp hmem
          exact (mem_acceptedNodes hnode).2 (hkey ▸ List.mem_cons_self)

section Facts

variable {ps : Parser} {policy : ParsePolicy} {f : SourceFile}

/-- A parse comes from the parser. -/
theorem parseOf_some {lang : Language} {result : ParseResult}
    (h : parseOf ps policy f = some (lang, result)) :
    ∃ source, ps.parseFile source f.relativePath lang = .parsed result := by
  unfold parseOf parseSource at h
  dsimp only at h
  split at h
  · cases h
  · split at h
    · cases h
    · rename_i source _
      split at h
      · cases h
      · split at h
        · cases h
        · cases h
        · rename_i hparse
          cases h
          exact ⟨source, hparse⟩

theorem within_of_mem_acceptedOf {node : ExtractedNode} (h : node ∈ acceptedOf ps policy f) :
    Within f.relativePath node.qualifiedName := by
  unfold acceptedOf at h
  split at h
  · simp at h
  · rename_i lang result hparse
    obtain ⟨source, hsource⟩ := parseOf_some hparse
    exact ps.nodesWithin source f.relativePath lang result hsource node (mem_acceptedNodes h).1

theorem mem_symbolRows {n : Node} (h : n ∈ symbolRows ps policy f) :
    ∃ node ∈ acceptedOf ps policy f, n.key = (.symbol node.label, node.qualifiedName) := by
  unfold symbolRows at h
  split at h
  · simp at h
  · obtain ⟨node, hnode, rfl⟩ := List.mem_map.mp h
    exact ⟨node, hnode, rfl⟩

/-- Every symbol of a file has a key of its own, in the scope of the file. -/
theorem symbolRows_nodup : ((symbolRows ps policy f).map Node.key).Nodup := by
  unfold symbolRows
  split
  · simp
  · rename_i lang result hparse
    have hseen : ((acceptedOf ps policy f).map ExtractedNode.seenKey).Nodup := by
      rw [acceptedOf, hparse]
      exact acceptedNodes_nodup _ _ _
    rw [List.map_map]
    refine List.Nodup.of_map (fun k : Key => (k, k.2)) ?_
    have hinj : Function.Injective fun k : SymbolLabel × Str =>
        (((Label.symbol k.1, k.2) : Key), k.2) := by
      rintro ⟨l, id⟩ ⟨l', id'⟩ heq
      simpa using heq
    have := hseen.map hinj
    rwa [List.map_map] at this ⊢

theorem parsedEdge_table {labels : List (Str × Label)} {ref : ExtractedRef} {e : Edge}
    (h : parsedEdge labels ref = some e) :
    e.table ∈ structuralTables ∧ e.source = ref.fromQualifiedName ∧
      e.target = ref.toQualifiedName ∧ ref.kind ≠ .deferred := by
  have hrouted : ∀ {kind source target table}, routed kind source target = some table →
      table ∈ structuralTables := by
    intro kind source target table hrouted
    unfold routed at hrouted
    split at hrouted
    · dsimp only at hrouted
      split at hrouted
      · rename_i hknown
        cases hrouted
        exact of_decide_eq_true hknown
      · cases hrouted
    · cases hrouted
  obtain ⟨table, htable, rfl⟩ := Option.map_eq_some_iff.mp h
  cases hkind : ref.kind with
  | defines =>
      rw [hkind] at htable
      exact ⟨hrouted htable, rfl, rfl, by simp⟩
  | hasMethod =>
      rw [hkind] at htable
      exact ⟨hrouted htable, rfl, rfl, by simp⟩
  | hasField =>
      rw [hkind] at htable
      exact ⟨hrouted htable, rfl, rfl, by simp⟩
  | hasVariant =>
      rw [hkind] at htable
      cases htable
      exact ⟨by simp [structuralTables], rfl, rfl, by simp⟩
  | deferred =>
      rw [hkind] at htable
      cases htable

/-- Structure stays in the file, touches no directory and ends in a symbol. -/
structure IsStructure (rel : Str) (e : Edge) : Prop where
  source : Owned rel e.source
  target : Owned rel e.target
  sourceLabel : e.table.source ≠ .directory
  targetLabel : e.table.target ≠ .directory
  targetFile : e.table.target ≠ .file
  resolution : isResolutionTable e.table = false

theorem isStructure_of_mem_refEdges {e : Edge} (h : e ∈ refEdges ps policy f) :
    IsStructure f.relativePath e := by
  unfold refEdges at h
  split at h
  · simp at h
  · rename_i lang result hparse
    obtain ⟨source, hsource⟩ := parseOf_some hparse
    obtain ⟨ref, href, hedge⟩ := List.mem_filterMap.mp h
    obtain ⟨htable, hfrom, hto, hkind⟩ := parsedEdge_table hedge
    obtain ⟨hownFrom, hownTo⟩ :=
      ps.refsOwned source f.relativePath lang result hsource ref href hkind
    have htables : ∀ t ∈ structuralTables, t.source ≠ .directory ∧ t.target ≠ .directory ∧
        t.target ≠ .file ∧ isResolutionTable t = false := by decide
    obtain ⟨hsource, htarget, hfile, hresolution⟩ := htables e.table htable
    exact ⟨hfrom ▸ hownFrom, hto ▸ hownTo, hsource, htarget, hfile, hresolution⟩

end Facts

/-! ### Labels -/

/-- The labels give the names in the scope of a file the same tables. -/
def SameScope (rel : Str) (labels labels' : List (Str × Label)) : Prop :=
  ∀ id l, Owned rel id → l ≠ .directory → ((id, l) ∈ labels ↔ (id, l) ∈ labels')

theorem lookupLabelAmong_congr {rel id : Str} {labels labels' : List (Str × Label)}
    (h : SameScope rel labels labels') (hid : Owned rel id) {candidates : List Label}
    (hcandidates : .directory ∉ candidates) :
    lookupLabelAmong id labels candidates = lookupLabelAmong id labels' candidates := by
  have hfilter : (candidates.filter fun c => (id, c) ∈ labels) =
      candidates.filter fun c => (id, c) ∈ labels' := by
    refine List.filter_congr fun c hc => ?_
    have hne : c ≠ .directory := fun heq => hcandidates (heq ▸ hc)
    simp only [h id c hid hne]
  simp only [lookupLabelAmong, hfilter]

theorem parsedEdge_congr {rel : Str} {labels labels' : List (Str × Label)}
    (h : SameScope rel labels labels') {ref : ExtractedRef}
    (hown : ref.kind ≠ .deferred →
      Owned rel ref.fromQualifiedName ∧ Owned rel ref.toQualifiedName) :
    parsedEdge labels ref = parsedEdge labels' ref := by
  unfold parsedEdge
  congr 1
  unfold resolveEdgeTable
  cases hkind : ref.kind with
  | defines =>
      obtain ⟨hfrom, hto⟩ := hown (by simp [hkind])
      simp only [resolveDefinesTable]
      rw [lookupLabelAmong_congr h hfrom (by simp), lookupLabelAmong_congr h hto (by simp)]
  | hasMethod =>
      obtain ⟨hfrom, _⟩ := hown (by simp [hkind])
      simp only [resolveHasMethodTable]
      rw [lookupLabelAmong_congr h hfrom (by simp)]
  | hasField =>
      obtain ⟨hfrom, _⟩ := hown (by simp [hkind])
      simp only [resolveHasFieldTable]
      rw [lookupLabelAmong_congr h hfrom (by simp)]
  | hasVariant => rfl
  | deferred => rfl

/-! ### One file -/

/-- The state knows the File node of the path and nothing in its scope. -/
structure Unseen (rel : Str) (st : IndexState) : Prop where
  file : (rel, .file) ∈ st.labels
  labels : ∀ id l, (id, l) ∈ st.labels → l ≠ .directory → Owned rel id → (id, l) = (rel, .file)
  seen : ∀ k ∈ st.seenNodeIds, ¬Within rel k.2

theorem setFileParseErrors_other {rel : Str} {errors : Nat} {n : Node}
    (h : n.key ≠ (.file, rel)) : setFileParseErrors rel errors n = n := by
  cases n with
  | directory id name => rfl
  | file id name ext size old =>
      have hne : id ≠ rel := by
        rintro rfl
        exact h rfl
      simp [setFileParseErrors, hne]
  | symbol node language => rfl

/-- Parsing a file adds its symbols and its references to the batch and its parse
errors to its File node. -/
theorem indexSingleFile_eq (ps : Parser) (policy : ParsePolicy) {f : SourceFile} {st : IndexState}
    {S : GraphStore} (hstore : st.store = S + ⟨{fileNode f f.relativePath 0}, 0⟩)
    (hS : ∀ n ∈ S.nodes, n.key ≠ (.file, f.relativePath)) (hst : Unseen f.relativePath st) :
    (indexSingleFile ps (.of policy f) f f.relativePath st).1 =
      { store := S + fileGraph ps policy f
        batch :=
          { nodes := st.batch.nodes ++ symbolRows ps policy f
            edges := st.batch.edges ++ refEdges ps policy f }
        labels := symbolLabels ps policy f ++ st.labels
        seenNodeIds := (acceptedOf ps policy f).map ExtractedNode.seenKey ++ st.seenNodeIds
        dirNodesInserted := st.dirNodesInserted } := by
  have hparse : parseOf ps policy f = (parseSource ps (.of policy f) f f.relativePath).2 := rfl
  unfold indexSingleFile
  split
  · rename_i outcome hsource
    rw [hsource] at hparse
    simp [fileGraph, symbolRows, refEdges, symbolLabels, acceptedOf, parseErrorsOf, hparse, ← hstore]
  · rename_i outcome lang result hsource
    rw [hsource] at hparse
    obtain ⟨source, hresult⟩ := parseOf_some hparse
    have haccepted : acceptedNodes lang (FileScope.of policy f).restrictToPublicApi []
        st.seenNodeIds result.nodes = acceptedOf ps policy f := by
      rw [acceptedOf, hparse]
      refine acceptedNodes_congr fun node hnode => ?_
      have hwithin := ps.nodesWithin source f.relativePath lang result hresult node hnode
      constructor
      · intro hmem
        exact absurd hwithin (hst.seen _ hmem)
      · intro hmem
        simp at hmem
    have hscope : SameScope f.relativePath (symbolLabels ps policy f ++ st.labels)
        (symbolLabels ps policy f ++ [(f.relativePath, .file)]) := by
      intro id l hid hl
      rw [List.mem_append, List.mem_append, List.mem_singleton]
      constructor
      · rintro (hmem | hmem)
        · exact .inl hmem
        · exact .inr (hst.labels id l hmem hl hid)
      · rintro (hmem | hmem)
        · exact .inl hmem
        · exact .inr (hmem ▸ hst.file)
    have hrefs : result.refs.filterMap (parsedEdge (symbolLabels ps policy f ++ st.labels)) =
        refEdges ps policy f := by
      rw [refEdges, hparse]
      refine List.filterMap_congr fun ref href => ?_
      exact parsedEdge_congr hscope
        (ps.refsOwned source f.relativePath lang result hresult ref href)
    have hfile : (if 0 < result.parseErrors then
        st.store.updateNodes (setFileParseErrors f.relativePath result.parseErrors) else st.store) =
        S + fileGraph ps policy f := by
      have herrors : parseErrorsOf ps policy f = result.parseErrors := by
        rw [parseErrorsOf, hparse]
        rfl
      rw [fileGraph, herrors, hstore]
      by_cases hpos : 0 < result.parseErrors
      · rw [if_pos hpos]
        refine Graph.updateNodes_singleton (fun n hn => setFileParseErrors_other (hS n hn)) ?_
        simp [fileNode, setFileParseErrors]
      · rw [if_neg hpos, Nat.eq_zero_of_not_pos hpos]
    simp only [accumulateParsedNodes, accumulateParsedEdges, haccepted, hfile]
    simp only [symbolRows, hparse]
    rw [← hrefs]
    rfl

end AutomatisedPipeline.Indexer
