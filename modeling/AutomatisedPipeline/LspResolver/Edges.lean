import AutomatisedPipeline.LspClient.Uri
import AutomatisedPipeline.LspResolver.Sites
import AutomatisedPipeline.Parser.WalkCtx
import AutomatisedPipeline.Resolver.CallerLabel

/-!
What becomes of a definition answer (`lsp_edge` of `lsp_resolver/edges.rs`).

The node that starts on the line of the answer is found by an index that keeps the last node of a
line, and it is refused if its name is not the identifier of the call site. The name is read off its
id, from which only the gates are stripped (`shownName_id`): the number and the line that other ids
end in stay. So the nodes of a line are refused by their names exactly if the node that is kept has
neither, and all of them agree on the identifier (`nameMismatch_iff`).
-/

namespace AutomatisedPipeline.LspResolver

open Text Impact
open Calls (CallTable callTables callRelTable callSiteRelTable)
open Cfg (CfgPredicate TwinView callerGates closingParen twinMark verdict)
open AutomatisedPipeline.Parser (atLine qual)
open Resolver (SymbolLabel extractFilePrefixOrSelf)

/-! ### The answer and the index -/

/-- `DefinitionResult`. -/
structure DefinitionResult where
  uri : Str
  startLine : Nat
deriving DecidableEq, Repr

/-- `NodePosition`. -/
structure NodePosition where
  id : Str
  label : SymbolLabel
deriving DecidableEq, Repr

/-- `n.id, n.qualified_name, n.start_line`. -/
structure NodeRow where
  id : Str
  qualifiedName : Str
  startLine : Nat
deriving DecidableEq, Repr

/-- The labels of `build_node_position_index`. -/
def positionLabels : List SymbolLabel := [.function, .method, .struct, .enum, .trait]

/-- A file and a line of it. -/
abbrev Key : Type := Str × Nat

def NodeRow.key (row : NodeRow) : Key := (extractFilePrefixOrSelf row.qualifiedName, row.startLine)

/-- `build_node_position_index`, over the rows of each label. -/
def buildNodePositionIndex (rows : SymbolLabel → List NodeRow) : Key → Option NodePosition :=
  positionLabels.foldl
    (fun index label => (rows label).foldl
      (fun index row => Function.update index row.key (some ⟨row.id, label⟩)) index)
    fun _ => none

/-! ### The edge -/

/-- `NotAdded`. -/
inductive NotAdded where
  | external
  | noNode
  | nameMismatch
  | noRelTable
  | writeFailed
deriving DecidableEq, Repr

/-- `NotAdded::as_str`. -/
def NotAdded.asStr : NotAdded → Str
  | external => "external_definition".toList
  | noNode => "no_node_at_definition".toList
  | nameMismatch => "name_mismatch".toList
  | noRelTable => "no_rel_table".toList
  | writeFailed => "write_failed".toList

/-- `LspEdge`. -/
inductive LspEdge where
  | added
  | compiledOutTwin
  | notAdded (reason : NotAdded)
deriving DecidableEq, Repr

/-- `SiteContext`, with what the file system and the database answer: `canonicalize`, and whether
`insert_edge_if_absent` succeeds for a table and two ids. -/
structure SiteContext where
  nodeIndex : Key → Option NodePosition
  canonicalRoot : Str
  twins : TwinView
  canonicalize : Str → Option Str
  insertEdgeIfAbsent : CallTable → Str → Str → Bool

/-- A piece of a path that is no component. -/
def isSkipped (piece : Str) : Bool := piece = [] ∨ piece = ['.']

/-- `Path::strip_prefix`, over the pieces between the separators. -/
def stripComponents : List Str → List Str → Option (List Str)
  | [], pieces => some ((pieces.dropWhile isSkipped).reverse.dropWhile isSkipped).reverse
  | part :: parts, pieces =>
      match pieces.dropWhile isSkipped with
      | [] => none
      | piece :: rest => if piece = part then stripComponents parts rest else none

/-- `uri_to_relative_path`. -/
def uriToRelativePath (canonicalize : Str → Option Str) (uri canonicalRoot : Str) : Option Str :=
  (LspClient.fileUriToPath uri).bind fun abs =>
    let abs := (canonicalize abs).getD abs
    (stripComponents (components canonicalRoot) (abs.splitOn '/')).map (join ['/'])

/-- The name that an id shows: its last segment, without its gates. -/
def shownName (id : Str) : Str := stripCfgGates (afterLast "::".toList id)

/-- `resolved_target_matches`. -/
def resolvedTargetMatches (target : NodePosition) (site : UnresolvedCallSite) : Bool :=
  shownName target.id == site.identifierName

/-- `is_compiled_out`. -/
def isCompiledOut (view : TwinView) (caller id : Str) : Bool :=
  verdict view (callerGates view caller) id id = .notCompiled

/-- `insert_lsp_edge`. -/
def insertLspEdge (ctx : SiteContext) (relType : CallTable) (site : UnresolvedCallSite)
    (target : NodePosition) : Bool :=
  if relType ∉ callTables then false
  else if ctx.insertEdgeIfAbsent relType site.callerQn target.id = false then false
  else
    match callSiteRelTable target.label with
    | some siteRel => ctx.insertEdgeIfAbsent siteRel site.id target.id
    | none => true

/-- `lsp_edge`. -/
def lspEdge (site : UnresolvedCallSite) (answer : DefinitionResult) (ctx : SiteContext) : LspEdge :=
  match uriToRelativePath ctx.canonicalize answer.uri ctx.canonicalRoot with
  | none => .notAdded .external
  | some filePath =>
      match ctx.nodeIndex (filePath, answer.startLine + 1) with
      | none => .notAdded .noNode
      | some target =>
          if resolvedTargetMatches target site = false then .notAdded .nameMismatch
          else if isCompiledOut ctx.twins site.id target.id then .compiledOutTwin
          else
            match callRelTable site.callerLabel target.label with
            | none => .notAdded .noRelTable
            | some relType =>
                if insertLspEdge ctx relType site target then .added else .notAdded .writeFailed

/-- The names are compared where a node of the line is found. -/
theorem lspEdge_eq_nameMismatch_iff {site : UnresolvedCallSite} {answer : DefinitionResult}
    {ctx : SiteContext} {file : Str}
    (hfile : uriToRelativePath ctx.canonicalize answer.uri ctx.canonicalRoot = some file) :
    lspEdge site answer ctx = .notAdded .nameMismatch ↔
      ∃ target, ctx.nodeIndex (file, answer.startLine + 1) = some target ∧
        shownName target.id ≠ site.identifierName := by
  rw [lspEdge, hfile]
  cases hnode : ctx.nodeIndex (file, answer.startLine + 1) with
  | none => simp [hnode]
  | some target =>
      simp only [hnode, Option.some.injEq, exists_eq_left', resolvedTargetMatches]
      by_cases hname : shownName target.id = site.identifierName
      · simp only [hname, beq_self_eq_true, Bool.true_eq_false, if_false, ne_eq, not_true, iff_false]
        split
        · simp
        · split
          · simp
          · split <;> simp
      · simp [hname]

/-! ### Ids -/

/-- How the id of a definition goes on behind its name: not at all, with a number of the walk, or with
the gate that tells it from its twins, which is empty for a twin without one. -/
inductive IdScheme where
  | plain
  | numbered (seq : Nat)
  | gated (gate : Option CfgPredicate)

/-- The text of a gate. -/
def gateText (gate : Option CfgPredicate) : Str :=
  match gate with
  | none => []
  | some gate => gate.canonical.compact

def IdScheme.suffix : IdScheme → Str
  | plain => []
  | numbered seq => '#' :: digits seq
  | gated gate => twinMark ++ (gateText gate ++ [')'])

/-- A definition of a file, with the id of its scope. A walk that has given out its qualified name
before puts the line behind it. The name is one segment of a path, and holds no mark of a gate. -/
structure Definition where
  scheme : IdScheme
  scope : Str
  name : Str
  startLine : Nat
  isRepeated : Bool
  isSegment : ¬ "::".toList <:+: ':' :: name
  isMarkFree : ¬ twinMark <:+: name

namespace Definition

/-- The line behind a name that has been given out before. -/
def line (d : Definition) : Str := if d.isRepeated then '@' :: digits d.startLine else []

def id (d : Definition) : Str := qual d.scope d.name ++ (d.scheme.suffix ++ d.line)

/-- The row of the node, whose id is its qualified name. -/
def row (d : Definition) : NodeRow := ⟨d.id, d.id, d.startLine⟩

/-- No number and no line stand behind the name. -/
def Unmarked (d : Definition) : Prop := (∀ seq, d.scheme ≠ .numbered seq) ∧ d.isRepeated = false

end Definition

/-- A walk that puts the suffixes of a scheme behind its qualified names gives the ids of
definitions. -/
theorem exists_definition_of_emitDef (schemeOf : Nat → IdScheme) {ctx ctx' : Parser.WalkCtx}
    {scope name id : Str} {startLine : Nat} (hsegment : ¬ "::".toList <:+: ':' :: name)
    (hmark : ¬ twinMark <:+: name)
    (h : Parser.emitDef (fun scope name seq => qual scope name ++ (schemeOf seq).suffix) ctx scope
      name startLine = (some id, ctx')) :
    ∃ d : Definition, d.name = name ∧ d.startLine = startLine ∧ d.id = id := by
  unfold Parser.emitDef at h
  split at h
  · cases h
  · obtain ⟨seq, ctx₁, hadvance⟩ : ∃ seq ctx₁, ctx.advance = (seq, ctx₁) := ⟨_, _, rfl⟩
    rw [hadvance] at h
    have hid := congrArg Prod.fst h
    by_cases hmem : qual scope name ++ (schemeOf seq).suffix ∈ ctx₁.emittedQns
    · refine ⟨⟨schemeOf seq, scope, name, startLine, true, hsegment, hmark⟩, rfl, rfl, ?_⟩
      simpa [Parser.WalkCtx.dedup_of_mem hmem, Definition.id, Definition.line, atLine] using hid
    · refine ⟨⟨schemeOf seq, scope, name, startLine, false, hsegment, hmark⟩, rfl, rfl, ?_⟩
      simpa [Parser.WalkCtx.dedup_of_notMem hmem, Definition.id, Definition.line] using hid

/-! ### The name that an id shows -/

/-- A text that does not occur in `x` does not occur in front of a character it cannot go on with,
if it does not occur behind either. -/
theorem not_infix_append {needle x rest : Str} {c : Char} (hc : c ∉ needle.tail)
    (hx : ¬ needle <:+: x) (hrest : ¬ needle <:+: c :: rest) : ¬ needle <:+: x ++ c :: rest :=
  fun h => (infix_append_cases hc h).elim hx hrest

theorem not_infix_of_notMem {needle s : Str} {c : Char} (hc : c ∈ needle) (hs : c ∉ s) :
    ¬ needle <:+: s :=
  fun h => hs (h.subset hc)

theorem balanced_gateText (gate : Option CfgPredicate) : Balanced (gateText gate) := by
  cases gate with
  | none => exact .nil
  | some gate => exact balanced_compact gate.canonical

theorem colon_notMem_encode (text : Str) : ':' ∉ Cfg.encode text :=
  fun h => absurd (Cfg.encode_wordBytes text _ h) (by decide)

/-- No colon is in the text of a predicate. -/
theorem colon_notMem_compact (p : CfgPredicate) : ':' ∉ p.compact := by
  have happlied : ∀ {name s : Str}, ':' ∉ name → ':' ∉ s → ':' ∉ name ++ '(' :: (s ++ [')']) := by
    intro name s hname hs
    simp [hname, hs]
  have hlist : ∀ items : List CfgPredicate, (∀ q ∈ items, ':' ∉ q.compact) →
      ':' ∉ join [','] (CfgPredicate.compactParts items) := by
    intro items h hmem
    rw [compactParts_eq_map] at hmem
    rcases of_mem_join hmem with hsep | ⟨part, hpart, hin⟩
    · exact absurd hsep (by decide)
    · obtain ⟨q, hq, rfl⟩ := List.mem_map.mp hpart
      exact h q hq hin
  induction p using CfgPredicate.induct with
  | feature name =>
      have hkey : ':' ∉ Cfg.featureKey ++ ['='] := by decide
      exact fun h => (List.mem_append.mp h).elim (fun h => hkey (List.mem_append_left _ h))
        fun h => (List.mem_append.mp h).elim (fun h => hkey (List.mem_append_right _ h))
          (colon_notMem_encode name)
  | option key value =>
      cases value with
      | none => exact colon_notMem_encode key
      | some value =>
          have hkey := colon_notMem_encode key
          have hvalue := colon_notMem_encode value
          simp [CfgPredicate.compact, hkey, hvalue]
  | all items ih => exact happlied (by decide) (hlist items ih)
  | any items ih => exact happlied (by decide) (hlist items ih)
  | not inner ih => exact happlied (by decide) ih

theorem colon_notMem_gateText (gate : Option CfgPredicate) : ':' ∉ gateText gate := by
  cases gate with
  | none => exact List.not_mem_nil
  | some gate => exact colon_notMem_compact gate.canonical

/-- The gate of a twin is dropped. -/
theorem stripCfgGates_gated {x : Str} (gate : Option CfgPredicate) (rest : Str)
    (hx : ¬ twinMark <:+: x) :
    stripCfgGates (x ++ ((IdScheme.gated gate).suffix ++ rest)) = x ++ stripCfgGates rest := by
  have hfind : find twinMark (x ++ ((IdScheme.gated gate).suffix ++ rest)) = some x.length := by
    rw [IdScheme.suffix, List.append_assoc]
    exact find_twinMark hx
  have hdrop : (x ++ ((IdScheme.gated gate).suffix ++ rest)).drop (x.length + twinMark.length) =
      gateText gate ++ ')' :: rest := by
    rw [IdScheme.suffix, ← List.drop_drop, List.drop_left, List.append_assoc, List.drop_left,
      List.append_assoc]
    rfl
  have hclose : closingParen 1 (gateText gate ++ ')' :: rest) = some (gateText gate).length := by
    rw [closingParen_balanced (balanced_gateText gate) 0, closingParen, if_neg (by decide),
      if_pos rfl, if_pos rfl]
    simp
  have hrest : (gateText gate ++ ')' :: rest).drop ((gateText gate).length + 1) = rest := by
    rw [← List.drop_drop, List.drop_left]
    rfl
  rw [stripCfgGates]
  split
  · rename_i hnone
    rw [hfind] at hnone
    cases hnone
  · rename_i start hstart
    obtain rfl := Option.some.inj (hfind.symm.trans hstart)
    simp only [hdrop, hclose, hrest, List.take_left]

namespace Definition

/-- The number behind a name. -/
def number (d : Definition) : Str :=
  match d.scheme with
  | .numbered seq => '#' :: digits seq
  | _ => []

theorem notMem_line {c : Char} (d : Definition) (hat : c ≠ '@') (hdigit : c.isDigit = false) :
    c ∉ d.line := by
  intro h
  unfold line at h
  split at h
  · rcases List.mem_cons.mp h with heq | h
    · exact hat heq
    · rw [isDigit_of_mem_digits h] at hdigit
      cases hdigit
  · cases h

theorem line_head {d : Definition} {c : Char} (h : c ∈ d.line.head?) : c = '@' := by
  unfold line at h
  split at h
  · simpa using h.symm
  · cases h

theorem colon_notMem_suffix (scheme : IdScheme) : ':' ∉ scheme.suffix := by
  cases scheme with
  | plain => exact List.not_mem_nil
  | numbered seq =>
      intro h
      rcases List.mem_cons.mp h with h | h
      · exact absurd h (by decide)
      · exact absurd (isDigit_of_mem_digits h) (by decide)
  | gated gate =>
      have hgate := colon_notMem_gateText gate
      simp [IdScheme.suffix, twinMark, hgate]

/-- What stands behind a name without a colon ends no path. -/
theorem afterLast_id (d : Definition) :
    afterLast "::".toList d.id = d.name ++ (d.scheme.suffix ++ d.line) := by
  have hmarks : ':' ∉ d.scheme.suffix ++ d.line := fun h =>
    (List.mem_append.mp h).elim (colon_notMem_suffix d.scheme)
      (d.notMem_line (by decide) (by decide))
  rw [id, qual, List.append_assoc, List.append_assoc]
  refine afterLast_append (by decide) ?_ d.scope
  change ¬ "::".toList <:+: ':' :: (d.name ++ (d.scheme.suffix ++ d.line))
  cases hcases : d.scheme.suffix ++ d.line with
  | nil =>
      rw [List.append_nil]
      exact d.isSegment
  | cons c rest =>
      rw [hcases] at hmarks
      refine not_infix_append (x := ':' :: d.name) ?_ d.isSegment
        (not_infix_of_notMem (by decide) hmarks)
      rintro hc
      obtain rfl : c = ':' := by simpa using hc
      exact hmarks List.mem_cons_self

/-- No mark of a gate begins in a name and goes on behind it. -/
theorem markFree_append {x t : Str} (hx : ¬ twinMark <:+: x) (hopen : '(' ∉ t)
    (hhead : ∀ c ∈ t.head?, c ∉ twinMark.tail) : ¬ twinMark <:+: x ++ t := by
  cases t with
  | nil => rwa [List.append_nil]
  | cons c rest =>
      exact not_infix_append (hhead c rfl) hx (not_infix_of_notMem (by decide) hopen)

theorem markFree_line {x : Str} (d : Definition) (hx : ¬ twinMark <:+: x) :
    ¬ twinMark <:+: x ++ d.line := by
  refine markFree_append hx (d.notMem_line (by decide) (by decide)) fun c hc => ?_
  rw [line_head hc]
  decide

/-- The id of a definition shows the name, with its number and its line. -/
theorem shownName_id (d : Definition) : shownName d.id = d.name ++ (d.number ++ d.line) := by
  rw [shownName, d.afterLast_id, number]
  cases d.scheme with
  | plain => exact stripCfgGates_markFree (d.markFree_line d.isMarkFree)
  | numbered seq =>
      have hopen : '(' ∉ '#' :: digits seq := by
        intro h
        rcases List.mem_cons.mp h with h | h
        · exact absurd h (by decide)
        · exact absurd (isDigit_of_mem_digits h) (by decide)
      have hname := markFree_append d.isMarkFree hopen (by
        intro c hc
        obtain rfl : '#' = c := by simpa using hc
        decide)
      simp only [IdScheme.suffix]
      rw [← List.append_assoc]
      exact stripCfgGates_markFree (d.markFree_line hname)
  | gated gate =>
      have hline := d.markFree_line (x := []) (by decide)
      rw [stripCfgGates_gated gate d.line d.isMarkFree]
      rw [List.nil_append] at hline
      rw [stripCfgGates_markFree hline]
      rfl

end Definition

/-- No identifier ends in a number behind `#` or `@`. -/
def IsIdentifier (s : Str) : Prop :=
  ∀ front n, s ≠ front ++ '#' :: digits n ∧ s ≠ front ++ '@' :: digits n

/-- The name that is shown is an identifier only if it is the declared one. -/
theorem Definition.shownName_eq_iff (d : Definition) {s : Str} (h : IsIdentifier s) :
    shownName d.id = s ↔ d.name = s ∧ d.Unmarked := by
  rw [d.shownName_id]
  constructor
  · intro hshown
    cases hrepeated : d.isRepeated with
    | true =>
        rw [Definition.line, hrepeated, if_pos rfl, ← List.append_assoc] at hshown
        exact absurd hshown.symm (h _ _).2
    | false =>
        rw [Definition.line, hrepeated, if_neg (by decide), List.append_nil] at hshown
        have hnumber : ∀ seq, d.scheme ≠ .numbered seq := by
          intro seq hscheme
          rw [Definition.number, hscheme] at hshown
          exact (h _ _).1 hshown.symm
        have hnil : d.number = [] := by
          unfold Definition.number
          split
          · rename_i hscheme
            exact absurd hscheme (hnumber _)
          · rfl
        rw [hnil, List.append_nil] at hshown
        exact ⟨hshown, hnumber, hrepeated⟩
  · rintro ⟨rfl, hnumber, hrepeated⟩
    rw [Definition.line, hrepeated, if_neg (by decide), List.append_nil]
    unfold Definition.number
    split
    · rename_i hscheme
      exact absurd hscheme (hnumber _)
    · rw [List.append_nil]

/-! ### The node of a line -/

/-- The definitions that start on a line of a file, in the order they are put in the index. -/
def definitionsAt (defs : SymbolLabel → List Definition) (key : Key) : List Definition :=
  (positionLabels.flatMap defs).filter fun d => d.row.key = key

/-- Of several values of a key the last one stays. -/
theorem foldl_update_eq {α β κ : Type} [DecidableEq κ] (keyOf : α → κ) (valueOf : α → β)
    (items : List α) (start : κ → Option β) (key : κ) :
    items.foldl (fun index item => Function.update index (keyOf item) (some (valueOf item))) start
        key =
      ((items.filter fun item => keyOf item = key).getLast?.map valueOf).or (start key) := by
  induction items generalizing start with
  | nil => simp
  | cons item items ih =>
      rw [List.foldl_cons, ih]
      by_cases hkey : keyOf item = key
      · rw [List.filter_cons_of_pos (by simpa using hkey), hkey, Function.update_self]
        cases hlast : (items.filter fun item => keyOf item = key).getLast? with
        | none => simp [List.getLast?_cons, hlast]
        | some last => simp [List.getLast?_cons, hlast]
      · rw [List.filter_cons_of_neg (by simpa using hkey),
          Function.update_of_ne (Ne.symm hkey)]

/-- The index keeps the last definition of a line. -/
theorem nodeIndex_id (defs : SymbolLabel → List Definition) (key : Key) :
    (buildNodePositionIndex (fun label => (defs label).map Definition.row) key).map NodePosition.id =
      (definitionsAt defs key).getLast?.map Definition.id := by
  obtain ⟨entries, hentries⟩ : ∃ entries, entries =
      positionLabels.flatMap fun label => (defs label).map fun d => (label, d) := ⟨_, rfl⟩
  have hindex : buildNodePositionIndex (fun label => (defs label).map Definition.row) =
      entries.foldl (fun (index : Key → Option NodePosition) entry =>
        Function.update index entry.2.row.key (some ⟨entry.2.row.id, entry.1⟩)) fun _ => none := by
    rw [hentries, List.foldl_flatMap]
    simp only [List.foldl_map, buildNodePositionIndex]
  have hdefs : entries.map Prod.snd = positionLabels.flatMap defs := by
    rw [hentries, List.map_flatMap]
    simp
  have hat : definitionsAt defs key =
      (entries.filter fun entry => entry.2.row.key = key).map Prod.snd := by
    rw [definitionsAt, ← hdefs, List.filter_map]
    rfl
  rw [hindex, foldl_update_eq (fun entry : SymbolLabel × Definition => entry.2.row.key)
    (fun entry => (⟨entry.2.row.id, entry.1⟩ : NodePosition)), hat, List.getLast?_map, Option.or_none,
    Option.map_map, Option.map_map]
  rfl

section Answer

variable {defs : SymbolLabel → List Definition} {site : UnresolvedCallSite}
  {answer : DefinitionResult} {ctx : SiteContext} {file : Str}

/-- An answer is refused by the name of the last definition of its line. -/
theorem lspEdge_eq_nameMismatch_iff_last
    (hindex : ctx.nodeIndex = buildNodePositionIndex fun label => (defs label).map Definition.row)
    (hfile : uriToRelativePath ctx.canonicalize answer.uri ctx.canonicalRoot = some file)
    (hsite : IsIdentifier site.identifierName) :
    lspEdge site answer ctx = .notAdded .nameMismatch ↔
      ∃ kept, (definitionsAt defs (file, answer.startLine + 1)).getLast? = some kept ∧
        ¬ (kept.name = site.identifierName ∧ kept.Unmarked) := by
  have hid := nodeIndex_id defs (file, answer.startLine + 1)
  rw [lspEdge_eq_nameMismatch_iff hfile, hindex]
  constructor
  · rintro ⟨target, htarget, hne⟩
    rw [htarget, Option.map_some] at hid
    obtain ⟨kept, hkept, hkeptId⟩ := Option.map_eq_some_iff.mp hid.symm
    exact ⟨kept, hkept, fun h => hne (hkeptId ▸ (kept.shownName_eq_iff hsite).mpr h)⟩
  · rintro ⟨kept, hkept, hne⟩
    rw [hkept, Option.map_some] at hid
    obtain ⟨target, htarget, htargetId⟩ := Option.map_eq_some_iff.mp hid
    exact ⟨target, htarget, fun h => hne ((kept.shownName_eq_iff hsite).mp (htargetId ▸ h))⟩

/-- The definitions that start on the line of an answer are told apart by the identifier of the site
if and only if the last of them has no number and no line behind its name, where that name is the
identifier, and the others are named by the identifier as it is. -/
theorem nameMismatch_iff
    (hindex : ctx.nodeIndex = buildNodePositionIndex fun label => (defs label).map Definition.row)
    (hfile : uriToRelativePath ctx.canonicalize answer.uri ctx.canonicalRoot = some file)
    (hsite : IsIdentifier site.identifierName) :
    (∀ d ∈ definitionsAt defs (file, answer.startLine + 1),
        (d.name = site.identifierName → lspEdge site answer ctx ≠ .notAdded .nameMismatch) ∧
          (d.name ≠ site.identifierName → lspEdge site answer ctx = .notAdded .nameMismatch)) ↔
      ∀ kept ∈ (definitionsAt defs (file, answer.startLine + 1)).getLast?,
        (kept.name = site.identifierName → kept.Unmarked) ∧
          ∀ d ∈ definitionsAt defs (file, answer.startLine + 1),
            (d.name = site.identifierName ↔ kept.name = site.identifierName) := by
  have hedge := lspEdge_eq_nameMismatch_iff_last hindex hfile hsite
  constructor
  · intro h kept hkept
    have hrefused : lspEdge site answer ctx = .notAdded .nameMismatch ↔
        ¬ (kept.name = site.identifierName ∧ kept.Unmarked) := by
      rw [hedge, Option.mem_def.mp hkept]
      simp
    have hsame := h kept (List.mem_of_getLast? hkept)
    have hunmarked : kept.name = site.identifierName → kept.Unmarked := fun hname =>
      (not_not.mp (mt hrefused.mpr (hsame.1 hname))).2
    refine ⟨hunmarked, fun d hd => ⟨fun hname => ?_, fun hname => ?_⟩⟩
    · exact (not_not.mp (mt hrefused.mpr ((h d hd).1 hname))).1
    · by_contra hne
      exact hrefused.mp ((h d hd).2 hne) ⟨hname, hunmarked hname⟩
  · intro h d hd
    obtain ⟨kept, hkept⟩ : ∃ kept,
        (definitionsAt defs (file, answer.startLine + 1)).getLast? = some kept :=
      Option.ne_none_iff_exists'.mp fun hnone => by
        rw [List.getLast?_eq_none_iff.mp hnone] at hd
        cases hd
    obtain ⟨hunmarked, hsame⟩ := h kept hkept
    have hrefused : lspEdge site answer ctx = .notAdded .nameMismatch ↔
        ¬ (kept.name = site.identifierName ∧ kept.Unmarked) := by
      rw [hedge, hkept]
      simp
    refine ⟨fun hname hmismatch => ?_, fun hname => hrefused.mpr fun hkeptName => ?_⟩
    · have hkeptName := (hsame d hd).mp hname
      exact hrefused.mp hmismatch ⟨hkeptName, hunmarked hkeptName⟩
    · exact hname ((hsame d hd).mpr hkeptName.1)

end Answer

/-- The first function `run` of `a.py`, on line 3. -/
def pyRun : Definition := ⟨.plain, "a.py".toList, "run".toList, 3, false, by decide, by decide⟩

/-- The second one, on line 7, whose id is `a.py::run@7`. -/
def pyRunAgain : Definition := ⟨.plain, "a.py".toList, "run".toList, 7, true, by decide, by decide⟩

/-- The definitions of a project at `/r`. -/
def pyProject (label : SymbolLabel) : List Definition :=
  if label = .function then [pyRun, pyRunAgain] else []

def pyContext : SiteContext where
  nodeIndex := buildNodePositionIndex fun label => (pyProject label).map Definition.row
  canonicalRoot := "/r".toList
  twins := ⟨fun _ => none, fun _ => none, []⟩
  canonicalize := some
  insertEdgeIfAbsent _ _ _ := true

/-- An answer with a line of the file, from 0. -/
def pyAnswer (startLine : Nat) : DefinitionResult :=
  ⟨LspClient.pathToFileUri "/r/a.py".toList, startLine⟩

/-- The call of `run` in the same file. -/
def pySite : UnresolvedCallSite :=
  ⟨"a.py::main::call@11:4#71-76".toList, "a.py::main".toList, .function, "run".toList, 11, 4⟩

theorem pyAnswer_file (startLine : Nat) :
    uriToRelativePath pyContext.canonicalize (pyAnswer startLine).uri pyContext.canonicalRoot =
      some "a.py".toList := by
  have hbytes : (Codec.utf8 "/r/a.py".toList).flatMap LspClient.encodeByte = "/r/a.py".toList := rfl
  have hdecode := LspClient.percentDecode_flatMap (Codec.utf8 "/r/a.py".toList)
  rw [hbytes] at hdecode
  have hpath : LspClient.fileUriToPath (pyAnswer startLine).uri = some "/r/a.py".toList := by
    have hstrip := LspClient.stripFileSchemeAndAuthority_path "r/a.py".toList
    rw [LspClient.fileUriToPath, pyAnswer, LspClient.pathToFileUri, hbytes]
    refine (congrArg (Option.map _) hstrip).trans (congrArg some ?_)
    exact (congrArg Codec.fromUtf8Lossy hdecode).trans (Codec.fromUtf8Lossy_utf8 _)
  have hrelative : (stripComponents (components "/r".toList) ("/r/a.py".toList.splitOn '/')).map
      (join ['/']) = some "a.py".toList := by decide
  rw [uriToRelativePath, hpath]
  exact hrelative

theorem isIdentifier_of_notMem {s : Str} (h : '#' ∉ s ∧ '@' ∉ s) : IsIdentifier s := by
  refine fun front n => ⟨?_, ?_⟩
  · rintro rfl
    exact h.1 (by simp)
  · rintro rfl
    exact h.2 (by simp)

theorem isIdentifier_pySite : IsIdentifier pySite.identifierName :=
  isIdentifier_of_notMem (by decide)

/-- Each of the two functions stands alone on its line. -/
theorem definitionsAt_pyProject :
    definitionsAt pyProject ("a.py".toList, 3) = [pyRun] ∧
      definitionsAt pyProject ("a.py".toList, 7) = [pyRunAgain] := by
  have hrun : pyRun.row.key = ("a.py".toList, 3) := by decide +kernel
  have hagain : pyRunAgain.row.key = ("a.py".toList, 7) := by decide +kernel
  constructor <;> simp [definitionsAt, positionLabels, pyProject, hrun, hagain]

theorem nameMismatch_iff_run : lspEdge pySite (pyAnswer 2) pyContext ≠ .notAdded .nameMismatch := by
  have hindex : pyContext.nodeIndex =
      buildNodePositionIndex fun label => (pyProject label).map Definition.row := rfl
  have h := (nameMismatch_iff hindex (pyAnswer_file 2) isIdentifier_pySite).mpr
  rw [show (pyAnswer 2).startLine + 1 = 3 from rfl, definitionsAt_pyProject.1] at h
  refine (h ?_ pyRun List.mem_cons_self).1 rfl
  rintro kept ⟨rfl⟩
  exact ⟨fun _ => ⟨fun _ => IdScheme.noConfusion, rfl⟩, by simp⟩

/-- The call of `run`, answered with the line of the second `run`, is refused. -/
theorem not_nameMismatch_sound :
    ¬ ∀ (defs : SymbolLabel → List Definition) (ctx : SiteContext) (site : UnresolvedCallSite)
      (answer : DefinitionResult) (file : Str),
      ctx.nodeIndex = buildNodePositionIndex (fun label => (defs label).map Definition.row) →
      uriToRelativePath ctx.canonicalize answer.uri ctx.canonicalRoot = some file →
      IsIdentifier site.identifierName → ∀ d ∈ definitionsAt defs (file, answer.startLine + 1),
        (d.name = site.identifierName → lspEdge site answer ctx ≠ .notAdded .nameMismatch) ∧
          (d.name ≠ site.identifierName → lspEdge site answer ctx = .notAdded .nameMismatch) := by
  intro h
  have hat : definitionsAt pyProject ("a.py".toList, (pyAnswer 6).startLine + 1) = [pyRunAgain] :=
    definitionsAt_pyProject.2
  have hrun := (h pyProject pyContext pySite (pyAnswer 6) _ rfl (pyAnswer_file 6)
    isIdentifier_pySite pyRunAgain (by rw [hat]; exact List.mem_cons_self)).1 rfl
  refine hrun ((lspEdge_eq_nameMismatch_iff_last rfl (pyAnswer_file 6) isIdentifier_pySite).mpr
    ⟨pyRunAgain, by rw [hat]; rfl, ?_⟩)
  exact fun hmarks => Bool.noConfusion hmarks.2.2

end AutomatisedPipeline.LspResolver
