import AutomatisedPipeline.Logic.Cursor
import AutomatisedPipeline.Query.Limit

/-!
The paged responses of `query_graph` (`query_handlers.rs`, `response_budget.rs`,
`token_surface.rs`).

Two cuts act on a page: the injected LIMIT, which ends the row window and fetches
one probe row behind it, and the byte budget. A reply is a page of the engine's
result in the sense of `Cursor.PageOf` whichever of the two cut it
(`runGatedCypher_page`).

The embedded engine and the JSON writer are parameters: the rows an executed query
returns and the size of a serialized row.
-/

namespace AutomatisedPipeline.Query

open Text Lexical Cursor

/-! ### Machine integers and vectors -/

def u64Max : Nat := 2 ^ 64 - 1

def isizeMax : Nat := 2 ^ 63 - 1

/-- `u64::saturating_add`. -/
def saturatingAdd (a b : Nat) : Nat := min (a + b) u64Max

/-- `Vec<T>`: no vector holds more than `isize::MAX` elements. -/
structure Vec (α : Type) where
  elems : List α
  fits : elems.length ≤ isizeMax

/-! ### The source's definitions -/

/-- `QUERY_GRAPH_ROW_LIMIT`. -/
def queryGraphRowLimit : Nat := 500

/-- `MAX_RESPONSE_CHARS`. -/
def maxResponseChars : Nat := 100000

/-- `Bounded`. -/
structure Bounded (α : Type) where
  items : List α
  totalCount : Nat
  truncated : Bool

/-- `BoundedPage`. -/
structure BoundedPage (α : Type) where
  items : List α
  totalCount : Nat
  truncated : Bool
  nextOffset : Option Nat

/-- The loop of `bound_values`: the items it admits and whether it stopped early. -/
def boundLoop {α : Type} (size : α → Nat) (charBudget : Nat) :
    List α → Nat → List α → List α × Bool
  | [], _, items => (items, false)
  | v :: values, used, items =>
      if !items.isEmpty && charBudget < used + size v then (items, true)
      else boundLoop size charBudget values (used + size v) (items ++ [v])

/-- `bound_values`. -/
def boundValues {α : Type} (size : α → Nat) (values : List α) (charBudget : Nat) : Bounded α :=
  let bounded := boundLoop size charBudget values 0 []
  { items := bounded.1, totalCount := values.length, truncated := bounded.2 }

/-- `bound_values_paged`: its loop counts the items it admits in `consumed`. -/
def boundValuesPaged {α : Type} (size : α → Nat) (values : List α) (offset charBudget : Nat) :
    BoundedPage α :=
  let totalCount := values.length
  let start := min offset totalCount
  let items := (boundLoop size charBudget (values.drop start) 0 []).1
  let nextIndex := start + items.length
  let moreRemain := decide (nextIndex < totalCount)
  { items := items
    totalCount := totalCount
    truncated := moreRemain
    nextOffset := if moreRemain then some nextIndex else none }

/-- `injected_fetch_limit`. -/
def injectedFetchLimit (offset : Nat) : Nat := saturatingAdd offset (queryGraphRowLimit + 1)

/-- `clip_probe_row`: the rows up to the end of the window and whether the probe
row was present. -/
def clipProbeRow {α : Type} (rows : List α) (offset : Nat) : List α × Bool :=
  let windowEnd := saturatingAdd offset queryGraphRowLimit
  (rows.take windowEnd, decide (windowEnd < rows.length))

/-- A row of a query result. -/
abbrev Row := List Str

/-- `QueryResult`. -/
structure QueryResult where
  columns : List Str
  rows : List Row

/-- `QueryPageMeta`. -/
structure QueryPageMeta where
  offset : Nat
  elapsedMs : Nat
  orderStable : Bool
  limitInjected : Bool
  rowLimitReached : Bool

/-- An element of the `rows` of a response: the cells of a row, or its first cell. -/
inductive RowValue where
  | cells (row : Row)
  | id (cell : Str)

/-- The response of `query_graph`. -/
structure QueryResponse where
  columns : List Str
  rows : List RowValue
  result : Option Str
  elapsedMs : Nat
  totalCount : Nat
  returnedCount : Nat
  offset : Nat
  truncated : Bool
  orderStable : Bool
  limitInjected : Bool
  rowLimit : Option Nat
  nextOffset : Option Nat
  detail : Option String
  format : Option String

/-- `has_order_by_clause`: the keyword `order` with `by` behind white space as a
word of its own. -/
def hasOrderByClause (query : Str) : Bool :=
  let lower := ((maskNonExecutable query).getD []).map Char.toLower
  (keywordTokenPositions lower "order".toList .sigilOrAlias).any fun start =>
    let behind := lower.drop (start + "order".toList.length)
    let rest := behind.dropWhile isAsciiWhitespace
    behind.head?.any isAsciiWhitespace && "by".toList.isPrefixOf rest &&
      (rest.drop "by".toList.length).head?.all (! isIdentChar ·)

/-- `format_query_result`. -/
def formatQueryResult (columns : List Str) (rows : List Row) : Str :=
  join " | ".toList columns ++ rows.flatMap fun row => '\n' :: join " | ".toList row

/-- `paged_query_response`. -/
def pagedQueryResponse (size : Row → Nat) (charBudget : Nat) (qr : QueryResult)
    («meta» : QueryPageMeta) : QueryResponse :=
  let page := boundValuesPaged size qr.rows «meta».offset charBudget
  let start := min «meta».offset qr.rows.length
  let returnedStringRows := (qr.rows.drop start).take page.items.length
  let rowWindowEnd := if «meta».rowLimitReached then some qr.rows.length else none
  { columns := qr.columns
    rows := page.items.map .cells
    result := some (formatQueryResult qr.columns returnedStringRows)
    elapsedMs := «meta».elapsedMs
    totalCount := page.totalCount
    returnedCount := page.items.length
    offset := «meta».offset
    truncated := page.truncated || «meta».rowLimitReached
    orderStable := «meta».orderStable
    limitInjected := «meta».limitInjected
    rowLimit := if «meta».limitInjected then some queryGraphRowLimit else none
    nextOffset := page.nextOffset.or rowWindowEnd
    detail := none
    format := none }

/-- `run_gated_cypher`, where `execute` runs a statement on the opened graph and
`elapsedMs` is the reading of the clock. -/
def runGatedCypher (execute : Str → Except String QueryResult) (size : Row → Nat)
    (charBudget elapsedMs : Nat) (query : Str) (offset : Nat) : Except String QueryResponse := do
  let (effectiveQuery, limitInjected) := injectLimitIfAbsent query (injectedFetchLimit offset)
  let qr ← execute effectiveQuery
  let clipped := if limitInjected then clipProbeRow qr.rows offset else (qr.rows, false)
  return pagedQueryResponse size charBudget { qr with rows := clipped.1 }
    { offset := offset
      elapsedMs := elapsedMs
      orderStable := hasOrderByClause query
      limitInjected := limitInjected
      rowLimitReached := clipped.2 }

/-- `Detail`. -/
inductive Detail where
  | ids
  | full

/-- `Format`. -/
inductive Format where
  | tabular
  | json

/-- `parse_detail`. -/
def parseDetail (detail : Option String) : Detail := if detail = some "ids" then .ids else .full

/-- `parse_format`. -/
def parseFormat (format : Option String) : Format :=
  if format = some "tabular" then .tabular else .json

/-- The first cell of a row, where it has one. -/
def RowValue.firstCell : RowValue → Option RowValue
  | .cells row => row.head?.map .id
  | .id _ => none

/-- The rows of a response at a level of detail. -/
def Detail.shapeRows : Detail → List RowValue → List RowValue
  | .ids, rows => rows.filterMap RowValue.firstCell
  | .full, rows => rows

/-- `shape_token_surface`. -/
def shapeTokenSurface (detail : Detail) (format : Format) (out : QueryResponse) : QueryResponse :=
  match detail, format with
  | .ids, _ =>
      { out with
        rows := Detail.ids.shapeRows out.rows
        columns := out.columns.take 1
        result := none
        detail := some "ids"
        format := some "ids" }
  | .full, .tabular =>
      { out with result := none, detail := some "full", format := some "tabular" }
  | .full, .json => { out with detail := some "full", format := some "json" }

/-- The arguments of `query_graph` that are read for an existing graph. -/
structure QueryArgs where
  query : Option Str
  offset : Option Nat
  detail : Option String
  format : Option String

/-- `do_query_graph` on an existing graph, for the default graph mode. -/
def doQueryGraph (execute : Str → Except String QueryResult) (size : Row → Nat)
    (charBudget elapsedMs : Nat) (graphStr : String) (args : QueryArgs) :
    Except String QueryResponse := do
  let (query, offset) ← gatedCypherRequest args.query args.offset graphStr true
  let out ← runGatedCypher execute size charBudget elapsedMs query offset
  return shapeTokenSurface (parseDetail args.detail) (parseFormat args.format) out

/-! ### The byte budget -/

section Budget

variable {α : Type} (size : α → Nat) (charBudget : Nat)

/-- The loop admits items from the front, stops early exactly when one remains, and
then because the next one would not fit behind an item. -/
theorem boundLoop_spec (values items : List α) (used : Nat) :
    ∃ admitted rest, values = admitted ++ rest ∧
      boundLoop size charBudget values used items = (items ++ admitted, !rest.isEmpty) ∧
      (items = [] → values ≠ [] → admitted ≠ []) ∧
      (∀ v ∈ rest.head?, charBudget < used + (admitted.map size).sum + size v) := by
  induction values generalizing items used with
  | nil => exact ⟨[], [], rfl, by simp [boundLoop], by simp, by simp⟩
  | cons v values ih =>
      rw [boundLoop]
      split
      · rename_i hstop
        simp only [Bool.and_eq_true, Bool.not_eq_true', decide_eq_true_eq] at hstop
        refine ⟨[], v :: values, rfl, by simp, ?_, ?_⟩
        · rintro rfl
          simp at hstop
        · simpa using hstop.2
      · obtain ⟨admitted, rest, hvalues, hloop, -, hcut⟩ := ih (items ++ [v]) (used + size v)
        refine ⟨v :: admitted, rest, by rw [hvalues, List.cons_append], ?_, by simp, ?_⟩
        · rw [hloop, List.append_assoc, List.singleton_append]
        · intro w hw
          have := hcut w hw
          rw [List.map_cons, List.sum_cons]
          omega

/-- The items that `bound_values_paged` returns for the values behind its offset. -/
theorem boundValuesPaged_items (values : List α) (offset : Nat) :
    ∃ rest, values.drop (min offset values.length) =
        (boundValuesPaged size values offset charBudget).items ++ rest ∧
      (offset < values.length → (boundValuesPaged size values offset charBudget).items ≠ []) := by
  obtain ⟨admitted, rest, hvalues, hloop, hne, -⟩ :=
    boundLoop_spec size charBudget (values.drop (min offset values.length)) [] 0
  have hitems : (boundValuesPaged size values offset charBudget).items = admitted := by
    simp only [boundValuesPaged, hloop, List.nil_append]
  rw [hitems]
  refine ⟨rest, hvalues, fun hoffset => hne rfl ?_⟩
  rw [ne_eq, List.drop_eq_nil_iff]
  omega

/-- `bound_values_paged` returns a page of its values. -/
theorem boundValuesPaged_page (values : List α) {offset : Nat} (hoffset : offset ≤ values.length) :
    PageOf values offset (boundValuesPaged size values offset charBudget).items
      (boundValuesPaged size values offset charBudget).nextOffset := by
  obtain ⟨rest, hrest, hne⟩ := boundValuesPaged_items size charBudget values offset
  rw [Nat.min_eq_left hoffset] at hrest
  refine ⟨⟨rest, hrest.symm⟩, hne, ?_⟩
  simp only [boundValuesPaged, Nat.min_eq_left hoffset, decide_eq_true_eq]

theorem boundValuesPaged_truncated (values : List α) (offset : Nat) :
    (boundValuesPaged size values offset charBudget).truncated =
      (boundValuesPaged size values offset charBudget).nextOffset.isSome := by
  simp only [boundValuesPaged]
  split <;> simp_all

end Budget

/-! ### One reply -/

/-- The engine serves `rows` for `query`, the same ones on every call: the first of them
under a bound that is injected, and all of them where none is, since something in the
query is taken for a LIMIT clause. -/
def Serves (execute : Str → Except String QueryResult) (query : Str) (columns : List Str)
    (rows : Vec Row) : Prop :=
  ∀ offset, execute (injectLimitIfAbsent query (injectedFetchLimit offset)).1 =
    .ok { columns := columns
          rows := if hasLimitClause query then rows.elems
            else rows.elems.take (injectedFetchLimit offset) }

/-- Behind an offset into a vector the row window does not saturate. -/
theorem saturatingAdd_window {offset : Nat} {rows : Vec Row} (hoffset : offset ≤ rows.elems.length)
    {n : Nat} (hn : n ≤ 1000) : saturatingAdd offset n = offset + n := by
  have hfits := rows.fits
  simp only [isizeMax] at hfits
  simp only [saturatingAdd, u64Max]
  omega

/-- The clipped window of a page: the rows up to its end, and whether the result
goes on behind it. -/
theorem clipProbeRow_window {offset : Nat} {rows : Vec Row} (hoffset : offset ≤ rows.elems.length) :
    clipProbeRow (rows.elems.take (injectedFetchLimit offset)) offset =
      (rows.elems.take (offset + queryGraphRowLimit),
        decide (offset + queryGraphRowLimit < rows.elems.length)) := by
  have hfetch : injectedFetchLimit offset = offset + (queryGraphRowLimit + 1) :=
    saturatingAdd_window hoffset (by simp [queryGraphRowLimit])
  have hwindow : saturatingAdd offset queryGraphRowLimit = offset + queryGraphRowLimit :=
    saturatingAdd_window hoffset (by simp [queryGraphRowLimit])
  have hmin : min (offset + queryGraphRowLimit) (offset + (queryGraphRowLimit + 1)) =
      offset + queryGraphRowLimit := by omega
  rw [clipProbeRow, hwindow, hfetch, List.take_take, hmin, List.length_take, Prod.mk.injEq,
    decide_eq_decide]
  refine ⟨rfl, ?_⟩
  omega

/-- The two cuts together: a page of the window, continued at its end when the
result goes on behind it, is a page of the result. -/
theorem PageOf.of_window {α : Type} {rows items : List α} {offset n : Nat} {next : Option Nat}
    (hn : 0 < n) (hoffset : offset ≤ rows.length)
    (h : PageOf (rows.take (offset + n)) offset items next) :
    PageOf rows offset items
      (next.or (if offset + n < rows.length then some (rows.take (offset + n)).length else none)) := by
  have hwindow : offset ≤ (rows.take (offset + n)).length := by
    rw [List.length_take]
    omega
  have hend := h.end_le hwindow
  rw [List.length_take] at hend
  refine ⟨?_, ?_, ?_⟩
  · have hbegins := h.isPrefix
    rw [List.drop_take] at hbegins
    exact hbegins.trans (List.take_prefix _ _)
  · intro hlt
    apply h.progress
    rw [List.length_take]
    omega
  · rw [h.next_eq, List.length_take]
    split
    · rw [Option.some_or, if_pos (by omega)]
    · rw [Option.none_or]
      split
      · rw [if_pos (by omega)]
        congr 1
        omega
      · rw [if_neg (by omega)]

section Reply

variable {execute : Str → Except String QueryResult} {size : Row → Nat}
  {charBudget elapsedMs : Nat} {query : Str} {columns : List Str} {rows : Vec Row}

/-- The reply of `run_gated_cypher` to a cursor pages the window of rows from the
start of the result. -/
theorem runGatedCypher_eq (hlimit : hasLimitClause query = false)
    (hserves : Serves execute query columns rows) {offset : Nat}
    (hoffset : offset ≤ rows.elems.length) :
    runGatedCypher execute size charBudget elapsedMs query offset =
      .ok (pagedQueryResponse size charBudget
        { columns := columns, rows := rows.elems.take (offset + queryGraphRowLimit) }
        { offset := offset
          elapsedMs := elapsedMs
          orderStable := hasOrderByClause query
          limitInjected := true
          rowLimitReached := decide (offset + queryGraphRowLimit < rows.elems.length) }) := by
  have hinjected : (injectLimitIfAbsent query (injectedFetchLimit offset)).2 = true := by
    simp [injectLimitIfAbsent, hlimit]
  have hpair : injectLimitIfAbsent query (injectedFetchLimit offset) =
      ((injectLimitIfAbsent query (injectedFetchLimit offset)).1, true) :=
    Prod.ext rfl hinjected
  rw [runGatedCypher, hpair]
  simp only [hserves offset, hlimit, bind, Except.bind, if_true, Bool.false_eq_true, if_false,
    clipProbeRow_window hoffset]
  rfl

/-- Where no LIMIT is injected the reply pages the whole result. -/
theorem runGatedCypher_eq_declared (hlimit : hasLimitClause query = true)
    (hserves : Serves execute query columns rows) (offset : Nat) :
    runGatedCypher execute size charBudget elapsedMs query offset =
      .ok (pagedQueryResponse size charBudget { columns := columns, rows := rows.elems }
        { offset := offset
          elapsedMs := elapsedMs
          orderStable := hasOrderByClause query
          limitInjected := false
          rowLimitReached := false }) := by
  have hpair : injectLimitIfAbsent query (injectedFetchLimit offset) = (query, false) := by
    rw [injectLimitIfAbsent, if_pos hlimit]
  have hquery := hserves offset
  rw [hpair, if_pos hlimit] at hquery
  rw [runGatedCypher, hpair]
  simp only [hquery, bind, Except.bind, Bool.false_eq_true, if_false]
  rfl

/-- The reply of `run_gated_cypher` to a cursor is a page of the engine's result, and
is flagged as truncated exactly when it names a next cursor. -/
theorem runGatedCypher_page (hserves : Serves execute query columns rows) {offset : Nat}
    (hoffset : offset ≤ rows.elems.length) :
    ∃ out items, runGatedCypher execute size charBudget elapsedMs query offset = .ok out ∧
      out.rows = items.map RowValue.cells ∧ out.returnedCount = items.length ∧
      out.offset = offset ∧ out.truncated = out.nextOffset.isSome ∧
      PageOf rows.elems offset items out.nextOffset := by
  cases hlimit : hasLimitClause query with
  | true =>
      have hpage := boundValuesPaged_page size charBudget rows.elems hoffset
      rw [runGatedCypher_eq_declared hlimit hserves offset]
      refine ⟨_, _, rfl, rfl, rfl, rfl, ?_, ?_⟩
      · simp [pagedQueryResponse, boundValuesPaged_truncated]
      · simpa [pagedQueryResponse] using hpage
  | false =>
      have hwindow : offset ≤ (rows.elems.take (offset + queryGraphRowLimit)).length := by
        rw [List.length_take]
        omega
      have hpage := PageOf.of_window (by simp [queryGraphRowLimit]) hoffset
        (boundValuesPaged_page size charBudget _ hwindow)
      rw [runGatedCypher_eq hlimit hserves hoffset]
      refine ⟨_, _, rfl, rfl, rfl, rfl, ?_, ?_⟩
      · simp only [pagedQueryResponse, boundValuesPaged_truncated, decide_eq_true_eq]
        by_cases hreached : offset + queryGraphRowLimit < rows.elems.length
        · simp [hreached]
        · simp [hreached]
      · simp only [pagedQueryResponse, decide_eq_true_eq]
        exact hpage

end Reply

/-! ### A client that follows the cursors -/

/-- Shaping keeps the cursor, and shapes the rows alone. -/
theorem shapeTokenSurface_keeps (detail : Detail) (format : Format) (out : QueryResponse) :
    (shapeTokenSurface detail format out).rows = detail.shapeRows out.rows ∧
      (shapeTokenSurface detail format out).nextOffset = out.nextOffset ∧
      (shapeTokenSurface detail format out).offset = out.offset ∧
      (shapeTokenSurface detail format out).returnedCount = out.returnedCount ∧
      (shapeTokenSurface detail format out).truncated = out.truncated := by
  cases detail with
  | ids => exact ⟨rfl, rfl, rfl, rfl, rfl⟩
  | full =>
      cases format with
      | tabular => exact ⟨rfl, rfl, rfl, rfl, rfl⟩
      | json => exact ⟨rfl, rfl, rfl, rfl, rfl⟩

theorem flatMap_shapeRows {β : Type} (detail : Detail) (pages : List β)
    (rows : β → List RowValue) :
    pages.flatMap (fun page => detail.shapeRows (rows page)) =
      detail.shapeRows (pages.flatMap rows) := by
  cases detail with
  | full => rfl
  | ids =>
      induction pages with
      | nil => rfl
      | cons page pages ih =>
          rw [List.flatMap_cons, ih]
          simp [Detail.shapeRows]

/-- An accepted request is served by `run_gated_cypher`. -/
theorem doQueryGraph_eq {query : Str} (haccepted : Accepted query)
    (execute : Str → Except String QueryResult) (size : Row → Nat) (charBudget elapsedMs : Nat)
    (graphStr : String) (offset : Nat) (detail format : Option String) :
    doQueryGraph execute size charBudget elapsedMs graphStr
        { query := some query, offset := some offset, detail := detail, format := format } =
      (runGatedCypher execute size charBudget elapsedMs query offset).map
        (shapeTokenSurface (parseDetail detail) (parseFormat format)) := by
  have hgate : gatedCypherRequest (some query) (some offset) graphStr true = .ok (query, offset) :=
    gatedCypherRequest_ok_iff.mpr ⟨rfl, haccepted, rfl, rfl⟩
  simp only [doQueryGraph, hgate, bind, Except.bind]
  cases runGatedCypher execute size charBudget elapsedMs query offset with
  | error e => rfl
  | ok out => rfl

theorem sum_returnedCount {outs : List QueryResponse}
    (h : ∀ out ∈ outs, out.returnedCount = out.rows.length) :
    (outs.map QueryResponse.returnedCount).sum = (outs.flatMap QueryResponse.rows).length := by
  rw [List.length_flatMap]
  exact congrArg List.sum (List.map_congr_left h)

theorem map_returnedCount_shape (detail : Detail) (format : Format) (outs : List QueryResponse) :
    (outs.map (shapeTokenSurface detail format)).map QueryResponse.returnedCount =
      outs.map QueryResponse.returnedCount := by
  rw [List.map_map]
  apply List.map_congr_left
  intro out _
  exact (shapeTokenSurface_keeps detail format out).2.2.2.1

/-- Following the cursors of `run_gated_cypher`: the pages hold the rows in order, each counts
its rows, starts behind those of the pages before it, and is flagged where rows remain. -/
theorem pageThrough_runGatedCypher {execute : Str → Except String QueryResult} {query : Str}
    {columns : List Str} {rows : Vec Row} (size : Row → Nat) (charBudget : Nat)
    (elapsedMs : Nat → Nat) (hserves : Serves execute query columns rows) :
    ∃ outs, pageThrough (fun offset =>
        runGatedCypher execute size charBudget (elapsedMs offset) query offset)
        QueryResponse.nextOffset (rows.elems.length + 1) 0 = some outs ∧
      outs.flatMap QueryResponse.rows = rows.elems.map RowValue.cells ∧
      ∀ before out after, outs = before ++ out :: after →
        out.returnedCount = out.rows.length ∧
        out.offset = (before.flatMap QueryResponse.rows).length ∧
        (out.truncated = true ↔ out.offset + out.returnedCount < rows.elems.length) := by
  have hserve : ∀ offset ≤ (rows.elems.map RowValue.cells).length,
      ∃ out, runGatedCypher execute size charBudget (elapsedMs offset) query offset = .ok out ∧
        PageOf (rows.elems.map RowValue.cells) offset out.rows out.nextOffset := by
    intro offset hoffset
    rw [List.length_map] at hoffset
    obtain ⟨out, items, hout, hrows, -, -, -, hpage⟩ := runGatedCypher_page hserves hoffset
    exact ⟨out, hout, hrows ▸ hpage.map RowValue.cells⟩
  obtain ⟨outs, houts, hrows, hall⟩ :=
    pageThrough_delivers hserve (Nat.zero_le _) (Nat.lt_succ_self _)
  simp only [Nat.zero_add, List.length_map, List.drop_zero, Nat.sub_zero] at houts hrows hall
  refine ⟨outs, houts, hrows, fun before out after hsplit => ?_⟩
  obtain ⟨hoffset, hout, hpage⟩ := hall before out after hsplit
  obtain ⟨out', items, hout', hrows', hcount, hoff, htruncated, -⟩ :=
    runGatedCypher_page hserves hoffset
  obtain rfl : out = out' := Except.ok.inj (hout.symm.trans hout')
  have hlen : out.returnedCount = out.rows.length := by
    rw [hcount, hrows', List.length_map]
  refine ⟨hlen, hoff, ?_⟩
  rw [htruncated, hpage.next_eq, hoff, hlen, List.length_map]
  split <;> simp_all

/-- Paging through `query_graph`: following the cursors from offset 0 comes to the end, the
pages hold the rows of the result in order (in the shape of the requested detail), each
page starts behind the rows of the pages before it, and it is flagged as truncated exactly
when rows of the result remain after it. It does not matter whether a LIMIT is injected or
something in the query is taken for one. -/
theorem paging_is_lossless (execute : Str → Except String QueryResult) (size : Row → Nat)
    (charBudget : Nat) (elapsedMs : Nat → Nat) (graphStr : String) (query : Str)
    (detail format : Option String) (columns : List Str) (rows : Vec Row)
    (haccepted : Accepted query) (hserves : Serves execute query columns rows) :
    ∃ pages, pageThrough (fun offset =>
        doQueryGraph execute size charBudget (elapsedMs offset) graphStr
          { query := some query, offset := some offset, detail := detail, format := format })
        QueryResponse.nextOffset (rows.elems.length + 1) 0 = some pages ∧
      pages.flatMap QueryResponse.rows =
        (parseDetail detail).shapeRows (rows.elems.map RowValue.cells) ∧
      ∀ before page after, pages = before ++ page :: after →
        page.offset = (before.map QueryResponse.returnedCount).sum ∧
        (page.truncated = true ↔ page.offset + page.returnedCount < rows.elems.length) := by
  obtain ⟨outs, houts, hrows, hfacts⟩ :=
    pageThrough_runGatedCypher size charBudget elapsedMs hserves
  refine ⟨outs.map (shapeTokenSurface (parseDetail detail) (parseFormat format)), ?_, ?_, ?_⟩
  · rw [pageThrough_map _ (fun offset => doQueryGraph_eq haccepted execute size charBudget
      (elapsedMs offset) graphStr offset detail format)
      (fun out => (shapeTokenSurface_keeps _ _ out).2.1), houts, Option.map_some]
  · rw [List.flatMap_map, ← hrows, ← flatMap_shapeRows]
    exact congrArg (outs.flatMap ·) (funext fun out => (shapeTokenSurface_keeps _ _ out).1)
  · intro before page after hsplit
    obtain ⟨before', rest, hout, rfl, hrest⟩ := List.map_eq_append_iff.mp hsplit
    obtain ⟨out, after', rfl, rfl, rfl⟩ := List.map_eq_cons_iff.mp hrest
    obtain ⟨-, -, hoff, hcount, htruncated⟩ := shapeTokenSurface_keeps (parseDetail detail)
      (parseFormat format) out
    obtain ⟨-, hoffset, hiff⟩ := hfacts before' out after' hout
    have hcounts : ∀ page ∈ before', page.returnedCount = page.rows.length := by
      intro page hpage
      obtain ⟨front, back, rfl⟩ := List.append_of_mem hpage
      refine (hfacts front page (back ++ out :: after') ?_).1
      rw [hout, List.append_assoc, List.cons_append]
    rw [hoff, hcount, htruncated, map_returnedCount_shape, sum_returnedCount hcounts]
    exact ⟨hoffset, hiff⟩

/-- An engine with a result of one row more than the row window. -/
def windowAndOneRow : Vec Row :=
  ⟨List.replicate 501 ["f".toList], by rw [List.length_replicate]; decide⟩

theorem length_windowAndOneRow : windowAndOneRow.elems.length = 501 := List.length_replicate

theorem paging_is_lossless_window_and_one_row :
    ∃ pages, pageThrough (fun offset =>
        doQueryGraph (fun _ => .ok ⟨["n.id".toList], windowAndOneRow.elems⟩) (fun _ => 5)
          maxResponseChars offset "graph"
          { query := some "MATCH (n) RETURN n.id".toList, offset := some offset, detail := none,
            format := none })
        QueryResponse.nextOffset (windowAndOneRow.elems.length + 1) 0 = some pages ∧
      pages.flatMap QueryResponse.rows =
        List.replicate 501 (RowValue.cells ["f".toList]) := by
  have hserves : Serves (fun _ => .ok ⟨["n.id".toList], windowAndOneRow.elems⟩)
      "MATCH (n) RETURN n.id".toList ["n.id".toList] windowAndOneRow := by
    intro offset
    have hall : windowAndOneRow.elems.length ≤ injectedFetchLimit offset := by
      rw [length_windowAndOneRow]
      simp only [injectedFetchLimit, saturatingAdd, queryGraphRowLimit, u64Max]
      omega
    rw [if_neg (by decide +kernel), List.take_of_length_le hall]
  obtain ⟨pages, hpages, hrows, -⟩ := paging_is_lossless
    (fun _ => .ok ⟨["n.id".toList], windowAndOneRow.elems⟩) (fun _ => 5) maxResponseChars id "graph"
    "MATCH (n) RETURN n.id".toList none none ["n.id".toList] windowAndOneRow
    (by decide +kernel) hserves
  refine ⟨pages, hpages, ?_⟩
  rw [hrows]
  exact List.map_replicate

end AutomatisedPipeline.Query
