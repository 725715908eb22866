import AutomatisedPipeline.Iac.YamlLine
import AutomatisedPipeline.Logic.Passed

/-!
The references of a kustomization (`iac/kustomize.rs`).

`parse` goes over the lines with one remembered column, that of the composition key it is in.
`rowSight` is what it sees of a line of a tree, and `readAt` what it reads there, given the lines
before. A path is not read in a sequence that is flush with its key, behind another key of its item
or with escapes in it (`legible_item_iff`, `legible_path_iff`), and some scalars that are no paths
are read (`parse_iff`).
-/

namespace AutomatisedPipeline.Kustomize

open Text Yaml YamlLine Passed
open Indexer (trim)

/-! ### The source's definitions -/

/-- `REF_LIST_KEYS`. -/
def refListKeys : List Str :=
  ["resources", "bases", "components", "patchesstrategicmerge", "patchesjson6902",
    "patches"].map String.toList

/-- `MAX_REFS`. -/
def maxRefs : Nat := 512

def isRefKey (key : Str) : Bool := key.map Char.toLower ∈ refListKeys

def isPathKey (key : Str) : Bool := eqIgnoreAsciiCase key "path".toList

/-- `split_key`. -/
def splitKey (trimmed : Str) : Option (Str × Str) :=
  if trimmed.head? = some '-' then none else YamlLine.splitKey trimmed

/-- `push_ref`. -/
def pushRef (refs : List Str) (p : Str) : List Str :=
  if p = [] ∨ maxRefs ≤ refs.length ∨ p ∈ refs then refs else refs ++ [p]

/-- The references found and the column of the composition key whose list is open. -/
structure ScanState where
  refs : List Str := []
  active : Option Nat := none
deriving DecidableEq, Repr

/-- One line of `parse`. -/
def scanLine (st : ScanState) (raw : Str) : ScanState :=
  let indent := indentOf raw
  let line := trim raw
  if line = [] ∨ line.head? = some '#' then st
  else
    match splitKey line with
    | some (key, value) =>
        if isRefKey key && value.isEmpty then { st with active := some indent }
        else if st.active.any (indent ≤ ·) then { st with active := none }
        else st
    | none =>
        match st.active with
        | none => st
        | some active =>
            if indent ≤ active then { st with active := none }
            else
              match ['-', ' '].isPrefixOf? line with
              | some item =>
                  match splitKey (trim item) with
                  | some (k, v) =>
                      if isPathKey k then { st with refs := pushRef st.refs (unquote v) } else st
                  | none => { st with refs := pushRef st.refs (unquote (trim item)) }
              | none =>
                  match splitKey line with
                  | some (k, v) =>
                      if isPathKey k then { st with refs := pushRef st.refs (unquote v) } else st
                  | none => st

/-- `parse`. -/
def parse (source : Str) : List Str := ((lines source).foldl scanLine {}).refs

/-! ### What a tree says -/

/-- The path that a line of a tree holds: an item of a composition key, or the value of `path` in
one. An empty text names nothing. -/
def pathOf (r : Row) : Option Str :=
  match r.path, r.body with
  | [.key list, .item], .item (.scalar s) =>
      if isRefKey list && !s.content.isEmpty then some s.content else none
  | [.key list, .item, .key k], .entry _ (some (.scalar s)) =>
      if isRefKey list && isPathKey k && !s.content.isEmpty then some s.content else none
  | _, _ => none

/-- The paths of a kustomization in file order, without repetitions and up to the cap. -/
def paths (d : Document) : List Str := collect maxRefs (d.rows.filterMap pathOf)

/-! ### What the scan sees of a line -/

/-- A line that opens a list, one that is read where a list is open, or any other. -/
inductive Sight where
  | opens
  | reads (s : Str)
  | other
deriving DecidableEq, Repr

/-- What `parse` makes of a line that is no key. -/
def itemLineSight (line : Str) : Sight :=
  match ['-', ' '].isPrefixOf? line with
  | none => .other
  | some item =>
      match splitKey (trim item) with
      | some (k, v) => if isPathKey k then .reads (unquote v) else .other
      | none => .reads (unquote (trim item))

/-- What `parse` makes of a line behind its indentation. -/
def lineSight (line : Str) : Sight :=
  match splitKey line with
  | some (key, value) => if isRefKey key && value.isEmpty then .opens else .other
  | none => itemLineSight line

/-- A scalar as it is written, without its quotes. -/
def written : Scalar → Str
  | .plain s _ => s
  | .double s => s.flatMap escapeDouble
  | .single s _ => s.flatMap escapeSingle

def writtenInline : Inline → Str
  | .scalar s => written s
  | v => v.text

/-- An item is read as it is written, unless its quotes hold a colon and a blank. -/
def itemSight (v : Inline) : Sight :=
  if [':', ' '] <:+: v.text then .other else .reads (writtenInline v)

/-- What the scan sees of a line of a tree. Behind two dashes the second one is read too, so is a
key that starts with one, and a line of a literal is read like any text. -/
def rowSight (r : Row) : Sight :=
  match r.body with
  | .literal _ => lineSight (trim r.text)
  | body =>
      match r.dashes, body with
      | [], .entry key value => if value.isNone && isRefKey key.1 then .opens else .other
      | [], _ => .other
      | [_], .entry key value =>
          if key.1.head? = some '-' then .reads body.text
          else if isPathKey key.1 then .reads ((value.map writtenInline).getD []) else .other
      | [_], .item v => itemSight v
      | _ :: dashes, body => .reads (dashes.flatMap dashText ++ body.text)

/-- The column of the nearest composition key before, if all lines since are deeper. -/
def openKey : List Row → Option Nat
  | [] => none
  | r :: before =>
      if skipped r then openKey before
      else
        match rowSight r with
        | .opens => some (column r)
        | _ => (openKey before).filter (· < column r)

/-- What is read on a line behind those before it: a text with a dash, deeper than an open key. -/
def readAt (before : List Row) (r : Row) : Option Str :=
  match rowSight r with
  | .reads s =>
      if !skipped r && !s.isEmpty && (openKey before).any (· < column r) then some s else none
  | _ => none

/-- All that is read of a document. -/
def reads (d : Document) : List Str := (contexts d.rows).filterMap fun c => readAt c.1 c.2

/-! ### One line -/

/-- What a line does to the state. -/
def ScanState.see (st : ScanState) (column : Nat) : Sight → ScanState
  | .opens => { st with active := some column }
  | .other => { st with active := st.active.filter (· < column) }
  | .reads s =>
      { refs := if st.active.any (· < column) then pushRef st.refs s else st.refs
        active := st.active.filter (· < column) }

theorem see_of_le {st : ScanState} {a column : Nat} {sight : Sight} (hopen : st.active = some a)
    (hle : column ≤ a) (hsight : sight ≠ .opens) :
    st.see column sight = { st with active := none } := by
  obtain ⟨refs, active⟩ := st
  obtain rfl : active = some a := hopen
  have hclosed : (some a).filter (· < column) = none := by
    rw [Option.filter_some, if_neg (by simpa using hle)]
  cases sight with
  | opens => exact absurd rfl hsight
  | other => rw [ScanState.see, hclosed]
  | reads s =>
      have hshut : ¬ (some a).any (· < column) := by simpa using hle
      rw [ScanState.see, hclosed, if_neg hshut]

theorem see_of_none {st : ScanState} {column : Nat} {sight : Sight} (hopen : st.active = none)
    (hsight : sight ≠ .opens) : st.see column sight = st := by
  obtain ⟨refs, active⟩ := st
  obtain rfl : active = none := hopen
  cases sight with
  | opens => exact absurd rfl hsight
  | other => rfl
  | reads s => rfl

theorem see_of_lt {st : ScanState} {a column : Nat} (hopen : st.active = some a)
    (hlt : a < column) (sight : Sight) : st.see column sight =
      match sight with
      | .opens => { st with active := some column }
      | .other => st
      | .reads s => { st with refs := pushRef st.refs s } := by
  obtain ⟨refs, active⟩ := st
  obtain rfl : active = some a := hopen
  have hstays : (some a).filter (· < column) = some a := by
    rw [Option.filter_some, if_pos (decide_eq_true hlt)]
  cases sight with
  | opens => rfl
  | other => rw [ScanState.see, hstays]
  | reads s =>
      have hinside : (some a).any (· < column) := by simpa using hlt
      rw [ScanState.see, hstays, if_pos hinside]

theorem itemLineSight_ne_opens (line : Str) : itemLineSight line ≠ .opens := by
  rw [itemLineSight]
  split
  · exact Sight.noConfusion
  · split
    · split <;> exact Sight.noConfusion
    · exact Sight.noConfusion

/-- The scan goes by what it sees of a line. -/
theorem scanLine_eq (st : ScanState) (raw : Str) : scanLine st raw =
    if trim raw = [] ∨ (trim raw).head? = some '#' then st
    else st.see (indentOf raw) (lineSight (trim raw)) := by
  rw [scanLine]
  split
  · rfl
  · rw [lineSight]
    cases hsplit : splitKey (trim raw) with
    | some p =>
        dsimp only
        split
        · rfl
        · cases hopen : st.active with
          | none => exact (see_of_none hopen Sight.noConfusion).symm
          | some a =>
              by_cases hle : indentOf raw ≤ a
              · rw [see_of_le hopen hle Sight.noConfusion]
                simp [hle]
              · rw [see_of_lt hopen (not_le.mp hle)]
                simp [hle]
    | none =>
        cases hopen : st.active with
        | none => exact (see_of_none hopen (itemLineSight_ne_opens _)).symm
        | some a =>
            dsimp only
            split
            · rename_i hle
              exact (see_of_le hopen hle (itemLineSight_ne_opens _)).symm
            · rename_i hle
              rw [see_of_lt hopen (not_le.mp hle), itemLineSight]
              cases ['-', ' '].isPrefixOf? (trim raw) with
              | none => rfl
              | some item =>
                  dsimp only
                  cases splitKey (trim item) with
                  | none => simp only [hopen]
                  | some p =>
                      simp only [hopen]
                      split <;> rfl

/-! ### A line of a tree -/

theorem splitKey_of_dash {s : Str} (h : s.head? = some '-') : splitKey s = none := if_pos h

theorem splitKey_of_ne {s : Str} (h : s.head? ≠ some '-') : splitKey s = YamlLine.splitKey s := if_neg h

theorem head?_dashes (pad : Nat) (dashes : List Nat) (s : Str) :
    ((pad :: dashes).flatMap dashText ++ s).head? = some '-' := rfl

theorem itemLineSight_dash (pad : Nat) {s : Str} (h : OwnLine s) :
    itemLineSight (dashText pad ++ s) =
      match splitKey s with
      | some (k, v) => if isPathKey k then .reads (unquote v) else .other
      | none => .reads (unquote s) := by
  rw [itemLineSight, strip_dash]
  simp only [trim_behind_dash pad h]

/-- A text that starts with a dash has no quotes to lose. -/
theorem unquote_dash {s : Str} (h : OwnLine s) (hdash : s.head? = some '-') : unquote s = s := by
  have hno : ∀ q, q ≠ '-' → inQuotes q s = false := by
    intro q hq
    rw [inQuotes, Bool.and_eq_false_iff]
    left
    rw [decide_eq_false_iff_not, hdash]
    exact fun heq => hq (Option.some.inj heq).symm
  rw [unquote, trim_eq_self h.trimmed, hno '"' (by decide), hno '\'' (by decide)]
  simp

theorem unquote_inline (v : Inline) : unquote v.text = writtenInline v := by
  cases v with
  | scalar s =>
      cases s with
      | plain s h => exact unquote_plain h
      | double s => exact unquote_quoted (.inl rfl) (Scalar.double s).onLine
      | single s h => exact unquote_quoted (.inr rfl) (Scalar.single s h).onLine
  | emptyMapping => decide
  | emptySequence => decide
  | literal => decide

/-- The scan's own keys start with a letter. -/
theorem head_of_isRefKey {k : Str} (h : isRefKey k) :
    ∃ c, k.head? = some c ∧ c.toLower ∈ ['r', 'b', 'c', 'p'] := by
  have hkeys : ∀ key ∈ refListKeys, ∃ c ∈ key.head?, c ∈ ['r', 'b', 'c', 'p'] := by decide +kernel
  obtain ⟨c, hhead, hc⟩ := hkeys _ (of_decide_eq_true h)
  rw [List.head?_map, Option.mem_def, Option.map_eq_some_iff] at hhead
  obtain ⟨d, hd, rfl⟩ := hhead
  exact ⟨d, hd, hc⟩

theorem head_of_isPathKey {k : Str} (h : isPathKey k) :
    ∃ c, k.head? = some c ∧ c.toLower = 'p' := by
  have heq : k.map Char.toLower = "path".toList.map Char.toLower := by
    simpa [isPathKey, eqIgnoreAsciiCase] using h
  cases k with
  | nil => exact absurd heq (by decide)
  | cons c k => exact ⟨c, rfl, (List.cons.inj heq).1⟩

theorem not_isRefKey_of_dash {k : Str} (h : k.head? = some '-') : isRefKey k = false := by
  by_contra hkey
  obtain ⟨c, hc, hlower⟩ := head_of_isRefKey (Bool.not_eq_false _ ▸ hkey)
  rw [h] at hc
  obtain rfl := Option.some.inj hc
  exact absurd hlower (by decide)

/-- What stands before a colon and a blank between quotes is none of the scan's keys. -/
theorem not_key_of_quote {q : Char} (hq : q = '"' ∨ q = '\'') {k : Str} (h : k.head? = some q) :
    isRefKey k = false ∧ isPathKey k = false := by
  constructor
  · by_contra hkey
    obtain ⟨c, hc, hlower⟩ := head_of_isRefKey (Bool.not_eq_false _ ▸ hkey)
    rw [h] at hc
    obtain rfl := Option.some.inj hc
    rcases hq with rfl | rfl <;> exact absurd hlower (by decide)
  · by_contra hkey
    obtain ⟨c, hc, hlower⟩ := head_of_isPathKey (Bool.not_eq_false _ ▸ hkey)
    rw [h] at hc
    obtain rfl := Option.some.inj hc
    rcases hq with rfl | rfl <;> exact absurd hlower (by decide)

/-- A text in quotes is not split, or at a colon and a blank between them. -/
theorem splitKey_quoted {q : Char} (hq : q = '"' ∨ q = '\'') {s : Str} (h : OnLine (q :: s)) :
    splitKey (q :: s) = none ∧ ¬ [':', ' '] <:+: q :: s ∨
      [':', ' '] <:+: q :: s ∧ ∃ k w, splitKey (q :: s) = some (k, w) ∧
        isRefKey k = false ∧ isPathKey k = false := by
  have hdash : (q :: s).head? ≠ some '-' := by rcases hq with rfl | rfl <;> simp
  have hcolon : q ≠ ':' := by rcases hq with rfl | rfl <;> decide
  have hsolid : isWhitespace q = false := by rcases hq with rfl | rfl <;> rfl
  rw [splitKey_of_ne hdash, YamlLine.splitKey, if_neg h.noLast, splitOnceAt]
  cases hfind : find [':', ' '] (q :: s) with
  | none => exact .inl ⟨rfl, find_eq_none_iff.mp hfind⟩
  | some i =>
      have hin : [':', ' '] <:+: q :: s := by
        by_contra hnone
        rw [find_eq_none_iff.mpr hnone] at hfind
        cases hfind
      refine .inr ⟨hin, _, _, rfl, not_key_of_quote hq ?_⟩
      cases i with
      | zero =>
          obtain ⟨rest, hrest⟩ := (find_eq_some_iff.mp hfind).2.1
          exact absurd (List.cons.inj hrest).1.symm hcolon
      | succ i => exact head?_trim_cons hsolid _

/-- What stands behind a key or a dash is not split, or is in quotes. -/
theorem splitKey_inline (v : Inline) : splitKey v.text = none ∧ ¬ [':', ' '] <:+: v.text ∨
    [':', ' '] <:+: v.text ∧ ∃ k w, splitKey v.text = some (k, w) ∧
      isRefKey k = false ∧ isPathKey k = false := by
  cases v with
  | scalar s =>
      cases s with
      | plain s h =>
          refine .inl ⟨?_, h.noColon⟩
          by_cases hdash : s.head? = some '-'
          · exact splitKey_of_dash hdash
          · exact (splitKey_of_ne hdash).trans (splitKey_plain h)
      | double s => exact splitKey_quoted (.inl rfl) (Scalar.double s).onLine
      | single s h => exact splitKey_quoted (.inr rfl) (Scalar.single s h).onLine
  | emptyMapping => exact .inl (by decide)
  | emptySequence => exact .inl (by decide)
  | literal => exact .inl (by decide)

theorem itemLineSight_item (pad : Nat) (v : Inline) :
    itemLineSight (dashText pad ++ v.text) = itemSight v := by
  rw [itemLineSight_dash pad v.onLine.ownLine, itemSight]
  rcases splitKey_inline v with ⟨hsplit, hnot⟩ | ⟨hin, k, w, hsplit, -, hkey⟩
  · rw [if_neg hnot, hsplit]
    simp only [unquote_inline]
  · rw [if_pos hin, hsplit]
    simp [hkey]

/-- A key is split from its value, unless it starts with a dash. -/
theorem splitKey_entry {key : Key} (hdash : key.1.head? ≠ some '-') (value : Option Inline) :
    splitKey (Body.entry key value).text = some (key.1, (value.map Inline.text).getD []) := by
  rw [splitKey_of_ne (by rwa [head?_entry]), YamlLine.splitKey_entry]

/-- A line without a dash opens a list or is none of the scan's business. -/
theorem lineSight_entry (key : Key) (value : Option Inline) :
    lineSight (Body.entry key value).text =
      if value.isNone && isRefKey key.1 then .opens else .other := by
  rw [lineSight]
  by_cases hdash : key.1.head? = some '-'
  · rw [splitKey_of_dash ((head?_entry value).trans hdash), not_isRefKey_of_dash hdash,
      Bool.and_false, if_neg Bool.false_ne_true]
    simp only [itemLineSight, strip_entry]
  · rw [splitKey_entry hdash]
    cases value with
    | none => simp
    | some v =>
        have hne : v.text.isEmpty = false := by
          rw [Bool.eq_false_iff, ne_eq, List.isEmpty_iff]
          exact v.onLine.ne_nil
        simp [hne]

/-- Quotes alone are no key of the scan, and no item. -/
theorem lineSight_inline (v : Inline) : lineSight v.text = .other := by
  rw [lineSight]
  rcases splitKey_inline v with ⟨hsplit, -⟩ | ⟨-, k, w, hsplit, hkey, -⟩
  · simp only [hsplit, itemLineSight, strip_inline]
  · simp [hsplit, hkey]

/-- What the scan sees of a line that is of no literal. -/
theorem lineSight_text {r : Row} (h : ¬ r.body.IsLiteral) : lineSight r.text = rowSight r := by
  obtain ⟨indent, dashes, path, body⟩ := r
  have hbody : OwnLine body.text := Body.ownLine h
  change lineSight (dashes.flatMap dashText ++ body.text) = _
  match dashes with
  | [] =>
      cases body with
      | entry key value => exact lineSight_entry key value
      | item v => exact lineSight_inline v
      | literal l => exact absurd trivial h
  | pad :: dashes =>
      have hrest : OwnLine (dashes.flatMap dashText ++ body.text) := dashes_ownLine dashes hbody
      rw [lineSight, splitKey_of_dash (head?_dashes pad dashes body.text), List.flatMap_cons,
        List.append_assoc, itemLineSight_dash pad hrest]
      match dashes with
      | [] =>
          rw [List.flatMap_nil, List.nil_append]
          cases body with
          | literal l => exact absurd trivial h
          | item v =>
              exact (itemLineSight_dash pad v.onLine.ownLine).symm.trans (itemLineSight_item pad v)
          | entry key value =>
              change _ = if key.1.head? = some '-' then Sight.reads (Body.entry key value).text
                else _
              by_cases hdash : key.1.head? = some '-'
              · have hhead := (head?_entry value).trans hdash
                rw [if_pos hdash, splitKey_of_dash hhead, unquote_dash hbody hhead]
              · rw [if_neg hdash, splitKey_entry hdash]
                cases value with
                | none => rfl
                | some v => simp only [Option.map_some, Option.getD_some, unquote_inline]
      | pad' :: dashes =>
          have hdash := head?_dashes pad' dashes body.text
          rw [splitKey_of_dash hdash, unquote_dash hrest hdash]
          cases body with
          | literal l => exact absurd trivial h
          | _ => rfl

/-- One line of a tree. -/
theorem scanLine_row (st : ScanState) (r : Row) : scanLine st (stripCr r.raw) =
    if skipped r then st else st.see (column r) (rowSight r) := by
  have hsight : skipped r = false → lineSight (trim (stripCr r.raw)) = rowSight r := by
    intro hskip
    by_cases h : r.body.IsLiteral
    · obtain ⟨l, hbody⟩ := exists_of_isLiteral h
      rw [trim_stripCr_raw, rowSight, hbody]
    · rw [trim_raw h, lineSight_text h]
  rw [scanLine_eq, indentOf_row]
  cases hskip : skipped r with
  | true => rw [if_pos (skipped_iff.mp hskip), if_pos rfl]
  | false =>
      have hnot : ¬ (skipped r = true) := by rw [hskip]; exact Bool.false_ne_true
      rw [if_neg fun h => hnot (skipped_iff.mpr h), if_neg Bool.false_ne_true, hsight hskip]

/-! ### The whole document -/

theorem pushRef_eq (refs : List Str) (p : Str) :
    pushRef refs p = if p.isEmpty then refs else push maxRefs refs p := by
  cases p with
  | nil => rfl
  | cons c p => simp [pushRef, push]

/-- The scan from some line on: it pushes what is read there, and remembers the open key. -/
theorem foldl_scanLine (rows before : List Row) (refs : List Str) :
    rows.foldl (fun st r => scanLine st (stripCr r.raw)) ⟨refs, openKey before⟩ =
      ⟨((contextsFrom before rows).filterMap fun c => readAt c.1 c.2).foldl (push maxRefs) refs,
        openKey (rows.reverse ++ before)⟩ := by
  induction rows generalizing before refs with
  | nil => rfl
  | cons r rows ih =>
      have hstep : scanLine ⟨refs, openKey before⟩ (stripCr r.raw) =
          ⟨(readAt before r).toList.foldl (push maxRefs) refs, openKey (r :: before)⟩ := by
        rw [scanLine_row, readAt, openKey]
        cases hskip : skipped r with
        | true => cases rowSight r <;> rfl
        | false =>
            cases rowSight r with
            | opens => rfl
            | other => rfl
            | reads s =>
                simp only [ScanState.see, Bool.false_eq_true, if_false, Bool.not_false,
                  Bool.true_and, pushRef_eq]
                cases hs : s.isEmpty <;> cases (openKey before).any (· < column r) <;> simp
      rw [List.foldl_cons, hstep, ih, contextsFrom, List.reverse_cons, List.append_assoc]
      cases hread : readAt before r with
      | none => rw [List.filterMap_cons_none (by exact hread)]; rfl
      | some s => rw [List.filterMap_cons_some (by exact hread)]; rfl

/-- What `parse` finds is what is read. -/
theorem parse_render (d : Document) : parse d.render = collect maxRefs (reads d) := by
  rw [parse, lines_render, List.foldl_map]
  change (d.rows.foldl (fun st r => scanLine st (stripCr r.raw)) ⟨[], openKey []⟩).refs = _
  rw [foldl_scanLine]
  rfl

/-! ### When all paths are found -/

/-- An item names a path: it is a scalar, or a mapping with one under `path`. -/
def NamesPath : Node → Prop
  | .scalar _ => True
  | .mapping _ entries => ∃ e ∈ entries, e.1.1 = "path".toList ∧ ∃ s, e.2 = .scalar s
  | _ => False

/-- The composition keys of a kustomization hold sequences of paths. -/
def IsKustomization (d : Document) : Prop :=
  ∀ e ∈ d, isRefKey e.1.1 → ∃ offset items, e.2 = .sequence offset items ∧
    ∀ item ∈ items, NamesPath item

/-- What is read comes to the paths, as far as a repetition or a text over the cap can tell. -/
def SameTexts (d : Document) : Prop := collect maxRefs (reads d) = paths d

/-- On each line that is read which holds a path, and no other text is. -/
def Legible (d : Document) : Prop := ∀ c ∈ contexts d.rows, readAt c.1 c.2 = pathOf c.2

instance (d : Document) : Decidable (Legible d) :=
  inferInstanceAs (Decidable (∀ c ∈ contexts d.rows, _))

section Legible

variable {before : List Row} {r : Row} {s : Scalar} {list : Str}

theorem written_eq_content_iff (s : Scalar) : written s = s.content ↔ Unescaped s := by
  rw [← unquote_text_eq_content_iff]
  exact Eq.congr_left (unquote_inline (.scalar s)).symm

/-- An item is read for the path it is where its dash is deeper than the composition key that is
open, its quotes hold no colon with a blank, and it needs no escapes. -/
theorem legible_item_iff {pad : Nat} (hbody : r.body = .item (.scalar s)) (hdash : r.dashes = [pad])
    (hpath : r.path = [.key list, .item]) (hlist : isRefKey list) (hs : s.content ≠ []) :
    readAt before r = pathOf r ↔ (openKey before).any (· < column r) ∧
      ¬ [':', ' '] <:+: s.text ∧ Unescaped s := by
  have hskip : skipped r = false := by rw [skipped, hbody]
  have hmeant : pathOf r = some s.content := by
    rw [pathOf, hpath, hbody]
    simp [hlist, hs]
  have hsight : rowSight r = itemSight (.scalar s) := by rw [rowSight, hbody, hdash]
  rw [hmeant, readAt, hsight, itemSight, ← written_eq_content_iff]
  by_cases hcolon : [':', ' '] <:+: s.text
  · simp [Inline.text, hcolon]
  · by_cases hempty : written s = []
    · simp [Inline.text, hcolon, writtenInline, hempty, Ne.symm hs]
    · simp [Inline.text, hcolon, writtenInline, hempty, hskip]

/-- The value of `path` is read for the path it is where it stands right behind the dash of its
item, the dash is deeper than the composition key that is open, and it needs no escapes. -/
theorem legible_path_iff {key : Key} (hbody : r.body = .entry key (some (.scalar s)))
    (hdashes : r.dashes.length ≤ 1) (hpath : r.path = [.key list, .item, .key key.1])
    (hlist : isRefKey list) (hkey : isPathKey key.1) (hs : s.content ≠ []) :
    readAt before r = pathOf r ↔ r.dashes ≠ [] ∧ (openKey before).any (· < column r) ∧
      Unescaped s := by
  have hskip : skipped r = false := by rw [skipped, hbody]
  have hmeant : pathOf r = some s.content := by
    rw [pathOf, hpath, hbody]
    simp [hlist, hkey, hs]
  have hdash : key.1.head? ≠ some '-' := by
    intro hminus
    obtain ⟨c, hhead, hlower⟩ := head_of_isPathKey hkey
    obtain rfl := Option.some.inj (hminus.symm.trans hhead)
    exact absurd hlower (by decide)
  rw [hmeant, readAt, rowSight, hbody, ← written_eq_content_iff]
  cases hcases : r.dashes with
  | nil => simp
  | cons pad dashes =>
      obtain rfl : dashes = [] := by
        rw [hcases] at hdashes
        exact List.eq_nil_of_length_eq_zero (by simpa using hdashes)
      by_cases hempty : written s = []
      · simp [hdash, hkey, writtenInline, hempty, Ne.symm hs]
      · simp [hdash, hkey, writtenInline, hempty, hskip]

end Legible

/-- No text that is read or is a path comes twice, and the cap is not passed. -/
structure Distinct (d : Document) : Prop where
  apart : Apart (contexts d.rows) (fun c => readAt c.1 c.2) (fun c => pathOf c.2)
  reads : (reads d).length ≤ maxRefs
  paths : (d.rows.filterMap pathOf).length ≤ maxRefs

theorem filterMap_pathOf (d : Document) :
    (contexts d.rows).filterMap (fun c => pathOf c.2) = d.rows.filterMap pathOf :=
  filterMap_contexts pathOf d.rows

theorem sameTexts_of_legible {d : Document} (h : Legible d) : SameTexts d := by
  rw [SameTexts, paths, ← filterMap_pathOf, reads, List.filterMap_congr h]

theorem legible_of_sameTexts {d : Document} (hd : Distinct d) (h : SameTexts d) : Legible d := by
  rw [SameTexts, paths, ← filterMap_pathOf] at h
  have hpaths := hd.paths
  rw [← filterMap_pathOf] at hpaths
  exact pointwise_of_collect_eq hd.apart (nodup_contexts d.rows) hd.reads hpaths h

/-- `parse` returns the paths exactly where what it reads comes to them. That is so where each line
is read for the path it holds, and only there if nothing is repeated. -/
theorem parse_iff (d : Document) : (parse d.render = paths d ↔ SameTexts d) ∧
    (Legible d → SameTexts d) ∧ (Distinct d → SameTexts d → Legible d) :=
  ⟨by rw [parse_render, SameTexts], sameTexts_of_legible, legible_of_sameTexts⟩

theorem isPlain_kind : IsPlain "kind".toList := by decide +kernel

theorem isPlain_pod : IsPlain "Pod".toList := by decide +kernel

/-- Paths as items and as first keys, each list deeper than its key. -/
def indented : Document :=
  [(⟨"resources".toList, by decide +kernel⟩,
      .sequence 2 [.scalar (.plain "../base".toList (by decide +kernel)),
        .scalar (.double "app.yaml".toList)]),
    (⟨"patches".toList, by decide +kernel⟩,
      .sequence 2 [.mapping 0
        [(⟨"path".toList, by decide +kernel⟩,
          .scalar (.plain "p.yaml".toList (by decide +kernel))),
        (⟨"target".toList, by decide +kernel⟩, .mapping 1
          [(⟨"kind".toList, isPlain_kind⟩, .scalar (.plain "Pod".toList isPlain_pod))])]])]

example : Legible indented := by decide +kernel

/-- A list that is flush with its key. -/
def flush : Document :=
  [(⟨"resources".toList, by decide +kernel⟩,
    .sequence 0 [.scalar (.plain "app.yaml".toList (by decide +kernel))])]

example : flush.render = "resources:\n- app.yaml\n".toList := by decide +kernel

theorem flush_not_parsed : ¬ ∀ d, IsKustomization d → parse d.render = paths d := by
  intro h
  have hflush : IsKustomization flush := by
    intro e he _
    obtain rfl := List.mem_singleton.mp he
    refine ⟨_, _, rfl, fun item hitem => ?_⟩
    obtain rfl := List.mem_singleton.mp hitem
    trivial
  exact absurd (h flush hflush) (by decide +kernel)

end AutomatisedPipeline.Kustomize
