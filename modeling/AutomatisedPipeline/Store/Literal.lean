import AutomatisedPipeline.Text.Padding
import AutomatisedPipeline.Query.Mask

/-!
String literals of the graph store (`graph_store/mod.rs`,
`graph_store/serialize.rs`): `cypher_str` writes one, `unwrap_cypher_string` and
`literal_to_value` read it back, and the mask of the query gate sees one literal
token whatever the text it carries.

The rendering of a text in an error message and the reading of a floating-point
number are parameters.
-/

namespace AutomatisedPipeline.Store

open Text Lexical Query

/-! ### The source's definitions -/

/-- The `match` of `cypher_str` on one character. -/
def escapeChar (ch : Char) : Str :=
  if ch = '\\' then ['\\', '\\'] else if ch = '\'' then ['\\', '\''] else [ch]

/-- `cypher_str`. -/
def cypherStr (raw : Str) : Str := '\'' :: (raw.flatMap escapeChar ++ ['\''])

/-- The loop of `unwrap_cypher_string`. -/
def unescape : Str → Str
  | [] => []
  | ['\\'] => ['\\']
  | '\\' :: '\\' :: rest => '\\' :: unescape rest
  | '\\' :: '\'' :: rest => '\'' :: unescape rest
  | '\\' :: other :: rest => '\\' :: other :: unescape rest
  | ch :: rest => ch :: unescape rest

/-- `unwrap_cypher_string`. -/
def unwrapCypherString (s : Str) : Str :=
  if 2 ≤ s.length ∧ s.head? = some '\'' ∧ s.getLast? = some '\'' then
    unescape ((s.drop 1).take (s.length - 2))
  else s

/-- The column types of the store. -/
inductive LogicalType where
  | string | int64 | bool | double
  | other (name : Str)

/-- A typed parameter of a bulk insert. -/
inductive Value (Double : Type) where
  | null (ty : LogicalType)
  | string (s : Str)
  | int64 (n : Int)
  | bool (b : Bool)
  | double (d : Double)

/-- `str::parse` at `i64`, with the texts of its errors. -/
def parseI64 (s : Str) : Except Str Int :=
  let negative := s.head? = some '-'
  let digits := if negative ∨ s.head? = some '+' then s.tail else s
  if s = [] then .error "cannot parse integer from empty string".toList
  else if digits = [] ∨ digits.any (! Char.isDigit ·) then
    .error "invalid digit found in string".toList
  else
    let magnitude : Int := digits.foldl (fun n c => n * 10 + (c.toNat - '0'.toNat : Nat)) 0
    let value := if negative then -magnitude else magnitude
    if value < -2 ^ 63 then .error "number too small to fit in target type".toList
    else if 2 ^ 63 ≤ value then .error "number too large to fit in target type".toList
    else .ok value

/-- `literal_to_value`. -/
def literalToValue {Double : Type} (debug : Str → Str) (parseF64 : Str → Except Str Double)
    (lit : Option Str) (ty : LogicalType) (col : Str) : Except Str (Value Double) :=
  match lit with
  | none => .ok (.null ty)
  | some raw =>
      let trimmed := Indexer.trim raw
      if trimmed = [] then .ok (.null ty)
      else
        match ty with
        | .string => .ok (.string (unwrapCypherString trimmed))
        | .int64 =>
            match parseI64 trimmed with
            | .ok n => .ok (.int64 n)
            | .error e =>
                .error ("column ".toList ++ col ++ ": expected INT64, got ".toList ++ debug raw ++
                  ": ".toList ++ e)
        | .bool =>
            if trimmed.map Char.toLower = "true".toList then .ok (.bool true)
            else if trimmed.map Char.toLower ∈ ["false".toList, []] then .ok (.bool false)
            else
              .error ("column ".toList ++ col ++ ": expected BOOL, got ".toList ++ debug raw)
        | .double =>
            match parseF64 trimmed with
            | .ok d => .ok (.double d)
            | .error e =>
                .error ("column ".toList ++ col ++ ": expected DOUBLE, got ".toList ++ debug raw ++
                  ": ".toList ++ e)
        | .other name =>
            .error ("column ".toList ++ col ++ ": unsupported bulk-insert type ".toList ++ name)

/-- What a statement executes of its text: the mask without the stand-ins for
literals. -/
def executableText (query : Str) : Option Str :=
  (maskNonExecutable query).map fun mask => mask.filter (· ≠ maskedToken)

/-! ### Escaping and unescaping -/

/-- An escaped text stays between its quotes. -/
theorem quotedBody_escape (raw : Str) : QuotedBody '\'' (raw.flatMap escapeChar) := by
  induction raw with
  | nil => exact .nil
  | cons ch raw ih =>
      rw [List.flatMap_cons, escapeChar]
      split
      · exact .escaped (by decide) ih
      · rename_i hslash
        split
        · exact .escaped (by decide) ih
        · rename_i hquote
          exact .plain hquote (fun h => absurd h hslash) ih

theorem cypherStr_valid (raw : Str) : (Token.literal '\'' (raw.flatMap escapeChar)).Valid :=
  ⟨by decide, quotedBody_escape raw⟩

theorem unescape_cons {ch : Char} (h : ch ≠ '\\') (rest : Str) :
    unescape (ch :: rest) = ch :: unescape rest := by
  rw [unescape] <;> simp_all

theorem unescape_escape (raw : Str) : unescape (raw.flatMap escapeChar) = raw := by
  induction raw with
  | nil => rfl
  | cons ch raw ih =>
      rw [List.flatMap_cons]
      by_cases hslash : ch = '\\'
      · subst hslash
        simp [escapeChar, unescape, ih]
      · by_cases hquote : ch = '\''
        · subst hquote
          simp [escapeChar, unescape, ih]
        · have hplain : escapeChar ch = [ch] := by simp [escapeChar, hslash, hquote]
          rw [hplain, List.singleton_append, unescape_cons hslash, ih]

/-- `unwrap_cypher_string` is the inverse of `cypher_str`. -/
theorem unwrapCypherString_cypherStr (raw : Str) : unwrapCypherString (cypherStr raw) = raw := by
  have hquoted : 2 ≤ (cypherStr raw).length ∧ (cypherStr raw).head? = some '\'' ∧
      (cypherStr raw).getLast? = some '\'' := by
    refine ⟨by simp [cypherStr], rfl, ?_⟩
    rw [cypherStr, ← List.cons_append, List.getLast?_append]
    rfl
  have hbody : ((cypherStr raw).drop 1).take ((cypherStr raw).length - 2) =
      raw.flatMap escapeChar := by
    simp [cypherStr]
  rw [unwrapCypherString, if_pos hquoted, hbody, unescape_escape]

/-- A text between quotes has no white space at its ends. -/
theorem trim_cypherStr (raw : Str) : Indexer.trim (cypherStr raw) = cypherStr raw := by
  have hlast : (cypherStr raw).getLast? = some '\'' := by
    rw [cypherStr, ← List.cons_append, List.getLast?_append]
    rfl
  refine trim_eq_self ⟨?_, ?_⟩
  · rintro c ⟨⟩
    rfl
  · rw [hlast]
    rintro c ⟨⟩
    rfl

theorem literalToValue_cypherStr {Double : Type} (debug : Str → Str)
    (parseF64 : Str → Except Str Double) (raw col : Str) :
    literalToValue debug parseF64 (some (cypherStr raw)) .string col = .ok (.string raw) := by
  have hne : cypherStr raw ≠ [] := List.cons_ne_nil _ _
  simp only [literalToValue, trim_cypherStr, if_neg hne, unwrapCypherString_cypherStr]

/-! ### An escaped value in a statement -/

/-- The text `pre` ends outside literals and comments: it has a token sequence, and
its last token is not a line comment, which would go on behind it. -/
def EndsOutside (pre : Str) : Prop :=
  ∃ ts, Lexes pre ts ∧ ∀ body, ts.getLast? ≠ some (.lineComment body)

/-- Every token but a line comment ends before a quote. -/
theorem endsBefore_quote {t : Token} (h : ∀ body, t ≠ .lineComment body) :
    t.EndsBefore (some '\'') := by
  unfold Token.EndsBefore
  split
  · exact absurd rfl (h _)
  · simp only [Option.mem_some_iff, forall_eq']
    decide
  · simp only [Option.mem_some_iff, forall_eq']
    decide
  · trivial

/-- The mask of a text behind a token sequence, also where that text is left
unterminated. -/
theorem maskNonExecutable_append {x y : Str} {ts : List Token} (hx : Lexes x ts)
    (boundary : ∀ t ∈ ts.getLast?, t.EndsBefore y.head?) :
    maskNonExecutable (x ++ y) = (maskNonExecutable y).map (ts.flatMap masked ++ ·) := by
  induction hx with
  | nil => simp
  | @cons t rest ts hv he hr ih =>
      have hnext : t.EndsBefore (rest ++ y).head? := by
        cases hr with
        | nil => simpa using boundary t (by simp)
        | @cons u rest' us' hu _ _ =>
            obtain ⟨c, cs, hc⟩ := List.exists_cons_of_ne_nil (Token.text_ne_nil hu)
            simpa [hc] using he
      have hboundary : ∀ u ∈ ts.getLast?, u.EndsBefore y.head? := by
        intro u hu
        apply boundary
        cases ts with
        | nil => simp at hu
        | cons u' ts' => simpa using hu
      rw [List.append_assoc, maskNonExecutable_token hv hnext, ih hboundary]
      simp [Option.map_map, Function.comp_def]

/-- The mask of a statement with an escaped value in it. -/
theorem mask_around_value {pre : Str} {ts : List Token} (hpre : Lexes pre ts)
    (hout : ∀ body, ts.getLast? ≠ some (.lineComment body)) (raw post : Str) :
    maskNonExecutable (pre ++ cypherStr raw ++ post) = (maskNonExecutable post).map
      (ts.flatMap masked ++ List.replicate (cypherStr raw).length maskedToken ++ ·) := by
  have hlast : ∀ t ∈ ts.getLast?, t.EndsBefore (cypherStr raw ++ post).head? := by
    intro t ht
    refine endsBefore_quote fun body hbody => hout body ?_
    rw [← hbody]
    exact ht
  have hliteral : maskNonExecutable (cypherStr raw ++ post) = (maskNonExecutable post).map
      (List.replicate (cypherStr raw).length maskedToken ++ ·) :=
    maskNonExecutable_token (cypherStr_valid raw) trivial
  rw [List.append_assoc, maskNonExecutable_append hpre hlast, hliteral, Option.map_map]
  simp [Function.comp_def]

/-- An escaped value is one literal of its statement. Behind any text that ends
outside literals and comments, the mask of the statement is the mask of that text, the
mask of the one literal and the mask of the text behind it (which may be left
unterminated, and then the whole is), so what the statement executes does not depend
on the value. The readers of the literal give the value back. -/
theorem escaped_value_is_one_literal {Double : Type} (debug : Str → Str)
    (parseF64 : Str → Except Str Double) (pre post raw : Str) (hpre : EndsOutside pre) :
    maskNonExecutable (cypherStr raw) =
        some (List.replicate (cypherStr raw).length maskedToken) ∧
      (∃ preMask, maskNonExecutable pre = some preMask ∧
        maskNonExecutable (pre ++ cypherStr raw ++ post) = (maskNonExecutable post).map
          (preMask ++ List.replicate (cypherStr raw).length maskedToken ++ ·)) ∧
      (∀ other, executableText (pre ++ cypherStr other ++ post) =
        executableText (pre ++ cypherStr raw ++ post)) ∧
      unwrapCypherString (cypherStr raw) = raw ∧
      ∀ col, literalToValue debug parseF64 (some (cypherStr raw)) .string col = .ok (.string raw) := by
  obtain ⟨ts, hts, hout⟩ := hpre
  refine ⟨?_, ⟨_, maskNonExecutable_complete hts, mask_around_value hts hout raw post⟩, ?_,
    unwrapCypherString_cypherStr raw, literalToValue_cypherStr debug parseF64 raw⟩
  · have halone := mask_around_value .nil (by simp) raw []
    simpa [maskNonExecutable] using halone
  · intro other
    rw [executableText, executableText, mask_around_value hts hout, mask_around_value hts hout,
      Option.map_map, Option.map_map]
    congr 1
    funext mask
    simp

theorem escaped_value_is_one_literal_injection :
    maskNonExecutable ("RETURN ".toList ++ cypherStr "' DETACH DELETE n //\\".toList ++
        " AS x".toList) =
      some ("RETURN ".toList ++ List.replicate 25 maskedToken ++ " AS x".toList) := by
  have hspace : Lexes [' '] [.punct ' '] :=
    .cons_punct (by decide) (by decide) (by decide) .nil
  have hlex : Lexes ("RETURN".toList ++ [' ']) [.word "RETURN".toList, .punct ' '] :=
    .cons_closed (by decide) hspace
  have hpre : EndsOutside "RETURN ".toList :=
    ⟨[.word "RETURN".toList, .punct ' '], hlex, fun body => by simp⟩
  obtain ⟨-, ⟨preMask, hmask, hwhole⟩, -⟩ := escaped_value_is_one_literal id
    (fun _ => (.ok () : Except Str Unit)) "RETURN ".toList " AS x".toList
    "' DETACH DELETE n //\\".toList hpre
  have hpreMask : maskNonExecutable "RETURN ".toList = some "RETURN ".toList := by decide +kernel
  have hpost : maskNonExecutable " AS x".toList = some " AS x".toList := by decide +kernel
  rw [hwhole, hpost, ← Option.some.inj (hpreMask.symm.trans hmask)]
  rfl

end AutomatisedPipeline.Store
