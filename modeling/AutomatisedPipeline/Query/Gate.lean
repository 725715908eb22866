import AutomatisedPipeline.Query.Mask

/-!
The read-only gate of `query_graph` (`query_handlers/read_only_gate.rs`) over the
masked view of a query, and what it means for the tokens of the query.

* `mem_keywordTokenPositions_of_word`: the keyword scan finds every word token
  that folds to the keyword and does not stand in an identifier position.
* `inIdentifierPosition_masked`: the look-back of the scan over the masked text is
  the look-back over the token sequence.
* `gate_misses_no_write`: an accepted query has a token sequence, none of its
  words is a forbidden keyword outside an identifier position, and every `CALL`
  there names an allow-listed procedure.
-/

namespace AutomatisedPipeline.Query

open Text Lexical

/-! ### The source's definitions -/

/-- `is_ident_char`. -/
def isIdentChar (b : Char) : Bool := b.isAlphanum || b == '_'

/-- `is_separator`. -/
def isSeparator (b : Char) : Bool := isAsciiWhitespace b

/-- `FORBIDDEN_CYPHER_KEYWORDS`. -/
def forbiddenCypherKeywords : List Str :=
  ["CREATE", "DELETE", "MERGE", "SET", "REMOVE", "DROP", "ALTER", "LOAD", "COPY", "EXPORT",
    "IMPORT", "ATTACH", "DETACH", "USE"].map String.toList

/-- `READ_ONLY_PROCEDURES`. -/
def readOnlyProcedures : List Str := ["TABLE_INFO", "SHOW_TABLES"].map String.toList

def callKeyword : Str := "CALL".toList

/-- `IdentifierExemption`: which identifier positions a scan exempts. -/
inductive IdentifierExemption where
  | sigilOnly
  | sigilOrAlias
deriving DecidableEq, Repr

/-- The tests of `in_identifier_position` on the text before a token, nearest
character first, once the separators are skipped: `.` or `:`, or the word `AS`
where aliases are exempt. -/
def introducedBy (exemption : IdentifierExemption) : Str → Bool
  | [] => false
  | c :: before =>
      if c = '.' ∨ c = ':' then true
      else if exemption = .sigilOnly then false
      else
        match before with
        | [] => false
        | d :: before =>
            d.toLower == 'a' && c.toLower == 's' && before.head?.all (! isIdentChar ·)

/-- `in_identifier_position`: the token starting at `start` is introduced by `.`
or `:`, or by the word `AS` where aliases are exempt. -/
def inIdentifierPosition (bytes : Str) (start : Nat) (exemption : IdentifierExemption) : Bool :=
  introducedBy exemption ((bytes.take start).reverse.dropWhile isSeparator)

/-- The loop body of `keyword_token_positions` at position `i`. -/
def isKeywordTokenAt (haystack needle : Str) (exemption : IdentifierExemption) (i : Nat) : Bool :=
  (haystack.drop i).take needle.length == needle &&
    (haystack.take i).getLast?.all (! isIdentChar ·) &&
    (haystack.drop (i + needle.length)).head?.all (! isIdentChar ·) &&
    ! inIdentifierPosition haystack i exemption

/-- `keyword_token_positions`. -/
def keywordTokenPositions (haystack needle : Str) (exemption : IdentifierExemption) : List Nat :=
  if needle.isEmpty || haystack.length < needle.length then []
  else
    (List.range (haystack.length - needle.length + 1)).filter
      (isKeywordTokenAt haystack needle exemption)

/-- `contains_keyword_token`. -/
def containsKeywordToken (haystack needle : Str) : Bool :=
  !(keywordTokenPositions haystack needle .sigilOnly).isEmpty

/-- `procedure_name_at`: the identifier at or after `j`. -/
def procedureNameAt (bytes : Str) (j : Nat) : Str :=
  ((bytes.drop j).dropWhile isAsciiWhitespace).takeWhile isIdentChar

/-- `carries_unlisted_procedure`. -/
def carriesUnlistedProcedure (executableUpper : Str) : Bool :=
  (keywordTokenPositions executableUpper callKeyword .sigilOnly).any fun start =>
    !readOnlyProcedures.contains (procedureNameAt executableUpper (start + callKeyword.length))

/-- `forbidden_cypher_keyword`: the first forbidden keyword, `none` when the
query is safe. -/
def forbiddenCypherKeyword (query : Str) : Option Str :=
  match maskNonExecutable query with
  | none => some "UNTERMINATED_LITERAL".toList
  | some executable =>
      let upper := executable.map Char.toUpper
      match forbiddenCypherKeywords.find? (containsKeywordToken upper) with
      | some kw => some kw
      | none => if carriesUnlistedProcedure upper then some callKeyword else none

/-- `is_multi_statement`: a `;` with executable text after it. -/
def isMultiStatement (query : Str) : Bool :=
  match maskNonExecutable query with
  | none => true
  | some executable =>
      match splitOnce ';' executable with
      | some (_, rest) => !trimIsEmpty rest
      | none => false

/-- `gated_cypher_request`, with the `query` and `offset` fields of the arguments
and whether the graph exists: the query and the offset of an accepted request. -/
def gatedCypherRequest (query : Option Str) (offset : Option Nat) (graphStr : String)
    (graphExists : Bool) : Except String (Str × Nat) :=
  match query with
  | none => .error "missing required field 'query'"
  | some query =>
      match forbiddenCypherKeyword query with
      | some bad =>
          .error ("read_only_query_required: query_graph is read-only; " ++
            "found forbidden keyword: " ++ String.ofList bad)
      | none =>
          if isMultiStatement query then
            .error ("multi_statement_not_supported: query_graph executes exactly one " ++
              "statement per call. The engine's read-only classification and this " ++
              "tool's LIMIT injection, ORDER BY detection and offset cursor are " ++
              "all properties of a single statement, so a `;`-chained request has " ++
              "no well-defined page. Send one statement per call; a trailing `;` " ++
              "is accepted.")
          else if graphExists then .ok (query, offset.getD 0)
          else .error ("graph_path does not exist: " ++ graphStr)

/-- The gate accepts `query`. -/
def Accepted (query : Str) : Prop :=
  forbiddenCypherKeyword query = none ∧ isMultiStatement query = false

instance (query : Str) : Decidable (Accepted query) := by
  unfold Accepted; infer_instance

theorem gatedCypherRequest_ok_iff {query : Option Str} {offset : Option Nat} {graphStr : String}
    {graphExists : Bool} {q : Str} {n : Nat} :
    gatedCypherRequest query offset graphStr graphExists = .ok (q, n) ↔
      query = some q ∧ Accepted q ∧ graphExists = true ∧ n = offset.getD 0 := by
  cases query with
  | none => simp [gatedCypherRequest]
  | some query =>
      simp only [gatedCypherRequest, Option.some.injEq, Accepted]
      cases hf : forbiddenCypherKeyword query with
      | some bad =>
          simp only [reduceCtorEq, false_iff, not_and]
          rintro rfl h
          simp [hf] at h
      | none =>
          cases hm : isMultiStatement query with
          | true =>
              simp only [if_true, reduceCtorEq, false_iff, not_and]
              rintro rfl h
              simp [hm] at h
          | false =>
              cases graphExists with
              | false => simp
              | true =>
                  simp only [Bool.false_eq_true, if_false, if_true, Except.ok.injEq,
                    Prod.mk.injEq, true_and]
                  constructor
                  · rintro ⟨rfl, rfl⟩; exact ⟨rfl, ⟨hf, hm⟩, rfl⟩
                  · rintro ⟨rfl, -, rfl⟩; exact ⟨rfl, rfl⟩

/-! ### Identifier positions of a token sequence -/

theorem isIdentChar_eq : isIdentChar = isWordChar := rfl

/-- The nearest token before a position that is not a separator. -/
def introducer (pre : List Token) : Option Token := (pre.reverse.dropWhile Token.isSeparator).head?

/-- The position after the tokens `pre` is an identifier position: it is
introduced by `.` or `:`, or by the word `AS` where aliases are exempt. -/
def identifierPosition (exemption : IdentifierExemption) (pre : List Token) : Bool :=
  match introducer pre with
  | some (.punct c) => c == '.' || c == ':'
  | some (.word w) => exemption == .sigilOrAlias && w.map Char.toLower == ['a', 's']
  | _ => false

/-- A masked token that is not a word has no word character. -/
theorem not_word_of_mem_masked {t : Token} (hv : t.Valid) (ht : ∀ w, t ≠ .word w) {c : Char}
    (hc : c ∈ masked t) : isWordChar c = false := by
  cases t with
  | word w => exact absurd rfl (ht w)
  | punct d =>
      obtain rfl : c = d := by simpa [masked] using hc
      exact hv.1
  | literal q body =>
      obtain rfl := List.eq_of_mem_replicate hc
      decide
  | lineComment body =>
      obtain rfl := List.eq_of_mem_replicate hc
      decide
  | blockComment body =>
      obtain rfl := List.eq_of_mem_replicate hc
      decide

theorem masked_ne_nil {t : Token} (hv : t.Valid) : masked t ≠ [] := by
  cases t with
  | word w => exact hv.1
  | _ => simp [masked, Token.text]

/-- The mask of a separator is white space. -/
theorem whitespace_of_mem_masked {t : Token} (ht : t.isSeparator = true) {c : Char}
    (hc : c ∈ masked t) : isAsciiWhitespace c = true := by
  cases t with
  | word w => simp [Token.isSeparator] at ht
  | literal q body => simp [Token.isSeparator] at ht
  | punct d =>
      obtain rfl : c = d := by simpa [masked] using hc
      exact ht
  | lineComment body =>
      obtain rfl := List.eq_of_mem_replicate hc
      decide
  | blockComment body =>
      obtain rfl := List.eq_of_mem_replicate hc
      decide

theorem not_whitespace_of_word {c : Char} (h : isWordChar c = true) :
    isAsciiWhitespace c = false := by
  by_contra hw
  simp only [isAsciiWhitespace, Bool.not_eq_false, Bool.or_eq_true, beq_iff_eq] at hw
  rcases hw with (((rfl | rfl) | rfl) | rfl) | rfl <;> exact absurd h (by decide)

/-- The mask of any other token has no white space. -/
theorem not_whitespace_of_mem_masked {t : Token} (hv : t.Valid) (ht : t.isSeparator = false)
    {c : Char} (hc : c ∈ masked t) : isAsciiWhitespace c = false := by
  cases t with
  | word w => exact not_whitespace_of_word (hv.2 c hc)
  | lineComment body => cases ht
  | blockComment body => cases ht
  | punct d =>
      obtain rfl : c = d := by simpa [masked] using hc
      exact ht
  | literal q body =>
      obtain rfl := List.eq_of_mem_replicate hc
      decide

/-- Before a word the masked text does not end in a word character. -/
theorem getLast_not_word {s : Str} {pre post : List Token} {w : Str}
    (h : Lexes s (pre ++ .word w :: post)) :
    ∀ c ∈ (pre.flatMap masked).getLast?, isWordChar c = false := by
  intro c hc
  rcases List.eq_nil_or_concat pre with rfl | ⟨pre', t, rfl⟩
  · simp at hc
  · have hv : t.Valid := h.valid t (by simp)
    have hlast : c ∈ (masked t).getLast? := by
      simpa [List.getLast?_append, masked_ne_nil hv] using hc
    refine not_word_of_mem_masked hv ?_ (List.mem_of_getLast? hlast)
    rintro v rfl
    rw [List.concat_eq_append, List.append_assoc] at h
    exact h.no_adjacent_words

/-- After a word the masked text does not start with a word character. -/
theorem head_not_word {s : Str} {pre post : List Token} {w : Str}
    (h : Lexes s (pre ++ .word w :: post)) :
    ∀ c ∈ (post.flatMap masked).head?, isWordChar c = false := by
  intro c hc
  cases post with
  | nil => simp at hc
  | cons t post =>
      have hv : t.Valid := h.valid t (by simp)
      obtain ⟨d, m, hm⟩ := List.exists_cons_of_ne_nil (masked_ne_nil hv)
      obtain rfl : d = c := by simpa [hm] using hc
      refine not_word_of_mem_masked hv ?_ (by simp [hm])
      rintro v rfl
      exact h.no_adjacent_words

theorem not_sigil_of_word {c : Char} (h : isWordChar c = true) : ¬(c = '.' ∨ c = ':') := by
  rintro (rfl | rfl) <;> exact absurd h (by decide)

theorem word_of_toLower {c : Char} {d : Char} (hd : d ∈ ['a', 's']) (h : c.toLower = d) :
    isWordChar c = true := by
  rw [← asciiFold_toLower.word, h]
  rcases List.mem_pair.mp hd with rfl | rfl <;> decide

/-- The tests of the look-back on a word: only `AS` introduces an identifier. -/
theorem introducedBy_word {fold : Char → Char} (hf : AsciiFold fold) {w back : Str}
    (hw : (Token.word w).Valid) (hback : ∀ c ∈ back.head?, isWordChar c = false)
    (exemption : IdentifierExemption) :
    introducedBy exemption ((w.map fold).reverse ++ back) =
      (exemption == .sigilOrAlias && w.map Char.toLower == ['a', 's']) := by
  obtain ⟨hne, hchars⟩ := hw
  rcases List.eq_nil_or_concat w with rfl | ⟨w', c, rfl⟩
  · exact absurd rfl hne
  rw [List.concat_eq_append] at hchars ⊢
  have hc : isWordChar (fold c) = true := by rw [hf.word]; exact hchars c (by simp)
  have hsigil := not_sigil_of_word hc
  cases exemption with
  | sigilOnly => simp [introducedBy, hsigil]
  | sigilOrAlias =>
      rcases List.eq_nil_or_concat w' with rfl | ⟨w'', d, rfl⟩
      · -- a one-letter word: what precedes it is not a letter
        cases back with
        | nil => simp [introducedBy, hsigil]
        | cons e back =>
            have he : e.toLower ≠ 'a' := fun h => by
              simpa [hback e (by simp)] using word_of_toLower (by simp) h
            simp [introducedBy, hsigil, he]
      · rw [List.concat_eq_append] at hchars ⊢
        rcases List.eq_nil_or_concat w'' with rfl | ⟨u, e, rfl⟩
        · -- a two-letter word
          have hhead : back.head?.all (fun x => !isIdentChar x) = true := by
            cases hb : back.head? with
            | none => rfl
            | some x => simpa [isIdentChar_eq] using hback x hb
          simp [introducedBy, hsigil, hhead, hf.toLower]
        · -- a longer word
          have he : isIdentChar (fold e) = true := by
            have := hf.word e
            rw [hchars e (by simp)] at this
            exact this
          have hlong : u.map Char.toLower ++ [e.toLower, d.toLower, c.toLower] ≠ ['a', 's'] := by
            intro h
            simpa using congrArg List.length h
          simp [introducedBy, hsigil, he, hlong]

/-- The tests of the look-back on a masked token that is neither a word nor a
separator. -/
theorem introducedBy_mark {fold : Char → Char} (hf : AsciiFold fold) {c : Char} {back : Str}
    (hc : isWordChar c = false) (exemption : IdentifierExemption) :
    introducedBy exemption (fold c :: back) = (c == '.' || c == ':') := by
  rw [hf.fixed c hc]
  by_cases hsigil : c = '.' ∨ c = ':'
  · rcases hsigil with rfl | rfl <;> simp [introducedBy]
  · have hs : c.toLower ≠ 's' := fun h => by
      simpa [hc] using word_of_toLower (by simp) h
    have hs' : (c.toLower == 's') = false := by simpa using hs
    rw [not_or] at hsigil
    have hc' : (c == '.' || c == ':') = false := by simpa using hsigil
    cases back with
    | nil => simp [introducedBy, hsigil]
    | cons d back => simp [introducedBy, hsigil, hs']

/-- The look-back skips a separator. -/
theorem dropWhile_masked_separator {fold : Char → Char} (hf : AsciiFold fold) {t : Token}
    (hsep : t.isSeparator = true) (back : Str) :
    (((masked t).map fold).reverse ++ back).dropWhile isSeparator = back.dropWhile isSeparator := by
  apply List.dropWhile_append_of_pos
  intro c hc
  obtain ⟨d, hd, rfl⟩ := List.mem_map.mp (List.mem_reverse.mp hc)
  simpa [isSeparator, hf.whitespace] using whitespace_of_mem_masked hsep hd

/-- The look-back stops at anything else. -/
theorem dropWhile_masked {fold : Char → Char} (hf : AsciiFold fold) {t : Token} (hv : t.Valid)
    (hsep : t.isSeparator = false) (back : Str) :
    (((masked t).map fold).reverse ++ back).dropWhile isSeparator =
      ((masked t).map fold).reverse ++ back := by
  obtain ⟨c, v, hcv⟩ := List.exists_cons_of_ne_nil
    (show ((masked t).map fold).reverse ≠ [] by simpa using masked_ne_nil hv)
  have hmem : c ∈ ((masked t).map fold).reverse := hcv ▸ List.mem_cons_self
  obtain ⟨d, hd, rfl⟩ := List.mem_map.mp (List.mem_reverse.mp hmem)
  have hmark : isSeparator (fold d) = false := by
    rw [isSeparator, hf.whitespace]
    exact not_whitespace_of_mem_masked hv hsep hd
  rw [hcv, List.cons_append, List.dropWhile_cons_of_neg (by simp [hmark])]

/-- The text in front of a word does not end in a word character. -/
theorem not_word_before {fold : Char → Char} (hf : AsciiFold fold) {x w : Str} {pre : List Token}
    (h : Lexes x (pre ++ [.word w])) :
    ∀ c ∈ ((pre.flatMap masked).map fold).reverse.head?, isWordChar c = false := by
  intro c hc
  rw [List.head?_reverse, List.getLast?_map] at hc
  obtain ⟨d, hd, rfl⟩ := Option.map_eq_some_iff.mp hc
  rw [hf.word]
  exact getLast_not_word h d hd

/-- The look-back of `in_identifier_position` over a masked and folded token
sequence is the look-back over its tokens. -/
theorem inIdentifierPosition_masked {fold : Char → Char} (hf : AsciiFold fold) {x : Str}
    {pre : List Token} (h : Lexes x pre) (rest : Str) (exemption : IdentifierExemption) :
    inIdentifierPosition ((pre.flatMap masked).map fold ++ rest) (pre.flatMap masked).length
      exemption = identifierPosition exemption pre := by
  have htake : ((pre.flatMap masked).map fold ++ rest).take (pre.flatMap masked).length =
      (pre.flatMap masked).map fold := List.take_left' (by simp)
  unfold inIdentifierPosition
  rw [htake]
  clear htake
  induction pre using List.reverseRecOn generalizing x with
  | nil => rfl
  | append_singleton pre t ih =>
      have hv : t.Valid := h.valid t (by simp)
      obtain ⟨y, z, -, hpre, -, -⟩ := h.split
      rw [List.flatMap_append, List.flatMap_singleton, List.map_append, List.reverse_append]
      by_cases hsep : t.isSeparator = true
      · -- a separator is skipped on both sides
        rw [dropWhile_masked_separator hf hsep, ih hpre]
        simp [identifierPosition, introducer, hsep]
      · have hintro : introducer (pre ++ [t]) = some t := by simp [introducer, hsep]
        rw [identifierPosition, hintro, dropWhile_masked hf hv (by simpa using hsep)]
        cases t with
        | lineComment body => exact absurd rfl hsep
        | blockComment body => exact absurd rfl hsep
        | literal q body =>
            have hlen : (Token.literal q body).text.length = body.length + 1 + 1 := by
              simp [Token.text]
            rw [masked, hlen, List.map_replicate, List.reverse_replicate, List.replicate_succ,
              List.cons_append, introducedBy_mark hf (by decide)]
            rfl
        | punct c =>
            rw [masked, List.map_singleton, List.reverse_singleton, List.singleton_append,
              introducedBy_mark hf hv.1]
        | word w =>
            rw [masked, introducedBy_word hf hv (not_word_before hf h)]

/-! ### The keyword scan sees every word -/

/-- The masked text around a word token. -/
theorem mask_around {pre post : List Token} {w : Str} (fold : Char → Char) :
    ((pre ++ .word w :: post).flatMap masked).map fold =
      (pre.flatMap masked).map fold ++ (w.map fold ++ (post.flatMap masked).map fold) := by
  simp [masked]

/-- The keyword scan finds every word that folds to the keyword and does not
stand in an exempted identifier position. -/
theorem mem_keywordTokenPositions_of_word {fold : Char → Char} (hf : AsciiFold fold) {s : Str}
    {pre post : List Token} {w : Str} (h : Lexes s (pre ++ .word w :: post))
    {exemption : IdentifierExemption} (hpos : identifierPosition exemption pre = false) :
    (pre.flatMap masked).length ∈ keywordTokenPositions
      (((pre ++ .word w :: post).flatMap masked).map fold) (w.map fold) exemption := by
  obtain ⟨x, y, -, hx, -, -⟩ := h.split
  have hw : w ≠ [] := (h.valid (.word w) (by simp)).1
  have hbefore : ∀ c ∈ ((pre.flatMap masked).map fold).getLast?, isIdentChar c = false := by
    intro c hc
    rw [List.getLast?_map] at hc
    obtain ⟨d, hd, rfl⟩ := Option.map_eq_some_iff.mp hc
    rw [isIdentChar_eq, hf.word]
    exact getLast_not_word h d hd
  have hafter : ∀ c ∈ ((post.flatMap masked).map fold).head?, isIdentChar c = false := by
    intro c hc
    rw [List.head?_map] at hc
    obtain ⟨d, hd, rfl⟩ := Option.map_eq_some_iff.mp hc
    rw [isIdentChar_eq, hf.word]
    exact head_not_word h d hd
  rw [mask_around fold]
  have hlook := inIdentifierPosition_masked hf hx (w.map fold ++ (post.flatMap masked).map fold)
    exemption
  generalize hm : (pre.flatMap masked).map fold = m at *
  generalize hr : (post.flatMap masked).map fold = r at *
  have hlen : (pre.flatMap masked).length = m.length := by rw [← hm, List.length_map]
  rw [hlen] at hlook ⊢
  have hhit : isKeywordTokenAt (m ++ (w.map fold ++ r)) (w.map fold) exemption m.length = true := by
    have hdrop : (m ++ (w.map fold ++ r)).drop (m.length + w.length) = r := by
      simp [← List.drop_drop]
    simp only [isKeywordTokenAt, hlook, hpos, List.drop_left, List.take_left, hdrop,
      List.length_map, List.take_left' (@List.length_map _ _ w fold), beq_self_eq_true,
      Bool.not_false, Bool.and_true, Bool.true_and, Bool.and_eq_true]
    constructor
    · cases hl : m.getLast? with
      | none => rfl
      | some c => simpa using hbefore c hl
    · cases hd : r.head? with
      | none => rfl
      | some c => simpa using hafter c hd
  have hne : ((w.map fold).isEmpty || decide
      ((m ++ (w.map fold ++ r)).length < (w.map fold).length)) = false := by
    simp only [List.isEmpty_map, List.length_append, List.length_map, Bool.or_eq_false_iff,
      List.isEmpty_eq_false_iff, decide_eq_false_iff_not]
    exact ⟨hw, by omega⟩
  rw [keywordTokenPositions, hne]
  refine List.mem_filter.mpr ⟨List.mem_range.mpr ?_, hhit⟩
  simp only [List.length_append, List.length_map]
  omega

/-- The identifier that `procedure_name_at` reads is a word token behind
separators. -/
theorem procedureName_word {fold : Char → Char} (hf : AsciiFold fold) {s : Str}
    {post : List Token} (h : Lexes s post) :
    (((post.flatMap masked).map fold).dropWhile isAsciiWhitespace).takeWhile isIdentChar = [] ∨
    ∃ seps p post', post = seps ++ .word p :: post' ∧ (∀ t ∈ seps, t.isSeparator = true) ∧
      (((post.flatMap masked).map fold).dropWhile isAsciiWhitespace).takeWhile isIdentChar =
        p.map fold := by
  induction post generalizing s with
  | nil => exact .inl rfl
  | cons t post ih =>
      have hv : t.Valid := h.valid t (by simp)
      rw [List.flatMap_cons, List.map_append]
      by_cases hsep : t.isSeparator = true
      · have hall : ∀ c ∈ (masked t).map fold, isAsciiWhitespace c = true := by
          intro c hc
          obtain ⟨d, hd, rfl⟩ := List.mem_map.mp hc
          rw [hf.whitespace]
          exact whitespace_of_mem_masked hsep hd
        rw [List.dropWhile_append_of_pos hall]
        obtain ⟨x, y, -, -, hy, -⟩ := Lexes.split (show Lexes s ([t] ++ post) from h)
        rcases ih hy with hempty | ⟨seps, p, post', rfl, hseps, hname⟩
        · exact .inl hempty
        · refine .inr ⟨t :: seps, p, post', rfl, ?_, hname⟩
          simpa using ⟨hsep, hseps⟩
      · obtain ⟨c, m, hcm⟩ := List.exists_cons_of_ne_nil (masked_ne_nil hv)
        have hc : isAsciiWhitespace (fold c) = false := by
          rw [hf.whitespace]
          exact not_whitespace_of_mem_masked hv (by simpa using hsep) (by simp [hcm])
        have hdrop : ((masked t).map fold ++ (post.flatMap masked).map fold).dropWhile
            isAsciiWhitespace = (masked t).map fold ++ (post.flatMap masked).map fold := by
          rw [hcm, List.map_cons, List.cons_append, List.dropWhile_cons_of_neg (by simp [hc])]
        rw [hdrop]
        by_cases hw : ∃ w, t = .word w
        · obtain ⟨w, rfl⟩ := hw
          refine .inr ⟨[], w, post, rfl, by simp, ?_⟩
          have hend : ((post.flatMap masked).map fold).takeWhile isIdentChar = [] := by
            have hnext := @head_not_word s [] post w h
            cases hp : post.flatMap masked with
            | nil => rfl
            | cons d r =>
                have hd : isIdentChar (fold d) = false := by
                  rw [isIdentChar_eq, hf.word]
                  exact hnext d (by simp [hp])
                simp [hd]
          rw [masked, List.takeWhile_append_of_pos, hend, List.append_nil]
          intro c hc
          obtain ⟨d, hd, rfl⟩ := List.mem_map.mp hc
          rw [isIdentChar_eq, hf.word]
          exact hv.2 d hd
        · -- neither a separator nor a word: the name is empty
          refine .inl ?_
          have hword : isIdentChar (fold c) = false := by
            rw [isIdentChar_eq, hf.word]
            exact not_word_of_mem_masked hv (fun w hw' => hw ⟨w, hw'⟩) (by simp [hcm])
          simp [hcm, hword]

/-! ### The gate misses no write -/

theorem not_containsKeyword {fold : Char → Char} (hf : AsciiFold fold) {s : Str}
    {pre post : List Token} {w : Str} (h : Lexes s (pre ++ .word w :: post))
    (hnone : containsKeywordToken (((pre ++ .word w :: post).flatMap masked).map fold)
      (w.map fold) = false) : identifierPosition .sigilOnly pre = true := by
  by_contra hpos
  have hmem := mem_keywordTokenPositions_of_word hf h (by simpa using hpos)
  simp only [containsKeywordToken, Bool.not_eq_false', List.isEmpty_iff] at hnone
  rw [hnone] at hmem
  cases hmem

/-- The procedure that a `CALL` outside an identifier position names. -/
theorem listed_procedure {fold : Char → Char} (hf : AsciiFold fold) {s : Str}
    {pre post : List Token} {w : Str} (h : Lexes s (pre ++ .word w :: post))
    (hcall : w.map fold = callKeyword) (hpos : identifierPosition .sigilOnly pre = false)
    (hlisted : carriesUnlistedProcedure (((pre ++ .word w :: post).flatMap masked).map fold) =
      false) :
    ∃ seps p post', post = seps ++ .word p :: post' ∧ (∀ t ∈ seps, t.isSeparator = true) ∧
      p.map fold ∈ readOnlyProcedures := by
  obtain ⟨x, y, -, -, hy, -⟩ := h.split
  obtain ⟨z, y', -, -, hpost, -⟩ := Lexes.split (show Lexes y ([.word w] ++ post) from hy)
  have hmem := mem_keywordTokenPositions_of_word hf h hpos
  rw [hcall] at hmem
  simp only [carriesUnlistedProcedure, List.any_eq_false, Bool.not_eq_true, Bool.not_eq_false',
    List.contains_iff_mem] at hlisted
  have hname := hlisted _ hmem
  have hdrop : (((pre ++ .word w :: post).flatMap masked).map fold).drop
      ((pre.flatMap masked).length + callKeyword.length) = (post.flatMap masked).map fold := by
    rw [mask_around fold, ← hcall, List.length_map, ← List.drop_drop,
      List.drop_left' (by simp), List.drop_left' (by simp)]
  rw [procedureNameAt, hdrop] at hname
  rcases procedureName_word hf hpost with hempty | ⟨seps, p, post', rfl, hseps, hp⟩
  · rw [hempty] at hname
    exact absurd hname (by decide)
  · exact ⟨seps, p, post', rfl, hseps, by rwa [hp] at hname⟩

/-- A query that passes the keyword gate has a token sequence: an unterminated
literal or comment is refused. -/
theorem exists_lexes {query : Str} (h : forbiddenCypherKeyword query = none) :
    ∃ ts, Lexes query ts := by
  unfold forbiddenCypherKeyword at h
  cases hm : maskNonExecutable query with
  | none => simp [hm] at h
  | some m =>
      obtain ⟨ts, hts, -⟩ := maskNonExecutable_sound hm
      exact ⟨ts, hts⟩

/-- Every query that the gate accepts has a token sequence in which every
forbidden keyword stands in an identifier position, and so does every `CALL`
that does not name an allow-listed procedure. -/
theorem gate_misses_no_write (query : Str) (h : forbiddenCypherKeyword query = none) :
    (∃ ts, Lexes query ts) ∧
    ∀ pre w post, Lexes query (pre ++ .word w :: post) →
      (w.map Char.toUpper ∈ forbiddenCypherKeywords → identifierPosition .sigilOnly pre = true) ∧
      (w.map Char.toUpper = callKeyword → identifierPosition .sigilOnly pre = true ∨
        ∃ seps p post', post = seps ++ .word p :: post' ∧ (∀ t ∈ seps, t.isSeparator = true) ∧
          p.map Char.toUpper ∈ readOnlyProcedures) := by
  refine ⟨exists_lexes h, ?_⟩
  intro pre w post hlex
  unfold forbiddenCypherKeyword at h
  simp only [maskNonExecutable_complete hlex] at h
  cases hfind : forbiddenCypherKeywords.find? (containsKeywordToken
      (((pre ++ .word w :: post).flatMap masked).map Char.toUpper)) with
  | some kw =>
      simp only [hfind] at h
      cases h
  | none =>
      simp only [hfind, ite_eq_right_iff, reduceCtorEq, imp_false, Bool.not_eq_true] at h
      constructor
      · intro hkw
        have hnone := List.find?_eq_none.mp hfind _ hkw
        exact not_containsKeyword asciiFold_toUpper hlex (by simpa using hnone)
      · intro hcall
        by_cases hpos : identifierPosition .sigilOnly pre = true
        · exact .inl hpos
        · exact .inr (listed_procedure asciiFold_toUpper hlex hcall (by simpa using hpos) h)

theorem gate_misses_no_write_show_tables :
    ∃ ts, Lexes "CALL show_tables() RETURN name".toList ts :=
  (gate_misses_no_write "CALL show_tables() RETURN name".toList (by decide +kernel)).1

/-- A property called `call` is a word in identifier position: it is accepted
although it calls nothing. -/
theorem call_property_is_accepted : ¬∀ query, Accepted query → ∀ pre w post,
    Lexes query (pre ++ .word w :: post) → w.map Char.toUpper = callKeyword →
    ∃ seps p post', post = seps ++ .word p :: post' ∧ (∀ t ∈ seps, t.isSeparator = true) ∧
      p.map Char.toUpper ∈ readOnlyProcedures := by
  intro h
  have hlex : Lexes ['R', 'E', 'T', 'U', 'R', 'N', ' ', 'n', '.', 'c', 'a', 'l', 'l']
      ([.word ['R', 'E', 'T', 'U', 'R', 'N'], .punct ' ', .word ['n'], .punct '.'] ++
        [.word ['c', 'a', 'l', 'l']]) := by
    have hname : Lexes ['c', 'a', 'l', 'l'] [.word ['c', 'a', 'l', 'l']] :=
      .cons_closed (w := ['c', 'a', 'l', 'l']) (by decide) .nil
    have hvar : Lexes ['n', '.', 'c', 'a', 'l', 'l']
        [.word ['n'], .punct '.', .word ['c', 'a', 'l', 'l']] :=
      .cons_closed (w := ['n']) (by decide)
        (.cons_punct (by decide) (by decide) (by decide) hname)
    exact .cons_closed (w := ['R', 'E', 'T', 'U', 'R', 'N']) (by decide)
      (.cons_punct (by decide) (by decide) (by decide) hvar)
  obtain ⟨seps, p, post', hpost, -⟩ := h _ (by decide +kernel) _ _ _ hlex (by decide)
  simp at hpost

end AutomatisedPipeline.Query
