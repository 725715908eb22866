import Mathlib.Data.List.DropRight
import AutomatisedPipeline.Query.Gate

/-!
LIMIT injection of `query_graph` (`query_handlers.rs`): `has_limit_clause`,
`executable_prefix` and `inject_limit_if_absent`.

The prefix is cut through the mask, and in tokens it is a statement followed by
the text behind it: separators, or one `;` and separators (`StatementEnd`). The
injected query has the tokens of the statement followed by those of the clause,
so what the gate's scanners say of it is read off its tokens.
-/

namespace AutomatisedPipeline.Query

open Text Lexical

/-! ### The source's definitions -/

def limitKeyword : Str := "limit".toList

/-- `has_limit_clause`. -/
def hasLimitClause (query : Str) : Bool :=
  !(keywordTokenPositions (((maskNonExecutable query).getD []).map Char.toLower) limitKeyword
    .sigilOrAlias).isEmpty

/-- The end that the loop of `executable_prefix` finds in the masked query. -/
def executableEnd (masked : Str) : Nat :=
  let kept := masked.rdropWhile isSeparator
  if kept.getLast? = some ';' then kept.length - 1 else kept.length

/-- `executable_prefix`. -/
def executablePrefix (query : Str) : Str :=
  match maskNonExecutable query with
  | none => query
  | some masked => query.take (executableEnd masked)

/-- `inject_limit_if_absent`: the query to run and whether a LIMIT was injected. -/
def injectLimitIfAbsent (query : Str) (limit : Nat) : Str × Bool :=
  if hasLimitClause query then (query, false)
  else (executablePrefix query ++ ("\nLIMIT ".toList ++ Nat.toDigits 10 limit), true)

/-! ### The statement splitter over tokens -/

/-- A token that `is_multi_statement` takes for blank text: a comment or white
space, here that of Unicode. -/
def isBlank : Token → Bool
  | .lineComment _ => true
  | .blockComment _ => true
  | .punct c => isWhitespace c
  | _ => false

/-- Only a `;` outside literals and comments is left in the mask. -/
theorem eq_semicolon_of_mem_masked {t : Token} (hv : t.Valid) (h : ';' ∈ masked t) :
    t = .punct ';' := by
  cases t with
  | punct c => simpa [masked, eq_comm] using h
  | word w => exact absurd (hv.2 _ h) (by decide)
  | literal q body => exact absurd (List.eq_of_mem_replicate h) (by decide)
  | lineComment body => exact absurd (List.eq_of_mem_replicate h) (by decide)
  | blockComment body => exact absurd (List.eq_of_mem_replicate h) (by decide)

theorem all_whitespace_masked_iff {t : Token} (hv : t.Valid) :
    (∀ c ∈ masked t, isWhitespace c = true) ↔ isBlank t = true := by
  constructor
  · intro h
    obtain ⟨c, m, hcm⟩ := List.exists_cons_of_ne_nil (masked_ne_nil hv)
    have hc := h c (by simp [hcm])
    cases t with
    | punct d => exact h d (by simp [masked])
    | lineComment body => rfl
    | blockComment body => rfl
    | literal q body =>
        have hmem : c ∈ masked (.literal q body) := by simp [hcm]
        rw [List.eq_of_mem_replicate hmem] at hc
        exact absurd hc (by decide)
    | word w =>
        have hword := hv.2 c (by simp [show w = c :: m from hcm])
        simp [not_isWhitespace_of_word hword] at hc
  · intro h c hc
    cases t with
    | punct d =>
        obtain rfl : c = d := by simpa [masked] using hc
        exact h
    | lineComment body => rw [List.eq_of_mem_replicate hc]; decide
    | blockComment body => rw [List.eq_of_mem_replicate hc]; decide
    | literal q body => cases h
    | word w => cases h

/-- A `;` of the mask is a token, and cuts the token sequence. -/
theorem split_at_semicolon {ts : List Token} {a b : Str} (hv : ∀ t ∈ ts, t.Valid)
    (h : ts.flatMap masked = a ++ ';' :: b) :
    ∃ pre post, ts = pre ++ .punct ';' :: post ∧ a = pre.flatMap masked ∧
      b = post.flatMap masked := by
  induction ts generalizing a with
  | nil => simp at h
  | cons t ts ih =>
      have hts : ∀ u ∈ ts, u.Valid := fun u hu => hv u (by simp [hu])
      rw [List.flatMap_cons] at h
      by_cases hmem : ';' ∈ masked t
      · obtain rfl := eq_semicolon_of_mem_masked (hv t (by simp)) hmem
        cases a with
        | nil =>
            simp only [masked, List.cons_append, List.nil_append, List.cons.injEq, true_and] at h
            exact ⟨[], ts, rfl, rfl, h.symm⟩
        | cons c a =>
            simp only [masked, List.cons_append, List.nil_append, List.cons.injEq] at h
            obtain ⟨rfl, h⟩ := h
            obtain ⟨pre, post, rfl, rfl, rfl⟩ := ih hts h
            exact ⟨.punct ';' :: pre, post, rfl, by simp [masked], rfl⟩
      · rcases List.append_eq_append_iff.mp h with ⟨a', rfl, hrest⟩ | ⟨c', hc, hrest⟩
        · obtain ⟨pre, post, rfl, rfl, rfl⟩ := ih hts hrest
          exact ⟨t :: pre, post, rfl, by simp, rfl⟩
        · cases c' with
          | nil =>
              rw [List.append_nil] at hc
              obtain ⟨pre, post, rfl, hpre, rfl⟩ := ih hts (a := []) hrest.symm
              refine ⟨t :: pre, post, rfl, ?_, rfl⟩
              rw [List.flatMap_cons, ← hpre, hc, List.append_nil]
          | cons d c' =>
              rw [List.cons_append, List.cons.injEq] at hrest
              obtain ⟨rfl, -⟩ := hrest
              exact absurd (by simp [hc]) hmem

theorem all_whitespace_flatMap_iff {ts : List Token} (hv : ∀ t ∈ ts, t.Valid) :
    (∀ c ∈ ts.flatMap masked, isWhitespace c = true) ↔ ∀ t ∈ ts, isBlank t = true := by
  simp only [List.mem_flatMap]
  constructor
  · intro h t ht
    exact (all_whitespace_masked_iff (hv t ht)).mp fun c hc => h c ⟨t, ht, hc⟩
  · rintro h c ⟨t, ht, hc⟩
    exact (all_whitespace_masked_iff (hv t ht)).mpr (h t ht) c hc

/-- `is_multi_statement` over tokens: a single statement has blank text only
behind each `;`. -/
theorem isMultiStatement_eq_false_iff {query : Str} {ts : List Token} (h : Lexes query ts) :
    isMultiStatement query = false ↔
      ∀ pre post, ts = pre ++ .punct ';' :: post → ∀ t ∈ post, isBlank t = true := by
  rw [isMultiStatement, maskNonExecutable_complete h]
  have hv := h.valid
  cases hs : splitOnce ';' (ts.flatMap masked) with
  | none =>
      simp only [hs, true_iff]
      rintro pre post rfl
      exact absurd (by simp [masked]) (splitOnce_none hs)
  | some p =>
      obtain ⟨a, b⟩ := p
      obtain ⟨hab, hfirst⟩ := splitOnce_some hs
      obtain ⟨pre, post, rfl, rfl, rfl⟩ := split_at_semicolon hv hab
      have hpost : ∀ t ∈ post, t.Valid := fun t ht => hv t (by simp [ht])
      have hblank : (!trimIsEmpty (post.flatMap masked)) = false ↔ ∀ t ∈ post, isBlank t = true := by
        rw [← all_whitespace_flatMap_iff hpost, Bool.not_eq_false', trimIsEmpty, List.all_eq_true]
      simp only [hs, hblank]
      constructor
      · intro hall pre' post' hsplit t ht
        -- no `;` stands in `pre`, so a later cut leaves a part of `post`
        rcases List.append_eq_append_iff.mp hsplit with ⟨c, rfl, hrest⟩ | ⟨c, rfl, hrest⟩
        · cases c with
          | nil =>
              simp only [List.nil_append, List.cons.injEq, true_and] at hrest
              exact hall t (hrest ▸ ht)
          | cons u c =>
              simp only [List.cons_append, List.cons.injEq] at hrest
              obtain ⟨rfl, rfl⟩ := hrest
              exact hall t (by simp [ht])
        · cases c with
          | nil =>
              simp only [List.nil_append, List.cons.injEq, true_and] at hrest
              exact hall t (hrest ▸ ht)
          | cons u c =>
              simp only [List.cons_append, List.cons.injEq] at hrest
              obtain ⟨rfl, rfl⟩ := hrest
              exact absurd (by simp [masked]) hfirst
      · intro hall
        exact hall pre post rfl

/-! ### The end of the statement -/

/-- `StatementEnd stmt tail`: `tail` is the text behind the statement `stmt`.
Either the statement ends in a token that is neither a separator nor `;` and only
separators follow, or its terminating `;` and separators follow. -/
inductive StatementEnd (stmt : List Token) : List Token → Prop where
  | bare {seps : List Token} : (∀ t ∈ stmt.getLast?, t.isSeparator = false ∧ t ≠ .punct ';') →
      (∀ t ∈ seps, t.isSeparator = true) → StatementEnd stmt seps
  | terminated {seps : List Token} : (∀ t ∈ seps, t.isSeparator = true) →
      StatementEnd stmt (.punct ';' :: seps)

theorem length_masked (t : Token) : (masked t).length = t.text.length := by
  cases t <;> simp [masked, Token.text]

theorem length_flatMap_masked (ts : List Token) :
    (ts.flatMap masked).length = (ts.flatMap Token.text).length := by
  induction ts with
  | nil => rfl
  | cons t ts ih => simp [length_masked, ih]

theorem masked_rdropWhile {ts : List Token} (hv : ∀ t ∈ ts, t.Valid) :
    (ts.flatMap masked).rdropWhile isSeparator =
      (ts.rdropWhile Token.isSeparator).flatMap masked := by
  induction ts using List.reverseRecOn with
  | nil => rfl
  | append_singleton ts t ih =>
      have hts : ∀ u ∈ ts, u.Valid := fun u hu => hv u (by simp [hu])
      have ht := hv t (by simp)
      rw [List.flatMap_append, List.flatMap_singleton]
      by_cases hsep : t.isSeparator = true
      · rw [List.rdropWhile_concat_pos _ _ _ hsep, ← ih hts, List.rdropWhile,
          List.reverse_append, List.dropWhile_append_of_pos, ← List.rdropWhile]
        intro c hc
        exact whitespace_of_mem_masked hsep (List.mem_reverse.mp hc)
      · rw [List.rdropWhile_concat_neg _ _ _ hsep, List.flatMap_append, List.flatMap_singleton]
        rcases List.eq_nil_or_concat (masked t) with hnil | ⟨m, c, hm⟩
        · exact absurd hnil (masked_ne_nil ht)
        · have hc : isSeparator c = false :=
            not_whitespace_of_mem_masked ht (by simpa using hsep) (by simp [hm])
          rw [hm, List.concat_eq_append, ← List.append_assoc,
            List.rdropWhile_concat_neg _ _ _ (by simp [hc])]

theorem exists_rdropWhile {α : Type} (p : α → Bool) (l : List α) :
    ∃ seps, l = l.rdropWhile p ++ seps ∧ ∀ x ∈ seps, p x = true :=
  ⟨l.rtakeWhile p, List.rdropWhile_append_rtakeWhile.symm,
    fun _ hx => List.mem_rtakeWhile_imp hx⟩

/-- The end of the masked text of a token that is not `;` is not `;`. -/
theorem getLast_masked_ne_semicolon {ts : List Token} {t : Token}
    (hv : ∀ u ∈ ts ++ [t], u.Valid) (ht : t ≠ .punct ';') :
    ((ts ++ [t]).flatMap masked).getLast? ≠ some ';' := by
  intro hlast
  have hvt := hv t (by simp)
  rw [List.flatMap_append, List.flatMap_singleton,
    List.getLast?_append_of_ne_nil _ (masked_ne_nil hvt)] at hlast
  exact ht (eq_semicolon_of_mem_masked hvt (List.mem_of_getLast? hlast))

/-- `executable_prefix` cuts a query behind its statement. -/
theorem executablePrefix_eq {query : Str} {ts : List Token} (h : Lexes query ts) :
    ∃ stmt tail, ts = stmt ++ tail ∧ StatementEnd stmt tail ∧
      executablePrefix query = stmt.flatMap Token.text := by
  have hv := h.valid
  have htake : ∀ stmt tail, ts = stmt ++ tail →
      query.take (stmt.flatMap masked).length = stmt.flatMap Token.text := by
    rintro stmt tail rfl
    rw [h.text_eq, List.flatMap_append, length_flatMap_masked, List.take_left]
  obtain ⟨seps, hts, hseps⟩ := exists_rdropWhile Token.isSeparator ts
  simp only [executablePrefix, maskNonExecutable_complete h, executableEnd, masked_rdropWhile hv]
  generalize hbody : ts.rdropWhile Token.isSeparator = body at *
  have hvb : ∀ t ∈ body, t.Valid := fun t ht => hv t (by rw [hts]; simp [ht])
  rcases List.eq_nil_or_concat body with rfl | ⟨stmt, t, rfl⟩
  · exact ⟨[], ts, rfl, .bare (by simp) (by rw [hts]; simpa using hseps), by simp⟩
  · rw [List.concat_eq_append] at *
    by_cases ht : t = .punct ';'
    · subst ht
      refine ⟨stmt, .punct ';' :: seps, by simp [hts], .terminated hseps, ?_⟩
      have hlen : ((stmt ++ [Token.punct ';']).flatMap masked).length - 1 =
          (stmt.flatMap masked).length := by simp [masked]
      rw [if_pos (by simp [masked]), hlen]
      exact htake stmt (.punct ';' :: seps) (by simp [hts])
    · have hnotsep : t.isSeparator = false := by
        have hlast := List.rdropWhile_last_not Token.isSeparator ts (by simp [hbody])
        simpa [hbody] using hlast
      refine ⟨stmt ++ [t], seps, hts, .bare ?_ hseps, ?_⟩
      · intro u hu
        obtain rfl : t = u := by simpa using hu
        exact ⟨hnotsep, ht⟩
      · rw [if_neg (getLast_masked_ne_semicolon hvb ht)]
        exact htake (stmt ++ [t]) seps hts

/-! ### The injected clause -/

/-- The tokens of the injected clause. -/
def limitClause (limit : Nat) : List Token :=
  [.punct '\n', .word "LIMIT".toList, .punct ' ', .word (Nat.toDigits 10 limit)]

theorem lexes_limitClause (limit : Nat) :
    Lexes ("\nLIMIT ".toList ++ Nat.toDigits 10 limit) (limitClause limit) := by
  have hdigits : Lexes (Nat.toDigits 10 limit ++ []) [.word (Nat.toDigits 10 limit)] := by
    refine .cons_word Nat.toDigits_ne_nil ?_ (by simp) .nil
    intro c hc
    have hd := Nat.isDigit_of_mem_toDigits (by decide) (by decide) hc
    simp [isWordChar, Char.isAlphanum, hd]
  rw [List.append_nil] at hdigits
  have hgap := Lexes.cons_punct (c := ' ') (by decide) (by decide) (by decide) hdigits
  have hword := Lexes.cons_closed (w := "LIMIT".toList) rfl hgap
  exact .cons_punct (by decide) (by decide) (by decide) hword

/-- Every token ends before a line break. -/
theorem endsBefore_newline (t : Token) : t.EndsBefore (some '\n') := by
  unfold Token.EndsBefore
  split
  all_goals simp
  decide

theorem lexes_injected {query : Str} {stmt tail : List Token} (h : Lexes query (stmt ++ tail))
    (limit : Nat) : Lexes (stmt.flatMap Token.text ++
      ("\nLIMIT ".toList ++ Nat.toDigits 10 limit)) (stmt ++ limitClause limit) := by
  obtain ⟨x, y, -, hx, -, -⟩ := h.split
  rw [← hx.text_eq]
  exact hx.append (lexes_limitClause limit) fun t _ => endsBefore_newline t

/-- Only comments and ASCII white space follow each `;`. -/
def SeparatorsAfterTerminator (ts : List Token) : Prop :=
  ∀ pre post, ts = pre ++ .punct ';' :: post → ∀ t ∈ post, t.isSeparator = true

/-- The statement of a single-statement query holds no `;`. -/
theorem StatementEnd.no_semicolon {stmt tail : List Token} (hend : StatementEnd stmt tail)
    (hsingle : ∀ pre post, stmt ++ tail = pre ++ .punct ';' :: post → ∀ t ∈ post,
      isBlank t = true)
    (hterm : SeparatorsAfterTerminator (stmt ++ tail)) : .punct ';' ∉ stmt := by
  intro hmem
  obtain ⟨pre, post, rfl⟩ := List.append_of_mem hmem
  cases hend with
  | bare hlast hseps =>
      rcases List.eq_nil_or_concat post with rfl | ⟨post, t, rfl⟩
      · exact (hlast (.punct ';') (by simp)).2 rfl
      · have hsep := hterm pre (post ++ [t] ++ tail) (by simp) t (by simp)
        have hmem' : t ∈ (pre ++ Token.punct ';' :: post.concat t).getLast? := by
          rw [List.concat_eq_append, ← List.cons_append, ← List.append_assoc]
          simp only [List.getLast?_append, List.getLast?_singleton, Option.some_or,
            Option.mem_def]
        rw [(hlast t hmem').1] at hsep
        cases hsep
  | @terminated seps hseps =>
      have hblank := hsingle pre (post ++ .punct ';' :: seps) (by simp) (.punct ';') (by simp)
      exact absurd hblank (by decide)

/-- Without a `;` in the statement the injected query is a single statement. -/
theorem single_of_no_semicolon {query : Str} {stmt : List Token} {limit : Nat}
    (h : Lexes query (stmt ++ limitClause limit)) (hstmt : .punct ';' ∉ stmt) :
    isMultiStatement query = false := by
  rw [isMultiStatement_eq_false_iff h]
  intro pre post hsplit
  have hmem : Token.punct ';' ∈ stmt ++ limitClause limit := by rw [hsplit]; simp
  rcases List.mem_append.mp hmem with hmem | hmem
  · exact absurd hmem hstmt
  · simp [limitClause] at hmem

/-- The LIMIT detector finds the injected clause. -/
theorem hasLimitClause_injected {query : Str} {stmt : List Token} {limit : Nat}
    (h : Lexes query (stmt ++ limitClause limit))
    (hpos : identifierPosition .sigilOrAlias stmt = false) : hasLimitClause query = true := by
  have hsplit : stmt ++ limitClause limit = (stmt ++ [.punct '\n']) ++ .word "LIMIT".toList ::
      [.punct ' ', .word (Nat.toDigits 10 limit)] := by simp [limitClause]
  have hintro : identifierPosition .sigilOrAlias (stmt ++ [.punct '\n']) = false := by
    rw [← hpos]
    simp [identifierPosition, introducer, Token.isSeparator, isAsciiWhitespace]
  rw [hsplit] at h
  have hmem := mem_keywordTokenPositions_of_word asciiFold_toLower h hintro
  rw [show "LIMIT".toList.map Char.toLower = limitKeyword by decide] at hmem
  rw [hasLimitClause, maskNonExecutable_complete h, Option.getD_some, Bool.not_eq_true',
    List.isEmpty_eq_false_iff]
  exact List.ne_nil_of_mem hmem

/-- LIMIT injection into an accepted query without a LIMIT clause. The injected
query has the tokens of the statement followed by the clause on its own line. It
is a single statement when only separators follow the `;` of the query, and it
carries a LIMIT clause, which a second injection respects, when the statement does
not end in the introducer of an identifier. -/
theorem limit_injection_sound (query : Str) (limit : Nat) (haccepted : Accepted query)
    (hlimit : hasLimitClause query = false) :
    ∃ stmt tail, Lexes query (stmt ++ tail) ∧ StatementEnd stmt tail ∧
      injectLimitIfAbsent query limit = (stmt.flatMap Token.text ++
        ("\nLIMIT ".toList ++ Nat.toDigits 10 limit), true) ∧
      Lexes (injectLimitIfAbsent query limit).1 (stmt ++ limitClause limit) ∧
      (SeparatorsAfterTerminator (stmt ++ tail) →
        isMultiStatement (injectLimitIfAbsent query limit).1 = false) ∧
      (identifierPosition .sigilOrAlias stmt = false →
        hasLimitClause (injectLimitIfAbsent query limit).1 = true ∧
        ∀ n, injectLimitIfAbsent (injectLimitIfAbsent query limit).1 n =
          ((injectLimitIfAbsent query limit).1, false)) := by
  obtain ⟨hkeyword, hsingle⟩ := haccepted
  obtain ⟨ts, hts⟩ := exists_lexes hkeyword
  obtain ⟨stmt, tail, rfl, hend, hexec⟩ := executablePrefix_eq hts
  have hinject : injectLimitIfAbsent query limit = (stmt.flatMap Token.text ++
      ("\nLIMIT ".toList ++ Nat.toDigits 10 limit), true) := by
    rw [injectLimitIfAbsent, hlimit, hexec]
    simp
  have hlex : Lexes (injectLimitIfAbsent query limit).1 (stmt ++ limitClause limit) := by
    rw [hinject]
    exact lexes_injected hts limit
  refine ⟨stmt, tail, hts, hend, hinject, hlex, ?_, ?_⟩
  · intro hterm
    have hnone := hend.no_semicolon ((isMultiStatement_eq_false_iff hts).mp hsingle) hterm
    exact single_of_no_semicolon hlex hnone
  · intro hpos
    have hdeclared := hasLimitClause_injected hlex hpos
    refine ⟨hdeclared, fun n => ?_⟩
    generalize (injectLimitIfAbsent query limit).1 = injected at hdeclared
    simp [injectLimitIfAbsent, hdeclared]

theorem limit_injection_sound_return :
    ∃ stmt tail, Lexes "RETURN 1;".toList (stmt ++ tail) ∧ StatementEnd stmt tail ∧
      injectLimitIfAbsent "RETURN 1;".toList 5 = (stmt.flatMap Token.text ++
        ("\nLIMIT ".toList ++ Nat.toDigits 10 5), true) := by
  obtain ⟨stmt, tail, hlex, hend, hinject, -⟩ :=
    limit_injection_sound "RETURN 1;".toList 5 (by decide +kernel) (by decide +kernel)
  exact ⟨stmt, tail, hlex, hend, hinject⟩

/-- The clause is not inserted into the query: it replaces the text behind the
statement, on a line of its own. -/
theorem limit_is_not_inserted_inline : ¬∀ query limit, Accepted query →
    hasLimitClause query = false →
    isMultiStatement (injectLimitIfAbsent query limit).1 = false ∧
    (∃ a b, query = a ++ b ∧ (injectLimitIfAbsent query limit).1 =
      a ++ (" LIMIT ".toList ++ Nat.toDigits 10 limit) ++ b) ∧
    hasLimitClause (injectLimitIfAbsent query limit).1 = true := by
  intro h
  obtain ⟨-, ⟨a, b, hquery, hresult⟩, -⟩ :=
    h "RETURN 1;".toList 5 (by decide +kernel) (by decide +kernel)
  have hlen := congrArg List.length hquery
  have hlen' := congrArg List.length hresult
  have hout : (injectLimitIfAbsent "RETURN 1;".toList 5).1.length = 16 := by decide +kernel
  simp only [hout, List.length_append] at hlen hlen'
  have hclause : (" LIMIT ".toList).length + (Nat.toDigits 10 5).length = 8 := by decide +kernel
  have hin : ("RETURN 1;".toList).length = 9 := by decide +kernel
  omega

end AutomatisedPipeline.Query
