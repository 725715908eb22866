import AutomatisedPipeline.Cfg.Comments

/-!
Blanks are invisible in a cfg argument list (`parser/cfg_lex.rs`, `parser/cfg_expr.rs`).

A text that lexes is one that the grammar reads to its end (`reads_of_lex`). Blanks between two
tokens leave the tokens as they are, and a literal counts as the string it denotes, whether or
not it holds what looks like a comment (`comments_invisible`).
-/

namespace AutomatisedPipeline.Cfg

open Text

/-! ### Every text that lexes is read -/

theorem copyStringRest_le (escaped : Bool) (x : Str) : copyStringRest escaped x ≤ x.length := by
  fun_induction copyStringRest escaped x <;> simp only [List.length_nil, List.length_cons] <;> omega

/-- A block comment is closed somewhere, or goes on to the end. -/
theorem closes_or_le {d : Nat} (hd : 0 < d) (s : Str) :
    (∃ a b, s = a ++ b ∧ Closes d a) ∨ s.length ≤ skipBlockComment d s := by
  fun_induction skipBlockComment d s with
  | case1 => exact .inr (Nat.zero_le _)
  | case2 => exact .inr (le_refl _)
  | case3 d c e rest hopen ih =>
      obtain ⟨rfl, rfl⟩ := hopen
      rcases ih (Nat.succ_pos _) with ⟨a, b, rfl, hcloses⟩ | hle
      · obtain ⟨d', rfl⟩ := Nat.exists_eq_add_of_lt hd
        rw [Nat.zero_add] at hcloses ⊢
        exact .inl ⟨'/' :: '*' :: a, b, rfl, .nest hcloses⟩
      · rw [List.length_cons, List.length_cons]
        exact .inr (by omega)
  | case4 c e rest hopen hclose =>
      obtain ⟨rfl, rfl⟩ := hclose
      exact .inl ⟨['*', '/'], rest, rfl, .last⟩
  | case5 d c e rest hopen hclose hd' ih =>
      obtain ⟨rfl, rfl⟩ := hclose
      rcases ih (by omega) with ⟨a, b, rfl, hcloses⟩ | hle
      · have hsucc := hcloses.close
        rw [Nat.sub_add_cancel hd] at hsucc
        exact .inl ⟨'*' :: '/' :: a, b, rfl, hsucc⟩
      · rw [List.length_cons, List.length_cons]
        exact .inr (by omega)
  | case6 d c e rest hopen hclose ih =>
      rcases ih hd with ⟨a, b, heq, hcloses⟩ | hle
      · cases a with
        | nil => cases hcloses
        | cons x a =>
            rw [List.cons_append, List.cons.injEq] at heq
            obtain ⟨rfl, rfl⟩ := heq
            exact .inl ⟨c :: e :: a, b, rfl, .char hopen hclose hcloses⟩
      · rw [List.length_cons]
        exact .inr (by omega)

section Reads

variable {isAlphanumeric : Char → Bool}

theorem tokenize_space : tokenize isAlphanumeric (' ' :: withoutComments []) = some [] := by
  rw [tokenize, if_pos isWhitespace_space, withoutComments, tokenize]

/-- A comment that nothing closes lexes as nothing. -/
theorem lex_tail {s : Str} (h : Tail s) : lex isAlphanumeric s = some [] := by
  cases h with
  | nil => rw [lex, withoutComments, tokenize]
  | line hbody =>
      rename_i body
      have hall : ('/' :: body).takeWhile (· ≠ '\n') = '/' :: body := by
        rw [List.takeWhile_eq_self_iff]
        intro c hc
        refine decide_eq_true fun heq => ?_
        rcases List.mem_cons.mp hc with rfl | hmem
        · exact absurd heq (by decide)
        · exact hbody (heq ▸ hmem)
      rw [lex, withoutComments, if_neg (by decide), if_pos ⟨rfl, rfl⟩, hall,
        List.drop_eq_nil_of_le (Nat.le_succ _), tokenize_space]
  | block hbody =>
      rename_i body
      have hle : body.length ≤ skipBlockComment 1 body := by
        rcases closes_or_le Nat.one_pos body with ⟨a, b, heq, hcloses⟩ | hle
        · exact absurd hcloses (hbody a b heq)
        · exact hle
      rw [lex, withoutComments, if_neg (by decide), if_neg (by rintro ⟨-, h⟩; cases h),
        if_pos ⟨rfl, rfl⟩, List.tail_cons, List.drop_eq_nil_of_le hle, tokenize_space]

/-- The literal that the tokenizer reads is the one that was copied. -/
theorem stringLiteral_of_copied {rest value y : Str} {m : Nat}
    (h : stringLiteral (rest.take (copyStringRest false rest) ++ y) = some (value, m))
    (hy : rest.drop (copyStringRest false rest) = [] → y = []) :
    m = copyStringRest false rest ∧
      stringLiteral (rest.take (copyStringRest false rest)) =
        some (value, (rest.take (copyStringRest false rest)).length) := by
  obtain ⟨-, hcopy, hsame⟩ := stringLiteral_spec h
  rw [copyStringRest_take_append false rest y hy] at hcopy
  have hlen : (rest.take (copyStringRest false rest)).length = copyStringRest false rest :=
    List.length_take_of_le (copyStringRest_le false rest)
  have hread := hsame []
  rw [← hcopy, List.take_left' hlen, List.append_nil] at hread
  exact ⟨hcopy.symm, by rw [hlen]; exact hread⟩

/-- What a text can start with. -/
inductive Starts (isAlphanumeric : Char → Bool) (s : Str) : Prop where
  | blank {t u : Str} : s = t ++ u → t ≠ [] → Blank t → Starts isAlphanumeric s
  | token {t u : Str} {tok : Token} : s = t ++ u → t ≠ [] → Lexeme isAlphanumeric t tok →
      (∀ name, tok = .ident name → Stops isAlphanumeric u) → Starts isAlphanumeric s
  | tail : Tail s → Starts isAlphanumeric s

theorem starts_literal {rest : Str} {ts : List Token}
    (h : lex isAlphanumeric ('"' :: rest) = some ts) : Starts isAlphanumeric ('"' :: rest) := by
  rw [lex, withoutComments, if_pos rfl, tokenize, if_neg (by decide), if_neg (by decide),
    if_neg (by decide), if_neg (by decide), if_neg (by decide), if_pos rfl] at h
  split at h
  · cases h
  · rename_i value m hliteral
    have hy : rest.drop (copyStringRest false rest) = [] →
        withoutComments (rest.drop (copyStringRest false rest)) = [] := by
      intro hnil
      rw [hnil, withoutComments]
    obtain ⟨-, hread⟩ := stringLiteral_of_copied hliteral hy
    refine .token ?_ (List.cons_ne_nil _ _) (.str hread) (by rintro name ⟨⟩)
      (u := rest.drop (copyStringRest false rest))
    rw [List.cons_append, List.take_append_drop]

theorem starts_comment (hplain : Ordinary isAlphanumeric) {rest : Str} {ts : List Token}
    (h : lex isAlphanumeric ('/' :: rest) = some ts) : Starts isAlphanumeric ('/' :: rest) := by
  by_cases hline : rest.head? = some '/'
  · obtain ⟨body, rfl⟩ := List.head?_eq_some_iff.mp hline
    by_cases hend : '\n' ∈ body
    · obtain ⟨text, after, rfl, htext⟩ := List.eq_append_cons_of_mem hend
      refine .blank ?_ (List.cons_ne_nil _ _) (.line htext) (u := after)
      rw [List.cons_append, List.cons_append, List.append_assoc, List.singleton_append]
    · exact .tail (.line hend)
  by_cases hblock : rest.head? = some '*'
  · obtain ⟨body, rfl⟩ := List.head?_eq_some_iff.mp hblock
    by_cases hclosed : ∃ a b, body = a ++ b ∧ Closes 1 a
    · obtain ⟨a, b, rfl, hcloses⟩ := hclosed
      exact .blank (u := b) rfl (List.cons_ne_nil _ _) (.block hcloses)
    · exact .tail (.block fun a b heq hcloses => hclosed ⟨a, b, heq, hcloses⟩)
  -- a slash alone is no token
  have hslash : isIdentChar isAlphanumeric '/' = false := isIdentChar_of_mark hplain (by simp)
  rw [lex, withoutComments, if_neg (by decide), if_neg fun hopen => hline hopen.2,
    if_neg fun hopen => hblock hopen.2, tokenize, if_neg (by decide), if_neg (by decide),
    if_neg (by decide), if_neg (by decide), if_neg (by decide), if_neg (by decide),
    if_neg (by rw [hslash]; exact Bool.false_ne_true)] at h
  cases h

/-- A text that lexes starts with something that the grammar knows. -/
theorem starts_of_lex (hplain : Ordinary isAlphanumeric) {c : Char} {rest : Str} {ts : List Token}
    (h : lex isAlphanumeric (c :: rest) = some ts) : Starts isAlphanumeric (c :: rest) := by
  by_cases hquote : c = '"'
  · subst hquote
    exact starts_literal h
  by_cases hslash : c = '/'
  · subst hslash
    exact starts_comment hplain h
  rw [lex, withoutComments_plain hquote hslash, tokenize] at h
  split at h
  · rename_i hwhite
    exact .blank (t := [c]) rfl (List.cons_ne_nil _ _) (.white hwhite)
  split at h
  · rename_i hopen
    subst hopen
    exact .token (t := ['(']) rfl (List.cons_ne_nil _ _) .open (by rintro name ⟨⟩)
  split at h
  · rename_i hclose
    subst hclose
    exact .token (t := [')']) rfl (List.cons_ne_nil _ _) .close (by rintro name ⟨⟩)
  split at h
  · rename_i hcomma
    subst hcomma
    exact .token (t := [',']) rfl (List.cons_ne_nil _ _) .comma (by rintro name ⟨⟩)
  split at h
  · rename_i heq
    subst heq
    exact .token (t := ['=']) rfl (List.cons_ne_nil _ _) .eq (by rintro name ⟨⟩)
  split at h
  · rename_i hident
    have hname : ∀ a ∈ c :: rest.takeWhile (isIdentChar isAlphanumeric),
        isIdentChar isAlphanumeric a = true := by
      rw [List.forall_mem_cons]
      exact ⟨hident, fun a ha => List.mem_takeWhile_imp ha⟩
    refine .token ?_ (List.cons_ne_nil _ _) (.ident (List.cons_ne_nil _ _) hname) ?_
      (u := rest.dropWhile (isIdentChar isAlphanumeric))
    · rw [List.cons_append, List.takeWhile_append_dropWhile]
    · intro name _ a ha
      have hhead := List.head?_dropWhile_not (isIdentChar isAlphanumeric) rest
      rw [Option.mem_def.mp ha] at hhead
      exact hhead
  · cases h

/-- A text that lexes is read to its end. -/
theorem reads_of_lex (hplain : Ordinary isAlphanumeric) (s : Str) {ts : List Token}
    (h : lex isAlphanumeric s = some ts) : ∃ r, Reads isAlphanumeric s ts r ∧ Tail r := by
  induction hn : s.length using Nat.strong_induction_on generalizing s ts with
  | _ n ih =>
    have hshorter : ∀ t s', s = t ++ s' → t ≠ [] → s'.length < n := by
      rintro t s' rfl ht
      have := List.length_pos_of_ne_nil ht
      rw [List.length_append] at hn
      omega
    have hstarts : Starts isAlphanumeric s := by
      cases s with
      | nil => exact .tail .nil
      | cons c rest => exact starts_of_lex hplain h
    cases hstarts with
    | blank heq ht hblank =>
        have hlt := hshorter _ _ heq ht
        subst heq
        rw [lex_blank hblank] at h
        obtain ⟨r, hreads, htail⟩ := ih _ hlt _ h rfl
        exact ⟨r, .blank hblank hreads, htail⟩
    | token heq ht hlexeme hstops =>
        have hlt := hshorter _ _ heq ht
        subst heq
        rw [lex_lexeme hplain hlexeme hstops] at h
        obtain ⟨ts', hrest, rfl⟩ := Option.map_eq_some_iff.mp h
        obtain ⟨r, hreads, htail⟩ := ih _ hlt _ hrest rfl
        exact ⟨r, .token hlexeme hstops hreads, htail⟩
    | tail htail =>
        rw [lex_tail htail] at h
        obtain rfl := Option.some.inj h
        exact ⟨s, .done, htail⟩

/-! ### Blanks between tokens -/

/-- What is read in front of a cut is read there, whatever comes behind it. -/
theorem Reads.cut {s r : Str} {ts : List Token} (h : Reads isAlphanumeric s ts r) :
    ∃ u, s = u ++ r ∧ ∀ r', Stops isAlphanumeric r' → Reads isAlphanumeric (u ++ r') ts r' := by
  induction h with
  | done => exact ⟨[], rfl, fun r' _ => .done⟩
  | blank hblank hread ih =>
      rename_i t s r ts
      obtain ⟨u, rfl, hmoved⟩ := ih
      refine ⟨t ++ u, (List.append_assoc _ _ _).symm, fun r' hr' => ?_⟩
      rw [List.append_assoc]
      exact .blank hblank (hmoved r' hr')
  | token hlexeme hstops hread ih =>
      rename_i t s r tok ts
      obtain ⟨u, rfl, hmoved⟩ := ih
      refine ⟨t ++ u, (List.append_assoc _ _ _).symm, fun r' hr' => ?_⟩
      rw [List.append_assoc]
      refine .token hlexeme (fun name hname => ?_) (hmoved r' hr')
      cases u with
      | nil => exact hr'
      | cons c u => exact hstops name hname

theorem lex_cut (hplain : Ordinary isAlphanumeric) {u v : Str} {us : List Token}
    (h : Reads isAlphanumeric (u ++ v) us v) {w : Str} (hw : Stops isAlphanumeric w) :
    lex isAlphanumeric (u ++ w) = (lex isAlphanumeric w).map (us ++ ·) := by
  obtain ⟨u', hsplit, hread⟩ := h.cut
  obtain rfl := List.append_cancel_right hsplit
  exact lex_of_reads hplain (hread w hw)

theorem lex_blanks {t : Str} (h : Blanks t) (s : Str) :
    lex isAlphanumeric (t ++ s) = lex isAlphanumeric s := by
  induction h with
  | nil => rfl
  | cons hblank _ ih => rw [List.append_assoc, lex_blank hblank, ih]

theorem stops_blank (hplain : Ordinary isAlphanumeric) {t : Str} (h : Blank t) (s : Str) :
    Stops isAlphanumeric (t ++ s) := by
  have hslash : isIdentChar isAlphanumeric '/' = false := isIdentChar_of_mark hplain (by simp)
  intro c hc
  cases h with
  | white hwhite =>
      cases hc
      exact isIdentChar_of_white hplain hwhite
  | line _ =>
      cases hc
      exact hslash
  | block _ =>
      cases hc
      exact hslash

/-- Blanks between two tokens leave the tokens as they are. -/
theorem lex_insert (hplain : Ordinary isAlphanumeric) {u v t : Str}
    (hcut : Between isAlphanumeric u v) (ht : Blanks t) :
    lex isAlphanumeric (u ++ (t ++ v)) = lex isAlphanumeric (u ++ v) := by
  obtain ⟨us, hreads⟩ := hcut
  have hsame : lex isAlphanumeric (t ++ v) = lex isAlphanumeric v := lex_blanks ht v
  cases ht with
  | nil => rfl
  | cons hblank hrest =>
      rw [lex_of_reads hplain hreads, ← hsame, List.append_assoc]
      exact lex_cut hplain hreads (stops_blank hplain hblank _)

/-! ### Literals that look like comments -/

/-- The literal of a string behind its quote, with every slash and every star escaped. -/
def escapeMarks : Str → Str
  | [] => ['"']
  | c :: rest =>
      (if c = '/' then ['\\', 'x', '2', 'f'] else if c = '*' then ['\\', 'x', '2', 'a']
        else if c = '"' then ['\\', '"'] else if c = '\\' then ['\\', '\\'] else [c]) ++
          escapeMarks rest

theorem stringLiteral_escaped {e s value : Str} {d : Char} {n : Nat}
    (hescape : escape (e ++ s) = some (d, e.length)) (hs : stringLiteral s = some (value, n)) :
    stringLiteral ('\\' :: (e ++ s)) = some (d :: value, e.length + 1 + n) := by
  rw [stringLiteral, if_neg (by decide), if_pos rfl, hescape]
  simp only [List.drop_left, hs, Option.map_some]

theorem stringLiteral_escapeMarks (value : Str) :
    stringLiteral (escapeMarks value) = some (value, (escapeMarks value).length) := by
  induction value with
  | nil => rw [escapeMarks, stringLiteral, if_pos rfl]; rfl
  | cons c rest ih =>
      rw [escapeMarks]
      split_ifs with hslash hstar hquote hbackslash
      · subst hslash
        rw [List.length_append]
        exact stringLiteral_escaped (e := ['x', '2', 'f']) rfl ih
      · subst hstar
        rw [List.length_append]
        exact stringLiteral_escaped (e := ['x', '2', 'a']) rfl ih
      · subst hquote
        rw [List.length_append]
        exact stringLiteral_escaped (e := ['"']) rfl ih
      · subst hbackslash
        rw [List.length_append]
        exact stringLiteral_escaped (e := ['\\']) rfl ih
      · rw [List.singleton_append, stringLiteral, if_neg hquote, if_neg hbackslash, ih,
          Option.map_some, List.length_cons, Nat.add_comm]

/-- Two spellings of one string are one token. -/
theorem lex_literal (hplain : Ordinary isAlphanumeric) {u v body body' value : Str}
    (hcut : Between isAlphanumeric u ('"' :: (body ++ v)))
    (hbody : stringLiteral body = some (value, body.length))
    (hbody' : stringLiteral body' = some (value, body'.length)) :
    lex isAlphanumeric (u ++ ('"' :: (body' ++ v))) =
      lex isAlphanumeric (u ++ ('"' :: (body ++ v))) := by
  obtain ⟨us, hreads⟩ := hcut
  have hstops : Stops isAlphanumeric ('"' :: (body' ++ v)) := by
    intro c hc
    cases hc
    exact isIdentChar_of_mark hplain (by simp)
  have hliteral : ∀ b, stringLiteral b = some (value, b.length) →
      lex isAlphanumeric ('"' :: (b ++ v)) = (lex isAlphanumeric v).map (.str value :: ·) :=
    fun b hb => lex_lexeme hplain (.str hb) (by rintro name ⟨⟩)
  rw [lex_cut hplain hreads hstops, lex_of_reads hplain hreads, hliteral body hbody,
    hliteral body' hbody']

end Reads

/-! ### The predicate -/

/-- The predicate depends on the tokens only. -/
theorem parseCfgArguments_congr {isAlphanumeric : Char → Bool} {s s' : Str}
    (h : lex isAlphanumeric s = lex isAlphanumeric s') :
    parseCfgArguments isAlphanumeric s = parseCfgArguments isAlphanumeric s' := by
  rw [lex, lex] at h
  rw [parseCfgArguments, parseCfgArguments, h]

/-- A text that parses is read by the grammar to its end. Blanks between two of its tokens
leave the predicate as it is, and so does writing a literal in it without the characters that
comments are made of. -/
theorem comments_invisible {isAlphanumeric : Char → Bool} (hplain : Ordinary isAlphanumeric)
    {text : Str} {p : CfgPredicate} (h : parseCfgArguments isAlphanumeric text = some p) :
    (∃ ts r, Reads isAlphanumeric text ts r ∧ Tail r) ∧
      (∀ u v t, text = u ++ v → Between isAlphanumeric u v → Blanks t →
        parseCfgArguments isAlphanumeric (u ++ (t ++ v)) = some p) ∧
      ∀ u body v value, text = u ++ ('"' :: (body ++ v)) →
        Between isAlphanumeric u ('"' :: (body ++ v)) →
        stringLiteral body = some (value, body.length) →
          parseCfgArguments isAlphanumeric (u ++ ('"' :: (escapeMarks value ++ v))) = some p := by
  refine ⟨?_, ?_, ?_⟩
  · cases hlex : lex isAlphanumeric text with
    | none =>
        rw [lex] at hlex
        rw [parseCfgArguments, hlex] at h
        cases h
    | some ts => exact ⟨ts, reads_of_lex hplain text hlex⟩
  · rintro u v t rfl hcut ht
    rw [parseCfgArguments_congr (lex_insert hplain hcut ht), h]
  · rintro u body v value rfl hcut hbody
    rw [parseCfgArguments_congr
      (lex_literal hplain hcut hbody (stringLiteral_escapeMarks value)), h]

theorem ordinary_isAlphanum : Ordinary Char.isAlphanum := by
  refine ⟨fun c hc => ?_, fun c hc => ?_⟩
  · rw [← Bool.not_eq_true]
    intro halnum
    rw [Char.isAlphanum, Char.isDigit] at halnum
    delta Char.isAlpha Char.isUpper Char.isLower at halnum
    simp only [Bool.or_eq_true, Bool.and_eq_true, decide_eq_true_eq, ge_iff_le,
      UInt32.le_iff_toNat_le] at halnum
    simp only [isWhitespace, Bool.or_eq_true, Bool.and_eq_true, decide_eq_true_eq,
      beq_iff_eq] at hc
    have hval : c.val.toNat = c.toNat := rfl
    have hbounds : 'A'.val.toNat = 65 ∧ 'Z'.val.toNat = 90 ∧ 'a'.val.toNat = 97 ∧
        'z'.val.toNat = 122 ∧ '0'.val.toNat = 48 ∧ '9'.val.toNat = 57 :=
      ⟨rfl, rfl, rfl, rfl, rfl, rfl⟩
    omega
  · simp only [List.mem_cons, List.not_mem_nil, or_false] at hc
    rcases hc with rfl | rfl | rfl | rfl | rfl | rfl <;> rfl

/-- A nested comment in a gate whose value looks like the start of one. -/
theorem comments_invisible_gate :
    parseCfgArguments Char.isAlphanum ("(feature".toList ++ ("/*a/*b*/*/".toList ++
      "= \"x/*y\")".toList)) = some (.feature "x/*y".toList) := by
  have hparse : parseCfgArguments Char.isAlphanum ("(feature".toList ++ "= \"x/*y\")".toList) =
      some (.feature "x/*y".toList) := by decide +kernel
  have hname : ∀ c ∈ "feature".toList, isIdentChar Char.isAlphanum c = true :=
    List.all_eq_true.mp rfl
  have hcut : Between Char.isAlphanum "(feature".toList "= \"x/*y\")".toList :=
    ⟨_, .token (t := ['(']) .open (by rintro name ⟨⟩) (.token (t := "feature".toList)
      (.ident (List.cons_ne_nil _ _) hname) (by rintro name ⟨⟩ c ⟨⟩; rfl) .done)⟩
  have hcomment : Blanks ("/*a/*b*/*/".toList ++ []) :=
    .cons (.block (.char (by decide) (by decide) (.nest (.char (by decide) (by decide)
      (.close .last))))) .nil
  exact (comments_invisible ordinary_isAlphanum hparse).2.1 _ _ _ rfl hcut hcomment

end AutomatisedPipeline.Cfg
