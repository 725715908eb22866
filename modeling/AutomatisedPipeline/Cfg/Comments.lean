import AutomatisedPipeline.Cfg.Literals

/-!
Comments and white space in a cfg argument list (`parser/cfg_lex.rs`).

`Reads` is the lexical grammar: a text is a sequence of tokens and blanks, each read where it
stands. Two scanners one after the other, the first of which takes the comments out, read
what the grammar says (`lex_of_reads`, `reads_of_lex`); so blanks can stand between any two
tokens (`comments_invisible`).
-/

namespace AutomatisedPipeline.Cfg

open Text

/-! ### The grammar -/

/-- A text that closes so many open comments, the last one at its end. -/
inductive Closes : Nat → Str → Prop where
  | last : Closes 1 ['*', '/']
  | close {d : Nat} {s : Str} : Closes d s → Closes (d + 1) ('*' :: '/' :: s)
  | nest {d : Nat} {s : Str} : Closes (d + 2) s → Closes (d + 1) ('/' :: '*' :: s)
  | char {d : Nat} {c e : Char} {s : Str} : ¬(c = '/' ∧ e = '*') → ¬(c = '*' ∧ e = '/') →
      Closes d (e :: s) → Closes d (c :: e :: s)

/-- A white space character, a line comment with its end of line, or a block comment. -/
inductive Blank : Str → Prop where
  | white {c : Char} : isWhitespace c = true → Blank [c]
  | line {body : Str} : '\n' ∉ body → Blank ('/' :: '/' :: (body ++ ['\n']))
  | block {body : Str} : Closes 1 body → Blank ('/' :: '*' :: body)

/-- Any number of blanks. -/
inductive Blanks : Str → Prop where
  | nil : Blanks []
  | cons {t s : Str} : Blank t → Blanks s → Blanks (t ++ s)

/-- What may end a text: a comment that nothing closes, or nothing. -/
inductive Tail : Str → Prop where
  | nil : Tail []
  | line {body : Str} : '\n' ∉ body → Tail ('/' :: '/' :: body)
  | block {body : Str} : (∀ a b, body = a ++ b → ¬ Closes 1 a) → Tail ('/' :: '*' :: body)

section Grammar

variable (isAlphanumeric : Char → Bool)

/-- The text of a token. -/
inductive Lexeme : Str → Token → Prop where
  | open : Lexeme ['('] .open
  | close : Lexeme [')'] .close
  | comma : Lexeme [','] .comma
  | eq : Lexeme ['='] .eq
  | str {body value : Str} : stringLiteral body = some (value, body.length) →
      Lexeme ('"' :: body) (.str value)
  | ident {name : Str} : name ≠ [] → (∀ c ∈ name, isIdentChar isAlphanumeric c = true) →
      Lexeme name (.ident name)

/-- An identifier does not go on here. -/
def Stops (s : Str) : Prop := ∀ c ∈ s.head?, isIdentChar isAlphanumeric c = false

/-- The text is read as the tokens, up to what is left. -/
inductive Reads : Str → List Token → Str → Prop where
  | done {s : Str} : Reads s [] s
  | blank {t s r : Str} {ts : List Token} : Blank t → Reads s ts r → Reads (t ++ s) ts r
  | token {t s r : Str} {tok : Token} {ts : List Token} : Lexeme isAlphanumeric t tok →
      (∀ name, tok = .ident name → Stops isAlphanumeric s) → Reads s ts r →
        Reads (t ++ s) (tok :: ts) r

/-- The text is cut where one token or blank ends and another one starts. -/
def Between (u v : Str) : Prop := ∃ us, Reads isAlphanumeric (u ++ v) us v

/-- What `char::is_alphanumeric` is not: white space, and the characters that the lexer has a
use for. -/
structure Ordinary : Prop where
  white : ∀ c, isWhitespace c = true → isAlphanumeric c = false
  marks : ∀ c ∈ ['(', ')', ',', '=', '"', '/'], isAlphanumeric c = false

/-- The two scanners of `parse_cfg_arguments`. -/
def lex (text : Str) : Option (List Token) := tokenize isAlphanumeric (withoutComments text)

end Grammar

/-! ### Comments taken out -/

theorem Closes.pos {d : Nat} {s : Str} (h : Closes d s) : 0 < d := by
  induction h with
  | last => exact Nat.one_pos
  | close _ _ => exact Nat.succ_pos _
  | nest _ _ => exact Nat.succ_pos _
  | char _ _ _ ih => exact ih

theorem skipBlockComment_of_closes {d : Nat} {s : Str} (h : Closes d s) (t : Str) :
    skipBlockComment d (s ++ t) = s.length := by
  induction h with
  | last =>
      rw [List.cons_append, List.cons_append, skipBlockComment, if_neg (by decide),
        if_pos ⟨rfl, rfl⟩, if_pos rfl]
      rfl
  | close hs ih =>
      rename_i d s
      have hpos := hs.pos
      have hd : d + 1 ≠ 1 := by omega
      rw [List.cons_append, List.cons_append, skipBlockComment, if_neg (by decide),
        if_pos ⟨rfl, rfl⟩, if_neg hd, Nat.add_sub_cancel, ih, List.length_cons, List.length_cons]
      omega
  | nest _ ih =>
      rw [List.cons_append, List.cons_append, skipBlockComment, if_pos ⟨rfl, rfl⟩, ih,
        List.length_cons, List.length_cons]
      omega
  | char hopen hclose _ ih =>
      rw [List.cons_append, List.cons_append, skipBlockComment, if_neg hopen, if_neg hclose]
      rw [List.cons_append] at ih
      rw [ih, Nat.add_comm]
      rfl

theorem withoutComments_plain {c : Char} (hquote : c ≠ '"') (hslash : c ≠ '/') (s : Str) :
    withoutComments (c :: s) = c :: withoutComments s := by
  rw [withoutComments, if_neg hquote, if_neg fun h => hslash h.1, if_neg fun h => hslash h.1]

theorem isWhitespace_quote : isWhitespace '"' = false := by decide

theorem isWhitespace_slash : isWhitespace '/' = false := by decide

theorem isWhitespace_space : isWhitespace ' ' = true := by decide

/-- Of a blank, a white space character is left. -/
theorem withoutComments_blank {t : Str} (h : Blank t) (s : Str) :
    ∃ w, isWhitespace w = true ∧ withoutComments (t ++ s) = w :: withoutComments s := by
  cases h with
  | white hc =>
      rename_i c
      have hquote : c ≠ '"' := fun heq => by
        rw [heq, isWhitespace_quote] at hc
        cases hc
      have hslash : c ≠ '/' := fun heq => by
        rw [heq, isWhitespace_slash] at hc
        cases hc
      exact ⟨c, hc, withoutComments_plain hquote hslash s⟩
  | line hbody =>
      rename_i body
      have hstop : ('/' :: (body ++ ['\n']) ++ s).takeWhile (· ≠ '\n') = '/' :: body := by
        have hmem : '\n' ∉ '/' :: body := by
          rw [List.mem_cons, not_or]
          exact ⟨by decide, hbody⟩
        rw [List.cons_append, List.append_assoc]
        exact takeWhile_ne_stop hmem
      have hdrop : ('/' :: (body ++ ['\n']) ++ s).drop (('/' :: body).length + 1) = s :=
        List.drop_left' (by simp)
      refine ⟨' ', isWhitespace_space, ?_⟩
      rw [List.cons_append, withoutComments, if_neg (by decide), if_pos ⟨rfl, rfl⟩, hstop, hdrop]
  | block hbody =>
      rename_i body
      have hskip := skipBlockComment_of_closes hbody s
      refine ⟨' ', isWhitespace_space, ?_⟩
      rw [List.cons_append, withoutComments, if_neg (by decide),
        if_neg (by rintro ⟨-, h⟩; cases h), if_pos ⟨rfl, rfl⟩]
      simp only [List.cons_append, List.tail_cons, hskip, List.drop_left]

/-- A literal is copied, whatever it holds. -/
theorem withoutComments_literal {body value : Str}
    (h : stringLiteral body = some (value, body.length)) (s : Str) :
    withoutComments ('"' :: (body ++ s)) = '"' :: (body ++ withoutComments s) := by
  have hsame := (stringLiteral_spec h).2.2 s
  rw [List.take_length] at hsame
  have hcopy := (stringLiteral_spec hsame).2.1
  rw [withoutComments, if_pos rfl, hcopy, List.take_left, List.drop_left]

section Lex

variable {isAlphanumeric : Char → Bool}

theorem isIdentChar_of_white (hplain : Ordinary isAlphanumeric) {c : Char}
    (hc : isWhitespace c = true) : isIdentChar isAlphanumeric c = false := by
  have hunderscore : c ≠ '_' := fun heq => by
    rw [heq] at hc
    exact absurd hc (by decide)
  rw [isIdentChar, hplain.white c hc, Bool.false_or, beq_eq_false_iff_ne]
  exact hunderscore

theorem isIdentChar_of_mark (hplain : Ordinary isAlphanumeric) {c : Char}
    (hc : c ∈ ['(', ')', ',', '=', '"', '/']) : isIdentChar isAlphanumeric c = false := by
  have hunderscore : c ≠ '_' := by
    rintro rfl
    simp at hc
  rw [isIdentChar, hplain.marks c hc, Bool.false_or, beq_eq_false_iff_ne]
  exact hunderscore

theorem ne_of_isIdentChar (hplain : Ordinary isAlphanumeric) {c : Char}
    (hc : isIdentChar isAlphanumeric c = true) :
    isWhitespace c = false ∧ ∀ m ∈ ['(', ')', ',', '=', '"', '/'], c ≠ m := by
  constructor
  · by_contra hwhite
    rw [isIdentChar_of_white hplain (Bool.not_eq_false _ ▸ hwhite)] at hc
    cases hc
  · rintro m hm rfl
    rw [isIdentChar_of_mark hplain hm] at hc
    cases hc

theorem withoutComments_name (hplain : Ordinary isAlphanumeric) {name : Str}
    (hname : ∀ c ∈ name, isIdentChar isAlphanumeric c = true) (s : Str) :
    withoutComments (name ++ s) = name ++ withoutComments s := by
  induction name with
  | nil => rfl
  | cons c name ih =>
      rw [List.forall_mem_cons] at hname
      have hne := (ne_of_isIdentChar hplain hname.1).2
      rw [List.cons_append, withoutComments_plain (hne '"' (by simp)) (hne '/' (by simp)),
        ih hname.2, List.cons_append]

/-- Taking comments out does not join an identifier with what stands behind it. -/
theorem stops_withoutComments (hplain : Ordinary isAlphanumeric) {s : Str}
    (h : Stops isAlphanumeric s) : Stops isAlphanumeric (withoutComments s) := by
  have hspace := isIdentChar_of_white hplain isWhitespace_space
  intro c hc
  cases s with
  | nil =>
      rw [withoutComments] at hc
      cases hc
  | cons a s =>
      have ha : isIdentChar isAlphanumeric a = false := h a rfl
      rw [withoutComments] at hc
      split at hc
      · cases hc
        exact ha
      · split at hc
        · cases hc
          exact hspace
        · split at hc
          · cases hc
            exact hspace
          · cases hc
            exact ha

theorem takeWhile_name {name s : Str} (hname : ∀ c ∈ name, isIdentChar isAlphanumeric c = true)
    (hstops : Stops isAlphanumeric s) :
    (name ++ s).takeWhile (isIdentChar isAlphanumeric) = name := by
  rw [List.takeWhile_append_of_pos hname]
  cases s with
  | nil => exact List.append_nil _
  | cons c s =>
      have hc : isIdentChar isAlphanumeric c = false := hstops c rfl
      rw [List.takeWhile_cons_of_neg (by rw [hc]; exact Bool.false_ne_true), List.append_nil]

/-! ### Lexing what is read -/

theorem lex_blank {t : Str} (h : Blank t) (s : Str) :
    lex isAlphanumeric (t ++ s) = lex isAlphanumeric s := by
  obtain ⟨w, hw, hout⟩ := withoutComments_blank h s
  rw [lex, hout, tokenize, if_pos hw, lex]

theorem lex_lexeme (hplain : Ordinary isAlphanumeric) {t s : Str} {tok : Token}
    (h : Lexeme isAlphanumeric t tok)
    (hstops : ∀ name, tok = .ident name → Stops isAlphanumeric s) :
    lex isAlphanumeric (t ++ s) = (lex isAlphanumeric s).map (tok :: ·) := by
  cases h with
  | «open» =>
      rw [lex, List.singleton_append, withoutComments_plain (by decide) (by decide), tokenize,
        if_neg (by decide), if_pos rfl, lex]
  | close =>
      rw [lex, List.singleton_append, withoutComments_plain (by decide) (by decide), tokenize,
        if_neg (by decide), if_neg (by decide), if_pos rfl, lex]
  | comma =>
      rw [lex, List.singleton_append, withoutComments_plain (by decide) (by decide), tokenize,
        if_neg (by decide), if_neg (by decide), if_neg (by decide), if_pos rfl, lex]
  | eq =>
      rw [lex, List.singleton_append, withoutComments_plain (by decide) (by decide), tokenize,
        if_neg (by decide), if_neg (by decide), if_neg (by decide), if_neg (by decide),
        if_pos rfl, lex]
  | str hbody =>
      rename_i body value
      have hsame := (stringLiteral_spec hbody).2.2 (withoutComments s)
      rw [List.take_length] at hsame
      rw [lex, List.cons_append, withoutComments_literal hbody, tokenize, if_neg (by decide),
        if_neg (by decide), if_neg (by decide), if_neg (by decide), if_neg (by decide),
        if_pos rfl, hsame]
      simp only [List.drop_left, lex]
  | ident hne hname =>
      have hs := stops_withoutComments hplain (hstops t rfl)
      cases t with
      | nil => exact absurd rfl hne
      | cons c name =>
          rw [List.forall_mem_cons] at hname
          obtain ⟨hwhite, hmarks⟩ := ne_of_isIdentChar hplain hname.1
          have hall : ∀ c' ∈ c :: name, isIdentChar isAlphanumeric c' = true :=
            List.forall_mem_cons.mpr hname
          rw [lex, withoutComments_name hplain hall, List.cons_append, tokenize,
            if_neg (by rw [hwhite]; exact Bool.false_ne_true), if_neg (hmarks '(' (by simp)),
            if_neg (hmarks ')' (by simp)), if_neg (hmarks ',' (by simp)),
            if_neg (hmarks '=' (by simp)), if_neg (hmarks '"' (by simp)), if_pos hname.1,
            takeWhile_name hname.2 hs, List.drop_left, lex]

/-- What is read is lexed, and the rest behind it. -/
theorem lex_of_reads (hplain : Ordinary isAlphanumeric) {s r : Str} {ts : List Token}
    (h : Reads isAlphanumeric s ts r) :
    lex isAlphanumeric s = (lex isAlphanumeric r).map (ts ++ ·) := by
  induction h with
  | done => simp
  | blank hblank _ ih => rw [lex_blank hblank, ih]
  | token hlexeme hstops _ ih =>
      rw [lex_lexeme hplain hlexeme hstops, ih, Option.map_map]
      rfl

end Lex

end AutomatisedPipeline.Cfg
