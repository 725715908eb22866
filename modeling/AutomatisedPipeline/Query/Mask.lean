import Mathlib.Data.List.TakeWhile
import AutomatisedPipeline.Text.Lexical

/-!
The mask of the query gate: `mask_non_executable` of
`query_handlers/read_only_gate.rs` replaces every literal by `\x01` bytes and
every comment by spaces, and keeps the rest.

`maskNonExecutable_complete` and `maskNonExecutable_sound` say what the scanner
computes in terms of the lexical grammar: it succeeds exactly on the texts that
have a token sequence, and its result is the concatenation of the masked tokens.
Every later fact about the gate is a fact about tokens.
-/

namespace AutomatisedPipeline.Query

open Text Lexical

/-- `MASKED_TOKEN`: the stand-in for a masked literal. -/
def maskedToken : Char := Char.ofNat 1

/-- `skip_quoted`, counted from just after the opening quote `q`: the number of
characters up to and including the closing quote. -/
def skipQuoted (q : Char) : Str → Option Nat
  | [] => none
  | [c] => if c = q then some 1 else none
  | c :: d :: rest =>
      if c = '\\' ∧ q ≠ '`' then (skipQuoted q rest).map (· + 2)
      else if c = q then some 1
      else (skipQuoted q (d :: rest)).map (· + 1)

/-- The block-comment loop of `mask_non_executable`, counted from just after the
opening `/*`: the number of characters up to and including the closing `*/`. -/
def skipBlockComment : Str → Option Nat
  | [] => none
  | [_] => none
  | c :: d :: rest =>
      if c = '*' ∧ d = '/' then some 2 else (skipBlockComment (d :: rest)).map (· + 1)

/-- The line-comment loop of `mask_non_executable`: the number of characters
before the end of the line. -/
def skipLineComment (s : Str) : Nat := (s.takeWhile (· ≠ '\n')).length

/-- `mask_non_executable`: `none` when a literal or a block comment is left
unterminated. -/
def maskNonExecutable : Str → Option Str
  | [] => some []
  | c :: rest =>
      if c = '\'' ∨ c = '"' ∨ c = '`' then
        match skipQuoted c rest with
        | none => none
        | some n =>
            (maskNonExecutable (rest.drop n)).map (List.replicate (n + 1) maskedToken ++ ·)
      else if c = '/' ∧ rest.head? = some '/' then
        (maskNonExecutable (rest.drop (skipLineComment rest))).map
          (List.replicate (skipLineComment rest + 1) ' ' ++ ·)
      else if c = '/' ∧ rest.head? = some '*' then
        match skipBlockComment rest.tail with
        | none => none
        | some n =>
            (maskNonExecutable (rest.drop (n + 1))).map (List.replicate (n + 2) ' ' ++ ·)
      else (maskNonExecutable rest).map (c :: ·)
termination_by s => s.length

/-- What the mask leaves of a token. -/
def masked : Token → Str
  | .literal q body => List.replicate (Token.literal q body).text.length maskedToken
  | .lineComment body => List.replicate (Token.lineComment body).text.length ' '
  | .blockComment body => List.replicate (Token.blockComment body).text.length ' '
  | .word w => w
  | .punct c => [c]

/-! ### The loops read the grammar -/

theorem skipQuoted_sound {q : Char} {s : Str} {n : Nat} (h : skipQuoted q s = some n) :
    ∃ body, QuotedBody q body ∧ s = body ++ q :: s.drop n ∧ n = body.length + 1 := by
  fun_induction skipQuoted q s generalizing n with
  | case1 => simp at h
  | case2 =>
      obtain rfl : 1 = n := by simpa using h
      exact ⟨[], .nil, by simp, rfl⟩
  | case3 c hne => simp at h
  | case4 c d rest hesc ih =>
      obtain ⟨m, hm, rfl⟩ := Option.map_eq_some_iff.mp h
      obtain ⟨body, hb, hs, rfl⟩ := ih hm
      obtain ⟨rfl, hq⟩ := hesc
      refine ⟨'\\' :: d :: body, .escaped hq hb, ?_, by simp⟩
      simpa using hs
  | case5 d rest _ =>
      obtain rfl : 1 = n := by simpa using h
      exact ⟨[], .nil, by simp, rfl⟩
  | case6 c d rest hesc hne ih =>
      obtain ⟨m, hm, rfl⟩ := Option.map_eq_some_iff.mp h
      obtain ⟨body, hb, hs, rfl⟩ := ih hm
      refine ⟨c :: body, .plain hne (fun hc => ?_) hb, by simpa using hs, by simp⟩
      by_contra hq
      exact hesc ⟨hc, hq⟩

theorem skipQuoted_complete {q : Char} {body : Str} (hq : isQuote q = true)
    (h : QuotedBody q body) (rest : Str) :
    skipQuoted q (body ++ q :: rest) = some (body.length + 1) := by
  have hslash : q ≠ '\\' := by rintro rfl; exact absurd hq (by decide)
  induction h with
  | nil => cases rest <;> simp [skipQuoted, hslash]
  | @plain c body hne hesc _ ih =>
      cases hb : body ++ q :: rest with
      | nil => simp at hb
      | cons d t =>
          rw [hb] at ih
          have : ¬(c = '\\' ∧ q ≠ '`') := fun hcq => hcq.2 (hesc hcq.1)
          rw [List.cons_append, hb, skipQuoted, if_neg this, if_neg hne, ih]
          simp
  | @escaped c body hb _ ih => simp [skipQuoted, hb, ih]

theorem skipBlockComment_sound {s : Str} {n : Nat} (h : skipBlockComment s = some n) :
    ∃ body, NoClose body ∧ s = body ++ '*' :: '/' :: s.drop n ∧ n = body.length + 2 := by
  fun_induction skipBlockComment s generalizing n with
  | case1 => simp at h
  | case2 => simp at h
  | case3 c d rest hclose =>
      obtain rfl : 2 = n := by simpa using h
      exact ⟨[], fun a b => by simp, by simp [hclose], rfl⟩
  | case4 c d rest hopen ih =>
      obtain ⟨m, hm, rfl⟩ := Option.map_eq_some_iff.mp h
      obtain ⟨body, hb, hs, rfl⟩ := ih hm
      refine ⟨c :: body, fun a b hab => ?_, by simpa using hs, by simp⟩
      cases a with
      | nil =>
          -- the comment would close at its first character
          simp only [List.nil_append, List.cons.injEq] at hab
          obtain ⟨rfl, rfl⟩ := hab
          simp only [List.cons_append, List.cons.injEq] at hs
          exact hopen ⟨rfl, hs.1⟩
      | cons e a =>
          simp only [List.cons_append, List.cons.injEq] at hab
          exact hb a b hab.2

theorem skipBlockComment_complete {body : Str} (h : NoClose body) (rest : Str) :
    skipBlockComment (body ++ '*' :: '/' :: rest) = some (body.length + 2) := by
  induction body with
  | nil => simp [skipBlockComment]
  | cons c body ih =>
      have hb : NoClose body := fun a b hab => h (c :: a) b (by simp [hab])
      have hopen : ∀ d t, body ++ '*' :: '/' :: rest = d :: t → ¬(c = '*' ∧ d = '/') := by
        rintro d t hd ⟨rfl, rfl⟩
        cases body with
        | nil => simp at hd
        | cons e body =>
            simp only [List.cons_append, List.cons.injEq] at hd
            obtain ⟨rfl, -⟩ := hd
            exact h [] body rfl
      cases hbody : body ++ '*' :: '/' :: rest with
      | nil => simp at hbody
      | cons d t =>
          have ih' := ih hb
          rw [hbody] at ih'
          rw [List.cons_append, hbody, skipBlockComment, if_neg (hopen d t hbody), ih']
          simp

/-! ### One token of the mask -/

theorem not_quote_iff {c : Char} :
    isQuote c = false ↔ ¬(c = '\'' ∨ c = '"' ∨ c = '`') := by
  simp [isQuote, not_or, and_assoc]

theorem isQuote_eq_false_of_word {c : Char} (h : isWordChar c = true) : isQuote c = false := by
  rw [not_quote_iff]
  rintro (rfl | rfl | rfl) <;> exact absurd h (by decide)

/-- A character that opens no literal and no comment is kept. -/
theorem maskNonExecutable_keep {c : Char} {rest : Str} (hq : isQuote c = false)
    (hs : c = '/' → ∀ d ∈ rest.head?, d ≠ '/' ∧ d ≠ '*') :
    maskNonExecutable (c :: rest) = (maskNonExecutable rest).map (c :: ·) := by
  have hline : ¬(c = '/' ∧ rest.head? = some '/') := fun h => (hs h.1 '/' (by simp [h.2])).1 rfl
  have hblock : ¬(c = '/' ∧ rest.head? = some '*') := fun h => (hs h.1 '*' (by simp [h.2])).2 rfl
  rw [maskNonExecutable, if_neg (not_quote_iff.mp hq), if_neg hline, if_neg hblock]

theorem maskNonExecutable_word {w : Str} (h : ∀ c ∈ w, isWordChar c = true) (rest : Str) :
    maskNonExecutable (w ++ rest) = (maskNonExecutable rest).map (w ++ ·) := by
  induction w with
  | nil => simp
  | cons c w ih =>
      have hc := h c (by simp)
      rw [List.cons_append, maskNonExecutable_keep (isQuote_eq_false_of_word hc), ih]
      · simp [Option.map_map, Function.comp_def]
      · exact fun d hd => h d (by simp [hd])
      · rintro rfl
        exact absurd hc (by decide)

theorem drop_past (body : Str) (c : Char) (rest : Str) :
    (body ++ c :: rest).drop (body.length + 1) = rest := by
  simp [List.drop_append]

theorem skipLineComment_append {body rest : Str} (hb : '\n' ∉ body)
    (hr : ∀ c ∈ rest.head?, c = '\n') : skipLineComment (body ++ rest) = body.length := by
  have hrest : rest.takeWhile (· ≠ '\n') = [] := by
    cases rest with
    | nil => rfl
    | cons c t => simp [hr c (by simp)]
  rw [skipLineComment, List.takeWhile_append_of_pos, hrest, List.append_nil]
  intro c hc
  simpa using fun h : c = '\n' => hb (h ▸ hc)

theorem drop_skipLineComment (s : Str) : s.drop (skipLineComment s) = s.dropWhile (· ≠ '\n') := by
  have h := @List.drop_left _ (s.takeWhile (· ≠ '\n')) (s.dropWhile (· ≠ '\n'))
  rwa [List.takeWhile_append_dropWhile] at h

/-- The scanner handles one token at a time: whatever the token, it emits the
token's mask and goes on behind it. -/
theorem maskNonExecutable_token {t : Token} {rest : Str} (hv : t.Valid)
    (he : t.EndsBefore rest.head?) :
    maskNonExecutable (t.text ++ rest) = (maskNonExecutable rest).map (masked t ++ ·) := by
  cases t with
  | word w => exact maskNonExecutable_word hv.2 rest
  | punct c =>
      refine maskNonExecutable_keep hv.2 ?_
      rintro rfl
      exact he
  | literal q body =>
      have hq : q = '\'' ∨ q = '"' ∨ q = '`' := by simpa [isQuote, or_assoc] using hv.1
      have hskip := skipQuoted_complete hv.1 hv.2 rest
      rw [Token.text, List.cons_append, List.append_assoc, List.singleton_append,
        maskNonExecutable, if_pos hq, hskip]
      simp only [drop_past]
      simp [masked, Token.text]
  | lineComment body =>
      have hline : '\n' ∉ '/' :: body := by simpa [Token.Valid] using hv
      have hskip : skipLineComment ('/' :: (body ++ rest)) = body.length + 1 :=
        skipLineComment_append hline he
      rw [Token.text, List.cons_append, List.cons_append, maskNonExecutable,
        if_neg (by decide), if_pos (by simp), hskip]
      simp [masked, Token.text]
  | blockComment body =>
      have hskip := skipBlockComment_complete hv rest
      rw [Token.text, List.cons_append, List.cons_append, List.append_assoc, maskNonExecutable,
        if_neg (by decide), if_neg (by simp), if_pos (by simp)]
      have hdrop : ('*' :: (body ++ '*' :: '/' :: rest)).drop (body.length + 2 + 1) = rest := by simp
      simp only [List.tail_cons, List.cons_append, List.nil_append, hskip, hdrop]
      simp [masked, Token.text]

/-! ### The mask is the token-wise mask -/

theorem maskNonExecutable_complete {s : Str} {ts : List Token} (h : Lexes s ts) :
    maskNonExecutable s = some (ts.flatMap masked) := by
  induction h with
  | nil => simp [maskNonExecutable]
  | cons hv he _ ih => simp [maskNonExecutable_token hv he, ih]

/-- A word character in front of a token sequence starts a word or joins the one
that is there. -/
theorem lexes_cons_word {c : Char} {rest : Str} {ts : List Token} (hc : isWordChar c = true)
    (h : Lexes rest ts) : ∃ us, Lexes (c :: rest) us ∧
      us.flatMap masked = c :: ts.flatMap masked := by
  have hv : (Token.word [c]).Valid := ⟨by simp, by simpa using hc⟩
  by_cases hd : ∀ d ∈ rest.head?, isWordChar d = false
  · exact ⟨.word [c] :: ts, .cons hv hd h, by simp [masked]⟩
  · cases rest with
    | nil => simp at hd
    | cons d t =>
        have hword : isWordChar d = true := by simpa using hd
        obtain ⟨w, r, us, rfl, rfl, hr, hw, hb⟩ := h.head_word hword
        have hv : (Token.word (c :: d :: w)).Valid := ⟨by simp, by
          simp only [List.mem_cons, forall_eq_or_imp]
          exact ⟨hc, hword, hw⟩⟩
        exact ⟨.word (c :: d :: w) :: us, .cons hv hb hr, by simp [masked]⟩

/-- A line comment runs up to the end of its line. -/
theorem lexes_cons_lineComment {tl : Str} {ts : List Token}
    (hts : Lexes (('/' :: tl).dropWhile (· ≠ '\n')) ts) :
    Lexes ('/' :: '/' :: tl) (.lineComment (tl.takeWhile (· ≠ '\n')) :: ts) := by
  have hbody : '\n' ∉ tl.takeWhile (· ≠ '\n') := fun hmem => by
    simpa using List.mem_takeWhile_imp hmem
  have hnext : ∀ d ∈ (('/' :: tl).dropWhile (· ≠ '\n')).head?, d = '\n' := by
    intro d hd
    have hnot := List.head?_dropWhile_not (· ≠ '\n') ('/' :: tl)
    rw [Option.mem_def.mp hd] at hnot
    simpa using hnot
  have hlexes := Lexes.cons (t := .lineComment _) hbody hnext hts
  simpa [Token.text] using hlexes

/-- A character that starts nothing longer is a token of its own. -/
theorem lexes_cons_punct {c : Char} {rest : Str} {ts : List Token} (hword : ¬isWordChar c = true)
    (hquote : isQuote c = false) (hline : ¬(c = '/' ∧ rest.head? = some '/'))
    (hblock : ¬(c = '/' ∧ rest.head? = some '*')) (hts : Lexes rest ts) :
    Lexes (c :: rest) (.punct c :: ts) := by
  have hv : (Token.punct c).Valid := ⟨by simpa using hword, hquote⟩
  refine .cons hv ?_ hts
  unfold Token.EndsBefore
  split
  · rename_i heq; cases heq
  · rename_i heq; cases heq
  · rename_i heq
    cases heq
    intro d hd
    refine ⟨?_, ?_⟩
    · rintro rfl; exact hline ⟨rfl, hd⟩
    · rintro rfl; exact hblock ⟨rfl, hd⟩
  · trivial

theorem maskNonExecutable_sound {s m : Str} (h : maskNonExecutable s = some m) :
    ∃ ts, Lexes s ts ∧ m = ts.flatMap masked := by
  fun_induction maskNonExecutable s generalizing m with
  | case1 =>
      obtain rfl : [] = m := by simpa using h
      exact ⟨[], .nil, rfl⟩
  | case2 c rest hq hskip => simp at h
  | case3 c rest hq n hskip ih =>
      obtain ⟨m', hm, rfl⟩ := Option.map_eq_some_iff.mp h
      obtain ⟨ts, hts, rfl⟩ := ih hm
      obtain ⟨body, hb, hs, rfl⟩ := skipQuoted_sound hskip
      have hv : (Token.literal c body).Valid := ⟨by simpa [isQuote, or_assoc] using hq, hb⟩
      refine ⟨.literal c body :: ts, ?_, by simp [masked, Token.text]⟩
      rw [hs]
      have := Lexes.cons hv (by simp [Token.EndsBefore]) hts
      simpa [Token.text] using this
  | case4 c rest hq hline ih =>
      obtain ⟨m', hm, rfl⟩ := Option.map_eq_some_iff.mp h
      obtain ⟨ts, hts, rfl⟩ := ih hm
      obtain ⟨rfl, hhead⟩ := hline
      obtain ⟨tl, rfl⟩ := List.head?_eq_some_iff.mp hhead
      rw [drop_skipLineComment] at hts
      refine ⟨_, lexes_cons_lineComment hts, ?_⟩
      simp [masked, Token.text, skipLineComment]
  | case5 c rest hq hline hblock hskip => simp at h
  | case6 c rest hq hline hblock n hskip ih =>
      obtain ⟨m', hm, rfl⟩ := Option.map_eq_some_iff.mp h
      obtain ⟨ts, hts, rfl⟩ := ih hm
      obtain ⟨rfl, hhead⟩ := hblock
      obtain ⟨tl, rfl⟩ := List.head?_eq_some_iff.mp hhead
      obtain ⟨body, hb, hs, rfl⟩ := skipBlockComment_sound hskip
      refine ⟨.blockComment body :: ts, ?_, by simp [masked, Token.text]⟩
      have := Lexes.cons (t := .blockComment body) hb trivial hts
      simp only [List.tail_cons] at hs
      rw [hs]
      simpa [Token.text] using this
  | case7 c rest hq hline hblock ih =>
      obtain ⟨m', hm, rfl⟩ := Option.map_eq_some_iff.mp h
      obtain ⟨ts, hts, rfl⟩ := ih hm
      by_cases hc : isWordChar c = true
      · obtain ⟨us, hus, hmask⟩ := lexes_cons_word hc hts
        exact ⟨us, hus, hmask.symm⟩
      · refine ⟨_, lexes_cons_punct hc (not_quote_iff.mpr hq) hline hblock hts, ?_⟩
        simp [masked]

end AutomatisedPipeline.Query
