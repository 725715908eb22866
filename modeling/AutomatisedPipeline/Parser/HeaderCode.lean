import AutomatisedPipeline.Parser.HeaderDialect

/-!
What the header dialect is read from: the code of a header.

`Header.tokens` are the tokens of the code of a tree, without the sections of the groups that test
`__cplusplus`. `tokenize` finds them where each directive reads as its code (`Directive.Reads`) and
stands first on its line, each line comment is on one line, and a group that tests the macro does so
before its first token (`prompt`); so the answer does not depend on what is not code there.
-/

namespace AutomatisedPipeline.HeaderDialect

open Text CText
open Indexer (trimStart)

/-! ### The tokens of the code -/

/-- The tokens of a code, of which so many characters are still to be passed. -/
def codeTokensFrom : Nat → Str → List Tok
  | _, [] => []
  | skip + 1, _ :: rest => codeTokensFrom skip rest
  | 0, c :: rest =>
      if isAsciiWhitespace c then codeTokensFrom 0 rest
      else (token c rest).1 :: codeTokensFrom (token c rest).2 rest

def codeTokens (s : Str) : List Tok := codeTokensFrom 0 s

mutual

/-- The tokens of a tree: those of its code, but for the groups that test `__cplusplus`. -/
def Node.tokens : Node → List Tok
  | .blank _ next => codeTokens next.1
  | .directive _ next => codeTokens next.1
  | .group first lead body others _ next =>
      (if tests cplusplus first others then []
        else codeTokens lead.1 ++ (tokensOf body ++ branchTokens others)) ++ codeTokens next.1

def tokensOf : List Node → List Tok
  | [] => []
  | n :: ns => Node.tokens n ++ tokensOf ns

def branchTokens : List Branch → List Tok
  | [] => []
  | (_, lead, body) :: others => codeTokens lead.1 ++ (tokensOf body ++ branchTokens others)

end

def tokensOfHeader (h : Header) : List Tok := codeTokens h.lead.1 ++ tokensOf h.nodes

/-! ### What the lexer can read -/

/-- What a directive of a kind does to the groups. -/
def effectOfKind (names : Bool) : Kind → Effect
  | .opening => .push names
  | .elif => .mark names
  | .closing => .pop
  | _ => .none

/-- What a directive does to the groups, by its code. -/
def meantEffect (d : Directive) : Effect := effectOfKind (d.names cplusplus) d.kind

/-- The lexer ends a directive where it ends, and what comments and literals hold does not change
what it does to the groups. -/
structure Reads (d : Directive) : Prop where
  oneLine : OneLine d.raw
  effect : effectOf d.raw = meantEffect d

instance (d : Directive) : Decidable (Reads d) :=
  decidable_of_iff (OneLine d.raw ∧ effectOf d.raw = meantEffect d)
    ⟨fun ⟨a, b⟩ => ⟨a, b⟩, fun ⟨a, b⟩ => ⟨a, b⟩⟩

/-- A line comment is on one line, and a directive reads as its code. -/
def MarkReads : Mark → Prop
  | .blank (.line s) => '\n' ∉ s.1
  | .blank _ => True
  | .directive d => Reads d

instance : (m : Mark) → Decidable (MarkReads m)
  | .blank (.line s) => inferInstanceAs (Decidable ('\n' ∉ s.1))
  | .blank (.block _) | .blank (.literal _ _) => inferInstanceAs (Decidable True)
  | .directive d => inferInstanceAs (Decidable (Reads d))

mutual

/-- In a group that tests the macro no token stands before the first condition that does. -/
def Node.prompt : Node → Bool
  | .blank _ _ => true
  | .directive _ _ => true
  | .group first lead body others _ _ =>
      first.names cplusplus ||
        (prompt body && (!tests cplusplus first others ||
          ((codeTokens lead.1).isEmpty && (tokensOf body).isEmpty)) &&
          branchesPrompt (tests cplusplus first others) others)

def prompt : List Node → Bool
  | [] => true
  | n :: ns => Node.prompt n && prompt ns

/-- The same of the sections up to the first condition on the macro. -/
def branchesPrompt (tested : Bool) : List Branch → Bool
  | [] => true
  | (d, lead, body) :: others =>
      (d.kind = .elif && d.names cplusplus) ||
        (prompt body && (!tested || ((codeTokens lead.1).isEmpty && (tokensOf body).isEmpty)) &&
          branchesPrompt tested others)

end

/-- The lexer reads the code of the header, and nothing else. -/
structure Legible (h : Header) : Prop where
  ownLine : ownLine false (freshAfter true h.lead.1) h.islands = true
  reads : ∀ i ∈ h.islands, MarkReads i.mark
  prompt : prompt h.nodes = true

instance (h : Header) : Decidable (Legible h) :=
  decidable_of_iff (CText.ownLine false (freshAfter true h.lead.1) h.islands = true ∧
    (∀ i ∈ h.islands, MarkReads i.mark) ∧ HeaderDialect.prompt h.nodes = true)
    ⟨fun ⟨a, b, c⟩ => ⟨a, b, c⟩, fun ⟨a, b, c⟩ => ⟨a, b, c⟩⟩

/-! ### Line starts -/

theorem atLineStart_cons (c : Char) (past : Str) :
    atLineStart (c :: past) = freshStep (atLineStart past) c := by
  rw [atLineStart, List.takeWhile_cons, freshStep]
  by_cases hc : c = '\n'
  · simp [hc]
  · simp [hc, atLineStart, Bool.and_comm]

theorem atLineStart_append (s past : Str) :
    atLineStart (s.reverse ++ past) = freshAfter (atLineStart past) s := by
  induction s generalizing past with
  | nil => rfl
  | cons c s ih =>
      rw [List.reverse_cons, List.append_assoc, freshAfter, List.foldl_cons, ← atLineStart_cons]
      exact ih (c :: past)

/-! ### Pieces that are no code -/

theorem tokenizeFrom_skip (groups : List Bool) (past s rest : Str) :
    tokenizeFrom groups past s.length (s ++ rest) =
      tokenizeFrom groups (s.reverse ++ past) 0 rest := by
  induction s generalizing past with
  | nil => rfl
  | cons c s ih =>
      rw [List.length_cons, List.cons_append, tokenizeFrom, ih, List.reverse_cons,
        List.append_assoc, List.singleton_append]

/-- A piece that the lexer passes at once. -/
theorem tokenizeFrom_pass {groups groups' : List Bool} {past s rest : Str} {c : Char}
    (h : nextToken groups past c (s ++ rest) = (none, s.length, groups')) :
    tokenizeFrom groups past 0 (c :: s ++ rest) =
      tokenizeFrom groups' ((c :: s).reverse ++ past) 0 rest := by
  rw [List.cons_append, tokenizeFrom, h]
  simp only [Option.toList_none, ite_self, List.nil_append]
  rw [tokenizeFrom_skip, List.reverse_cons, List.append_assoc, List.singleton_append]

/-- A text that starts with a line feed, if it starts. -/
def EndsLine (rest : Str) : Prop := ∀ c ∈ rest.head?, c = '\n'

theorem find_lineFeed {s rest : Str} (hs : '\n' ∉ s) (hrest : EndsLine rest) :
    (find ['\n'] (s ++ rest)).getD (s ++ rest).length = s.length := by
  induction s with
  | nil =>
      cases rest with
      | nil => rfl
      | cons c rest =>
          obtain rfl := hrest c rfl
          rfl
  | cons c s ih =>
      rw [List.mem_cons, not_or] at hs
      have hhere : ['\n'].isPrefixOf (c :: (s ++ rest)) = false := by
        simp [List.isPrefixOf, hs.1]
      rw [List.cons_append, find, hhere, if_neg Bool.false_ne_true, List.length_cons,
        List.length_cons, ← ih hs.2]
      cases find ['\n'] (s ++ rest) <;> rfl

theorem find_blockEnd {s : Str} (hs : ¬ ['*', '/'] <:+: s) (rest : Str) :
    find ['*', '/'] (s ++ '*' :: '/' :: rest) = some s.length := by
  induction s with
  | nil => rfl
  | cons c s ih =>
      have hhere : ['*', '/'].isPrefixOf (c :: (s ++ '*' :: '/' :: rest)) = false := by
        rw [Bool.eq_false_iff, ne_eq, List.isPrefixOf_iff_prefix]
        rintro ⟨tail, htail⟩
        obtain ⟨rfl, hnext⟩ := List.cons.inj htail
        cases s with
        | nil => exact absurd (List.cons.inj hnext).1 (by decide)
        | cons d s =>
            obtain ⟨rfl, -⟩ := List.cons.inj hnext
            exact hs ⟨[], s, rfl⟩
      have htail : ¬ ['*', '/'] <:+: s := fun h => hs (h.trans (List.suffix_cons c s).isInfix)
      rw [List.cons_append, find, hhere, if_neg Bool.false_ne_true, ih htail]
      rfl

theorem literalEnd_quoted (q : Quote) {s : Str} (hs : quoted q.char s = true) (rest : Str) :
    literalEnd q.char (s ++ q.char :: rest) = s.length + 1 := by
  have hslash : q.char ≠ '\\' := by cases q <;> decide
  have hend : literalEnd q.char (q.char :: rest) = 1 := by
    cases rest with
    | nil => rfl
    | cons d rest => exact if_pos (.inl rfl)
  induction s using quoted.induct with
  | case1 => exact hend
  | case2 c =>
      simp only [quoted, Bool.and_eq_true, bne_iff_ne] at hs
      change literalEnd q.char (c :: q.char :: rest) = 2
      rw [literalEnd, if_neg (not_or.mpr hs.1), if_neg hs.2, hend]
  | case3 d s ih =>
      have hinner : quoted q.char s = true := by simpa [quoted] using hs
      have hnot : ¬ ('\\' = q.char ∨ '\\' = '\n') := by
        rintro (h | h)
        · exact hslash h.symm
        · exact absurd h (by decide)
      rw [List.cons_append, List.cons_append, literalEnd, if_neg hnot, if_pos rfl, ih hinner]
      simp only [List.length_cons]
      omega
  | case4 c d s hc ih =>
      rw [quoted, if_neg hc] at hs
      simp only [Bool.and_eq_true, bne_iff_ne] at hs
      have hrest : literalEnd q.char (d :: (s ++ q.char :: rest)) = (d :: s).length + 1 := ih hs.2
      rw [List.cons_append, List.cons_append, literalEnd, if_neg (not_or.mpr hs.1), if_neg hc,
        hrest]
      simp only [List.length_cons]
      omega

/-- What stands before a line counts as a backslash or not. -/
theorem logicalLine_prev {prev : Char} (hprev : prev ≠ '\\') (s : Str) :
    logicalLine prev s = logicalLine ' ' s := by
  cases s with
  | nil => rfl
  | cons c s =>
      have hblank : ' ' ≠ '\\' := by decide
      simp only [logicalLine, hprev, hblank, ne_eq, not_false_eq_true, and_true]

theorem logicalLine_append {prev : Char} {s rest : Str} (hs : OneLine s) (hprev : prev ≠ '\\')
    (hrest : EndsLine rest) : logicalLine prev (s ++ rest) = s := by
  have hgo : ∀ (s : Str) (prev : Char), logicalLine prev (s ++ ['\n']) = s →
      logicalLine prev (s ++ rest) = s := by
    intro s
    induction s with
    | nil =>
        intro prev h
        cases rest with
        | nil => rfl
        | cons c rest =>
            obtain rfl := hrest c rfl
            have hfeed : '\n' = '\n' ∧ prev ≠ '\\' := by
              by_contra hnot
              rw [List.nil_append, logicalLine, if_neg hnot] at h
              cases h
            exact if_pos hfeed
    | cons c s ih =>
        intro prev h
        rw [List.cons_append, logicalLine] at h
        split at h
        · cases h
        · rename_i hnot
          rw [List.cons_append, logicalLine, if_neg hnot, ih c (List.cons.inj h).2]
  exact hgo s prev ((logicalLine_prev hprev _).trans hs)

theorem nextToken_skip {groups : List Bool} {past rest : Str} {c : Char} {n : Nat}
    (hc : c ∈ ['/', '"', '\'']) (h : skipCommentOrLiteral c rest = some n) :
    nextToken groups past c rest = (none, n, groups) := by
  have hsolid : isAsciiWhitespace c = false ∧ c ≠ '#' := by
    simp only [List.mem_cons, List.not_mem_nil, or_false] at hc
    rcases hc with rfl | rfl | rfl <;> exact ⟨rfl, by decide⟩
  rw [nextToken, hsolid.1, if_neg Bool.false_ne_true, if_neg fun hhash => hsolid.2 hhash.1, h]

theorem tokenizeFrom_blank (groups : List Bool) (past : Str) {b : Blank} {rest : Str}
    (hreads : MarkReads (.blank b)) (hends : (Mark.blank b).endsLine = true → EndsLine rest) :
    tokenizeFrom groups past 0 (b.text ++ rest) =
      tokenizeFrom groups (b.text.reverse ++ past) 0 rest := by
  cases b with
  | line s =>
      have hs : '\n' ∉ '/' :: s.1 := by
        rw [List.mem_cons, not_or]
        exact ⟨by decide, hreads⟩
      apply tokenizeFrom_pass
      apply nextToken_skip (by decide)
      rw [skipCommentOrLiteral, if_pos ⟨rfl, rfl⟩, find_lineFeed hs (hends rfl)]
  | block s =>
      have hnot : ¬ ('/' = '/' ∧ ('*' :: (s.1 ++ ['*', '/']) ++ rest).head? = some '/') := by
        rintro ⟨-, h⟩
        exact absurd (Option.some.inj h) (by decide)
      have hend : find ['*', '/'] (s.1 ++ ['*', '/'] ++ rest) = some s.1.length := by
        rw [List.append_assoc]
        exact find_blockEnd s.2 rest
      apply tokenizeFrom_pass
      apply nextToken_skip (by decide)
      rw [skipCommentOrLiteral, if_neg hnot, if_pos ⟨rfl, rfl⟩, List.cons_append, List.tail_cons,
        hend]
      simp
  | literal q s =>
      have hend : literalEnd q.char (s.1 ++ [q.char] ++ rest) = s.1.length + 1 := by
        rw [List.append_assoc]
        exact literalEnd_quoted q s.2 rest
      apply tokenizeFrom_pass
      apply nextToken_skip
      · cases q <;> decide
      · rw [skipCommentOrLiteral, if_neg, if_neg, if_pos, hend, List.length_append]
        · rfl
        · cases q
          · exact .inl rfl
          · exact .inr rfl
        · cases q <;> exact fun h => absurd h.1 (by decide)
        · cases q <;> exact fun h => absurd h.1 (by decide)

theorem tokenizeFrom_directive (groups : List Bool) {past rest : Str} {d : Directive}
    (hline : atLineStart past = true) (hreads : Reads d) (hends : EndsLine rest) :
    tokenizeFrom groups past 0 ((Mark.directive d).text ++ rest) =
      tokenizeFrom ((meantEffect d).apply groups) ((Mark.directive d).text.reverse ++ past) 0
        rest := by
  apply tokenizeFrom_pass
  have hraw : logicalLine '#' (d.raw ++ rest) = d.raw :=
    logicalLine_append hreads.oneLine (by decide) hends
  rw [nextToken, if_neg (by decide), if_pos ⟨rfl, hline⟩, hraw, ← hreads.effect]

/-! ### Code -/

/-- The next piece does not go on with a token of the code. -/
structure Apart (s rest : Str) : Prop where
  head : ∀ c ∈ rest.head?, (c.isAlphanum || c == '_') = false ∧ c ≠ ':'
  slash : s.getLast? = some '/' → ∀ c ∈ rest.head?, c ≠ '/' ∧ c ≠ '*'

theorem Apart.tail {c : Char} {s rest : Str} (h : Apart (c :: s) rest) : Apart s rest where
  head := h.head
  slash hlast := by
    cases s with
    | nil => cases hlast
    | cons d s => exact h.slash (by rwa [List.getLast?_cons_cons])

theorem takeWhile_apart {p : Char → Bool} {rest : Str} (h : ∀ c ∈ rest.head?, p c = false)
    (s : Str) : (s ++ rest).takeWhile p = s.takeWhile p := by
  induction s with
  | nil =>
      cases rest with
      | nil => rfl
      | cons c rest => simp [h c rfl]
  | cons c s ih => rw [List.cons_append, List.takeWhile_cons, List.takeWhile_cons, ih]

/-- A token of the code is read from the code. -/
theorem token_append {c : Char} {s rest : Str} (h : Apart (c :: s) rest) :
    token c (s ++ rest) = token c s := by
  have hscope : (s ++ rest).head? = some ':' ↔ s.head? = some ':' := by
    cases s with
    | nil =>
        refine iff_of_false (fun hcolon => ?_) (by simp)
        exact (h.head ':' hcolon).2 rfl
    | cons d s => rfl
  simp only [token, takeWhile_apart fun c hc => (h.head c hc).1, hscope]

theorem token_length_le (c : Char) (s : Str) : (token c s).2 ≤ s.length := by
  rw [token]
  dsimp only
  split
  · exact (List.takeWhile_prefix _).length_le
  · split
    · rename_i hscope
      cases s with
      | nil => exact absurd hscope.2 (by simp)
      | cons d s => simp
    · exact Nat.zero_le _

theorem skipCommentOrLiteral_code {c : Char} {s rest : Str}
    (hquote : '"' ∉ c :: s ∧ '\'' ∉ c :: s)
    (hcomment : ¬ ['/', '/'] <:+: c :: s ∧ ¬ ['/', '*'] <:+: c :: s) (h : Apart (c :: s) rest) :
    skipCommentOrLiteral c (s ++ rest) = none := by
  have hnext : ∀ d, (d = '/' ∨ d = '*') → ¬ (c = '/' ∧ (s ++ rest).head? = some d) := by
    rintro d hd ⟨rfl, hhead⟩
    cases s with
    | nil =>
        have hrest := h.slash rfl d hhead
        rcases hd with rfl | rfl
        · exact hrest.1 rfl
        · exact hrest.2 rfl
    | cons e s =>
        obtain rfl := Option.some.inj hhead
        rcases hd with rfl | rfl
        · exact hcomment.1 ⟨[], s, rfl⟩
        · exact hcomment.2 ⟨[], s, rfl⟩
  have hliteral : ¬ (c = '"' ∨ c = '\'') := by
    rintro (rfl | rfl)
    · exact hquote.1 List.mem_cons_self
    · exact hquote.2 List.mem_cons_self
  rw [skipCommentOrLiteral, if_neg (hnext '/' (.inl rfl)), if_neg (hnext '*' (.inr rfl)),
    if_neg hliteral]

/-- A code in front of a piece: its tokens, unless they are in a group that tests the macro. -/
theorem tokenizeFrom_codeFrom (groups : List Bool) {s rest : Str}
    (hquote : '"' ∉ s ∧ '\'' ∉ s) (hcomment : ¬ ['/', '/'] <:+: s ∧ ¬ ['/', '*'] <:+: s)
    (hapart : Apart s rest) (past : Str) (hhash : hashFree (atLineStart past) s = true) (skip : Nat)
    (hskip : skip ≤ s.length) : tokenizeFrom groups past skip (s ++ rest) =
      (if inCplusplusGroup groups then [] else codeTokensFrom skip s) ++
        tokenizeFrom groups (s.reverse ++ past) 0 rest := by
  induction s generalizing past skip with
  | nil =>
      obtain rfl := Nat.le_zero.mp hskip
      simp [codeTokensFrom]
  | cons c s ih =>
      have hquote' : '"' ∉ s ∧ '\'' ∉ s :=
        ⟨fun h => hquote.1 (List.mem_cons_of_mem c h), fun h => hquote.2 (List.mem_cons_of_mem c h)⟩
      have hcomment' : ¬ ['/', '/'] <:+: s ∧ ¬ ['/', '*'] <:+: s :=
        ⟨fun h => hcomment.1 (h.trans (List.suffix_cons c s).isInfix),
          fun h => hcomment.2 (h.trans (List.suffix_cons c s).isInfix)⟩
      obtain ⟨hnot, hhash'⟩ := Bool.and_eq_true_iff.mp hhash
      rw [← atLineStart_cons] at hhash'
      have hgo := ih hquote' hcomment' hapart.tail (c :: past) hhash'
      have hpast : (c :: s).reverse ++ past = s.reverse ++ (c :: past) := by simp
      rw [hpast, List.cons_append]
      cases skip with
      | succ skip =>
          rw [tokenizeFrom, codeTokensFrom]
          exact hgo skip (Nat.le_of_succ_le_succ hskip)
      | zero =>
          rw [tokenizeFrom, codeTokensFrom, nextToken]
          cases hspace : isAsciiWhitespace c with
          | true =>
              rw [if_pos rfl, if_pos rfl]
              dsimp only
              rw [hgo 0 (Nat.zero_le _)]
              simp
          | false =>
              have hline : ¬ (c = '#' ∧ atLineStart past = true) := by
                rintro ⟨rfl, hfresh⟩
                rw [hfresh] at hnot
                exact absurd hnot (by decide)
              rw [if_neg Bool.false_ne_true, if_neg Bool.false_ne_true, if_neg hline,
                skipCommentOrLiteral_code hquote hcomment hapart, token_append hapart]
              dsimp only
              rw [hgo _ (token_length_le c s)]
              cases inCplusplusGroup groups <;> simp

theorem tokenizeFrom_code (groups : List Bool) {past rest : Str} (code : Code)
    (hhash : hashFree (atLineStart past) code.1 = true) (hapart : Apart code.1 rest) :
    tokenizeFrom groups past 0 (code.1 ++ rest) =
      (if inCplusplusGroup groups then [] else codeTokens code.1) ++
        tokenizeFrom groups (code.1.reverse ++ past) 0 rest :=
  tokenizeFrom_codeFrom groups code.2.noQuote code.2.noComment hapart past hhash 0 (Nat.zero_le _)

/-! ### The pieces from left to right -/

def markEffect : Mark → Effect
  | .blank _ => .none
  | .directive d => meantEffect d

/-- The tokens behind each piece, with the groups that are open there. -/
def islandTokens (groups : List Bool) : List Island → List Tok
  | [] => []
  | i :: rest =>
      let groups' := (markEffect i.mark).apply groups
      (if inCplusplusGroup groups' then [] else codeTokens i.next.1) ++ islandTokens groups' rest

theorem apart_islands {before : Str} {is : List Island} (h : joined before is = true) :
    Apart before (islandsText is) := by
  cases is with
  | nil =>
      constructor
      · intro c hc
        cases hc
      · intro _ c hc
        cases hc
  | cons i rest =>
      obtain ⟨mark, next⟩ := i
      have hfirst := (Bool.and_eq_true_iff.mp (Bool.and_eq_true_iff.mp h).1).1
      cases mark with
      | directive d =>
          constructor
          · intro c hc
            obtain rfl : '#' = c := Option.some.inj hc
            decide
          · intro _ c hc
            obtain rfl : '#' = c := Option.some.inj hc
            decide
      | blank b =>
          cases b with
          | literal q s =>
              constructor
              · intro c hc
                obtain rfl : q.char = c := Option.some.inj hc
                cases q <;> decide
              · intro _ c hc
                obtain rfl : q.char = c := Option.some.inj hc
                cases q <;> decide
          | line s =>
              have hslash : before.getLast? ≠ some '/' := bne_iff_ne.mp hfirst
              refine ⟨fun c hc => ?_, fun hlast => absurd hlast hslash⟩
              obtain rfl : '/' = c := Option.some.inj hc
              decide
          | block s =>
              have hslash : before.getLast? ≠ some '/' := bne_iff_ne.mp hfirst
              refine ⟨fun c hc => ?_, fun hlast => absurd hlast hslash⟩
              obtain rfl : '/' = c := Option.some.inj hc
              decide

theorem next_of_joined {before : Str} {i : Island} {rest : List Island}
    (h : joined before (i :: rest) = true) (hends : i.mark.endsLine = true) :
    i.next.1.head? = some '\n' ∨ (i.next.1 = [] ∧ rest = []) := by
  have hnext := (Bool.and_eq_true_iff.mp (Bool.and_eq_true_iff.mp h).1).2
  rw [hends] at hnext
  simpa using hnext

theorem endsLine_of_joined {before : Str} {i : Island} {rest : List Island}
    (h : joined before (i :: rest) = true) (hends : i.mark.endsLine = true) :
    EndsLine (i.next.1 ++ islandsText rest) := by
  intro c hc
  rcases next_of_joined h hends with hfeed | ⟨hnil, rfl⟩
  · rw [List.head?_append, hfeed] at hc
    exact (Option.some.inj hc).symm
  · rw [hnil] at hc
    cases hc

theorem atLineStart_solid {c : Char} (hc : freshStep true c = false) (past : Str) :
    atLineStart (c :: past) = false := by
  rw [atLineStart_cons]
  cases atLineStart past with
  | true => exact hc
  | false =>
      rw [freshStep, Bool.or_eq_false_iff] at hc ⊢
      exact ⟨hc.1, rfl⟩

/-- Behind a piece the line has begun, or ends, or the text does. -/
theorem begun_of_joined {before : Str} {i : Island} {rest : List Island}
    (h : joined before (i :: rest) = true) (past : Str) :
    atLineStart (i.mark.text.reverse ++ past) = false ∨ i.next.1.head? = some '\n' ∨
      (i.next.1 = [] ∧ rest = []) := by
  cases hends : i.mark.endsLine with
  | true => exact .inr (next_of_joined h hends)
  | false =>
      left
      obtain ⟨mark, next⟩ := i
      cases mark with
      | directive d => cases hends
      | blank b =>
          cases b with
          | line s => cases hends
          | block s =>
              have htext : (Mark.blank (.block s)).text.reverse ++ past =
                  '/' :: ('*' :: (s.1.reverse ++ '*' :: '/' :: past)) := by
                simp [Mark.text, Blank.text]
              rw [htext]
              exact atLineStart_solid rfl _
          | literal q s =>
              have htext : (Mark.blank (.literal q s)).text.reverse ++ past =
                  q.char :: (s.1.reverse ++ q.char :: past) := by
                simp [Mark.text, Blank.text]
              rw [htext]
              cases q <;> exact atLineStart_solid rfl _

theorem hashFree_lineFeed {fresh : Bool} {s : Str} (h : s.head? = some '\n')
    (hfree : hashFree false s = true) : hashFree fresh s = true := by
  cases s with
  | nil => cases h
  | cons c s =>
      obtain rfl := Option.some.inj h
      exact hfree

theorem freshAfter_lineFeed {fresh : Bool} {s : Str} (h : s.head? = some '\n') :
    freshAfter fresh s = freshAfter false s := by
  cases s with
  | nil => cases h
  | cons c s =>
      obtain rfl := Option.some.inj h
      rfl

theorem tokenizeFrom_mark {before past : Str} {i : Island} {rest : List Island}
    (hjoined : joined before (i :: rest) = true)
    (hown : ownLine false (atLineStart past) (i :: rest) = true) (hreads : MarkReads i.mark)
    (groups : List Bool) :
    tokenizeFrom groups past 0 (i.mark.text ++ (i.next.1 ++ islandsText rest)) =
      tokenizeFrom ((markEffect i.mark).apply groups) (i.mark.text.reverse ++ past) 0
        (i.next.1 ++ islandsText rest) := by
  have hends := endsLine_of_joined hjoined
  obtain ⟨mark, next⟩ := i
  cases mark with
  | blank b => exact tokenizeFrom_blank groups past hreads hends
  | directive d =>
      exact tokenizeFrom_directive groups (Bool.and_eq_true_iff.mp hown).1 hreads (hends rfl)

theorem ownLine_tail {fresh : Bool} {i : Island} {rest : List Island}
    (h : ownLine false fresh (i :: rest) = true) :
    ownLine false (freshAfter false i.next.1) rest = true := by
  obtain ⟨mark, next⟩ := i
  cases mark with
  | blank b => exact h
  | directive d => exact (Bool.and_eq_true_iff.mp h).2

/-- The lexer reads the pieces one by one. -/
theorem tokenizeFrom_islands {before : Str} {is : List Island} (hjoined : joined before is = true)
    {past : Str} (hown : ownLine false (atLineStart past) is = true)
    (hreads : ∀ i ∈ is, MarkReads i.mark) (groups : List Bool) :
    tokenizeFrom groups past 0 (islandsText is) = islandTokens groups is := by
  induction is generalizing before past groups with
  | nil => rfl
  | cons i rest ih =>
      have htext : islandsText (i :: rest) =
          i.mark.text ++ (i.next.1 ++ islandsText rest) := by
        rw [islandsText, List.flatMap_cons, Island.text, List.append_assoc]
        rfl
      have hrest : joined i.next.1 rest = true := (Bool.and_eq_true_iff.mp hjoined).2
      have hbegun := begun_of_joined hjoined past
      have hhash : hashFree (atLineStart (i.mark.text.reverse ++ past)) i.next.1 = true := by
        rcases hbegun with hbegun | hfeed | ⟨hnil, -⟩
        · rw [hbegun]
          exact i.next.2.noHash
        · exact hashFree_lineFeed hfeed i.next.2.noHash
        · rw [hnil]
          rfl
      have hown' : ownLine false
          (atLineStart (i.next.1.reverse ++ (i.mark.text.reverse ++ past))) rest = true := by
        rw [atLineStart_append]
        rcases hbegun with hbegun | hfeed | ⟨-, rfl⟩
        · rw [hbegun]
          exact ownLine_tail hown
        · rw [freshAfter_lineFeed hfeed]
          exact ownLine_tail hown
        · rfl
      rw [htext, tokenizeFrom_mark hjoined hown (hreads i List.mem_cons_self),
        tokenizeFrom_code _ i.next hhash (apart_islands hrest),
        ih hrest hown' fun i' hi' => hreads i' (List.mem_cons_of_mem i hi')]
      rfl

/-! ### The tree -/

theorem meantEffect_of_kind {d : Directive} {k : Kind} (h : d.kind = k) :
    meantEffect d = effectOfKind (d.names cplusplus) k := by
  rw [meantEffect, h]

theorem islandTokens_cons (groups : List Bool) (mark : Mark) (next : Code) (rest : List Island) :
    islandTokens groups (⟨mark, next⟩ :: rest) =
      (if inCplusplusGroup ((markEffect mark).apply groups) then [] else codeTokens next.1) ++
        islandTokens ((markEffect mark).apply groups) rest := rfl

/-- A branch opens no group and closes none. -/
theorem apply_branch {d : Directive} (hd : (d.kind = .elif || d.kind = .other) = true) (flag : Bool)
    (groups : List Bool) : (meantEffect d).apply (flag :: groups) =
      (flag || (d.kind = .elif && d.names cplusplus)) :: groups := by
  rcases Bool.or_eq_true_iff.mp hd with hkind | hkind
  · rw [meantEffect_of_kind (of_decide_eq_true hkind), hkind]
    rfl
  · have hkind := of_decide_eq_true hkind
    rw [meantEffect_of_kind hkind, hkind]
    simp [Effect.apply, effectOfKind]

theorem hidden_cons {groups : List Bool} (flag : Bool) (h : inCplusplusGroup groups = true) :
    inCplusplusGroup (flag :: groups) = true := by
  rw [inCplusplusGroup, List.any_cons]
  exact Bool.or_eq_true_iff.mpr (.inr h)

mutual

/-- In a group that tests the macro nothing is read, and the groups inside are closed again. -/
theorem islandTokens_hidden_node : ∀ (n : Node) (groups : List Bool), n.shaped = true →
    inCplusplusGroup groups = true → ∀ rest,
    islandTokens groups (n.islands ++ rest) = islandTokens groups rest
  | .blank b next, groups, _, h, rest => by
      rw [Node.islands, List.singleton_append, islandTokens_cons, markEffect, Effect.apply, if_pos h,
        List.nil_append]
  | .directive d next, groups, hshaped, h, rest => by
      rw [Node.shaped] at hshaped
      rw [Node.islands, List.singleton_append, islandTokens_cons, markEffect,
        meantEffect_of_kind (of_decide_eq_true hshaped)]
      simp [Effect.apply, effectOfKind, h]
  | .group first lead body others last next, groups, hshaped, h, rest => by
      simp only [Node.shaped, Bool.and_eq_true, decide_eq_true_eq] at hshaped
      obtain ⟨⟨⟨hfirst, hbody⟩, hothers⟩, hlast⟩ := hshaped
      have hopen := hidden_cons (first.names cplusplus) h
      rw [Node.islands, List.cons_append, islandTokens_cons, markEffect,
        meantEffect_of_kind hfirst, effectOfKind, Effect.apply, if_pos hopen, List.nil_append,
        List.append_assoc, islandTokens_hidden body _ hbody hopen, List.append_assoc,
        List.singleton_append,
        islandTokens_hidden_branches others _ groups hothers hopen hlast, if_pos h,
        List.nil_append]

theorem islandTokens_hidden : ∀ (ns : List Node) (groups : List Bool), shaped ns = true →
    inCplusplusGroup groups = true → ∀ rest,
    islandTokens groups (islands ns ++ rest) = islandTokens groups rest
  | [], groups, _, _, rest => rfl
  | n :: ns, groups, hshaped, h, rest => by
      obtain ⟨hn, hns⟩ := Bool.and_eq_true_iff.mp hshaped
      rw [islands, List.append_assoc, islandTokens_hidden_node n groups hn h,
        islandTokens_hidden ns groups hns h]

theorem islandTokens_hidden_branches : ∀ (others : List Branch) (flag : Bool) (groups : List Bool),
    branchesShaped others = true → inCplusplusGroup (flag :: groups) = true →
    ∀ {last : Directive}, last.kind = .closing → ∀ next rest,
    islandTokens (flag :: groups) (branchIslands others ++ ⟨.directive last, next⟩ :: rest) =
      (if inCplusplusGroup groups then [] else codeTokens next.1) ++ islandTokens groups rest
  | [], flag, groups, _, _, last, hlast, next, rest => by
      rw [branchIslands, List.nil_append, islandTokens_cons, markEffect, meantEffect_of_kind hlast]
      rfl
  | (d, lead, body) :: others, flag, groups, hshaped, h, last, hlast, next, rest => by
      simp only [branchesShaped, Bool.and_eq_true] at hshaped
      obtain ⟨⟨hd, hbody⟩, hothers⟩ := hshaped
      have hopen : inCplusplusGroup
          ((flag || (d.kind = .elif && d.names cplusplus)) :: groups) = true := by
        cases flag with
        | true => rfl
        | false => exact hidden_cons _ h
      rw [branchIslands, List.cons_append, islandTokens_cons, markEffect, apply_branch hd,
        if_pos hopen, List.nil_append, List.append_assoc,
        islandTokens_hidden body _ hbody hopen,
        islandTokens_hidden_branches others _ groups hothers hopen hlast]

end

/-- A condition behind the first tests the macro. -/
def branchesTest (others : List Branch) : Bool :=
  others.any fun b => b.1.kind = .elif && b.1.names cplusplus

theorem visible_cons {groups : List Bool} (h : inCplusplusGroup groups = false) :
    inCplusplusGroup (false :: groups) = false := h

/-- The tokens of a section, which are none if a later condition of its group tests the macro. -/
theorem tokens_before_test {tested : Bool} {lead body : List Tok}
    (hempty : (!tested || (lead.isEmpty && body.isEmpty)) = true) (others rest : List Tok) :
    lead ++ (body ++ ((if tested then [] else others) ++ rest)) =
      (if tested then [] else lead ++ (body ++ others)) ++ rest := by
  cases tested with
  | false => simp
  | true =>
      simp only [Bool.not_true, Bool.false_or, Bool.and_eq_true, List.isEmpty_iff] at hempty
      rw [hempty.1, hempty.2]
      rfl

mutual

/-- Outside the groups that test the macro the tokens of the tree are read. -/
theorem islandTokens_node : ∀ (n : Node) (groups : List Bool), n.shaped = true →
    Node.prompt n = true → inCplusplusGroup groups = false → ∀ rest,
    islandTokens groups (n.islands ++ rest) = Node.tokens n ++ islandTokens groups rest
  | .blank b next, groups, _, _, h, rest => by
      rw [Node.islands, List.singleton_append, islandTokens_cons, markEffect, Effect.apply, h]
      rfl
  | .directive d next, groups, hshaped, _, h, rest => by
      have heffect : meantEffect d = .none := meantEffect_of_kind (of_decide_eq_true hshaped)
      rw [Node.islands, List.singleton_append, islandTokens_cons, markEffect, heffect,
        Effect.apply, h]
      rfl
  | .group first lead body others last next, groups, hshaped, hprompt, h, rest => by
      simp only [Node.shaped, Bool.and_eq_true, decide_eq_true_eq] at hshaped
      obtain ⟨⟨⟨hfirst, hbody⟩, hothers⟩, hlast⟩ := hshaped
      rw [Node.islands, List.cons_append, islandTokens_cons, markEffect,
        meantEffect_of_kind hfirst, effectOfKind, Effect.apply, List.append_assoc,
        List.append_assoc, List.singleton_append]
      cases hnames : first.names cplusplus with
      | true =>
          have htests : tests cplusplus first others = true := by
            rw [tests, hnames]
            rfl
          have hopen : inCplusplusGroup (true :: groups) = true := rfl
          rw [if_pos hopen, List.nil_append, islandTokens_hidden body _ hbody hopen,
            islandTokens_hidden_branches others _ groups hothers hopen hlast, h, Node.tokens,
            htests]
          rfl
      | false =>
          have htests : tests cplusplus first others = branchesTest others := by
            rw [tests, hnames]
            rfl
          simp only [Node.prompt, hnames, htests, Bool.false_or, Bool.and_eq_true] at hprompt
          obtain ⟨⟨hbodyPrompt, hempty⟩, hothersPrompt⟩ := hprompt
          rw [visible_cons h, if_neg Bool.false_ne_true,
            islandTokens_nodes body _ hbody hbodyPrompt (visible_cons h),
            islandTokens_branches others groups _ hothers hothersPrompt id h hlast, Node.tokens,
            htests]
          exact (tokens_before_test hempty _ _).trans (List.append_assoc _ _ _).symm

theorem islandTokens_nodes : ∀ (ns : List Node) (groups : List Bool), shaped ns = true →
    prompt ns = true → inCplusplusGroup groups = false → ∀ rest,
    islandTokens groups (islands ns ++ rest) = tokensOf ns ++ islandTokens groups rest
  | [], groups, _, _, _, rest => rfl
  | n :: ns, groups, hshaped, hprompt, h, rest => by
      obtain ⟨hn, hns⟩ := Bool.and_eq_true_iff.mp hshaped
      obtain ⟨hn', hns'⟩ := Bool.and_eq_true_iff.mp hprompt
      rw [islands, List.append_assoc, islandTokens_node n groups hn hn' h,
        islandTokens_nodes ns groups hns hns' h, tokensOf, List.append_assoc]

theorem islandTokens_branches : ∀ (others : List Branch) (groups : List Bool) (tested : Bool),
    branchesShaped others = true → branchesPrompt tested others = true →
    (branchesTest others = true → tested = true) → inCplusplusGroup groups = false →
    ∀ {last : Directive}, last.kind = .closing → ∀ next rest,
    islandTokens (false :: groups) (branchIslands others ++ ⟨.directive last, next⟩ :: rest) =
      (if branchesTest others then [] else branchTokens others) ++
        (codeTokens next.1 ++ islandTokens groups rest)
  | [], groups, _, _, _, _, h, last, hlast, next, rest => by
      rw [branchIslands, List.nil_append, islandTokens_cons, markEffect, meantEffect_of_kind hlast,
        effectOfKind, Effect.apply, List.tail_cons, h]
      rfl
  | (d, lead, body) :: others, groups, tested, hshaped, hprompt, htested, h, last, hlast, next,
      rest => by
      simp only [branchesShaped, Bool.and_eq_true] at hshaped
      obtain ⟨⟨hd, hbody⟩, hothers⟩ := hshaped
      have htest : branchesTest ((d, lead, body) :: others) =
          ((d.kind = .elif && d.names cplusplus) || branchesTest others) := rfl
      rw [branchIslands, List.cons_append, islandTokens_cons, markEffect, apply_branch hd,
        Bool.false_or, List.append_assoc, htest]
      cases hnames : (decide (d.kind = .elif) && d.names cplusplus) with
      | true =>
          have hopen : inCplusplusGroup (true :: groups) = true := rfl
          rw [if_pos hopen, List.nil_append, islandTokens_hidden body _ hbody hopen,
            islandTokens_hidden_branches others _ groups hothers hopen hlast, h]
          rfl
      | false =>
          rw [htest, hnames, Bool.false_or] at htested
          simp only [branchesPrompt, hnames, Bool.false_or, Bool.and_eq_true] at hprompt
          obtain ⟨⟨hbodyPrompt, hempty⟩, hothersPrompt⟩ := hprompt
          rw [visible_cons h, if_neg Bool.false_ne_true, Bool.false_or,
            islandTokens_nodes body _ hbody hbodyPrompt (visible_cons h),
            islandTokens_branches others groups tested hothers hothersPrompt htested h hlast,
            branchTokens]
          refine tokens_before_test ?_ _ _
          cases htests : branchesTest others with
          | true => rwa [htested htests] at hempty
          | false => rfl

end

/-- The lexer finds the tokens of the code. -/
theorem tokenize_text {h : Header} (hwf : h.WellFormed) (hlegible : Legible h) :
    tokenize h.text = tokensOfHeader h := by
  have hlead : tokenizeFrom [] [] 0 (h.lead.1 ++ islandsText h.islands) =
      codeTokens h.lead.1 ++ tokenizeFrom [] (h.lead.1.reverse ++ []) 0 (islandsText h.islands) :=
    tokenizeFrom_code [] h.lead h.start (apart_islands hwf.joined)
  have hown : ownLine false (atLineStart (h.lead.1.reverse ++ [])) h.islands = true := by
    rw [atLineStart_append]
    exact hlegible.ownLine
  have hnodes : islandTokens [] h.islands = tokensOf h.nodes := by
    have hall := islandTokens_nodes h.nodes [] hwf.shaped hlegible.prompt rfl []
    rw [List.append_nil] at hall
    exact hall.trans (List.append_nil _)
  rw [tokenize, Header.text, hlead, tokenizeFrom_islands hwf.joined hown hlegible.reads, hnodes]
  rfl

/-! ### What is not code -/

mutual

/-- The tokens are those of what is left of the tree. -/
theorem tokens_erase_node : ∀ n : Node, Node.tokens (n.erase cplusplus) = Node.tokens n
  | .blank b next => by rw [Node.erase, Node.tokens, Node.tokens]
  | .directive d next => by rw [Node.erase, Node.tokens, Node.tokens]
  | .group first lead body others last next => by
      rw [Node.erase]
      split
      · rename_i htests
        rw [Node.tokens, Node.tokens, tests_empty, if_pos htests, if_pos htests]
      · rw [Node.tokens, Node.tokens, tests_erase, tokens_erase body, tokens_erase_branches others]

theorem tokens_erase : ∀ ns : List Node, tokensOf (eraseAll cplusplus ns) = tokensOf ns
  | [] => rfl
  | n :: ns => by rw [eraseAll, tokensOf, tokensOf, tokens_erase_node n, tokens_erase ns]

theorem tokens_erase_branches : ∀ others : List Branch,
    branchTokens (eraseBranches cplusplus others) = branchTokens others
  | [] => rfl
  | (d, lead, body) :: others => by
      rw [eraseBranches, branchTokens, branchTokens, tokens_erase body,
        tokens_erase_branches others]

end

theorem tokensOfHeader_erase (h : Header) : tokensOfHeader (h.erase cplusplus) = tokensOfHeader h :=
  congrArg (codeTokens h.lead.1 ++ ·) (tokens_erase h.nodes)

/-- The answer on a header that the lexer can read is the one on the tokens of its code. -/
theorem declaresCpp_text {h : Header} (hwf : h.WellFormed) (hlegible : Legible h) :
    declaresCpp h.text = declaresCppOf (tokensOfHeader h) := by
  rw [declaresCpp, tokenize_text hwf hlegible]

/-- Two headers that the lexer can read and that differ only in what comments and literals hold and
in the groups that test `__cplusplus` get the same answer, and one whose code has no construct of
C++ is C. -/
theorem declaresCpp_erase {h h' : Header} (hwf : h.WellFormed) (hlegible : Legible h)
    (hwf' : h'.WellFormed) (hlegible' : Legible h')
    (herase : h.erase cplusplus = h'.erase cplusplus) :
    declaresCpp h.text = declaresCpp h'.text ∧
      (declaresCppOf (tokensOfHeader h) = false → declaresCpp h.text = false) := by
  have htokens : tokensOfHeader h = tokensOfHeader h' := by
    rw [← tokensOfHeader_erase h, herase, tokensOfHeader_erase h']
  constructor
  · rw [declaresCpp_text hwf hlegible, declaresCpp_text hwf' hlegible', htokens]
  · intro hnone
    rw [declaresCpp_text hwf hlegible, hnone]

/-- A header with a comment and a group that tests the macro. -/
private def guarded (comment : { s : Str // ¬ ['*', '/'] <:+: s }) (inner : Code) : Header where
  lead := ⟨[], by decide⟩
  start := rfl
  nodes :=
    [.blank (.block comment) noCode,
      .group [.text "ifdef __cplusplus".toList] inner [] [] [.text "endif".toList] noCode]

/-- A class in a comment or in the group does not make it C++. -/
theorem declaresCpp_erase_guarded :
    declaresCpp (guarded ⟨"class A \x7b".toList, by decide⟩
        ⟨"\nclass B \x7b\x7d;\n".toList, by decide⟩).text =
      declaresCpp (guarded ⟨[], by decide⟩ noCode).text ∧
    (declaresCppOf (tokensOfHeader (guarded ⟨"class A \x7b".toList, by decide⟩
        ⟨"\nclass B \x7b\x7d;\n".toList, by decide⟩)) = false →
      declaresCpp (guarded ⟨"class A \x7b".toList, by decide⟩
        ⟨"\nclass B \x7b\x7d;\n".toList, by decide⟩).text = false) :=
  declaresCpp_erase (by decide) (by decide) (by decide) (by decide) rfl

/-- A header with a comment on the line of a directive. -/
private def defined (comment : { s : Str // ¬ ['*', '/'] <:+: s }) : Header where
  lead := ⟨[], by decide⟩
  start := rfl
  nodes := [.directive [.text "define A ".toList, .blank (.block comment)] noCode]

/-- A class in a comment of several lines that starts on the line of a directive makes it C++. -/
theorem not_declaresCpp_erase :
    ¬∀ h h' : Header, h.WellFormed → h'.WellFormed → h.erase cplusplus = h'.erase cplusplus →
      declaresCpp h.text = declaresCpp h'.text := by
  intro h
  have heq := h (defined ⟨"\nclass A \x7b".toList, by decide⟩) (defined ⟨[], by decide⟩) (by decide)
    (by decide) rfl
  exact absurd heq (by decide)

end AutomatisedPipeline.HeaderDialect
