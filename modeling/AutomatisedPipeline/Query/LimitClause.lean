import AutomatisedPipeline.Query.Limit

/-!
Which words `limit` of a query are LIMIT clauses, and which of them `has_limit_clause` finds.

Read from left to right, a statement expects an operand, or has a complete one behind it
(`Place`). A word `limit` behind a complete operand is the clause keyword; where an operand
is expected it is a variable, a function or the key of a map, and behind `.`, `:` and `AS`
it is the name of a property, a label or an alias.

`has_limit_clause` looks backwards only: it finds every word `limit` but those directly
behind `.`, `:` or a word `as` (`hasLimitClause_iff`). So a map key is found, since the `:`
stands behind it, and a clause behind a property called `as` is not
(`identifierPosition_iff`).
-/

namespace AutomatisedPipeline.Query

open Text Lexical

/-! ### Reading a statement -/

/-- What may come next: an operand, something behind a complete operand, a name, or the rest
of a name whose last character lies outside ASCII. -/
inductive Expects where
  | operand
  | operator
  | name
  | rest
deriving DecidableEq, Repr

/-- A place in a statement: what may come next there, and the brackets that are open. -/
structure Place where
  expects : Expects
  brackets : List Char
deriving DecidableEq, Repr

def Place.start : Place := { expects := .operand, brackets := [] }

def asKeyword : Str := ['a', 's']

/-- The words that stand before an operand and are none. -/
def operandKeywords : List Str :=
  ["match", "with", "return", "unwind", "call", "by", "all", "distinct", "not", "case",
    "when"].map String.toList

/-- The words that stand behind a complete operand and leave it complete. -/
def closingKeywords : List Str :=
  ["asc", "ascending", "desc", "descending", "end"].map String.toList

/-- What is expected behind a word. -/
def Expects.word (e : Expects) (w : Str) : Expects :=
  match e with
  | .operand => if w ∈ operandKeywords then .operand else .operator
  | .operator =>
      if w = asKeyword then .name else if w ∈ closingKeywords then .operator else .operand
  | .name => .operator
  | .rest => .operator

/-- What is expected behind white space or a comment, which end a name. -/
def Expects.blank : Expects → Expects
  | .rest => .operator
  | e => e

section Place

-- the characters outside ASCII that a name may have
variable (letter : Char → Bool)

/-- The place behind a punctuation character. Inside braces a `:` stands behind a map key. -/
def Place.punct (p : Place) (c : Char) : Place :=
  if isWhitespace c then { p with expects := p.expects.blank }
  else if c = '.' then { p with expects := .name }
  else if c = ':' then
    { p with expects := if p.brackets.head? = some '{' then .operand else .name }
  else if c = '(' ∨ c = '[' ∨ c = '{' then
    { expects := .operand, brackets := c :: p.brackets }
  else if c = ')' ∨ c = ']' ∨ c = '}' then
    { expects := .operator, brackets := p.brackets.tail }
  else if c = '*' then
    { p with expects := if p.expects = .operator ∨ p.expects = .rest then .operand else .operator }
  else if letter c then { p with expects := .rest }
  else { p with expects := .operand }

/-- The place behind a token. -/
def Place.next (p : Place) : Token → Place
  | .lineComment _ => { p with expects := p.expects.blank }
  | .blockComment _ => { p with expects := p.expects.blank }
  | .literal _ _ => { p with expects := .operator }
  | .word w => { p with expects := p.expects.word (w.map Char.toLower) }
  | .punct c => p.punct letter c

/-- The place behind the tokens `pre`. -/
def placeAfter (pre : List Token) : Place := pre.foldl (Place.next letter) Place.start

/-- The word before `post` goes on with a letter outside ASCII. -/
def GoesOn (post : List Token) : Prop := ∃ c, post.head? = some (.punct c) ∧ letter c = true

/-- A word between `pre` and `post` stands where a clause keyword may. -/
def IsClause (pre post : List Token) : Prop :=
  (placeAfter letter pre).expects = .operator ∧ ¬GoesOn letter post

end Place

/-- The word `as` is the nearest token before a position that is not a separator. -/
def BehindAs (pre : List Token) : Prop :=
  ∃ w, introducer pre = some (.word w) ∧ w.map Char.toLower = asKeyword

/-- A word between `pre` and `post` that is no clause keyword and is taken for one: the start
of an operand, unless it is the value of a map key; a name that white space outside ASCII
parts from its `.`, `:` or `AS`; or a piece of a longer name. -/
def IsMistaken (letter : Char → Bool) (pre post : List Token) : Prop :=
  match (placeAfter letter pre).expects with
  | .operand => introducer pre ≠ some (.punct ':')
  | .name => ∃ c, introducer pre = some (.punct c) ∧ isWhitespace c = true
  | .rest => True
  | .operator => GoesOn letter post ∧ ¬BehindAs pre

/-- Some word `limit` of the tokens stands at a place of the given kind. -/
def HasLimit (ts : List Token) (place : List Token → List Token → Prop) : Prop :=
  ∃ pre w post, ts = pre ++ .word w :: post ∧ w.map Char.toLower = limitKeyword ∧ place pre post

/-! ### Every hit of the scan is a word -/

/-- The text behind a word, folded, does not go on with the word. -/
theorem takeWhile_word {fold : Char → Char} (hf : AsciiFold fold) {s : Str} {ts : List Token}
    {w : Str} (h : Lexes s (.word w :: ts)) :
    (w.map fold ++ (ts.flatMap masked).map fold).takeWhile isWordChar = w.map fold := by
  have hw : ∀ c ∈ w.map fold, isWordChar c = true := by
    intro c hc
    obtain ⟨d, hd, rfl⟩ := List.mem_map.mp hc
    rw [hf.word]
    exact (h.valid (.word w) List.mem_cons_self).2 d hd
  have hnext := @head_not_word s [] ts w h
  rw [List.takeWhile_append_of_pos hw]
  cases hts : ts.flatMap masked with
  | nil => simp
  | cons d r =>
      have hd : isWordChar (fold d) = false := by
        rw [hf.word]
        exact hnext d (by simp [hts])
      simp [hd]

/-- Inside a word the character before is one of the word. -/
theorem eq_zero_of_left {w r : Str} (hw : ∀ c ∈ w, isWordChar c = true) {i : Nat}
    (hi : i < w.length) (hleft : ∀ c ∈ ((w ++ r).take i).getLast?, isWordChar c = false) :
    i = 0 := by
  rw [List.take_append_of_le_length hi.le] at hleft
  cases hlast : (w.take i).getLast? with
  | none =>
      have hnil := List.getLast?_eq_none_iff.mp hlast
      have hlen := congrArg List.length hnil
      rw [List.length_take, List.length_nil] at hlen
      omega
  | some c =>
      have hfalse := hleft c hlast
      rw [hw c (List.mem_of_mem_take (List.mem_of_getLast? hlast))] at hfalse
      cases hfalse

/-- Where a run of word characters stands in the masked text, with none before and behind
it, there is a word token. -/
theorem exists_word_of_hit {fold : Char → Char} (hf : AsciiFold fold) {s : Str}
    {ts : List Token} (h : Lexes s ts) {needle after : Str} (hne : needle ≠ [])
    (hneedle : ∀ c ∈ needle, isWordChar c = true) {i : Nat}
    (hhit : ((ts.flatMap masked).map fold).drop i = needle ++ after)
    (hleft : ∀ c ∈ (((ts.flatMap masked).map fold).take i).getLast?, isWordChar c = false)
    (hright : ∀ c ∈ after.head?, isWordChar c = false) :
    ∃ pre w post, ts = pre ++ .word w :: post ∧ w.map fold = needle ∧
      i = (pre.flatMap masked).length := by
  induction ts generalizing s i with
  | nil =>
      rw [List.flatMap_nil, List.map_nil, List.drop_nil] at hhit
      exact absurd (List.append_eq_nil_iff.mp hhit.symm).1 hne
  | cons t ts ih =>
      have hv : t.Valid := h.valid t List.mem_cons_self
      rw [List.flatMap_cons, List.map_append] at hhit hleft
      by_cases hi : i < ((masked t).map fold).length
      · -- the run starts inside the token: it is a word, and the run is all of it
        obtain ⟨c, needle', rfl⟩ := List.exists_cons_of_ne_nil hne
        have hget : ((masked t).map fold)[i] = c := by
          have hhead := congrArg List.head? hhit
          rw [List.head?_drop, List.getElem?_append_left hi, List.getElem?_eq_getElem hi] at hhead
          exact Option.some.inj hhead
        have hinside : ∀ d ∈ (masked t).map fold, isWordChar d = true → ∃ w, t = .word w := by
          intro d hd hword
          obtain ⟨e, he, rfl⟩ := List.mem_map.mp hd
          rw [hf.word] at hword
          by_contra hnone
          rw [not_word_of_mem_masked hv (fun w hw => hnone ⟨w, hw⟩) he] at hword
          cases hword
        obtain ⟨w, rfl⟩ := hinside c (hget ▸ List.getElem_mem hi)
          (hneedle c List.mem_cons_self)
        have hw : ∀ d ∈ w.map fold, isWordChar d = true := by
          intro d hd
          obtain ⟨e, he, rfl⟩ := List.mem_map.mp hd
          rw [hf.word]
          exact hv.2 e he
        obtain rfl : i = 0 := eq_zero_of_left hw (by simpa only [masked] using hi) hleft
        refine ⟨[], w, ts, rfl, ?_, rfl⟩
        have hrun := takeWhile_word hf h
        rw [List.drop_zero] at hhit
        rw [masked] at hhit
        rw [hhit, List.takeWhile_append_of_pos hneedle] at hrun
        cases after with
        | nil => simpa using hrun.symm
        | cons d after => simpa [hright d (by simp)] using hrun.symm
      · have hlen : ((masked t).map fold).length ≤ i := by omega
        obtain ⟨-, y, -, -, hy, -⟩ := Lexes.split (show Lexes s ([t] ++ ts) from h)
        rw [List.drop_append, List.drop_eq_nil_of_le hlen, List.nil_append] at hhit
        have hbefore : ∀ c ∈ (((ts.flatMap masked).map fold).take
            (i - ((masked t).map fold).length)).getLast?, isWordChar c = false := by
          intro c hc
          refine hleft c ?_
          rw [List.take_append, List.take_of_length_le hlen, List.getLast?_append,
            Option.mem_def.mp hc]
          rfl
        obtain ⟨pre, w, post, rfl, hw, hpos⟩ := ih hy hhit hbefore
        refine ⟨t :: pre, w, post, rfl, hw, ?_⟩
        rw [List.flatMap_cons, List.length_append, ← hpos]
        rw [List.length_map] at hlen ⊢
        omega

/-- What the keyword scan finds is a word outside the exempted positions. -/
theorem exists_word_of_mem_keywordTokenPositions {fold : Char → Char} (hf : AsciiFold fold)
    {s : Str} {ts : List Token} (h : Lexes s ts) {needle : Str}
    (hneedle : ∀ c ∈ needle, isWordChar c = true) {exemption : IdentifierExemption} {i : Nat}
    (hmem : i ∈ keywordTokenPositions ((ts.flatMap masked).map fold) needle exemption) :
    ∃ pre w post, ts = pre ++ .word w :: post ∧ w.map fold = needle ∧
      identifierPosition exemption pre = false := by
  rw [keywordTokenPositions] at hmem
  split at hmem
  · cases hmem
  · rename_i hsize
    have hne : needle ≠ [] := by
      rintro rfl
      exact hsize rfl
    have hhit := (List.mem_filter.mp hmem).2
    simp only [isKeywordTokenAt, Bool.and_eq_true, beq_iff_eq, Bool.not_eq_true'] at hhit
    obtain ⟨⟨⟨htake, hleft⟩, hright⟩, hpos⟩ := hhit
    have hdrop : ((ts.flatMap masked).map fold).drop i = needle ++
        ((ts.flatMap masked).map fold).drop (i + needle.length) := by
      nth_rewrite 1 [← htake]
      rw [← List.drop_drop, List.take_append_drop]
    obtain ⟨pre, w, post, rfl, hw, rfl⟩ := exists_word_of_hit hf h hne hneedle hdrop
      (fun c hc => by simpa [isIdentChar_eq, Option.mem_def.mp hc] using hleft)
      (fun c hc => by simpa [isIdentChar_eq, Option.mem_def.mp hc] using hright)
    obtain ⟨x, -, -, hx, -, -⟩ := h.split
    rw [mask_around fold, inIdentifierPosition_masked hf hx] at hpos
    exact ⟨pre, w, post, rfl, hw, hpos⟩

/-- `has_limit_clause` finds the words `limit` that do not stand directly behind `.`, `:` or
a word `as`. -/
theorem hasLimitClause_iff {query : Str} {ts : List Token} (h : Lexes query ts) :
    hasLimitClause query = true ↔
      HasLimit ts fun pre _ => identifierPosition .sigilOrAlias pre = false := by
  rw [hasLimitClause, maskNonExecutable_complete h, Option.getD_some, Bool.not_eq_true',
    List.isEmpty_eq_false_iff_exists_mem]
  constructor
  · rintro ⟨i, hi⟩
    exact exists_word_of_mem_keywordTokenPositions asciiFold_toLower h
      (List.all_eq_true.mp (by decide)) hi
  · rintro ⟨pre, w, post, rfl, hw, hpos⟩
    rw [← hw]
    exact ⟨_, mem_keywordTokenPositions_of_word asciiFold_toLower h hpos⟩

/-! ### What stands behind the nearest token -/

section Reading

variable (letter : Char → Bool)

theorem introducer_append_separator {pre : List Token} {t : Token} (h : t.isSeparator = true) :
    introducer (pre ++ [t]) = introducer pre := by
  simp [introducer, h]

theorem introducer_append {pre : List Token} {t : Token} (h : t.isSeparator = false) :
    introducer (pre ++ [t]) = some t := by
  simp [introducer, h]

theorem placeAfter_append (pre : List Token) (t : Token) :
    placeAfter letter (pre ++ [t]) = (placeAfter letter pre).next letter t := by
  simp [placeAfter]

theorem expects_next_separator {t : Token} (h : t.isSeparator = true) (p : Place) :
    (p.next letter t).expects = p.expects.blank := by
  cases t with
  | lineComment body => rfl
  | blockComment body => rfl
  | literal q body => cases h
  | word w => cases h
  | punct c => simp [Place.next, Place.punct, isWhitespace_of_isAsciiWhitespace h]

@[simp] theorem Expects.blank_blank (e : Expects) : e.blank.blank = e.blank := by
  cases e <;> rfl

/-- Separators end a name and change nothing else. -/
theorem placeAfter_of_introducer (pre : List Token) :
    match introducer pre with
    | none => (placeAfter letter pre).expects = .operand
    | some t => t.isSeparator = false ∧ ∃ p : Place,
        (placeAfter letter pre).expects = (p.next letter t).expects ∨
          (placeAfter letter pre).expects = (p.next letter t).expects.blank := by
  induction pre using List.reverseRecOn with
  | nil => rfl
  | append_singleton pre t ih =>
      rw [placeAfter_append]
      cases hsep : t.isSeparator with
      | true =>
          rw [introducer_append_separator hsep, expects_next_separator letter hsep]
          cases hintro : introducer pre with
          | none =>
              simp only [hintro] at ih ⊢
              rw [ih]
              rfl
          | some u =>
              simp only [hintro] at ih ⊢
              obtain ⟨hu, p, hp | hp⟩ := ih
              · exact ⟨hu, p, .inr (by rw [hp])⟩
              · exact ⟨hu, p, .inr (by rw [hp, Expects.blank_blank])⟩
      | false =>
          rw [introducer_append hsep]
          exact ⟨hsep, _, .inl rfl⟩

theorem asKeyword_notMem_operandKeywords : asKeyword ∉ operandKeywords := by decide

/-- Behind the word `as` there is a name or, where the word is a name itself, a complete
operand. -/
theorem expects_as (e : Expects) :
    e.word asKeyword = .name ∨ e.word asKeyword = .operator := by
  cases e with
  | operand =>
      rw [Expects.word, if_neg asKeyword_notMem_operandKeywords]
      exact .inr rfl
  | operator =>
      rw [Expects.word, if_pos rfl]
      exact .inl rfl
  | name => exact .inr rfl
  | rest => exact .inr rfl

/-- Behind any other word there is an operand to come or to go on from. -/
theorem expects_word {w : Str} (h : w ≠ asKeyword) (e : Expects) :
    e.word w = .operand ∨ e.word w = .operator := by
  cases e with
  | operand =>
      rw [Expects.word]
      split
      · exact .inl rfl
      · exact .inr rfl
  | operator =>
      rw [Expects.word, if_neg h]
      split
      · exact .inr rfl
      · exact .inl rfl
  | name => exact .inr rfl
  | rest => exact .inr rfl

theorem expects_dot (p : Place) : (p.next letter (.punct '.')).expects = .name := by
  rw [Place.next, Place.punct, if_neg (by decide), if_pos rfl]

theorem expects_colon (p : Place) : (p.next letter (.punct ':')).expects = .name ∨
    (p.next letter (.punct ':')).expects = .operand := by
  rw [Place.next, Place.punct, if_neg (by decide), if_neg (by decide), if_pos rfl]
  split
  · exact .inr rfl
  · exact .inl rfl

/-- No other character but white space stands before a name. -/
theorem expects_punct {c : Char} (hspace : isWhitespace c = false) (hdot : c ≠ '.')
    (hcolon : c ≠ ':') (p : Place) : (p.next letter (.punct c)).expects ≠ .name := by
  rw [Place.next, Place.punct, if_neg (by simp [hspace]), if_neg hdot, if_neg hcolon]
  split_ifs <;> simp

end Reading

/-! ### What is found, in terms of the reading -/

theorem identifierPosition_of_introducer {pre : List Token} {t : Token}
    (h : introducer pre = some t) : identifierPosition .sigilOrAlias pre = true ↔
      t = .punct '.' ∨ t = .punct ':' ∨ ∃ w, t = .word w ∧ w.map Char.toLower = asKeyword := by
  rw [identifierPosition, h]
  cases t with
  | punct c => simp
  | word w => simp [asKeyword]
  | literal q body => simp
  | lineComment body => simp
  | blockComment body => simp

section Found

variable {letter : Char → Bool} {pre : List Token}

/-- The places of the words that are found. -/
theorem place_of_found (h : identifierPosition .sigilOrAlias pre = false) :
    ¬BehindAs pre ∧ introducer pre ≠ some (.punct ':') ∧
      ((placeAfter letter pre).expects = .name →
        ∃ c, introducer pre = some (.punct c) ∧ isWhitespace c = true) := by
  have hplace := placeAfter_of_introducer letter pre
  cases hintro : introducer pre with
  | none =>
      simp only [hintro] at hplace
      exact ⟨by simp [BehindAs, hintro], by simp, by simp [hplace]⟩
  | some t =>
      simp only [hintro] at hplace
      obtain ⟨hsep, p, hexpects⟩ := hplace
      have hexempt := (identifierPosition_of_introducer hintro).not.mp (by simp [h])
      obtain ⟨hdot, hcolon, has⟩ : t ≠ .punct '.' ∧ t ≠ .punct ':' ∧
          ∀ w, t = .word w → w.map Char.toLower ≠ asKeyword := by
        simpa only [not_or, not_exists, not_and] using hexempt
      refine ⟨?_, fun heq => hcolon (Option.some.inj heq), fun hname => ?_⟩
      · rintro ⟨w, hw, hlower⟩
        rw [hintro] at hw
        exact has w (Option.some.inj hw) hlower
      · have hnext : (p.next letter t).expects = .name := by
          rcases hexpects with heq | heq
          · exact heq.symm.trans hname
          · rw [hname] at heq
            cases hx : (p.next letter t).expects with
            | name => rfl
            | _ =>
                rw [hx] at heq
                cases heq
        cases t with
        | literal q body => cases hnext
        | lineComment body => cases hsep
        | blockComment body => cases hsep
        | word w =>
            rcases expects_word (has w rfl) p.expects with hword | hword
            · exact absurd (hword.symm.trans hnext) (by decide)
            · exact absurd (hword.symm.trans hnext) (by decide)
        | punct c =>
            refine ⟨c, rfl, ?_⟩
            by_contra hspace
            exact expects_punct letter (by simpa using hspace) (by simpa using hdot)
              (by simpa using hcolon) p hnext

/-- The places of the words that are passed over. -/
theorem place_of_exempt (h : identifierPosition .sigilOrAlias pre = true) :
    match (placeAfter letter pre).expects with
    | .operand => introducer pre = some (.punct ':')
    | .name => ∀ c, introducer pre = some (.punct c) → isWhitespace c = false
    | .rest => False
    | .operator => BehindAs pre := by
  have hplace := placeAfter_of_introducer letter pre
  cases hintro : introducer pre with
  | none => simp [identifierPosition, hintro] at h
  | some t =>
      simp only [hintro] at hplace
      obtain ⟨-, p, hexpects⟩ := hplace
      rcases (identifierPosition_of_introducer hintro).mp h with rfl | rfl | ⟨w, rfl, hw⟩
      · have hname : (placeAfter letter pre).expects = .name := by
          rw [expects_dot] at hexpects
          exact hexpects.elim id id
        rw [hname]
        rintro c hc
        cases hc
        decide
      · rcases expects_colon letter p with hx | hx
        · have hname : (placeAfter letter pre).expects = .name := by
            rw [hx] at hexpects
            exact hexpects.elim id id
          rw [hname]
          rintro c hc
          cases hc
          decide
        · have hoperand : (placeAfter letter pre).expects = .operand := by
            rw [hx] at hexpects
            exact hexpects.elim id id
          rw [hoperand]
      · have has : (p.next letter (.word w)).expects = p.expects.word asKeyword := by
          rw [Place.next, hw]
        rcases expects_as p.expects with hx | hx
        · have hname : (placeAfter letter pre).expects = .name := by
            rw [has, hx] at hexpects
            exact hexpects.elim id id
          rw [hname]
          rintro c hc
          cases hc
        · have hoperator : (placeAfter letter pre).expects = .operator := by
            rw [has, hx] at hexpects
            exact hexpects.elim id id
          rw [hoperator]
          exact ⟨w, hintro, hw⟩

end Found

/-- A word `limit` is found where it is taken for a clause keyword by mistake, and where it is
one and does not stand directly behind a word `as`. -/
theorem identifierPosition_iff (letter : Char → Bool) (pre post : List Token) :
    identifierPosition .sigilOrAlias pre = false ↔
      IsMistaken letter pre post ∨ IsClause letter pre post ∧ ¬BehindAs pre := by
  cases hpos : identifierPosition .sigilOrAlias pre with
  | false =>
      obtain ⟨has, hcolon, hname⟩ := @place_of_found letter pre hpos
      refine iff_of_true rfl ?_
      rw [IsMistaken, IsClause]
      cases hplace : (placeAfter letter pre).expects with
      | operand => exact .inl hcolon
      | name => exact .inl (hname hplace)
      | rest => exact .inl trivial
      | operator =>
          by_cases hon : GoesOn letter post
          · exact .inl ⟨hon, has⟩
          · exact .inr ⟨⟨rfl, hon⟩, has⟩
  | true =>
      have hexempt := @place_of_exempt letter pre hpos
      refine iff_of_false (by simp) ?_
      rw [IsMistaken, IsClause]
      cases hplace : (placeAfter letter pre).expects with
      | operand =>
          simp only [hplace] at hexempt
          simp [hexempt]
      | name =>
          simp only [hplace] at hexempt
          rintro (⟨c, hc, hspace⟩ | ⟨⟨hop, -⟩, -⟩)
          · rw [hexempt c hc] at hspace
            cases hspace
          · cases hop
      | rest => simp only [hplace] at hexempt
      | operator =>
          simp only [hplace] at hexempt
          rintro (⟨-, has⟩ | ⟨-, has⟩)
          · exact has hexempt
          · exact has hexempt

/-! ### Exactness -/

theorem hasLimit_congr {ts : List Token} {place place' : List Token → List Token → Prop}
    (h : ∀ pre post, place pre post ↔ place' pre post) : HasLimit ts place ↔ HasLimit ts place' := by
  simp only [HasLimit, h]

theorem hasLimit_or {ts : List Token} {place place' : List Token → List Token → Prop} :
    HasLimit ts (fun pre post => place pre post ∨ place' pre post) ↔
      HasLimit ts place ∨ HasLimit ts place' := by
  simp only [HasLimit, and_or_left, exists_or]

/-- LIMIT detection is exact on an accepted query just where a `limit` that is taken for a
clause by mistake does not stand alone, and the clauses do not all stand behind a name `as`
while nothing is taken for one by mistake. -/
theorem limit_detection_exact_iff (letter : Char → Bool) (query : Str)
    (haccepted : Accepted query) :
    (∃ ts, Lexes query ts) ∧ ∀ ts, Lexes query ts →
      ((hasLimitClause query = true ↔ HasLimit ts (IsClause letter)) ↔
        (HasLimit ts (IsMistaken letter) → HasLimit ts (IsClause letter)) ∧
          (HasLimit ts (IsClause letter) → HasLimit ts (IsMistaken letter) ∨
            HasLimit ts fun pre post => IsClause letter pre post ∧ ¬BehindAs pre)) := by
  refine ⟨exists_lexes haccepted.1, fun ts hlex => ?_⟩
  have hclear : (HasLimit ts fun pre post => IsClause letter pre post ∧ ¬BehindAs pre) →
      HasLimit ts (IsClause letter) :=
    fun ⟨pre, w, post, hts, hw, hclause, _⟩ => ⟨pre, w, post, hts, hw, hclause⟩
  rw [hasLimitClause_iff hlex, hasLimit_congr (identifierPosition_iff letter), hasLimit_or]
  constructor
  · intro hexact
    exact ⟨fun hmistaken => hexact.mp (.inl hmistaken), hexact.mpr⟩
  · rintro ⟨hmistaken, hclause⟩
    exact ⟨fun hfound => hfound.elim hmistaken hclear, hclause⟩

/-- `RETURN n LIMIT 5`. -/
def boundedReturn : List Token :=
  [.word ['R', 'E', 'T', 'U', 'R', 'N'], .punct ' ', .word ['n'], .punct ' ',
    .word ['L', 'I', 'M', 'I', 'T'], .punct ' ', .word ['5']]

theorem lexes_boundedReturn : Lexes (boundedReturn.flatMap Token.text) boundedReturn := by
  have hfive : Lexes ['5'] [.word ['5']] := .cons_closed (w := ['5']) (by decide) .nil
  have hlimit := Lexes.cons_closed (w := ['L', 'I', 'M', 'I', 'T']) (by decide)
    (.cons_punct (c := ' ') (by decide) (by decide) (by decide) hfive)
  have hn := Lexes.cons_closed (w := ['n']) (by decide)
    (.cons_punct (c := ' ') (by decide) (by decide) (by decide) hlimit)
  exact .cons_closed (w := ['R', 'E', 'T', 'U', 'R', 'N']) (by decide)
    (.cons_punct (c := ' ') (by decide) (by decide) (by decide) hn)

/-- On a query with one LIMIT clause. -/
theorem limit_detection_exact_iff_boundedReturn :
    (hasLimitClause (boundedReturn.flatMap Token.text) = true ↔
        HasLimit boundedReturn (IsClause fun _ => false)) ↔
      (HasLimit boundedReturn (IsMistaken fun _ => false) →
          HasLimit boundedReturn (IsClause fun _ => false)) ∧
        (HasLimit boundedReturn (IsClause fun _ => false) →
          HasLimit boundedReturn (IsMistaken fun _ => false) ∨
            HasLimit boundedReturn fun pre post =>
              IsClause (fun _ => false) pre post ∧ ¬BehindAs pre) :=
  (limit_detection_exact_iff (fun _ => false) (boundedReturn.flatMap Token.text)
    (by decide +kernel)).2 boundedReturn lexes_boundedReturn

/-- `RETURN {limit: 5} AS m`. -/
def mapKeyReturn : List Token :=
  [.word ['R', 'E', 'T', 'U', 'R', 'N'], .punct ' ', .punct '{',
    .word ['l', 'i', 'm', 'i', 't'], .punct ':', .punct ' ', .word ['5'], .punct '}', .punct ' ',
    .word ['A', 'S'], .punct ' ', .word ['m']]

theorem lexes_mapKeyReturn : Lexes (mapKeyReturn.flatMap Token.text) mapKeyReturn := by
  have hm : Lexes ['m'] [.word ['m']] := .cons_closed (w := ['m']) (by decide) .nil
  have has := Lexes.cons_closed (w := ['A', 'S']) (by decide)
    (.cons_punct (c := ' ') (by decide) (by decide) (by decide) hm)
  have hbrace := Lexes.cons_punct (c := '}') (by decide) (by decide) (by decide)
    (.cons_punct (c := ' ') (by decide) (by decide) (by decide) has)
  have hfive := Lexes.cons_closed (w := ['5']) (by decide) hbrace
  have hcolon := Lexes.cons_punct (c := ':') (by decide) (by decide) (by decide)
    (.cons_punct (c := ' ') (by decide) (by decide) (by decide) hfive)
  have hkey := Lexes.cons_closed (w := ['l', 'i', 'm', 'i', 't']) (by decide) hcolon
  have hmap := Lexes.cons_punct (c := '{') (by decide) (by decide) (by decide) hkey
  exact .cons_closed (w := ['R', 'E', 'T', 'U', 'R', 'N']) (by decide)
    (.cons_punct (c := ' ') (by decide) (by decide) (by decide) hmap)

/-- The key of a map is taken for a LIMIT clause: the query has none. -/
theorem map_key_is_taken_for_limit : ¬∀ (letter : Char → Bool) (query : Str), Accepted query →
    ∀ ts, Lexes query ts → (hasLimitClause query = true ↔ HasLimit ts (IsClause letter)) := by
  intro h
  obtain ⟨pre, w, post, hts, hw, hclause⟩ :=
    (h (fun _ => false) (mapKeyReturn.flatMap Token.text) (by decide +kernel) mapKeyReturn
      lexes_mapKeyReturn).mp (by decide +kernel)
  have hkeys : ∀ i < mapKeyReturn.length,
      (placeAfter (fun _ => false) (mapKeyReturn.take i)).expects = .operator →
        mapKeyReturn[i]?.all fun t => t.text.map Char.toLower != limitKeyword := by
    decide +kernel
  have hlen : pre.length < mapKeyReturn.length := by simp [hts]
  have hpre : mapKeyReturn.take pre.length = pre := by rw [hts, List.take_left]
  have hget : mapKeyReturn[pre.length]? = some (.word w) := by simp [hts]
  have hplace := hkeys pre.length hlen (by rw [hpre]; exact hclause.1)
  simp [hget, Token.text, hw] at hplace

example : hasLimitClause "RETURN n.as LIMIT 5".toList = false := by decide +kernel

end AutomatisedPipeline.Query
