import AutomatisedPipeline.Text.Basic

/-!
The lexical grammar of a statement language with quoted literals, `//` and
`/* */` comments, words and punctuation, given as a relation between a text and
its tokens.

`Lexes s ts` says that `ts` is the token sequence of `s`: the texts of the
tokens concatenate to `s`, every token is well formed, and every token is as
long as its kind allows given the character that follows it. A text with an
unterminated literal or block comment has no token sequence.

The two structural rules the clients use are `Lexes.append` (two texts whose
boundary separates tokens concatenate) and `Lexes.split` (a token sequence cuts
anywhere between two tokens).

An ASCII case fold that maps each character on its own and moves only
ASCII letters, each to a letter that differs from it in case, keeps every
character class the scanners test for. `AsciiFold` collects what they need, and
both folds of the standard library have it.
-/

namespace AutomatisedPipeline.Lexical

open Text

/-- A character of a word: an ASCII letter, an ASCII digit or `_`. -/
def isWordChar (c : Char) : Bool := c.isAlphanum || c == '_'

/-- The three quotes: two string quotes and the quote of a quoted identifier. -/
def isQuote (c : Char) : Bool := c == '\'' || c == '"' || c == '`'

inductive Token where
  | literal (quote : Char) (body : Str)
  | lineComment (body : Str)
  | blockComment (body : Str)
  | word (text : Str)
  | punct (c : Char)
deriving DecidableEq, Repr

/-- The characters a token is written with. -/
def Token.text : Token → Str
  | .literal q body => q :: (body ++ [q])
  | .lineComment body => '/' :: '/' :: body
  | .blockComment body => '/' :: '*' :: (body ++ ['*', '/'])
  | .word w => w
  | .punct c => [c]

/-- The characters between the quotes of a literal. A backslash escapes the
character after it, except inside a backtick-quoted identifier, where it is an
ordinary character. -/
inductive QuotedBody (q : Char) : Str → Prop where
  | nil : QuotedBody q []
  | plain {c : Char} {body : Str} : c ≠ q → (c = '\\' → q = '`') → QuotedBody q body →
      QuotedBody q (c :: body)
  | escaped {c : Char} {body : Str} : q ≠ '`' → QuotedBody q body →
      QuotedBody q ('\\' :: c :: body)

/-- No `*/` closes the comment before its end. -/
def NoClose (body : Str) : Prop := ∀ a b : Str, body ≠ a ++ '*' :: '/' :: b

/-- A token is well formed on its own. -/
def Token.Valid : Token → Prop
  | .literal q body => isQuote q = true ∧ QuotedBody q body
  | .lineComment body => '\n' ∉ body
  | .blockComment body => NoClose body
  | .word w => w ≠ [] ∧ ∀ c ∈ w, isWordChar c = true
  | .punct c => isWordChar c = false ∧ isQuote c = false

/-- The character after a token does not belong to it: a line comment runs to
the end of its line, a word to its last word character, and a `/` before `/` or
`*` opens a comment. -/
def Token.EndsBefore : Token → Option Char → Prop
  | .lineComment _, next => ∀ c ∈ next, c = '\n'
  | .word _, next => ∀ c ∈ next, isWordChar c = false
  | .punct '/', next => ∀ c ∈ next, c ≠ '/' ∧ c ≠ '*'
  | _, _ => True

/-- `Lexes s ts`: the tokens of `s` are `ts`. -/
inductive Lexes : Str → List Token → Prop where
  | nil : Lexes [] []
  | cons {t : Token} {rest : Str} {ts : List Token} : t.Valid → t.EndsBefore rest.head? →
      Lexes rest ts → Lexes (t.text ++ rest) (t :: ts)

/-- The text between tokens: comments and ASCII white space. -/
def Token.isSeparator : Token → Bool
  | .lineComment _ => true
  | .blockComment _ => true
  | .punct c => isAsciiWhitespace c
  | _ => false

/-! ### Character classes -/

theorem toNat_of_word {c : Char} (h : isWordChar c = true) : 48 ≤ c.toNat ∧ c.toNat ≤ 122 := by
  simp only [isWordChar, Char.isAlphanum, Char.isDigit] at h
  delta Char.isAlpha Char.isUpper Char.isLower at h
  simp only [Bool.or_eq_true, Bool.and_eq_true, decide_eq_true_eq, beq_iff_eq, ge_iff_le,
    UInt32.le_iff_toNat_le] at h
  have hval : c.toNat = c.val.toNat := rfl
  rcases h with ((⟨h₁, h₂⟩ | ⟨h₁, h₂⟩) | ⟨h₁, h₂⟩) | rfl
  · have : (65 : Nat) ≤ c.val.toNat ∧ c.val.toNat ≤ 90 := ⟨h₁, h₂⟩
    omega
  · have : (97 : Nat) ≤ c.val.toNat ∧ c.val.toNat ≤ 122 := ⟨h₁, h₂⟩
    omega
  · have : (48 : Nat) ≤ c.val.toNat ∧ c.val.toNat ≤ 57 := ⟨h₁, h₂⟩
    omega
  · decide

theorem not_isWhitespace_of_word {c : Char} (h : isWordChar c = true) :
    isWhitespace c = false := by
  have hrange := toNat_of_word h
  simp only [isWhitespace, Bool.or_eq_false_iff, Bool.and_eq_false_iff, decide_eq_false_iff_not,
    beq_eq_false_iff_ne]
  omega

/-! ### Structural rules -/

@[simp] theorem Token.endsBefore_none (t : Token) : t.EndsBefore none := by
  unfold Token.EndsBefore
  split <;> simp

theorem Token.text_ne_nil {t : Token} (h : t.Valid) : t.text ≠ [] := by
  cases t with
  | word w => exact h.1
  | _ => simp [Token.text]

theorem Lexes.text_eq {s : Str} {ts : List Token} (h : Lexes s ts) :
    s = ts.flatMap Token.text := by
  induction h with
  | nil => rfl
  | cons _ _ _ ih => rw [List.flatMap_cons, ← ih]

theorem Lexes.valid {s : Str} {ts : List Token} (h : Lexes s ts) : ∀ t ∈ ts, t.Valid := by
  induction h with
  | nil => simp
  | cons hv _ _ ih => simpa using ⟨hv, ih⟩

/-- Concatenation: nothing at the boundary may extend the last token. -/
theorem Lexes.append {x y : Str} {ts us : List Token} (hx : Lexes x ts) (hy : Lexes y us)
    (boundary : ∀ t ∈ ts.getLast?, t.EndsBefore y.head?) : Lexes (x ++ y) (ts ++ us) := by
  induction hx with
  | nil => exact hy
  | @cons t rest ts hv he hr ih =>
      rw [List.append_assoc, List.cons_append]
      refine .cons hv ?_ (ih fun u hu => boundary u ?_)
      · cases hr with
        | nil => simpa using boundary t (by simp)
        | @cons u rest' us' hu _ _ =>
            obtain ⟨c, cs, hc⟩ := List.exists_cons_of_ne_nil (Token.text_ne_nil hu)
            simpa [hc] using he
      · cases ts with
        | nil => simp at hu
        | cons u' ts' => simpa using hu

/-- A token sequence cuts between any two of its tokens. -/
theorem Lexes.split {s : Str} {ts us : List Token} (h : Lexes s (ts ++ us)) :
    ∃ x y, s = x ++ y ∧ Lexes x ts ∧ Lexes y us ∧
      ∀ t ∈ ts.getLast?, t.EndsBefore y.head? := by
  induction ts generalizing s with
  | nil => exact ⟨[], s, rfl, .nil, h, by simp⟩
  | cons t ts ih =>
      cases h with
      | @cons _ rest _ hv he hr =>
          obtain ⟨x, y, rfl, hx, hy, hb⟩ := ih hr
          refine ⟨t.text ++ x, y, by simp, ?_, hy, ?_⟩
          · refine .cons hv ?_ hx
            cases x with
            | nil => simp
            | cons c cs => simpa using he
          · intro u hu
            cases ts with
            | nil =>
                cases hx
                obtain rfl : t = u := by simpa using hu
                simpa using he
            | cons u' ts' => exact hb u (by simpa using hu)

theorem Lexes.cons_word {w rest : Str} {ts : List Token} (hw : w ≠ [])
    (hchars : ∀ c ∈ w, isWordChar c = true) (hnext : ∀ c ∈ rest.head?, isWordChar c = false)
    (h : Lexes rest ts) : Lexes (w ++ rest) (.word w :: ts) :=
  .cons (t := .word w) ⟨hw, hchars⟩ hnext h

/-- The same where the word and what follows are evaluated. -/
theorem Lexes.cons_closed {w rest : Str} {ts : List Token}
    (hw : (!w.isEmpty && w.all isWordChar && !rest.head?.any isWordChar) = true)
    (h : Lexes rest ts) : Lexes (w ++ rest) (.word w :: ts) := by
  simp only [Bool.and_eq_true, Bool.not_eq_true', List.isEmpty_eq_false_iff, List.all_eq_true,
    Option.any_eq_false] at hw
  obtain ⟨⟨hne, hchars⟩, hnext⟩ := hw
  exact .cons_word hne hchars (fun c hc => by simpa using hnext c hc) h

/-- A punctuation character other than `/` opens no comment. -/
theorem Lexes.cons_punct {c : Char} {rest : Str} {ts : List Token} (hword : isWordChar c = false)
    (hquote : isQuote c = false) (hslash : c ≠ '/') (h : Lexes rest ts) :
    Lexes (c :: rest) (.punct c :: ts) := by
  refine .cons (t := .punct c) ⟨hword, hquote⟩ ?_ h
  unfold Token.EndsBefore
  split
  · rename_i heq; cases heq
  · rename_i heq; cases heq
  · rename_i heq; cases heq; exact absurd rfl hslash
  · trivial

/-- A word character starts a word. -/
theorem Lexes.head_word {c : Char} {s : Str} {ts : List Token} (h : Lexes (c :: s) ts)
    (hc : isWordChar c = true) : ∃ w rest us, ts = .word (c :: w) :: us ∧ s = w ++ rest ∧
      Lexes rest us ∧ (∀ d ∈ w, isWordChar d = true) ∧ ∀ d ∈ rest.head?, isWordChar d = false := by
  generalize hs : c :: s = text at h
  cases h with
  | nil => cases hs
  | @cons t rest us hv he hr =>
      cases t with
      | word w =>
          cases w with
          | nil => exact absurd rfl hv.1
          | cons d w =>
              simp only [Token.text, List.cons_append, List.cons.injEq] at hs
              obtain ⟨rfl, rfl⟩ := hs
              exact ⟨w, rest, us, rfl, rfl, hr, fun d hd => hv.2 d (by simp [hd]), he⟩
      | punct d =>
          simp only [Token.text, List.cons_append, List.cons.injEq] at hs
          obtain ⟨rfl, -⟩ := hs
          exact absurd hc (by simp [hv.1])
      | literal q body =>
          simp only [Token.text, List.cons_append, List.cons.injEq] at hs
          obtain ⟨rfl, -⟩ := hs
          have hq := hv.1
          simp only [isQuote, Bool.or_eq_true, beq_iff_eq] at hq
          rcases hq with (rfl | rfl) | rfl <;> exact absurd hc (by decide)
      | lineComment body =>
          simp only [Token.text, List.cons_append, List.cons.injEq] at hs
          obtain ⟨rfl, -⟩ := hs
          exact absurd hc (by decide)
      | blockComment body =>
          simp only [Token.text, List.cons_append, List.cons.injEq] at hs
          obtain ⟨rfl, -⟩ := hs
          exact absurd hc (by decide)

/-- In a token sequence no word follows a word. -/
theorem Lexes.no_adjacent_words {s : Str} {ts us : List Token} {v w : Str}
    (h : Lexes s (ts ++ .word v :: .word w :: us)) : False := by
  obtain ⟨x, y, -, -, hy, -⟩ := h.split
  cases hy with
  | cons _ he hr =>
      cases hr with
      | cons hw _ _ =>
          obtain ⟨c, cs, hc⟩ := List.exists_cons_of_ne_nil hw.1
          have := he c (by simp [Token.text, hc])
          simp [hw.2 c (by simp [hc])] at this

end AutomatisedPipeline.Lexical

namespace AutomatisedPipeline.Text

open Lexical

theorem toUpper_of_not_ascii {c : Char} (h : ¬c.toNat < 128) : c.toUpper = c := by
  have hn : ¬(c.val ≥ 'a'.val ∧ c.val ≤ 'z'.val) := by
    intro hc
    have : c.val.toNat ≤ 'z'.val.toNat := UInt32.le_iff_toNat_le.mp hc.2
    have hz : 'z'.val.toNat = 122 := rfl
    have hcn : c.toNat = c.val.toNat := rfl
    omega
  unfold Char.toUpper
  rw [dif_neg hn]

theorem toLower_of_not_ascii {c : Char} (h : ¬c.toNat < 128) : c.toLower = c := by
  have hn : ¬(c.val ≥ 'A'.val ∧ c.val ≤ 'Z'.val) := by
    intro hc
    have : c.val.toNat ≤ 'Z'.val.toNat := UInt32.le_iff_toNat_le.mp hc.2
    have hz : 'Z'.val.toNat = 90 := rfl
    have hcn : c.toNat = c.val.toNat := rfl
    omega
  unfold Char.toLower
  rw [dif_neg hn]

/-- What a scanner needs of a case fold. -/
structure AsciiFold (fold : Char → Char) : Prop where
  word : ∀ c, isWordChar (fold c) = isWordChar c
  whitespace : ∀ c, isAsciiWhitespace (fold c) = isAsciiWhitespace c
  fixed : ∀ c, isWordChar c = false → fold c = c
  toLower : ∀ c, (fold c).toLower = c.toLower

/-- A map that fixes every character outside ASCII is a fold once it is one on
the ASCII characters. -/
theorem AsciiFold.of_ascii {fold : Char → Char} (outside : ∀ c : Char, ¬c.toNat < 128 → fold c = c)
    (inside : ∀ n < 128, isWordChar (fold (Char.ofNat n)) = isWordChar (Char.ofNat n) ∧
      isAsciiWhitespace (fold (Char.ofNat n)) = isAsciiWhitespace (Char.ofNat n) ∧
      (isWordChar (Char.ofNat n) = false → fold (Char.ofNat n) = Char.ofNat n) ∧
      (fold (Char.ofNat n)).toLower = (Char.ofNat n).toLower) : AsciiFold fold := by
  have facts : ∀ c : Char, isWordChar (fold c) = isWordChar c ∧
      isAsciiWhitespace (fold c) = isAsciiWhitespace c ∧
      (isWordChar c = false → fold c = c) ∧ (fold c).toLower = c.toLower := by
    intro c
    by_cases h : c.toNat < 128
    · have := inside c.toNat h
      rwa [Char.ofNat_toNat] at this
    · rw [outside c h]
      exact ⟨rfl, rfl, fun _ => rfl, rfl⟩
  exact ⟨fun c => (facts c).1, fun c => (facts c).2.1, fun c => (facts c).2.2.1,
    fun c => (facts c).2.2.2⟩

theorem asciiFold_toUpper : AsciiFold Char.toUpper :=
  .of_ascii (fun _ => toUpper_of_not_ascii) (by decide +kernel)

theorem asciiFold_toLower : AsciiFold Char.toLower :=
  .of_ascii (fun _ => toLower_of_not_ascii) (by decide +kernel)

end AutomatisedPipeline.Text
