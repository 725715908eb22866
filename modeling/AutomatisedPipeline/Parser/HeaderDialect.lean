import AutomatisedPipeline.Indexer.Specifiers
import AutomatisedPipeline.Text.CText

/-!
Which grammar a `.h` file is parsed with (`parser/header_dialect.rs`).

`declaresCpp` looks for constructs of C++ in the tokens that `tokenize` leaves of a text: those
outside comments, literals, preprocessor lines and the conditional groups that test `__cplusplus`.
-/

namespace AutomatisedPipeline.HeaderDialect

open Text
open CText (logicalLine freshAfter freshStep)
open Indexer (trimStart)

/-! ### Tokens -/

inductive Tok where
  | ident (s : Str)
  | scope
  | punct (c : Char)
deriving DecidableEq, Repr

/-- `Lexer.token`, whose first character is this: the token, and how many characters of the rest
belong to it. -/
def token (c : Char) (rest : Str) : Tok × Nat :=
  let isIdent := fun b : Char => b.isAlphanum || b == '_'
  if isIdent c then
    let tail := rest.takeWhile isIdent
    (.ident (c :: tail), tail.length)
  else if c = ':' ∧ rest.head? = some ':' then (.scope, 1)
  else (.punct c, 0)

/-- How far a literal goes behind its quote (`literal_end`): to the quote or the line feed that ends
it, or to the end of the text. -/
def literalEnd (quote : Char) : Str → Nat
  | [] => 0
  | [_] => 1
  | c :: d :: rest =>
      if c = quote ∨ c = '\n' then 1
      else if c = '\\' then 2 + literalEnd quote rest
      else 1 + literalEnd quote (d :: rest)

/-- `skip_comment_or_literal`, where this character stands: how many characters of the rest belong
to the comment or the literal. -/
def skipCommentOrLiteral (c : Char) (rest : Str) : Option Nat :=
  if c = '/' ∧ rest.head? = some '/' then some ((find ['\n'] rest).getD rest.length)
  else if c = '/' ∧ rest.head? = some '*' then
    some (((find ['*', '/'] rest.tail).map (· + 3)).getD rest.length)
  else if c = '"' ∨ c = '\'' then some (literalEnd c rest)
  else none

/-! ### Preprocessor lines -/

/-- The macro that the conditions of C++ sections test. -/
def cplusplus : Str := "__cplusplus".toList

/-- The first word of a line (`word`). -/
def wordOf (line : Str) : Str := line.takeWhile Char.isAlpha

/-- What a line does to the stack of groups. -/
inductive Effect where
  | push (names : Bool)
  | mark (names : Bool)
  | pop
  | none
deriving DecidableEq, Repr

/-- What `directive` makes of a line behind its `#`. -/
def effectOf (behind : Str) : Effect :=
  let line := trimStart behind
  let names := decide (cplusplus <:+: line)
  let word := wordOf line
  if word ∈ ["if".toList, "ifdef".toList, "ifndef".toList] then .push names
  else if word ∈ ["elif".toList, "elifdef".toList, "elifndef".toList] then .mark names
  else if word = "endif".toList then .pop
  else .none

def Effect.apply (groups : List Bool) : Effect → List Bool
  | .push names => names :: groups
  | .mark names =>
      match groups with
      | top :: rest => (top || names) :: rest
      | [] => []
  | .pop => groups.tail
  | .none => groups

/-! ### The lexer -/

/-- `at_line_start`, behind these characters, the last one first. -/
def atLineStart (past : Str) : Bool := (past.takeWhile (· ≠ '\n')).all isAsciiWhitespace

/-- `in_cplusplus_group`. -/
def inCplusplusGroup (groups : List Bool) : Bool := groups.any id

/-- What `next_token` does with a character: the token it returns, if it is not to go on, how many
characters of the rest it has passed, and the groups. -/
def nextToken (groups : List Bool) (past : Str) (c : Char) (rest : Str) :
    Option Tok × Nat × List Bool :=
  if isAsciiWhitespace c then (none, 0, groups)
  else if c = '#' ∧ atLineStart past then
    let behind := logicalLine '#' rest
    (none, behind.length, (effectOf behind).apply groups)
  else
    match skipCommentOrLiteral c rest with
    | some n => (none, n, groups)
    | none =>
        let (tok, n) := token c rest
        (some tok, n, groups)

/-- The loop of `tokenize`, which has still to pass so many characters. -/
def tokenizeFrom (groups : List Bool) (past : Str) : Nat → Str → List Tok
  | _, [] => []
  | skip + 1, c :: rest => tokenizeFrom groups (c :: past) skip rest
  | 0, c :: rest =>
      let (tok, n, groups') := nextToken groups past c rest
      (if inCplusplusGroup groups then [] else tok.toList) ++
        tokenizeFrom groups' (c :: past) n rest

/-- `tokenize`. -/
def tokenize (source : Str) : List Tok := tokenizeFrom [] [] 0 source

/-! ### Constructs -/

/-- `strip_attributes`, inside so many pairs of brackets. -/
def stripFrom (depth : Nat) : List Tok → List Tok
  | [] => []
  | [t] => if depth = 0 then [t] else []
  | t :: u :: rest =>
      if t = .punct '[' ∧ u = .punct '[' then stripFrom (depth + 1) rest
      else if 0 < depth ∧ t = .punct ']' ∧ u = .punct ']' then stripFrom (depth - 1) rest
      else (if depth = 0 then [t] else []) ++ stripFrom depth (u :: rest)

/-- `strip_attributes`. -/
def stripAttributes (tokens : List Tok) : List Tok := stripFrom 0 tokens

/-- `ASM_QUALIFIERS`. -/
def asmQualifiers : List Str :=
  ["volatile", "__volatile__", "__volatile", "goto", "inline"].map String.toList

def asmKeywords : List Str := ["asm", "__asm", "__asm__"].map String.toList

def isIdentIn (words : List Str) : Tok → Bool
  | .ident s => decide (s ∈ words)
  | _ => false

/-- Where `asm_operands` is: outside, behind the keyword and its qualifiers, or inside so many
parentheses. -/
inductive AsmPlace where
  | outside
  | qualifiers
  | inside (depth : Nat)
deriving DecidableEq, Repr

def AsmPlace.outsideStep (t : Tok) : Bool × AsmPlace :=
  (false, if isIdentIn asmKeywords t then .qualifiers else .outside)

/-- Whether a token is inside, and the place behind it (`asm_operands`, `mark_parenthesised`). -/
def AsmPlace.step (place : AsmPlace) (t : Tok) : Bool × AsmPlace :=
  match place with
  | .outside => outsideStep t
  | .qualifiers =>
      if isIdentIn asmQualifiers t then (false, .qualifiers)
      else if t = .punct '(' then (true, .inside 1)
      else outsideStep t
  | .inside depth =>
      if t = .punct '(' then (true, .inside (depth + 1))
      else if t = .punct ')' then (true, if depth = 1 then .outside else .inside (depth - 1))
      else (true, .inside depth)

/-- `asm_operands`. -/
def asmOperandsFrom (place : AsmPlace) : List Tok → List Bool
  | [] => []
  | t :: rest => (place.step t).1 :: asmOperandsFrom (place.step t).2 rest

def asmOperands (tokens : List Tok) : List Bool := asmOperandsFrom .outside tokens

def isIdent : Tok → Bool
  | .ident _ => true
  | _ => false

/-- `class_definition_follows`. -/
def classDefinitionFollows (rest : List Tok) : Bool :=
  let body := fun t : Option Tok => t = some (.punct '{') || t = some (.punct ':')
  match rest with
  | .ident _ :: next :: more =>
      if next = .ident "final".toList ∧ more ≠ [] then body more.head? else body (some next)
  | _ => false

/-- `cpp_construct_at`, at the first of these tokens. -/
def cppConstructAt : List Tok → Bool
  | [] => false
  | t :: rest =>
      match t with
      | .scope => rest.head?.any isIdent
      | .ident s =>
          if s = "namespace".toList then
            rest.head?.any fun u => isIdent u || u = .punct '{'
          else if s = "template".toList then rest.head? = some (.punct '<')
          else if s = "class".toList then classDefinitionFollows rest
          else if s ∈ ["public".toList, "private".toList, "protected".toList] then
            rest.head? = some (.punct ':')
          else false
      | .punct _ => false

/-- A construct at one of these tokens that is not marked. -/
def anyConstruct : List Tok → List Bool → Bool
  | t :: rest, inAsm :: marks => (!inAsm && cppConstructAt (t :: rest)) || anyConstruct rest marks
  | _, _ => false

/-- What `declares_cpp` answers on the tokens of a header. -/
def declaresCppOf (tokens : List Tok) : Bool :=
  let tokens := stripAttributes tokens
  anyConstruct tokens (asmOperands tokens)

/-- `declares_cpp`. -/
def declaresCpp (source : Str) : Bool := declaresCppOf (tokenize source)

end AutomatisedPipeline.HeaderDialect
