import AutomatisedPipeline.Text.Find
import AutomatisedPipeline.Text.Lines

/-!
What a file that no parser covers says about other files: the relative imports
of the JavaScript family, the links, backtick spans and bare paths of Markdown,
and the sourced, invoked and `$VAR/`-prefixed paths of shell scripts. The
extractors scan bytes for ASCII characters, so they scan characters here.
-/

namespace AutomatisedPipeline.Indexer

open Text

/-- The heuristic that found a specifier. -/
inductive Method where
  | jsRegex | mdLink | mdBacktick | mdBare | shSource | shInvoke | shVarPrefix
deriving DecidableEq, Repr

def Method.asStr : Method → Str
  | .jsRegex => "js-regex".toList
  | .mdLink => "md-link".toList
  | .mdBacktick => "md-backtick".toList
  | .mdBare => "md-bare".toList
  | .shSource => "sh-source".toList
  | .shInvoke => "sh-invoke".toList
  | .shVarPrefix => "sh-var-prefix".toList

structure Specifier where
  text : Str
  method : Method
deriving DecidableEq, Repr

/-! ### Pieces of the standard library -/

def trimStart (s : Str) : Str := s.dropWhile isWhitespace

/-- `str::trim_matches`. -/
def trimMatches (p : Char → Bool) (s : Str) : Str :=
  ((s.dropWhile p).reverse.dropWhile p).reverse

/-- `str::trim`. -/
def trim (s : Str) : Str := trimMatches isWhitespace s

theorem dropWhile_eq_self {p : Char → Bool} {s : Str} (h : ∀ c ∈ s.head?, p c = false) :
    s.dropWhile p = s := by
  cases s with
  | nil => rfl
  | cons c s =>
      rw [List.dropWhile_cons, h c rfl]
      rfl

/-- A text that neither starts nor ends in a character to trim is what is left of it with
such characters behind it. -/
theorem trimMatches_append {p : Char → Bool} {s behind : Str} (hne : s ≠ [])
    (hhead : ∀ c ∈ s.head?, p c = false) (hlast : ∀ c ∈ s.getLast?, p c = false)
    (hbehind : ∀ c ∈ behind, p c = true) : trimMatches p (s ++ behind) = s := by
  have hfront : (s ++ behind).dropWhile p = s ++ behind := by
    apply dropWhile_eq_self
    rwa [List.head?_append_of_ne_nil _ hne]
  have hback : s.reverse.dropWhile p = s.reverse := by
    apply dropWhile_eq_self
    rwa [List.head?_reverse]
  have hrest : (behind.reverse ++ s.reverse).dropWhile p = s.reverse := by
    rw [List.dropWhile_append_of_pos fun c hc => hbehind c (List.mem_reverse.mp hc), hback]
  rw [trimMatches, hfront, List.reverse_append, hrest, List.reverse_reverse]

/-- `str::split_whitespace`. -/
def splitWhitespace (s : Str) : List Str := (s.splitOnP isWhitespace).filter (· ≠ [])

def startsWith (prefixes : List String) (s : Str) : Bool :=
  prefixes.any fun p => p.toList.isPrefixOf s

/-! ### JavaScript -/

/-- The quoted token at the start of `s`, behind blanks and parentheses. -/
def firstQuoted (s : Str) : Option Str :=
  match s.dropWhile fun c => c = ' ' ∨ c = '(' with
  | [] => none
  | quote :: rest =>
      if quote = '"' ∨ quote = '\'' ∨ quote = Char.ofNat 96 then
        (splitOnce quote rest).map Prod.fst
      else none

/-- The relative specifiers behind the occurrences of `anchor`. -/
def anchored (anchor : Str) : Str → List Str
  | [] => []
  | c :: rest =>
      if anchor.isPrefixOf (c :: rest) then
        let after := rest.drop (anchor.length - 1)
        ((firstQuoted after).filter fun spec => ['.'].isPrefixOf spec).toList ++
          anchored anchor after
      else anchored anchor rest
termination_by s => s.length

def jsAnchors : List String := [" from ", "from\"", "from'", "require(", "import("]

def extractRelativeSpecifiers (src : Str) : List Str :=
  (lines src).flatMap fun raw =>
    if startsWith ["//", "*", "/*"] (trimStart raw) then []
    else jsAnchors.flatMap fun anchor => anchored anchor.toList raw

/-! ### Markdown -/

/-- A link destination, up to the parenthesis that closes it, and what follows. -/
def linkDestination (depth : Nat) : Str → Str × Str
  | [] => ([], [])
  | c :: rest =>
      if c = ')' ∧ depth = 1 then ([], rest)
      else
        let depth' := if c = '(' then depth + 1 else if c = ')' then depth - 1 else depth
        let (raw, after) := linkDestination depth' rest
        (c :: raw, after)

theorem linkDestination_length (depth : Nat) (s : Str) :
    (linkDestination depth s).2.length ≤ s.length := by
  induction s generalizing depth with
  | nil => simp [linkDestination]
  | cons c rest ih =>
      simp only [linkDestination]
      split
      · simp
      · exact Nat.le_succ_of_le (ih _)

/-- A link destination that is a path of the repository. -/
def cleanMdUrl (raw : Str) : Option Str :=
  let url := (trim raw).takeWhile fun c => !isWhitespace c
  let url := url.takeWhile (· ≠ '#')
  let url := url.takeWhile (· ≠ '?')
  if url = [] then none
  else if startsWith ["http://", "https://", "mailto:", "tel:"] (url.map Char.toLower) ∨
      startsWith ["//", "/"] url then none
  else some url

/-- The destinations of inline links. -/
def extractMarkdownTargets : Str → List Str
  | [] => []
  | ']' :: '(' :: inner =>
      let raw := (linkDestination 1 inner).1
      (if raw = [] then [] else (cleanMdUrl raw).toList) ++
        extractMarkdownTargets (linkDestination 1 inner).2
  | _ :: rest => extractMarkdownTargets rest
termination_by s => s.length
decreasing_by
  · have := linkDestination_length 1 inner
    simp only [List.length_cons]
    omega
  · simp

def backtick : Char := Char.ofNat 96

/-- The lines outside fenced code blocks. -/
def outsideFences (inFence : Bool) : List Str → List Str
  | [] => []
  | line :: rest =>
      if [backtick, backtick, backtick].isPrefixOf (trimStart line) then
        outsideFences (!inFence) rest
      else if inFence then outsideFences inFence rest
      else line :: outsideFences inFence rest

/-- `None`, or `Some` of what stands behind the opening backtick, reversed. -/
def backtickSpans : Option Str → Str → List Str
  | _, [] => []
  | none, c :: rest =>
      if c = backtick then backtickSpans (some []) rest else backtickSpans none rest
  | some inner, c :: rest =>
      if c = backtick then inner.reverse :: backtickSpans none rest
      else backtickSpans (some (c :: inner)) rest

/-- The length of the text in UTF-8. -/
def utf8Len (s : Str) : Nat := (s.map Char.utf8Size).sum

def isPathLike (s : Str) : Bool :=
  if s = [] ∨ 200 < utf8Len s ∨ s.any isWhitespace then false
  else if startsWith ["http://", "https://", "$"] s then false
  else if '/' ∈ s then true
  else
    match rfind ['.'] s with
    | some i => 0 < i ∧ i < s.length - 1
    | none => false

def extractBacktickPaths (src : Str) : List Str :=
  ((outsideFences false (lines src)).flatMap (backtickSpans none)).filter isPathLike

/-- The punctuation stripped from a bare token. -/
def bareTrim : List Char :=
  ['(', ')', '[', ']', backtick, ',', '.', ';', ':', '"', '\'', '*', '!', '?']

def extractBareTargets (src : Str) : List Str :=
  let tokens := ((outsideFences false (lines src)).flatMap splitWhitespace).map
    (trimMatches (· ∈ bareTrim))
  tokens.filter fun tok =>
    tok ≠ [] ∧ '/' ∈ tok ∧ startsWith ["http://", "https://", "$"] tok = false

def extractMarkdownSpecifiers (src : Str) : List Specifier :=
  (extractMarkdownTargets src).map (Specifier.mk · .mdLink) ++
    (extractBacktickPaths src).map (Specifier.mk · .mdBacktick) ++
      (extractBareTargets src).map (Specifier.mk · .mdBare)

/-! ### Shell -/

def stripShellQuotes (tok : Str) : Str := trimMatches (fun c => c = '"' ∨ c = '\'') tok

def firstShellToken (s : Str) : Option Str :=
  (splitWhitespace s).head?.bind fun tok =>
    if stripShellQuotes tok = [] then none else some (stripShellQuotes tok)

/-- What follows a `$VAR/` or `${VAR}/` prefix. -/
def stripVarPrefix (tok : Str) : Option Str :=
  let isNameChar (c : Char) : Bool := c.isAlphanum ∨ c = '_'
  match tok with
  | '$' :: rest =>
      let afterName :=
        match rest with
        | '\x7b' :: braced => (splitOnce '\x7d' braced).map Prod.snd
        | _ =>
            if rest.all isNameChar then none else some (rest.dropWhile isNameChar)
      match afterName with
      | some ('/' :: remainder) => if remainder = [] then none else some remainder
      | _ => none
  | _ => none

def shellToken (rawTok : Str) : Option Specifier :=
  let tok := stripShellQuotes rawTok
  if startsWith ["./", "../"] tok then some ⟨tok, .shInvoke⟩
  else (stripVarPrefix tok).map (Specifier.mk · .shVarPrefix)

def shellLine (raw : Str) : List Specifier :=
  let line := trimStart raw
  if line = [] ∨ ['#'].isPrefixOf line then []
  else
    let sourced :=
      if "source ".toList.isPrefixOf line then firstShellToken (line.drop 7)
      else if ". ".toList.isPrefixOf line then firstShellToken (line.drop 2)
      else none
    (sourced.map (Specifier.mk · .shSource)).toList ++ (splitWhitespace line).filterMap shellToken

def extractShellSpecifiers (src : Str) : List Specifier := (lines src).flatMap shellLine

end AutomatisedPipeline.Indexer
