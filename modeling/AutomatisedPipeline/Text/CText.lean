import AutomatisedPipeline.Text.Basic

/-!
The text of a C header before the preprocessor has run: code with comments, literals, directives
and conditional groups between its pieces.

A directive goes to the end of its logical line, so a line feed behind a backslash and one in a
block comment are part of it; it stands first on its line but for white space and comments. `erase`
leaves out all that is not code: what comments and literals hold, and the sections of a conditional
group that tests a given macro.
-/

namespace AutomatisedPipeline.CText

open Text

/-! ### Lines -/

/-- What is left of a text's first logical line behind `prev`: a line feed ends it that stands
behind no backslash. -/
def logicalLine (prev : Char) : Str → Str
  | [] => []
  | c :: s => if c = '\n' ∧ prev ≠ '\\' then [] else c :: logicalLine c s

/-- A text that a line feed behind it ends. -/
def OneLine (s : Str) : Prop := logicalLine ' ' (s ++ ['\n']) = s

instance (s : Str) : Decidable (OneLine s) := inferInstanceAs (Decidable (_ = s))

/-- Whether only white space stands on the line, behind one more character. -/
def freshStep (fresh : Bool) (c : Char) : Bool := c == '\n' || (fresh && isAsciiWhitespace c)

def freshAfter (fresh : Bool) (s : Str) : Bool := s.foldl freshStep fresh

/-! ### Pieces -/

/-- No `#` stands first on a line. -/
def hashFree (fresh : Bool) : Str → Bool
  | [] => true
  | c :: s => !(c == '#' && fresh) && hashFree (freshStep fresh c) s

/-- A text without comments, literals and directives, on a line that has begun. -/
structure IsCode (s : Str) : Prop where
  noQuote : '"' ∉ s ∧ '\'' ∉ s
  noComment : ¬ ['/', '/'] <:+: s ∧ ¬ ['/', '*'] <:+: s
  noHash : hashFree false s = true

instance (s : Str) : Decidable (IsCode s) :=
  decidable_of_iff (('"' ∉ s ∧ '\'' ∉ s) ∧ (¬ ['/', '/'] <:+: s ∧ ¬ ['/', '*'] <:+: s) ∧
    hashFree false s = true) ⟨fun ⟨a, b, c⟩ => ⟨a, b, c⟩, fun ⟨a, b, c⟩ => ⟨a, b, c⟩⟩

abbrev Code : Type := { s : Str // IsCode s }

inductive Quote where
  | double
  | single
deriving DecidableEq, Repr

def Quote.char : Quote → Char
  | .double => '"'
  | .single => '\''

/-- What stands between quotes: characters behind a backslash, and others than the quote, the line
feed and the backslash. -/
def quoted (q : Char) : Str → Bool
  | [] => true
  | [c] => c != q && c != '\n' && c != '\\'
  | c :: d :: s => if c = '\\' then quoted q s else c != q && c != '\n' && quoted q (d :: s)

/-- A comment or a literal. -/
inductive Blank where
  | line (s : { s : Str // OneLine s })
  | block (s : { s : Str // ¬ ['*', '/'] <:+: s })
  | literal (q : Quote) (s : { s : Str // quoted q.char s = true })

def Blank.text : Blank → Str
  | .line s => '/' :: '/' :: s.1
  | .block s => '/' :: '*' :: (s.1 ++ ['*', '/'])
  | .literal q s => q.char :: (s.1 ++ [q.char])

def Blank.isComment : Blank → Bool
  | .literal _ _ => false
  | _ => true

/-- The same without what it holds. -/
def Blank.erase : Blank → Blank
  | .line _ => .line ⟨[], by decide⟩
  | .block _ => .block ⟨[], by decide⟩
  | .literal q _ => .literal q ⟨[], rfl⟩

/-- A piece of a directive. -/
inductive Part where
  | text (s : Str)
  | blank (b : Blank)

def Part.raw : Part → Str
  | .text s => s
  | .blank b => b.text

def Part.erase : Part → Part
  | .text s => .text s
  | .blank b => .blank b.erase

/-- What the preprocessor reads of a piece: a blank for a comment. -/
def Part.code : Part → Str
  | .text s => s
  | .blank (.literal q _) => [q.char, q.char]
  | .blank _ => [' ']

/-- A directive behind its `#`. -/
abbrev Directive : Type := List Part

def Directive.raw (d : Directive) : Str := d.flatMap Part.raw

def Directive.code (d : Directive) : Str := d.flatMap Part.code

def Directive.erase (d : Directive) : Directive := d.map Part.erase

/-- What a directive does with the conditional groups. -/
inductive Kind where
  | opening | elif | other | closing | plain
deriving DecidableEq, Repr

def kindOf (name : Str) : Kind :=
  if name ∈ ["if".toList, "ifdef".toList, "ifndef".toList] then .opening
  else if name ∈ ["elif".toList, "elifdef".toList, "elifndef".toList] then .elif
  else if name = "else".toList then .other
  else if name = "endif".toList then .closing
  else .plain

/-- The name of a directive: its first word. -/
def nameOf (line : Str) : Str :=
  (line.dropWhile isWhitespace).takeWhile fun c => c.isAlphanum || c == '_'

def Directive.kind (d : Directive) : Kind := kindOf (nameOf d.code)

/-- The directive holds this name. -/
def Directive.names (macroName : Str) (d : Directive) : Bool := decide (macroName <:+: d.code)

/-! ### Trees and their pieces -/

/-- A piece that is no code, with the code behind it, and a conditional group: its first directive
and section, the other sections behind a directive each, and the last directive. -/
inductive Node where
  | blank (b : Blank) (next : Code)
  | directive (d : Directive) (next : Code)
  | group (first : Directive) (lead : Code) (body : List Node)
      (others : List (Directive × Code × List Node)) (last : Directive) (next : Code)

/-- A section of a conditional group behind its directive. -/
abbrev Branch : Type := Directive × Code × List Node

/-- A piece that is no code. -/
inductive Mark where
  | blank (b : Blank)
  | directive (d : Directive)

def Mark.text : Mark → Str
  | .blank b => b.text
  | .directive d => '#' :: d.raw

/-- The line goes no further behind the piece. -/
def Mark.endsLine : Mark → Bool
  | .blank (.line _) => true
  | .blank _ => false
  | .directive _ => true

structure Island where
  mark : Mark
  next : Code

mutual

/-- The pieces of a tree from left to right. -/
def Node.islands : Node → List Island
  | .blank b next => [⟨.blank b, next⟩]
  | .directive d next => [⟨.directive d, next⟩]
  | .group first lead body others last next =>
      ⟨.directive first, lead⟩ :: (islands body ++ (branchIslands others ++
        [⟨.directive last, next⟩]))

def islands : List Node → List Island
  | [] => []
  | n :: ns => n.islands ++ islands ns

def branchIslands : List Branch → List Island
  | [] => []
  | (d, lead, body) :: others =>
      ⟨.directive d, lead⟩ :: (islands body ++ branchIslands others)

end

def Island.text (i : Island) : Str := i.mark.text ++ i.next.1

def islandsText (is : List Island) : Str := is.flatMap Island.text

/-- A header: no `#` stands first on a line of the code it starts with. -/
structure Header where
  lead : Code
  start : hashFree true lead.1 = true
  nodes : List Node

def Header.islands (h : Header) : List Island := CText.islands h.nodes

def Header.text (h : Header) : Str := h.lead.1 ++ islandsText h.islands

/-! ### What a header is -/

mutual

/-- The directives of a group stand where they belong. -/
def Node.shaped : Node → Bool
  | .blank _ _ => true
  | .directive d _ => d.kind = .plain
  | .group first _ body others last _ =>
      first.kind = .opening && shaped body && branchesShaped others && last.kind = .closing

def shaped : List Node → Bool
  | [] => true
  | n :: ns => n.shaped && shaped ns

def branchesShaped : List Branch → Bool
  | [] => true
  | (d, _, body) :: others =>
      (d.kind = .elif || d.kind = .other) && shaped body && branchesShaped others

end

/-- The pieces do not run into each other: `before` is the code before them. -/
def joined (before : Str) : List Island → Bool
  | [] => true
  | i :: rest =>
      (match i.mark with
        | .blank b => !b.isComment || before.getLast? != some '/'
        | .directive _ => true) &&
      (!i.mark.endsLine || i.next.1.head? = some '\n' || (i.next.1.isEmpty && rest.isEmpty)) &&
      joined i.next.1 rest

/-- Each directive stands first on its line, but for white space and, with `comments`, comments. -/
def ownLine (comments fresh : Bool) : List Island → Bool
  | [] => true
  | i :: rest =>
      match i.mark with
      | .blank b =>
          ownLine comments (freshAfter (comments && b.isComment && fresh) i.next.1) rest
      | .directive _ => fresh && ownLine comments (freshAfter false i.next.1) rest

/-- The directives go to the ends of their logical lines, in which a comment is a blank. -/
def Mark.closed : Mark → Prop
  | .blank _ => True
  | .directive d => OneLine d.code

instance (m : Mark) : Decidable m.closed := by
  cases m
  · exact inferInstanceAs (Decidable True)
  · exact inferInstanceAs (Decidable (OneLine _))

/-- The pieces are what the C lexer makes of the text. -/
structure Header.WellFormed (h : Header) : Prop where
  shaped : shaped h.nodes = true
  joined : joined h.lead.1 h.islands = true
  ownLine : ownLine true (freshAfter true h.lead.1) h.islands = true
  closed : ∀ i ∈ h.islands, i.mark.closed

instance (h : Header) : Decidable h.WellFormed :=
  decidable_of_iff (CText.shaped h.nodes = true ∧ CText.joined h.lead.1 h.islands = true ∧
    CText.ownLine true (freshAfter true h.lead.1) h.islands = true ∧
    ∀ i ∈ h.islands, i.mark.closed)
    ⟨fun ⟨a, b, c, d⟩ => ⟨a, b, c, d⟩, fun ⟨a, b, c, d⟩ => ⟨a, b, c, d⟩⟩

/-! ### What is code -/

section Erase

variable (macroName : Str)

/-- The group tests the macro in a condition. -/
def tests (first : Directive) (others : List Branch) : Bool :=
  first.names macroName || others.any fun b => b.1.kind = .elif && b.1.names macroName

/-- No code. -/
def noCode : Code := ⟨['\n'], by decide⟩

/-- A section without what it holds. -/
def Branch.empty (b : Branch) : Branch := (b.1.erase, noCode, [])

mutual

/-- The tree without what comments and literals hold, and without the sections of the groups that
test the macro. -/
def Node.erase : Node → Node
  | .blank b next => .blank b.erase next
  | .directive d next => .directive d.erase next
  | .group first lead body others last next =>
      if tests macroName first others then
        .group first.erase noCode [] (others.map Branch.empty) last.erase next
      else .group first.erase lead (eraseAll body) (eraseBranches others) last.erase next

def eraseAll : List Node → List Node
  | [] => []
  | n :: ns => n.erase :: eraseAll ns

def eraseBranches : List Branch → List Branch
  | [] => []
  | (d, lead, body) :: others => (d.erase, lead, eraseAll body) :: eraseBranches others

end

def Header.erase (h : Header) : Header := { h with nodes := eraseAll macroName h.nodes }

/-! ### What is left of directives -/

theorem Directive.code_erase (d : Directive) : d.erase.code = d.code := by
  rw [Directive.erase, Directive.code, Directive.code, List.flatMap_map]
  apply List.flatMap_congr
  intro p _
  cases p with
  | text s => rfl
  | blank b => cases b <;> rfl

theorem Directive.kind_erase (d : Directive) : d.erase.kind = d.kind := by
  rw [Directive.kind, Directive.kind, Directive.code_erase]

theorem Directive.names_erase (d : Directive) : d.erase.names macroName = d.names macroName := by
  rw [Directive.names, Directive.names, Directive.code_erase]

theorem tests_empty (first : Directive) (others : List Branch) :
    tests macroName first.erase (others.map Branch.empty) = tests macroName first others := by
  rw [tests, tests, Directive.names_erase, List.any_map]
  congr 2
  funext b
  simp only [Function.comp_apply, Branch.empty, Directive.kind_erase, Directive.names_erase]

theorem tests_erase (first : Directive) (others : List Branch) :
    tests macroName first.erase (eraseBranches macroName others) =
      tests macroName first others := by
  rw [tests, tests, Directive.names_erase]
  congr 1
  induction others with
  | nil => rfl
  | cons b others ih =>
      obtain ⟨d, lead, body⟩ := b
      rw [eraseBranches, List.any_cons, List.any_cons, ih]
      simp only [Directive.kind_erase, Directive.names_erase]

end Erase

end AutomatisedPipeline.CText
