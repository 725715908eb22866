import AutomatisedPipeline.Diff.Unified

/-!
File patches in git's unified-diff format, and what a reader of it should
return. This is the specification side: the text `git diff` prints, with the
labels it quotes, the tab it puts behind a label with a space, the counts it
leaves out when they are one, and the marker of a file that does not end in a
line feed.
-/

namespace AutomatisedPipeline.Diff

open Text

/-! ### Patches -/

inductive Tag where
  | context
  | added
  | removed
deriving DecidableEq, Repr

/-- One line of a hunk. `noEol` says that it ends its file without a line feed,
which git states in a line of its own. -/
structure HunkLine where
  tag : Tag
  content : Line
  noEol : Bool
deriving DecidableEq

/-- A hunk: its counts are those of its lines. A start is a 64-bit number. -/
structure Hunk where
  oldStart : Nat
  newStart : Nat
  heading : Option Line
  lines : List HunkLine
  newStart_lt : newStart < 2 ^ 64

/-- The lines between `diff --git` and the file names. -/
inductive ExtendedHeader where
  | oldMode (mode : Line)
  | newMode (mode : Line)
  | deletedFileMode (mode : Line)
  | newFileMode (mode : Line)
  | index (blobs : Line)

inductive Kind where
  | modified
  | created
  | deleted
deriving DecidableEq, Repr

structure FilePatch where
  path : Str
  kind : Kind
  extended : List ExtendedHeader
  hunks : List Hunk

/-! ### Rendering -/

/-- Characters of a path that git quotes. `quotePath` is `core.quotePath`: with
it, every byte beyond ASCII is quoted too. -/
def mustQuote (quotePath : Bool) (c : Char) : Bool :=
  decide (c.toNat < 32) || c.toNat == 127 || c == '"' || c == '\\' ||
    (quotePath && decide (128 ≤ c.toNat))

/-- A byte in C notation. -/
def escapeByte (b : UInt8) : Str :=
  match b.toNat with
  | 7 => ['\\', 'a']
  | 8 => ['\\', 'b']
  | 9 => ['\\', 't']
  | 10 => ['\\', 'n']
  | 11 => ['\\', 'v']
  | 12 => ['\\', 'f']
  | 13 => ['\\', 'r']
  | 34 => ['\\', '"']
  | 92 => ['\\', '\\']
  | n => ['\\', (n / 64).digitChar, (n / 8 % 8).digitChar, (n % 8).digitChar]

def quoteChar (quotePath : Bool) (c : Char) : Str :=
  if mustQuote quotePath c then (String.utf8EncodeChar c).flatMap escapeByte else [c]

/-- A path behind `a/` or `b/`, in quotes when a character of it asks for them. -/
def label (quotePath : Bool) (side path : Str) : Str :=
  if path.any (mustQuote quotePath) then
    '"' :: (side ++ (path.flatMap (quoteChar quotePath) ++ ['"']))
  else side ++ path

/-- A label with a space is followed by a tab. -/
def withTab (name : Str) : Str := if ' ' ∈ name then name ++ ['\t'] else name

def ExtendedHeader.render : ExtendedHeader → Str
  | .oldMode mode => "old mode ".toList ++ mode.chars
  | .newMode mode => "new mode ".toList ++ mode.chars
  | .deletedFileMode mode => "deleted file mode ".toList ++ mode.chars
  | .newFileMode mode => "new file mode ".toList ++ mode.chars
  | .index blobs => "index ".toList ++ blobs.chars

def Tag.mark : Tag → Char
  | .context => ' '
  | .added => '+'
  | .removed => '-'

def noEolMark : Str := "\\ No newline at end of file".toList

def HunkLine.render (l : HunkLine) : List Str :=
  (l.tag.mark :: l.content.chars) :: if l.noEol then [noEolMark] else []

/-- A count of one is left out. -/
def renderRange (start count : Nat) : Str :=
  if count = 1 then digits start else digits start ++ ',' :: digits count

/-- The lines of a hunk on the side that does not have those tagged `other`. -/
def Hunk.count (h : Hunk) (other : Tag) : Nat := h.lines.countP fun l => l.tag ≠ other

def Hunk.renderHeader (h : Hunk) : Str :=
  hunkMark ++ '-' :: (renderRange h.oldStart (h.count .added) ++
    ' ' :: '+' :: (renderRange h.newStart (h.count .removed) ++
      [' ', '@', '@'] ++ (match h.heading with
        | some text => ' ' :: text.chars
        | none => [])))

def Hunk.render (h : Hunk) : List Str := h.renderHeader :: h.lines.flatMap HunkLine.render

def FilePatch.renderGit (p : FilePatch) (quotePath : Bool) : Str :=
  gitMark ++ ' ' :: (label quotePath ['a', '/'] p.path ++
    ' ' :: label quotePath ['b', '/'] p.path)

def FilePatch.renderOld (p : FilePatch) (quotePath : Bool) : Str :=
  ['-', '-', '-', ' '] ++
    if p.kind = .created then devNull else withTab (label quotePath ['a', '/'] p.path)

def FilePatch.renderNew (p : FilePatch) (quotePath : Bool) : Str :=
  ['+', '+', '+', ' '] ++
    if p.kind = .deleted then devNull else withTab (label quotePath ['b', '/'] p.path)

/-- A patch without hunks (a change of mode, an empty file) has no file names. -/
def FilePatch.renderBody (p : FilePatch) (quotePath : Bool) : List Str :=
  if p.hunks = [] then []
  else p.renderOld quotePath :: p.renderNew quotePath :: p.hunks.flatMap Hunk.render

def FilePatch.render (p : FilePatch) (quotePath : Bool) : List Str :=
  p.renderGit quotePath :: (p.extended.map ExtendedHeader.render ++ p.renderBody quotePath)

def renderPatches (quotePath : Bool) (ps : List FilePatch) : Str :=
  unlines (ps.flatMap fun p => p.render quotePath)

/-! ### What the patches change -/

/-- The numbers of the changed lines, from the line `n` of the new file on. A
removed line has the number of the line it stood in front of. -/
def changedNumbers (n : Nat) : List HunkLine → List Nat
  | [] => []
  | l :: ls =>
      match l.tag with
      | .context => changedNumbers (n + 1) ls
      | .added => n :: changedNumbers (n + 1) ls
      | .removed => n :: changedNumbers n ls

def Hunk.numbers (h : Hunk) : List Nat := changedNumbers h.newStart h.lines

/-- The entry a reader should return. -/
def FilePatch.entry (p : FilePatch) : FileHunk :=
  { filePath := p.path
    changedLines := p.hunks.flatMap Hunk.numbers
    isNew := p.kind = .created
    isDeleted := p.kind = .deleted }

/-! ### Patches that can be read back -/

/-- The content does not make the line look like a file header. -/
def HunkLine.Recorded (l : HunkLine) : Prop :=
  (l.tag = .added → ['+', '+'].isPrefixOf l.content.chars = false) ∧
    (l.tag = .removed → ['-', '-'].isPrefixOf l.content.chars = false)

/-- No change follows the marker of a missing line feed. -/
def Settled (ls : List HunkLine) : Prop :=
  ls.Pairwise fun l l' => l.noEol = true → l'.tag = .context

/-- git neither quotes the path nor puts a tab behind it. -/
def PlainPath (quotePath : Bool) (path : Str) : Prop :=
  path.any (mustQuote quotePath) = false ∧ ' ' ∉ path

/-- How often the line, with its marker, advances the reader's counter. -/
def HunkLine.ticks (l : HunkLine) : Nat :=
  (if l.tag = .removed then 0 else 1) + if l.noEol then 1 else 0

def Hunk.ticks (h : Hunk) : Nat := (h.lines.map HunkLine.ticks).sum

/-- The counter behind some hunks: each starts it afresh. -/
def counterBehind (counter : Nat) : List Hunk → Nat
  | [] => counter
  | h :: hs => counterBehind (h.newStart + h.ticks) hs

def FilePatch.counterAfter (counter : Nat) (p : FilePatch) : Nat :=
  counterBehind (counter + p.extended.length) p.hunks

/-- The counter stays within its limit. The extended headers of a patch advance
it too, from where the patch before left it. -/
def Fits (counter : Nat) : List FilePatch → Prop
  | [] => True
  | p :: ps =>
      InRange counter p.extended.length ∧ (∀ h ∈ p.hunks, InRange h.newStart h.ticks) ∧
        Fits (p.counterAfter counter) ps

/-- The condition under which the patches read back. -/
structure Readable (quotePath : Bool) (ps : List FilePatch) : Prop where
  hunks : ∀ p ∈ ps, p.hunks ≠ []
  paths : ∀ p ∈ ps, PlainPath quotePath p.path
  contents : ∀ p ∈ ps, ∀ h ∈ p.hunks, ∀ l ∈ h.lines, l.Recorded
  markers : ∀ p ∈ ps, ∀ h ∈ p.hunks, Settled h.lines
  counter : Fits 0 ps

/-! ### The rendered lines -/

theorem not_mem_escapeByte (b : UInt8) : '\n' ∉ escapeByte b := by
  have hall : ∀ n < 256, '\n' ∉ escapeByte (UInt8.ofNat n) := by decide +kernel
  simpa using hall b.toNat b.toNat_lt

theorem not_mem_digits {c : Char} (hc : c.isDigit = false) (n : Nat) : c ∉ digits n := by
  intro h
  rw [isDigit_of_mem_digits h] at hc
  cases hc

theorem mustQuote_newline (quotePath : Bool) : mustQuote quotePath '\n' = true := rfl

theorem not_mem_quoteChar (quotePath : Bool) (c : Char) : '\n' ∉ quoteChar quotePath c := by
  unfold quoteChar
  split
  · simp [not_mem_escapeByte]
  · rename_i h
    rw [List.mem_singleton]
    rintro rfl
    exact h (mustQuote_newline quotePath)

theorem not_mem_label {quotePath : Bool} {side : Str} (hside : '\n' ∉ side) (path : Str) :
    '\n' ∉ label quotePath side path := by
  unfold label
  split
  · simp [hside, not_mem_quoteChar]
  · rename_i h
    rw [List.mem_append, not_or]
    refine ⟨hside, fun hmem => h ?_⟩
    rw [List.any_eq_true]
    exact ⟨'\n', hmem, mustQuote_newline quotePath⟩

theorem not_mem_withTab {name : Str} (h : '\n' ∉ name) : '\n' ∉ withTab name := by
  unfold withTab
  split
  · simp [h]
  · exact h

theorem not_mem_renderRange {c : Char} (hdigit : c.isDigit = false) (hcomma : c ≠ ',')
    (start count : Nat) : c ∉ renderRange start count := by
  unfold renderRange
  split
  · exact not_mem_digits hdigit start
  · simp [not_mem_digits hdigit, hcomma]

theorem not_mem_extended (e : ExtendedHeader) : '\n' ∉ e.render := by
  cases e with
  | oldMode mode => exact List.not_mem_append (by decide) mode.noBreak
  | newMode mode => exact List.not_mem_append (by decide) mode.noBreak
  | deletedFileMode mode => exact List.not_mem_append (by decide) mode.noBreak
  | newFileMode mode => exact List.not_mem_append (by decide) mode.noBreak
  | index blobs => exact List.not_mem_append (by decide) blobs.noBreak

theorem not_mem_hunkHeader (h : Hunk) : '\n' ∉ h.renderHeader := by
  have hrange : ∀ start count, '\n' ∉ renderRange start count :=
    not_mem_renderRange (by decide) (by decide)
  cases hh : h.heading <;> simp [Hunk.renderHeader, hunkMark, hrange, hh, Line.noBreak]

/-- The lines of a patch behind its extended headers. -/
theorem mem_renderBody {p : FilePatch} {quotePath : Bool} {line : Str}
    (h : line ∈ p.renderBody quotePath) :
    line = p.renderOld quotePath ∨ line = p.renderNew quotePath ∨
      ∃ hunk ∈ p.hunks, line = hunk.renderHeader ∨ line = noEolMark ∨
        ∃ l ∈ hunk.lines, line = l.tag.mark :: l.content.chars := by
  unfold FilePatch.renderBody at h
  split at h
  · cases h
  · rcases List.mem_cons.mp h with rfl | h
    · exact .inl rfl
    rcases List.mem_cons.mp h with rfl | h
    · exact .inr (.inl rfl)
    obtain ⟨hunk, hhunk, hline⟩ := List.mem_flatMap.mp h
    refine .inr (.inr ⟨hunk, hhunk, ?_⟩)
    rcases List.mem_cons.mp hline with rfl | hline
    · exact .inl rfl
    obtain ⟨l, hl, hmem⟩ := List.mem_flatMap.mp hline
    rcases List.mem_cons.mp hmem with rfl | hmem
    · exact .inr (.inr ⟨l, hl, rfl⟩)
    · split at hmem
      · exact .inr (.inl (List.mem_singleton.mp hmem))
      · cases hmem

theorem not_mem_of_mem_render {p : FilePatch} {quotePath : Bool} {line : Str}
    (h : line ∈ p.render quotePath) : '\n' ∉ line := by
  have hlabel : ∀ side path, '\n' ∉ side → '\n' ∉ label quotePath side path :=
    fun _ path hside => not_mem_label hside path
  rcases List.mem_cons.mp h with rfl | h
  · simp [FilePatch.renderGit, gitMark, hlabel]
  rcases List.mem_append.mp h with h | h
  · obtain ⟨e, _, rfl⟩ := List.mem_map.mp h
    exact not_mem_extended e
  rcases mem_renderBody h with rfl | rfl | ⟨hunk, _, rfl | rfl | ⟨l, _, rfl⟩⟩
  · unfold FilePatch.renderOld
    split <;> simp [devNull, not_mem_withTab, hlabel]
  · unfold FilePatch.renderNew
    split <;> simp [devNull, not_mem_withTab, hlabel]
  · exact not_mem_hunkHeader hunk
  · exact (by decide : '\n' ∉ noEolMark)
  · cases htag : l.tag <;> simp [Tag.mark, Line.noBreak]

/-- The reader is given the lines as rendered, without a carriage return at
their end. -/
theorem lines_renderPatches (quotePath : Bool) (ps : List FilePatch) :
    lines (renderPatches quotePath ps) =
      (ps.flatMap fun p => p.render quotePath).map stripCr := by
  apply lines_unlines
  intro line hline
  obtain ⟨p, _, hp⟩ := List.mem_flatMap.mp hline
  exact not_mem_of_mem_render hp

end AutomatisedPipeline.Diff
