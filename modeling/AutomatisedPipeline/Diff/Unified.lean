import AutomatisedPipeline.Text.Lines
import AutomatisedPipeline.Logic.Run

/-!
The reader of unified diffs. It looks at one line after another and decides by
the line's first characters alone; the counts of a hunk header are not read, so
a content line is told from a header by its text only.

`u64` line counters are natural numbers: the reader refuses to advance one that
has reached `diffLineMax`, and a start it parses fits.
-/

namespace AutomatisedPipeline.Diff

open Text

/-- `u64::MAX / 2`. -/
def diffLineMax : Nat := (2 ^ 64 - 1) / 2

/-- What the reader returns for one file. -/
structure FileHunk where
  filePath : Str
  changedLines : List Nat
  isNew : Bool
  isDeleted : Bool
deriving DecidableEq, Repr

/-- The local variables of the loop. -/
structure Reader where
  hunks : List FileHunk
  currentFile : Option Str
  currentLines : List Nat
  currentLine : Nat
  isNew : Bool
  isDeleted : Bool
deriving DecidableEq, Repr

def Reader.init : Reader :=
  { hunks := [], currentFile := none, currentLines := [], currentLine := 0, isNew := false,
    isDeleted := false }

/-! ### What a line starts with -/

/-- `diff --git` -/
def gitMark : Str := ['d', 'i', 'f', 'f', ' ', '-', '-', 'g', 'i', 't']

/-- `--- a/` -/
def oldMark : Str := ['-', '-', '-', ' ', 'a', '/']

/-- `+++ b/` -/
def newMark : Str := ['+', '+', '+', ' ', 'b', '/']

/-- `/dev/null` -/
def devNull : Str := ['/', 'd', 'e', 'v', '/', 'n', 'u', 'l', 'l']

/-- `--- /dev/null` -/
def oldNull : Str := ['-', '-', '-', ' '] ++ devNull

/-- `+++ /dev/null` -/
def newNull : Str := ['+', '+', '+', ' '] ++ devNull

/-- `@@ ` -/
def hunkMark : Str := ['@', '@', ' ']

/-- An added line, and not one that starts like a file header. -/
def isAdded (line : Str) : Bool :=
  ['+'].isPrefixOf line && !(['+', '+', '+'].isPrefixOf line)

def isRemoved (line : Str) : Bool :=
  ['-'].isPrefixOf line && !(['-', '-', '-'].isPrefixOf line)

/-- The delimiters behind a start: a comma in front of a count, else a space. -/
def isRangeEnd (c : Char) : Bool := c == ',' || c == ' '

def parseHunkHeader (line : Str) : Option Nat :=
  match splitOnce '+' line with
  | none => none
  | some (_, rest) =>
      if rest.any isRangeEnd then parseU64 (rest.takeWhile fun c => !isRangeEnd c) else none

/-! ### The loop -/

def diffTooLarge : Str := "diff_too_large: line counter would overflow".toList

/-- Closes the file being read, if there is one. The lines of a file that was
never named stay where they are. -/
def Reader.flush (st : Reader) : Reader :=
  match st.currentFile with
  | some fp =>
      { st with
        hunks := st.hunks ++ [
          { filePath := fp, changedLines := st.currentLines, isNew := st.isNew,
            isDeleted := st.isDeleted }]
        currentFile := none
        currentLines := [] }
  | none => st

/-- Records the current line as changed. -/
def Reader.push (st : Reader) : Reader :=
  { st with currentLines := st.currentLines ++ [st.currentLine] }

/-- Advances the line counter, unless it is at its limit. -/
def Reader.tick (st : Reader) : Except Str Reader :=
  if diffLineMax ≤ st.currentLine then .error diffTooLarge
  else .ok { st with currentLine := st.currentLine + 1 }

/-- The body of the loop. -/
def step (st : Reader) (line : Str) : Except Str Reader :=
  if gitMark.isPrefixOf line then
    .ok { st.flush with isNew := false, isDeleted := false }
  else
    match oldMark.isPrefixOf? line with
    | some stripped =>
        -- the only place that names a deleted file
        if st.currentFile.isNone then .ok { st with currentFile := some stripped } else .ok st
    | none =>
        if oldNull.isPrefixOf line then .ok { st with isNew := true }
        else
          match newMark.isPrefixOf? line with
          | some stripped => .ok { st with currentFile := some stripped }
          | none =>
              if newNull.isPrefixOf line then .ok { st with isDeleted := true }
              else if hunkMark.isPrefixOf line then
                match parseHunkHeader line with
                | some newRange => .ok { st with currentLine := newRange }
                | none => .ok st
              else if isAdded line then st.push.tick
              else if isRemoved line then .ok st.push
              else st.tick

def run (st : Reader) (ls : List Str) : Except Str Reader := ls.foldlM step st

def parseUnifiedDiff (diffText : Str) : Except Str (List FileHunk) :=
  (run .init (lines diffText)).map fun st => st.flush.hunks

example : parseUnifiedDiff (unlines ["diff --git a/x b/x".toList, "--- a/x".toList,
    "+++ b/x".toList, "@@ -1 +1,2 @@".toList, " keep".toList, "+add".toList]) =
      .ok [{ filePath := "x".toList, changedLines := [2], isNew := false, isDeleted := false }] := by
  decide +kernel

/-! ### Runs -/

@[simp] theorem run_nil (st : Reader) : run st [] = .ok st := rfl

theorem run_cons (st : Reader) (line : Str) (ls : List Str) :
    run st (line :: ls) = step st line >>= fun st' => run st' ls := rfl

theorem run_append (st : Reader) (ls ls' : List Str) :
    run st (ls ++ ls') = run st ls >>= fun st' => run st' ls' := by
  simp [run]

/-- A run that succeeds goes through a state. -/
theorem run_append_eq_ok {st st' : Reader} {ls ls' : List Str} :
    run st (ls ++ ls') = .ok st' ↔ ∃ mid, run st ls = .ok mid ∧ run mid ls' = .ok st' := by
  rw [run_append, Run.bind_eq_ok]

theorem run_cons_eq_ok {st st' : Reader} {line : Str} {ls : List Str} :
    run st (line :: ls) = .ok st' ↔ ∃ mid, step st line = .ok mid ∧ run mid ls = .ok st' := by
  rw [run_cons, Run.bind_eq_ok]

/-! ### What one line does -/

/-- The counter may advance this many times. -/
def InRange (line ticks : Nat) : Prop := ticks = 0 ∨ line + ticks ≤ diffLineMax

theorem tick_eq_ok {st st' : Reader} :
    st.tick = .ok st' ↔
      st.currentLine < diffLineMax ∧ st' = { st with currentLine := st.currentLine + 1 } := by
  unfold Reader.tick
  split
  · rename_i h
    constructor
    · intro heq
      cases heq
    · intro heq
      exact absurd heq.1 (by omega)
  · rename_i h
    constructor
    · intro heq
      cases heq
      exact ⟨by omega, rfl⟩
    · rintro ⟨_, rfl⟩
      rfl

section Lines

variable {st : Reader} {line : Str}

theorem step_git (h : gitMark.isPrefixOf line = true) :
    step st line = .ok { st.flush with isNew := false, isDeleted := false } := by
  rw [step, if_pos h]

/-- A line that starts like no header and no change advances the counter. -/
theorem step_plain {c : Char} {rest : Str} (hgit : gitMark.isPrefixOf (c :: rest) = false)
    (hc : c ≠ '-' ∧ c ≠ '+' ∧ c ≠ '@') : step st (c :: rest) = st.tick := by
  have hm : ('-' == c) = false := by simpa using Ne.symm hc.1
  have hp : ('+' == c) = false := by simpa using Ne.symm hc.2.1
  have ha : ('@' == c) = false := by simpa using Ne.symm hc.2.2
  simp [step, hgit, oldMark, oldNull, newMark, newNull, hunkMark, isAdded, isRemoved, hm, hp, ha,
    List.isPrefixOf?, List.isPrefixOf]

theorem step_added (h : ['+', '+'].isPrefixOf line = false) :
    step st ('+' :: line) = st.push.tick := by
  have hfile : ['+', '+', ' ', 'b', '/'].isPrefixOf? line = none :=
    isPrefixOf?_eq_none h (by decide)
  have hnull : (['+', '+', ' '] ++ devNull).isPrefixOf line = false :=
    isPrefixOf_eq_false h (by decide)
  simp only [step, gitMark, oldMark, oldNull, newMark, newNull, hunkMark, isAdded,
    List.isPrefixOf?, List.isPrefixOf, List.cons_append]
  simp_all

theorem step_removed (h : ['-', '-'].isPrefixOf line = false) :
    step st ('-' :: line) = .ok st.push := by
  have hfile : ['-', '-', ' ', 'a', '/'].isPrefixOf? line = none :=
    isPrefixOf?_eq_none h (by decide)
  have hnull : (['-', '-', ' '] ++ devNull).isPrefixOf line = false :=
    isPrefixOf_eq_false h (by decide)
  simp only [step, gitMark, oldMark, oldNull, newMark, newNull, hunkMark, isAdded, isRemoved,
    List.isPrefixOf?, List.isPrefixOf, List.cons_append]
  simp_all

end Lines

end AutomatisedPipeline.Diff
