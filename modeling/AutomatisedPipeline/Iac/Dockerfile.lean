import AutomatisedPipeline.Text.Padding

/-!
Dockerfiles (`iac/dockerfile.rs`). A file is read line by line, one instruction a line. Each list of
facts is bounded, and what ships is taken from the bounded list of stages.
-/

namespace AutomatisedPipeline.Dockerfile

open Text
open Indexer (trim trimStart trimMatches splitWhitespace)

/-! ### The parser -/

def maxStages : Nat := 16
def maxPorts : Nat := 16
def maxSources : Nat := 16

/-- `DockerfileInfo`. -/
structure DockerfileInfo where
  baseImage : Str
  stageImages : List Str
  exposedPorts : List Str
  entrypoint : Str
  workdir : Str
  copySources : List Str
deriving DecidableEq, Repr

def DockerfileInfo.default : DockerfileInfo := ⟨[], [], [], [], [], []⟩

/-- `split_keyword`: the leading run without white space, and what follows the white space behind
it. -/
def splitKeyword (line : Str) : Str × Str :=
  (line.takeWhile (¬ isWhitespace ·), trimStart (line.dropWhile (¬ isWhitespace ·)))

/-- `parse_from`. -/
def parseFrom (rest : Str) (info : DockerfileInfo) : DockerfileInfo :=
  if info.stageImages.length ≥ maxStages then info
  else
    match (splitWhitespace rest).head? with
    | some image => { info with stageImages := info.stageImages ++ [image] }
    | none => info

/-- The loop of `parse_expose` over the words of the instruction. -/
def exposePorts (ports : List Str) : List Str → List Str
  | [] => ports
  | tok :: toks =>
      if ports.length ≥ maxPorts then ports
      else
        let port := tok.takeWhile (· ≠ '/')
        exposePorts (if port = [] then ports else ports ++ [port]) toks

/-- `parse_expose`. -/
def parseExpose (rest : Str) (info : DockerfileInfo) : DockerfileInfo :=
  { info with exposedPorts := exposePorts info.exposedPorts (splitWhitespace rest) }

/-- The loop of `parse_copy` over the sources of the instruction. -/
def addSources (copied : List Str) : List Str → List Str
  | [] => copied
  | src :: sources =>
      if copied.length ≥ maxSources then copied
      else if "http://".toList <+: src ∨ "https://".toList <+: src then addSources copied sources
      else addSources (copied ++ [src]) sources

/-- `parse_copy`. -/
def parseCopy (rest : Str) (info : DockerfileInfo) : DockerfileInfo :=
  let tokens := splitWhitespace rest
  if tokens.any ("--from".toList.isPrefixOf ·) then info
  else
    let sources := tokens.filter fun t => ¬ "--".toList <+: t
    if sources.length < 2 then info
    else { info with copySources := addSources info.copySources sources.dropLast }

/-- `clean_exec`. -/
def cleanExec (rest : Str) : Str :=
  let t := trim rest
  if t.head? = some '[' ∧ t.getLast? = some ']' then
    let parts := (t.tail.dropLast.splitOn ',').map fun part =>
      trim (trimMatches (· = '"') (trim part))
    join [' '] (parts.filter (· ≠ []))
  else t

/-- What the loop over the lines carries: the facts, and whether there was an `ENTRYPOINT`. -/
structure ParseState where
  info : DockerfileInfo
  haveEntrypoint : Bool
deriving DecidableEq, Repr

/-- The body of the loop for an instruction. -/
def instruct (st : ParseState) (keyword rest : Str) : ParseState :=
  let upper := keyword.map Char.toUpper
  if upper = "FROM".toList then { st with info := parseFrom rest st.info }
  else if upper = "EXPOSE".toList then { st with info := parseExpose rest st.info }
  else if upper = "WORKDIR".toList then { st with info := { st.info with workdir := trim rest } }
  else if upper = "ENTRYPOINT".toList then
    { info := { st.info with entrypoint := cleanExec rest }, haveEntrypoint := true }
  else if upper = "CMD".toList ∧ st.haveEntrypoint = false then
    { st with info := { st.info with entrypoint := cleanExec rest } }
  else if upper = "COPY".toList ∨ upper = "ADD".toList then
    { st with info := parseCopy rest st.info }
  else st

/-- The body of the loop: blank lines and comments are skipped. -/
def parseLine (st : ParseState) (raw : Str) : ParseState :=
  let line := trim raw
  if line = [] ∨ line.head? = some '#' then st
  else instruct st (splitKeyword line).1 (splitKeyword line).2

/-- `parse`. -/
def parse (source : Str) : Option DockerfileInfo :=
  let info := ((lines source).foldl parseLine ⟨.default, false⟩).info
  if info.stageImages = [] then none
  else some { info with baseImage := info.stageImages.getLast?.getD [] }

/-! ### Files from their instructions -/

/-- White space on one line, perhaps none. -/
structure Pad where
  chars : Str
  blank : Blank chars
  noBreak : '\n' ∉ chars

/-- White space on one line that separates two words. -/
structure Gap extends Pad where
  nonempty : chars ≠ []

/-- A word of an instruction. -/
structure Word where
  chars : Str
  isWord : IsWord chars

/-- A keyword in any letter case. -/
structure Spelled (keyword : Str) where
  chars : Str
  same : chars.map Char.toUpper = keyword

/-- What follows the keyword of a `FROM`: flags, the image, and the name of the stage. A flag is
told from the image by the dashes in front. -/
structure From where
  flags : List (Gap × Word)
  gap : Gap
  image : Word
  stageName : List (Gap × Word)
  flags_dashed : ∀ flag ∈ flags, "--".toList <+: flag.2.chars
  image_plain : ¬ "--".toList <+: image.chars

/-- One instruction. Those that say neither what ships nor what it runs are alike here. -/
inductive Instruction where
  | stage (keyword : Spelled "FROM".toList) (args : From)
  | entrypoint (keyword : Spelled "ENTRYPOINT".toList) (gap : Gap) (value : Line)
  | cmd (keyword : Spelled "CMD".toList) (gap : Gap) (value : Line)
  | other (keyword : Word) (gap : Gap) (value : Line)
      (notComment : keyword.chars.head? ≠ some '#')
      (notThese : keyword.chars.map Char.toUpper ∉
        ["FROM".toList, "ENTRYPOINT".toList, "CMD".toList])

/-- One line of a file. -/
inductive Entry where
  | blank (pad : Pad)
  | comment (pad : Pad) (text : Line)
  | instruction (pad : Pad) (instruction : Instruction) (trail : Pad)

/-- Words with the white space in front of each. -/
def spaced (words : List (Gap × Word)) : Str := words.flatMap fun w => w.1.chars ++ w.2.chars

/-- The arguments of a `FROM` as they are written. -/
def From.words (f : From) : List (Gap × Word) := f.flags ++ (f.gap, f.image) :: f.stageName

def Instruction.render : Instruction → Str
  | .stage keyword args => keyword.chars ++ spaced args.words
  | .entrypoint keyword gap value => keyword.chars ++ (gap.chars ++ value.chars)
  | .cmd keyword gap value => keyword.chars ++ (gap.chars ++ value.chars)
  | .other keyword gap value _ _ => keyword.chars ++ (gap.chars ++ value.chars)

def Entry.render : Entry → Str
  | .blank pad => pad.chars
  | .comment pad text => pad.chars ++ '#' :: text.chars
  | .instruction pad i trail => pad.chars ++ (i.render ++ trail.chars)

/-- The text of a file. -/
def render (entries : List Entry) : Str := unlines (entries.map Entry.render)

/-! ### What a file says -/

def Entry.stage? : Entry → Option From
  | .instruction _ (.stage _ args) _ => some args
  | _ => none

def Entry.entrypoint? : Entry → Option Str
  | .instruction _ (.entrypoint _ _ value) _ => some value.chars
  | _ => none

def Entry.cmd? : Entry → Option Str
  | .instruction _ (.cmd _ _ value) _ => some value.chars
  | _ => none

/-- The stages of a file, in order. -/
def stages (entries : List Entry) : List From := entries.filterMap Entry.stage?

/-- The images of the stages. -/
def images (entries : List Entry) : List Str := (stages entries).map fun f => f.image.chars

/-- What the container runs: the last `ENTRYPOINT`, and the last `CMD` only where there is none. -/
def command (entries : List Entry) : Option Str :=
  (entries.filterMap Entry.entrypoint?).getLast? <|> (entries.filterMap Entry.cmd?).getLast?

/-- The parser finds what the file says. -/
structure Found (entries : List Entry) (result : Option DockerfileInfo) : Prop where
  isSome : result.isSome ↔ stages entries ≠ []
  ships : ∀ info ∈ result, some info.baseImage = (images entries).getLast?
  staged : ∀ info ∈ result, info.stageImages = (images entries).take maxStages
  runs : ∀ info ∈ result, info.entrypoint = ((command entries).map cleanExec).getD []

/-! ### One line -/

theorem parseLine_stripCr (st : ParseState) (raw : Str) :
    parseLine st (stripCr raw) = parseLine st raw := by
  rw [parseLine, parseLine, trim_stripCr]

theorem cleanExec_trim (rest : Str) : cleanExec (trim rest) = cleanExec rest := by
  rw [cleanExec, cleanExec, trim_eq_self (trimmed_trim rest)]

theorem parseFrom_trim (rest : Str) (info : DockerfileInfo) :
    parseFrom (trim rest) info = parseFrom rest info := by
  rw [parseFrom, parseFrom, splitWhitespace_trim]

/-- A line is split at the end of its keyword, and padding is not seen. -/
theorem parseLine_keyword {st : ParseState} {pad keyword body : Str} (hpad : Blank pad)
    (hkeyword : IsWord keyword) (hnotComment : keyword.head? ≠ some '#')
    (hbody : ∀ c ∈ body.head?, isWhitespace c = true) :
    parseLine st (pad ++ (keyword ++ body)) = instruct st keyword (trim body) := by
  obtain ⟨rest, htrim, hrest, hargs⟩ := hkeyword.trim_append hbody
  have hne : keyword ++ rest ≠ [] := by simp [hkeyword.nonempty]
  have hhead : (keyword ++ rest).head? ≠ some '#' := by
    rwa [List.head?_append_of_ne_nil _ hkeyword.nonempty]
  rw [parseLine, trim_blank_append hpad, htrim, if_neg (not_or.mpr ⟨hne, hhead⟩), splitKeyword,
    hkeyword.takeWhile hrest, hkeyword.dropWhile hrest, hargs]

theorem parseLine_blank {st : ParseState} {pad : Str} (hpad : Blank pad) :
    parseLine st pad = st := by
  rw [parseLine, if_pos (.inl (trim_blank hpad))]

theorem parseLine_comment {st : ParseState} {pad text : Str} (hpad : Blank pad) :
    parseLine st (pad ++ '#' :: text) = st := by
  rw [parseLine, if_pos]
  rw [trim_blank_append hpad]
  exact .inr (head?_trim_cons (by decide) text)

theorem not_isWhitespace_of_isAlpha {c : Char} (h : c.isAlpha = true) :
    isWhitespace c = false := by
  have hrange : 65 ≤ c.toNat ∧ c.toNat ≤ 90 ∨ 97 ≤ c.toNat ∧ c.toNat ≤ 122 := by
    delta Char.isAlpha Char.isUpper Char.isLower at h
    simp only [Bool.or_eq_true, Bool.and_eq_true, decide_eq_true_eq, ge_iff_le,
      UInt32.le_iff_toNat_le] at h
    exact h
  simp only [isWhitespace, Bool.or_eq_false_iff, Bool.and_eq_false_iff, decide_eq_false_iff_not,
    beq_eq_false_iff_ne]
  omega

theorem isAlpha_of_isUpper_toUpper {c : Char} (h : c.toUpper.isUpper = true) :
    c.isAlpha = true := by
  unfold Char.toUpper at h
  delta Char.isAlpha
  split at h
  · rename_i hlower
    have hisLower : c.isLower = true := by
      delta Char.isLower
      simpa only [Bool.and_eq_true, decide_eq_true_eq] using hlower
    rw [hisLower, Bool.or_true]
  · rw [h, Bool.true_or]

/-- The keywords are words, and none starts a comment. -/
theorem Spelled.isWord {keyword : Str} (s : Spelled keyword) (h : keyword ≠ [])
    (hupper : ∀ c ∈ keyword, c.isUpper = true) :
    IsWord s.chars ∧ s.chars.head? ≠ some '#' := by
  have hchars : ∀ c ∈ s.chars, isWhitespace c = false ∧ c ≠ '#' := by
    intro c hc
    have halpha : c.isAlpha = true := by
      refine isAlpha_of_isUpper_toUpper (hupper _ ?_)
      rw [← s.same]
      exact List.mem_map_of_mem hc
    refine ⟨not_isWhitespace_of_isAlpha halpha, ?_⟩
    rintro rfl
    exact absurd halpha (by decide)
  refine ⟨⟨fun hnil => h ?_, fun c hc => (hchars c hc).1⟩, fun hhash => ?_⟩
  · rw [← s.same, hnil, List.map_nil]
  · exact (hchars '#' (List.mem_of_head? hhash)).2 rfl

/-! ### The state behind the lines -/

/-- What a stage is taken for: the first word behind `FROM`. -/
def From.first (f : From) : Str := (f.flags.head?.map fun flag => flag.2.chars).getD f.image.chars

/-- The state says what the lines read so far say, with the first word of each stage. -/
structure Says (entries : List Entry) (st : ParseState) : Prop where
  staged : st.info.stageImages = ((stages entries).map From.first).take maxStages
  haveEntrypoint : st.haveEntrypoint = decide (entries.filterMap Entry.entrypoint? ≠ [])
  runs : st.info.entrypoint = ((command entries).map cleanExec).getD []

theorem says_nil : Says [] ⟨.default, false⟩ := ⟨rfl, rfl, rfl⟩

theorem filterMap_concat {β : Type} (f : Entry → Option β) (entries : List Entry) (entry : Entry) :
    (entries ++ [entry]).filterMap f = entries.filterMap f ++ (f entry).toList := by
  rw [List.filterMap_append]
  cases h : f entry with
  | none => rw [List.filterMap_cons_none h]; rfl
  | some b => rw [List.filterMap_cons_some h]; rfl

theorem filterMap_concat_none {β : Type} {f : Entry → Option β} {entry : Entry}
    (h : f entry = none) (entries : List Entry) :
    (entries ++ [entry]).filterMap f = entries.filterMap f := by
  rw [filterMap_concat, h, Option.toList_none, List.append_nil]

/-- A line that is neither a stage nor a command leaves what the state says. -/
theorem Says.skip {entries : List Entry} {st st' : ParseState} {entry : Entry}
    (h : Says entries st) (hstage : entry.stage? = none) (hentrypoint : entry.entrypoint? = none)
    (hcmd : entry.cmd? = none) (hstages : st'.info.stageImages = st.info.stageImages)
    (hhave : st'.haveEntrypoint = st.haveEntrypoint)
    (hrun : st'.info.entrypoint = st.info.entrypoint) : Says (entries ++ [entry]) st' := by
  constructor
  · rw [hstages, h.staged, stages, stages, filterMap_concat_none hstage]
  · rw [hhave, h.haveEntrypoint, filterMap_concat_none hentrypoint]
  · rw [hrun, h.runs, command, command, filterMap_concat_none hentrypoint,
      filterMap_concat_none hcmd]

theorem instruct_from {st : ParseState} {keyword : Str} (rest : Str)
    (h : keyword.map Char.toUpper = "FROM".toList) :
    instruct st keyword rest = { st with info := parseFrom rest st.info } := by
  simp only [instruct, h, if_true]

theorem instruct_entrypoint {st : ParseState} {keyword : Str} (rest : Str)
    (h : keyword.map Char.toUpper = "ENTRYPOINT".toList) : instruct st keyword rest =
      { info := { st.info with entrypoint := cleanExec rest }, haveEntrypoint := true } := by
  simp [instruct, h]

theorem instruct_cmd {st : ParseState} {keyword : Str} (rest : Str)
    (h : keyword.map Char.toUpper = "CMD".toList) : instruct st keyword rest =
      if st.haveEntrypoint then st
      else { st with info := { st.info with entrypoint := cleanExec rest } } := by
  cases hhave : st.haveEntrypoint <;> simp [instruct, h, hhave]

/-- Any other instruction keeps the stages and the command. -/
theorem instruct_other (st : ParseState) {keyword : Str} (rest : Str)
    (h : keyword.map Char.toUpper ∉ ["FROM".toList, "ENTRYPOINT".toList, "CMD".toList]) :
    (instruct st keyword rest).info.stageImages = st.info.stageImages ∧
      (instruct st keyword rest).haveEntrypoint = st.haveEntrypoint ∧
        (instruct st keyword rest).info.entrypoint = st.info.entrypoint := by
  simp only [List.mem_cons, List.not_mem_nil, or_false, not_or] at h
  obtain ⟨hfrom, hentrypoint, hcmd⟩ := h
  have hcopy (info : DockerfileInfo) : (parseCopy rest info).stageImages = info.stageImages ∧
      (parseCopy rest info).entrypoint = info.entrypoint := by
    simp only [parseCopy]
    split_ifs <;> exact ⟨rfl, rfl⟩
  simp only [instruct, hfrom, hentrypoint, hcmd, if_false, false_and]
  split_ifs
  · exact ⟨rfl, rfl, rfl⟩
  · exact ⟨rfl, rfl, rfl⟩
  · exact ⟨(hcopy st.info).1, rfl, (hcopy st.info).2⟩
  · exact ⟨rfl, rfl, rfl⟩

theorem Gap.append_starts (gap : Gap) (s : Str) :
    ∃ c rest, gap.chars ++ s = c :: rest ∧ isWhitespace c = true := by
  obtain ⟨c, rest, heq⟩ := List.exists_cons_of_ne_nil gap.nonempty
  refine ⟨c, rest ++ s, by rw [heq, List.cons_append], gap.blank c ?_⟩
  rw [heq]
  exact List.mem_cons_self

theorem head?_spaced (words : List (Gap × Word)) :
    ∀ c ∈ (spaced words).head?, isWhitespace c = true := by
  cases words with
  | nil => simp [spaced]
  | cons w words =>
      obtain ⟨c, rest, heq, hc⟩ := w.1.append_starts (w.2.chars ++ spaced words)
      rw [spaced, List.flatMap_cons, List.append_assoc]
      rw [spaced] at heq
      rw [heq]
      rintro d ⟨⟩
      exact hc

/-- White space separates the words. -/
theorem splitWhitespace_spaced (words : List (Gap × Word)) :
    splitWhitespace (spaced words) = words.map fun w => w.2.chars := by
  induction words with
  | nil => rfl
  | cons w words ih =>
      have hsplit : spaced (w :: words) = w.1.chars ++ (w.2.chars ++ spaced words) := by
        rw [spaced, List.flatMap_cons, List.append_assoc]
        rfl
      rw [hsplit, splitWhitespace_blank_append w.1.blank,
        splitWhitespace_word_append w.2.isWord (head?_spaced words), ih, List.map_cons]

theorem From.words_ne_nil (f : From) : f.words ≠ [] := by simp [words]

/-- The first word of the arguments is what a stage is taken for. -/
theorem head?_splitWhitespace_words (f : From) :
    (splitWhitespace (spaced f.words)).head? = some f.first := by
  rw [splitWhitespace_spaced, From.words, From.first]
  cases f.flags <;> rfl

/-- A line with an instruction is read by its keyword. -/
theorem parseLine_instruction {st : ParseState} (pad trail : Pad) {keyword body : Str}
    (hkeyword : IsWord keyword ∧ keyword.head? ≠ some '#')
    (hbody : ∃ c rest, body = c :: rest ∧ isWhitespace c = true) :
    parseLine st (pad.chars ++ (keyword ++ body ++ trail.chars)) =
      instruct st keyword (trim body) := by
  rw [List.append_assoc, parseLine_keyword pad.blank hkeyword.1 hkeyword.2,
    trim_append_blank body trail.blank]
  obtain ⟨c, rest, rfl, hc⟩ := hbody
  rintro d ⟨⟩
  exact hc

/-- The value of a command is read without the white space in front. -/
theorem cleanExec_gap (gap : Gap) (value : Str) :
    cleanExec (trim (gap.chars ++ value)) = cleanExec value := by
  rw [trim_blank_append gap.blank, cleanExec_trim]

/-- Adding to a bounded list until it is full keeps the first elements. -/
theorem take_concat {β : Type} (n : Nat) (l : List β) (x : β) :
    (if (l.take n).length ≥ n then l.take n else l.take n ++ [x]) = (l ++ [x]).take n := by
  rw [List.length_take]
  by_cases h : n ≤ l.length
  · rw [Nat.min_eq_left h, if_pos (Nat.le_refl n), List.take_append_of_le_length h]
  · rw [if_neg (by omega), List.take_of_length_le (by omega),
      List.take_of_length_le (by rw [List.length_append, List.length_singleton]; omega)]

theorem says_stage {entries : List Entry} {st : ParseState} (h : Says entries st)
    (pad trail : Pad) (keyword : Spelled "FROM".toList) (args : From) :
    Says (entries ++ [Entry.instruction pad (.stage keyword args) trail])
      { st with info := parseFrom (spaced args.words) st.info } := by
  have hkept : (parseFrom (spaced args.words) st.info).entrypoint = st.info.entrypoint := by
    rw [parseFrom, head?_splitWhitespace_words]
    split <;> rfl
  have hstages : (parseFrom (spaced args.words) st.info).stageImages =
      if st.info.stageImages.length ≥ maxStages then st.info.stageImages
      else st.info.stageImages ++ [args.first] := by
    rw [parseFrom, head?_splitWhitespace_words]
    split <;> rfl
  constructor
  · have hconcat : stages (entries ++ [Entry.instruction pad (.stage keyword args) trail]) =
        stages entries ++ [args] := filterMap_concat Entry.stage? entries _
    rw [hstages, h.staged, take_concat, hconcat, List.map_append, List.map_singleton]
  · rw [h.haveEntrypoint, filterMap_concat_none rfl]
  · rw [hkept, h.runs, command, command, filterMap_concat_none rfl,
      filterMap_concat_none rfl]

theorem says_entrypoint {entries : List Entry} {st : ParseState} (h : Says entries st)
    (pad trail : Pad) (keyword : Spelled "ENTRYPOINT".toList) (gap : Gap) (value : Line) :
    Says (entries ++ [Entry.instruction pad (.entrypoint keyword gap value) trail])
      { info := { st.info with entrypoint := cleanExec value.chars }, haveEntrypoint := true } := by
  have hconcat : (entries ++ [Entry.instruction pad (.entrypoint keyword gap value) trail]).filterMap
      Entry.entrypoint? = entries.filterMap Entry.entrypoint? ++ [value.chars] :=
    filterMap_concat Entry.entrypoint? entries _
  constructor
  · rw [stages, filterMap_concat_none rfl]
    exact h.staged
  · rw [hconcat]
    simp
  · rw [command, hconcat, List.getLast?_append]
    rfl

theorem says_cmd {entries : List Entry} {st : ParseState} (h : Says entries st)
    (pad trail : Pad) (keyword : Spelled "CMD".toList) (gap : Gap) (value : Line) :
    Says (entries ++ [Entry.instruction pad (.cmd keyword gap value) trail])
      (if st.haveEntrypoint then st
        else { st with info := { st.info with entrypoint := cleanExec value.chars } }) := by
  have hentrypoints : (entries ++ [Entry.instruction pad (.cmd keyword gap value) trail]).filterMap
      Entry.entrypoint? = entries.filterMap Entry.entrypoint? := filterMap_concat_none rfl entries
  have hcmds : (entries ++ [Entry.instruction pad (.cmd keyword gap value) trail]).filterMap
      Entry.cmd? = entries.filterMap Entry.cmd? ++ [value.chars] :=
    filterMap_concat Entry.cmd? entries _
  have hcommand : command (entries ++ [Entry.instruction pad (.cmd keyword gap value) trail]) =
      if st.haveEntrypoint then command entries else some value.chars := by
    rw [command, command, hentrypoints, hcmds, h.haveEntrypoint]
    by_cases hnone : entries.filterMap Entry.entrypoint? = []
    · simp [hnone]
    · obtain ⟨front, last, heq⟩ := List.eq_nil_or_concat _ |>.resolve_left hnone
      simp [heq]
  constructor
  · rw [stages, filterMap_concat_none rfl]
    split <;> exact h.staged
  · rw [hentrypoints, ← h.haveEntrypoint]
    split <;> rfl
  · rw [hcommand]
    split
    · exact h.runs
    · rfl

/-- What one line does to what the state says. -/
theorem Says.step {entries : List Entry} {st : ParseState} (h : Says entries st) (entry : Entry) :
    Says (entries ++ [entry]) (parseLine st entry.render) := by
  cases entry with
  | blank pad =>
      rw [Entry.render, parseLine_blank pad.blank]
      exact h.skip rfl rfl rfl rfl rfl rfl
  | comment pad text =>
      rw [Entry.render, parseLine_comment pad.blank]
      exact h.skip rfl rfl rfl rfl rfl rfl
  | instruction pad i trail =>
      cases i with
      | stage keyword args =>
          rw [Entry.render, Instruction.render,
            parseLine_instruction pad trail (keyword.isWord (by decide) (by decide)) ?_,
            instruct_from _ keyword.same, parseFrom_trim]
          · exact says_stage h pad trail keyword args
          · obtain ⟨w, rest, hwords⟩ := List.exists_cons_of_ne_nil args.words_ne_nil
            rw [spaced, hwords, List.flatMap_cons, List.append_assoc]
            exact w.1.append_starts _
      | entrypoint keyword gap value =>
          rw [Entry.render, Instruction.render,
            parseLine_instruction pad trail (keyword.isWord (by decide) (by decide))
              (gap.append_starts value.chars),
            instruct_entrypoint _ keyword.same, cleanExec_gap]
          exact says_entrypoint h pad trail keyword gap value
      | cmd keyword gap value =>
          rw [Entry.render, Instruction.render,
            parseLine_instruction pad trail (keyword.isWord (by decide) (by decide))
              (gap.append_starts value.chars),
            instruct_cmd _ keyword.same, cleanExec_gap]
          exact says_cmd h pad trail keyword gap value
      | other keyword gap value notComment notThese =>
          rw [Entry.render, Instruction.render,
            parseLine_instruction pad trail ⟨keyword.isWord, notComment⟩
              (gap.append_starts value.chars)]
          obtain ⟨hstages, hhave, hrun⟩ :=
            instruct_other st (trim (gap.chars ++ value.chars)) notThese
          exact h.skip rfl rfl rfl hstages hhave hrun

theorem says_run (entries : List Entry) :
    Says entries ((entries.map Entry.render).foldl parseLine ⟨.default, false⟩) := by
  induction entries using List.reverseRecOn with
  | nil => exact says_nil
  | append_singleton entries entry ih =>
      rw [List.map_append, List.foldl_append]
      exact ih.step entry

/-! ### The text of a file -/

theorem IsWord.noBreak {word : Str} (h : IsWord word) : '\n' ∉ word :=
  fun hmem => absurd (h.solid _ hmem) (by decide)

theorem Instruction.noBreak (i : Instruction) : '\n' ∉ i.render := by
  have hargs {keyword : Str} (hkeyword : IsWord keyword) (gap : Gap) (value : Line) :
      '\n' ∉ keyword ++ (gap.chars ++ value.chars) := by
    simp [IsWord.noBreak hkeyword, gap.noBreak, value.noBreak]
  cases i with
  | stage keyword args =>
      have hwords : '\n' ∉ spaced args.words := by
        intro hmem
        obtain ⟨w, -, hw⟩ := List.mem_flatMap.mp hmem
        exact (List.mem_append.mp hw).elim w.1.noBreak (IsWord.noBreak w.2.isWord)
      simp [Instruction.render, hwords,
        IsWord.noBreak (keyword.isWord (by decide) (by decide)).1]
  | entrypoint keyword gap value =>
      exact hargs (keyword.isWord (by decide) (by decide)).1 gap value
  | cmd keyword gap value => exact hargs (keyword.isWord (by decide) (by decide)).1 gap value
  | other keyword gap value _ _ => exact hargs keyword.isWord gap value

theorem Entry.noBreak (entry : Entry) : '\n' ∉ entry.render := by
  cases entry with
  | blank pad => exact pad.noBreak
  | comment pad text => simp [Entry.render, pad.noBreak, text.noBreak]
  | instruction pad i trail => simp [Entry.render, pad.noBreak, i.noBreak, trail.noBreak]

/-- The loop runs over the lines of the file as they were written. -/
theorem foldl_lines_render (entries : List Entry) (st : ParseState) :
    (lines (render entries)).foldl parseLine st = (entries.map Entry.render).foldl parseLine st := by
  rw [render, lines_unlines, List.foldl_map]
  · simp only [parseLine_stripCr]
  · intro l hl
    obtain ⟨entry, -, rfl⟩ := List.mem_map.mp hl
    exact entry.noBreak

/-! ### What ships -/

theorem From.first_eq_image_iff (f : From) : f.first = f.image.chars ↔ f.flags = [] := by
  rw [first]
  cases hflags : f.flags with
  | nil => exact iff_of_true rfl rfl
  | cons flag flags =>
      refine iff_of_false (fun heq => f.image_plain ?_) (List.cons_ne_nil flag flags)
      have hdashed := f.flags_dashed flag (by rw [hflags]; exact List.mem_cons_self)
      have hflag : flag.2.chars = f.image.chars := heq
      rwa [hflag] at hdashed

/-- A bounded list ends like the whole one where the bound cuts nothing off, or where it cuts behind
an equal element. -/
theorem getLast?_take_iff {β : Type} (n : Nat) (l : List β) :
    (l.take (n + 1)).getLast? = l.getLast? ↔ l.length ≤ n + 1 ∨ l[n]? = l.getLast? := by
  rw [List.getLast?_take, if_neg (Nat.succ_ne_zero n), Nat.add_sub_cancel]
  by_cases hlen : n < l.length
  · rw [List.getElem?_eq_getElem hlen, Option.some_or]
    refine ⟨.inr, fun h => h.elim (fun hle => ?_) id⟩
    rw [List.getLast?_eq_getElem?, show l.length - 1 = n by omega, List.getElem?_eq_getElem hlen]
  · rw [List.getElem?_eq_none (Nat.le_of_not_lt hlen), Option.none_or]
    exact iff_of_true rfl (.inl (by omega))

/-- None of the stages that are recorded has a flag, and all are recorded or the last recorded one
has the image of the last one. -/
structure Shipped (entries : List Entry) : Prop where
  unflagged : ∀ f ∈ (stages entries).take maxStages, f.flags = []
  last : (stages entries).length ≤ maxStages ∨
    (images entries)[maxStages - 1]? = (images entries).getLast?

/-- What the parser returns, with the first word behind each `FROM`. -/
theorem parse_render (entries : List Entry) :
    (stages entries = [] ∧ parse (render entries) = none) ∨
      ∃ info, parse (render entries) = some info ∧ stages entries ≠ [] ∧
        info.stageImages = ((stages entries).map From.first).take maxStages ∧
        some info.baseImage = info.stageImages.getLast? ∧
        info.entrypoint = ((command entries).map cleanExec).getD [] := by
  have hstate := says_run entries
  have hnil : ((stages entries).map From.first).take maxStages = [] ↔ stages entries = [] := by
    simp [maxStages]
  rw [parse, foldl_lines_render]
  generalize (entries.map Entry.render).foldl parseLine ⟨.default, false⟩ = st at hstate
  by_cases hnone : st.info.stageImages = []
  · exact .inl ⟨hnil.mp (hstate.staged ▸ hnone), if_pos hnone⟩
  · refine .inr ⟨_, if_neg hnone, fun hempty => hnone ?_, hstate.staged, ?_, hstate.runs⟩
    · rw [hstate.staged]
      exact hnil.mpr hempty
    · change some (st.info.stageImages.getLast?.getD []) = st.info.stageImages.getLast?
      rw [List.getLast?_eq_some_getLast hnone, Option.getD_some]

/-- The parser finds what ships exactly if no recorded stage has a flag and the last recorded one is
the last one. -/
theorem found_iff (entries : List Entry) :
    Found entries (parse (render entries)) ↔ Shipped entries := by
  have hsame : ((stages entries).map From.first).take maxStages = (images entries).take maxStages ↔
      ∀ f ∈ (stages entries).take maxStages, f.flags = [] := by
    rw [images, ← List.map_take, ← List.map_take, List.map_inj_left]
    exact forall₂_congr fun f _ => f.first_eq_image_iff
  have hlast : ((images entries).take maxStages).getLast? = (images entries).getLast? ↔
      (stages entries).length ≤ maxStages ∨
        (images entries)[maxStages - 1]? = (images entries).getLast? := by
    have hlen : (images entries).length = (stages entries).length := List.length_map _
    rw [← hlen]
    exact getLast?_take_iff 15 (images entries)
  obtain ⟨hnone, hparse⟩ | ⟨info, hparse, hne, hstages, hbase, hrun⟩ := parse_render entries
  · rw [hparse]
    refine iff_of_true ⟨by simp [hnone], by simp, by simp, by simp⟩ ⟨?_, .inl ?_⟩
    · simp [hnone]
    · simp [hnone]
  · rw [hparse]
    constructor
    · intro hfound
      have htake := hfound.staged info rfl
      rw [hstages] at htake
      refine ⟨hsame.mp htake, hlast.mp ?_⟩
      rw [← hfound.ships info rfl, hbase, hstages, htake]
    · rintro ⟨hunflagged, hlasts⟩
      have htake := hsame.mpr hunflagged
      refine ⟨iff_of_true rfl hne, ?_, ?_, ?_⟩
      · rintro _ ⟨⟩
        rw [hbase, hstages, htake]
        exact hlast.mpr hlasts
      · rintro _ ⟨⟩
        exact hstages.trans htake
      · rintro _ ⟨⟩
        exact hrun

/-- A file with one stage whose platform is given. -/
def platformGiven : List Entry :=
  let gap : Gap := ⟨⟨[' '], by decide, by decide⟩, by decide⟩
  let none : Pad := ⟨[], by decide, by decide⟩
  [.instruction none
    (.stage ⟨"FROM".toList, by decide⟩
      { flags := [(gap, ⟨"--platform=linux/amd64".toList, by decide, by decide⟩)]
        gap := gap
        image := ⟨"alpine".toList, by decide, by decide⟩
        stageName := []
        flags_dashed := by decide
        image_plain := by decide })
    none]

/-- The flag is taken for the image. -/
theorem platformGiven_not_found : ¬ ∀ entries : List Entry, Found entries (parse (render entries)) := by
  intro h
  exact absurd ((h platformGiven).ships _ rfl) (by decide)

end AutomatisedPipeline.Dockerfile
