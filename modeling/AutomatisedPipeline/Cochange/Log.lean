import AutomatisedPipeline.Cochange.State
import AutomatisedPipeline.Store.Literal

/-!
What `cochange.rs` reads of a `git log` (`read_commit_files`), and the log of a list of
commits.

Git is outside the source: a history is a set of commits with their parents, and the
text of a log is the text git documents for the format string of the source. Git quotes
a path that holds a control character, so no field of a log holds one.
-/

namespace AutomatisedPipeline.Cochange

open Text

/-! ### The source's definitions -/

/-- The record separator in front of a commit, and the separator behind its sha. -/
def recordSeparator : Char := Char.ofNat 0x1e

def unitSeparator : Char := Char.ofNat 0x1f

/-- `strip_prefix_path`. -/
def stripPrefixPath (path pathPrefix : Str) : Option Str :=
  if pathPrefix = [] then some path else pathPrefix.isPrefixOf? path

/-- The timestamp that `read_commit_files` reads off a header. -/
def headerTs (header : Str) : Int :=
  (((header.splitOn unitSeparator)[1]?).bind fun t =>
    (Store.parseI64 (Indexer.trim t)).toOption).getD 0

/-- The files that `read_commit_files` keeps of the lines behind a header. -/
def keptFiles (pathPrefix : Str) (lines : List Str) : List Str :=
  (lines.filter fun l => decide (Indexer.trim l ≠ [])).filterMap (stripPrefixPath · pathPrefix)

/-- A commit with no file under the subtree is dropped. -/
def commitFilesOf (files : List Str) (ts : Int) : Option CommitFiles :=
  if files = [] then none else some { files := files, ts := ts }

/-- The loop body of `read_commit_files`. -/
def readChunk (pathPrefix chunk : Str) : Option CommitFiles :=
  let chunk := Indexer.trimMatches (· == '\n') chunk
  if chunk = [] then none
  else
    match lines chunk with
    | [] => none
    | header :: rest => commitFilesOf (keptFiles pathPrefix rest) (headerTs header)

/-- `read_commit_files` on the output of its command, `none` when the command failed. -/
def readCommitFiles (out : Option Str) (pathPrefix : Str) : List CommitFiles :=
  match out with
  | none => []
  | some out => (out.splitOn recordSeparator).filterMap (readChunk pathPrefix)

/-! ### Histories and their logs -/

/-- A text without control characters. -/
def Plain (s : Str) : Prop := ∀ c ∈ s, 32 ≤ c.toNat

instance (s : Str) : Decidable (Plain s) := List.decidableBAll (fun c : Char => 32 ≤ c.toNat) s

/-- A history: commits with their parents, and what a log shows of them. -/
structure History where
  Commit : Type
  parents : Commit → List Commit
  sha : Commit → Str
  authorTime : Commit → Str
  paths : Commit → List Str
  sha_injective : Function.Injective sha
  sha_hex : ∀ c, sha c ≠ [] ∧ ∀ ch ∈ sha c, ch.isAlphanum = true
  authorTime_plain : ∀ c, Plain (authorTime c)
  paths_plain : ∀ c, ∀ path ∈ paths c, path ≠ [] ∧ Plain path

namespace History

variable (H : History)

/-- The commit `c` is reachable from `head`. -/
def Reaches (head c : H.Commit) : Prop := Relation.ReflTransGen (fun a b => b ∈ H.parents a) head c

/-- A merge, which `--no-merges` leaves out. -/
def IsMerge (c : H.Commit) : Prop := 2 ≤ (H.parents c).length

/-- The header of a commit in a log. -/
def header (c : H.Commit) : Str := H.sha c ++ unitSeparator :: H.authorTime c

/-- What a log shows of a commit, up to the line feeds behind it. -/
def entry (c : H.Commit) : Str := H.header c ++ (H.paths c).flatMap ('\n' :: ·)

/-- The text of a log of the commits. -/
inductive LogText : List H.Commit → Str → Prop where
  | nil : LogText [] []
  | cons {c : H.Commit} {cs : List H.Commit} {text : Str} (feeds : Nat) : LogText cs text →
      LogText (c :: cs) (recordSeparator :: (H.entry c ++ List.replicate feeds '\n') ++ text)

/-- What mining counts a commit for. -/
def commitFiles (pathPrefix : Str) (c : H.Commit) : Option CommitFiles :=
  commitFilesOf (keptFiles pathPrefix (H.paths c)) (headerTs (H.header c))

end History

/-! ### A log reads back -/

theorem Plain.not_mem {s : Str} (h : Plain s) {c : Char} (hc : c.toNat < 32) : c ∉ s := by
  intro hmem
  have := h c hmem
  omega

/-- A text that is a line of its own. -/
structure OneLine (s : Str) : Prop where
  ne_nil : s ≠ []
  no_feed : '\n' ∉ s
  no_return : '\r' ∉ s

theorem Plain.oneLine {s : Str} (h : Plain s) (hne : s ≠ []) : OneLine s :=
  ⟨hne, h.not_mem (by decide), h.not_mem (by decide)⟩

theorem linesFrom_last {acc l : Str} (hl : '\n' ∉ l) (hne : acc ++ l ≠ []) :
    linesFrom acc l = [acc ++ l] := by
  induction l generalizing acc with
  | nil =>
      rw [List.append_nil] at hne ⊢
      rw [linesFrom, if_neg hne]
  | cons c l ih =>
      rw [List.mem_cons, not_or] at hl
      rw [linesFrom, if_neg (Ne.symm hl.1), ih hl.2 (by simp), List.append_assoc,
        List.singleton_append]

/-- Lines behind one another, each but the first behind a line feed. -/
theorem lines_feeds {first : Str} {rest : List Str} (hfirst : OneLine first)
    (hrest : ∀ l ∈ rest, OneLine l) :
    lines (first ++ rest.flatMap ('\n' :: ·)) = first :: rest := by
  induction rest generalizing first with
  | nil =>
      have hne : [] ++ first ≠ [] := hfirst.ne_nil
      rw [List.flatMap_nil, List.append_nil, lines, linesFrom_last hfirst.no_feed hne,
        List.nil_append]
  | cons l rest ih =>
      have hl := ih (hrest l List.mem_cons_self) fun l' hl' => hrest l' (List.mem_cons_of_mem _ hl')
      rw [List.flatMap_cons, List.cons_append, lines, linesFrom_append hfirst.no_feed,
        List.nil_append, stripCr_of_not_mem hfirst.no_return]
      exact congrArg (first :: ·) hl

section Entry

variable {H : History}

theorem sha_plain (c : H.Commit) : Plain (H.sha c) := by
  intro ch hch
  have h := (H.sha_hex c).2 ch hch
  have hrange := Lexical.toNat_of_word (c := ch) (by simp [Lexical.isWordChar, h])
  omega

/-- A header holds no control character but the unit separator. -/
theorem not_mem_header (c : H.Commit) {ch : Char} (h : ch.toNat < 32) (hne : ch ≠ unitSeparator) :
    ch ∉ H.header c := by
  rw [History.header, List.mem_append, List.mem_cons]
  rintro (hmem | heq | hmem)
  · exact (sha_plain c).not_mem h hmem
  · exact hne heq
  · exact (H.authorTime_plain c).not_mem h hmem

theorem oneLine_header (c : H.Commit) : OneLine (H.header c) :=
  ⟨by simp [History.header], not_mem_header c (by decide) (by decide),
    not_mem_header c (by decide) (by decide)⟩

theorem oneLine_path {c : H.Commit} {path : Str} (h : path ∈ H.paths c) : OneLine path :=
  (H.paths_plain c path h).2.oneLine (H.paths_plain c path h).1

/-- An entry is a header and lines, none of which is empty. -/
theorem getLast?_flatMap_feeds {first : Str} {rest : List Str} (hfirst : OneLine first)
    (hrest : ∀ l ∈ rest, OneLine l) :
    ∀ ch ∈ (first ++ rest.flatMap ('\n' :: ·)).getLast?, ch ≠ '\n' := by
  induction rest generalizing first with
  | nil =>
      rintro ch hch rfl
      rw [List.flatMap_nil, List.append_nil] at hch
      exact hfirst.no_feed (List.mem_of_getLast? hch)
  | cons l rest ih =>
      have hl := ih (hrest l List.mem_cons_self) fun l' hl' => hrest l' (List.mem_cons_of_mem _ hl')
      have hne : l ++ rest.flatMap ('\n' :: ·) ≠ [] := by
        simp [(hrest l List.mem_cons_self).ne_nil]
      have hfront : first ++ (l :: rest).flatMap ('\n' :: ·) =
          (first ++ ['\n']) ++ (l ++ rest.flatMap ('\n' :: ·)) := by simp
      rw [hfront, List.getLast?_append_of_ne_nil _ hne]
      exact hl

/-- An entry starts and ends with no line feed. -/
theorem entry_ends (c : H.Commit) : H.entry c ≠ [] ∧ (∀ ch ∈ (H.entry c).head?, ch ≠ '\n') ∧
    ∀ ch ∈ (H.entry c).getLast?, ch ≠ '\n' := by
  have hheader := oneLine_header c
  refine ⟨by simp [History.entry, hheader.ne_nil], ?_,
    getLast?_flatMap_feeds hheader fun path hpath => oneLine_path hpath⟩
  rintro ch hch rfl
  rw [History.entry, List.head?_append_of_ne_nil _ hheader.ne_nil] at hch
  exact hheader.no_feed (List.mem_of_head? hch)

theorem recordSeparator_not_mem_entry (c : H.Commit) (feeds : Nat) :
    recordSeparator ∉ H.entry c ++ List.replicate feeds '\n' := by
  rw [History.entry, List.mem_append, List.mem_append, List.mem_flatMap]
  rintro ((hmem | ⟨path, hpath, hmem⟩) | hmem)
  · exact not_mem_header c (by decide) (by decide) hmem
  · rcases List.mem_cons.mp hmem with heq | hmem
    · exact absurd heq (by decide)
    · exact (H.paths_plain c path hpath).2.not_mem (by decide) hmem
  · exact absurd (List.eq_of_mem_replicate hmem) (by decide)

/-- Reading back the log of a commit gives what mining counts it for. -/
theorem readChunk_entry (pathPrefix : Str) (c : H.Commit) (feeds : Nat) :
    readChunk pathPrefix (H.entry c ++ List.replicate feeds '\n') = H.commitFiles pathPrefix c := by
  obtain ⟨hne, hhead, hlast⟩ := entry_ends c
  have hlines : lines (H.entry c) = H.header c :: H.paths c :=
    lines_feeds (oneLine_header c) fun path hpath => oneLine_path hpath
  have htrim : Indexer.trimMatches (· == '\n') (H.entry c ++ List.replicate feeds '\n') =
      H.entry c :=
    Indexer.trimMatches_append hne (fun ch hch => beq_eq_false_iff_ne.mpr (hhead ch hch))
      (fun ch hch => beq_eq_false_iff_ne.mpr (hlast ch hch))
      (fun ch hch => beq_iff_eq.mpr (List.eq_of_mem_replicate hch))
  rw [readChunk, htrim]
  simp only [if_neg hne, hlines]
  rfl

/-- Reading back the log of a list of commits. -/
theorem readCommitFiles_logText (pathPrefix : Str) {commits : List H.Commit} {text : Str}
    (h : H.LogText commits text) :
    readCommitFiles (some text) pathPrefix = commits.filterMap (H.commitFiles pathPrefix) := by
  have main : ∀ front : Str, recordSeparator ∉ front →
      ((front ++ text).splitOn recordSeparator).filterMap (readChunk pathPrefix) =
        (readChunk pathPrefix front).toList ++ commits.filterMap (H.commitFiles pathPrefix) := by
    induction h with
    | nil =>
        intro front hfront
        rw [List.append_nil, List.splitOn_eq_singleton hfront]
        cases h : readChunk pathPrefix front <;> simp [h]
    | @cons c cs text feeds _ ih =>
        intro front hfront
        have hrest := ih _ (recordSeparator_not_mem_entry c feeds)
        rw [List.cons_append, List.splitOn_append_cons_self_of_not_mem hfront]
        have hsplit : ∀ l : List Str, (front :: l).filterMap (readChunk pathPrefix) =
            (readChunk pathPrefix front).toList ++ l.filterMap (readChunk pathPrefix) := by
          intro l
          cases h : readChunk pathPrefix front <;> simp [h]
        rw [hsplit, hrest, readChunk_entry]
        cases h : H.commitFiles pathPrefix c <;> simp [h]
  have hempty : readChunk pathPrefix [] = none := rfl
  have hall := main [] List.not_mem_nil
  rwa [hempty] at hall

end Entry

end AutomatisedPipeline.Cochange
