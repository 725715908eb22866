import AutomatisedPipeline.Indexer.Specifiers
import Mathlib.Data.List.TakeWhile

/-!
White space around a text and between the words of one: what `str::trim` and
`str::split_whitespace` make of a text that is written with padding.
-/

namespace AutomatisedPipeline.Text

open Indexer (trim trimStart trimMatches splitWhitespace dropWhile_eq_self trimMatches_append)

/-- White space only. -/
def Blank (s : Str) : Prop := ∀ c ∈ s, isWhitespace c = true

instance (s : Str) : Decidable (Blank s) := inferInstanceAs (Decidable (∀ c ∈ s, _))

/-- A text that neither starts nor ends in white space. -/
structure Trimmed (s : Str) : Prop where
  head : ∀ c ∈ s.head?, isWhitespace c = false
  last : ∀ c ∈ s.getLast?, isWhitespace c = false

theorem Blank.append {a b : Str} (ha : Blank a) (hb : Blank b) : Blank (a ++ b) :=
  fun c hc => (List.mem_append.mp hc).elim (ha c) (hb c)

theorem Blank.dropWhile {s : Str} (h : Blank s) : s.dropWhile isWhitespace = [] :=
  List.dropWhile_eq_nil_iff.mpr h

theorem Blank.dropWhile_append {a : Str} (h : Blank a) (s : Str) :
    (a ++ s).dropWhile isWhitespace = s.dropWhile isWhitespace :=
  List.dropWhile_append_of_pos h

theorem Blank.reverse {s : Str} (h : Blank s) : Blank s.reverse :=
  fun c hc => h c (List.mem_reverse.mp hc)

/-! ### Trimming -/

theorem trim_eq_self {s : Str} (h : Trimmed s) : trim s = s := by
  cases s with
  | nil => rfl
  | cons c s =>
      have htrim := @trimMatches_append isWhitespace (c :: s) [] (List.cons_ne_nil c s) h.head
        h.last (by simp)
      rwa [List.append_nil] at htrim

theorem trim_blank {s : Str} (h : Blank s) : trim s = [] := by
  rw [trim, trimMatches, h.dropWhile]
  rfl

theorem blank_of_trim_eq_nil {s : Str} (h : trim s = []) : Blank s := by
  have hback : Blank (s.dropWhile isWhitespace).reverse :=
    List.dropWhile_eq_nil_iff.mp (List.reverse_eq_nil_iff.mp h)
  intro c hc
  rw [← List.takeWhile_append_dropWhile (p := isWhitespace) (l := s)] at hc
  rcases List.mem_append.mp hc with hc | hc
  · exact List.mem_takeWhile_imp hc
  · exact hback c (List.mem_reverse.mpr hc)

theorem trim_blank_append {a : Str} (h : Blank a) (s : Str) : trim (a ++ s) = trim s := by
  rw [trim, trim, trimMatches, trimMatches, h.dropWhile_append]

theorem trim_append_blank (s : Str) {b : Str} (h : Blank b) : trim (s ++ b) = trim s := by
  by_cases hall : Blank s
  · rw [trim_blank hall, trim_blank (hall.append h)]
  · have hfront : (s ++ b).dropWhile isWhitespace = s.dropWhile isWhitespace ++ b := by
      rw [List.dropWhile_append, if_neg]
      rw [List.isEmpty_iff, List.dropWhile_eq_nil_iff]
      exact hall
    rw [trim, trim, trimMatches, trimMatches, hfront, List.reverse_append,
      h.reverse.dropWhile_append]

/-- A text is what is left of it after trimming, with white space around it. -/
theorem exists_padding (s : Str) : ∃ a b, Blank a ∧ Blank b ∧ s = a ++ (trim s ++ b) := by
  refine ⟨s.takeWhile isWhitespace, ((s.dropWhile isWhitespace).reverse.takeWhile
    isWhitespace).reverse, fun c hc => List.mem_takeWhile_imp hc, ?_, ?_⟩
  · exact fun c hc => List.mem_takeWhile_imp (List.mem_reverse.mp hc)
  · rw [trim, trimMatches, ← List.reverse_append, List.takeWhile_append_dropWhile,
      List.reverse_reverse, List.takeWhile_append_dropWhile]

theorem head_dropWhile_isWhitespace {s : Str} :
    ∀ c ∈ (s.dropWhile isWhitespace).head?, isWhitespace c = false := by
  intro c hc
  have h := List.head?_dropWhile_not isWhitespace s
  rw [Option.mem_def.mp hc] at h
  exact h

theorem trimmed_trim (s : Str) : Trimmed (trim s) := by
  constructor
  · intro c hc
    have hpre : trim s <+: s.dropWhile isWhitespace := by
      rw [trim, trimMatches, ← List.reverse_suffix, List.reverse_reverse]
      exact List.dropWhile_suffix _
    obtain ⟨rest, hrest⟩ := hpre
    refine head_dropWhile_isWhitespace (s := s) c ?_
    rw [← hrest, Option.mem_def, List.head?_append, Option.mem_def.mp hc]
    rfl
  · intro c hc
    rw [trim, trimMatches, List.getLast?_reverse] at hc
    exact head_dropWhile_isWhitespace c hc

/-- The first character of a text that does not start in white space stays the first one. -/
theorem head?_trim_cons {c : Char} (h : isWhitespace c = false) (s : Str) :
    (trim (c :: s)).head? = some c := by
  obtain ⟨a, b, ha, hb, heq⟩ := exists_padding (c :: s)
  have hhead : a = [] := by
    cases a with
    | nil => rfl
    | cons d a =>
        obtain rfl := (List.cons.inj heq).1
        exact absurd (ha c List.mem_cons_self) (by rw [h]; decide)
  rw [hhead, List.nil_append] at heq
  cases htrim : trim (c :: s) with
  | nil =>
      rw [htrim] at heq
      have hblank : Blank (c :: s) := heq ▸ hb
      exact absurd (hblank c List.mem_cons_self) (by rw [h]; decide)
  | cons d core =>
      rw [htrim] at heq
      rw [(List.cons.inj heq).1]
      rfl

/-- One carriage return more or less is not seen after trimming. -/
theorem trim_stripCr (s : Str) : trim (stripCr s) = trim s := by
  rw [stripCr]
  split
  · rename_i hlast
    obtain ⟨front, rfl⟩ := List.getLast?_eq_some_iff.mp hlast
    rw [List.dropLast_concat, trim_append_blank front (by decide : Blank ['\r'])]
  · rfl

/-! ### Words -/

/-- A text without white space that is not empty. -/
structure IsWord (s : Str) : Prop where
  nonempty : s ≠ []
  solid : ∀ c ∈ s, isWhitespace c = false

theorem IsWord.trimmed {s : Str} (h : IsWord s) : Trimmed s :=
  ⟨fun c hc => h.solid c (List.mem_of_mem_head? hc),
    fun c hc => h.solid c (List.mem_of_getLast? hc)⟩

theorem IsWord.takeWhile {word rest : Str} (h : IsWord word)
    (hrest : ∀ c ∈ rest.head?, isWhitespace c = true) :
    (word ++ rest).takeWhile (¬ isWhitespace ·) = word := by
  rw [List.takeWhile_append_of_pos (by simpa using h.solid)]
  cases rest with
  | nil => simp
  | cons c rest => simp [hrest c rfl]

theorem IsWord.dropWhile {word rest : Str} (h : IsWord word)
    (hrest : ∀ c ∈ rest.head?, isWhitespace c = true) :
    (word ++ rest).dropWhile (¬ isWhitespace ·) = rest := by
  rw [List.dropWhile_append_of_pos (by simpa using h.solid)]
  cases rest with
  | nil => rfl
  | cons c rest => simp [hrest c rfl]

/-- Trimming a word and what follows it trims what follows. -/
theorem IsWord.trim_append {word body : Str} (h : IsWord word)
    (hbody : ∀ c ∈ body.head?, isWhitespace c = true) :
    ∃ rest, trim (word ++ body) = word ++ rest ∧ (∀ c ∈ rest.head?, isWhitespace c = true) ∧
      trimStart rest = trim body := by
  obtain ⟨a, b, ha, hb, heq⟩ := exists_padding body
  have htrimmed := trimmed_trim body
  cases hcore : trim body with
  | nil =>
      refine ⟨[], ?_, by simp, rfl⟩
      have hblank : Blank body := by
        rw [heq, hcore]
        exact ha.append hb
      rw [trim_append_blank word hblank, List.append_nil, trim_eq_self h.trimmed]
  | cons c core =>
      rw [hcore] at heq htrimmed
      have hane : a ≠ [] := by
        rintro rfl
        have hws : isWhitespace c = true := hbody c (by rw [heq]; rfl)
        exact absurd (htrimmed.head c rfl) (by rw [hws]; decide)
      refine ⟨a ++ c :: core, ?_, ?_, ?_⟩
      · have hsplit : word ++ body = (word ++ (a ++ c :: core)) ++ b := by
          rw [heq]
          simp only [List.append_assoc]
        rw [hsplit, trim_append_blank _ hb]
        refine trim_eq_self ⟨?_, ?_⟩
        · rw [List.head?_append_of_ne_nil _ h.nonempty]
          exact h.trimmed.head
        · rw [List.getLast?_append_of_ne_nil _ (by simp),
            List.getLast?_append_of_ne_nil _ (by simp)]
          exact htrimmed.last
      · intro d hd
        rw [List.head?_append_of_ne_nil _ hane] at hd
        exact ha d (List.mem_of_mem_head? hd)
      · rw [trimStart, ha.dropWhile_append]
        exact dropWhile_eq_self htrimmed.head

@[simp] theorem splitWhitespace_nil : splitWhitespace [] = [] := rfl

theorem splitWhitespace_cons_blank {c : Char} (h : isWhitespace c = true) (s : Str) :
    splitWhitespace (c :: s) = splitWhitespace s := by
  rw [splitWhitespace, List.splitOnP_cons_eq_if_modifyHead, if_pos h, List.filter_cons_of_neg (by simp)]
  rfl

theorem splitWhitespace_blank_append {a : Str} (h : Blank a) (s : Str) :
    splitWhitespace (a ++ s) = splitWhitespace s := by
  induction a with
  | nil => rfl
  | cons c a ih =>
      rw [List.cons_append, splitWhitespace_cons_blank (h c List.mem_cons_self)]
      exact ih fun d hd => h d (List.mem_cons_of_mem c hd)

/-- A word is the first one where white space or nothing follows. -/
theorem splitWhitespace_word_append {word rest : Str} (hword : IsWord word)
    (hrest : ∀ c ∈ rest.head?, isWhitespace c = true) :
    splitWhitespace (word ++ rest) = word :: splitWhitespace rest := by
  cases rest with
  | nil =>
      rw [List.append_nil, splitWhitespace, List.splitOnP_eq_singleton hword.solid,
        List.filter_cons_of_pos (by simpa using hword.nonempty)]
      rfl
  | cons c rest =>
      rw [splitWhitespace, List.splitOnP_append_cons_of_forall_mem hword.solid c (hrest c rfl),
        List.filter_cons_of_pos (by simpa using hword.nonempty),
        splitWhitespace_cons_blank (hrest c rfl)]
      rfl

theorem splitWhitespace_append_blank (s : Str) {b : Str} (h : Blank b) :
    splitWhitespace (s ++ b) = splitWhitespace s := by
  cases b with
  | nil => rw [List.append_nil]
  | cons c b =>
      have hrest : splitWhitespace b = [] := by
        rw [← List.append_nil b]
        exact splitWhitespace_blank_append (fun d hd => h d (List.mem_cons_of_mem c hd)) []
      rw [splitWhitespace, List.splitOnP_append_cons s b (h c List.mem_cons_self),
        List.filter_append]
      exact (congrArg _ hrest).trans (List.append_nil _)

/-- Padding around a text does not change its words. -/
theorem splitWhitespace_trim (s : Str) : splitWhitespace (trim s) = splitWhitespace s := by
  obtain ⟨a, b, ha, hb, hs⟩ := exists_padding s
  conv_rhs => rw [hs, splitWhitespace_blank_append ha, splitWhitespace_append_blank _ hb]

end AutomatisedPipeline.Text
