import AutomatisedPipeline.Text.Basic

/-!
Lines and decimal numbers of the standard library: `str::lines` with the text it
undoes, and `str::parse::<u64>` on what `Display` prints.
-/

namespace AutomatisedPipeline.Text

/-! ### Lines -/

/-- Text without a line feed. -/
structure Line where
  chars : Str
  noBreak : '\n' ∉ chars
deriving DecidableEq

/-- One carriage return in front of the line feed belongs to the terminator. -/
def stripCr (s : Str) : Str := if s.getLast? = some '\r' then s.dropLast else s

/-- The lines of `s`, the first of which starts with `acc`. What follows the
last line feed is a line when it is not empty, and keeps its carriage return. -/
def linesFrom (acc : Str) : Str → List Str
  | [] => if acc = [] then [] else [acc]
  | c :: rest =>
      if c = '\n' then stripCr acc :: linesFrom [] rest else linesFrom (acc ++ [c]) rest

/-- `str::lines`. -/
def lines (s : Str) : List Str := linesFrom [] s

/-- Each line behind a line feed of its own. -/
def unlines (ls : List Str) : Str := ls.flatMap fun l => l ++ ['\n']

theorem linesFrom_append {acc l : Str} (hl : '\n' ∉ l) (rest : Str) :
    linesFrom acc (l ++ '\n' :: rest) = stripCr (acc ++ l) :: linesFrom [] rest := by
  induction l generalizing acc with
  | nil => simp [linesFrom]
  | cons c l ih =>
      rw [List.mem_cons, not_or] at hl
      rw [List.cons_append, linesFrom, if_neg fun heq => hl.1 heq.symm, ih hl.2,
        List.append_assoc, List.singleton_append]

/-- Reading back what `unlines` wrote loses a carriage return at the end of a
line, and nothing else. -/
theorem lines_unlines {ls : List Str} (h : ∀ l ∈ ls, '\n' ∉ l) :
    lines (unlines ls) = ls.map stripCr := by
  induction ls with
  | nil => rfl
  | cons l ls ih =>
      have hl : '\n' ∉ l := h l List.mem_cons_self
      have htail := ih fun l' hl' => h l' (List.mem_cons_of_mem _ hl')
      have hsplit : unlines (l :: ls) = l ++ '\n' :: unlines ls := by simp [unlines]
      rw [lines, hsplit, linesFrom_append hl, List.nil_append, List.map_cons, ← htail, lines]

theorem stripCr_isPrefix (s : Str) : stripCr s <+: s := by
  rw [stripCr]
  split
  · exact s.dropLast_prefix
  · exact List.prefix_refl s

theorem mem_of_mem_linesFrom {acc s l : Str} (hl : l ∈ linesFrom acc s) {c : Char} (hc : c ∈ l) :
    c ∈ acc ∨ c ∈ s := by
  induction s generalizing acc with
  | nil =>
      rw [linesFrom] at hl
      split at hl
      · cases hl
      · rw [List.mem_singleton.mp hl] at hc
        exact .inl hc
  | cons d s ih =>
      rw [linesFrom] at hl
      split at hl
      · rcases List.mem_cons.mp hl with rfl | hl
        · exact .inl ((stripCr_isPrefix acc).subset hc)
        · rcases ih hl with hnil | hs
          · cases hnil
          · exact .inr (List.mem_cons_of_mem d hs)
      · rcases ih hl with hacc | hs
        · rcases List.mem_append.mp hacc with hacc | hd
          · exact .inl hacc
          · exact .inr (List.mem_singleton.mp hd ▸ List.mem_cons_self)
        · exact .inr (List.mem_cons_of_mem d hs)

/-- What a line holds, its text holds. -/
theorem mem_of_mem_lines {s l : Str} (hl : l ∈ lines s) {c : Char} (hc : c ∈ l) : c ∈ s :=
  (mem_of_mem_linesFrom hl hc).resolve_left List.not_mem_nil

@[simp] theorem stripCr_nil : stripCr [] = [] := rfl

theorem stripCr_cons {c : Char} (hc : c ≠ '\r') (s : Str) : stripCr (c :: s) = c :: stripCr s := by
  cases s with
  | nil => simp [stripCr, hc]
  | cons d s =>
      simp only [stripCr, List.getLast?_cons_cons, List.dropLast_cons_cons]
      split <;> rfl

theorem stripCr_of_not_mem {s : Str} (h : '\r' ∉ s) : stripCr s = s := by
  rw [stripCr, if_neg]
  intro hlast
  exact h (List.mem_of_getLast? hlast)

theorem stripCr_append {p : Str} (hp : '\r' ∉ p) (s : Str) : stripCr (p ++ s) = p ++ stripCr s := by
  induction p with
  | nil => rfl
  | cons c p ih =>
      rw [List.mem_cons, not_or] at hp
      rw [List.cons_append, stripCr_cons (Ne.symm hp.1), ih hp.2, List.cons_append]

/-- A prefix without a carriage return is not touched. -/
theorem isPrefixOf_stripCr {p : Str} (hp : '\r' ∉ p) (s : Str) :
    p.isPrefixOf (stripCr s) = p.isPrefixOf s := by
  induction p generalizing s with
  | nil => simp
  | cons c p ih =>
      rw [List.mem_cons, not_or] at hp
      cases s with
      | nil => simp
      | cons d s =>
          by_cases hd : d = '\r'
          · subst hd
            have hne : (c == '\r') = false := by simpa using Ne.symm hp.1
            cases s with
            | nil => simp [stripCr, List.isPrefixOf, hne]
            | cons e s =>
                simp only [stripCr, List.getLast?_cons_cons, List.dropLast_cons_cons]
                split <;> simp [List.isPrefixOf, hne]
          · rw [stripCr_cons hd, List.isPrefixOf_cons_cons, List.isPrefixOf_cons_cons, ih hp.2]

/-- `str::strip_prefix` finds nothing where a shorter prefix is missing. -/
theorem isPrefixOf?_eq_none {p q s : Str} (h : p.isPrefixOf s = false) (hpq : p <+: q) :
    q.isPrefixOf? s = none := by
  rw [← Option.not_isSome_iff_eq_none, List.isSome_isPrefixOf?_eq_isPrefixOf,
    List.isPrefixOf_iff_prefix]
  intro hq
  rw [List.isPrefixOf_iff_prefix.mpr (hpq.trans hq)] at h
  cases h

theorem isPrefixOf_eq_false {p q s : Str} (h : p.isPrefixOf s = false) (hpq : p <+: q) :
    q.isPrefixOf s = false := by
  rw [← List.isSome_isPrefixOf?_eq_isPrefixOf, isPrefixOf?_eq_none h hpq, Option.isSome_none]

/-! ### Decimal numbers -/

/-- An optional plus sign is skipped. -/
def skipPlus : Str → Str
  | '+' :: rest => rest
  | s => s

/-- `str::parse::<u64>`: at least one digit, for a number that fits. -/
def parseU64 (s : Str) : Option Nat :=
  let body := skipPlus s
  if body ≠ [] ∧ body.all Char.isDigit ∧ Nat.ofDigitChars 10 body 0 < 2 ^ 64 then
    some (Nat.ofDigitChars 10 body 0)
  else none

/-- The decimal digits `Display` prints. -/
abbrev digits (n : Nat) : Str := Nat.toDigits 10 n

theorem isDigit_of_mem_digits {n : Nat} {c : Char} (h : c ∈ digits n) : c.isDigit = true :=
  Nat.isDigit_of_mem_toDigits (by decide) (by decide) h

theorem digits_injective {m n : Nat} (h : digits m = digits n) : m = n := by
  rw [← Nat.ofDigitChars_ten_toDigits (n := m), ← Nat.ofDigitChars_ten_toDigits (n := n)]
  exact congrArg (Nat.ofDigitChars 10 · 0) h

theorem parseU64_digits {n : Nat} (h : n < 2 ^ 64) : parseU64 (digits n) = some n := by
  have hne : digits n ≠ [] := Nat.toDigits_ne_nil
  have hall : (digits n).all Char.isDigit = true :=
    List.all_eq_true.mpr fun _ => isDigit_of_mem_digits
  have hvalue : Nat.ofDigitChars 10 (digits n) 0 = n :=
    Nat.ofDigitChars_toDigits (by decide) (by decide)
  have hskip : skipPlus (digits n) = digits n := by
    unfold skipPlus
    split
    · rename_i rest heq
      have hplus : Char.isDigit '+' = true :=
        isDigit_of_mem_digits (n := n) (heq ▸ List.mem_cons_self)
      exact absurd hplus (by decide)
    · rfl
  simp only [parseU64, hskip, hvalue]
  rw [if_pos ⟨hne, hall, h⟩]

end AutomatisedPipeline.Text
