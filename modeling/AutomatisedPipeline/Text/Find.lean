import AutomatisedPipeline.Text.Basic

/-!
Substring search: `str::find`, `str::rfind` and `str::replace` for a string
pattern.
-/

namespace AutomatisedPipeline.Text

/-- `str::find`: the position of the first occurrence of `needle`. -/
def find (needle : Str) : Str → Option Nat
  | [] => if needle.isEmpty then some 0 else none
  | c :: rest =>
      if needle.isPrefixOf (c :: rest) then some 0 else (find needle rest).map (· + 1)

/-- `str::rfind`: the position of the last occurrence of `needle`. -/
def rfind (needle : Str) : Str → Option Nat
  | [] => if needle.isEmpty then some 0 else none
  | c :: rest =>
      match rfind needle rest with
      | some i => some (i + 1)
      | none => if needle.isPrefixOf (c :: rest) then some 0 else none

/-- `str::replace` of a pattern that is not empty: every occurrence, from the
left. -/
def replace (needle value : Str) : Str → Str
  | [] => []
  | c :: rest =>
      if needle.isPrefixOf (c :: rest) then
        value ++ replace needle value (rest.drop (needle.length - 1))
      else c :: replace needle value rest
termination_by s => s.length

/-- `rsplit(sep).next()`: the text after the last occurrence of `sep`, or all of it. -/
def afterLast (sep s : Str) : Str :=
  match rfind sep s with
  | some i => s.drop (i + sep.length)
  | none => s

/-- `split(sep).next()`: the text before the first occurrence of `sep`, or all of it. -/
def beforeFirst (sep s : Str) : Str :=
  match find sep s with
  | some i => s.take i
  | none => s

/-- `str::split_once` for a text: the texts around its first occurrence. -/
def splitOnceAt (sep s : Str) : Option (Str × Str) :=
  (find sep s).map fun i => (s.take i, s.drop (i + sep.length))

/-- `str::rsplit_once` for a character: the texts around its last occurrence. -/
def rsplitOnce (sep : Char) (s : Str) : Option (Str × Str) :=
  (rfind [sep] s).map fun i => (s.take i, s.drop (i + 1))

/-- `str::rsplit_once` for a text: the texts around its last occurrence. -/
def rsplitOnceAt (sep s : Str) : Option (Str × Str) :=
  (rfind sep s).map fun i => (s.take i, s.drop (i + sep.length))

/-- An occurrence lies within the text. -/
theorem find_le {needle s : Str} {i : Nat} (h : find needle s = some i) :
    i + needle.length ≤ s.length := by
  induction s generalizing i with
  | nil =>
      simp only [find] at h
      split at h
      · rename_i hempty
        obtain rfl : 0 = i := by simpa using h
        simp [List.isEmpty_iff.mp hempty]
      · cases h
  | cons c rest ih =>
      simp only [find] at h
      split at h
      · rename_i hbegins
        obtain rfl : 0 = i := by simpa using h
        have := (List.isPrefixOf_iff_prefix.mp hbegins).length_le
        omega
      · obtain ⟨j, hj, rfl⟩ := Option.map_eq_some_iff.mp h
        have := ih hj
        simp only [List.length_cons]
        omega

/-- An occurrence is found exactly at the first position where the text goes on with
the pattern. -/
theorem find_eq_some_iff {needle s : Str} {i : Nat} :
    find needle s = some i ↔
      i ≤ s.length ∧ needle <+: s.drop i ∧ ∀ j < i, ¬ needle <+: s.drop j := by
  induction s generalizing i with
  | nil =>
      rw [find]
      split
      · rename_i hempty
        rw [List.isEmpty_iff.mp hempty]
        constructor
        · intro h
          obtain rfl : 0 = i := by simpa using h
          simp
        · rintro ⟨hle, -, -⟩
          obtain rfl : i = 0 := by simpa using hle
          rfl
      · rename_i hne
        have hnil : ¬ needle <+: [] := by
          rwa [List.prefix_nil, ← List.isEmpty_iff]
        simp [hnil]
  | cons c rest ih =>
      rw [find]
      split
      · rename_i hbegins
        have hpre := List.isPrefixOf_iff_prefix.mp hbegins
        constructor
        · intro h
          obtain rfl : 0 = i := by simpa using h
          exact ⟨Nat.zero_le _, hpre, fun j hj => absurd hj (Nat.not_lt_zero j)⟩
        · rintro ⟨-, -, hfirst⟩
          rcases i with _ | i
          · rfl
          · exact absurd hpre (hfirst 0 i.succ_pos)
      · rename_i hbegins
        have hpre : ¬ needle <+: c :: rest := fun h =>
          hbegins (List.isPrefixOf_iff_prefix.mpr h)
        rw [Option.map_eq_some_iff]
        constructor
        · rintro ⟨j, hj, rfl⟩
          obtain ⟨hle, hat, hfirst⟩ := ih.mp hj
          refine ⟨by simpa using hle, by simpa using hat, ?_⟩
          intro k hk
          rcases k with _ | k
          · simpa using hpre
          · simpa using hfirst k (by omega)
        · rintro ⟨hle, hat, hfirst⟩
          rcases i with _ | i
          · exact absurd hat hpre
          · refine ⟨i, ih.mpr ⟨by simpa using hle, by simpa using hat, ?_⟩, rfl⟩
            intro k hk
            simpa using hfirst (k + 1) (by omega)

/-- The pattern is found exactly where it occurs. -/
theorem find_eq_none_iff {needle s : Str} : find needle s = none ↔ ¬ needle <:+: s := by
  induction s with
  | nil =>
      rw [find, List.infix_nil, ← List.isEmpty_iff]
      split <;> simp [*]
  | cons c rest ih =>
      rw [find, List.infix_cons_iff, not_or, ← ih]
      split
      · rename_i hbegins
        simp [List.isPrefixOf_iff_prefix.mp hbegins]
      · rename_i hbegins
        have hpre : ¬ needle <+: c :: rest := fun h =>
          hbegins (List.isPrefixOf_iff_prefix.mpr h)
        simp [hpre]

theorem rfind_le {needle s : Str} {i : Nat} (h : rfind needle s = some i) :
    i + needle.length ≤ s.length := by
  induction s generalizing i with
  | nil =>
      rw [rfind] at h
      split at h
      · rename_i hempty
        cases h
        rw [List.isEmpty_iff.mp hempty]
        exact Nat.le_refl 0
      · cases h
  | cons c rest ih =>
      rw [rfind] at h
      cases hrest : rfind needle rest with
      | some j =>
          rw [hrest] at h
          cases h
          have hj := ih hrest
          rw [List.length_cons]
          omega
      | none =>
          rw [hrest] at h
          change (if needle.isPrefixOf (c :: rest) then some 0 else none) = some i at h
          split at h
          · rename_i hpre
            cases h
            have hlen := (List.isPrefixOf_iff_prefix.mp hpre).length_le
            rwa [Nat.zero_add]
          · cases h

theorem rfind_eq_none_iff {needle s : Str} : rfind needle s = none ↔ ¬ needle <:+: s := by
  induction s with
  | nil =>
      rw [rfind, List.infix_nil, ← List.isEmpty_iff]
      split <;> simp [*]
  | cons c rest ih =>
      rw [rfind, List.infix_cons_iff, not_or, ← ih]
      cases rfind needle rest with
      | some i => simp
      | none => simp

/-- An occurrence that is found is one of the text. -/
theorem exists_of_rfind {needle s : Str} {i : Nat} (h : rfind needle s = some i) :
    ∃ a b, s = a ++ (needle ++ b) ∧ i = a.length := by
  induction s generalizing i with
  | nil =>
      rw [rfind] at h
      split at h
      · rename_i hempty
        cases h
        exact ⟨[], [], by rw [List.isEmpty_iff.mp hempty]; rfl, rfl⟩
      · cases h
  | cons c rest ih =>
      rw [rfind] at h
      split at h
      · rename_i j hj
        cases h
        obtain ⟨a, b, rfl, rfl⟩ := ih hj
        exact ⟨c :: a, b, rfl, rfl⟩
      · split at h
        · rename_i hpre
          cases h
          obtain ⟨b, hb⟩ := List.isPrefixOf_iff_prefix.mp hpre
          exact ⟨[], b, hb.symm, rfl⟩
        · cases h

/-- No occurrence begins later than the one that is found. -/
theorem le_rfind (needle a b : Str) :
    ∃ i, rfind needle (a ++ (needle ++ b)) = some i ∧ a.length ≤ i := by
  induction a with
  | nil =>
      have hin : needle <:+: needle ++ b := (List.prefix_append needle b).isInfix
      obtain ⟨i, hi⟩ := Option.ne_none_iff_exists'.mp (mt rfind_eq_none_iff.mp (not_not.mpr hin))
      exact ⟨i, hi, Nat.zero_le i⟩
  | cons c a ih =>
      obtain ⟨i, hi, hle⟩ := ih
      exact ⟨i + 1, by rw [List.cons_append, rfind, hi], Nat.succ_le_succ hle⟩

theorem rfind_eq_none_of_notMem {c : Char} {s : Str} (h : c ∉ s) : rfind [c] s = none :=
  rfind_eq_none_iff.mpr fun hin => h (List.singleton_infix_iff c s |>.mp hin)

/-- The last occurrence of a character is the one behind which it does not occur. -/
theorem rfind_append {c : Char} {b : Str} (h : c ∉ b) (a : Str) :
    rfind [c] (a ++ c :: b) = some a.length := by
  induction a with
  | nil =>
      rw [List.nil_append, rfind, rfind_eq_none_of_notMem h]
      simp [List.isPrefixOf]
  | cons d a ih => rw [List.cons_append, rfind, ih, List.length_cons]

/-- A character that occurs has a last occurrence. -/
theorem exists_last_of_mem {c : Char} {s : Str} (h : c ∈ s) : ∃ a b, s = a ++ c :: b ∧ c ∉ b := by
  induction s with
  | nil => cases h
  | cons d s ih =>
      by_cases hs : c ∈ s
      · obtain ⟨a, b, rfl, hb⟩ := ih hs
        exact ⟨d :: a, b, rfl, hb⟩
      · obtain rfl := (List.mem_cons.mp h).resolve_right hs
        exact ⟨[], s, rfl, hs⟩

/-! ### The text around the last occurrence of a character -/

theorem rsplitOnce_append {sep : Char} {b : Str} (h : sep ∉ b) (a : Str) :
    rsplitOnce sep (a ++ sep :: b) = some (a, b) := by
  rw [rsplitOnce, rfind_append h]
  simp

theorem rsplitOnce_eq_none {sep : Char} {s : Str} (h : sep ∉ s) : rsplitOnce sep s = none := by
  rw [rsplitOnce, rfind_eq_none_of_notMem h]
  rfl

/-! ### The text after the last occurrence -/

theorem afterLast_of_not_infix {sep s : Str} (h : ¬ sep <:+: s) : afterLast sep s = s := by
  rw [afterLast, rfind_eq_none_iff.mpr h]

theorem afterLast_cons_of_later {sep rest : Str} (c : Char) (h : sep <:+: rest) :
    afterLast sep (c :: rest) = afterLast sep rest := by
  have hsome : rfind sep rest ≠ none := fun hnone => rfind_eq_none_iff.mp hnone h
  obtain ⟨i, hi⟩ := Option.ne_none_iff_exists'.mp hsome
  rw [afterLast, afterLast, rfind, hi]
  simp only [Nat.add_right_comm i 1, List.drop_succ_cons]

theorem afterLast_cons_of_here {sep rest : Str} {c : Char} (hnone : ¬ sep <:+: rest)
    (h : sep <+: c :: rest) : afterLast sep (c :: rest) = (c :: rest).drop sep.length := by
  rw [afterLast, rfind, rfind_eq_none_iff.mpr hnone]
  simp only [List.isPrefixOf_iff_prefix.mpr h, if_true, Nat.zero_add]

/-- What stands before a text with the separator in it does not matter. -/
theorem afterLast_append_of_infix {sep y : Str} (h : sep <:+: y) (x : Str) :
    afterLast sep (x ++ y) = afterLast sep y := by
  induction x with
  | nil => rfl
  | cons c x ih =>
      rw [List.cons_append, afterLast_cons_of_later c (h.trans (List.suffix_append x y).isInfix), ih]

/-- What follows `sep` is what is found after the last occurrence, if `sep` does not begin
again behind its first character. -/
theorem afterLast_append {sep y : Str} (hsep : sep ≠ []) (h : ¬ sep <:+: (sep ++ y).tail)
    (x : Str) : afterLast sep (x ++ (sep ++ y)) = y := by
  induction x with
  | nil =>
      obtain ⟨c, sep', rfl⟩ := List.exists_cons_of_ne_nil hsep
      have hrest : ¬ c :: sep' <:+: sep' ++ y := h
      rw [List.nil_append, List.cons_append, afterLast_cons_of_here hrest
        (List.prefix_append (c :: sep') y)]
      simp
  | cons c x ih =>
      rw [List.cons_append, afterLast_cons_of_later c, ih]
      exact ⟨x, y, by rw [List.append_assoc]⟩

/-- The separator does not occur, or the text ends in it and what is found after it. -/
theorem afterLast_cases {sep : Str} (hsep : sep ≠ []) (s : Str) :
    (¬ sep <:+: s ∧ afterLast sep s = s) ∨
      ∃ x, s = x ++ (sep ++ afterLast sep s) ∧ ¬ sep <:+: (sep ++ afterLast sep s).tail := by
  induction s with
  | nil =>
      have hnil : ¬ sep <:+: [] := by rwa [List.infix_nil]
      exact Or.inl ⟨hnil, afterLast_of_not_infix hnil⟩
  | cons c rest ih =>
      by_cases hin : sep <:+: rest
      · rw [afterLast_cons_of_later c hin]
        rcases ih with ⟨hnone, -⟩ | ⟨x, hx, htail⟩
        · exact absurd hin hnone
        · exact Or.inr ⟨c :: x, by rw [List.cons_append, ← hx], htail⟩
      · by_cases hpre : sep <+: c :: rest
        · rw [afterLast_cons_of_here hin hpre]
          have hsplit : sep ++ (c :: rest).drop sep.length = c :: rest :=
            List.prefix_iff_eq_append.mp hpre
          exact Or.inr ⟨[], by rw [List.nil_append, hsplit], by rwa [hsplit]⟩
        · have hnone : ¬ sep <:+: c :: rest := by
            rw [List.infix_cons_iff]
            exact fun h => h.elim hpre hin
          exact Or.inl ⟨hnone, afterLast_of_not_infix hnone⟩

/-- What is found after the last occurrence is an end of the text. -/
theorem afterLast_suffix {sep : Str} (hsep : sep ≠ []) (s : Str) : afterLast sep s <:+ s := by
  rcases afterLast_cases hsep s with ⟨-, heq⟩ | ⟨x, hx, -⟩
  · rw [heq]
  · exact ⟨x ++ sep, by rw [List.append_assoc, ← hx]⟩

/-- The separator does not occur after its last occurrence. -/
theorem not_infix_afterLast {sep : Str} (hsep : sep ≠ []) (s : Str) :
    ¬ sep <:+: afterLast sep s := by
  rcases afterLast_cases hsep s with ⟨hnone, heq⟩ | ⟨x, -, htail⟩
  · rwa [heq]
  · obtain ⟨c, sep', rfl⟩ := List.exists_cons_of_ne_nil hsep
    exact fun h => htail (h.trans (List.suffix_append sep' _).isInfix)

end AutomatisedPipeline.Text
