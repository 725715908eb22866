import Mathlib.Data.Char
import Mathlib.Tactic

/-!
Text as the source reads it. A Rust `&str` is a sequence of Unicode scalar
values, held as UTF-8. The scanners of the program test its bytes for ASCII
characters only, and no byte of a multi-byte character is ASCII, so a scan over
the bytes and a scan over the characters take the same branches. Text is
therefore a list of characters here and a byte position is a character
position.

This module names nothing of the repository: it holds the standard library's
character classes and the list facts the scanners share.
-/

namespace AutomatisedPipeline.Text

/-- Membership in a list, decided by the equality of its elements. -/
scoped instance decidableMem {α : Type} [DecidableEq α] (a : α) (l : List α) :
    Decidable (a ∈ l) := inferInstance

-- The quantifiers over a text stand before the whole library's instances that ask all characters.

scoped instance (priority := 1100) decidableForallMem {α : Type} (p : α → Prop) [DecidablePred p]
    (l : List α) : Decidable (∀ a ∈ l, p a) := List.decidableBAll p l

scoped instance (priority := 1100) decidableForallMemOption {α : Type} (p : α → Prop)
    [DecidablePred p] (o : Option α) : Decidable (∀ a ∈ o, p a) := Option.decidableForallMem o

scoped instance (priority := 1100) decidableExistsMemOption {α : Type} (p : α → Prop)
    [DecidablePred p] (o : Option α) : Decidable (∃ a ∈ o, p a) := Option.decidableExistsMem o

/-- A Rust string slice. -/
abbrev Str := List Char

/-- `u8::is_ascii_whitespace`: space, tab, line feed, form feed and carriage
return. The vertical tab is not in it. -/
def isAsciiWhitespace (c : Char) : Bool :=
  c == ' ' || c == '\t' || c == '\n' || c == Char.ofNat 12 || c == '\r'

/-- `char::is_whitespace`: the Unicode property `White_Space`. -/
def isWhitespace (c : Char) : Bool :=
  let n := c.toNat
  (9 ≤ n && n ≤ 13) || n == 32 || n == 0x85 || n == 0xA0 || n == 0x1680 ||
    (0x2000 ≤ n && n ≤ 0x200A) || n == 0x2028 || n == 0x2029 || n == 0x202F ||
    n == 0x205F || n == 0x3000

/-- `str::split_once` at a character: the text before and after its first
occurrence. -/
def splitOnce (sep : Char) : Str → Option (Str × Str)
  | [] => none
  | c :: rest =>
      if c = sep then some ([], rest)
      else (splitOnce sep rest).map fun p => (c :: p.1, p.2)

/-- `str::trim` keeps nothing exactly when every character is white space. -/
def trimIsEmpty (s : Str) : Bool := s.all isWhitespace

/-- `str::eq_ignore_ascii_case`. -/
def eqIgnoreAsciiCase (a b : Str) : Bool := a.map Char.toLower == b.map Char.toLower

/-- `<[_]>::join`. -/
def join (sep : Str) : List Str → Str
  | [] => []
  | [part] => part
  | part :: parts => part ++ (sep ++ join sep parts)

/-- `Path::components`, without the root and a leading `.`: neither empty
components nor `.` name a directory of their own. -/
def components (path : Str) : List Str :=
  (path.splitOn '/').filter fun part => part ≠ [] ∧ part ≠ ['.']

/-- What a reader that consumed at least one symbol leaves of `s`. -/
abbrev Left {α : Type} (s : List α) : Type := { rest : List α // rest.length < s.length }

/-- A reader's result with the text it leaves as a plain list. -/
def forget {α β : Type} {s : List α} (r : Option (β × Left s)) : Option (β × List α) :=
  r.map fun p => (p.1, p.2.1)

@[simp] theorem forget_none {α β : Type} {s : List α} :
    forget (none : Option (β × Left s)) = none := rfl

@[simp] theorem forget_some {α β : Type} {s : List α} (b : β) (rest : Left s) :
    forget (some (b, rest)) = some (b, rest.1) := rfl

theorem splitOnce_none {sep : Char} {s : Str} (h : splitOnce sep s = none) : sep ∉ s := by
  induction s with
  | nil => simp
  | cons c rest ih =>
      simp only [splitOnce] at h
      split at h
      · cases h
      · rename_i hne
        simp only [List.mem_cons, not_or]
        exact ⟨fun heq => hne heq.symm, ih (by simpa using h)⟩

theorem splitOnce_eq_none {sep : Char} {s : Str} (h : sep ∉ s) : splitOnce sep s = none := by
  induction s with
  | nil => rfl
  | cons c rest ih =>
      rw [List.mem_cons, not_or] at h
      rw [splitOnce, if_neg (Ne.symm h.1), ih h.2, Option.map_none]

/-- What occurs in a joined text occurs in the separator or in a part. -/
theorem of_mem_join {sep : Str} {parts : List Str} {c : Char} (h : c ∈ join sep parts) :
    c ∈ sep ∨ ∃ part ∈ parts, c ∈ part := by
  fun_induction join sep parts with
  | case1 => cases h
  | case2 part => exact .inr ⟨part, List.mem_cons_self, h⟩
  | case3 part parts _ ih =>
      obtain h | h := List.mem_append.mp h
      · exact .inr ⟨part, List.mem_cons_self, h⟩
      · obtain h | h := List.mem_append.mp h
        · exact .inl h
        · exact (ih h).imp_right fun ⟨part', hmem, hc⟩ => ⟨part', List.mem_cons_of_mem _ hmem, hc⟩

theorem splitOnce_some {sep : Char} {s a b : Str} (h : splitOnce sep s = some (a, b)) :
    s = a ++ sep :: b ∧ sep ∉ a := by
  induction s generalizing a with
  | nil => simp [splitOnce] at h
  | cons c rest ih =>
      simp only [splitOnce] at h
      split at h
      · rename_i heq
        simp only [Option.some.injEq, Prod.mk.injEq] at h
        obtain ⟨rfl, rfl⟩ := h
        simp [heq]
      · rename_i hne
        obtain ⟨⟨a', b'⟩, hp, he⟩ := Option.map_eq_some_iff.mp h
        simp only [Prod.mk.injEq] at he
        obtain ⟨rfl, rfl⟩ := he
        obtain ⟨hs, hn⟩ := ih hp
        refine ⟨by simp [hs], ?_⟩
        simp only [List.mem_cons, not_or]
        exact ⟨fun heq => hne heq.symm, hn⟩

theorem splitOnce_append {sep : Char} {a : Str} (ha : sep ∉ a) (b : Str) :
    splitOnce sep (a ++ sep :: b) = some (a, b) := by
  induction a with
  | nil => simp [splitOnce]
  | cons c a ih =>
      rw [List.mem_cons, not_or] at ha
      rw [List.cons_append, splitOnce, if_neg (Ne.symm ha.1), ih ha.2, Option.map_some]

/-- A text can be split at the last separator in one way only. -/
theorem append_cons_inj {α : Type} {sep : α} {a a' b b' : List α} (hb : sep ∉ b) (hb' : sep ∉ b')
    (h : a ++ sep :: b = a' ++ sep :: b') : a = a' ∧ b = b' := by
  have hleft : ∀ {x y c : List α}, sep ∉ x → sep :: x = c ++ sep :: y → c = [] := by
    intro x y c hx heq
    cases c with
    | nil => rfl
    | cons d c =>
        obtain ⟨-, rfl⟩ := List.cons.inj heq
        exact absurd (List.mem_append_right c List.mem_cons_self) hx
  rw [List.append_eq_append_iff] at h
  obtain ⟨c, hc, heq⟩ | ⟨c, hc, heq⟩ := h
  · obtain rfl := hleft hb heq
    exact ⟨(hc.trans (List.append_nil a)).symm, (List.cons.inj heq).2⟩
  · obtain rfl := hleft hb' heq
    exact ⟨hc.trans (List.append_nil a'), (List.cons.inj heq).2.symm⟩

theorem takeWhile_ne_stop {a : Char} {s t : Str} (h : a ∉ s) :
    (s ++ a :: t).takeWhile (· ≠ a) = s := by
  have hs : ∀ b ∈ s, decide (b ≠ a) = true := fun b hb => decide_eq_true fun heq => h (heq ▸ hb)
  rw [List.takeWhile_append_of_pos hs, List.takeWhile_cons_of_neg (by simp), List.append_nil]

theorem isWhitespace_of_isAsciiWhitespace {c : Char} (h : isAsciiWhitespace c = true) :
    isWhitespace c = true := by
  simp only [isAsciiWhitespace, Bool.or_eq_true, beq_iff_eq] at h
  rcases h with (((rfl | rfl) | rfl) | rfl) | rfl <;> decide

end AutomatisedPipeline.Text
