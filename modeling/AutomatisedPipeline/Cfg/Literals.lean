import Mathlib.Data.List.TakeWhile
import AutomatisedPipeline.Cfg.Parse

/-!
Where a string literal ends (`parser/cfg_lex.rs`).

The scanner that removes comments and the tokenizer each look for the closing quote on their
own: `copy_string_rest` skips the character behind a backslash, and `string_literal` reads an
escape. What stands in an escape is never a quote or a backslash, so they end a literal at
the same place (`stringLiteral_spec`).
-/

namespace AutomatisedPipeline.Cfg

open Text

/-! ### Escapes -/

/-- Neither a quote nor a backslash. -/
def Plain (c : Char) : Prop := c ≠ '"' ∧ c ≠ '\\'

theorem plain_of_toHexDigit {c : Char} {d : Nat} (h : toHexDigit c = some d) : Plain c := by
  constructor
  · rintro rfl
    cases h
  · rintro rfl
    cases h

theorem plain_of_hexValue {s : Str} {acc v : Nat} (h : hexValue acc s = some v) :
    ∀ c ∈ s, Plain c := by
  induction s generalizing acc with
  | nil => simp
  | cons c s ih =>
      rw [hexValue] at h
      rw [List.forall_mem_cons]
      split at h
      · cases h
      · rename_i d hd
        exact ⟨plain_of_toHexDigit hd, ih h⟩

theorem plain_of_fromStrRadix16 {bound : Nat} {s : Str} {v : Nat}
    (h : fromStrRadix16 bound s = some v) : ∀ c ∈ s, Plain c := by
  rw [fromStrRadix16] at h
  have hdigits : ∀ c ∈ (if s.head? = some '+' then s.tail else s), Plain c := by
    split at h
    · cases h
    · obtain ⟨hvalue, -⟩ := Option.filter_eq_some_iff.mp h
      exact plain_of_hexValue hvalue
  cases s with
  | nil => simp
  | cons c s =>
      split at hdigits
      · rename_i hplus
        obtain rfl : c = '+' := Option.some.inj hplus
        rw [List.forall_mem_cons]
        exact ⟨⟨by decide, by decide⟩, hdigits⟩
      · exact hdigits

/-- An escape that is read to its end is the same before any text, and has no quote and no
backslash behind its first character. -/
theorem escape_spec {x : Str} {d : Char} {n : Nat} (h : escape x = some (d, n))
    (hn : n ≤ x.length) : ∃ c e, x = c :: (e ++ x.drop n) ∧ n = e.length + 1 ∧
      (∀ a ∈ e, Plain a) ∧ ∀ y, escape (c :: (e ++ y)) = some (d, n) := by
  unfold escape at h
  split at h
  all_goals try
    obtain ⟨rfl, rfl⟩ := Prod.mk.inj (Option.some.inj h)
    exact ⟨_, [], rfl, rfl, by simp, fun y => rfl⟩
  · rename_i rest
    obtain ⟨b, hb, hpair⟩ := Option.map_eq_some_iff.mp h
    obtain ⟨rfl, rfl⟩ := Prod.mk.inj hpair
    obtain ⟨hradix, hascii⟩ := Option.filter_eq_some_iff.mp hb
    have htwo : (rest.take 2).length = 2 := by
      rw [List.length_cons] at hn
      rw [List.length_take]
      omega
    refine ⟨'x', rest.take 2, ?_, by rw [htwo], plain_of_fromStrRadix16 hradix, fun y => ?_⟩
    · rw [List.drop_succ_cons, List.take_append_drop]
    · have htake : (rest.take 2 ++ y).take 2 = rest.take 2 := List.take_left' htwo
      rw [escape, htake, hb]
      rfl
  · rename_i rest
    split at h
    · cases h
    · rename_i v hradix
      obtain ⟨c, hc, hpair⟩ := Option.map_eq_some_iff.mp h
      obtain ⟨rfl, rfl⟩ := Prod.mk.inj hpair
      have hplain := plain_of_fromStrRadix16 hradix
      have hclosed : '}' ∈ rest := by
        by_contra hopen
        have hall : rest.takeWhile (· ≠ '}') = rest :=
          List.takeWhile_eq_self_iff.mpr fun a ha => decide_eq_true fun heq => hopen (heq ▸ ha)
        rw [hall, List.length_cons, List.length_cons] at hn
        omega
      obtain ⟨hex, after, rfl, hhex⟩ := List.eq_append_cons_of_mem hclosed
      rw [takeWhile_ne_stop hhex] at hradix hplain
      refine ⟨'u', '{' :: (hex ++ ['}']), ?_, ?_, ?_, fun y => ?_⟩
      · have hdrop : (hex ++ '}' :: after).drop (hex.length + 1) = after := by
          rw [List.append_cons, List.drop_left' (by simp)]
        rw [takeWhile_ne_stop hhex, List.drop_succ_cons, List.drop_succ_cons, hdrop]
        simp
      · rw [takeWhile_ne_stop hhex]
        simp
      · rw [List.forall_mem_cons, List.forall_mem_append]
        exact ⟨⟨by decide, by decide⟩, hplain, by simp [Plain]⟩
      · have hread : (hex ++ ['}'] ++ y).takeWhile (· ≠ '}') = hex := by
          rw [List.append_assoc]
          exact takeWhile_ne_stop hhex
        rw [List.cons_append, escape]
        simp only [hread, hradix, hc, takeWhile_ne_stop hhex, Option.map_some]
  · cases h

/-! ### Literals -/

theorem copyStringRest_plain {s : Str} (h : ∀ c ∈ s, Plain c) (t : Str) :
    copyStringRest false (s ++ t) = s.length + copyStringRest false t := by
  induction s with
  | nil => rw [List.nil_append, List.length_nil, Nat.zero_add]
  | cons c s ih =>
      rw [List.forall_mem_cons] at h
      rw [List.cons_append, copyStringRest, if_neg (by decide), if_neg h.1.2, if_neg h.1.1,
        ih h.2, List.length_cons]
      omega

/-- A literal that is read ends where the other scanner says, and is the same before any
text. -/
theorem stringLiteral_spec {x : Str} {value : Str} {n : Nat}
    (h : stringLiteral x = some (value, n)) : n ≤ x.length ∧ copyStringRest false x = n ∧
      ∀ y, stringLiteral (x.take n ++ y) = some (value, n) := by
  fun_induction stringLiteral x generalizing value n with
  | case1 => cases h
  | case2 rest =>
      obtain ⟨rfl, rfl⟩ := Prod.mk.inj (Option.some.inj h)
      refine ⟨Nat.le_add_left 1 _, by simp [copyStringRest], fun y => ?_⟩
      rw [List.take_succ_cons, List.take_zero, List.singleton_append, stringLiteral, if_pos rfl]
  | case3 rest _ hescape => cases h
  | case4 rest d k hescape _ ih =>
      obtain ⟨⟨value', n'⟩, hrest, hpair⟩ := Option.map_eq_some_iff.mp h
      obtain ⟨rfl, rfl⟩ := Prod.mk.inj hpair
      obtain ⟨hle, hcopy, hsame⟩ := ih hrest
      have hk : k ≤ rest.length := by
        by_contra hlt
        rw [List.drop_eq_nil_of_le (by omega), stringLiteral] at hrest
        cases hrest
      obtain ⟨c, e, hsplit, hlen, hplain, hread⟩ := escape_spec hescape hk
      rw [List.length_drop] at hle
      refine ⟨by rw [List.length_cons]; omega, ?_, fun y => ?_⟩
      · have hcopied : copyStringRest true rest = k + n' := by
          rw [hsplit, copyStringRest, if_pos rfl, copyStringRest_plain hplain, hcopy, hlen]
          omega
        rw [copyStringRest, if_neg (by decide), if_pos rfl, hcopied]
        omega
      · have htake : ('\\' :: rest).take (k + 1 + n') ++ y =
            '\\' :: c :: (e ++ ((rest.drop k).take n' ++ y)) := by
          have hskip : k + 1 + n' = (n' + e.length) + 1 + 1 := by omega
          rw [hskip, List.take_succ_cons]
          conv_lhs => rw [hsplit]
          rw [List.take_succ_cons, Nat.add_comm n', List.take_length_add_append,
            List.cons_append, List.cons_append, List.append_assoc]
        have hdrop : (c :: (e ++ ((rest.drop k).take n' ++ y))).drop k =
            (rest.drop k).take n' ++ y := by
          rw [hlen, List.drop_succ_cons, List.drop_left]
        rw [htake, stringLiteral, if_neg (by decide), if_pos rfl, hread]
        simp only [hdrop, hsame, Option.map_some]
  | case5 c rest hquote hbackslash ih =>
      obtain ⟨⟨value', n'⟩, hrest, hpair⟩ := Option.map_eq_some_iff.mp h
      obtain ⟨rfl, rfl⟩ := Prod.mk.inj hpair
      obtain ⟨hle, hcopy, hsame⟩ := ih hrest
      refine ⟨by rw [List.length_cons]; omega, ?_, fun y => ?_⟩
      · rw [copyStringRest, if_neg (by decide), if_neg hbackslash, if_neg hquote, hcopy]
      · rw [Nat.add_comm, List.take_succ_cons, List.cons_append, stringLiteral, if_neg hquote,
          if_neg hbackslash, hsame, Nat.add_comm]
        rfl

/-- The scanner that copies a literal stops at the same place in what it has copied. -/
theorem copyStringRest_take_append (escaped : Bool) (x y : Str)
    (hy : x.drop (copyStringRest escaped x) = [] → y = []) :
    copyStringRest escaped (x.take (copyStringRest escaped x) ++ y) =
      copyStringRest escaped x := by
  fun_induction copyStringRest escaped x with
  | case1 escaped =>
      rw [hy rfl]
      rfl
  | case2 c rest ih =>
      rw [Nat.add_comm, List.drop_succ_cons] at hy
      rw [Nat.add_comm, List.take_succ_cons, List.cons_append, copyStringRest, if_pos rfl, ih hy,
        Nat.add_comm]
  | case3 rest escaped hescaped ih =>
      rw [Nat.add_comm, List.drop_succ_cons] at hy
      rw [Nat.add_comm, List.take_succ_cons, List.cons_append, copyStringRest, if_neg hescaped,
        if_pos rfl, ih hy, Nat.add_comm]
  | case4 rest escaped hescaped hne =>
      rw [List.take_succ_cons, List.take_zero, List.singleton_append, copyStringRest,
        if_neg hescaped, if_neg hne, if_pos rfl]
  | case5 c rest escaped hescaped hbackslash hquote ih =>
      rw [Nat.add_comm, List.drop_succ_cons] at hy
      rw [Nat.add_comm, List.take_succ_cons, List.cons_append, copyStringRest, if_neg hescaped,
        if_neg hbackslash, if_neg hquote, ih hy, Nat.add_comm]

end AutomatisedPipeline.Cfg
