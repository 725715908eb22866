import AutomatisedPipeline.Cfg.Compact
import AutomatisedPipeline.Cfg.Eval

/-!
What the canonical form of a predicate and its compact text say about builds.

`holds_canonical` is the meaning of `canonical`: it changes no truth value.
`compact_eq_encode` reads a compact text that is one word: it is the text of a bare
option and of nothing else, so a gate equal to `test` is the option `test`.
-/

namespace AutomatisedPipeline.Cfg

open Text

namespace CfgPredicate

/-! ### The canonical form keeps the truth -/

theorem holds_finish_all (b : Build) (flat : List CfgPredicate) :
    (finish true flat).holds b = flat.all (holds b) := by
  have hsame : ∀ p, p ∈ dedup (flat.insertionSort fun p q => p.compact ≤ q.compact) ↔ p ∈ flat := by
    intro p
    rw [mem_dedup, List.mem_insertionSort]
  have hterms : (dedup (flat.insertionSort fun p q => p.compact ≤ q.compact)).all (holds b) =
      flat.all (holds b) := by
    rw [Bool.eq_iff_iff, List.all_eq_true, List.all_eq_true]
    simp only [hsame]
  unfold finish
  rw [← hterms]
  split
  · rename_i p hp
    simp [hp]
  · simp [holds]

theorem holds_finish_any (b : Build) (flat : List CfgPredicate) :
    (finish false flat).holds b = flat.any (holds b) := by
  have hsame : ∀ p, p ∈ dedup (flat.insertionSort fun p q => p.compact ≤ q.compact) ↔ p ∈ flat := by
    intro p
    rw [mem_dedup, List.mem_insertionSort]
  have hterms : (dedup (flat.insertionSort fun p q => p.compact ≤ q.compact)).any (holds b) =
      flat.any (holds b) := by
    rw [Bool.eq_iff_iff, List.any_eq_true, List.any_eq_true]
    simp only [hsame]
  unfold finish
  rw [← hterms]
  split
  · rename_i p hp
    simp [hp]
  · simp [holds]

theorem all_spread (b : Build) (p : CfgPredicate) :
    (spread true p).all (holds b) = p.holds b := by
  cases p with
  | all inner => simp [spread, holds]
  | any inner => simp [spread, holds]
  | feature name => simp [spread]
  | option key value => simp [spread]
  | not inner => simp [spread]

theorem any_spread (b : Build) (p : CfgPredicate) :
    (spread false p).any (holds b) = p.holds b := by
  cases p with
  | all inner => simp [spread, holds]
  | any inner => simp [spread, holds]
  | feature name => simp [spread]
  | option key value => simp [spread]
  | not inner => simp [spread]

theorem all_joined (b : Build) {items : List CfgPredicate}
    (h : ∀ p ∈ items, p.canonical.holds b = p.holds b) :
    (joined true items).all (holds b) = items.all (holds b) := by
  induction items with
  | nil => rfl
  | cons p items ih =>
      have hitems := ih fun q hq => h q (by simp [hq])
      rw [joined, List.all_append, all_spread, h p (by simp), hitems, List.all_cons]

theorem any_joined (b : Build) {items : List CfgPredicate}
    (h : ∀ p ∈ items, p.canonical.holds b = p.holds b) :
    (joined false items).any (holds b) = items.any (holds b) := by
  induction items with
  | nil => rfl
  | cons p items ih =>
      have hitems := ih fun q hq => h q (by simp [hq])
      rw [joined, List.any_append, any_spread, h p (by simp), hitems, List.any_cons]

/-- A predicate and its canonical form are true in the same builds. -/
theorem holds_canonical (b : Build) (p : CfgPredicate) : p.canonical.holds b = p.holds b := by
  induction p using induct with
  | feature name => simp [canonical]
  | option key value => simp [canonical]
  | all items ih => rw [canonical, holds_finish_all, all_joined b ih, holds, holdsAll_eq]
  | any items ih => rw [canonical, holds_finish_any, any_joined b ih, holds, holdsAny_eq]
  | not inner ih =>
      rw [canonical, holds, ← ih]
      split
      · rename_i twice h
        rw [h, holds, Bool.not_not]
      · rw [holds]

/-! ### A compact text that is one word -/

theorem encode_injective {a b : Str} (h : encode a = encode b) : a = b := by
  have hdecode := decode_encode a
  rw [h, decode_encode] at hdecode
  exact (Option.some.inj hdecode).symm

/-- Only a bare option is written as one word. -/
theorem compact_eq_encode {p : CfgPredicate} {key : Str} (h : p.compact = encode key) :
    p = .option key none := by
  have hword : ∀ c ∈ p.compact, isWordByte c = true := h ▸ encode_wordBytes key
  cases p with
  | feature name => exact absurd (hword '=' (by simp [compact])) (by decide)
  | all items => exact absurd (hword '(' (by simp [compact])) (by decide)
  | any items => exact absurd (hword '(' (by simp [compact])) (by decide)
  | not inner => exact absurd (hword '(' (by simp [compact])) (by decide)
  | option name value =>
      cases value with
      | some value => exact absurd (hword '=' (by simp [compact])) (by decide)
      | none => rw [encode_injective h]

/-- The compact text of a predicate that the parser can build is not empty. -/
theorem compact_ne_nil {p : CfgPredicate} (h : ∀ x ∈ p.leaves, Spelled x) :
    p.canonical.compact ≠ [] := by
  obtain ⟨c, s, hcons, -⟩ := compact_head fun x hx => h x ((mem_leaves_canonical p).mp hx)
  rw [hcons]
  exact List.cons_ne_nil c s

/-- A gate whose compact text is the name of an option is that option. -/
theorem holds_of_compact_eq {p : CfgPredicate} {key : Str}
    (h : p.canonical.compact = encode key) (b : Build) : p.holds b = b.flag key := by
  rw [← holds_canonical, compact_eq_encode h, holds]

end CfgPredicate

end AutomatisedPipeline.Cfg
