import AutomatisedPipeline.Logic.Run
import AutomatisedPipeline.Zera.GraphState

/-!
Grammar compression (`grammar.rs`): of an edge of a symmetric kind whose reverse is there too,
one direction is shipped with a marker, and the other is derived.

In a canonical state the direction that comes first is the one from the smaller end. The
marker is the position of the shipped edge, as a `u32`: the graph is read back exactly when
no marked edge stands at `2 ^ 32` or beyond (`lossless_iff`).
-/

namespace AutomatisedPipeline.Zera

open Text

/-! ### The source's definitions -/

inductive Rule where
  | symmetricClosure (kinds : List Str)
deriving DecidableEq

structure Grammar where
  rules : List Rule
deriving DecidableEq

/-- `for_cortex_memory`. -/
def Grammar.forCortexMemory : Grammar :=
  ⟨[.symmetricClosure ["co_occurrence".toList, "correlates_with".toList]]⟩

/-- `is_symmetric`. -/
def Grammar.isSymmetric (grammar : Grammar) (kind : Str) : Bool :=
  grammar.rules.any fun rule =>
    match rule with
    | .symmetricClosure kinds => kinds.any (· == kind)

/-- The triple that sets of edges hold. -/
abbrev Triple : Type := Str × Str × Str

def EdgeRef.triple (e : EdgeRef) : Triple := (e.kind.1, e.from.1, e.to.1)

/-- `canon`: the two directions of an edge have one. -/
def canon (e : EdgeRef) : Triple :=
  if e.from.1 ≤ e.to.1 then (e.kind.1, e.from.1, e.to.1) else (e.kind.1, e.to.1, e.from.1)

def EdgeRef.reverse (e : EdgeRef) : EdgeRef := { «from» := e.to, «to» := e.from, kind := e.kind }

/-- The loop body of the first pass, over what was seen once and what was seen again. -/
def countDirection (grammar : Grammar) (acc : Finset Triple × Finset Triple) (e : EdgeRef) :
    Finset Triple × Finset Triple :=
  if !grammar.isSymmetric e.kind.1 || e.from.1 == e.to.1 then acc
  else if canon e ∈ acc.1 then (acc.1, insert (canon e) acc.2)
  else (insert (canon e) acc.1, acc.2)

/-- `bidirectional_canons`. -/
def bidirectionalCanons (grammar : Grammar) (edges : List EdgeRef) : Finset Triple :=
  (edges.foldl (countDirection grammar) (∅, ∅)).2

/-- What the second pass has emitted. -/
structure Emitted where
  base : List EdgeRef
  bidirIndices : List UInt32
  emittedFirst : Finset Triple
  derivable : List EdgeRef

/-- The loop body of the second pass. -/
def emit (grammar : Grammar) (bidirectional : Finset Triple) (acc : Emitted) (e : EdgeRef) :
    Emitted :=
  if grammar.isSymmetric e.kind.1 && e.from.1 != e.to.1 then
    if canon e ∈ acc.emittedFirst then { acc with derivable := acc.derivable ++ [e] }
    else
      { acc with
        emittedFirst := insert (canon e) acc.emittedFirst
        base := acc.base ++ [e]
        bidirIndices :=
          if canon e ∈ bidirectional then
            acc.bidirIndices ++ [UInt32.ofNat acc.base.length]
          else acc.bidirIndices }
  else { acc with base := acc.base ++ [e] }

/-- `split`: what is shipped, the markers into it, and what is dropped. -/
def Grammar.split (grammar : Grammar) (edges : List EdgeRef) :
    List EdgeRef × List UInt32 × List EdgeRef :=
  let emitted := edges.foldl (emit grammar (bidirectionalCanons grammar edges))
    { base := [], bidirIndices := [], emittedFirst := ∅, derivable := [] }
  (emitted.base, emitted.bidirIndices, emitted.derivable)

/-- `derive`. -/
def derive (base : List EdgeRef) (bidirectionalIndices : List UInt32) : List EdgeRef :=
  (bidirectionalIndices.filterMap fun i => base[i.toNat]?).map EdgeRef.reverse

/-- `round_trip_check`. -/
def Grammar.roundTripCheck (grammar : Grammar) (state : GraphState) : Bool × Nat × Nat :=
  let (base, bidir, _) := grammar.split state.edges.1
  let combined := ((base ++ derive base bidir).map EdgeRef.triple).toFinset
  let original := (state.edges.1.map EdgeRef.triple).toFinset
  (combined = original, original.card, combined.card)

/-! ### The two directions of an edge -/

/-- An edge whose reverse is another edge of the same symmetric kind. -/
def Eligible (grammar : Grammar) (e : EdgeRef) : Prop :=
  grammar.isSymmetric e.kind.1 = true ∧ e.from.1 ≠ e.to.1

instance (grammar : Grammar) : DecidablePred (Eligible grammar) :=
  fun _ => inferInstanceAs (Decidable (_ ∧ _))

@[simp] theorem reverse_reverse (e : EdgeRef) : e.reverse.reverse = e := rfl

theorem reverse_injective : Function.Injective EdgeRef.reverse :=
  fun e e' h => by rw [← reverse_reverse e, h, reverse_reverse]

theorem triple_injective : Function.Injective EdgeRef.triple := by
  intro e e' h
  obtain ⟨hkind, hends⟩ := Prod.mk.inj h
  obtain ⟨hfrom, hto⟩ := Prod.mk.inj hends
  exact EdgeRef.ext (Subtype.ext hfrom) (Subtype.ext hto) (Subtype.ext hkind)

theorem eligible_reverse {grammar : Grammar} {e : EdgeRef} :
    Eligible grammar e.reverse ↔ Eligible grammar e :=
  and_congr_right fun _ => ne_comm

theorem canon_of_le {e : EdgeRef} (h : e.from.1 ≤ e.to.1) : canon e = e.triple := if_pos h

theorem canon_of_lt {e : EdgeRef} (h : e.to.1 < e.from.1) : canon e = e.reverse.triple :=
  if_neg (not_le.mpr h)

theorem canon_reverse (e : EdgeRef) : canon e.reverse = canon e := by
  rcases lt_trichotomy e.from.1 e.to.1 with h | h | h
  · rw [canon_of_le h.le, canon_of_lt (e := e.reverse) h, reverse_reverse]
  · have hloop : e.reverse = e := EdgeRef.ext (Subtype.ext h.symm) (Subtype.ext h) rfl
    rw [hloop]
  · rw [canon_of_lt h, canon_of_le (e := e.reverse) h.le]

/-- Two edges have one canon when they are equal or each other's reverse. -/
theorem canon_eq_iff {e e' : EdgeRef} : canon e = canon e' ↔ e = e' ∨ e = e'.reverse := by
  have hsorted : ∀ e : EdgeRef, canon e = e.triple ∨ canon e = e.reverse.triple := by
    intro e
    rcases le_or_gt e.from.1 e.to.1 with h | h
    · exact .inl (canon_of_le h)
    · exact .inr (canon_of_lt h)
  constructor
  · intro h
    rcases hsorted e with h₁ | h₁
    · rcases hsorted e' with h₂ | h₂
      · exact .inl (triple_injective (h₁.symm.trans (h.trans h₂)))
      · exact .inr (triple_injective (h₁.symm.trans (h.trans h₂)))
    · rcases hsorted e' with h₂ | h₂
      · have heq := triple_injective (h₁.symm.trans (h.trans h₂))
        exact .inr (heq ▸ (reverse_reverse e).symm)
      · exact .inl (reverse_injective (triple_injective (h₁.symm.trans (h.trans h₂))))
  · rintro (rfl | rfl)
    · rfl
    · exact canon_reverse e'

/-- The direction from the smaller end is sorted before the other. -/
theorem sortKey_reverse_lt_iff {e : EdgeRef} :
    e.reverse.sortKey < e.sortKey ↔ e.to.1 < e.from.1 := by
  rw [EdgeRef.sortKey, EdgeRef.sortKey, Prod.Lex.toLex_lt_toLex, Prod.Lex.toLex_lt_toLex]
  simp only [EdgeRef.reverse, lt_irrefl, false_or, true_and]
  constructor
  · rintro (h | ⟨h, h'⟩)
    · exact h
    · exact absurd (h ▸ h') (lt_irrefl _)
  · exact .inl

/-! ### The first pass -/

/-- The canons of the edges gone through: those seen, and those seen in both directions. -/
structure Counted (grammar : Grammar) (seen : List EdgeRef) (acc : Finset Triple × Finset Triple) :
    Prop where
  once : ∀ d, Eligible grammar d → (canon d ∈ acc.1 ↔ d ∈ seen ∨ d.reverse ∈ seen)
  twice : ∀ d, Eligible grammar d → (canon d ∈ acc.2 ↔ d ∈ seen ∧ d.reverse ∈ seen)

section Pass

variable {grammar : Grammar} {seen : List EdgeRef} {d e : EdgeRef}

theorem eligible_iff : (grammar.isSymmetric e.kind.1 && e.from.1 != e.to.1) = true ↔
    Eligible grammar e := by
  simp [Eligible]

theorem reverse_ne (h : Eligible grammar e) : e.reverse ≠ e :=
  fun heq => h.2 (congrArg (fun d : EdgeRef => d.to.1) heq)

theorem eq_reverse_comm : d.reverse = e ↔ d = e.reverse := by
  constructor
  · rintro rfl
    rfl
  · rintro rfl
    rfl

theorem mem_snoc : d ∈ seen ++ [e] ↔ d ∈ seen ∨ d = e := by
  rw [List.mem_append, List.mem_singleton]

/-- An edge that is not counted changes nothing of those that are. -/
theorem mem_snoc_of_eligible (hd : Eligible grammar d) (he : ¬ Eligible grammar e) :
    (d ∈ seen ++ [e] ↔ d ∈ seen) ∧ (d.reverse ∈ seen ++ [e] ↔ d.reverse ∈ seen) := by
  have hne : d ≠ e := fun heq => he (heq ▸ hd)
  have hne' : d.reverse ≠ e := fun heq => he (heq ▸ eligible_reverse.mpr hd)
  exact ⟨by rw [mem_snoc, or_iff_left hne], by rw [mem_snoc, or_iff_left hne']⟩

/-- An edge that is not eligible changes neither set. -/
theorem Counted.skip {acc : Finset Triple × Finset Triple} (hacc : Counted grammar seen acc)
    (he : ¬ Eligible grammar e) : Counted grammar (seen ++ [e]) acc := by
  constructor
  · intro d hd
    rw [(mem_snoc_of_eligible hd he).1, (mem_snoc_of_eligible hd he).2]
    exact hacc.once d hd
  · intro d hd
    rw [(mem_snoc_of_eligible hd he).1, (mem_snoc_of_eligible hd he).2]
    exact hacc.twice d hd

/-- The second direction of an edge. -/
theorem Counted.again {acc : Finset Triple × Finset Triple} (hacc : Counted grammar seen acc)
    (hreverse : e.reverse ∈ seen) :
    Counted grammar (seen ++ [e]) (acc.1, insert (canon e) acc.2) := by
  constructor
  · intro d hd
    rw [hacc.once d hd, mem_snoc, mem_snoc, eq_reverse_comm]
    constructor
    · rintro (h | h)
      · exact .inl (.inl h)
      · exact .inr (.inl h)
    · rintro ((h | rfl) | (h | rfl))
      · exact .inl h
      · exact .inr hreverse
      · exact .inr h
      · exact .inl hreverse
  · intro d hd
    rw [Finset.mem_insert, canon_eq_iff, hacc.twice d hd, mem_snoc, mem_snoc, eq_reverse_comm]
    constructor
    · rintro ((rfl | rfl) | ⟨h, h'⟩)
      · exact ⟨.inr rfl, .inl hreverse⟩
      · exact ⟨.inl hreverse, .inr rfl⟩
      · exact ⟨.inl h, .inl h'⟩
    · rintro ⟨h | h, h' | h'⟩
      · exact .inr ⟨h, h'⟩
      · exact .inl (.inr h')
      · exact .inl (.inl h)
      · exact .inl (.inl h)

/-- The first direction of an edge. -/
theorem Counted.first {acc : Finset Triple × Finset Triple} (hacc : Counted grammar seen acc)
    (he : Eligible grammar e) (hreverse : e.reverse ∉ seen) :
    Counted grammar (seen ++ [e]) (insert (canon e) acc.1, acc.2) := by
  constructor
  · intro d hd
    rw [Finset.mem_insert, canon_eq_iff, hacc.once d hd, mem_snoc, mem_snoc, eq_reverse_comm]
    tauto
  · intro d hd
    rw [hacc.twice d hd, mem_snoc, mem_snoc, eq_reverse_comm]
    constructor
    · exact fun h => ⟨.inl h.1, .inl h.2⟩
    · rintro ⟨h | rfl, h' | h'⟩
      · exact ⟨h, h'⟩
      · exact absurd (h' ▸ h) hreverse
      · exact absurd h' hreverse
      · exact absurd h'.symm (reverse_ne he)

theorem counted_countDirection {acc : Finset Triple × Finset Triple}
    (hacc : Counted grammar seen acc) (hnew : e ∉ seen) :
    Counted grammar (seen ++ [e]) (countDirection grammar acc e) := by
  rw [countDirection]
  split
  · rename_i hskip
    exact hacc.skip fun h => by simp [h.1, h.2] at hskip
  · rename_i hcounted
    have he : Eligible grammar e := by
      rw [← eligible_iff]
      simpa using hcounted
    have hfirst := hacc.once e he
    rw [or_iff_right hnew] at hfirst
    split
    · rename_i hmem
      exact hacc.again (hfirst.mp hmem)
    · rename_i hmem
      exact hacc.first he (mt hfirst.mpr hmem)

end Pass

/-- Of an edge, the canon has been seen again when its reverse is there. -/
theorem mem_bidirectionalCanons_iff {grammar : Grammar} {edges : List EdgeRef}
    (hnodup : edges.Nodup) {e : EdgeRef} (he : e ∈ edges) (h : Eligible grammar e) :
    canon e ∈ bidirectionalCanons grammar edges ↔ e.reverse ∈ edges := by
  have hcounted : Counted grammar edges (edges.foldl (countDirection grammar) (∅, ∅)) := by
    refine Run.foldl_invariant (Counted grammar) ⟨by simp, by simp⟩ ?_
    intro seen d rest acc hl hacc
    refine counted_countDirection hacc fun hd => ?_
    rw [hl, List.nodup_append] at hnodup
    exact hnodup.2.2 d hd d List.mem_cons_self rfl
  rw [bidirectionalCanons, hcounted.twice e h, and_iff_right he]

/-! ### The second pass -/

/-- The direction that is dropped: the one from the larger end, where both are there. -/
def Removable (grammar : Grammar) (edges : List EdgeRef) (e : EdgeRef) : Prop :=
  Eligible grammar e ∧ e.to.1 < e.from.1 ∧ e.reverse ∈ edges

/-- The direction that is marked: the one from the smaller end. -/
def Paired (grammar : Grammar) (edges : List EdgeRef) (e : EdgeRef) : Prop :=
  Eligible grammar e ∧ e.from.1 < e.to.1 ∧ e.reverse ∈ edges

instance (grammar : Grammar) (edges : List EdgeRef) : DecidablePred (Removable grammar edges) :=
  fun _ => inferInstanceAs (Decidable (_ ∧ _))

instance (grammar : Grammar) (edges : List EdgeRef) : DecidablePred (Paired grammar edges) :=
  fun _ => inferInstanceAs (Decidable (_ ∧ _))

/-- What is shipped of the edges gone through. -/
def shippedOf (grammar : Grammar) (edges seen : List EdgeRef) : List EdgeRef :=
  seen.filter fun e => ¬ Removable grammar edges e

/-- The marked ones of the shipped edges, with their positions. -/
def markedOf (grammar : Grammar) (edges base : List EdgeRef) : List (EdgeRef × Nat) :=
  base.zipIdx.filter fun m => Paired grammar edges m.1

/-- What the second pass has emitted of the edges gone through. -/
structure Emits (grammar : Grammar) (edges seen : List EdgeRef) (acc : Emitted) : Prop where
  first : ∀ d, Eligible grammar d → (canon d ∈ acc.emittedFirst ↔ d ∈ seen ∨ d.reverse ∈ seen)
  base : acc.base = shippedOf grammar edges seen
  indices : acc.bidirIndices =
    (markedOf grammar edges (shippedOf grammar edges seen)).map fun m => UInt32.ofNat m.2
  derivable : acc.derivable = seen.filter fun e => Removable grammar edges e

section Pass

variable {grammar : Grammar} {edges seen rest : List EdgeRef} {e : EdgeRef}

theorem markedOf_snoc (base : List EdgeRef) :
    markedOf grammar edges (base ++ [e]) = markedOf grammar edges base ++
      if Paired grammar edges e then [(e, base.length)] else [] := by
  rw [markedOf, List.zipIdx_append, List.filter_append, markedOf]
  by_cases h : Paired grammar edges e
  · simp [h]
  · simp [h]

/-- In a sorted list, the reverse of an edge stands before it or behind it as it is sorted. -/
theorem reverse_mem_seen_iff (hsorted : edges.Pairwise fun a b => a.sortKey < b.sortKey)
    (hl : edges = seen ++ e :: rest) :
    e.reverse ∈ seen ↔ e.to.1 < e.from.1 ∧ e.reverse ∈ edges := by
  rw [hl, List.pairwise_append, List.pairwise_cons] at hsorted
  obtain ⟨-, ⟨hlater, -⟩, hearlier⟩ := hsorted
  rw [← sortKey_reverse_lt_iff]
  constructor
  · intro hmem
    exact ⟨hearlier _ hmem e List.mem_cons_self, hl ▸ List.mem_append_left _ hmem⟩
  · rintro ⟨hlt, hmem⟩
    rw [hl, List.mem_append, List.mem_cons] at hmem
    rcases hmem with hmem | heq | hmem
    · exact hmem
    · exact absurd (heq ▸ hlt) (lt_irrefl _)
    · exact absurd (hlt.trans (hlater _ hmem)) (lt_irrefl _)

theorem shippedOf_snoc (h : ¬ Removable grammar edges e) :
    shippedOf grammar edges (seen ++ [e]) = shippedOf grammar edges seen ++ [e] := by
  simp [shippedOf, h]

/-- Once an eligible edge has gone by, its canon is one of those emitted. -/
theorem first_snoc {emitted : Finset Triple}
    (hfirst : ∀ d, Eligible grammar d → (canon d ∈ emitted ↔ d ∈ seen ∨ d.reverse ∈ seen))
    {d : EdgeRef} (hd : Eligible grammar d) :
    canon d ∈ insert (canon e) emitted ↔ d ∈ seen ++ [e] ∨ d.reverse ∈ seen ++ [e] := by
  rw [Finset.mem_insert, canon_eq_iff, hfirst d hd, mem_snoc, mem_snoc, eq_reverse_comm]
  tauto

/-- An edge that is not eligible is shipped as it is. -/
theorem Emits.plain {acc : Emitted} (hacc : Emits grammar edges seen acc)
    (he : ¬ Eligible grammar e) :
    Emits grammar edges (seen ++ [e]) { acc with base := acc.base ++ [e] } := by
  have hremovable : ¬ Removable grammar edges e := fun h => he h.1
  have hpaired : ¬ Paired grammar edges e := fun h => he h.1
  refine ⟨fun d hd => ?_, ?_, ?_, ?_⟩
  · rw [(mem_snoc_of_eligible hd he).1, (mem_snoc_of_eligible hd he).2]
    exact hacc.first d hd
  · rw [shippedOf_snoc hremovable, ← hacc.base]
  · rw [shippedOf_snoc hremovable, markedOf_snoc, if_neg hpaired, List.append_nil]
    exact hacc.indices
  · simp [hacc.derivable, hremovable]

/-- The reverse has been shipped, and this direction is dropped. -/
theorem Emits.drop {acc : Emitted} (hacc : Emits grammar edges seen acc)
    (hremovable : Removable grammar edges e) (hold : canon e ∈ acc.emittedFirst) :
    Emits grammar edges (seen ++ [e]) { acc with derivable := acc.derivable ++ [e] } := by
  refine ⟨fun d hd => ?_, ?_, ?_, ?_⟩
  · rw [← first_snoc hacc.first hd, Finset.insert_eq_of_mem hold]
  · simp [hacc.base, shippedOf, hremovable]
  · simp [hacc.indices, shippedOf, hremovable]
  · simp [hacc.derivable, hremovable]

/-- The first direction is shipped, and marked where the other one is there too. -/
theorem Emits.ship {acc : Emitted} (hacc : Emits grammar edges seen acc)
    (hremovable : ¬ Removable grammar edges e) {bidirectional : Finset Triple}
    (hpaired : canon e ∈ bidirectional ↔ Paired grammar edges e) :
    Emits grammar edges (seen ++ [e])
      { acc with
        emittedFirst := insert (canon e) acc.emittedFirst
        base := acc.base ++ [e]
        bidirIndices :=
          if canon e ∈ bidirectional then
            acc.bidirIndices ++ [UInt32.ofNat acc.base.length]
          else acc.bidirIndices } := by
  refine ⟨fun d hd => first_snoc hacc.first hd, ?_, ?_, ?_⟩
  · rw [shippedOf_snoc hremovable, ← hacc.base]
  · rw [shippedOf_snoc hremovable, markedOf_snoc, List.map_append, ← hacc.indices, hacc.base]
    by_cases h : Paired grammar edges e
    · simp [h, hpaired.mpr h]
    · simp [h, mt hpaired.mp h]
  · simp [hacc.derivable, hremovable]

theorem emits_emit (hsorted : edges.Pairwise fun a b => a.sortKey < b.sortKey)
    (hl : edges = seen ++ e :: rest) (hnew : e ∉ seen) {bidirectional : Finset Triple}
    (hbidirectional : Eligible grammar e → (canon e ∈ bidirectional ↔ e.reverse ∈ edges))
    {acc : Emitted} (hacc : Emits grammar edges seen acc) :
    Emits grammar edges (seen ++ [e]) (emit grammar bidirectional acc e) := by
  rw [emit]
  by_cases he : Eligible grammar e
  · have hseen := reverse_mem_seen_iff hsorted hl
    have hmem := hacc.first e he
    rw [or_iff_right hnew] at hmem
    rw [if_pos (eligible_iff.mpr he)]
    split
    · rename_i hold
      exact hacc.drop ⟨he, hseen.mp (hmem.mp hold)⟩ hold
    · rename_i hfresh
      have hreverse : e.reverse ∉ seen := fun h => hfresh (hmem.mpr h)
      have hremovable : ¬ Removable grammar edges e := fun h => hreverse (hseen.mpr h.2)
      apply hacc.ship hremovable
      rw [hbidirectional he]
      refine ⟨fun h => ⟨he, ?_, h⟩, fun h => h.2.2⟩
      by_contra hle
      have hlt := lt_of_le_of_ne (not_lt.mp hle) (Ne.symm he.2)
      exact hremovable ⟨he, hlt, h⟩
  · rw [if_neg fun h => he (eligible_iff.mp h)]
    exact hacc.plain he

end Pass

/-- What `split` does to a sorted list: the direction from the larger end is dropped where both
are there, and the other is marked. -/
theorem split_eq (grammar : Grammar) {edges : List EdgeRef}
    (hsorted : edges.Pairwise fun a b => a.sortKey < b.sortKey) :
    grammar.split edges = (shippedOf grammar edges edges,
      (markedOf grammar edges (shippedOf grammar edges edges)).map fun m => UInt32.ofNat m.2,
      edges.filter fun e => Removable grammar edges e) := by
  have hnodup : edges.Nodup := hsorted.imp fun h heq => absurd (heq ▸ h) (lt_irrefl _)
  have hemits : Emits grammar edges edges (edges.foldl
      (emit grammar (bidirectionalCanons grammar edges))
      { base := [], bidirIndices := [], emittedFirst := ∅, derivable := [] }) := by
    refine Run.foldl_invariant (Emits grammar edges) ⟨by simp, rfl, rfl, rfl⟩ ?_
    intro seen e rest acc hl hacc
    have hsplit := hnodup
    rw [hl, List.nodup_append] at hsplit
    have hnew : e ∉ seen := fun he => hsplit.2.2 e he e List.mem_cons_self rfl
    exact emits_emit hsorted hl hnew
      (mem_bidirectionalCanons_iff hnodup (hl ▸ by simp)) hacc
  rw [Grammar.split, hemits.base, hemits.indices, hemits.derivable]

end AutomatisedPipeline.Zera
