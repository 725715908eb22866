import AutomatisedPipeline.Zera.Grammar

/-!
Grammar compression is lossless (`grammar.rs`), up to the width of its markers.

`Lossless` is what `round_trip_check` and its comment ask for: what is shipped and what is
dropped are the edges, and deriving from what is shipped gives back what was dropped. A
marker is a position in the shipped edges, and `basePosition` counts the shipped edges in
front of an edge; every marker is read back as it was written exactly when all are below
`2 ^ 32` (`lossless_iff`).
-/

namespace AutomatisedPipeline.Zera

open Text

/-- The edges of a state are split, and derived back. -/
structure Lossless (grammar : Grammar) (state : GraphState) : Prop where
  partition : ((grammar.split state.edges.1).1 ++ (grammar.split state.edges.1).2.2).Perm
    state.edges.1
  derived : (derive (grammar.split state.edges.1).1 (grammar.split state.edges.1).2.1).Perm
    (grammar.split state.edges.1).2.2
  check : grammar.roundTripCheck state =
    (true, state.edges.1.length, state.edges.1.length)

/-- How many shipped edges stand in front of an edge. -/
def basePosition (grammar : Grammar) (edges : List EdgeRef) (e : EdgeRef) : Nat :=
  edges.countP fun d => d.sortKey < e.sortKey ∧ ¬ Removable grammar edges d

/-! ### Positions -/

section Positions

variable {α κ : Type} [LinearOrder κ] {key : α → κ}

/-- In a sorted list, the position of an element is how many are smaller. -/
theorem countP_lt_getElem {l : List α} (hsorted : l.Pairwise fun a b => key a < key b) {i : Nat}
    (hi : i < l.length) : l.countP (fun a => key a < key l[i]) = i := by
  induction l generalizing i with
  | nil => simp at hi
  | cons a l ih =>
      obtain ⟨hfirst, hrest⟩ := List.pairwise_cons.mp hsorted
      cases i with
      | zero =>
          rw [List.countP_eq_zero]
          intro b hb
          rw [List.getElem_cons_zero, decide_eq_true_iff, not_lt]
          rcases List.mem_cons.mp hb with rfl | hb
          · exact le_refl _
          · exact (hfirst b hb).le
      | succ i =>
          have hi' : i < l.length := by simpa using hi
          have hlt : key a < key l[i] := hfirst _ (List.getElem_mem hi')
          rw [List.getElem_cons_succ, List.countP_cons, ih hrest hi', if_pos (decide_eq_true hlt)]

/-- Where no number is above its fellow and the sums are equal, the numbers are. -/
theorem eq_of_sum_eq {β : Type} {f g : β → Nat} {l : List β} (hle : ∀ b ∈ l, f b ≤ g b)
    (hsum : (l.map f).sum = (l.map g).sum) : ∀ b ∈ l, f b = g b := by
  induction l with
  | nil => simp
  | cons b l ih =>
      rw [List.forall_mem_cons] at hle
      have hrest : (l.map f).sum ≤ (l.map g).sum := List.sum_le_sum hle.2
      rw [List.map_cons, List.map_cons, List.sum_cons, List.sum_cons] at hsum
      rw [List.forall_mem_cons]
      exact ⟨by omega, ih hle.2 (by omega)⟩

end Positions

section State

variable {grammar : Grammar} {edges : List EdgeRef}

theorem mem_markedOf_iff {base : List EdgeRef} {m : EdgeRef × Nat} :
    m ∈ markedOf grammar edges base ↔ base[m.2]? = some m.1 ∧ Paired grammar edges m.1 := by
  rw [markedOf, List.mem_filter, List.mem_zipIdx_iff_getElem?, decide_eq_true_iff]

theorem map_fst_markedOf (base : List EdgeRef) :
    (markedOf grammar edges base).map Prod.fst = base.filter fun e => Paired grammar edges e := by
  have h : (base.zipIdx.filter fun m => Paired grammar edges m.1).map Prod.fst =
      (base.zipIdx.map Prod.fst).filter fun e => Paired grammar edges e := by
    rw [List.filter_map]
    rfl
  rw [markedOf, h, List.zipIdx_map_fst]

/-- The reverses of the marked edges are the dropped ones. -/
theorem reverse_marked_perm (hnodup : edges.Nodup) :
    ((markedOf grammar edges (shippedOf grammar edges edges)).map fun m => m.1.reverse).Perm
      (edges.filter fun e => Removable grammar edges e) := by
  have hmap : ((markedOf grammar edges (shippedOf grammar edges edges)).map fun m => m.1.reverse) =
      ((shippedOf grammar edges edges).filter fun e => Paired grammar edges e).map
        EdgeRef.reverse := by
    rw [← map_fst_markedOf, List.map_map]
    rfl
  have hshipped : (shippedOf grammar edges edges).Nodup := hnodup.filter _
  rw [hmap, List.perm_ext_iff_of_nodup ((hshipped.filter _).map reverse_injective)
    (hnodup.filter _)]
  intro e
  rw [List.mem_map]
  constructor
  · rintro ⟨d, hd, rfl⟩
    rw [List.mem_filter, shippedOf, List.mem_filter] at hd
    obtain ⟨⟨hmem, -⟩, hpaired⟩ := hd
    obtain ⟨heligible, hlt, hreverse⟩ := of_decide_eq_true hpaired
    exact List.mem_filter.mpr ⟨hreverse, decide_eq_true ⟨eligible_reverse.mpr heligible, hlt, hmem⟩⟩
  · intro he
    obtain ⟨hmem, hremovable⟩ := List.mem_filter.mp he
    obtain ⟨heligible, hlt, hreverse⟩ := of_decide_eq_true hremovable
    have hpaired : Paired grammar edges e.reverse := ⟨eligible_reverse.mpr heligible, hlt, hmem⟩
    have hkept : ¬ Removable grammar edges e.reverse :=
      fun h => absurd (hlt.trans h.2.1) (lt_irrefl _)
    refine ⟨e.reverse, ?_, reverse_reverse e⟩
    rw [List.mem_filter, shippedOf, List.mem_filter]
    exact ⟨⟨hreverse, decide_eq_true hkept⟩, decide_eq_true hpaired⟩

/-! ### Markers -/

variable {base : List EdgeRef} {marks : List (EdgeRef × Nat)}

/-- Markers that fit are read back. -/
theorem derive_of_fits (hmarks : ∀ m ∈ marks, base[m.2]? = some m.1)
    (hfits : ∀ m ∈ marks, m.2 < 2 ^ 32) :
    derive base (marks.map fun m => UInt32.ofNat m.2) = marks.map fun m => m.1.reverse := by
  have hread : (marks.map fun m => UInt32.ofNat m.2).filterMap (fun i => base[i.toNat]?) =
      marks.map Prod.fst := by
    rw [List.filterMap_map, ← List.filterMap_eq_map]
    refine List.filterMap_congr fun m hm => ?_
    have htoNat : (UInt32.ofNat m.2).toNat = m.2 := by
      rw [UInt32.toNat_ofNat']
      exact Nat.mod_eq_of_lt (hfits m hm)
    simp only [Function.comp_apply, htoNat, hmarks m hm]
  rw [derive, hread, List.map_map]
  rfl

/-- The positions that the markers are read at. -/
theorem map_idxOf_filterMap (hbase : base.Nodup) (hmarks : ∀ m ∈ marks, base[m.2]? = some m.1) :
    ((marks.map fun m => UInt32.ofNat m.2).filterMap fun i => base[i.toNat]?).map base.idxOf =
      marks.map fun m => m.2 % 2 ^ 32 := by
  induction marks with
  | nil => rfl
  | cons m marks ih =>
      rw [List.forall_mem_cons] at hmarks
      obtain ⟨hlt, -⟩ := List.getElem?_eq_some_iff.mp hmarks.1
      have htoNat : (UInt32.ofNat m.2).toNat = m.2 % 2 ^ 32 := UInt32.toNat_ofNat'
      have hmod : m.2 % 2 ^ 32 < base.length := (Nat.mod_le _ _).trans_lt hlt
      have hread : base[(UInt32.ofNat m.2).toNat]? = some base[m.2 % 2 ^ 32] := by
        rw [htoNat, List.getElem?_eq_getElem]
      rw [List.map_cons, List.filterMap_cons, hread, List.map_cons, ih hmarks.2, List.map_cons,
        hbase.idxOf_getElem]

/-- What is derived are the reverses of the marked edges only where every marker fits. -/
theorem fits_of_derive_perm (hbase : base.Nodup) (hmarks : ∀ m ∈ marks, base[m.2]? = some m.1)
    (hperm : (derive base (marks.map fun m => UInt32.ofNat m.2)).Perm
      (marks.map fun m => m.1.reverse)) : ∀ m ∈ marks, m.2 < 2 ^ 32 := by
  have hderived : (derive base (marks.map fun m => UInt32.ofNat m.2)).map
      (fun e => base.idxOf e.reverse) = marks.map fun m => m.2 % 2 ^ 32 := by
    rw [← map_idxOf_filterMap hbase hmarks, derive, List.map_map]
    rfl
  have hmarked : (marks.map fun m => m.1.reverse).map (fun e => base.idxOf e.reverse) =
      marks.map Prod.snd := by
    rw [List.map_map]
    refine List.map_congr_left fun m hm => ?_
    obtain ⟨hlt, hget⟩ := List.getElem?_eq_some_iff.mp (hmarks m hm)
    rw [Function.comp_apply, reverse_reverse, ← hget, hbase.idxOf_getElem]
  have hsum := (hperm.map fun e => base.idxOf e.reverse).sum_eq
  rw [hderived, hmarked] at hsum
  intro m hm
  rw [← eq_of_sum_eq (fun m _ => Nat.mod_le m.2 (2 ^ 32)) hsum m hm]
  exact Nat.mod_lt _ (Nat.two_pow_pos 32)

end State

/-! ### The round trip -/

section RoundTrip

variable {grammar : Grammar} {edges : List EdgeRef}

theorem basePosition_of_getElem? (hsorted : edges.Pairwise fun a b => a.sortKey < b.sortKey)
    {e : EdgeRef} {i : Nat} (h : (shippedOf grammar edges edges)[i]? = some e) :
    basePosition grammar edges e = i := by
  obtain ⟨hi, rfl⟩ := List.getElem?_eq_some_iff.mp h
  have hshipped : (shippedOf grammar edges edges).Pairwise fun a b => a.sortKey < b.sortKey :=
    hsorted.filter _
  have hcount := countP_lt_getElem hshipped hi
  generalize (shippedOf grammar edges edges)[i] = e at hcount
  rw [shippedOf, List.countP_filter] at hcount
  rw [← hcount, basePosition]
  refine List.countP_congr fun d _ => ?_
  simp

/-- The markers fit when the marked edges stand below `2 ^ 32`. -/
theorem fits_iff (hsorted : edges.Pairwise fun a b => a.sortKey < b.sortKey) :
    (∀ m ∈ markedOf grammar edges (shippedOf grammar edges edges), m.2 < 2 ^ 32) ↔
      ∀ e ∈ edges, Paired grammar edges e → basePosition grammar edges e < 2 ^ 32 := by
  constructor
  · intro h e he hpaired
    have hkept : ¬ Removable grammar edges e :=
      fun hremovable => absurd (hpaired.2.1.trans hremovable.2.1) (lt_irrefl _)
    have hmem : e ∈ shippedOf grammar edges edges :=
      List.mem_filter.mpr ⟨he, decide_eq_true hkept⟩
    obtain ⟨i, hi⟩ := List.mem_iff_getElem?.mp hmem
    rw [basePosition_of_getElem? hsorted hi]
    exact h (e, i) (mem_markedOf_iff.mpr ⟨hi, hpaired⟩)
  · intro h m hm
    obtain ⟨hget, hpaired⟩ := mem_markedOf_iff.mp hm
    rw [← basePosition_of_getElem? hsorted hget]
    exact h m.1 (List.mem_filter.mp (List.mem_of_getElem? hget)).1 hpaired

theorem edges_sorted (nodes : RustVec NodeRef) (edges : RustVec EdgeRef) :
    (GraphState.new nodes edges).edges.1.Pairwise fun a b => a.sortKey < b.sortKey :=
  Codec.canonical_strict EdgeRef.sortKey_injective edges.1

theorem shipped_append_dropped_perm :
    (shippedOf grammar edges edges ++ edges.filter fun e => Removable grammar edges e).Perm
      edges := by
  have h := List.filter_append_perm (fun e => decide (Removable grammar edges e)) edges
  refine (List.perm_append_comm.trans ?_).trans h
  simp [shippedOf]

/-- What is derived is what was dropped exactly where the marked edges stand below `2 ^ 32`. -/
theorem derive_perm_iff (hsorted : edges.Pairwise fun a b => a.sortKey < b.sortKey) :
    (derive (grammar.split edges).1 (grammar.split edges).2.1).Perm (grammar.split edges).2.2 ↔
      ∀ e ∈ edges, Paired grammar edges e → basePosition grammar edges e < 2 ^ 32 := by
  have hnodup : edges.Nodup := hsorted.imp fun h heq => absurd (heq ▸ h) (lt_irrefl _)
  have hmarks : ∀ m ∈ markedOf grammar edges (shippedOf grammar edges edges),
      (shippedOf grammar edges edges)[m.2]? = some m.1 := fun m hm => (mem_markedOf_iff.mp hm).1
  have hreverse := @reverse_marked_perm grammar edges hnodup
  rw [← fits_iff hsorted, split_eq grammar hsorted]
  constructor
  · exact fun hperm => fits_of_derive_perm (hnodup.filter _) hmarks (hperm.trans hreverse.symm)
  · intro hfits
    simp only [derive_of_fits hmarks hfits]
    exact hreverse

/-- Everything but the derived edges is as it should be, however many edges there are. -/
theorem lossless_of_derived (nodes : RustVec NodeRef) (edges : RustVec EdgeRef)
    (hderived : (derive (grammar.split (GraphState.new nodes edges).edges.1).1
      (grammar.split (GraphState.new nodes edges).edges.1).2.1).Perm
        (grammar.split (GraphState.new nodes edges).edges.1).2.2) :
    Lossless grammar (GraphState.new nodes edges) := by
  have hsorted := edges_sorted nodes edges
  have hnodup : (GraphState.new nodes edges).edges.1.Nodup :=
    hsorted.imp fun h heq => absurd (heq ▸ h) (lt_irrefl _)
  have hpartition : ((grammar.split (GraphState.new nodes edges).edges.1).1 ++
      (grammar.split (GraphState.new nodes edges).edges.1).2.2).Perm
        (GraphState.new nodes edges).edges.1 := by
    rw [split_eq grammar hsorted]
    exact shipped_append_dropped_perm
  refine ⟨hpartition, hderived, ?_⟩
  have hcombined := ((hderived.append_left _).trans hpartition).map EdgeRef.triple
  have htriples := hnodup.map triple_injective
  simp only [Grammar.roundTripCheck, List.toFinset_eq_of_perm _ _ hcombined,
    List.toFinset_card_of_nodup htriples, List.length_map, decide_true]

/-- A canonical state is read back from its base and the markers exactly when every marked
edge, one from the smaller end whose reverse is there, has fewer than `2 ^ 32` shipped edges
in front of it. -/
theorem lossless_iff (grammar : Grammar) (nodes : RustVec NodeRef) (edges : RustVec EdgeRef) :
    Lossless grammar (GraphState.new nodes edges) ↔
      ∀ e ∈ (GraphState.new nodes edges).edges.1,
        Paired grammar (GraphState.new nodes edges).edges.1 e →
          basePosition grammar (GraphState.new nodes edges).edges.1 e < 2 ^ 32 := by
  rw [← derive_perm_iff (edges_sorted nodes edges)]
  exact ⟨fun h => h.derived, lossless_of_derived nodes edges⟩

end RoundTrip

/-! ### Too many edges in front -/

/-- A name for each number below `2 ^ 32`. -/
def numbered (i : Nat) : RustString :=
  ⟨[Char.ofNat (65536 + i / 65536 % 65536), Char.ofNat (65536 + i % 65536)], by
    have hlength : ∀ c : Char, (String.utf8EncodeChar c).length ≤ 4 := fun c => by
      rw [String.length_utf8EncodeChar]
      exact Char.utf8Size_le_four c
    rw [utf8Bytes, List.flatMap_cons, List.flatMap_cons, List.flatMap_nil, List.append_nil,
      List.length_append]
    exact (Nat.add_le_add (hlength _) (hlength _)).trans_lt (by norm_num)⟩

theorem toNat_supplementary {n : Nat} (h : n < 65536) :
    (Char.ofNat (65536 + n)).toNat = 65536 + n := by
  have hvalid : (65536 + n).isValidChar := .inr ⟨by omega, by omega⟩
  rw [Char.ofNat, dif_pos hvalid]
  rfl

theorem numbered_inj {i j : Nat} (hi : i < 2 ^ 32) (hj : j < 2 ^ 32)
    (h : numbered i = numbered j) : i = j := by
  have hchars := Subtype.ext_iff.mp h
  simp only [numbered, List.cons.injEq, and_true] at hchars
  have hhigh := congrArg Char.toNat hchars.1
  have hlow := congrArg Char.toNat hchars.2
  rw [toNat_supplementary (Nat.mod_lt _ (by norm_num)),
    toNat_supplementary (Nat.mod_lt _ (by norm_num))] at hhigh hlow
  omega

/-- An edge from a node to itself, of a kind that is not symmetric. -/
def loop (i : Nat) : EdgeRef :=
  { «from» := numbered i, «to» := numbered i, kind := ⟨"a".toList, by decide⟩ }

/-- One direction of a pair, of a symmetric kind that is sorted behind the loops. -/
def oneWay : EdgeRef :=
  { «from» := ⟨"x".toList, by decide⟩, «to» := ⟨"y".toList, by decide⟩,
    kind := ⟨"b".toList, by decide⟩ }

def loopsAndPair : RustVec EdgeRef :=
  ⟨(List.range (2 ^ 32)).map loop ++ [oneWay, oneWay.reverse], by
    rw [List.length_append, List.length_map, List.length_range, List.length_cons,
      List.length_singleton]
    norm_num⟩

theorem mem_new_iff {nodes : RustVec NodeRef} {edges : RustVec EdgeRef} {e : EdgeRef} :
    e ∈ (GraphState.new nodes edges).edges.1 ↔ e ∈ edges.1 := Codec.mem_canonical

theorem le_basePosition {grammar : Grammar} {edges smaller : List EdgeRef} {e : EdgeRef}
    (hnodup : smaller.Nodup) (hsmaller : ∀ d ∈ smaller,
      d ∈ edges ∧ d.sortKey < e.sortKey ∧ ¬ Eligible grammar d) :
    smaller.length ≤ basePosition grammar edges e := by
  have hcount : smaller.countP (fun d => d.sortKey < e.sortKey ∧ ¬ Removable grammar edges d) =
      smaller.length := by
    rw [List.countP_eq_length]
    intro d hd
    exact decide_eq_true ⟨(hsmaller d hd).2.1, fun h => (hsmaller d hd).2.2 h.1⟩
  rw [← hcount]
  exact (List.subperm_of_subset hnodup fun d hd => (hsmaller d hd).1).countP_le _

/-- Behind `2 ^ 32` edges, the marker of a pair is read at the first of them. -/
theorem not_lossless_loopsAndPair : ¬ ∀ (grammar : Grammar) (nodes : RustVec NodeRef)
    (edges : RustVec EdgeRef), Lossless grammar (GraphState.new nodes edges) := by
  intro h
  have hlossless := h ⟨[.symmetricClosure ["b".toList]]⟩ ⟨[], by norm_num⟩ loopsAndPair
  have hfits := (derive_perm_iff (edges_sorted _ _)).mp hlossless.derived
  have hpair : Paired ⟨[.symmetricClosure ["b".toList]]⟩
      (GraphState.new ⟨[], by norm_num⟩ loopsAndPair).edges.1 oneWay := by
    refine ⟨⟨by decide, by decide⟩, by decide, ?_⟩
    rw [mem_new_iff]
    exact List.mem_append_right _ (by simp)
  have hnodup : ((List.range (2 ^ 32)).map loop).Nodup := by
    refine List.Nodup.map_on ?_ List.nodup_range
    intro i hi j hj heq
    rw [List.mem_range] at hi hj
    exact numbered_inj hi hj (congrArg EdgeRef.from heq)
  have hposition := @le_basePosition ⟨[.symmetricClosure ["b".toList]]⟩
    (GraphState.new ⟨[], by norm_num⟩ loopsAndPair).edges.1 _ oneWay hnodup ?_
  · rw [List.length_map, List.length_range] at hposition
    have hmem : oneWay ∈ (GraphState.new ⟨[], by norm_num⟩ loopsAndPair).edges.1 := by
      rw [mem_new_iff]
      exact List.mem_append_right _ List.mem_cons_self
    exact absurd (hfits oneWay hmem hpair) (not_lt.mpr hposition)
  · intro d hd
    obtain ⟨i, hi, rfl⟩ := List.mem_map.mp hd
    refine ⟨?_, ?_, ?_⟩
    · rw [mem_new_iff]
      exact List.mem_append_left _ hd
    · have hkind : ("a".toList : Str) < "b".toList := by decide
      rw [EdgeRef.sortKey, EdgeRef.sortKey, Prod.Lex.toLex_lt_toLex]
      exact .inl hkind
    · exact fun heligible => heligible.2 rfl

end AutomatisedPipeline.Zera
