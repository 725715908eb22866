import AutomatisedPipeline.Logic.Assoc
import AutomatisedPipeline.Logic.FirstMatch
import AutomatisedPipeline.Logic.MapOrder
import AutomatisedPipeline.Zera.GraphState

/-!
The codebook of a graph state (`codebook.rs`).

Labels and kinds are sorted by the text. The id prefixes come out of a hash map and are
sorted, stably, by their counts alone: prefixes with equal counts stay in the order the map
yielded them in. `fromGraph_eq_iff` says for which states every order gives one codebook.
-/

namespace AutomatisedPipeline.Zera

open Text Codec

/-! ### The source's definitions -/

structure Codebook where
  labels : List Str
  kinds : List Str
  idPrefixes : List Str
deriving DecidableEq

/-- The text of an id up to its first `:`. -/
def idPrefix (id : Str) : Option Str :=
  if ':' ∈ id then some (id.takeWhile (· ≠ ':') ++ [':']) else none

/-- `counts`: how many ids begin with each prefix. -/
def prefixCounts (nodes : List NodeRef) : List (Str × Nat) :=
  Assoc.collect ((nodes.filterMap fun n => idPrefix n.id.1).map fun p => (p, 1))

/-- `threshold`: one node in fifty. -/
def prefixThreshold (nodes : List NodeRef) : Nat := max nodes.length 1 / 50

/-- `extract_common_prefixes`, where the map yields its entries in an order. -/
def extractCommonPrefixes (order : MapOrder (Str × Nat)) (nodes : List NodeRef) : List Str :=
  (((order.yield (prefixCounts nodes)).filter fun e => prefixThreshold nodes < e.2).mergeSort
    fun a b => b.2 ≤ a.2).map Prod.fst

/-- First observation order, deduplicated, then sorted. -/
def palette (texts : List Str) : List Str :=
  (KeepFirst.keepFirst id texts).mergeSort fun a b => a ≤ b

/-- `Codebook::from_graph`. -/
def Codebook.fromGraph (order : MapOrder (Str × Nat)) (state : GraphState) : Codebook where
  labels := palette (state.nodes.1.map fun n => n.label.1)
  kinds := palette (state.edges.1.map fun e => e.kind.1)
  idPrefixes := extractCommonPrefixes order state.nodes.1

/-- Everything `content_hash` feeds to the hasher. -/
def Codebook.hashInput (codebook : Codebook) : Bytes :=
  let texts := counted fun s : Str => lengthPrefixed (utf8 s)
  texts codebook.labels ++ texts codebook.kinds ++ texts codebook.idPrefixes

/-- `content_id`, under the given hash function. -/
def Codebook.contentId (blake3 : Bytes → Bytes) (codebook : Codebook) : Str :=
  (blake3 codebook.hashInput).flatMap fun b =>
    [Nat.digitChar (b.toNat / 16), Nat.digitChar (b.toNat % 16)]

structure EncNode where
  l : UInt32
  p : Option UInt32
  s : Str

structure EncEdge where
  k : UInt32
  fp : Option UInt32
  fs : Str
  tp : Option UInt32
  ts : Str

structure EncodedGraph where
  codebookId : Str
  nodes : List EncNode
  edges : List EncEdge

/-- `idx_of`, as a `u32`; a text that is not in the palette has none. -/
def idxOf (palette : List Str) (needle : Str) : Option UInt32 :=
  (palette.findIdx? (· = needle)).map UInt32.ofNat

/-- The loop of `split_prefix` from the prefix at index `i`. -/
def splitPrefixFrom (i : Nat) (prefixes : List Str) (id : Str) : Option UInt32 × Str :=
  match prefixes with
  | [] => (none, id)
  | p :: prefixes =>
      match p.isPrefixOf? id with
      | some stripped => (some (UInt32.ofNat i), stripped)
      | none => splitPrefixFrom (i + 1) prefixes id

/-- `split_prefix`. -/
def splitPrefix (prefixes : List Str) (id : Str) : Option UInt32 × Str :=
  splitPrefixFrom 0 prefixes id

/-- A node of `EncodedGraph::encode`; `none` where its label is expected and not there. -/
def encodeNode (codebook : Codebook) (n : NodeRef) : Option EncNode :=
  (idxOf codebook.labels n.label.1).map fun l =>
    let (p, s) := splitPrefix codebook.idPrefixes n.id.1
    { l := l, p := p, s := s }

/-- An edge of `EncodedGraph::encode`; `none` where its kind is expected and not there. -/
def encodeEdge (codebook : Codebook) (e : EdgeRef) : Option EncEdge :=
  (idxOf codebook.kinds e.kind.1).map fun k =>
    let (fp, fs) := splitPrefix codebook.idPrefixes e.from.1
    let (tp, ts) := splitPrefix codebook.idPrefixes e.to.1
    { k := k, fp := fp, fs := fs, tp := tp, ts := ts }

/-- `EncodedGraph::encode`; `none` is a panic. -/
def EncodedGraph.encode (blake3 : Bytes → Bytes) (state : GraphState) (codebook : Codebook) :
    Option EncodedGraph :=
  (state.nodes.1.mapM (encodeNode codebook)).bind fun nodes =>
    (state.edges.1.mapM (encodeEdge codebook)).map fun edges =>
      { codebookId := codebook.contentId blake3, nodes := nodes, edges := edges }

/-! ### Prefixes and their counts -/

/-- How many ids of the nodes begin with a prefix. -/
def prefixCount (nodes : List NodeRef) (p : Str) : Nat :=
  (nodes.filterMap fun n => idPrefix n.id.1).count p

theorem total_ones (texts : List Str) (p : Str) :
    Assoc.total (texts.map fun t => (t, 1)) p = texts.count p := by
  induction texts with
  | nil => rfl
  | cons t texts ih =>
      rw [List.map_cons, Assoc.total_cons, ih, List.count_cons, add_comm]
      simp

theorem mem_prefixCounts_iff {nodes : List NodeRef} {p : Str} {count : Nat} :
    (p, count) ∈ prefixCounts nodes ↔ 0 < count ∧ count = prefixCount nodes p := by
  rw [prefixCounts, Assoc.mem_collect_iff, total_ones, ← prefixCount, List.map_map]
  constructor
  · rintro ⟨hmem, rfl⟩
    exact ⟨List.count_pos_iff.mpr (by simpa using hmem), rfl⟩
  · rintro ⟨hpos, rfl⟩
    exact ⟨by simpa using List.count_pos_iff.mp hpos, rfl⟩

/-! ### The order of the map -/

/-- No two prefixes that earn a slot begin equally many ids. -/
def CountsDiffer (nodes : List NodeRef) : Prop :=
  ∀ p q, prefixThreshold nodes < prefixCount nodes p → prefixCount nodes p = prefixCount nodes q →
    p = q

theorem mem_kept_iff {order : MapOrder (Str × Nat)} {nodes : List NodeRef} {p : Str} {count : Nat} :
    (p, count) ∈ (order.yield (prefixCounts nodes)).filter (fun e => prefixThreshold nodes < e.2) ↔
      prefixThreshold nodes < count ∧ count = prefixCount nodes p := by
  rw [List.mem_filter, order.mem_yield, mem_prefixCounts_iff, decide_eq_true_iff]
  constructor
  · rintro ⟨⟨-, hcount⟩, hkept⟩
    exact ⟨hkept, hcount⟩
  · rintro ⟨hkept, hcount⟩
    exact ⟨⟨Nat.zero_lt_of_lt hkept, hcount⟩, hkept⟩

theorem countsBefore_trans (a b c : Str × Nat) (hab : decide (b.2 ≤ a.2)) (hbc : decide (c.2 ≤ b.2)) :
    decide (c.2 ≤ a.2) :=
  decide_eq_true ((of_decide_eq_true hbc).trans (of_decide_eq_true hab))

theorem countsBefore_total (a b : Str × Nat) : decide (b.2 ≤ a.2) || decide (a.2 ≤ b.2) := by
  simpa using le_total b.2 a.2

/-- Where the counts differ, every order gives the same prefixes. -/
theorem extractCommonPrefixes_eq {nodes : List NodeRef} (h : CountsDiffer nodes)
    (order order' : MapOrder (Str × Nat)) :
    extractCommonPrefixes order nodes = extractCommonPrefixes order' nodes := by
  have hperm := ((order.perm (prefixCounts nodes)).trans
    (order'.perm (prefixCounts nodes)).symm).filter fun e => prefixThreshold nodes < e.2
  rw [extractCommonPrefixes, extractCommonPrefixes,
    MapOrder.mergeSort_eq_of_perm countsBefore_trans countsBefore_total hperm]
  rintro ⟨p, count⟩ ha ⟨q, count'⟩ hb hle hle'
  obtain ⟨hkept, hp⟩ := mem_kept_iff.mp ha
  obtain ⟨-, hq⟩ := mem_kept_iff.mp hb
  have hcount : count = count' :=
    le_antisymm (of_decide_eq_true hle') (of_decide_eq_true hle)
  rw [h p q (hp ▸ hkept) (hp.symm.trans (hcount.trans hq)), hcount]

/-- Where two counts are equal, the order of insertion and its reverse give different ones. -/
theorem extractCommonPrefixes_ne {nodes : List NodeRef} (h : ¬ CountsDiffer nodes) :
    extractCommonPrefixes (.inserted _) nodes ≠ extractCommonPrefixes (.backwards _) nodes := by
  simp only [CountsDiffer, not_forall] at h
  obtain ⟨p, q, hkept, hcount, hne⟩ := h
  have hkept' := hcount ▸ hkept
  have hp : (p, prefixCount nodes p) ∈
      (prefixCounts nodes).filter fun e => prefixThreshold nodes < e.2 :=
    @mem_kept_iff (.inserted _) nodes p _ |>.mpr ⟨hkept, rfl⟩
  have hq : (q, prefixCount nodes q) ∈
      (prefixCounts nodes).filter fun e => prefixThreshold nodes < e.2 :=
    @mem_kept_iff (.inserted _) nodes q _ |>.mpr ⟨hkept', rfl⟩
  apply MapOrder.mergeSort_backwards_ne countsBefore_trans countsBefore_total
    (Assoc.nodup_keys_collect _) _ (fun heq => hne (congrArg Prod.fst heq)) _ _ hp hq
  · exact decide_eq_true hcount.ge
  · exact decide_eq_true hcount.le

/-- The codebook, its content id and every encoding made with it are the same in every order
exactly when no two prefixes that earn a slot begin equally many ids. -/
theorem fromGraph_eq_iff (state : GraphState) :
    (∀ order order' : MapOrder (Str × Nat),
      Codebook.fromGraph order state = Codebook.fromGraph order' state ∧
        ∀ blake3 : Bytes → Bytes,
          (Codebook.fromGraph order state).contentId blake3 =
              (Codebook.fromGraph order' state).contentId blake3 ∧
            EncodedGraph.encode blake3 state (Codebook.fromGraph order state) =
              EncodedGraph.encode blake3 state (Codebook.fromGraph order' state)) ↔
      CountsDiffer state.nodes.1 := by
  constructor
  · intro hsame
    by_contra h
    exact extractCommonPrefixes_ne h (congrArg Codebook.idPrefixes (hsame _ _).1)
  · intro h order order'
    have heq : Codebook.fromGraph order state = Codebook.fromGraph order' state := by
      rw [Codebook.fromGraph, Codebook.fromGraph, extractCommonPrefixes_eq h order order']
    rw [heq]
    exact ⟨rfl, fun _ => ⟨rfl, rfl⟩⟩

/-- A memory and an entity: one id with each prefix. -/
def twoPrefixes : GraphState :=
  .new ⟨[⟨⟨"memory:1".toList, by decide⟩, ⟨"Memory".toList, by decide⟩⟩,
    ⟨⟨"entity:1".toList, by decide⟩, ⟨"Entity".toList, by decide⟩⟩], by decide⟩ ⟨[], by decide⟩

/-- The codebook of the two nodes depends on the order. -/
theorem fromGraph_depends_on_order :
    ¬ ∀ (state : GraphState) (order order' : MapOrder (Str × Nat)),
      Codebook.fromGraph order state = Codebook.fromGraph order' state := by
  intro hsame
  have htied : ¬ CountsDiffer twoPrefixes.nodes.1 := fun h =>
    absurd (h "memory:".toList "entity:".toList (by decide) (by decide)) (by decide)
  exact extractCommonPrefixes_ne htied (congrArg Codebook.idPrefixes (hsame twoPrefixes _ _))

end AutomatisedPipeline.Zera
