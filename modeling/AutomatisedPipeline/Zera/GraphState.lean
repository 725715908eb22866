import AutomatisedPipeline.Codec.Canonical
import AutomatisedPipeline.Codec.Utf8

/-!
The content hash of a graph state: nodes and edges are sorted and stripped of
repetitions, and every string is hashed behind its length. The bytes fed to the
hash identify the set of nodes and the set of edges.
-/

namespace AutomatisedPipeline.Zera

open Text Codec

/-- `str::as_bytes`. -/
def utf8Bytes (s : Str) : Bytes := s.flatMap String.utf8EncodeChar

/-- A `String` is an allocation: it is shorter than `isize::MAX` bytes. -/
abbrev RustString : Type := { s : Str // (utf8Bytes s).length < 2 ^ 63 }

/-- So is a `Vec`. -/
abbrev RustVec (α : Type) : Type := { l : List α // l.length < 2 ^ 63 }

@[ext]
structure NodeRef where
  id : RustString
  label : RustString
deriving DecidableEq

@[ext]
structure EdgeRef where
  «from» : RustString
  «to» : RustString
  kind : RustString
deriving DecidableEq

structure GraphState where
  nodes : RustVec NodeRef
  edges : RustVec EdgeRef

/-- What nodes are sorted by. -/
def NodeRef.sortKey (n : NodeRef) : Lex (Str × Str) := toLex (n.label.1, n.id.1)

/-- What edges are sorted by. -/
def EdgeRef.sortKey (e : EdgeRef) : Lex (Str × Lex (Str × Str)) :=
  toLex (e.kind.1, toLex (e.from.1, e.to.1))

def canonicalVec {α κ : Type} [LinearOrder κ] [DecidableEq α] (key : α → κ) (v : RustVec α) :
    RustVec α :=
  ⟨canonical key v.1, (length_canonical_le key v.1).trans_lt v.2⟩

/-- `GraphState::new`. -/
def GraphState.new (nodes : RustVec NodeRef) (edges : RustVec EdgeRef) : GraphState where
  nodes := canonicalVec NodeRef.sortKey nodes
  edges := canonicalVec EdgeRef.sortKey edges

def stringBytes (s : RustString) : Bytes := lengthPrefixed (utf8Bytes s.1)

def nodeBytes (n : NodeRef) : Bytes := stringBytes n.label ++ stringBytes n.id

def edgeBytes (e : EdgeRef) : Bytes :=
  stringBytes e.kind ++ (stringBytes e.from ++ stringBytes e.to)

/-- Everything `content_hash` feeds to the hasher. -/
def GraphState.hashInput (g : GraphState) : Bytes :=
  counted nodeBytes g.nodes.1 ++ counted edgeBytes g.edges.1

/-- `content_hash`, under the given hash function. -/
def GraphState.contentHash {Digest : Type} (blake3 : Bytes → Digest) (g : GraphState) : Digest :=
  blake3 g.hashInput

/-! ### Records are read back -/

theorem utf8Bytes_injective : Function.Injective utf8Bytes := utf8_injective

theorem stringBytes_prefixFree : PrefixFree stringBytes := by
  intro s t x y heq
  have hbound : ∀ u : RustString, (utf8Bytes u.1).length < 2 ^ 64 :=
    fun u => u.2.trans (by decide)
  obtain ⟨hbytes, hxy⟩ := lengthPrefixed_inj (hbound s) (hbound t) heq
  exact ⟨Subtype.ext (utf8Bytes_injective hbytes), hxy⟩

theorem nodeBytes_prefixFree : PrefixFree nodeBytes := by
  have hpair := stringBytes_prefixFree.pair stringBytes_prefixFree
  refine @PrefixFree.comp _ _ _ hpair (fun n : NodeRef => (n.label, n.id)) ?_
  intro n n' heq
  obtain ⟨hlabel, hid⟩ := Prod.mk.inj heq
  exact NodeRef.ext hid hlabel

theorem edgeBytes_prefixFree : PrefixFree edgeBytes := by
  have htriple :=
    stringBytes_prefixFree.pair (stringBytes_prefixFree.pair stringBytes_prefixFree)
  refine @PrefixFree.comp _ _ _ htriple (fun e : EdgeRef => (e.kind, e.from, e.to)) ?_
  intro e e' heq
  obtain ⟨hkind, hends⟩ := Prod.mk.inj heq
  obtain ⟨hsource, htarget⟩ := Prod.mk.inj hends
  exact EdgeRef.ext hsource htarget hkind

theorem NodeRef.sortKey_injective : Function.Injective NodeRef.sortKey := by
  intro n n' heq
  obtain ⟨hlabel, hid⟩ := Prod.mk.inj (toLex.injective heq)
  exact NodeRef.ext (Subtype.ext hid) (Subtype.ext hlabel)

theorem EdgeRef.sortKey_injective : Function.Injective EdgeRef.sortKey := by
  intro e e' heq
  obtain ⟨hkind, hends⟩ := Prod.mk.inj (toLex.injective heq)
  obtain ⟨hsource, htarget⟩ := Prod.mk.inj (toLex.injective hends)
  exact EdgeRef.ext (Subtype.ext hsource) (Subtype.ext htarget) (Subtype.ext hkind)

theorem canonicalVec_eq_iff {α κ : Type} [LinearOrder κ] [DecidableEq α] {key : α → κ}
    (hkey : Function.Injective key) {v v' : RustVec α} :
    canonicalVec key v = canonicalVec key v' ↔ ∀ a, a ∈ v.1 ↔ a ∈ v'.1 :=
  Subtype.ext_iff.trans (canonical_eq_iff hkey)

/-- The bytes fed to the hash identify the state, whatever its strings hold. -/
theorem hashInput_injective : Function.Injective GraphState.hashInput := by
  rintro ⟨nodes, edges⟩ ⟨nodes', edges'⟩ heq
  have hbound : ∀ {α : Type} (v : RustVec α), v.1.length < 2 ^ 64 :=
    fun v => v.2.trans (by decide)
  obtain ⟨hnodes, hedges⟩ :=
    counted_inj nodeBytes_prefixFree (hbound nodes) (hbound nodes') heq
  have hedges' : counted edgeBytes edges.1 ++ [] = counted edgeBytes edges'.1 ++ [] := by
    rw [List.append_nil, List.append_nil]
    exact hedges
  obtain ⟨hlists, _⟩ :=
    counted_inj edgeBytes_prefixFree (hbound edges) (hbound edges') hedges'
  rw [Subtype.ext hnodes, Subtype.ext hlists]

/-- Two lists of nodes and two lists of edges give equal hash input exactly when
they have the same nodes and the same edges. -/
theorem hashInput_new_eq_iff (nodes nodes' : RustVec NodeRef) (edges edges' : RustVec EdgeRef) :
    (GraphState.new nodes edges).hashInput = (GraphState.new nodes' edges').hashInput ↔
      (∀ n, n ∈ nodes.1 ↔ n ∈ nodes'.1) ∧ ∀ e, e ∈ edges.1 ↔ e ∈ edges'.1 := by
  rw [hashInput_injective.eq_iff, GraphState.new, GraphState.new, GraphState.mk.injEq,
    canonicalVec_eq_iff NodeRef.sortKey_injective, canonicalVec_eq_iff EdgeRef.sortKey_injective]

end AutomatisedPipeline.Zera
