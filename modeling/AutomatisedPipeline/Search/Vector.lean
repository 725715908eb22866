import AutomatisedPipeline.Indexer.Specifiers
import AutomatisedPipeline.Logic.Assoc
import AutomatisedPipeline.Search.VectorFormat

/-!
A query of the vector index (`search/vector.rs`).

The document frequencies are rebuilt from the term ids of the loaded file: each id indexes a
table with one place for each word of the vocabulary. The loader does not compare the two, so
a query meets an id past the vocabulary with a panic; `none` stands for it. A query completes
on an index exactly when every id of the index is the id of a word.
-/

namespace AutomatisedPipeline.Search

open Text Codec
open Indexer (splitWhitespace)

/-! ### Tokens -/

/-- The letter case of the standard library. -/
structure LetterCase where
  isUppercase : Char → Bool
  toLowercase : Str → Str

/-- The loop of `tokenize_symbol` over the characters of a part. -/
def splitCamel (case : LetterCase) : Str → Str → List Str
  | [], current => if current = [] then [] else [case.toLowercase current]
  | ch :: rest, current =>
      if case.isUppercase ch ∧ current ≠ [] then
        case.toLowercase current :: splitCamel case rest [ch]
      else splitCamel case rest (current ++ [ch])

/-- `tokenize_symbol`. -/
def tokenizeSymbol (case : LetterCase) (s : Str) : Str :=
  let parts := s.splitOnP fun c => c = ':' ∨ c = '_' ∨ c = '/' ∨ c = '.'
  join [' '] ((parts.filter (· ≠ [])).flatMap fun part => splitCamel case part [])

/-- `tokenize_to_terms`. -/
def tokenizeToTerms (case : LetterCase) (s : Str) : List Str :=
  splitWhitespace (tokenizeSymbol case s)

/-! ### Weights -/

/-- A sparse vector with the values of its weights. -/
abbrev SparseTerms : Type := List (UInt32 × Float32)

/-- `vocab_to_map`: the last place of a word is its id. -/
def vocabToMap (vocabulary : List Str) (term : Str) : Option UInt32 :=
  (vocabulary.zipIdx.reverse.find? fun e => e.1 = term).map fun e => UInt32.ofNat e.2

/-- `f32::max`, of numbers. -/
def maxF32 (a b : Float32) : Float32 := if a < b then b else a

/-- The frequency of each token. -/
def termFrequencies (tokens : List Str) : List (Str × Float32) :=
  tokens.foldl (fun tf t => Assoc.upsert t 0 (· + 1) tf) []

/-- The weight of one term, where the vocabulary has it. -/
def weigh (termIdOf : Str → Option UInt32) (idf : List Float32) (maxTf : Float32)
    (entry : Str × Float32) : Option (Option (UInt32 × Float32)) :=
  match termIdOf entry.1 with
  | none => some none
  | some id => (idf[id.toNat]?).map fun d =>
      let w := (0.5 + 0.5 * (entry.2 / maxTf)) * d
      if w != 0 then some (id, w) else none

/-- `compute_sparse_tf_idf`. -/
def computeSparseTfIdf (tokens : List Str) (termIdOf : Str → Option UInt32) (idf : List Float32) :
    Option SparseTerms :=
  let tf := termFrequencies tokens
  let maxTf := maxF32 ((tf.map Prod.snd).foldl maxF32 0) 1
  (tf.mapM (weigh termIdOf idf maxTf)).map fun out =>
    (out.filterMap id).mergeSort fun a b => a.1 ≤ b.1

/-- `sparse_norm`. -/
def sparseNorm (v : SparseTerms) : Float32 :=
  let squares : List Float32 := v.map fun (e : UInt32 × Float32) => e.2 * e.2
  (squares.foldl (· + ·) 0).sqrt

/-- The merge of `sparse_cosine`. -/
def dotProduct : SparseTerms → SparseTerms → Float32 → Float32
  | [], _, dot => dot
  | _ :: _, [], dot => dot
  | (qi, qw) :: query, (dj, dw) :: doc, dot =>
      if qi = dj then dotProduct query doc (dot + qw * dw)
      else if qi < dj then dotProduct query ((dj, dw) :: doc) dot
      else dotProduct ((qi, qw) :: query) doc dot
termination_by query doc => query.length + doc.length

/-- `sparse_cosine`. -/
def sparseCosine (query : SparseTerms) (queryNorm : Float32) (doc : SparseTerms) : Float32 :=
  if query.isEmpty || doc.isEmpty then 0
  else
    let dot := dotProduct query doc 0
    let docNorm := sparseNorm doc
    if queryNorm < 1e-10 || docNorm < 1e-10 then 0 else dot / (queryNorm * docNorm)

/-- `df[id] += 1`. -/
def bump (df : List Nat) (id : UInt32) : Option (List Nat) :=
  if id.toNat < df.length then some (df.modify id.toNat (· + 1)) else none

/-- The term ids of an index, document by document. -/
def VectorIndex.termIds (index : VectorIndex) : List UInt32 :=
  index.docs.flatMap fun doc => doc.terms.map Prod.fst

/-- `reconstruct_idf`. -/
def reconstructIdf (index : VectorIndex) : Option (List Float32) :=
  let n := Float32.ofNat index.docs.length
  (index.termIds.foldlM bump (List.replicate index.vocabulary.length 0)).map fun df =>
    df.map fun d => (n / Float32.ofNat (max d 1)).log + 1

/-! ### Queries -/

/-- `VectorResult`. -/
structure VectorResult where
  qualifiedName : Str
  name : Str
  label : Str
  filePath : Str
  score : Float32

/-- The values of the weights of a document. -/
def VectorDoc.values (doc : VectorDoc) : SparseTerms :=
  doc.terms.map fun term => (term.1, Float32.ofBits term.2)

/-- The documents that match, best first. -/
def ranked (index : VectorIndex) (queryTerms : SparseTerms) (limit : Nat) :
    List (VectorDoc × Float32) :=
  let queryNorm := sparseNorm queryTerms
  if queryNorm < 1e-10 then []
  else
    let scored := index.docs.map fun doc => (doc, sparseCosine queryTerms queryNorm doc.values)
    ((scored.filter fun s => 0 < s.2).mergeSort fun a b => !decide (a.2 < b.2)).take limit

/-- `query_index`, of an index that is loaded. -/
def queryLoaded (case : LetterCase) (index : VectorIndex) (query : Str) (limit : Nat) :
    Option (List VectorResult) :=
  if index.docs.isEmpty then some []
  else
    (reconstructIdf index).bind fun idf =>
      (computeSparseTfIdf (tokenizeToTerms case query) (vocabToMap index.vocabulary) idf).map
        fun queryTerms =>
          (ranked index queryTerms limit).map fun s =>
            ⟨s.1.qualifiedName, s.1.name, s.1.label, s.1.filePath, s.2⟩

/-- `query_index`: the file where there is one, and its answer unless the query panics. -/
def queryIndex (utf8Error : Bytes → Str) (case : LetterCase) (file : Option Bytes) (query : Str)
    (limit : Nat) : Option (Except Str (List VectorResult)) :=
  match file with
  | none => some (.ok [])
  | some bytes =>
      match loadIndex utf8Error bytes with
      | .error e => some (.error e)
      | .ok index => (queryLoaded case index query limit).map .ok

/-! ### Term ids in range -/

/-- Every term id is the id of a word of the vocabulary. -/
def VectorIndex.InRange (index : VectorIndex) : Prop :=
  ∀ id ∈ index.termIds, id.toNat < index.vocabulary.length

theorem bump_eq_some {df df' : List Nat} {id : UInt32} (h : bump df id = some df') :
    id.toNat < df.length ∧ df'.length = df.length := by
  rw [bump] at h
  split at h
  · rename_i hlt
    cases h
    exact ⟨hlt, List.length_modify _ _ _⟩
  · cases h

/-- The table of frequencies is built exactly from ids that it has places for. -/
theorem foldlM_bump (ids : List UInt32) (df : List Nat) :
    (∃ df', ids.foldlM bump df = some df') ↔ ∀ id ∈ ids, id.toNat < df.length := by
  induction ids generalizing df with
  | nil => simp
  | cons id ids ih =>
      rw [List.foldlM_cons]
      cases hbump : bump df id with
      | none =>
          have hge : ¬id.toNat < df.length := by
            intro hlt
            rw [bump, if_pos hlt] at hbump
            cases hbump
          simp [hge]
      | some df' =>
          obtain ⟨hlt, hlen⟩ := bump_eq_some hbump
          rw [Option.bind_eq_bind, Option.bind_some, ih df', hlen]
          simp [hlt]

theorem length_foldlM_bump {ids : List UInt32} {df df' : List Nat}
    (h : ids.foldlM bump df = some df') : df'.length = df.length := by
  induction ids generalizing df with
  | nil =>
      cases h
      rfl
  | cons id ids ih =>
      rw [List.foldlM_cons] at h
      obtain ⟨mid, hbump, hrest⟩ := Option.bind_eq_some_iff.mp h
      rw [ih hrest, (bump_eq_some hbump).2]

theorem reconstructIdf_isSome (index : VectorIndex) :
    (∃ idf, reconstructIdf index = some idf ∧ idf.length = index.vocabulary.length) ↔
      index.InRange := by
  have hlen : (List.replicate index.vocabulary.length 0).length = index.vocabulary.length :=
    List.length_replicate
  have hbump := foldlM_bump index.termIds (List.replicate index.vocabulary.length 0)
  rw [hlen] at hbump
  rw [VectorIndex.InRange, ← hbump]
  constructor
  · rintro ⟨idf, hidf, -⟩
    obtain ⟨df, hdf, -⟩ := Option.map_eq_some_iff.mp hidf
    exact ⟨df, hdf⟩
  · rintro ⟨df, hdf⟩
    refine ⟨_, by rw [reconstructIdf, hdf, Option.map_some], ?_⟩
    rw [List.length_map, length_foldlM_bump hdf, hlen]

theorem reconstructIdf_eq_none {index : VectorIndex} (h : ¬index.InRange) :
    reconstructIdf index = none := by
  rw [← reconstructIdf_isSome] at h
  cases hidf : reconstructIdf index with
  | none => rfl
  | some idf =>
      obtain ⟨df, hdf, rfl⟩ := Option.map_eq_some_iff.mp hidf
      refine absurd ⟨_, hidf, ?_⟩ h
      rw [List.length_map, length_foldlM_bump hdf, List.length_replicate]

/-- The id of a word is in range. -/
theorem vocabToMap_lt {vocabulary : List Str} {term : Str} {id : UInt32}
    (h : vocabToMap vocabulary term = some id) : id.toNat < vocabulary.length := by
  obtain ⟨⟨word, i⟩, hfind, rfl⟩ := Option.map_eq_some_iff.mp h
  have hmem := List.mem_reverse.mp (List.mem_of_find?_eq_some hfind)
  have hlt : i < vocabulary.length := by
    obtain ⟨hlt, -⟩ := List.mem_zipIdx' hmem
    exact hlt
  exact lt_of_le_of_lt (Nat.mod_le _ _) hlt

theorem mapM_isSome {α β : Type} {f : α → Option β} {l : List α}
    (h : ∀ a ∈ l, (f a).isSome) : (l.mapM f).isSome := by
  induction l with
  | nil => rfl
  | cons a l ih =>
      obtain ⟨b, hb⟩ := Option.isSome_iff_exists.mp (h a List.mem_cons_self)
      obtain ⟨bs, hbs⟩ := Option.isSome_iff_exists.mp
        (ih fun a ha => h a (List.mem_cons_of_mem _ ha))
      rw [List.mapM_cons, hb, hbs]
      rfl

theorem computeSparseTfIdf_isSome (tokens : List Str) {vocabulary : List Str} {idf : List Float32}
    (h : idf.length = vocabulary.length) :
    (computeSparseTfIdf tokens (vocabToMap vocabulary) idf).isSome := by
  rw [computeSparseTfIdf, Option.isSome_map]
  refine mapM_isSome fun entry _ => ?_
  rw [weigh]
  cases hid : vocabToMap vocabulary entry.1 with
  | none => rfl
  | some id =>
      have hlt : id.toNat < idf.length := h ▸ vocabToMap_lt hid
      simp [List.getElem?_eq_getElem hlt]

/-- A query completes exactly where there is no document or every term id is in range. -/
theorem queryLoaded_isSome (case : LetterCase) (index : VectorIndex) (query : Str) (limit : Nat) :
    (queryLoaded case index query limit).isSome ↔ index.InRange := by
  rw [queryLoaded]
  by_cases hdocs : index.docs = []
  · have hrange : index.InRange := by
      intro id hid
      rw [VectorIndex.termIds, hdocs] at hid
      cases hid
    simp [hdocs, hrange]
  · rw [if_neg (by simpa using hdocs)]
    by_cases hrange : index.InRange
    · obtain ⟨idf, hidf, hlen⟩ := (reconstructIdf_isSome index).mpr hrange
      simp only [hidf, Option.bind_some, Option.isSome_map, hrange, iff_true]
      exact computeSparseTfIdf_isSome _ hlen
    · rw [reconstructIdf_eq_none hrange]
      simp [hrange]

/-! ### The file and its queries -/

section File

variable (utf8Error : Bytes → Str) (case : LetterCase)

/-- A file is refused, or every query of what it holds completes. -/
def Served (bytes : Bytes) : Prop :=
  (∃ e, loadIndex utf8Error bytes = .error e) ∨
    ∃ index, loadIndex utf8Error bytes = .ok index ∧
      ∀ query limit, (queryIndex utf8Error case (some bytes) query limit).isSome

/-- What is saved loads as it was; and a file is served exactly where it does not start with
the encoding of an index one of whose term ids is past the vocabulary. -/
theorem vector_file_contract :
    (∀ index : VectorIndex, index.Fits → loadIndex utf8Error (saveIndex index) = .ok index) ∧
    ∀ bytes, Served utf8Error case bytes ↔
      ∀ index rest, index.Fits → bytes = saveIndex index ++ rest → index.InRange := by
  refine ⟨fun index h => loadIndex_saveIndex utf8Error h, fun bytes => ?_⟩
  constructor
  · rintro (⟨e, herror⟩ | ⟨found, hfound, hquery⟩) index rest hfits hbytes
    · have hload := (loadIndex_ok utf8Error).mpr ⟨hfits, rest, hbytes⟩
      rw [herror] at hload
      cases hload
    · have hload := (loadIndex_ok utf8Error).mpr ⟨hfits, rest, hbytes⟩
      have hsome := hquery [] 0
      simp only [queryIndex, hload, Option.isSome_map] at hsome
      exact (queryLoaded_isSome case index [] 0).mp hsome
  · intro h
    cases hload : loadIndex utf8Error bytes with
    | error e => exact .inl ⟨e, hload⟩
    | ok index =>
        obtain ⟨hfits, rest, hbytes⟩ := (loadIndex_ok utf8Error).mp hload
        refine .inr ⟨index, hload, fun query limit => ?_⟩
        simp only [queryIndex, hload, Option.isSome_map]
        exact (queryLoaded_isSome case index query limit).mpr (h index rest hfits hbytes)

end File

/-- An index of one document, one word and one weight. -/
def oneTerm : VectorIndex := ⟨[⟨['a', ':', ':', 'b'], ['b'], ['F'], ['a'], [(0, 5)]⟩], [['b']]⟩

theorem vector_file_contract_one_term :
    loadIndex (fun _ => []) (saveIndex oneTerm) = .ok oneTerm := by
  have hfits : oneTerm.Fits := by
    refine ⟨by decide, by decide, fun term hterm => ?_, fun doc hdoc => ?_⟩
    · rw [oneTerm, List.mem_singleton] at hterm
      subst hterm
      exact (by decide : (utf8 ['b']).length < 2 ^ 32)
    · rw [oneTerm, List.mem_singleton] at hdoc
      subst hdoc
      have hname : (utf8 ['a', ':', ':', 'b']).length < 2 ^ 32 := by decide
      exact ⟨hname, (by decide : (utf8 ['b']).length < 2 ^ 32),
        (by decide : (utf8 ['F']).length < 2 ^ 32), (by decide : (utf8 ['a']).length < 2 ^ 32),
        by decide⟩
  exact (vector_file_contract (fun _ => []) ⟨Char.isUpper, List.map Char.toLower⟩).1 oneTerm hfits

/-- An index with no word and a document that has a term. -/
def strayTerm : VectorIndex := ⟨[⟨[], [], [], [], [(0, 0)]⟩], []⟩

/-- The file of `strayTerm` loads, and a query of it indexes past the vocabulary. -/
theorem stray_term_panics :
    loadIndex (fun _ => []) (saveIndex strayTerm) = .ok strayTerm ∧
      queryIndex (fun _ => []) ⟨Char.isUpper, List.map Char.toLower⟩ (some (saveIndex strayTerm))
        "word".toList 10 = none := by
  have hfits : strayTerm.Fits := by
    refine ⟨by decide, by decide, by simp [strayTerm], fun doc hdoc => ?_⟩
    rw [strayTerm, List.mem_singleton] at hdoc
    subst hdoc
    exact ⟨by simp [StringFits], by simp [StringFits], by simp [StringFits], by simp [StringFits],
      by decide⟩
  have hload : loadIndex (fun _ => []) (saveIndex strayTerm) = .ok strayTerm :=
    loadIndex_saveIndex _ hfits
  refine ⟨hload, ?_⟩
  have hrange : ¬strayTerm.InRange := by
    intro h
    exact absurd (h 0 (by decide)) (by decide)
  simp only [queryIndex, hload, Option.map_eq_none_iff]
  have hsome := mt (queryLoaded_isSome ⟨Char.isUpper, List.map Char.toLower⟩ strayTerm
    "word".toList 10).mp hrange
  exact Option.not_isSome_iff_eq_none.mp hsome

end AutomatisedPipeline.Search
