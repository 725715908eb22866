import AutomatisedPipeline.Logic.Float32
import AutomatisedPipeline.Search.Vector

/-!
The idf at build time and at query time (`search/vector.rs`).

`build_vocabulary_idf` counts the documents of each term in the texts; `reconstruct_idf`
counts the ids that were stored. A term is stored where its weight is not zero, and no weight
is: an idf is at least one, and the factor of the frequency at least a half, whatever is
rounded. The ids are `u32`: the counts are equal exactly where there is one for each term
(`reconstructs_iff`).
-/

namespace AutomatisedPipeline.Search

open Text Codec Floats

/-! ### Building -/

/-- What `collect_raw_docs` has of a document. -/
structure RawDoc where
  qualifiedName : Str
  name : Str
  label : Str
  filePath : Str
  tokens : List Str
deriving DecidableEq

/-- A `Vec` of documents: its length is below `isize::MAX`. -/
abbrev Corpus : Type := { rawDocs : List RawDoc // rawDocs.length < 2 ^ 63 }

/-- The document frequencies, over the different tokens of each document. -/
def documentFrequencies (rawDocs : List RawDoc) : List (Str × Nat) :=
  rawDocs.foldl (fun df doc =>
    doc.tokens.dedup.foldl (fun df t => Assoc.upsert t 0 (· + 1) df) df) []

/-- The keys of the frequencies, sorted. -/
def vocabularyOf (rawDocs : List RawDoc) : List Str :=
  ((documentFrequencies rawDocs).map Prod.fst).mergeSort (· ≤ ·)

section Ln

variable (ln : Float32 → Float32)

/-- `(n / d).ln() + 1.0`. -/
def idfOf (n d : Nat) : Float32 := ln (Float32.ofNat n / Float32.ofNat d) + 1

/-- `build_vocabulary_idf`. -/
def buildVocabularyIdf (rawDocs : List RawDoc) :
    List Str × List Float32 × (Str → Option UInt32) :=
  let df := documentFrequencies rawDocs
  let vocabulary := vocabularyOf rawDocs
  let idf := vocabulary.map fun term => idfOf ln rawDocs.length ((df.lookup term).getD 1)
  (vocabulary, idf, vocabToMap vocabulary)

/-- One document of `build_index`. -/
def storeDoc (termIdOf : Str → Option UInt32) (idf : List Float32) (doc : RawDoc) :
    Option VectorDoc :=
  (computeSparseTfIdf doc.tokens termIdOf idf).map fun terms =>
    { qualifiedName := doc.qualifiedName
      name := doc.name
      label := doc.label
      filePath := doc.filePath
      terms := terms.map fun t => (t.1, t.2.toBits) }

/-- `build_index`, up to the saving. -/
def buildIndex (rawDocs : List RawDoc) : Option VectorIndex :=
  let (vocabulary, idf, termIdOf) := buildVocabularyIdf ln rawDocs
  (rawDocs.mapM (storeDoc termIdOf idf)).map fun docs => ⟨docs, vocabulary⟩

/-- The document frequencies that `reconstruct_idf` counts. -/
def storedFrequencies (index : VectorIndex) : Option (List Nat) :=
  index.termIds.foldlM bump (List.replicate index.vocabulary.length 0)

/-- `reconstruct_idf`, under the given logarithm. -/
def rebuildIdf (index : VectorIndex) : Option (List Float32) :=
  (storedFrequencies index).map fun df => df.map fun d => idfOf ln index.docs.length (max d 1)

/-- The document frequencies of the vocabulary, as they were counted. -/
def countedFrequencies (rawDocs : List RawDoc) : List Nat :=
  (vocabularyOf rawDocs).map fun term => ((documentFrequencies rawDocs).lookup term).getD 0

/-- The frequencies of the stored documents are those of the texts, and so are the idf. -/
def Reconstructs (rawDocs : List RawDoc) : Prop :=
  ∃ index, buildIndex ln rawDocs = some index ∧
    storedFrequencies index = some (countedFrequencies rawDocs) ∧
    rebuildIdf ln index = some (buildVocabularyIdf ln rawDocs).2.1

/-- A logarithm that is not negative from one on. -/
def NonnegFromOne : Prop := ∀ x : Float32, 1 ≤ x → 0 ≤ ln x

end Ln

/-! ### Counts -/

/-- How many documents have a term. -/
def containing (rawDocs : List RawDoc) (t : Str) : Nat :=
  rawDocs.countP fun doc => t ∈ doc.tokens

theorem documentFrequencies_eq (rawDocs : List RawDoc) : documentFrequencies rawDocs =
    (rawDocs.flatMap fun doc => doc.tokens.dedup).foldl
      (fun df t => Assoc.upsert t 0 (· + 1) df) [] := by
  rw [List.foldl_flatMap]
  rfl

theorem count_of_nodup {l : List Str} (h : l.Nodup) (t : Str) :
    l.count t = if t ∈ l then 1 else 0 := by
  split
  · rename_i hmem
    exact List.count_eq_one_of_mem h hmem
  · rename_i hmem
    exact List.count_eq_zero_of_not_mem hmem

/-- Where each list has an element once or not at all, it comes as often as lists have it. -/
theorem count_flatMap_eq_countP {α β : Type} [BEq β] {l : List α} {f : α → List β}
    {p : α → Bool} {b : β} (h : ∀ a ∈ l, (f a).count b = if p a then 1 else 0) :
    (l.flatMap f).count b = l.countP p := by
  induction l with
  | nil => rfl
  | cons a l ih =>
      rw [List.forall_mem_cons] at h
      rw [List.flatMap_cons, List.count_append, ih h.2, h.1, List.countP_cons, Nat.add_comm]

theorem count_flatMap_dedup (rawDocs : List RawDoc) (t : Str) :
    (rawDocs.flatMap fun doc => doc.tokens.dedup).count t = containing rawDocs t := by
  rw [containing]
  apply count_flatMap_eq_countP
  intro doc _
  rw [count_of_nodup (List.nodup_dedup _)]
  simp only [List.mem_dedup, decide_eq_true_eq]

theorem lookup_documentFrequencies (rawDocs : List RawDoc) (t : Str) :
    (documentFrequencies rawDocs).lookup t =
      if ∃ doc ∈ rawDocs, t ∈ doc.tokens then some (containing rawDocs t) else none := by
  rw [documentFrequencies_eq, Assoc.lookup_foldl_upsert_const, count_flatMap_dedup]
  have hiterate : ∀ k : Nat, (· + 1)^[k] 0 = k := fun k => by
    rw [Nat.succ_iterate, Nat.zero_add]
  simp only [List.mem_flatMap, List.mem_dedup, hiterate]

theorem nodup_vocabularyOf (rawDocs : List RawDoc) : (vocabularyOf rawDocs).Nodup := by
  have hkeys : ((documentFrequencies rawDocs).map Prod.fst).Nodup := by
    rw [documentFrequencies_eq]
    exact Assoc.nodup_keys_foldl_upsert _ _ _
  exact (List.mergeSort_perm _ _).nodup_iff.mpr hkeys

theorem mem_vocabularyOf {rawDocs : List RawDoc} {t : Str} :
    t ∈ vocabularyOf rawDocs ↔ ∃ doc ∈ rawDocs, t ∈ doc.tokens := by
  rw [vocabularyOf, List.mem_mergeSort, documentFrequencies_eq, Assoc.mem_keys_foldl_upsert]
  simp only [List.map_nil, List.not_mem_nil, false_or, List.mem_flatMap, List.mem_dedup]

theorem lookup_of_mem_vocabularyOf {rawDocs : List RawDoc} {t : Str}
    (ht : t ∈ vocabularyOf rawDocs) :
    (documentFrequencies rawDocs).lookup t = some (containing rawDocs t) := by
  rw [lookup_documentFrequencies, if_pos (mem_vocabularyOf.mp ht)]

theorem containing_pos {rawDocs : List RawDoc} {t : Str} (ht : t ∈ vocabularyOf rawDocs) :
    0 < containing rawDocs t := by
  obtain ⟨doc, hdoc, hmem⟩ := mem_vocabularyOf.mp ht
  exact List.countP_pos_iff.mpr ⟨doc, hdoc, decide_eq_true hmem⟩

/-! ### Weights -/

/-- A frequency is a small natural number. -/
def Counted (x : Float32) : Prop := ∃ k, k ≠ 0 ∧ k ≤ 2 ^ 24 ∧ x = Float32.ofNat k

/-- Counting by ones stops at `2 ^ 24`. -/
theorem iterate_add_one (k : Nat) :
    (· + 1)^[k] (0 : Float32) = Float32.ofNat (min k (2 ^ 24)) := by
  induction k with
  | zero => rfl
  | succ k ih =>
      rw [Function.iterate_succ_apply', ih]
      rcases lt_or_ge k (2 ^ 24) with hlt | hge
      · rw [min_eq_left hlt.le, min_eq_left (Nat.succ_le_of_lt hlt)]
        exact ofNat_add_one hlt
      · rw [min_eq_right hge, min_eq_right (hge.trans (Nat.le_succ k))]
        exact ofNat_last_add_one

theorem mem_termFrequencies {tokens : List Str} {entry : Str × Float32}
    (h : entry ∈ termFrequencies tokens) : entry.1 ∈ tokens ∧ Counted entry.2 := by
  have hnodup : ((termFrequencies tokens).map Prod.fst).Nodup :=
    Assoc.nodup_keys_foldl_upsert _ _ _
  have hlookup := Assoc.lookup_of_mem hnodup h
  rw [termFrequencies, Assoc.lookup_foldl_upsert_const] at hlookup
  split at hlookup
  · rename_i hmem
    rw [Option.some.injEq, iterate_add_one] at hlookup
    refine ⟨hmem, _, ?_, min_le_right _ _, hlookup.symm⟩
    have hcount := List.count_pos_iff.mpr hmem
    omega
  · cases hlookup

theorem map_fst_termFrequencies_perm (tokens : List Str) :
    ((termFrequencies tokens).map Prod.fst).Perm tokens.dedup := by
  have hnodup : ((termFrequencies tokens).map Prod.fst).Nodup :=
    Assoc.nodup_keys_foldl_upsert _ _ _
  rw [List.perm_ext_iff_of_nodup hnodup (List.nodup_dedup _)]
  intro t
  rw [termFrequencies, Assoc.mem_keys_foldl_upsert, List.mem_dedup]
  simp

theorem foldl_maxF32 (l : List Float32) (a : Float32) :
    l.foldl maxF32 a = a ∨ l.foldl maxF32 a ∈ l := by
  induction l generalizing a with
  | nil => exact .inl rfl
  | cons b l ih =>
      have hmax : maxF32 a b = a ∨ maxF32 a b = b := by
        rw [maxF32]
        split
        · exact .inr rfl
        · exact .inl rfl
      rw [List.foldl_cons]
      rcases ih (maxF32 a b) with h | h
      · rcases hmax with hmax | hmax
        · exact .inl (h.trans hmax)
        · rw [h, hmax]
          exact .inr List.mem_cons_self
      · exact .inr (List.mem_cons_of_mem _ h)

/-- The largest frequency is one, too. -/
theorem counted_maxTf (tokens : List Str) :
    Counted (maxF32 (((termFrequencies tokens).map Prod.snd).foldl maxF32 0) 1) := by
  have hone : Counted 1 := ⟨1, one_ne_zero, by norm_num, rfl⟩
  have hzero : maxF32 0 1 = 1 := by decide +kernel
  rcases foldl_maxF32 ((termFrequencies tokens).map Prod.snd) 0 with h | h
  · rw [h, hzero]
    exact hone
  · obtain ⟨entry, hentry, heq⟩ := List.mem_map.mp h
    rw [← heq, maxF32]
    split
    · exact hone
    · exact (mem_termFrequencies hentry).2

/-- No weight of a term is zero. -/
theorem weight_ne_zero {tf maxTf d : Float32} (htf : Counted tf) (hmax : Counted maxTf)
    (hd : AtLeastF32 0 d) : ((0.5 + 0.5 * (tf / maxTf)) * d != 0) = true := by
  obtain ⟨k, hk, hle, rfl⟩ := htf
  obtain ⟨k', hk', hle', rfl⟩ := hmax
  have hquotient : NonnegF32 (Float32.ofNat k / Float32.ofNat k') :=
    nonneg_div_ofNat hk (hle.trans_lt (by norm_num)) hk' (hle'.trans_lt (by norm_num))
  have hnorm := atLeast_half_add (nonneg_half_mul hquotient)
  exact ne_zero_of_atLeast (atLeast_mul (by norm_num) hnorm hd)

section Ln

variable {ln : Float32 → Float32}

/-- An idf is at least one. -/
theorem atLeast_idfOf (hln : NonnegFromOne ln) {n d : Nat} (hd : d ≠ 0) (hle : d ≤ n)
    (hn : n < 2 ^ 64) : AtLeastF32 0 (idfOf ln n d) :=
  atLeast_add_one (nonneg_of_le (hln _ (one_le_of_atLeast (atLeast_div_ofNat hd hle hn))))

theorem atLeast_of_mem_idf (hln : NonnegFromOne ln) (corpus : Corpus) {d : Float32}
    (h : d ∈ (buildVocabularyIdf ln corpus.1).2.1) : AtLeastF32 0 d := by
  obtain ⟨t, ht, rfl⟩ := List.mem_map.mp h
  rw [lookup_of_mem_vocabularyOf ht, Option.getD_some]
  exact atLeast_idfOf hln (containing_pos ht).ne' List.countP_le_length
    (corpus.2.trans (by norm_num))

end Ln

/-! ### Ids -/

theorem vocabToMap_of_mem {vocabulary : List Str} (hnodup : vocabulary.Nodup) {t : Str}
    (ht : t ∈ vocabulary) :
    vocabToMap vocabulary t = some (UInt32.ofNat (vocabulary.idxOf t)) := by
  have hlt := List.idxOf_lt_length_of_mem ht
  have hmem : (t, vocabulary.idxOf t) ∈ vocabulary.zipIdx := by
    rw [List.mk_mem_zipIdx_iff_getElem?, List.getElem?_eq_getElem hlt, List.getElem_idxOf hlt]
  cases hfind : vocabulary.zipIdx.reverse.find? fun e => e.1 = t with
  | none =>
      rw [List.find?_eq_none] at hfind
      exact absurd (decide_eq_true rfl) (hfind _ (List.mem_reverse.mpr hmem))
  | some e =>
      obtain ⟨word, i⟩ := e
      have hword := List.find?_some hfind
      obtain rfl : word = t := of_decide_eq_true hword
      have hget := List.mem_reverse.mp (List.mem_of_find?_eq_some hfind)
      rw [List.mk_mem_zipIdx_iff_getElem?] at hget
      obtain ⟨hi, heq⟩ := List.getElem?_eq_some_iff.mp hget
      rw [vocabToMap, hfind, Option.map_some, ← heq, hnodup.idxOf_getElem]

theorem mapM_eq_some {α β : Type} {f : α → Option β} {g : α → β} {l : List α}
    (h : ∀ a ∈ l, f a = some (g a)) : l.mapM f = some (l.map g) := by
  induction l with
  | nil => rfl
  | cons a l ih =>
      rw [List.forall_mem_cons] at h
      rw [List.mapM_cons, h.1, ih h.2]
      rfl

/-- Every token of a document is stored, with the id of its place in the vocabulary. -/
theorem computeSparseTfIdf_ids {vocabulary : List Str} (hnodup : vocabulary.Nodup)
    {idf : List Float32} (hlen : idf.length = vocabulary.length)
    (hidf : ∀ d ∈ idf, AtLeastF32 0 d) {tokens : List Str}
    (htokens : ∀ t ∈ tokens, t ∈ vocabulary) :
    ∃ terms, computeSparseTfIdf tokens (vocabToMap vocabulary) idf = some terms ∧
      (terms.map Prod.fst).Perm
        (tokens.dedup.map fun t => UInt32.ofNat (vocabulary.idxOf t)) := by
  have hweigh : ∀ entry ∈ termFrequencies tokens, weigh (vocabToMap vocabulary) idf
      (maxF32 (((termFrequencies tokens).map Prod.snd).foldl maxF32 0) 1) entry =
        some (some (UInt32.ofNat (vocabulary.idxOf entry.1), (0.5 + 0.5 * (entry.2 /
          maxF32 (((termFrequencies tokens).map Prod.snd).foldl maxF32 0) 1)) *
            (idf[(UInt32.ofNat (vocabulary.idxOf entry.1)).toNat]?).getD 0)) := by
    intro entry hentry
    obtain ⟨hmem, hcounted⟩ := mem_termFrequencies hentry
    have hid := vocabToMap_of_mem hnodup (htokens _ hmem)
    have hlt := vocabToMap_lt hid
    rw [← hlen] at hlt
    have hne := weight_ne_zero hcounted (counted_maxTf tokens) (hidf _ (List.getElem_mem hlt))
    rw [weigh, hid]
    simp only [List.getElem?_eq_getElem hlt, Option.map_some, Option.getD_some, hne, if_true]
  rw [computeSparseTfIdf, mapM_eq_some hweigh]
  refine ⟨_, rfl, ((List.mergeSort_perm _ _).map Prod.fst).trans ?_⟩
  have hids : ∀ g : Str × Float32 → UInt32 × Float32,
      (((termFrequencies tokens).map fun entry => some (g entry)).filterMap id).map Prod.fst =
        (termFrequencies tokens).map fun entry => (g entry).1 := by
    intro g
    rw [List.filterMap_map]
    change ((termFrequencies tokens).filterMap (some ∘ g)).map Prod.fst = _
    rw [List.filterMap_eq_map, List.map_map]
    rfl
  rw [hids]
  have hperm := (map_fst_termFrequencies_perm tokens).map fun t =>
    UInt32.ofNat (vocabulary.idxOf t)
  rw [List.map_map] at hperm
  exact hperm

/-! ### The two counts -/

/-- The table of frequencies has at each place how often its id came. -/
theorem foldlM_bump_eq {ids : List UInt32} {df : List Nat}
    (h : ∀ id ∈ ids, id.toNat < df.length) :
    ids.foldlM bump df = some (df.mapIdx fun i d => d + (ids.map UInt32.toNat).count i) := by
  induction ids generalizing df with
  | nil =>
      have hsame : df.mapIdx (fun i d => d + ([].map UInt32.toNat).count i) = df := by
        refine List.ext_getElem List.length_mapIdx fun i hi hi' => ?_
        rw [List.getElem_mapIdx]
        rfl
      rw [hsame]
      rfl
  | cons id ids ih =>
      rw [List.forall_mem_cons] at h
      have hbump : bump df id = some (df.modify id.toNat (· + 1)) := by
        rw [bump, if_pos h.1]
      have hrest : ∀ id' ∈ ids, id'.toNat < (df.modify id.toNat (· + 1)).length := by
        rw [List.length_modify]
        exact h.2
      rw [List.foldlM_cons, hbump, Option.bind_eq_bind, Option.bind_some, ih hrest]
      congr 1
      refine List.ext_getElem (by simp) fun i hi hi' => ?_
      have hcount : ((id :: ids).map UInt32.toNat).count i =
          (ids.map UInt32.toNat).count i + if id.toNat = i then 1 else 0 := by
        rw [List.map_cons, List.count_cons]
        simp only [beq_iff_eq]
      rw [List.getElem_mapIdx, List.getElem_mapIdx, List.getElem_modify, hcount]
      by_cases heq : id.toNat = i
      · rw [if_pos heq, if_pos heq]
        omega
      · rw [if_neg heq, if_neg heq]
        rfl

section Corpus

variable {ln : Float32 → Float32}

/-- The ids that a document is stored with. -/
def idsOf (rawDocs : List RawDoc) (doc : RawDoc) : List UInt32 :=
  doc.tokens.dedup.map fun t => UInt32.ofNat ((vocabularyOf rawDocs).idxOf t)

/-- The index of a corpus is built, and holds the ids of all tokens. -/
theorem buildIndex_eq (hln : NonnegFromOne ln) (corpus : Corpus) :
    ∃ index, buildIndex ln corpus.1 = some index ∧
      index.vocabulary = vocabularyOf corpus.1 ∧ index.docs.length = corpus.1.length ∧
        index.termIds.Perm (corpus.1.flatMap (idsOf corpus.1)) := by
  have hstore : ∀ doc ∈ corpus.1, ∃ stored, storeDoc (vocabToMap (vocabularyOf corpus.1))
      (buildVocabularyIdf ln corpus.1).2.1 doc = some stored ∧
        (stored.terms.map Prod.fst).Perm (idsOf corpus.1 doc) := by
    intro doc hdoc
    have hlen : (buildVocabularyIdf ln corpus.1).2.1.length = (vocabularyOf corpus.1).length :=
      List.length_map _
    obtain ⟨terms, hterms, hperm⟩ := computeSparseTfIdf_ids (nodup_vocabularyOf corpus.1) hlen
      (fun d hd => atLeast_of_mem_idf hln corpus hd)
      (fun t ht => mem_vocabularyOf.mpr ⟨doc, hdoc, ht⟩)
    refine ⟨_, by rw [storeDoc, hterms, Option.map_some], ?_⟩
    rw [List.map_map]
    exact hperm
  have : Nonempty VectorDoc := ⟨⟨[], [], [], [], []⟩⟩
  choose! stored hstored hperm using hstore
  refine ⟨⟨corpus.1.map stored, vocabularyOf corpus.1⟩, ?_, rfl, List.length_map _, ?_⟩
  · have hdocs := mapM_eq_some hstored
    change Option.map (fun docs => (⟨docs, vocabularyOf corpus.1⟩ : VectorIndex)) _ = _
    exact congrArg _ hdocs
  · rw [VectorIndex.termIds, List.flatMap_map]
    exact List.Perm.flatMap_left _ hperm

/-- What is stored for a term is counted once for each document that has it, as long as each
term has an id of its own. -/
theorem count_ids {corpus : Corpus} (hids : (vocabularyOf corpus.1).length ≤ 2 ^ 32) (t : Str) :
    ((corpus.1.flatMap (idsOf corpus.1)).map UInt32.toNat).count
      ((vocabularyOf corpus.1).idxOf t) = containing corpus.1 t := by
  have htoNat : ∀ t' ∈ vocabularyOf corpus.1,
      (UInt32.ofNat ((vocabularyOf corpus.1).idxOf t')).toNat =
        (vocabularyOf corpus.1).idxOf t' := by
    intro t' ht'
    rw [UInt32.toNat_ofNat']
    exact Nat.mod_eq_of_lt ((List.idxOf_lt_length_of_mem ht').trans_le hids)
  rw [List.map_flatMap, containing]
  apply count_flatMap_eq_countP
  intro doc hdoc
  have hmem : ∀ t' ∈ doc.tokens.dedup, t' ∈ vocabularyOf corpus.1 :=
    fun t' ht' => mem_vocabularyOf.mpr ⟨doc, hdoc, List.mem_dedup.mp ht'⟩
  have hplaces : (idsOf corpus.1 doc).map UInt32.toNat =
      doc.tokens.dedup.map (vocabularyOf corpus.1).idxOf := by
    rw [idsOf, List.map_map]
    exact List.map_congr_left fun t' ht' => htoNat t' (hmem t' ht')
  have hcount : (doc.tokens.dedup.map (vocabularyOf corpus.1).idxOf).count
      ((vocabularyOf corpus.1).idxOf t) = doc.tokens.dedup.count t := by
    rw [List.count_eq_countP, List.countP_map, List.count_eq_countP]
    refine List.countP_congr fun t' ht' => ?_
    simp only [Function.comp_apply, beq_iff_eq]
    exact List.idxOf_inj (hmem t' ht')
  rw [hplaces, hcount, count_of_nodup (List.nodup_dedup _)]
  simp only [List.mem_dedup, decide_eq_true_eq]

/-- The table of a corpus has how often the id of each place was stored. -/
theorem storedFrequencies_eq {corpus : Corpus} {index : VectorIndex}
    (hvocabulary : index.vocabulary = vocabularyOf corpus.1)
    (hperm : index.termIds.Perm (corpus.1.flatMap (idsOf corpus.1))) :
    storedFrequencies index = some ((List.replicate (vocabularyOf corpus.1).length 0).mapIdx
      fun i d => d + ((corpus.1.flatMap (idsOf corpus.1)).map UInt32.toNat).count i) := by
  have hrange : ∀ id ∈ index.termIds,
      id.toNat < (List.replicate (vocabularyOf corpus.1).length 0).length := by
    intro id hid
    obtain ⟨doc, hdoc, hmem⟩ := List.mem_flatMap.mp (hperm.mem_iff.mp hid)
    obtain ⟨t, ht, rfl⟩ := List.mem_map.mp hmem
    have hplace := List.idxOf_lt_length_of_mem
      (mem_vocabularyOf.mpr ⟨doc, hdoc, List.mem_dedup.mp ht⟩)
    rw [List.length_replicate, UInt32.toNat_ofNat']
    exact (Nat.mod_le _ _).trans_lt hplace
  have hcount := fun i => (hperm.map UInt32.toNat).count_eq i
  rw [storedFrequencies, hvocabulary, foldlM_bump_eq hrange]
  simp only [hcount]

/-- Where each term has an id of its own, the two counts are equal. -/
theorem storedFrequencies_eq_counted {corpus : Corpus}
    (hids : (vocabularyOf corpus.1).length ≤ 2 ^ 32) {index : VectorIndex}
    (hvocabulary : index.vocabulary = vocabularyOf corpus.1)
    (hperm : index.termIds.Perm (corpus.1.flatMap (idsOf corpus.1))) :
    storedFrequencies index = some (countedFrequencies corpus.1) := by
  rw [storedFrequencies_eq hvocabulary hperm]
  congr 1
  refine List.ext_getElem (by simp [countedFrequencies]) fun i hi hi' => ?_
  have hlt : i < (vocabularyOf corpus.1).length := by simpa [countedFrequencies] using hi'
  have hplace := (nodup_vocabularyOf corpus.1).idxOf_getElem i hlt
  have hcount := count_ids hids (vocabularyOf corpus.1)[i]
  rw [hplace] at hcount
  simp only [countedFrequencies, List.getElem_mapIdx, List.getElem_replicate, List.getElem_map,
    hcount, Nat.zero_add, lookup_of_mem_vocabularyOf (List.getElem_mem hlt), Option.getD_some]

/-- The id of a place from `2 ^ 32` on is that of an earlier one, and the place has no count. -/
theorem not_reconstructs_of_lt (hln : NonnegFromOne ln) {corpus : Corpus}
    (hlt : 2 ^ 32 < (vocabularyOf corpus.1).length) : ¬ Reconstructs ln corpus.1 := by
  rintro ⟨index, hbuild, hfrequencies, -⟩
  obtain ⟨index', hbuild', hvocabulary, -, hperm⟩ := buildIndex_eq hln corpus
  obtain rfl : index' = index := Option.some.inj (hbuild'.symm.trans hbuild)
  rw [storedFrequencies_eq hvocabulary hperm] at hfrequencies
  have hplace := congrArg (·[2 ^ 32]?) (Option.some.inj hfrequencies)
  have hnone : ((corpus.1.flatMap (idsOf corpus.1)).map UInt32.toNat).count (2 ^ 32) = 0 := by
    refine List.count_eq_zero_of_not_mem fun hmem => ?_
    obtain ⟨id, -, heq⟩ := List.mem_map.mp hmem
    exact absurd id.toNat_lt (heq ▸ lt_irrefl _)
  have hterm := List.getElem_mem hlt
  simp only [countedFrequencies, List.getElem?_mapIdx, List.getElem?_replicate, hlt, if_true,
    Option.map_some, hnone, List.getElem?_map, List.getElem?_eq_getElem hlt,
    lookup_of_mem_vocabularyOf hterm, Option.getD_some, Option.some.injEq] at hplace
  exact absurd hplace (containing_pos hterm).ne

/-- The document frequencies that are counted from what is stored, and so the idf, are those
that were counted from the texts exactly where there is an id for each term. -/
theorem reconstructs_iff (hln : NonnegFromOne ln) (corpus : Corpus) :
    Reconstructs ln corpus.1 ↔ (buildVocabularyIdf ln corpus.1).1.length ≤ 2 ^ 32 := by
  constructor
  · intro h
    by_contra hlt
    exact not_reconstructs_of_lt hln (not_le.mp hlt) h
  · intro hids
    obtain ⟨index, hbuild, hvocabulary, hlength, hperm⟩ := buildIndex_eq hln corpus
    have hfrequencies := storedFrequencies_eq_counted hids hvocabulary hperm
    refine ⟨index, hbuild, hfrequencies, ?_⟩
    rw [rebuildIdf, hfrequencies, Option.map_some, hlength, countedFrequencies, List.map_map]
    congr 1
    refine List.map_congr_left fun t ht => ?_
    rw [Function.comp_apply, lookup_of_mem_vocabularyOf ht, Option.getD_some, Option.getD_some,
      max_eq_left (containing_pos ht)]

end Corpus

/-- The logarithm of one and of two, rounded. -/
def lnSample (x : Float32) : Float32 := if x == 2 then Float32.ofBits 0x3F317218 else 0

theorem nonnegFromOne_lnSample : NonnegFromOne lnSample := by
  have hlog : (0 : Float32) ≤ Float32.ofBits 0x3F317218 := by decide +kernel
  have hzero : (0 : Float32) ≤ 0 := by decide +kernel
  intro x _
  rw [lnSample]
  split
  · exact hlog
  · exact hzero

/-- Two documents, one of which says a word twice. -/
def twoDocs : Corpus :=
  ⟨[⟨[], [], [], [], ["get".toList, "node".toList, "node".toList]⟩,
    ⟨[], [], [], [], ["get".toList]⟩], by decide⟩

theorem reconstructs_twoDocs : Reconstructs lnSample twoDocs.1 := by
  refine (reconstructs_iff nonnegFromOne_lnSample twoDocs).mpr ?_
  change (vocabularyOf twoDocs.1).length ≤ 2 ^ 32
  rw [vocabularyOf, List.length_mergeSort]
  decide

/-! ### More terms than ids -/

/-- A word for each number: its binary digits. -/
def numeral (i : Nat) : Str := (Nat.digits 2 i).map fun b => if b = 0 then '0' else '1'

theorem numeral_injective : Function.Injective numeral := by
  have hread : ∀ i, (numeral i).map (fun c => if c = '0' then 0 else 1) = Nat.digits 2 i := by
    intro i
    rw [numeral, List.map_map]
    conv_rhs => rw [← List.map_id (Nat.digits 2 i)]
    refine List.map_congr_left fun b hb => ?_
    have hlt := Nat.digits_lt_base (by norm_num : 1 < 2) hb
    rcases Nat.lt_or_ge b 1 with h | h
    · obtain rfl : b = 0 := by omega
      rfl
    · obtain rfl : b = 1 := by omega
      rfl
  intro i j h
  refine Nat.digits.injective 2 ?_
  rw [← hread i, ← hread j, h]

/-- One document for each numeral below `n`. -/
def numberedDocs (n : Nat) (hn : n < 2 ^ 63) : Corpus :=
  ⟨(List.range n).map fun i => ⟨[], [], [], [], [numeral i]⟩, by
    rw [List.length_map, List.length_range]
    exact hn⟩

theorem le_length_vocabularyOf {n : Nat} (hn : n < 2 ^ 63) :
    n ≤ (vocabularyOf (numberedDocs n hn).1).length := by
  have hnodup : ((List.range n).map numeral).Nodup := List.nodup_range.map numeral_injective
  have hmem : ∀ t ∈ (List.range n).map numeral, t ∈ vocabularyOf (numberedDocs n hn).1 := by
    intro t ht
    obtain ⟨i, hi, rfl⟩ := List.mem_map.mp ht
    exact mem_vocabularyOf.mpr ⟨_, List.mem_map_of_mem hi, List.mem_cons_self⟩
  have hlength := (List.subperm_of_subset hnodup hmem).length_le
  rw [List.length_map, List.length_range] at hlength
  exact hlength

/-- With one term more than there are ids, the last one is counted for the first. -/
theorem not_reconstructs_numberedDocs : ¬ ∀ (ln : Float32 → Float32), NonnegFromOne ln →
    ∀ corpus : Corpus, Reconstructs ln corpus.1 := by
  intro h
  have hn : 2 ^ 32 + 1 < 2 ^ 63 := by norm_num
  exact not_reconstructs_of_lt nonnegFromOne_lnSample (le_length_vocabularyOf hn)
    (h _ nonnegFromOne_lnSample (numberedDocs (2 ^ 32 + 1) hn))

end AutomatisedPipeline.Search
