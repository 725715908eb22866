import AutomatisedPipeline.Indexer.FullIndex

/-!
What the purge leaves of an indexed tree, part by part: an unchanged file keeps
its part and its links to files that remain, a changed one its File node and its
place in a directory, a vanished one nothing. Directories stay.
-/

namespace AutomatisedPipeline.Indexer

open Text Store

/-! ### The purge as one deletion -/

/-- The paths that are gone, renamed ones among them. -/
def ChangeSet.gone (changes : ChangeSet) : List Str :=
  changes.deleted ++ changes.renamed.map Rename.oldRel

/-- The purge leaves nodes with this key. -/
structure Kept (changes : ChangeSet) (k : Key) : Prop where
  symbols : ∀ rel ∈ changes.changedRels ++ changes.gone, ¬Within rel k.2
  file : ∀ rel ∈ changes.gone, k ≠ (.file, rel)

instance (changes : ChangeSet) (k : Key) : Decidable (Kept changes k) :=
  decidable_of_iff ((∀ rel ∈ changes.changedRels ++ changes.gone, ¬Within rel k.2) ∧
      ∀ rel ∈ changes.gone, k ≠ (.file, rel))
    ⟨fun h => ⟨h.1, h.2⟩, fun h => ⟨h.symbols, h.file⟩⟩

/-- The purge leaves this edge. -/
structure EdgeKept (changes : ChangeSet) (e : Edge) : Prop where
  source : Kept changes e.sourceKey
  target : Kept changes e.targetKey
  link : e.table ∈ lightLinkTables → e.source ∉ changes.changedRels

instance (changes : ChangeSet) (e : Edge) : Decidable (EdgeKept changes e) :=
  decidable_of_iff (Kept changes e.sourceKey ∧ Kept changes e.targetKey ∧
      (e.table ∈ lightLinkTables → e.source ∉ changes.changedRels))
    ⟨fun h => ⟨h.1, h.2.1, h.2.2⟩, fun h => ⟨h.source, h.target, h.link⟩⟩

def keep (changes : ChangeSet) (g : GraphStore) : GraphStore :=
  g.restrict (fun n => Kept changes n.key) (EdgeKept changes)

/-- Purging file after file deletes what any of them deletes. -/
theorem foldl_restrict {ι : Type} (l : List ι) (del : ι → GraphStore → GraphStore)
    (pn : ι → Node → Prop) (pe : ι → Edge → Prop) [∀ i, DecidablePred (pn i)]
    [∀ i, DecidablePred (pe i)] (hdel : ∀ i g, del i g = g.restrict (pn i) (pe i))
    (g : GraphStore) :
    l.foldl (fun g i => del i g) g =
      g.restrict (fun n => ∀ i ∈ l, pn i n) fun e => ∀ i ∈ l, pe i e := by
  induction l generalizing g with
  | nil => exact (Graph.restrict_eq_self (by simp) (by simp)).symm
  | cons i l ih =>
      rw [List.foldl_cons, hdel, ih, Store.Graph.restrict_restrict]
      refine Graph.restrict_congr (fun n _ => ?_) fun e _ => ?_
      · rw [List.forall_mem_cons, and_comm]
      · rw [List.forall_mem_cons, and_comm]

theorem purgeChanged_eq (rel : Str) (g : GraphStore) :
    purgeChanged rel g = g.restrict (fun n => ¬Within rel n.key.2) fun e =>
      ¬Within rel e.source ∧ ¬Within rel e.target ∧ ¬(e.table ∈ lightLinkTables ∧ e.source = rel) := by
  rw [purgeChanged, purgeOutboundLightLinks, purgeFileSymbols, Store.Graph.deleteEdges,
    Store.Graph.detachDelete, Store.Graph.restrict_restrict]
  refine Graph.restrict_congr (fun n _ => iff_of_eq (true_and _)) fun e _ => ?_
  rw [and_comm, and_assoc]
  rfl

theorem purgeGone_eq (rel : Str) (g : GraphStore) :
    purgeGone rel g = g.restrict (fun n => ¬Within rel n.key.2 ∧ n.key ≠ (.file, rel)) fun e =>
      (¬Within rel e.source ∧ e.sourceKey ≠ (.file, rel)) ∧
        (¬Within rel e.target ∧ e.targetKey ≠ (.file, rel)) := by
  rw [purgeGone, purgeFileNode, purgeFileSymbols, Store.Graph.detachDelete, Store.Graph.detachDelete,
    Store.Graph.restrict_restrict]
  refine Graph.restrict_congr (fun n _ => and_comm) fun e _ => ?_
  constructor
  · rintro ⟨⟨hs, ht⟩, hs', ht'⟩
    exact ⟨⟨hs', hs⟩, ht', ht⟩
  · rintro ⟨⟨hs', hs⟩, ht', ht⟩
    exact ⟨⟨hs, ht⟩, hs', ht'⟩

theorem purge_eq (changes : ChangeSet) (g : GraphStore) : purge changes g = keep changes g := by
  have hrenamed : ∀ g : GraphStore,
      changes.renamed.foldl (fun store r => purgeGone r.oldRel store) g =
        (changes.renamed.map Rename.oldRel).foldl (fun store rel => purgeGone rel store) g := by
    intro g
    rw [List.foldl_map]
  rw [purge, hrenamed, ← List.foldl_append]
  change changes.gone.foldl (fun store rel => purgeGone rel store) _ = _
  rw [foldl_restrict _ _ _ _ purgeChanged_eq, foldl_restrict _ _ _ _ purgeGone_eq,
    Store.Graph.restrict_restrict]
  refine Graph.restrict_congr (fun n _ => ?_) fun e _ => ?_
  · constructor
    · rintro ⟨hgone, hchanged⟩
      refine ⟨?_, fun rel hrel => (hgone rel hrel).2⟩
      intro rel hrel
      rcases List.mem_append.mp hrel with hrel | hrel
      · exact hchanged rel hrel
      · exact (hgone rel hrel).1
    · rintro ⟨hsymbols, hfile⟩
      refine ⟨fun rel hrel => ⟨hsymbols rel (List.mem_append_right _ hrel), hfile rel hrel⟩, ?_⟩
      exact fun rel hrel => hsymbols rel (List.mem_append_left _ hrel)
  · constructor
    · rintro ⟨hgone, hchanged⟩
      refine ⟨⟨?_, fun rel hrel => (hgone rel hrel).1.2⟩,
        ⟨?_, fun rel hrel => (hgone rel hrel).2.2⟩, ?_⟩
      · intro rel hrel
        rcases List.mem_append.mp hrel with hrel | hrel
        · exact (hchanged rel hrel).1
        · exact (hgone rel hrel).1.1
      · intro rel hrel
        rcases List.mem_append.mp hrel with hrel | hrel
        · exact (hchanged rel hrel).2.1
        · exact (hgone rel hrel).2.1
      · intro htable hmem
        exact (hchanged _ hmem).2.2 ⟨htable, rfl⟩
    · rintro ⟨hsource, htarget, hlink⟩
      refine ⟨?_, ?_⟩
      · intro rel hrel
        have hmem := List.mem_append_right changes.changedRels hrel
        exact ⟨⟨hsource.symbols rel hmem, hsource.file rel hrel⟩, htarget.symbols rel hmem,
          htarget.file rel hrel⟩
      · intro rel hrel
        have hmem := List.mem_append_left changes.gone hrel
        refine ⟨hsource.symbols rel hmem, htarget.symbols rel hmem, ?_⟩
        rintro ⟨htable, rfl⟩
        exact hlink htable hrel

/-! ### Correct classifications -/

def Tree.rels (T : Tree) : List Str := T.files.map SourceFile.relativePath

/-- A correct classification of the difference of two trees: a file that is not
reported is as it was. -/
structure Classifies (T₀ T₁ : Tree) (changes : ChangeSet) : Prop where
  changed : ∀ d ∈ changes.changed, d ∈ T₁.files ∧ d.relativePath ∈ T₀.rels
  changedNodup : (changes.changed.map SourceFile.relativePath).Nodup
  unchanged : ∀ d ∈ T₁.files, d.relativePath ∈ T₀.rels → d ∉ changes.changed → d ∈ T₀.files
  new : (changes.added ++ changes.renamed.map Rename.newFile).Perm
    (T₁.files.filter fun d => d.relativePath ∉ T₀.rels)
  gone : ∀ rel, rel ∈ changes.gone ↔ rel ∈ T₀.rels ∧ rel ∉ T₁.rels

/-- The files that are not visited. -/
def unchangedFiles (T₁ : Tree) (changes : ChangeSet) : List SourceFile :=
  T₁.files.filter fun d => d.relId ∉ changes.reparsedSet

section Classified

variable {T₀ T₁ : Tree} {changes : ChangeSet}

theorem Tree.eq_of_rel (T : Tree) {f g : SourceFile} (hf : f ∈ T.files) (hg : g ∈ T.files)
    (h : f.relativePath = g.relativePath) : f = g :=
  List.inj_on_of_nodup_map T.nodup hf hg h

theorem Tree.files_nodup (T : Tree) : T.files.Nodup := T.nodup.of_map

variable (hc : Classifies T₀ T₁ changes) (hsep : Separate (T₀.files ++ T₁.files))

include hsep in
theorem relId_of_mem_new {d : SourceFile} (hd : d ∈ T₁.files) : d.relId = d.relativePath :=
  relId_of_plain (hsep.plain d (List.mem_append_right _ hd))

include hc hsep

theorem changedRels_eq : changes.changedRels = changes.changed.map SourceFile.relativePath :=
  List.map_congr_left fun d hd => relId_of_mem_new hsep (hc.changed d hd).1

theorem mem_changedRels {d : SourceFile} (hd : d ∈ T₁.files) :
    d.relativePath ∈ changes.changedRels ↔ d ∈ changes.changed := by
  rw [changedRels_eq hc hsep]
  constructor
  · intro hmem
    obtain ⟨d', hd', heq⟩ := List.mem_map.mp hmem
    exact T₁.eq_of_rel (hc.changed d' hd').1 hd heq ▸ hd'
  · exact List.mem_map_of_mem

/-- What is purged was a file of the earlier tree. -/
theorem purged_mem {rel : Str} (h : rel ∈ changes.changedRels ++ changes.gone) :
    ∃ g ∈ T₀.files, g.relativePath = rel := by
  rcases List.mem_append.mp h with h | h
  · rw [changedRels_eq hc hsep] at h
    obtain ⟨d, hd, rfl⟩ := List.mem_map.mp h
    exact List.mem_map.mp (hc.changed d hd).2
  · exact List.mem_map.mp ((hc.gone rel).mp h).1

theorem mem_reparsedSet {d : SourceFile} (hd : d ∈ T₁.files) :
    d.relId ∈ changes.reparsedSet ↔ d ∈ changes.changed ∨ d.relativePath ∉ T₀.rels := by
  have hnew : d.relativePath ∈ (changes.added ++ changes.renamed.map Rename.newFile).map
      SourceFile.relId ↔ d.relativePath ∉ T₀.rels := by
    rw [(hc.new.map SourceFile.relId).mem_iff, List.mem_map]
    constructor
    · rintro ⟨d', hd', heq⟩
      obtain ⟨hmem, hrel⟩ := List.mem_filter.mp hd'
      rw [relId_of_mem_new hsep hmem] at heq
      rw [← heq]
      exact of_decide_eq_true hrel
    · intro hrel
      exact ⟨d, List.mem_filter.mpr ⟨hd, decide_eq_true hrel⟩, relId_of_mem_new hsep hd⟩
  rw [relId_of_mem_new hsep hd, ← mem_changedRels hc hsep hd, ← hnew]
  simp [ChangeSet.reparsedSet, Function.comp_def]

theorem mem_unchangedFiles {d : SourceFile} : d ∈ unchangedFiles T₁ changes ↔
    d ∈ T₁.files ∧ d ∈ T₀.files ∧ d.relativePath ∉ changes.changedRels := by
  rw [unchangedFiles, List.mem_filter, decide_eq_true_iff]
  refine and_congr_right fun hd => ?_
  rw [mem_reparsedSet hc hsep hd, mem_changedRels hc hsep hd, not_or, not_not]
  constructor
  · rintro ⟨hchanged, hrel⟩
    exact ⟨hc.unchanged d hd hrel hchanged, hchanged⟩
  · rintro ⟨hold, hchanged⟩
    exact ⟨hchanged, List.mem_map_of_mem hold⟩

/-- The earlier tree has the unchanged files, an earlier version of each changed
one, and those that are gone. -/
theorem old_files : ∃ old : SourceFile → SourceFile,
    (∀ d ∈ changes.changed, old d ∈ T₀.files ∧ (old d).relativePath = d.relativePath) ∧
      T₀.files.Perm (unchangedFiles T₁ changes ++ changes.changed.map old ++
        T₀.files.filter (·.relativePath ∈ changes.gone)) := by
  have hversion : ∀ d, ∃ d', d ∈ changes.changed →
      d' ∈ T₀.files ∧ d'.relativePath = d.relativePath := by
    intro d
    by_cases hd : d ∈ changes.changed
    · obtain ⟨d', hd', heq⟩ := List.mem_map.mp (hc.changed d hd).2
      exact ⟨d', fun _ => ⟨hd', heq⟩⟩
    · exact ⟨d, fun h => absurd h hd⟩
  choose old hold using hversion
  refine ⟨old, hold, ?_⟩
  have hrel : ∀ f ∈ changes.changed.map old, f.relativePath ∈ changes.changedRels ∧
      f.relativePath ∈ T₁.rels := by
    intro f hf
    obtain ⟨d, hd, rfl⟩ := List.mem_map.mp hf
    have hnew := (hc.changed d hd).1
    rw [(hold d hd).2]
    exact ⟨(mem_changedRels hc hsep hnew).mpr hd, List.mem_map_of_mem hnew⟩
  have hgone : ∀ {f}, f ∈ T₀.files.filter (·.relativePath ∈ changes.gone) ↔
      f ∈ T₀.files ∧ f.relativePath ∉ T₁.rels := by
    intro f
    rw [List.mem_filter, decide_eq_true_iff, hc.gone]
    refine and_congr_right fun hf => and_iff_right (List.mem_map_of_mem hf)
  have hversions : (changes.changed.map old).Nodup := by
    have hrels : changes.changed.map (SourceFile.relativePath ∘ old) =
        changes.changed.map SourceFile.relativePath :=
      List.map_congr_left fun d hd => (hold d hd).2
    refine List.Nodup.of_map SourceFile.relativePath ?_
    rw [List.map_map, hrels]
    exact hc.changedNodup
  refine (List.perm_ext_iff_of_nodup T₀.files_nodup ?_).mpr fun f => ?_
  · rw [List.nodup_append', List.nodup_append']
    refine ⟨⟨T₁.files_nodup.filter _, hversions, ?_⟩, T₀.files_nodup.filter _, ?_⟩
    · intro f hf hf'
      exact ((mem_unchangedFiles hc hsep).mp hf).2.2 (hrel f hf').1
    · intro f hf hf'
      have hnot := (hgone.mp hf').2
      rcases List.mem_append.mp hf with hf | hf
      · exact hnot (List.mem_map_of_mem ((mem_unchangedFiles hc hsep).mp hf).1)
      · exact hnot (hrel f hf).2
  · rw [List.mem_append, List.mem_append, mem_unchangedFiles hc hsep, hgone]
    constructor
    · intro hf
      by_cases hnew : f.relativePath ∈ T₁.rels
      · refine .inl ?_
        obtain ⟨d, hd, heq⟩ := List.mem_map.mp hnew
        by_cases hchanged : d ∈ changes.changed
        · refine .inr (List.mem_map.mpr ⟨d, hchanged, ?_⟩)
          exact T₀.eq_of_rel (hold d hchanged).1 hf ((hold d hchanged).2.trans heq)
        · have hd₀ := hc.unchanged d hd (heq ▸ List.mem_map_of_mem hf) hchanged
          obtain rfl := T₀.eq_of_rel hd₀ hf heq
          exact .inl ⟨hd, hf, fun h => hchanged ((mem_changedRels hc hsep hd).mp h)⟩
      · exact .inr ⟨hf, hnew⟩
    · rintro ((⟨_, hf, _⟩ | hf) | ⟨hf, _⟩)
      · exact hf
      · obtain ⟨d, hd, rfl⟩ := List.mem_map.mp hf
        exact (hold d hd).1
      · exact hf

/-- The current tree has the unchanged files, the changed ones and the new ones. -/
theorem new_files : T₁.files.Perm (unchangedFiles T₁ changes ++ changes.changed ++
    (changes.added ++ changes.renamed.map Rename.newFile)) := by
  refine .trans ?_ (hc.new.symm.append_left _)
  refine (List.perm_ext_iff_of_nodup T₁.files_nodup ?_).mpr fun d => ?_
  · rw [List.nodup_append', List.nodup_append']
    refine ⟨⟨T₁.files_nodup.filter _, hc.changedNodup.of_map, ?_⟩, T₁.files_nodup.filter _, ?_⟩
    · intro d hd hchanged
      obtain ⟨hnew, _, hnot⟩ := (mem_unchangedFiles hc hsep).mp hd
      exact hnot ((mem_changedRels hc hsep hnew).mpr hchanged)
    · intro d hd hnew
      have hnot := of_decide_eq_true (List.mem_filter.mp hnew).2
      rcases List.mem_append.mp hd with hd | hd
      · exact hnot (List.mem_map_of_mem ((mem_unchangedFiles hc hsep).mp hd).2.1)
      · exact hnot (hc.changed d hd).2
  · rw [List.mem_append, List.mem_append, mem_unchangedFiles hc hsep, List.mem_filter,
      decide_eq_true_iff]
    constructor
    · intro hd
      by_cases hrel : d.relativePath ∈ T₀.rels
      · refine .inl ?_
        by_cases hchanged : d ∈ changes.changed
        · exact .inr hchanged
        · refine .inl ⟨hd, hc.unchanged d hd hrel hchanged, ?_⟩
          exact fun h => hchanged ((mem_changedRels hc hsep hd).mp h)
      · exact .inr ⟨hd, hrel⟩
    · rintro ((⟨hd, _⟩ | hd) | ⟨hd, _⟩)
      · exact hd
      · exact (hc.changed d hd).1
      · exact hd

end Classified

/-! ### What is kept of each part -/

section Kept

variable {changes : ChangeSet}

theorem keep_add (g h : GraphStore) : keep changes (g + h) = keep changes g + keep changes h :=
  Graph.restrict_add _ _ g h

theorem keep_sum {ι : Type} (part : ι → GraphStore) (l : List ι) :
    keep changes (l.map part).sum = (l.map fun i => keep changes (part i)).sum :=
  Graph.restrict_sum _ _ part l

theorem keep_finsetSum {ι : Type} (part : ι → GraphStore) (s : Finset ι) :
    keep changes (∑ i ∈ s, part i) = ∑ i ∈ s, keep changes (part i) :=
  Graph.restrict_finsetSum _ _ part s

end Kept

/-- A changed file before it is parsed again. -/
def stubPart (ps : Parser) (policy : ParsePolicy) (f : SourceFile) : GraphStore :=
  fileGraph ps policy f + parentGraph f

/-- The links of a file to files that remain. -/
def keptLinks (T₀ T₁ : Tree) (f : SourceFile) : GraphStore :=
  ⟨0, (linksOf (idsOf T₀.files) f : Multiset Edge).filter fun e => e.target ∈ idsOf T₁.files⟩

section Parts

variable {ps : Parser} {policy : ParsePolicy} {T₀ T₁ : Tree} {changes : ChangeSet}

theorem Separate.not_within {files : List SourceFile} (h : Separate files) {f g : SourceFile}
    (hf : f ∈ files) (hg : g ∈ files) : ¬Within g.relativePath f.relativePath := by
  by_cases heq : g.relativePath = f.relativePath
  · rw [heq]
    exact not_within_self _
  · exact (h.apart g hg f hf heq).not_within

theorem Separate.dir_not_within {files : List SourceFile} (h : Separate files) {f g : SourceFile}
    (hf : f ∈ files) (hg : g ∈ files) {p : List FileName} (hp : p ≠ []) (hpre : p <+: f.dirs) :
    ¬Within g.relativePath (pathString p) := by
  intro hwithin
  refine h.not_within hf hg (hwithin.trans ?_)
  exact (List.prefix_append _ _).trans (SourceFile.dir_prefix hp hpre)

theorem not_kept_symbol {rel : Str} {k : Key} (hrel : rel ∈ changes.changedRels ++ changes.gone)
    (hk : Within rel k.2) : ¬Kept changes k := fun h => h.symbols rel hrel hk

theorem mem_symbolGraph_edges {f : SourceFile} {e : Edge}
    (h : e ∈ (symbolGraph ps policy f).edges) :
    IsStructure f.relativePath e ∧ Within f.relativePath e.target := by
  have hfilter : e ∈ (refEdges ps policy f : Multiset Edge).filter
      (fileGraph ps policy f + ⟨symbolRows ps policy f, 0⟩ : GraphStore).Live := h
  obtain ⟨hmem, hlive⟩ := Multiset.mem_filter.mp hfilter
  have hstructure := isStructure_of_mem_refEdges (Multiset.mem_coe.mp hmem)
  refine ⟨hstructure, ?_⟩
  rcases Graph.has_add.mp hlive.2 with ⟨n, hn, hkey⟩ | ⟨n, hn, hkey⟩
  · obtain rfl := Multiset.mem_singleton.mp hn
    exact absurd (congrArg Prod.fst hkey).symm hstructure.targetFile
  · obtain ⟨node, hnode, hkey'⟩ := mem_symbolRows (Multiset.mem_coe.mp hn)
    have htarget : node.qualifiedName = e.target := congrArg Prod.snd (hkey'.symm.trans hkey)
    exact htarget ▸ within_of_mem_acceptedOf hnode

theorem not_light_of_structure {rel : Str} {e : Edge} (h : IsStructure rel e) :
    e.table ∉ lightLinkTables := by
  intro hmem
  have := h.resolution
  rcases List.mem_pair.mp hmem with ht | ht <;> simp [ht, importsFileFile, referencesFileFile,
    isResolutionTable] at this

theorem mem_parentEdges {f : SourceFile} {e : Edge} (h : e ∈ parentEdges f) :
    f.dirs ≠ [] ∧ e = containsEdge containsDirFile (pathString f.dirs) f.relativePath := by
  unfold parentEdges at h
  split at h
  · cases h
  · exact ⟨‹_›, List.mem_singleton.mp h⟩

theorem keep_symbolGraph_purged {f : SourceFile}
    (hrel : f.relativePath ∈ changes.changedRels ++ changes.gone) :
    keep changes (symbolGraph ps policy f) = 0 := by
  refine Graph.restrict_eq_zero (fun n hn => ?_) fun e he hkept => ?_
  · obtain ⟨node, hnode, hkey⟩ := mem_symbolRows (Multiset.mem_coe.mp hn)
    rw [hkey]
    exact not_kept_symbol hrel (within_of_mem_acceptedOf hnode)
  · exact not_kept_symbol hrel (mem_symbolGraph_edges he).2 hkept.target

theorem keep_gone {f : SourceFile} (hgone : f.relativePath ∈ changes.gone) :
    keep changes (filePart ps policy f) = 0 := by
  have hfile : ¬Kept changes (.file, f.relativePath) := fun h => h.file _ hgone rfl
  have hnode : keep changes (fileGraph ps policy f) = 0 := by
    refine Graph.restrict_eq_zero (fun n hn => ?_) (by simp [fileGraph])
    obtain rfl := Multiset.mem_singleton.mp hn
    exact hfile
  have hparent : keep changes (parentGraph f) = 0 := by
    refine Graph.restrict_eq_zero (by simp [parentGraph]) fun e he hkept => ?_
    obtain ⟨_, rfl⟩ := mem_parentEdges (Multiset.mem_coe.mp he)
    exact hfile hkept.target
  rw [filePart, keep_add, keep_add, hnode, hparent,
    keep_symbolGraph_purged (List.mem_append_right _ hgone), add_zero, add_zero]

theorem keep_links_purged (hsep : Separate (T₀.files ++ T₁.files)) {f : SourceFile}
    (hf : f ∈ T₀.files)
    (hrel : f.relativePath ∈ changes.changedRels ++ changes.gone) :
    keep changes (linkPart (idsOf T₀.files) f) = 0 := by
  refine Graph.restrict_eq_zero (by simp [linkPart]) fun e he hkept => ?_
  have hlink := linksOf_isLink (Multiset.mem_coe.mp he)
  have hsource := hlink.keys.1
  rw [relId_of_plain (hsep.plain f (List.mem_append_left _ hf))] at hsource
  rcases List.mem_append.mp hrel with hchanged | hgone
  · have htable : e.table ∈ lightLinkTables := List.mem_pair.mpr hlink.table
    have hrel' : e.source = f.relativePath := congrArg Prod.snd hsource
    exact hkept.link htable (hrel' ▸ hchanged)
  · exact hkept.source.file _ hgone hsource

variable (hc : Classifies T₀ T₁ changes) (hsep : Separate (T₀.files ++ T₁.files))

include hc hsep

theorem kept_of_not_within {k : Key} (hlabel : k.1 ≠ .file)
    (h : ∀ g ∈ T₀.files, ¬Within g.relativePath k.2) : Kept changes k where
  symbols := by
    intro rel hrel
    obtain ⟨g, hg, rfl⟩ := purged_mem hc hsep hrel
    exact h g hg
  file := by
    rintro rel _ rfl
    exact hlabel rfl

theorem kept_directory {f : SourceFile} (hf : f ∈ T₀.files) {p : List FileName} (hp : p ≠ [])
    (hpre : p <+: f.dirs) : Kept changes (.directory, pathString p) :=
  kept_of_not_within hc hsep (by simp) fun _ hg =>
    hsep.dir_not_within (List.mem_append_left _ hf) (List.mem_append_left _ hg) hp hpre

theorem kept_file {f : SourceFile} (hf : f ∈ T₀.files) (hgone : f.relativePath ∉ changes.gone) :
    Kept changes (.file, f.relativePath) where
  symbols := by
    intro rel hrel
    obtain ⟨g, hg, rfl⟩ := purged_mem hc hsep hrel
    exact hsep.not_within (List.mem_append_left _ hf) (List.mem_append_left _ hg)
  file := by
    intro rel hrel heq
    cases heq
    exact hgone hrel

/-- What belongs to a file that is not purged is kept. -/
theorem kept_reserved {f : SourceFile} (hf : f ∈ T₀.files)
    (hfree : f.relativePath ∉ changes.changedRels ++ changes.gone) {k : Key}
    (hk : Reserved f.relativePath k) : Kept changes k := by
  have hother : ∀ rel ∈ changes.changedRels ++ changes.gone, ¬Owned rel k.2 := by
    intro rel hrel
    obtain ⟨g, hg, rfl⟩ := purged_mem hc hsep hrel
    have hne : f.relativePath ≠ g.relativePath := fun heq => hfree (heq ▸ hrel)
    exact (hsep.apart f (List.mem_append_left _ hf) g (List.mem_append_left _ hg) hne).owned hk.2
  constructor
  · exact fun rel hrel hwithin => hother rel hrel (.inr hwithin)
  · rintro rel hrel rfl
    exact hother rel (List.mem_append_right _ hrel) (.inl rfl)

theorem keep_parentGraph {f : SourceFile} (hf : f ∈ T₀.files)
    (hgone : f.relativePath ∉ changes.gone) : keep changes (parentGraph f) = parentGraph f := by
  refine Graph.restrict_eq_self (by simp [parentGraph]) fun e he => ?_
  obtain ⟨hdirs, rfl⟩ := mem_parentEdges (Multiset.mem_coe.mp he)
  refine ⟨kept_directory hc hsep hf hdirs List.prefix_rfl, kept_file hc hsep hf hgone, ?_⟩
  intro hmem
  simp [containsEdge, containsDirFile, lightLinkTables, importsFileFile, referencesFileFile] at hmem

theorem keep_fileGraph {f : SourceFile} (hf : f ∈ T₀.files)
    (hgone : f.relativePath ∉ changes.gone) :
    keep changes (fileGraph ps policy f) = fileGraph ps policy f := by
  refine Graph.restrict_eq_self (fun n hn => ?_) (by simp [fileGraph])
  obtain rfl := Multiset.mem_singleton.mp hn
  exact kept_file hc hsep hf hgone

theorem keep_unchanged {f : SourceFile} (hf : f ∈ T₀.files)
    (hfree : f.relativePath ∉ changes.changedRels ++ changes.gone) :
    keep changes (filePart ps policy f) = filePart ps policy f := by
  have hgone : f.relativePath ∉ changes.gone := fun h => hfree (List.mem_append_right _ h)
  have hsymbols : keep changes (symbolGraph ps policy f) = symbolGraph ps policy f := by
    refine Graph.restrict_eq_self (fun n hn => ?_) fun e he => ?_
    · refine kept_reserved hc hsep hf hfree (@reserved_of_mem_filePart ps policy f n ?_)
      rw [filePart_nodes]
      exact Multiset.mem_add.mpr (.inr hn)
    · obtain ⟨hstructure, _⟩ := mem_symbolGraph_edges he
      have hends := hstructure.reserved
      refine ⟨kept_reserved hc hsep hf hfree (hends _ (by simp)),
        kept_reserved hc hsep hf hfree (hends _ (by simp)), fun hlight => ?_⟩
      exact absurd hlight (not_light_of_structure hstructure)
  rw [filePart, keep_add, keep_add, keep_fileGraph hc hsep hf hgone,
    keep_parentGraph hc hsep hf hgone, hsymbols]

theorem keep_changed {f : SourceFile} (hf : f ∈ T₀.files)
    (hchanged : f.relativePath ∈ changes.changedRels) (hgone : f.relativePath ∉ changes.gone) :
    keep changes (filePart ps policy f) = stubPart ps policy f := by
  rw [filePart, keep_add, keep_add, keep_fileGraph hc hsep hf hgone,
    keep_parentGraph hc hsep hf hgone,
    keep_symbolGraph_purged (List.mem_append_left _ hchanged), add_zero, stubPart]

theorem keep_dirPart {p : List FileName} (hp : p ∈ dirsOf T₀.files) :
    keep changes (dirPart p) = dirPart p := by
  obtain ⟨f, hf, hne, hpre⟩ := mem_dirsOf.mp hp
  refine Graph.restrict_eq_self (fun n hn => ?_) fun e he => ?_
  · obtain rfl : n = dirNode p := Multiset.mem_singleton.mp hn
    exact kept_directory hc hsep hf hne hpre
  · have hmem : e ∈ dirEdges p := Multiset.mem_coe.mp he
    unfold dirEdges at hmem
    split at hmem
    · cases hmem
    · rename_i hparent
      obtain rfl := List.mem_singleton.mp hmem
      refine ⟨kept_directory hc hsep hf hparent ((List.dropLast_prefix p).trans hpre),
        kept_directory hc hsep hf hne hpre, fun hlight => ?_⟩
      simp [containsEdge, containsDirDir, lightLinkTables, importsFileFile,
        referencesFileFile] at hlight

theorem keep_links_unchanged {f : SourceFile} (hf : f ∈ T₀.files)
    (hfree : f.relativePath ∉ changes.changedRels ++ changes.gone) :
    keep changes (linkPart (idsOf T₀.files) f) = keptLinks T₀ T₁ f := by
  have h₀ := (hsep.mono (List.subset_append_left _ _)).idsOf
  have h₁ := (hsep.mono (List.subset_append_right _ _)).idsOf
  have hfilter : (linksOf (idsOf T₀.files) f : Multiset Edge).filter (EdgeKept changes) =
      (linksOf (idsOf T₀.files) f : Multiset Edge).filter fun e => e.target ∈ idsOf T₁.files := by
    refine Multiset.filter_congr fun e he => ?_
    have hlink := linksOf_isLink (Multiset.mem_coe.mp he)
    obtain ⟨hsource, htarget⟩ := hlink.keys
    rw [relId_of_plain (hsep.plain f (List.mem_append_left _ hf))] at hsource
    obtain ⟨g, hg, hgrel⟩ := List.mem_map.mp (h₀ ▸ hlink.target)
    rw [h₁]
    constructor
    · intro hkept
      by_contra hnew
      refine hkept.target.file e.target ((hc.gone _).mpr ⟨?_, hnew⟩) htarget
      exact List.mem_map.mpr ⟨g, hg, hgrel⟩
    · intro hnew
      refine ⟨?_, ?_, fun _ hmem => ?_⟩
      · rw [hsource]
        exact kept_file hc hsep hf fun h => hfree (List.mem_append_right _ h)
      · rw [htarget, ← hgrel]
        exact kept_file hc hsep hg fun h => ((hc.gone _).mp h).2 (hgrel ▸ hnew)
      · have hrel : e.source = f.relativePath := congrArg Prod.snd hsource
        exact hfree (List.mem_append_left _ (hrel ▸ hmem))
  exact Store.Graph.ext rfl hfilter

/-- What is left of the graph of the earlier tree. -/
theorem purge_fullGraph : ∃ old : SourceFile → SourceFile,
    (∀ d ∈ changes.changed, old d ∈ T₀.files ∧ (old d).relativePath = d.relativePath) ∧
      purge changes (fullGraph ps policy T₀.files) =
        ((unchangedFiles T₁ changes).map (filePart ps policy)).sum +
          (changes.changed.map fun d => stubPart ps policy (old d)).sum +
            ∑ p ∈ dirsOf T₀.files, dirPart p +
              ((unchangedFiles T₁ changes).map (keptLinks T₀ T₁)).sum := by
  obtain ⟨old, hold, hperm⟩ := old_files hc hsep
  refine ⟨old, hold, ?_⟩
  have hunchanged : ∀ f ∈ unchangedFiles T₁ changes,
      f ∈ T₀.files ∧ f.relativePath ∉ changes.changedRels ++ changes.gone := by
    intro f hf
    obtain ⟨hnew, hf₀, hnot⟩ := (mem_unchangedFiles hc hsep).mp hf
    refine ⟨hf₀, fun h => ?_⟩
    rcases List.mem_append.mp h with h | h
    · exact hnot h
    · exact ((hc.gone _).mp h).2 (List.mem_map_of_mem hnew)
  have hchanged : ∀ d ∈ changes.changed, (old d).relativePath ∈ changes.changedRels ∧
      (old d).relativePath ∉ changes.gone := by
    intro d hd
    have hnew := (hc.changed d hd).1
    rw [(hold d hd).2]
    refine ⟨(mem_changedRels hc hsep hnew).mpr hd, fun h => ?_⟩
    exact ((hc.gone _).mp h).2 (List.mem_map_of_mem hnew)
  have hgone : ∀ f ∈ T₀.files.filter (·.relativePath ∈ changes.gone),
      f.relativePath ∈ changes.gone ∧ f ∈ T₀.files := by
    intro f hf
    obtain ⟨hmem, hrel⟩ := List.mem_filter.mp hf
    exact ⟨of_decide_eq_true hrel, hmem⟩
  -- the files of the earlier tree are summed class by class
  have hsum : ∀ {part kept stub : SourceFile → GraphStore},
      (∀ f ∈ unchangedFiles T₁ changes, keep changes (part f) = kept f) →
      (∀ d ∈ changes.changed, keep changes (part (old d)) = stub d) →
      (∀ f ∈ T₀.files.filter (·.relativePath ∈ changes.gone), keep changes (part f) = 0) →
      (T₀.files.map fun f => keep changes (part f)).sum =
        ((unchangedFiles T₁ changes).map kept).sum + (changes.changed.map stub).sum := by
    intro part kept stub hkept hstub hzero
    have hmap : changes.changed.map ((fun f => keep changes (part f)) ∘ old) =
        changes.changed.map stub := List.map_congr_left hstub
    rw [(hperm.map _).sum_eq, List.map_append, List.map_append, List.sum_append, List.sum_append,
      List.map_map, hmap, List.map_congr_left hkept, List.map_congr_left hzero]
    simp
  have hparts := hsum
    (fun f hf => @keep_unchanged ps policy _ _ _ hc hsep f (hunchanged f hf).1
      (hunchanged f hf).2)
    (fun d hd => keep_changed hc hsep (hold d hd).1 (hchanged d hd).1 (hchanged d hd).2)
    (fun f hf => keep_gone (hgone f hf).1)
  have hlinks := @hsum (linkPart (idsOf T₀.files)) (keptLinks T₀ T₁) (fun _ => 0)
    (fun f hf => keep_links_unchanged hc hsep (hunchanged f hf).1 (hunchanged f hf).2)
    (fun d hd => keep_links_purged hsep (hold d hd).1 (List.mem_append_left _ (hchanged d hd).1))
    (fun f hf => keep_links_purged hsep (hgone f hf).2 (List.mem_append_right _ (hgone f hf).1))
  rw [List.sum_map_zero, add_zero] at hlinks
  rw [purge_eq, fullGraph, treeGraph, keep_add, keep_add, keep_sum, keep_finsetSum, keep_sum,
    hparts, hlinks, Finset.sum_congr rfl fun p hp => keep_dirPart hc hsep hp]

end Parts

end AutomatisedPipeline.Indexer
