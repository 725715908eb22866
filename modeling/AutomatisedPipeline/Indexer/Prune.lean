import AutomatisedPipeline.Indexer.FullIndex

/-!
Pruning directories. A round deletes the directories without a child; only
directories above no file are ever without one, and each round takes the deepest
of those that are left, so as many rounds as the tree is deep leave exactly the
directories above a file.
-/

namespace AutomatisedPipeline.Indexer

open Text Store

/-- Apart from the directories themselves, a directory has edges to the files in
it and no other. -/
structure FilesUnder (files : List SourceFile) (B : GraphStore) : Prop where
  nodes : ∀ n ∈ B.nodes, n.key.1 ≠ .directory
  targets : ∀ e ∈ B.edges, e.targetKey.1 ≠ .directory
  sources : ∀ e ∈ B.edges, e.sourceKey.1 = .directory →
    ∃ f ∈ files, f.dirs ≠ [] ∧ e.sourceKey = (.directory, pathString f.dirs)
  parents : ∀ f ∈ files, f.dirs ≠ [] →
    ∃ e ∈ B.edges, e.sourceKey = (.directory, pathString f.dirs)

/-- No file and no directory stands in this one. -/
def Childless (files : List SourceFile) (E : Finset (List FileName)) (p : List FileName) : Prop :=
  (∀ f ∈ files, f.dirs ≠ p) ∧ ∀ q ∈ E, q.dropLast ≠ p

instance (files : List SourceFile) (E : Finset (List FileName)) :
    DecidablePred (Childless files E) := fun _ => instDecidableAnd

section Prune

variable {files : List SourceFile} {B : GraphStore} {E : Finset (List FileName)}

theorem mem_dirEdges {p : List FileName} {e : Edge} (h : e ∈ dirEdges p) :
    p.dropLast ≠ [] ∧
      e = containsEdge containsDirDir (pathString p.dropLast) (pathString p) := by
  unfold dirEdges at h
  split at h
  · cases h
  · exact ⟨‹_›, List.mem_singleton.mp h⟩

theorem no_out_edge (hB : FilesUnder files B) {p : List FileName} (hp : p ≠ []) :
    (∀ e ∈ (B + ∑ q ∈ E, dirPart q).edges, e.sourceKey ≠ (.directory, pathString p)) ↔
      Childless files E p := by
  constructor
  · intro hnone
    constructor
    · rintro f hf rfl
      obtain ⟨e, he, hkey⟩ := hB.parents f hf hp
      exact hnone e (Multiset.mem_add.mpr (.inl he)) hkey
    · rintro q hq rfl
      have he : containsEdge containsDirDir (pathString q.dropLast) (pathString q) ∈
          (dirPart q).edges := by
        simp [dirPart, dirEdges, hp]
      exact hnone _
        (Multiset.mem_add.mpr (.inr (Graph.mem_edges_finsetSum.mpr ⟨q, hq, he⟩))) rfl
  · rintro ⟨hfiles, hdirs⟩ e he hkey
    rcases Multiset.mem_add.mp he with hbase | hdir
    · obtain ⟨f, hf, hne, hsource⟩ := hB.sources e hbase (congrArg Prod.fst hkey)
      exact hfiles f hf (pathString_injective hne hp (congrArg Prod.snd (hsource.symm.trans hkey)))
    · obtain ⟨q, hq, he⟩ := Graph.mem_edges_finsetSum.mp hdir
      obtain ⟨hne, rfl⟩ := mem_dirEdges (Multiset.mem_coe.mp he)
      exact hdirs q hq (pathString_injective hne hp (congrArg Prod.snd hkey))

/-- The keys a round deletes. -/
theorem mem_orphans (hB : FilesUnder files B) (hE : ∀ p ∈ E, p ≠ []) {k : Key} :
    k ∈ (orphans (B + ∑ q ∈ E, dirPart q)).map Node.key ↔
      ∃ p ∈ E, Childless files E p ∧ k = (.directory, pathString p) := by
  rw [Multiset.mem_map]
  constructor
  · rintro ⟨n, hn, rfl⟩
    obtain ⟨hmem, hdir, hnone⟩ := Multiset.mem_filter.mp hn
    rcases Multiset.mem_add.mp hmem with hbase | hpart
    · exact absurd hdir (hB.nodes n hbase)
    · obtain ⟨p, hp, hnode⟩ := Graph.mem_nodes_finsetSum.mp hpart
      obtain rfl : n = dirNode p := Multiset.mem_singleton.mp hnode
      exact ⟨p, hp, (no_out_edge hB (hE p hp)).mp hnone, rfl⟩
  · rintro ⟨p, hp, hchildless, rfl⟩
    refine ⟨dirNode p, Multiset.mem_filter.mpr ⟨?_, rfl, ?_⟩, rfl⟩
    · refine Multiset.mem_add.mpr (.inr (Graph.mem_nodes_finsetSum.mpr ⟨p, hp, ?_⟩))
      exact Multiset.mem_singleton_self _
    · exact (no_out_edge hB (hE p hp)).mpr hchildless

/-- One round deletes the directories without a child, and nothing else. -/
theorem prune_round (hB : FilesUnder files B) (hE : ∀ p ∈ E, p ≠ []) :
    (B + ∑ q ∈ E, dirPart q).detachDelete
        (fun k => k ∈ (orphans (B + ∑ q ∈ E, dirPart q)).map Node.key) =
      B + ∑ q ∈ E.filter (¬Childless files E ·), dirPart q := by
  have horphan : ∀ {p : List FileName}, p ≠ [] → ¬Childless files E p →
      ((.directory, pathString p) : Key) ∉ (orphans (B + ∑ q ∈ E, dirPart q)).map Node.key := by
    intro p hp hchild hmem
    obtain ⟨q, hq, hchildless, hkey⟩ := (mem_orphans hB hE).mp hmem
    exact hchild (pathString_injective hp (hE q hq) (congrArg Prod.snd hkey) ▸ hchildless)
  have hlabel : ∀ {k : Key}, k.1 ≠ .directory →
      k ∉ (orphans (B + ∑ q ∈ E, dirPart q)).map Node.key := by
    intro k hk hmem
    obtain ⟨q, _, _, rfl⟩ := (mem_orphans hB hE).mp hmem
    exact hk rfl
  rw [Graph.detachDelete, Graph.restrict_add, Graph.restrict_finsetSum, Finset.sum_filter]
  congr 1
  · refine Graph.restrict_eq_self (fun n hn => hlabel (hB.nodes n hn)) fun e he => ⟨?_, ?_⟩
    · by_cases hdir : e.sourceKey.1 = .directory
      · obtain ⟨f, hf, hne, hsource⟩ := hB.sources e he hdir
        change e.sourceKey ∉ _
        rw [hsource]
        exact horphan hne fun hchildless => hchildless.1 f hf rfl
      · exact hlabel hdir
    · exact hlabel (hB.targets e he)
  · refine Finset.sum_congr rfl fun p hp => ?_
    by_cases hchildless : Childless files E p
    · have hmem : ((.directory, pathString p) : Key) ∈
          (orphans (B + ∑ q ∈ E, dirPart q)).map Node.key :=
        (mem_orphans hB hE).mpr ⟨p, hp, hchildless, rfl⟩
      rw [if_neg (not_not_intro hchildless)]
      refine Graph.restrict_eq_zero (fun n hn hkept => ?_) fun e he hkept => ?_
      · obtain rfl : n = dirNode p := Multiset.mem_singleton.mp hn
        exact hkept hmem
      · obtain ⟨_, rfl⟩ := mem_dirEdges (Multiset.mem_coe.mp he)
        exact hkept.2 hmem
    · rw [if_pos hchildless]
      refine Graph.restrict_eq_self (fun n hn => ?_) fun e he => ?_
      · obtain rfl : n = dirNode p := Multiset.mem_singleton.mp hn
        exact horphan (hE p hp) hchildless
      · obtain ⟨hne, rfl⟩ := mem_dirEdges (Multiset.mem_coe.mp he)
        refine ⟨horphan hne fun h => h.2 p hp rfl, horphan (hE p hp) hchildless⟩

theorem prune_of_no_orphans {store : GraphStore} (rounds : Nat) (h : orphans store = 0) :
    pruneOrphanDirectories rounds store = store := by
  cases rounds with
  | zero => rfl
  | succ rounds => rw [pruneOrphanDirectories, if_pos h]

/-- The test for orphans saves rounds and changes nothing. -/
theorem prune_succ (rounds : Nat) (store : GraphStore) :
    pruneOrphanDirectories (rounds + 1) store =
      pruneOrphanDirectories rounds
        (store.detachDelete fun k => k ∈ (orphans store).map Node.key) := by
  rw [pruneOrphanDirectories]
  by_cases h : orphans store = 0
  · have hsame : (store.detachDelete fun k => k ∈ (orphans store).map Node.key) = store :=
      Graph.restrict_eq_self (by simp [h]) (by simp [h])
    rw [if_pos h, hsame, prune_of_no_orphans rounds h]
  · rw [if_neg h]

/-- A directory above a file has a child. -/
theorem not_childless_of_mem_dirsOf {p : List FileName} (hp : p ∈ dirsOf files)
    (hsub : dirsOf files ⊆ E) : ¬Childless files E p := by
  rintro ⟨hfiles, hdirs⟩
  obtain ⟨f, hf, hne, q, hq⟩ := mem_dirsOf.mp hp
  by_cases hnil : q = []
  · subst hnil
    exact hfiles f hf (by rw [← hq, List.append_nil])
  · obtain ⟨c, q, rfl⟩ := List.exists_cons_of_ne_nil hnil
    have hchild : p ++ [c] ∈ dirsOf files := by
      refine mem_dirsOf.mpr ⟨f, hf, by simp, q, ?_⟩
      rw [← hq, List.append_assoc, List.singleton_append]
    exact hdirs _ (hsub hchild) (List.dropLast_concat)

/-- Rounds enough for the depth leave the directories above a file. -/
theorem prune_run (hB : FilesUnder files B) (rounds : Nat) (hE : ∀ p ∈ E, p ≠ [])
    (hsub : dirsOf files ⊆ E) (hdepth : ∀ p ∈ E, p ∉ dirsOf files → p.length ≤ rounds) :
    pruneOrphanDirectories rounds (B + ∑ q ∈ E, dirPart q) = B + ∑ q ∈ dirsOf files, dirPart q := by
  induction rounds generalizing E with
  | zero =>
      have hsame : E = dirsOf files := by
        refine Finset.Subset.antisymm (fun p hp => ?_) hsub
        by_contra hnot
        exact hE p hp (List.eq_nil_of_length_eq_zero (Nat.le_zero.mp (hdepth p hp hnot)))
      rw [pruneOrphanDirectories, hsame]
  | succ rounds ih =>
      rw [prune_succ, prune_round hB hE]
      refine ih ?_ ?_ ?_
      · exact fun p hp => hE p (Finset.mem_filter.mp hp).1
      · exact fun p hp => Finset.mem_filter.mpr ⟨hsub hp, not_childless_of_mem_dirsOf hp hsub⟩
      · intro p hp hnot
        obtain ⟨hmem, hchild⟩ := Finset.mem_filter.mp hp
        have hfiles : ∀ f ∈ files, f.dirs ≠ p := by
          rintro f hf rfl
          exact hnot (mem_dirsOf.mpr ⟨f, hf, hE _ hmem, List.prefix_rfl⟩)
        -- what stands in a directory above no file is one more such directory
        obtain ⟨q, hq, rfl⟩ : ∃ q ∈ E, q.dropLast = p := by
          by_contra hnone
          exact hchild ⟨hfiles, fun q hq heq => hnone ⟨q, hq, heq⟩⟩
        have hqnot : q ∉ dirsOf files := by
          intro hq'
          obtain ⟨f, hf, _, hpre⟩ := mem_dirsOf.mp hq'
          exact hnot (mem_dirsOf.mpr ⟨f, hf, hE _ hmem, (List.dropLast_prefix q).trans hpre⟩)
        have hlen := hdepth q hq hqnot
        rw [List.length_dropLast]
        omega

end Prune

end AutomatisedPipeline.Indexer
