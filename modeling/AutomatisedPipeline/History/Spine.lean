import AutomatisedPipeline.History.Touches

/-!
The version spine: the versions of each entity form one chain along the commits.

A version is named after its entity and its commit, so what decides is whether the diff of a
commit names an entity twice. The code tells the symbols of one entry of a diff apart and
nothing across its entries: a type change, for which git prints two entries with one path,
gives two versions of one name, the second of which has the first, and so itself, before it.
-/

namespace AutomatisedPipeline.History

open Text Diff Assoc Chains

section Spine

variable {repo : Repository} {pathPrefix : Str} {knownFiles : List Str}

/-! ### The spine -/

/-- The ids of the versions of an entity. -/
def Collected.idsOf (c : Collected) (e : Str) : List Str :=
  (c.versions.filter fun v => v.entity.entityId = e).map VersionRow.id

variable (repo pathPrefix knownFiles)

/-- Not a merge, and an entry of its diff names the entity. -/
def TouchedBy (e : Str) (commit : CommitMeta) : Prop :=
  commit.parents.length ≤ 1 ∧ ∃ entry ∈ entriesOf repo pathPrefix knownFiles commit,
    Names repo entry e

/-- The versions are told apart by their ids, each belongs to one entity and to one commit that
touched it, and the versions of an entity form one chain along the commits. -/
structure VersionSpine (commits : List CommitMeta) (c : Collected) : Prop where
  distinct : (c.versions.map VersionRow.id).Nodup
  ofCommit : ∀ v ∈ c.versions, ∃! commit, commit ∈ commits ∧ commit.sha = v.commitSha ∧
    TouchedBy repo pathPrefix knownFiles v.entity.entityId commit
  changedIn : ∀ v ∈ c.versions, ∀ sha, (v.id, sha) ∈ c.changedIn ↔ sha = v.commitSha
  versionOf : ∀ v ∈ c.versions, ∀ label e, (v.id, e) ∈ (c.versionOf.lookup label).getD [] ↔
    label = v.entity.label ∧ e = v.entity.entityId
  inOrder : ∀ e, ((c.versions.filter fun v => v.entity.entityId = e).map
    VersionRow.commitSha).Sublist (commits.reverse.map CommitMeta.sha)
  linked : ∀ v prev, (v, prev) ∈ c.prevVersion ↔ ∃ e, [prev, v] <:+: c.idsOf e
  unbranched : (c.prevVersion.map Prod.fst).Nodup ∧ (c.prevVersion.map Prod.snd).Nodup
  acyclic : ∀ v, ¬ Relation.TransGen (fun a b => (a, b) ∈ c.prevVersion) v v

/-- The entries of the diff of a commit are apart, and no two commits that touch anything share
a sha. -/
structure DiffsApart (commits : List CommitMeta) : Prop where
  entries : ∀ commit ∈ commits, commit.parents.length ≤ 1 →
    EntriesApart repo (entriesOf repo pathPrefix knownFiles commit)
  shas : ((commits.filter fun commit => decide (commit.parents.length ≤ 1) &&
    !(entriesOf repo pathPrefix knownFiles commit).isEmpty).map CommitMeta.sha).Nodup

variable {repo pathPrefix knownFiles}

theorem mem_map_versionId_touchesOf {commit : CommitMeta} {v : Str} :
    v ∈ (touchesOf repo pathPrefix knownFiles commit).map Touch.versionId ↔
      ∃ e ∈ (entriesOf repo pathPrefix knownFiles commit).flatMap (entitiesOf repo),
        versionId e.entityId commit.sha = v := by
  rw [touchesOf, List.map_map, List.mem_map]
  rfl

/-- The names of the versions of one commit. -/
theorem nodup_versionId_touchesOf {commit : CommitMeta} (hat : '@' ∉ commit.sha) :
    ((touchesOf repo pathPrefix knownFiles commit).map Touch.versionId).Nodup ↔
      EntriesApart repo (entriesOf repo pathPrefix knownFiles commit) := by
  rw [← nodup_flatMap_entitiesOf, touchesOf, List.map_map]
  have hcomp : Touch.versionId ∘ (commit, ·) =
      (fun e => versionId e commit.sha) ∘ ChangedEntity.entityId := rfl
  rw [hcomp, ← List.map_map]
  exact List.nodup_map_iff fun e e' heq => (versionId_inj hat hat heq).1

/-- Two commits share the name of a version when they share their sha and touch something. -/
theorem disjoint_versionId_touchesOf {x y : CommitMeta} (hx : '@' ∉ x.sha) (hy : '@' ∉ y.sha) :
    ((touchesOf repo pathPrefix knownFiles x).map Touch.versionId).Disjoint
        ((touchesOf repo pathPrefix knownFiles y).map Touch.versionId) ↔
      (entriesOf repo pathPrefix knownFiles x ≠ [] → entriesOf repo pathPrefix knownFiles y ≠ [] →
        x.sha ≠ y.sha) := by
  constructor
  · intro hdisjoint hentries _ hsha
    obtain ⟨entry, hentry⟩ := List.exists_mem_of_ne_nil _ hentries
    have hfile : fileEntity entry.2 entry.1 ∈
        (entriesOf repo pathPrefix knownFiles x).flatMap (entitiesOf repo) :=
      List.mem_flatMap.mpr ⟨entry, hentry, List.mem_cons_self⟩
    have hsame : entriesOf repo pathPrefix knownFiles x =
        entriesOf repo pathPrefix knownFiles y := by
      rw [entriesOf, entriesOf, hsha]
    refine hdisjoint (mem_map_versionId_touchesOf.mpr ⟨_, hfile, rfl⟩)
      (mem_map_versionId_touchesOf.mpr ⟨_, hsame ▸ hfile, ?_⟩)
    rw [hsha]
  · intro h v hvx hvy
    obtain ⟨e, he, rfl⟩ := mem_map_versionId_touchesOf.mp hvx
    obtain ⟨e', he', heq⟩ := mem_map_versionId_touchesOf.mp hvy
    have hne : ∀ {commit : CommitMeta} {e : ChangedEntity},
        e ∈ (entriesOf repo pathPrefix knownFiles commit).flatMap (entitiesOf repo) →
          entriesOf repo pathPrefix knownFiles commit ≠ [] := by
      intro commit e he hnil
      rw [hnil] at he
      cases he
    exact h (hne he) (hne he') (versionId_inj hy hx heq).2.symm

/-- The versions have different names exactly when the diffs are apart. -/
theorem nodup_versionId_iff {commits : List CommitMeta}
    (hdiffs : ∀ commit ∈ commits, commit.parents.length ≤ 1 →
      ∃ hunks, diffOf repo commit.sha = .ok hunks) :
    ((touches repo pathPrefix knownFiles commits).map Touch.versionId).Nodup ↔
      DiffsApart repo pathPrefix knownFiles commits := by
  have hat : ∀ commit ∈ commits, commit.parents.length ≤ 1 → '@' ∉ commit.sha := by
    intro commit hmem hparents
    obtain ⟨hunks, hdiff⟩ := hdiffs commit hmem hparents
    exact not_at_mem_of_diffOf hdiff
  have hpairs : (commits.filter fun commit => commit.parents.length ≤ 1).Pairwise
      (Function.onFun List.Disjoint fun commit =>
        (touchesOf repo pathPrefix knownFiles commit).map Touch.versionId) ↔
      ((commits.filter fun commit => decide (commit.parents.length ≤ 1) &&
        !(entriesOf repo pathPrefix knownFiles commit).isEmpty).map CommitMeta.sha).Nodup := by
    rw [List.Nodup, List.pairwise_map, List.pairwise_filter, List.pairwise_filter]
    refine List.Pairwise.iff_of_mem fun {x y} hx hy => ?_
    simp only [decide_eq_true_eq, Bool.and_eq_true, Bool.not_eq_true', List.isEmpty_eq_false_iff]
    constructor
    · rintro h ⟨hpx, hex⟩ ⟨hpy, hey⟩
      exact (disjoint_versionId_touchesOf (hat x hx hpx) (hat y hy hpy)).mp (h hpx hpy) hex hey
    · intro h hpx hpy
      exact (disjoint_versionId_touchesOf (hat x hx hpx) (hat y hy hpy)).mpr fun hex hey =>
        h ⟨hpx, hex⟩ ⟨hpy, hey⟩
  rw [touches, List.map_flatMap, List.nodup_flatMap, hpairs]
  constructor
  · rintro ⟨hone, hshas⟩
    refine ⟨fun commit hmem hparents => ?_, hshas⟩
    exact (nodup_versionId_touchesOf (hat commit hmem hparents)).mp
      (hone commit (List.mem_filter.mpr ⟨hmem, decide_eq_true hparents⟩))
  · rintro ⟨hentries, hshas⟩
    refine ⟨fun commit hmem => ?_, hshas⟩
    obtain ⟨hmem, hparents⟩ := List.mem_filter.mp hmem
    have hparents := of_decide_eq_true hparents
    exact (nodup_versionId_touchesOf (hat commit hmem hparents)).mpr (hentries commit hmem hparents)

/-! ### The chains -/

/-- Of lists that follow one another, what is kept stands in their order, where each keeps one
item at most. -/
theorem filter_flatMap_sublist {α β γ : Type} {l : List α} {f : α → List β} {p : β → Bool}
    {g : β → γ} {g' : α → γ} (hg : ∀ a ∈ l, ∀ b ∈ f a, g b = g' a)
    (hone : ∀ a ∈ l, ((f a).filter p).length ≤ 1) :
    (((l.flatMap f).filter p).map g).Sublist (l.map g') := by
  induction l with
  | nil => exact List.Sublist.slnil
  | cons a l ih =>
      have htail := ih (fun a' ha' => hg a' (List.mem_cons_of_mem _ ha'))
        fun a' ha' => hone a' (List.mem_cons_of_mem _ ha')
      have hlen := hone a List.mem_cons_self
      rw [List.flatMap_cons, List.filter_append, List.map_append, List.map_cons]
      cases hkept : (f a).filter p with
      | nil => exact htail.cons _
      | cons b kept =>
          rw [hkept, List.length_cons] at hlen
          obtain rfl : kept = [] := List.length_eq_zero_iff.mp (by omega)
          have hb : b ∈ f a := (List.mem_filter.mp (hkept ▸ List.mem_cons_self)).1
          rw [List.map_cons, List.map_nil, List.singleton_append, hg a List.mem_cons_self b hb]
          exact htail.cons_cons _

section Distinct

variable {commits : List CommitMeta} {c : Collected} {last : List (Str × Str)} {ts : List Touch}

theorem Collects.map_id (h : Collects ts c last) :
    c.versions.map VersionRow.id = ts.map Touch.versionId := by
  rw [h.versions, List.map_map]
  rfl

theorem Collects.idsOf (h : Collects ts c last) (e : Str) :
    c.idsOf e = valuesOf e (ts.map Touch.item) := by
  rw [Collected.idsOf, h.versions, valuesOf, List.filter_map, List.filter_map, List.map_map,
    List.map_map]
  rfl

theorem map_snd_item : (ts.map Touch.item).map Prod.snd = ts.map Touch.versionId := by
  rw [List.map_map]
  rfl

theorem Collects.mem_changedIn (h : Collects ts c last) (hids : (ts.map Touch.versionId).Nodup)
    {t : Touch} (ht : t ∈ ts) {sha : Str} : (t.versionId, sha) ∈ c.changedIn ↔ sha = t.1.sha := by
  rw [h.changedIn, List.mem_map]
  constructor
  · rintro ⟨t', ht', heq⟩
    obtain ⟨hid, rfl⟩ := Prod.mk.inj heq
    rw [List.inj_on_of_nodup_map hids ht' ht hid]
  · rintro rfl
    exact ⟨t, ht, rfl⟩

theorem Collects.mem_versionOf (h : Collects ts c last) (hids : (ts.map Touch.versionId).Nodup)
    {t : Touch} (ht : t ∈ ts) {label e : Str} :
    (t.versionId, e) ∈ (c.versionOf.lookup label).getD [] ↔
      label = t.2.label ∧ e = t.2.entityId := by
  rw [h.versionOf, lookup_group (fun t : Touch => t.2.label) fun t => (t.versionId, t.2.entityId),
    List.mem_map]
  constructor
  · rintro ⟨t', ht', heq⟩
    obtain ⟨hid, rfl⟩ := Prod.mk.inj heq
    obtain ⟨hmem, hlabel⟩ := List.mem_filter.mp ht'
    obtain rfl := List.inj_on_of_nodup_map hids hmem ht hid
    exact ⟨(of_decide_eq_true hlabel).symm, rfl⟩
  · rintro ⟨rfl, rfl⟩
    exact ⟨t, List.mem_filter.mpr ⟨ht, decide_eq_true rfl⟩, rfl⟩

/-- The versions of an entity stand in the order of the commits. -/
theorem sublist_shas
    (hids : ((touches repo pathPrefix knownFiles commits).map Touch.versionId).Nodup) (e : Str) :
    (((touches repo pathPrefix knownFiles commits).filter fun t => t.2.entityId = e).map
      fun t => t.1.sha).Sublist (commits.map CommitMeta.sha) := by
  have hkept : (((touches repo pathPrefix knownFiles commits).filter fun t =>
      t.2.entityId = e).map fun t => t.1.sha).Sublist
        ((commits.filter fun commit => commit.parents.length ≤ 1).map CommitMeta.sha) :=
    filter_flatMap_sublist ?_ ?_
  · exact hkept.trans (List.filter_sublist.map CommitMeta.sha)
  · intro commit _ t ht
    obtain ⟨e', -, rfl⟩ := List.mem_map.mp ht
    rfl
  · intro commit hmem
    have hsub : (touchesOf repo pathPrefix knownFiles commit).Sublist
        (touches repo pathPrefix knownFiles commits) := by
      obtain ⟨before, after, hsplit⟩ := List.append_of_mem hmem
      rw [touches, hsplit, List.flatMap_append, List.flatMap_cons]
      exact (List.sublist_append_left _ _).trans (List.sublist_append_right _ _)
    have hnodup : (((touchesOf repo pathPrefix knownFiles commit).filter fun t =>
        t.2.entityId = e).map Touch.versionId).Nodup :=
      hids.sublist ((List.filter_sublist.trans hsub).map Touch.versionId)
    have hall : ∀ v ∈ ((touchesOf repo pathPrefix knownFiles commit).filter fun t =>
        t.2.entityId = e).map Touch.versionId, v = versionId e commit.sha := by
      intro v hv
      obtain ⟨t, ht, rfl⟩ := List.mem_map.mp hv
      obtain ⟨ht, he⟩ := List.mem_filter.mp ht
      obtain ⟨e', -, rfl⟩ := List.mem_map.mp ht
      rw [← of_decide_eq_true he]
      rfl
    rw [List.eq_replicate_of_mem hall, List.nodup_replicate, List.length_map] at hnodup
    exact hnodup

/-- Versions that are told apart form a spine. -/
theorem Collects.spine (h : Collects (touches repo pathPrefix knownFiles commits.reverse) c last)
    (hids : ((touches repo pathPrefix knownFiles commits.reverse).map Touch.versionId).Nodup)
    (hapart : DiffsApart repo pathPrefix knownFiles commits) :
    VersionSpine repo pathPrefix knownFiles commits c where
  distinct := h.map_id ▸ hids
  ofCommit := by
    rw [h.versions]
    intro v hv
    obtain ⟨t, ht, rfl⟩ := List.mem_map.mp hv
    obtain ⟨⟨hmem, hparents⟩, he⟩ := mem_touches.mp ht
    have hmem := List.mem_reverse.mp hmem
    obtain ⟨entry, hentry, he⟩ := List.mem_flatMap.mp he
    have hnames : Names repo entry t.2.entityId :=
      mem_entitiesOf.mp (List.mem_map.mpr ⟨t.2, he, rfl⟩)
    refine ⟨t.1, ⟨hmem, rfl, hparents, entry, hentry, hnames⟩, ?_⟩
    rintro commit ⟨hcommit, hsha, hparents', entry', hentry', -⟩
    refine List.inj_on_of_nodup_map hapart.shas ?_ ?_ hsha
    · refine List.mem_filter.mpr ⟨hcommit, ?_⟩
      simp [hparents', List.ne_nil_of_mem hentry']
    · refine List.mem_filter.mpr ⟨hmem, ?_⟩
      simp [hparents, List.ne_nil_of_mem hentry]
  changedIn := by
    rw [h.versions]
    intro v hv
    obtain ⟨t, ht, rfl⟩ := List.mem_map.mp hv
    exact fun sha => h.mem_changedIn hids ht
  versionOf := by
    rw [h.versions]
    intro v hv
    obtain ⟨t, ht, rfl⟩ := List.mem_map.mp hv
    exact fun label e => h.mem_versionOf hids ht
  inOrder := by
    intro e
    rw [h.versions, List.filter_map, List.map_map]
    exact sublist_shas hids e
  linked := by
    intro v prev
    rw [h.prevVersion, mem_links]
    exact exists_congr fun e => by rw [h.idsOf e]
  unbranched := by
    rw [h.prevVersion]
    exact ⟨nodup_fst_links (map_snd_item ▸ hids), nodup_snd_links (map_snd_item ▸ hids)⟩
  acyclic := by
    rw [h.prevVersion]
    exact acyclic_links (map_snd_item ▸ hids)

end Distinct

/-- What is collected is a spine exactly when the diffs of the commits are apart. -/
theorem versionSpine_iff {commits : List CommitMeta} {c : Collected}
    (h : collectVersions repo pathPrefix knownFiles commits = .ok c) :
    VersionSpine repo pathPrefix knownFiles commits c ↔
      DiffsApart repo pathPrefix knownFiles commits := by
  obtain ⟨hdiffs, last, hcollects⟩ := collects_of_collectVersions h
  have hperm : ((touches repo pathPrefix knownFiles commits.reverse).map Touch.versionId).Perm
      ((touches repo pathPrefix knownFiles commits).map Touch.versionId) :=
    ((((List.reverse_perm commits).filter _).flatMap_right _).map _)
  have hids := @nodup_versionId_iff repo pathPrefix knownFiles commits hdiffs
  rw [← hperm.nodup_iff] at hids
  constructor
  · intro hspine
    exact hids.mp (hcollects.map_id ▸ hspine.distinct)
  · intro hapart
    exact hcollects.spine (hids.mpr hapart) hapart

end Spine

/-! ### Two logs -/

/-- The store of one file with one function, on its first three lines. -/
def oneFunction (query : Str) : Except Str (List (List Str)) :=
  if query = definesQuery "a.py".toList "Function".toList then
    .ok [["a.py::f".toList, "f".toList, "1".toList, "3".toList]]
  else .ok []

/-- The file is added, and then its second line is changed. -/
def edited : Repository where
  debug := id
  gitShow sha :=
    if sha = "cafe1".toList then
      .ok (unlines ["diff --git a/a.py b/a.py".toList, "new file mode 100644".toList,
        "--- /dev/null".toList, "+++ b/a.py".toList, "@@ -0,0 +1,3 @@".toList, "+def f():".toList,
        "+    x = 1".toList, "+    return x".toList])
    else
      .ok (unlines ["diff --git a/a.py b/a.py".toList, "--- a/a.py".toList, "+++ b/a.py".toList,
        "@@ -1,3 +1,3 @@".toList, " def f():".toList, "-    x = 1".toList, "+    x = 2".toList,
        "     return x".toList])
  executeQuery := oneFunction

/-- The newest first. -/
def editedLog : List CommitMeta :=
  [{ sha := "cafe2".toList, committedAt := 2, parents := ["cafe1".toList] },
    { sha := "cafe1".toList, committedAt := 1, parents := [] }]

/-- The same file, first a symbolic link and then a file. -/
def retyped : Repository where
  debug := id
  gitShow _ :=
    .ok (unlines ["diff --git a/a.py b/a.py".toList, "deleted file mode 120000".toList,
      "--- a/a.py".toList, "+++ /dev/null".toList, "@@ -1 +0,0 @@".toList, "-b.py".toList,
      "diff --git a/a.py b/a.py".toList, "new file mode 100644".toList, "--- /dev/null".toList,
      "+++ b/a.py".toList, "@@ -0,0 +1,3 @@".toList, "+def f():".toList, "+    x = 1".toList,
      "+    return x".toList])
  executeQuery := oneFunction

def retypedLog : List CommitMeta := [{ sha := "cafe3".toList, committedAt := 3, parents := [] }]

theorem entriesApart_singleton {repo : Repository} {entry : FileHunk × Str}
    (h : ∀ r ∈ fileSymbolRanges repo entry.2, r.id ≠ entry.2) : EntriesApart repo [entry] where
  files := List.nodup_singleton entry.2
  symbols := List.pairwise_singleton _ entry
  fileIds := by
    intro a ha b hb r hr _
    rw [List.mem_singleton.mp ha]
    rw [List.mem_singleton.mp hb] at hr
    exact h r hr

theorem versionSpine_edited :
    ∃ c, collectVersions edited [] ["a.py".toList] editedLog = .ok c ∧
      VersionSpine edited [] ["a.py".toList] editedLog c := by
  cases hc : collectVersions edited [] ["a.py".toList] editedLog with
  | error e =>
      have hok : (collectVersions edited [] ["a.py".toList] editedLog).toOption.isSome = true := by
        decide +kernel
      rw [hc] at hok
      cases hok
  | ok c =>
      refine ⟨c, rfl, (versionSpine_iff hc).mpr ⟨?_, ?_⟩⟩
      · have hfiles : ∀ commit ∈ editedLog,
            (entriesOf edited [] ["a.py".toList] commit).map Prod.snd = ["a.py".toList] := by
          decide +kernel
        have hranges : ∀ r ∈ fileSymbolRanges edited "a.py".toList, r.id ≠ "a.py".toList := by
          decide +kernel
        intro commit hmem _
        obtain ⟨entry, hentry, hfile⟩ := List.map_eq_singleton_iff.mp (hfiles commit hmem)
        rw [hentry]
        exact entriesApart_singleton (hfile ▸ hranges)
      · decide +kernel

/-- A type change gives the versions of its commit one name twice. -/
theorem not_versionSpine_retyped :
    ¬ ∀ c, collectVersions retyped [] ["a.py".toList] retypedLog = .ok c →
      VersionSpine retyped [] ["a.py".toList] retypedLog c := by
  intro h
  have hids : (collectVersions retyped [] ["a.py".toList] retypedLog).toOption.map
      (fun c => decide (c.versions.map VersionRow.id).Nodup) = some false := by
    decide +kernel
  cases hc : collectVersions retyped [] ["a.py".toList] retypedLog with
  | error e =>
      rw [hc] at hids
      cases hids
  | ok c =>
      rw [hc] at hids
      exact of_decide_eq_false (Option.some.inj hids) (h c hc).distinct


end AutomatisedPipeline.History
