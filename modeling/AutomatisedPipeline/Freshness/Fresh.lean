import AutomatisedPipeline.Freshness.Check

/-!
What a `fresh` receipt says.

The record of a run holds every probe of the host with its answer, so `Verified` can
say what was read and compared, and that no file outside the indexed root was. The
commit is compared through two git commands; where the second one fails the commit
signal is absent by design, and the receipt speaks of the files alone.
-/

namespace AutomatisedPipeline.Freshness

open Text

/-! ### Paths under a root -/

/-- The path lies under the root by its components, none of which leaves it. -/
def LexicallyUnder (root path : Str) : Prop :=
  ∃ names : List Str, pathComponents path = pathComponents root ++ names.map Component.normal

/-- The component in front of a path's parts. -/
def leading (path : Str) : List Component :=
  if path.head? = some '/' then [.rootDir]
  else if path = ['.'] ∨ ['.', '/'].isPrefixOf path then [.curDir] else []

theorem pathComponents_eq (path : Str) :
    pathComponents path = leading path ++ (components path).map Component.ofPart := rfl

theorem components_append (a b : Str) : components (a ++ '/' :: b) = components a ++ components b := by
  rw [components, List.splitOn_append_cons_self, List.filter_append]
  rfl

theorem leading_append {base : Str} (hbase : base ≠ []) (rel : Str) :
    leading (base ++ '/' :: rel) = leading base := by
  cases base with
  | nil => exact absurd rfl hbase
  | cons c base =>
      cases base with
      | nil =>
          by_cases hdot : c = '.'
          · subst hdot
            rfl
          · simp [leading, hdot, Ne.symm hdot]
      | cons d base => simp [leading]

theorem components_nil : components [] = [] := by
  rw [components, List.splitOn_nil]
  rfl

/-- A relative path that does not start with `.` adds its components. -/
theorem pathComponents_join {base rel : Str} (hrel : leading rel = []) :
    pathComponents (joinPath base rel) = pathComponents base ++ pathComponents rel := by
  have hhead : rel.head? ≠ some '/' := by
    intro h
    simp [leading, h] at hrel
  rw [joinPath, if_neg hhead]
  split
  · rename_i h
    rcases h with rfl | hlast
    · rfl
    · obtain ⟨front, rfl⟩ := List.getLast?_eq_some_iff.mp hlast
      have hfront : leading (front ++ '/' :: rel) = leading (front ++ ['/']) := by
        cases front with
        | nil => rfl
        | cons c front => rw [leading_append (by simp), leading_append (by simp)]
      rw [List.append_assoc, List.singleton_append, pathComponents_eq, pathComponents_eq,
        pathComponents_eq, hfront, hrel, components_append, components_append, components_nil,
        List.append_nil, List.map_append, List.nil_append, List.append_assoc]
  · rename_i h
    rw [pathComponents_eq, pathComponents_eq, pathComponents_eq, components_append,
      leading_append (fun h' => h (.inl h')), hrel, List.map_append, List.nil_append,
      List.append_assoc]

/-- A key that passes the containment check is a relative path of ordinary components. -/
theorem isContainedKey_iff {rel : Str} :
    isContainedKey rel = true ↔
      rel ≠ [] ∧ ∃ names : List Str, pathComponents rel = names.map Component.normal := by
  rw [isContainedKey, Bool.and_eq_true, Bool.not_eq_true', List.isEmpty_eq_false_iff,
    List.all_eq_true]
  refine and_congr_right fun _ => ⟨fun h => ?_, ?_⟩
  · have hname : ∀ c ∈ pathComponents rel, ∃ name, Component.normal name = c := by
      intro c hc
      have hnormal := h c hc
      cases c with
      | normal name => exact ⟨name, rfl⟩
      | rootDir => cases hnormal
      | curDir => cases hnormal
      | parentDir => cases hnormal
    have hrange : pathComponents rel ∈ Set.range (List.map Component.normal) := by
      rw [Set.range_list_map]
      exact hname
    obtain ⟨names, hnames⟩ := hrange
    exact ⟨names, hnames.symm⟩
  · rintro ⟨names, hnames⟩ c hc
    rw [hnames] at hc
    obtain ⟨name, -, rfl⟩ := List.mem_map.mp hc
    rfl

/-- A contained key resolves under every root. -/
theorem lexicallyUnder_join {rel : Str} (h : isContainedKey rel = true) (root : Str) :
    LexicallyUnder root (joinPath root rel) := by
  obtain ⟨-, names, hnames⟩ := isContainedKey_iff.mp h
  have hleading : leading rel = [] := by
    rw [pathComponents_eq] at hnames
    cases hl : leading rel with
    | nil => rfl
    | cons c l =>
        exfalso
        rw [hl, List.cons_append] at hnames
        have hc : c = .rootDir ∨ c = .curDir := by
          unfold leading at hl
          split at hl
          · exact .inl (List.cons.inj hl).1.symm
          · split at hl
            · exact .inr (List.cons.inj hl).1.symm
            · cases hl
        cases names with
        | nil => cases hnames
        | cons name names =>
            have hhead := (List.cons.inj hnames).1
            rcases hc with rfl | rfl
            · cases hhead
            · cases hhead
  exact ⟨names, by rw [pathComponents_join hleading, hnames]⟩

/-! ### What the parts of the check ask and answer -/

/-- The recorded state of an indexed file was compared with the file and agreed. -/
def Compared (record : List (Probe × Reply)) (root : Str) (entry : Str × FileState) : Prop :=
  ∃ attr, (.metadata (joinPath root entry.1), .attr attr) ∈ record ∧
    mtimeNs attr = entry.2.mtimeNs ∧ attr.size = entry.2.size

theorem Compared.mono {record record' : List (Probe × Reply)} {root : Str} {entry : Str × FileState}
    (h : Compared record root entry) (hsub : record ⊆ record') : Compared record' root entry := by
  obtain ⟨attr, hmem, hfacts⟩ := h
  exact ⟨attr, hsub hmem, hfacts⟩

theorem compared_of_matchesState {root : Str} {entry : Str × FileState} {reply : Reply}
    (h : matchesState reply entry.2 = true) :
    Compared [(.metadata (joinPath root entry.1), reply)] root entry := by
  cases reply with
  | attr attr =>
      simp only [matchesState, Bool.and_eq_true, beq_iff_eq] at h
      exact ⟨attr, List.mem_singleton_self _, h⟩
  | _ => cases h

/-- Only files under the root are stat'ed, and a count of 0 means that every key is
contained and its file agrees. -/
theorem countDirty_spec (root : Str) (files : List (Str × FileState)) :
    (countDirty root files).Always fun count record =>
      (∀ e ∈ record, ∃ rel, isContainedKey rel = true ∧ e.1 = .metadata (joinPath root rel)) ∧
      (count = 0 → ∀ entry ∈ files, isContainedKey entry.1 = true ∧ Compared record root entry) := by
  rw [countDirty]
  refine Asks.always_foldlM (fun seen count record =>
    (∀ e ∈ record, ∃ rel, isContainedKey rel = true ∧ e.1 = .metadata (joinPath root rel)) ∧
    (count = 0 → ∀ entry ∈ seen, isContainedKey entry.1 = true ∧ Compared record root entry))
    (by simp) ?_
  rintro seen entry count record ⟨hasked, hclean⟩
  rw [Asks.always_bind, isDirty]
  split
  · simp only [Asks.always_pure, if_true, List.append_nil]
    exact ⟨hasked, fun h => absurd h (Nat.succ_ne_zero _)⟩
  · rename_i hcontained
    have hcontained : isContainedKey entry.1 = true := by simpa using hcontained
    intro reply
    refine ⟨?_, ?_⟩
    · intro e he
      rcases List.mem_append.mp he with hmem | hmem
      · exact hasked e hmem
      · rw [List.mem_singleton.mp hmem]
        exact ⟨entry.1, hcontained, rfl⟩
    · intro hcount other hother
      cases hmatch : matchesState reply entry.2 with
      | false => simp [hmatch] at hcount
      | true =>
          simp only [hmatch, Bool.not_true, Bool.false_eq_true, if_false] at hcount
          rcases List.mem_append.mp hother with hmem | hmem
          · obtain ⟨hkey, hcompared⟩ := hclean hcount other hmem
            exact ⟨hkey, hcompared.mono (List.subset_append_left _ _)⟩
          · rw [List.mem_singleton.mp hmem]
            exact ⟨hcontained,
              (compared_of_matchesState hmatch).mono (List.subset_append_right _ _)⟩

/-- Git answered that the HEAD of `root` is `head`. -/
def HeadAnswered (record : List (Probe × Reply)) (root head : Str) : Prop :=
  ∃ reply, (.gitRevParseHead root, reply) ∈ record ∧ headOf reply = some head

theorem always_gitHead {root : Str} {post : Option Str → List (Probe × Reply) → Prop} :
    (gitHead root).Always post ↔
      ∀ reply, post (headOf reply) [(.gitRevParseHead root, reply)] := Iff.rfl

theorem headOf_of_headAnswered {root head : Str} {reply : Reply} {record : List (Probe × Reply)}
    (hnone : ∀ e ∈ record, ∀ r, e.1 ≠ .gitRevParseHead r)
    (h : HeadAnswered ((.gitRevParseHead root, reply) :: record) root head) :
    headOf reply = some head := by
  obtain ⟨reply', hmem, hhead⟩ := h
  rcases List.mem_cons.mp hmem with heq | hmem
  · rw [← (Prod.mk.inj heq).2]
    exact hhead
  · exact absurd rfl (hnone _ hmem root)

/-- The commit comparison asks git alone. Its answer comes from a valid recorded sha and
the HEAD of the root: 0 and 0 when they are the same text, and else what git says of the
range between them. -/
theorem commitDivergence_spec (root : Str) (indexed : Option Str) :
    (commitDivergence root indexed).Always fun divergence record =>
      (∀ e ∈ record, ∀ path, e.1 ≠ .metadata path) ∧
      (divergence.isSome = true → ∃ sha head, indexed = some sha ∧ isHexSha sha = true ∧
        HeadAnswered record root head) ∧
      ∀ sha head, indexed = some sha → isHexSha sha = true → HeadAnswered record root head →
        (sha = head ∧ divergence = some (0, 0)) ∨
          ∃ reply, (.gitRevList root sha head, reply) ∈ record ∧ divergence = countsOf reply := by
  rw [commitDivergence]
  cases hfilter : indexed.filter fun sha => isHexSha sha with
  | none =>
      refine ⟨by simp, by simp, ?_⟩
      rintro sha head rfl hhex
      simp [hhex] at hfilter
  | some sha =>
      obtain ⟨hindexed, hhex⟩ := Option.filter_eq_some_iff.mp hfilter
      subst hindexed
      dsimp only
      rw [Asks.always_bind, always_gitHead]
      intro reply
      cases hhead : headOf reply with
      | none =>
          refine ⟨by simp, by simp, ?_⟩
          rintro sha' head - - hans
          have := headOf_of_headAnswered (by simp) hans
          rw [hhead] at this
          cases this
      | some head =>
          dsimp only
          split
          · rename_i hsame
            refine ⟨by simp, fun _ => ⟨sha, head, rfl, hhex, reply, by simp, hhead⟩, ?_⟩
            rintro sha' head' heq - hans
            have := headOf_of_headAnswered (by simp) hans
            rw [hhead] at this
            cases this
            cases heq
            exact .inl ⟨hsame, rfl⟩
          · intro counts
            refine ⟨by simp, fun _ => ⟨sha, head, rfl, hhex, reply, by simp, hhead⟩, ?_⟩
            rintro sha' head' heq - hans
            have := headOf_of_headAnswered (by simp) hans
            rw [hhead] at this
            cases this
            cases heq
            exact .inr ⟨counts, by simp, rfl⟩

/-- What the gates have read when they admit `inputs`. -/
structure Admitted (readers : Readers) (outputDir : Str) (record : List (Probe × Reply))
    («meta» : GraphMeta) (manifest : FileManifest) (root : Str) : Prop where
  metaRead : ∃ bytes, (.readFile (joinPath outputDir "meta.json".toList), .bytes bytes) ∈ record ∧
    readers.graphMeta bytes = some «meta»
  manifestRead : ∃ bytes attr, (.openFile (manifestPath outputDir), .opened bytes attr) ∈ record ∧
    readers.parse bytes = some manifest ∧ «meta».manifestSize = some attr.size ∧
    «meta».manifestMtimeNs = some (mtimeNs attr)
  rootResolved : (.canonicalize «meta».root, .path root) ∈ record
  rootAllowed : root ∉ readers.forbiddenRoots

theorem Admitted.mono {readers : Readers} {outputDir : Str} {record record' : List (Probe × Reply)}
    {«meta» : GraphMeta} {manifest : FileManifest} {root : Str}
    (h : Admitted readers outputDir record «meta» manifest root) (hsub : record ⊆ record') :
    Admitted readers outputDir record' «meta» manifest root := by
  obtain ⟨bytes, hmeta, hparse⟩ := h.metaRead
  obtain ⟨content, attr, hopen, hfacts⟩ := h.manifestRead
  exact ⟨⟨bytes, hsub hmeta, hparse⟩, ⟨content, attr, hsub hopen, hfacts⟩, hsub h.rootResolved,
    h.rootAllowed⟩

/-- A probe of the gates: neither a stat of an indexed file nor a question to git. -/
def OfGates (e : Probe × Reply) : Prop :=
  (∀ path, e.1 ≠ .metadata path) ∧ ∀ root, e.1 ≠ .gitRevParseHead root

theorem describesManifest_iff {«meta» : GraphMeta} {size : Nat} {mtime : Int} :
    «meta».describesManifest size mtime = true ↔
      «meta».manifestSize = some size ∧ «meta».manifestMtimeNs = some mtime := by
  rw [GraphMeta.describesManifest]
  cases «meta».manifestSize with
  | none => simp
  | some claimedSize =>
      cases «meta».manifestMtimeNs with
      | none => simp
      | some claimedMtime => simp

theorem validatedRoot_spec (readers : Readers) (claimed : Str) :
    (validatedRoot readers claimed).Always fun root record =>
      (∀ e ∈ record, OfGates e) ∧
      ∀ r, root = some r → (.canonicalize claimed, .path r) ∈ record ∧ r ∉ readers.forbiddenRoots := by
  rw [validatedRoot]
  split
  · exact ⟨by simp, by simp⟩
  · rw [Asks.always_bind, Asks.always_question]
    intro reply
    cases reply with
    | path root =>
        dsimp only
        rw [Asks.always_bind, Asks.always_question]
        intro reply
        split
        · exact ⟨by simp [OfGates], by simp⟩
        · split
          · exact ⟨by simp [OfGates], by simp⟩
          · rename_i hallowed
            refine ⟨by simp [OfGates], fun r hr => ?_⟩
            cases hr
            exact ⟨by simp, hallowed⟩
    | _ => exact ⟨by simp [OfGates], by simp⟩

theorem readMeta_spec (readers : Readers) (outputDir : Str) :
    (readMeta readers outputDir).Always fun found record =>
      (∀ e ∈ record, OfGates e) ∧
      ∀ m, found = some m →
        ∃ bytes, (.readFile (joinPath outputDir "meta.json".toList), .bytes bytes) ∈ record ∧
          readers.graphMeta bytes = some m := by
  intro reply
  cases reply with
  | bytes bytes => exact ⟨by simp [OfGates], fun m hm => ⟨bytes, by simp, hm⟩⟩
  | _ => exact ⟨by simp [OfGates], by simp⟩

theorem loadWithIdentity_spec (readers : Readers) (path : Str) :
    (loadWithIdentity readers path).Always fun loaded record =>
      (∀ e ∈ record, OfGates e) ∧
      ∀ manifest size mtime, loaded = some (manifest, size, mtime) →
        ∃ bytes attr, (.openFile path, .opened bytes attr) ∈ record ∧
          readers.parse bytes = some manifest ∧ size = attr.size ∧ mtime = mtimeNs attr := by
  intro reply
  cases reply with
  | opened bytes attr =>
      refine ⟨by simp [OfGates], fun manifest size mtime hloaded => ⟨bytes, attr, by simp, ?_⟩⟩
      obtain ⟨m, hparse, heq⟩ := Option.map_eq_some_iff.mp hloaded
      cases heq
      exact ⟨hparse, rfl, rfl⟩
  | _ => exact ⟨by simp [OfGates], by simp⟩

theorem admissibleInputs_ofGates (readers : Readers) (graphPath : Str) (outputDir : Option Str) :
    (admissibleInputs readers graphPath outputDir).Always fun _ record =>
      ∀ e ∈ record, OfGates e := by
  have hexists : (Asks.question (Probe.pathExists graphPath) : HostM Reply).Always fun _ record =>
      ∀ e ∈ record, OfGates e := fun reply => by simp [OfGates]
  unfold admissibleInputs
  refine hexists.forall_bind fun reply => ?_
  split
  · simp
  · cases outputDir with
    | none => simp
    | some dir =>
        refine ((readMeta_spec readers dir).mono fun _ _ h => h.1).forall_bind fun found => ?_
        cases found with
        | none => simp
        | some «meta» =>
            refine ((validatedRoot_spec readers «meta».root).mono fun _ _ h => h.1).forall_bind
              fun found => ?_
            cases found with
            | none => simp
            | some root =>
                refine ((loadWithIdentity_spec readers (manifestPath dir)).mono
                  fun _ _ h => h.1).forall_bind fun loaded => ?_
                cases loaded with
                | none => simp
                | some triple =>
                    dsimp only
                    split
                    · simp
                    · simp

theorem admissibleInputs_admitted (readers : Readers) (graphPath : Str) (outputDir : Option Str) :
    (admissibleInputs readers graphPath outputDir).Always fun inputs record =>
      ∀ i, inputs = some i → ∃ dir «meta» manifest, outputDir = some dir ∧
        Admitted readers dir record «meta» manifest i.root ∧ i.files = manifest.files ∧
        i.commitSha = «meta».commitSha := by
  unfold admissibleInputs
  rw [Asks.always_bind, Asks.always_question]
  intro reply
  split
  · simp
  · cases outputDir with
    | none => simp
    | some dir =>
        dsimp only
        rw [Asks.always_bind]
        refine (readMeta_spec readers dir).mono fun found record₁ hmeta => ?_
        cases found with
        | none => simp
        | some «meta» =>
            dsimp only
            rw [Asks.always_bind]
            refine (validatedRoot_spec readers «meta».root).mono fun found record₂ hroot => ?_
            cases found with
            | none => simp
            | some root =>
                dsimp only
                rw [Asks.always_bind]
                refine (loadWithIdentity_spec readers (manifestPath dir)).mono
                  fun loaded record₃ hload => ?_
                cases loaded with
                | none => simp
                | some triple =>
                    obtain ⟨manifest, size, mtime⟩ := triple
                    dsimp only
                    split
                    · simp
                    · rename_i hpair
                      refine fun i hi => ⟨dir, «meta», manifest, rfl, ?_⟩
                      cases hi
                      obtain ⟨bytes, hread, hparse⟩ := hmeta.2 _ rfl
                      obtain ⟨hresolved, hallowed⟩ := hroot.2 _ rfl
                      obtain ⟨content, attr, hopen, hmanifest, rfl, rfl⟩ := hload.2 _ _ _ rfl
                      have hpair := describesManifest_iff.mp (not_not.mp hpair)
                      have hsub : ∀ e, e ∈ record₁ ∨ e ∈ record₂ ∨ e ∈ record₃ →
                          e ∈ [(Probe.pathExists graphPath, reply)] ++
                            (record₁ ++ (record₂ ++ (record₃ ++ []))) := by
                        intro e he
                        simp only [List.append_nil, List.mem_append]
                        exact .inr he
                      exact ⟨⟨⟨bytes, hsub _ (.inl hread), hparse⟩,
                        ⟨content, attr, hsub _ (.inr (.inr hopen)), hmanifest, hpair⟩,
                        hsub _ (.inr (.inl hresolved)), hallowed⟩, rfl, rfl⟩

/-- The inputs that the gates admit come from a matching pair of sidecar files. -/
theorem admissibleInputs_spec (readers : Readers) (graphPath : Str) (outputDir : Option Str) :
    (admissibleInputs readers graphPath outputDir).Always fun inputs record =>
      (∀ e ∈ record, OfGates e) ∧
      ∀ i, inputs = some i → ∃ dir «meta» manifest, outputDir = some dir ∧
        Admitted readers dir record «meta» manifest i.root ∧ i.files = manifest.files ∧
        i.commitSha = «meta».commitSha :=
  (admissibleInputs_ofGates readers graphPath outputDir).and
    (admissibleInputs_admitted readers graphPath outputDir)

/-! ### What a fresh receipt says -/

/-- The recorded commit was compared with the HEAD of the root. -/
def CommitCompared (record : List (Probe × Reply)) (root : Str) (indexed : Option Str) : Prop :=
  ∃ sha head, indexed = some sha ∧ isHexSha sha = true ∧ HeadAnswered record root head ∧
    (sha = head ∨ ∃ reply, (.gitRevList root sha head, reply) ∈ record ∧
      (countsOf reply).isSome = true)

/-- What a run has verified of the two sidecar files, the indexed files and the paths it
stat'ed. -/
structure Verified (readers : Readers) (outputDir : Str) (record : List (Probe × Reply))
    («meta» : GraphMeta) (manifest : FileManifest) (root : Str) : Prop where
  admitted : Admitted readers outputDir record «meta» manifest root
  examined : manifest.files ≠ [] ∨ CommitCompared record root «meta».commitSha
  keys : ∀ entry ∈ manifest.files, entry.1 ≠ [] ∧
    ∃ names : List Str, pathComponents entry.1 = names.map Component.normal
  compared : ∀ entry ∈ manifest.files, Compared record root entry
  stats : ∀ e ∈ record, ∀ path, e.1 = .metadata path → LexicallyUnder root path

/-- Where the sidecar holds a valid sha and the root has a HEAD, they are the same
commit. -/
def HeadIsRecorded {κ : Type} (commitOf : Str → κ) (record : List (Probe × Reply))
    («meta» : GraphMeta) (root : Str) : Prop :=
  ∀ sha head, «meta».commitSha = some sha → isHexSha sha = true → HeadAnswered record root head →
    commitOf head = commitOf sha

/-- Git answered every range it was asked for with two counts. -/
def RangeAnswered (record : List (Probe × Reply)) : Prop :=
  ∀ root indexed head reply, (.gitRevList root indexed head, reply) ∈ record →
    (countsOf reply).isSome = true

/-- What git says of a range is right where it counts nothing: the commits are equal. -/
def RangeFaithful {κ : Type} (commitOf : Str → κ) (record : List (Probe × Reply)) : Prop :=
  ∀ root indexed head reply, (.gitRevList root indexed head, reply) ∈ record →
    countsOf reply = some (0, 0) → commitOf head = commitOf indexed

/-- A `fresh` verdict counts no dirty file and no commit between the two heads. -/
theorem clear_of_isFresh {dirty checked : Nat} {divergence : Option (Nat × Nat)}
    {behind ahead : Option Nat}
    (h : (Receipt.verdict (if dirty = 0 ∧
        ¬(divergence.any fun d => decide (0 < d.1) || decide (0 < d.2)) then .fresh else .stale)
      checked dirty behind ahead).isFresh = true) :
    dirty = 0 ∧ (divergence = none ∨ divergence = some (0, 0)) := by
  by_cases hclear : dirty = 0 ∧ ¬(divergence.any fun d => decide (0 < d.1) || decide (0 < d.2))
  · refine ⟨hclear.1, ?_⟩
    cases divergence with
    | none => exact .inl rfl
    | some d =>
        right
        have hzero := hclear.2
        simp only [Option.any_some, Bool.or_eq_true, decide_eq_true_eq, not_or] at hzero
        rw [Option.some.injEq, Prod.ext_iff]
        exact ⟨by omega, by omega⟩
  · rw [if_neg hclear] at h
    cases h

theorem verdict_spec {κ : Type} (commitOf : Str → κ) (inputs : CheckInputs) :
    (verdict inputs).Always fun receipt record => receipt.isFresh = true →
      (∀ e ∈ record, ∀ path, e.1 = .metadata path → LexicallyUnder inputs.root path) ∧
      (∀ entry ∈ inputs.files, isContainedKey entry.1 = true ∧ Compared record inputs.root entry) ∧
      (inputs.files ≠ [] ∨ CommitCompared record inputs.root inputs.commitSha) ∧
      (RangeFaithful commitOf record → RangeAnswered record → ∀ sha head,
        inputs.commitSha = some sha → isHexSha sha = true → HeadAnswered record inputs.root head →
        commitOf head = commitOf sha) := by
  rw [verdict, Asks.always_bind]
  refine (countDirty_spec inputs.root inputs.files).mono fun dirty record₁ ⟨hstats, hclean⟩ => ?_
  rw [Asks.always_bind]
  refine (commitDivergence_spec inputs.root inputs.commitSha).mono
    fun divergence record₂ ⟨hgit, hsome, hanswer⟩ => ?_
  dsimp only
  split
  · intro hfresh
    cases hfresh
  · rename_i hexamined
    intro hfresh
    obtain ⟨hdirty, hdivergence⟩ := clear_of_isFresh hfresh
    have hhead : ∀ head, HeadAnswered (record₁ ++ (record₂ ++ [])) inputs.root head →
        HeadAnswered record₂ inputs.root head := by
      rintro head ⟨reply, hmem, hhead⟩
      simp only [List.append_nil, List.mem_append] at hmem
      rcases hmem with h | h
      · obtain ⟨rel, -, hprobe⟩ := hstats _ h
        cases hprobe
      · exact ⟨reply, h, hhead⟩
    refine ⟨?_, ?_, ?_, ?_⟩
    · rintro e he path hpath
      simp only [List.append_nil, List.mem_append] at he
      rcases he with h | h
      · obtain ⟨rel, hcontained, hprobe⟩ := hstats e h
        rw [hprobe] at hpath
        cases hpath
        exact lexicallyUnder_join hcontained _
      · exact absurd hpath (hgit e h path)
    · intro entry hentry
      obtain ⟨hcontained, hcompared⟩ := hclean hdirty entry hentry
      exact ⟨hcontained, hcompared.mono (List.subset_append_left _ _)⟩
    · by_cases hfiles : inputs.files = []
      · right
        have hanswered : divergence.isSome = true := by
          rw [List.isEmpty_iff, Option.isNone_iff_eq_none] at hexamined
          rw [Option.isSome_iff_ne_none]
          exact fun h => hexamined ⟨hfiles, h⟩
        obtain ⟨sha, head, hindexed, hhex, hhead⟩ := hsome hanswered
        have hsub : record₂ ⊆ record₁ ++ (record₂ ++ []) := by simp
        refine ⟨sha, head, hindexed, hhex, ?_, ?_⟩
        · obtain ⟨reply, hmem, heq⟩ := hhead
          exact ⟨reply, hsub hmem, heq⟩
        · rcases hanswer sha head hindexed hhex hhead with ⟨hsame, -⟩ | ⟨reply, hmem, heq⟩
          · exact .inl hsame
          · exact .inr ⟨reply, hsub hmem, heq ▸ hanswered⟩
      · exact .inl hfiles
    · intro hfaithful hall sha head hindexed hhex hans
      rcases hanswer sha head hindexed hhex (hhead head hans) with ⟨hsame, -⟩ | ⟨reply, hmem, heq⟩
      · rw [hsame]
      · have hmem' : (Probe.gitRevList inputs.root sha head, reply) ∈ record₁ ++ (record₂ ++ []) := by
          simp [hmem]
        have hcounts := hall _ _ _ _ hmem'
        rw [← heq] at hcounts
        rcases hdivergence with hnone | hzero
        · rw [hnone] at hcounts
          cases hcounts
        · exact hfaithful _ _ _ _ hmem' (heq ▸ hzero)

theorem check_spec {κ : Type} (commitOf : Str → κ) (readers : Readers) (graphPath : Str)
    (outputDir : Option Str) :
    (check readers graphPath outputDir).Always fun receipt record => receipt.isFresh = true →
      ∃ dir «meta» manifest root, outputDir = some dir ∧
        Verified readers dir record «meta» manifest root ∧
        (RangeFaithful commitOf record → RangeAnswered record →
          HeadIsRecorded commitOf record «meta» root) := by
  rw [check, Asks.always_bind]
  refine (admissibleInputs_spec readers graphPath outputDir).mono
    fun inputs record₁ ⟨hgates, hadmitted⟩ => ?_
  cases inputs with
  | none =>
      intro hfresh
      cases hfresh
  | some inputs =>
      refine (verdict_spec commitOf inputs).mono fun receipt record₂ h hfresh => ?_
      obtain ⟨hstats, hfiles, hexamined, hcommit⟩ := h hfresh
      obtain ⟨dir, «meta», manifest, hdir, hadmitted, hsame, hsha⟩ := hadmitted inputs rfl
      rw [hsame, hsha] at hexamined
      rw [hsame] at hfiles
      have hsub : record₂ ⊆ record₁ ++ record₂ := List.subset_append_right _ _
      have hhead : ∀ head, HeadAnswered (record₁ ++ record₂) inputs.root head →
          HeadAnswered record₂ inputs.root head := by
        rintro head ⟨reply, hmem, heq⟩
        rcases List.mem_append.mp hmem with h | h
        · exact absurd rfl ((hgates _ h).2 inputs.root)
        · exact ⟨reply, h, heq⟩
      refine ⟨dir, «meta», manifest, inputs.root, hdir, ⟨?_, ?_, ?_, ?_, ?_⟩, ?_⟩
      · exact hadmitted.mono (List.subset_append_left _ _)
      · rcases hexamined with h | ⟨sha, head, hindexed, hhex, ⟨reply, hmem, heq⟩, hrange⟩
        · exact .inl h
        · refine .inr ⟨sha, head, hindexed, hhex, ⟨reply, hsub hmem, heq⟩, ?_⟩
          rcases hrange with h | ⟨counts, hmem, hsome⟩
          · exact .inl h
          · exact .inr ⟨counts, hsub hmem, hsome⟩
      · exact fun entry hentry => isContainedKey_iff.mp (hfiles entry hentry).1
      · exact fun entry hentry => (hfiles entry hentry).2.mono hsub
      · intro e he path hpath
        rcases List.mem_append.mp he with h | h
        · exact absurd hpath ((hgates e h).1 path)
        · exact hstats e h path hpath
      · intro hfaithful hall sha head hindexed hhex hans
        exact hcommit (fun root a b reply hmem => hfaithful root a b reply (hsub hmem))
          (fun root a b reply hmem => hall root a b reply (hsub hmem)) sha head
          (hsha.trans hindexed) hhex (hhead head hans)

/-- Fresh is never said of a moved tree that was compared. Against every host, whatever it
holds and whichever probes fail, where git counts nothing only between equal commits: a
run that answers `fresh` has read a matching pair of sidecar files, has examined at least
one file or the commit, has compared every indexed file with its recorded time and size
under a relative key of ordinary components, and has stat'ed no path outside the root;
and if git answered the range it was asked for, then a valid recorded sha and the HEAD of
the root are the same commit. -/
theorem fresh_tree_has_not_moved {κ : Type} (commitOf : Str → κ) (host : Nat → Probe → Reply)
    (readers : Readers) (graphPath : Str) (outputDir : Option Str)
    (hgit : ∀ n root indexed head,
      countsOf (host n (.gitRevList root indexed head)) = some (0, 0) →
        commitOf head = commitOf indexed)
    (hfresh : ((check readers graphPath outputDir).exec host 0).1.isFresh = true) :
    ∃ dir «meta» manifest root, outputDir = some dir ∧
      Verified readers dir ((check readers graphPath outputDir).exec host 0).2 «meta» manifest root ∧
      (RangeAnswered ((check readers graphPath outputDir).exec host 0).2 →
        HeadIsRecorded commitOf ((check readers graphPath outputDir).exec host 0).2 «meta» root) := by
  obtain ⟨dir, «meta», manifest, root, hdir, hverified, hhead⟩ :=
    (check_spec commitOf readers graphPath outputDir).exec host 0 hfresh
  refine ⟨dir, «meta», manifest, root, hdir, hverified, hhead ?_⟩
  intro root indexed head reply hmem hcounts
  obtain ⟨n, hreply⟩ := Asks.answer_of_mem_exec hmem
  dsimp only at hreply
  exact hgit n root indexed head (hreply ▸ hcounts)

/-- A host with one indexed file, unchanged, whose root is at the commit `head`. -/
def hostAt (head : String) (range : Reply) (_ : Nat) : Probe → Reply
  | .pathExists _ => .yes
  | .readFile _ => .bytes []
  | .canonicalize path => .path path
  | .isDir _ => .yes
  | .openFile _ => .opened [] { size := 10, modified := some 5 }
  | .metadata _ => .attr { size := 3, modified := some 7 }
  | .gitRevParseHead _ => .output true (head.toList ++ ['\n'])
  | .gitRevList _ _ _ => range

/-- Sidecar files that record the file `a.rs` and the commit `sha`. -/
def readersOf (sha : String) : Readers where
  graphMeta _ := some
    { root := "/srv/repo".toList
      commitSha := some sha.toList
      manifestSize := some 10
      manifestMtimeNs := some 5 }
  manifest _ := some
    { schemaVersion := 1, files := [("a.rs".toList, { mtimeNs := 7, size := 3 })] }
  forbiddenRoots := ["/".toList]

theorem fresh_tree_has_not_moved_at_head :
    ∃ dir «meta» manifest root, some "/srv/out".toList = some dir ∧
      Verified (readersOf "b1") dir ((check (readersOf "b1") "/srv/out/graph".toList
        (some "/srv/out".toList)).exec (hostAt "b1" .failed) 0).2 «meta» manifest root ∧
      (RangeAnswered ((check (readersOf "b1") "/srv/out/graph".toList
          (some "/srv/out".toList)).exec (hostAt "b1" .failed) 0).2 →
        HeadIsRecorded id ((check (readersOf "b1") "/srv/out/graph".toList
          (some "/srv/out".toList)).exec (hostAt "b1" .failed) 0).2 «meta» root) :=
  fresh_tree_has_not_moved id (hostAt "b1" .failed) (readersOf "b1") "/srv/out/graph".toList
    (some "/srv/out".toList) (fun _ _ _ _ h => by cases h) (by decide +kernel)

/-- A recorded commit that git cannot relate to the HEAD is not compared with it. -/
theorem unrelated_head_is_fresh :
    ¬∀ (commitOf : Str → Str) (host : Nat → Probe → Reply) (readers : Readers) (graphPath : Str)
      (outputDir : Option Str),
      (∀ n root indexed head, countsOf (host n (.gitRevList root indexed head)) = some (0, 0) →
        commitOf head = commitOf indexed) →
      ((check readers graphPath outputDir).exec host 0).1.isFresh = true →
      ∃ dir «meta» manifest root, outputDir = some dir ∧
        Verified readers dir ((check readers graphPath outputDir).exec host 0).2 «meta» manifest
          root ∧
        HeadIsRecorded commitOf ((check readers graphPath outputDir).exec host 0).2 «meta» root := by
  intro h
  obtain ⟨dir, «meta», manifest, root, -, hverified, hhead⟩ := h id (hostAt "b1" .failed)
    (readersOf "a0") "/srv/out/graph".toList (some "/srv/out".toList) (fun _ _ _ _ h => by cases h)
    (by decide +kernel)
  obtain ⟨bytes, -, hmeta⟩ := hverified.admitted.metaRead
  have hroot : (Probe.gitRevParseHead "/srv/repo".toList, Reply.output true "b1\n".toList) ∈
      ((check (readersOf "a0") "/srv/out/graph".toList (some "/srv/out".toList)).exec
        (hostAt "b1" .failed) 0).2 := by
    decide +kernel
  obtain ⟨n, hresolved⟩ := Asks.answer_of_mem_exec hverified.admitted.rootResolved
  cases Option.some.inj hmeta
  cases hresolved
  have hsame := hhead "a0".toList "b1".toList rfl (by decide) ⟨_, hroot, by decide +kernel⟩
  exact absurd hsame (by decide)

end AutomatisedPipeline.Freshness
