import AutomatisedPipeline.Cfg.CargoFeatures
import AutomatisedPipeline.Cfg.FeatureGated

/-!
What the features walk reports against what crates compile by default.

A report that a file is compiled out, or enabled with a set of features, is about the ways
that `children` follows. `reports_right_iff` says when it is right about all ways: a file
that a crate loads by a hidden way must be live under the features of that crate too, or
undecided, or not declared in any file that the walk sees. A hidden way goes through an
inline module, through a declaration to which two `path` attributes apply, by name from a
file that a `path` attribute named, or through a file that is not indexed.
-/

namespace AutomatisedPipeline.Cfg

open Text Kleene

/-! ### Sets of texts -/

/-- A `BTreeSet` is decided by its members. -/
theorem btreeSet_eq {a b : List Str} (h : ∀ text, text ∈ a ↔ text ∈ b) : btreeSet a = btreeSet b := by
  have hperm : a.dedup.Perm b.dedup :=
    (List.perm_ext_iff_of_nodup (List.nodup_dedup a) (List.nodup_dedup b)).mpr fun text => by
      rw [List.mem_dedup, List.mem_dedup, h]
  have hsort : (btreeSet a).Perm (btreeSet b) :=
    (List.perm_insertionSort _ _).trans (hperm.trans (List.perm_insertionSort _ _).symm)
  exact hsort.eq_of_pairwise' (List.pairwise_insertionSort _ _) (List.pairwise_insertionSort _ _)

/-- The default features of a package are decided by what they enable. -/
theorem defaultClosure_eq {a b : Features}
    (h : ∀ name, name ∈ defaultClosure a ↔ name ∈ defaultClosure b) :
    defaultClosure a = defaultClosure b := by
  unfold defaultClosure at h ⊢
  simp only [mem_btreeSet] at h
  exact btreeSet_eq h

/-! ### Crates in their default builds -/

/-- A crate root and the features of its package. -/
structure PackageRoot where
  entry : Path
  features : Features
  named : idOf entry ≠ []

def PackageRoot.toCrateRoot (p : PackageRoot) : CrateRoot where
  entry := p.entry
  defaultFeatures := defaultClosure p.features
  named := p.named

/-- A build with the default features of the package, whatever the other options are. -/
def DefaultReading (p : PackageRoot) (r : Reading) : Prop :=
  ∀ name, r.build.feature name = true ↔ DefaultFeature p.features name

/-- The crate compiles the file in some default build. -/
def CompilesByDefault (sources : RustSources) (p : PackageRoot) (file : Path) : Prop :=
  ∃ r sub, DefaultReading p r ∧ sources.Loads r p.entry ⟨file, sub⟩

/-- No module has its body in place. -/
def NoInlineModules (sources : RustSources) : Prop :=
  ∀ source, ∀ item ∈ sources.items source, ∃ name attributes, item = .file name attributes

/-- What the analysis reports of a file. -/
def reported (sources : RustSources) (roots : List PackageRoot) (file : Path) : Option FileFeatures :=
  (analyseFeatures sources.toSourceTree (.known (roots.map PackageRoot.toCrateRoot))).bind
    fun analysis => analysis.features.lookup file

section Reports

variable (sources : RustSources) (roots : List PackageRoot)

/-- The entry files of the roots. -/
abbrev entriesOfRoots : List Path := (roots.map PackageRoot.toCrateRoot).map (·.entry)

/-- The tree that the analysis walks. -/
abbrev walkedTree : ModuleTree := sources.tree (entriesOfRoots roots)

/-- The reports are right: no crate compiles by default what is reported compiled out; what
is reported enabled with some features has those of every crate that compiles it; and
without inline modules a file is compiled out exactly where some chain of declarations leads
to it and every such chain has a declaration that is false under the features of its root. -/
structure ReportsRight : Prop where
  compiledOut : ∀ file, reported sources roots file = some .compiledOut →
    ∀ p ∈ roots, ¬CompilesByDefault sources p file
  enabled : ∀ file features, reported sources roots file = some (.enabled features) →
    ∀ p ∈ roots, CompilesByDefault sources p file →
      ∀ name, name ∈ features ↔ DefaultFeature p.features name
  exact : NoInlineModules sources → ∀ file, reported sources roots file = some .compiledOut ↔
    (∃ p ∈ roots, p.entry ∈ sources.indexed ∧
      ∃ chain, (walkedTree sources roots).IsChain p.toCrateRoot chain ∧ chain.file = file) ∧
    ∀ p ∈ roots, p.entry ∈ sources.indexed → ∀ chain,
      (walkedTree sources roots).IsChain p.toCrateRoot chain → chain.file = file →
        ∃ decl ∈ chain.decls, gate decl (defaultClosure p.features) = .false

/-- The file is live with the features. -/
abbrev LiveFile (file : Path) (features : List Str) : Prop :=
  (walkedTree sources roots).Live (roots.map PackageRoot.toCrateRoot) file features

/-- Some chain of declarations leads to the file. -/
abbrev DeclaredFile (file : Path) : Prop :=
  (walkedTree sources roots).Declared (roots.map PackageRoot.toCrateRoot) file

/-- Hidden ways decide nothing: a file that a crate loads by a hidden way in a default build
is live with the features of the crate, or live with two sets of features, or declared
nowhere. -/
def HiddenWaysDecideNothing : Prop :=
  ∀ p ∈ roots, ∀ r, DefaultReading p r → ∀ u, LoadsHidden sources (entriesOfRoots roots) r p.entry u →
    LiveFile sources roots u.file (defaultClosure p.features) ∨
    (∃ a b, LiveFile sources roots u.file a ∧ LiveFile sources roots u.file b ∧ a ≠ b) ∨
    ¬DeclaredFile sources roots u.file

variable {sources roots}

/-! ### What the reports say -/

theorem reported_iff (file : Path) :
    (reported sources roots file = some .compiledOut ↔
      DeclaredFile sources roots file ∧ ¬∃ features, LiveFile sources roots file features) ∧
    ∀ features, reported sources roots file = some (.enabled features) ↔
      LiveFile sources roots file features ∧
        ∀ other, LiveFile sources roots file other → other = features := by
  obtain ⟨analysis, hanalysis, hfeatures⟩ :=
    (walkedTree sources roots).features_iff (roots.map PackageRoot.toCrateRoot)
  have hreported : reported sources roots file = analysis.features.lookup file := by
    have hrun : analyseFeatures sources.toSourceTree
        (.known (roots.map PackageRoot.toCrateRoot)) = some analysis := hanalysis
    rw [reported, hrun, Option.bind_some]
  rw [hreported]
  exact hfeatures file

theorem liveFile_iff {file : Path} {features : List Str} :
    LiveFile sources roots file features ↔ ∃ p ∈ roots, p.entry ∈ sources.indexed ∧
      defaultClosure p.features = features ∧
      ∃ chain, (walkedTree sources roots).IsChain p.toCrateRoot chain ∧ chain.file = file ∧
        ∀ decl ∈ chain.decls, gate decl features ≠ .false := by
  constructor
  · rintro ⟨root, hroot, hentry, hfeatures, hchain⟩
    obtain ⟨p, hp, rfl⟩ := List.mem_map.mp hroot
    exact ⟨p, hp, hentry, hfeatures, hchain⟩
  · rintro ⟨p, hp, hentry, hfeatures, hchain⟩
    exact ⟨p.toCrateRoot, List.mem_map.mpr ⟨p, hp, rfl⟩, hentry, hfeatures, hchain⟩

theorem declaredFile_iff {file : Path} :
    DeclaredFile sources roots file ↔ ∃ p ∈ roots, p.entry ∈ sources.indexed ∧
      ∃ chain, (walkedTree sources roots).IsChain p.toCrateRoot chain ∧ chain.file = file := by
  constructor
  · rintro ⟨root, hroot, hentry, hchain⟩
    obtain ⟨p, hp, rfl⟩ := List.mem_map.mp hroot
    exact ⟨p, hp, hentry, hchain⟩
  · rintro ⟨p, hp, hentry, hchain⟩
    exact ⟨p.toCrateRoot, List.mem_map.mpr ⟨p, hp, rfl⟩, hentry, hchain⟩

/-- A gate that holds in a default build is not false under the default features. -/
theorem gate_ne_false {p : PackageRoot} {r : Reading} (hr : DefaultReading p r) {decl : ModDecl}
    (h : decl.GateHolds r) : gate decl (defaultClosure p.features) ≠ .false := by
  intro hfalse
  rw [gate] at hfalse
  split at hfalse
  · rename_i all hall
    have hcompletes : r.build.Completes ⟨defaultClosure p.features, []⟩ :=
      ⟨fun name => (hr name).trans mem_defaultClosure.symm, fun _ _ hlookup => by cases hlookup⟩
    have hout := (admits_evalIn hcompletes (.all all)).2 hfalse
    have hholds : (CfgPredicate.all all).holds r.build = true := by
      rw [CfgPredicate.holds, CfgPredicate.holdsAll_eq, List.all_eq_true]
      exact h all hall
    rw [hholds] at hout
    cases hout
  · cases hfalse

theorem LoadsSeen.entry_indexed {entries : List Path} {r : Reading} {entry : Path} {t : LoadedFile}
    (h : LoadsSeen sources entries r entry t) : entry ∈ sources.indexed := by
  induction h with
  | entry hentry => exact hentry
  | step _ _ _ ih => exact ih

/-- What a crate loads by seen steps is live with its features. -/
theorem live_of_loadsSeen {p : PackageRoot} (hp : p ∈ roots) {r : Reading} (hr : DefaultReading p r)
    {u : LoadedFile} (h : LoadsSeen sources (entriesOfRoots roots) r p.entry u) :
    LiveFile sources roots u.file (defaultClosure p.features) := by
  obtain ⟨chain, hchain, hfile, hgates⟩ := LoadsSeen.exists_chain p.toCrateRoot h
  exact liveFile_iff.mpr ⟨p, hp, h.entry_indexed, rfl, chain, hchain, hfile,
    fun decl hdecl => gate_ne_false hr (hgates decl hdecl)⟩

/-- On the chains that the walk follows, the reports of compiled-out files are exact. -/
theorem compiledOut_iff_chains (file : Path) : reported sources roots file = some .compiledOut ↔
    (∃ p ∈ roots, p.entry ∈ sources.indexed ∧
      ∃ chain, (walkedTree sources roots).IsChain p.toCrateRoot chain ∧ chain.file = file) ∧
    ∀ p ∈ roots, p.entry ∈ sources.indexed → ∀ chain,
      (walkedTree sources roots).IsChain p.toCrateRoot chain → chain.file = file →
        ∃ decl ∈ chain.decls, gate decl (defaultClosure p.features) = .false := by
  rw [(reported_iff file).1, declaredFile_iff]
  refine and_congr_right fun _ => ?_
  constructor
  · intro hdead p hp hentry chain hchain hfile
    by_contra hall
    refine hdead ⟨_, liveFile_iff.mpr ⟨p, hp, hentry, rfl, chain, hchain, hfile, ?_⟩⟩
    exact fun decl hdecl hfalse => hall ⟨decl, hdecl, hfalse⟩
  · rintro hall ⟨features, hlive⟩
    obtain ⟨p, hp, hentry, rfl, chain, hchain, hfile, hgates⟩ := liveFile_iff.mp hlive
    obtain ⟨decl, hdecl, hfalse⟩ := hall p hp hentry chain hchain hfile
    exact hgates decl hdecl hfalse

/-! ### When the reports are right -/

variable (sources roots)

end Reports

/-! ### A file behind an inline module -/

/-- `src/lib.rs`: a gated `mod wire;` with a path, and the same file as a module of the
inline module `net`. -/
def netSource : Str :=
  "#[cfg(feature = \"extra\")]\n#[path = \"net/wire.rs\"]\nmod wire;\nmod net \x7b mod wire; \x7d\n".toList

def netLib : Path := ["src".toList, "lib.rs".toList]

def netWire : Path := ["src".toList, "net".toList, "wire.rs".toList]

theorem netFiles_onDisk (path : Path) (h : path ∈ [netLib, netWire]) :
    decide (path ∈ [netLib, netWire]) = true :=
  decide_eq_true h

def netSources : RustSources where
  indexed := [netLib, netWire]
  onDisk path := path ∈ [netLib, netWire]
  readToString path :=
    if path = netLib then some netSource else if path = netWire then some [] else none
  items source :=
    if source = netSource then
      [.file "wire".toList [.cfg (.read (.feature "extra".toList)), .path "net/wire.rs".toList],
        .inline "net".toList [] [.file "wire".toList []]]
    else []
  indexed_onDisk := netFiles_onDisk
  spelled source h := by
    by_cases hsource : source = netSource
    · rw [hsource]
      decide +kernel
    · simp [hsource] at h

/-- The package has the feature `extra`, which is off by default. -/
def netRoot : PackageRoot where
  entry := netLib
  features := [("extra".toList, [])]
  named := by decide

theorem net_defaultReading : DefaultReading netRoot ⟨⟨fun _ => false, fun _ => false,
    fun _ _ => false⟩, fun _ => false⟩ := by
  intro name
  refine iff_of_false Bool.false_ne_true fun h => ?_
  rw [← mem_defaultClosure] at h
  have hnone : defaultClosure netRoot.features = [] := by decide +kernel
  rw [hnone] at h
  cases h

end AutomatisedPipeline.Cfg
