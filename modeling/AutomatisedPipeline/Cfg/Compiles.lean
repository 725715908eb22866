import AutomatisedPipeline.Cfg.Crate
import AutomatisedPipeline.Cfg.FileScope

/-!
The files that a crate compiles.

From the entry file the compiler follows the active module items of a file and of its inline
modules. `children` follows the items that stand in the file: a step that it follows too is
`SeenStep`, and gives a declaration whose gate holds (`exists_child`). So a file is loaded
along a chain of declarations whose gates hold, or by a way on which some step is hidden
(`Loads.seen_or_hidden`).
-/

namespace AutomatisedPipeline.Cfg

open Text

/-! ### Where declarations are looked for -/

/-- A file that the compiler has loaded, and the directory beside it for what it declares by
name: none for an entry file, a `mod.rs` and a file that a `path` attribute names. -/
structure LoadedFile where
  file : Path
  sub : Path
deriving DecidableEq

/-- Where items stand: the directory of a `path` attribute, unless it lies outside the root,
and the directory below it for names. -/
structure Place where
  dir : Option Path
  sub : Path

def LoadedFile.place (u : LoadedFile) : Place where
  dir := some u.file.dropLast
  sub := u.sub

/-- The place of the items of an inline module. -/
def Place.enter (r : Reading) (place : Place) (name : Str) (attributes : List Attribute) : Place :=
  match (pathsOf r attributes).head? with
  | some path =>
      { dir :=
          if path.head? = some '/' then none
          else place.dir.bind fun dir => lexical [] (dir ++ components path)
        sub := [] }
  | none => { dir := place.dir.map (· ++ place.sub ++ components name), sub := [] }

/-- The file of a declaration. -/
def Place.find (onDisk : Path → Bool) (place : Place) (name : Str) (path : Option Str) :
    Option LoadedFile :=
  match place.dir, path with
  | none, _ => none
  | some dir, some path =>
      if path.head? = some '/' then none
      else ((lexical [] (dir ++ components path)).filter onDisk).map fun file => ⟨file, []⟩
  | some dir, none =>
      [(⟨dir ++ place.sub ++ components (name ++ ".rs".toList), components name⟩ : LoadedFile),
        ⟨dir ++ place.sub ++ components name ++ ["mod.rs".toList], []⟩].find? fun u => onDisk u.file

mutual
/-- The files that an active item loads. -/
def ModItem.finds (r : Reading) (onDisk : Path → Bool) (place : Place) : ModItem → List LoadedFile
  | .file name attributes =>
      if activeAll r attributes then (place.find onDisk name (pathsOf r attributes).head?).toList
      else []
  | .inline name attributes items =>
      if activeAll r attributes then findsAll r onDisk (place.enter r name attributes) items else []

def findsAll (r : Reading) (onDisk : Path → Bool) (place : Place) : List ModItem → List LoadedFile
  | [] => []
  | item :: items => item.finds r onDisk place ++ findsAll r onDisk place items
end

/-! ### Sources -/

/-- The Rust files of a codebase: those that are indexed and those on disk, what
`read_to_string` returns of a file, and the module items of a source. -/
structure RustSources where
  indexed : List Path
  onDisk : Path → Bool
  readToString : Path → Option Str
  items : Str → List ModItem
  indexed_onDisk : ∀ path ∈ indexed, onDisk path = true
  spelled : ∀ source, items source ≠ [] → "mod".toList <:+: source

namespace RustSources

variable (sources : RustSources)

/-- What the walks over the module tree read. -/
def toSourceTree : SourceTree where
  indexed := sources.indexed
  readToString := sources.readToString
  modDecls := fun source => modDecls (sources.items source)

def itemsIn (file : Path) : List ModItem :=
  match sources.readToString file with
  | none => []
  | some source => sources.items source

/-- The files that a loaded file loads. -/
def step (r : Reading) (u : LoadedFile) : List LoadedFile :=
  findsAll r sources.onDisk u.place (sources.itemsIn u.file)

/-- A crate with the entry file loads a file. -/
inductive Loads (r : Reading) (entry : Path) : LoadedFile → Prop
  | entry : Loads r entry ⟨entry, []⟩
  | step {u t : LoadedFile} : Loads r entry u → t ∈ sources.step r u → Loads r entry t

end RustSources

/-! ### The steps that `children` follows -/

/-- The directory beside a file in which `children` looks for what it declares by name. -/
def ModuleTree.subOf (tree : ModuleTree) (file : Path) : Option Path :=
  if file ∈ tree.crateEntries ∨ file.getLast? = some "mod.rs".toList then some []
  else file.getLast?.map fun name => components (fileStem name)

section Steps

variable (sources : RustSources) (entries : List Path)

/-- The module tree that the analyses walk. -/
def RustSources.tree : ModuleTree where
  toSourceTree := sources.toSourceTree
  crateEntries := entries

/-- A step of the compiler that the walks follow too: the item stands in the file and not in
an inline module, at most one `path` attribute applies, names are looked for in one place,
and the file is indexed. -/
structure SeenStep (r : Reading) (u t : LoadedFile) : Prop where
  item : ∃ name attributes, .file name attributes ∈ sources.itemsIn u.file ∧
    activeAll r attributes = true ∧ (pathsOf r attributes).length ≤ 1 ∧
    u.place.find sources.onDisk name (pathsOf r attributes).head? = some t
  sub : (sources.tree entries).subOf u.file = some u.sub
  indexed : t.file ∈ sources.indexed

variable {sources entries}

theorem has_tree {file : Path} :
    (sources.tree entries).has file = true ↔ file ∈ sources.indexed :=
  decide_eq_true_iff

/-- The code finds the file of a seen step. -/
theorem moduleFile_of_find {u t : LoadedFile} {alternative : ModDecl} {name : Str}
    (hname : alternative.name = name)
    (hfind : u.place.find sources.onDisk name alternative.pathAttr = some t)
    (hsub : (sources.tree entries).subOf u.file = some u.sub) (hindexed : t.file ∈ sources.indexed) :
    (sources.tree entries).moduleFile u.file
      (decide (u.file ∈ (sources.tree entries).crateEntries) ||
        u.file.getLast? == some "mod.rs".toList) alternative = some t.file := by
  have hhas : (sources.tree entries).has t.file = true := has_tree.mpr hindexed
  have hdisk {file : Path} (hnot : sources.onDisk file ≠ true) :
      ¬ (sources.tree entries).has file = true :=
    fun h => hnot (sources.indexed_onDisk file (has_tree.mp h))
  cases hpath : alternative.pathAttr with
  | some path =>
      rw [hpath] at hfind
      simp only [Place.find, LoadedFile.place] at hfind
      split at hfind
      · cases hfind
      · rename_i hrelative
        obtain ⟨file, hfile, rfl⟩ := Option.map_eq_some_iff.mp hfind
        obtain ⟨hlexical, -⟩ := Option.filter_eq_some_iff.mp hfile
        rw [ModuleTree.moduleFile, hpath]
        simp only [if_neg hrelative, hlexical]
        exact Option.filter_eq_some_iff.mpr ⟨rfl, hhas⟩
  | none =>
      rw [hpath] at hfind
      have hcandidates : (ModuleTree.moduleFile.candidates (u.file.dropLast ++ u.sub) name).find?
          (sources.tree entries).has = some t.file := by
        simp only [Place.find, LoadedFile.place, List.find?_cons, List.find?_nil] at hfind
        split at hfind
        · obtain rfl := Option.some.inj hfind
          simp only [ModuleTree.moduleFile.candidates, List.find?_cons, hhas]
        · rename_i hfirst
          split at hfind
          · obtain rfl := Option.some.inj hfind
            have hskip := hdisk (Bool.eq_false_iff.mp hfirst)
            simp only [ModuleTree.moduleFile.candidates, List.find?_cons,
              Bool.eq_false_iff.mpr hskip, hhas]
          · cases hfind
      rw [ModuleTree.moduleFile, hpath, hname]
      rw [ModuleTree.subOf] at hsub
      split at hsub
      · rename_i howns
        obtain hnil := Option.some.inj hsub
        rw [← hnil, List.append_nil] at hcandidates
        have hboth : (decide (u.file ∈ (sources.tree entries).crateEntries) ||
            u.file.getLast? == some "mod.rs".toList) = true := by
          simpa using howns
        simp only [hboth, if_true]
        cases u.file.getLast? <;> exact hcandidates
      · rename_i howns
        obtain ⟨last, hlast, hstem⟩ := Option.map_eq_some_iff.mp hsub
        have hboth : (decide (u.file ∈ (sources.tree entries).crateEntries) ||
            u.file.getLast? == some "mod.rs".toList) = false := by
          rw [← Bool.not_eq_true]
          simpa using howns
        rw [← hstem] at hcandidates
        simp only [hlast] at hboth ⊢
        rw [hboth]
        exact hcandidates

/-- A seen step is a step to a child whose gate holds. -/
theorem exists_child {r : Reading} {u t : LoadedFile} (h : SeenStep sources entries r u t) :
    ∃ child ∈ (sources.tree entries).children u.file, child.2 = t.file ∧ child.1.GateHolds r := by
  obtain ⟨name, attributes, hitem, hactive, hone, hfind⟩ := h.item
  obtain ⟨alternative, halternative, hname, hpath, hgate⟩ := exists_alternative hactive hone name
  rw [← hpath] at hfind
  have hfile := moduleFile_of_find hname hfind h.sub h.indexed
  refine ⟨(alternative, t.file), ?_, rfl, hgate⟩
  rw [RustSources.itemsIn] at hitem
  cases hread : sources.readToString u.file with
  | none =>
      rw [hread] at hitem
      cases hitem
  | some source =>
      rw [hread] at hitem
      have hmod : ("mod".toList <:+: source) := sources.spelled source (List.ne_nil_of_mem hitem)
      have hfound : (find "mod".toList source).isNone = false := by
        rw [Option.isNone_eq_false_iff, Option.isSome_iff_ne_none, ne_eq, find_eq_none_iff, not_not]
        exact hmod
      have hdecl : modDecl name attributes ∈ modDecls (sources.items source) :=
        List.mem_filterMap.mpr ⟨_, hitem, rfl⟩
      have hreads : (sources.tree entries).readToString u.file = some source := hread
      simp only [ModuleTree.children, ModuleTree.declaredChildren, hreads, hfound,
        Bool.false_eq_true, if_false]
      refine List.mem_flatMap.mpr ⟨modDecl name attributes, hdecl, ?_⟩
      exact List.mem_filterMap.mpr ⟨alternative, halternative, by rw [hfile]; rfl⟩

end Steps

/-! ### Ways in -/

/-- A chain of declarations from the entry file of a root, over file-level items. -/
def ModuleTree.IsChain (tree : ModuleTree) (root : CrateRoot) (chain : Chain) : Prop :=
  Relation.ReflTransGen (fun a b => b ∈ Chain.below tree a) (.start root) chain

section Ways

variable (sources : RustSources) (entries : List Path) (r : Reading) (entry : Path)

/-- A file is loaded by seen steps from an indexed entry file. -/
inductive LoadsSeen : LoadedFile → Prop
  | entry : entry ∈ sources.indexed → LoadsSeen ⟨entry, []⟩
  | step {u t : LoadedFile} : LoadsSeen u → t ∈ sources.step r u →
      SeenStep sources entries r u t → LoadsSeen t

/-- A file is loaded by a way on which some step is hidden from the walks. -/
inductive LoadsHidden : LoadedFile → Prop
  | entry : entry ∉ sources.indexed → LoadsHidden ⟨entry, []⟩
  | hidden {u t : LoadedFile} : LoadsSeen sources entries r entry u → t ∈ sources.step r u →
      ¬SeenStep sources entries r u t → LoadsHidden t
  | step {u t : LoadedFile} : LoadsHidden u → t ∈ sources.step r u → LoadsHidden t

variable {sources entries r entry}

theorem LoadsSeen.loads {t : LoadedFile} (h : LoadsSeen sources entries r entry t) :
    sources.Loads r entry t := by
  induction h with
  | entry _ => exact .entry
  | step _ hstep _ ih => exact .step ih hstep

theorem LoadsHidden.loads {t : LoadedFile} (h : LoadsHidden sources entries r entry t) :
    sources.Loads r entry t := by
  induction h with
  | entry _ => exact .entry
  | hidden hseen hstep _ => exact .step hseen.loads hstep
  | step _ hstep ih => exact .step ih hstep

theorem RustSources.Loads.seen_or_hidden {t : LoadedFile} (h : sources.Loads r entry t)
    (entries : List Path) :
    LoadsSeen sources entries r entry t ∨ LoadsHidden sources entries r entry t := by
  induction h with
  | entry =>
      by_cases hentry : entry ∈ sources.indexed
      · exact .inl (.entry hentry)
      · exact .inr (.entry hentry)
  | @step u t _ hstep ih =>
      rcases ih with hseen | hhidden
      · by_cases hstep' : SeenStep sources entries r u t
        · exact .inl (.step hseen hstep hstep')
        · exact .inr (.hidden hseen hstep hstep')
      · exact .inr (.step hhidden hstep)

/-- Seen steps make a chain of declarations whose gates hold. -/
theorem LoadsSeen.exists_chain (root : CrateRoot) {t : LoadedFile}
    (h : LoadsSeen sources entries r root.entry t) :
    ∃ chain, (sources.tree entries).IsChain root chain ∧ chain.file = t.file ∧
      ∀ decl ∈ chain.decls, decl.GateHolds r := by
  induction h with
  | entry _ => exact ⟨.start root, .refl, rfl, fun decl hdecl => by cases hdecl⟩
  | step _ _ hstep ih =>
      obtain ⟨chain, hchain, hfile, hgates⟩ := ih
      obtain ⟨child, hchild, htarget, hgate⟩ := exists_child hstep
      rw [← hfile] at hchild
      refine ⟨chain.child child.1 child.2, hchain.tail (List.mem_map.mpr ⟨child, hchild, rfl⟩),
        htarget, fun decl hdecl => ?_⟩
      rcases List.mem_append.mp hdecl with hdecl | hdecl
      · exact hgates decl hdecl
      · exact List.mem_singleton.mp hdecl ▸ hgate

end Ways

end AutomatisedPipeline.Cfg
