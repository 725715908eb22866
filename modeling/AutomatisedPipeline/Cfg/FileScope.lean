import AutomatisedPipeline.Cfg.ModuleTree
import AutomatisedPipeline.Cfg.Twin
import AutomatisedPipeline.Logic.Walk

/-!
The gate and the module path that a Rust file gets from the `mod` declarations that
lead to it (`indexer/file_scope.rs`).

`analyse` walks the module tree of every crate root with a stack and a set of the pairs
(file, module path) it has seen. A chain of declarations is what the walk follows; the
walk has one chain for each pair, the one declared last.
-/

namespace AutomatisedPipeline.Cfg

open Text Kleene Walk

/-! ### The source's definitions -/

/-- `CrateRoot`: the entry file of a target, which has a name, and the default features of
its package. -/
structure CrateRoot where
  entry : Path
  defaultFeatures : List Str
  named : idOf entry ≠ []

/-- `TargetMap`. -/
inductive TargetMap where
  | unknown
  | known (crateRoots : List CrateRoot)

def TargetMap.crateRoots : TargetMap → List CrateRoot
  | .unknown => []
  | .known crateRoots => crateRoots

/-- `ModuleTree::new`. -/
def ModuleTree.new (sources : SourceTree) (crateRoots : List CrateRoot) : ModuleTree where
  toSourceTree := sources
  crateEntries := crateRoots.map (·.entry)

/-- `Way` of the walk: a way in and the file it leads to. -/
structure FileWay extends Way where
  file : Path

namespace FileWay

/-- The way of a crate root to its entry file. -/
def start (root : CrateRoot) : FileWay where
  file := root.entry
  modulePath := idOf root.entry
  gates := some []
  placed := false
  enabled := root.defaultFeatures

/-- `Way::child`. -/
def child (way : FileWay) (decl : ModDecl) (target : Path) : FileWay where
  file := target
  modulePath := way.modulePath ++ "::".toList ++ decl.name
  gates :=
    match way.gates, decl.cfg with
    | some outer, some own => some (outer ++ own)
    | _, _ => none
  placed := way.placed || decl.pathAttr.isSome || !decl.altPaths.isEmpty
  enabled := way.enabled

/-- What `seen` holds of a way. -/
def key (way : FileWay) : Path × Str := (way.file, way.modulePath)

/-- The ways that one way adds to `pending`. -/
def below (tree : ModuleTree) (way : FileWay) : List FileWay :=
  (tree.children way.file).map fun child => way.child child.1 child.2

end FileWay

/-- The walk of `analyse` from one crate root: the ways that `seen` did not hold. -/
def waysFrom (fuel : Nat) (tree : ModuleTree) (root : CrateRoot) : Option (List FileWay) :=
  walk FileWay.key (FileWay.below tree) fuel [FileWay.start root] []

/-- The loop of `analyse` over the crate roots. -/
def waysOf (fuel : Nat) (tree : ModuleTree) : List CrateRoot → Option (List FileWay)
  | [] => some []
  | root :: roots =>
      if root.entry ∈ tree.indexed then
        (waysFrom fuel tree root).bind fun ways => (waysOf fuel tree roots).map (ways ++ ·)
      else waysOf fuel tree roots

/-- What `analyse` holds when it writes the facts: the records of a file are a set. -/
def reachesOf (ways : List FileWay) (file : Path) : List Reach :=
  ((ways.filter fun way => way.file = file).map fun way => reach way.toWay).dedup

/-- The entry that `analyse` makes of the records of a file. -/
def factsOf (reaches : List Reach) (compiledOut : Bool) : Option FileCfg :=
  let placed := reaches.length == 1 && reaches.all (·.placed)
  let facts := scope reaches compiledOut
  if placed || !facts.gate.isEmpty || facts.active == .inactive then some facts else none

/-- A codebase: its Rust files, the targets that Cargo knows, and what the features walk
says of a file. -/
structure Codebase where
  sources : SourceTree
  map : TargetMap
  features : Path → Option FileFeatures

namespace Codebase

variable (cb : Codebase)

def tree : ModuleTree := .new cb.sources cb.map.crateRoots

/-- The features walk found the file compiled out. -/
def compiledOut (file : Path) : Bool := cb.features file == some .compiledOut

/-- The entries that `analyse` makes of the ways it found. -/
def entriesOf (ways : List FileWay) : List (Path × FileCfg) :=
  (ways.map (·.file)).dedup.filterMap fun file =>
    (factsOf (reachesOf ways file) (cb.compiledOut file)).map (file, ·)

/-- `analyse`: the entries by file, `none` when the fuel runs out. -/
def analyse (fuel : Nat) : Option (List (Path × FileCfg)) :=
  (waysOf fuel cb.tree cb.map.crateRoots).map cb.entriesOf

end Codebase

/-! ### Chains of declarations -/

/-- The gates of declarations, where all of them parsed. -/
def declaredGates (decls : List ModDecl) : Option (List CfgPredicate) :=
  if decls.all (·.cfg.isSome) then some (decls.flatMap (·.cfg.getD [])) else none

/-- A chain of declarations from a crate root down to a file. -/
structure Chain where
  root : CrateRoot
  decls : List ModDecl
  file : Path

namespace Chain

def start (root : CrateRoot) : Chain where
  root := root
  decls := []
  file := root.entry

def child (chain : Chain) (decl : ModDecl) (target : Path) : Chain where
  root := chain.root
  decls := chain.decls ++ [decl]
  file := target

/-- The chains with one more declaration. -/
def below (tree : ModuleTree) (chain : Chain) : List Chain :=
  (tree.children chain.file).map fun child => chain.child child.1 child.2

/-- The module path that the declarations spell. -/
def modulePath (chain : Chain) : Str :=
  idOf chain.root.entry ++ chain.decls.flatMap fun decl => "::".toList ++ decl.name

def gates (chain : Chain) : Option (List CfgPredicate) := declaredGates chain.decls

/-- An attribute of a declaration placed the file. -/
def placed (chain : Chain) : Bool :=
  chain.decls.any fun decl => decl.pathAttr.isSome || !decl.altPaths.isEmpty

/-- The default build of the package that the chain starts from. -/
def profile (chain : Chain) : BuildProfile := .withFeatures chain.root.defaultFeatures

/-- A declaration of the chain has a gate that is false under the default build. -/
def HasFalseGate (chain : Chain) : Prop :=
  ∃ decl ∈ chain.decls, ∃ own, decl.cfg = some own ∧
    (CfgPredicate.all own).evalIn chain.profile = .false

/-- The way that the walk holds of a chain. -/
def way (chain : Chain) : FileWay where
  file := chain.file
  modulePath := chain.modulePath
  gates := chain.gates
  placed := chain.placed
  enabled := chain.root.defaultFeatures

/-- What the walk records of a chain. -/
def record (chain : Chain) : Reach := reach chain.way.toWay

/-- What the walk tells chains of one root apart by. -/
def key (chain : Chain) : Path × Str := (chain.file, chain.modulePath)

end Chain

namespace ModuleTree

variable (tree : ModuleTree)

/-- The chains from a root, in the order of the walk: at each file the last declaration
first. No chain without a loop has more declarations than files are indexed. -/
def chains (root : CrateRoot) : List Chain :=
  preorder (Chain.below tree) tree.indexed.length (.start root)

/-- Of the chains to one file with one module path, the one declared last. -/
def kept (root : CrateRoot) : List Chain := firsts Chain.key [] (tree.chains root)

/-- No file below the root is declared, directly or further down, by itself. -/
def NoLoop (root : CrateRoot) : Prop :=
  ∀ file, Relation.ReflTransGen tree.Declares root.entry file →
    ¬ Relation.TransGen tree.Declares file file

end ModuleTree

namespace Codebase

variable (cb : Codebase)

/-- The crate roots whose entry file is indexed. -/
def roots : List CrateRoot := cb.map.crateRoots.filter (·.entry ∈ cb.sources.indexed)

/-- Every way into a file: the chains to it from all crate roots. -/
def chainsInto (file : Path) : List Chain :=
  (cb.roots.flatMap cb.tree.chains).filter fun chain => chain.file = file

/-- The chains to a file that the walk records. -/
def keptInto (file : Path) : List Chain :=
  (cb.roots.flatMap cb.tree.kept).filter fun chain => chain.file = file

end Codebase

/-! ### The walk follows chains -/

theorem declaredGates_concat (decls : List ModDecl) (decl : ModDecl) :
    declaredGates (decls ++ [decl]) =
      match declaredGates decls, decl.cfg with
      | some outer, some own => some (outer ++ own)
      | _, _ => none := by
  cases hcfg : decl.cfg with
  | none => simp [declaredGates, hcfg]
  | some own =>
      by_cases hall : decls.all (·.cfg.isSome)
      · have hall' : (decls ++ [decl]).all (·.cfg.isSome) := by
          rw [List.all_append, hall]
          simp [hcfg]
        rw [declaredGates, declaredGates, if_pos hall, if_pos hall']
        simp [hcfg]
      · have hall' : ¬ (decls ++ [decl]).all (·.cfg.isSome) := by
          rw [List.all_append, Bool.and_eq_true]
          exact fun h => hall h.1
        rw [declaredGates, declaredGates, if_neg hall, if_neg hall']

namespace Chain

@[simp] theorem way_start (root : CrateRoot) : (start root).way = FileWay.start root := by
  simp [start, way, FileWay.start, modulePath, gates, declaredGates, placed]

/-- The walk goes from the way of a chain to the ways of the chains below. -/
theorem way_child (chain : Chain) (decl : ModDecl) (target : Path) :
    (chain.child decl target).way = chain.way.child decl target := by
  simp [way, FileWay.child, child, modulePath, gates, declaredGates_concat, placed, Bool.or_assoc]

theorem map_way_below (tree : ModuleTree) (chain : Chain) :
    (chain.below tree).map way = chain.way.below tree := by
  rw [below, FileWay.below, List.map_map]
  exact List.map_congr_left fun child _ => way_child chain child.1 child.2

/-- A module path grows with every declaration; the file and the module path decide which
files and module paths lie below. -/
theorem keyed (tree : ModuleTree) :
    Keyed key (below tree) fun k => k.2.length where
  grows := by
    intro chain c hc
    obtain ⟨child, -, rfl⟩ := List.mem_map.mp hc
    simp [key, Chain.child, modulePath]
  decides := by
    intro a b h
    obtain ⟨hfile, hpath⟩ := Prod.mk.inj h
    rw [below, below, hfile, List.map_map, List.map_map]
    refine List.map_congr_left fun child _ => Prod.ext rfl ?_
    simp only [key, modulePath, Chain.child, Function.comp_apply, List.flatMap_append]
    rw [← List.append_assoc, ← List.append_assoc]
    exact congrArg (· ++ _) hpath

theorem leads_iff (tree : ModuleTree) (chain : Chain) (target : Path) :
    tree.Declares chain.file target ↔ ∃ c ∈ chain.below tree, c.file = target := by
  simp [ModuleTree.Declares, below, child]

end Chain

namespace ModuleTree

variable {tree : ModuleTree} {root : CrateRoot}

theorem bounded_of_noLoop (hentry : root.entry ∈ tree.indexed) (h : tree.NoLoop root) :
    Bounded (Chain.below tree) tree.indexed.length (.start root) := by
  have hS : ∀ a b, tree.Declares a b → b ∈ tree.indexed := by
    intro a b hab
    obtain ⟨child, hchild, rfl⟩ := List.mem_map.mp hab
    exact mem_indexed_of_children hchild
  refine bounded_of_acyclic (Chain.leads_iff tree) hS (List.nodup_singleton _) ?_ ?_ h ?_
  · exact fun a ha => List.mem_singleton.mp ha ▸ hentry
  · exact fun a ha => absurd ha (by simp)
  · simp

theorem noLoop_iff (hentry : root.entry ∈ tree.indexed) :
    tree.NoLoop root ↔ ∃ n, Bounded (Chain.below tree) n (.start root) :=
  ⟨fun h => ⟨_, bounded_of_noLoop hentry h⟩,
    fun ⟨_, h⟩ _ hfile => acyclic_of_bounded (Chain.leads_iff tree) h hfile⟩

/-- Without loops `chains` has the chains that declarations make, and no others. -/
theorem mem_chains_iff (hentry : root.entry ∈ tree.indexed) (h : tree.NoLoop root)
    {chain : Chain} :
    chain ∈ tree.chains root ↔
      Relation.ReflTransGen (fun a b => b ∈ Chain.below tree a) (.start root) chain :=
  mem_preorder_iff (bounded_of_noLoop hentry h)

theorem mem_chains_of_mem_kept {chain : Chain} (h : chain ∈ tree.kept root) :
    chain ∈ tree.chains root :=
  mem_of_mem_firsts h

end ModuleTree

theorem waysFrom_eq (fuel : Nat) (tree : ModuleTree) (root : CrateRoot) :
    waysFrom fuel tree root =
      (walk Chain.key (Chain.below tree) fuel [.start root] []).map (List.map Chain.way) := by
  have hmap := @walk_map _ _ _ _ _ _ _ FileWay.key (Chain.map_way_below tree) fuel
    [.start root] []
  rw [List.map_singleton, Chain.way_start] at hmap
  exact hmap

/-- The walk from a root ends exactly when no file below declares itself, and records the
chains that are kept. -/
theorem waysFrom_some_iff {tree : ModuleTree} {root : CrateRoot} (hentry : root.entry ∈ tree.indexed)
    {ways : List FileWay} :
    (∃ fuel, waysFrom fuel tree root = some ways) ↔
      tree.NoLoop root ∧ ways = (tree.kept root).map Chain.way := by
  have hk := Chain.keyed tree
  constructor
  · rintro ⟨fuel, h⟩
    rw [waysFrom_eq] at h
    obtain ⟨out, hout, rfl⟩ := Option.map_eq_some_iff.mp h
    have hloop : tree.NoLoop root :=
      (ModuleTree.noLoop_iff hentry).mpr (hk.walk_ends_iff.mp ⟨fuel, out, hout⟩)
    obtain ⟨fuel', hfuel'⟩ := hk.walk_eq_firsts (ModuleTree.bounded_of_noLoop hentry hloop)
    exact ⟨hloop, by rw [walk_unique hout hfuel']; rfl⟩
  · rintro ⟨hloop, rfl⟩
    obtain ⟨fuel, hfuel⟩ := hk.walk_eq_firsts (ModuleTree.bounded_of_noLoop hentry hloop)
    exact ⟨fuel, by rw [waysFrom_eq, hfuel]; rfl⟩

theorem waysFrom_more {fuel : Nat} {tree : ModuleTree} {root : CrateRoot} {ways : List FileWay}
    (h : waysFrom fuel tree root = some ways) (more : Nat) :
    waysFrom (fuel + more) tree root = some ways :=
  walk_more h more

theorem waysOf_more {fuel : Nat} {tree : ModuleTree} {roots : List CrateRoot}
    {ways : List FileWay} (h : waysOf fuel tree roots = some ways) (more : Nat) :
    waysOf (fuel + more) tree roots = some ways := by
  induction roots generalizing ways with
  | nil => exact h
  | cons root roots ih =>
      rw [waysOf] at h ⊢
      split
      · rename_i hentry
        rw [if_pos hentry] at h
        obtain ⟨first, hfirst, h⟩ := Option.bind_eq_some_iff.mp h
        obtain ⟨rest, hrest, rfl⟩ := Option.map_eq_some_iff.mp h
        rw [waysFrom_more hfirst, Option.bind_some, ih hrest]
        rfl
      · rename_i hentry
        rw [if_neg hentry] at h
        exact ih h

/-- The same for all crate roots. -/
theorem waysOf_some_iff {tree : ModuleTree} {roots : List CrateRoot} {ways : List FileWay} :
    (∃ fuel, waysOf fuel tree roots = some ways) ↔
      (∀ root ∈ roots, root.entry ∈ tree.indexed → tree.NoLoop root) ∧
        ways = ((roots.filter (·.entry ∈ tree.indexed)).flatMap tree.kept).map Chain.way := by
  induction roots generalizing ways with
  | nil => simp [waysOf, eq_comm]
  | cons root roots ih =>
      by_cases hentry : root.entry ∈ tree.indexed
      · have hfilter : (root :: roots).filter (·.entry ∈ tree.indexed) =
            root :: roots.filter (·.entry ∈ tree.indexed) :=
          List.filter_cons_of_pos (by simpa using hentry)
        rw [hfilter, List.flatMap_cons, List.map_append]
        constructor
        · rintro ⟨fuel, h⟩
          rw [waysOf, if_pos hentry] at h
          obtain ⟨first, hfirst, h⟩ := Option.bind_eq_some_iff.mp h
          obtain ⟨rest, hrest, rfl⟩ := Option.map_eq_some_iff.mp h
          obtain ⟨hloop, rfl⟩ := (waysFrom_some_iff hentry).mp ⟨fuel, hfirst⟩
          obtain ⟨hloops, rfl⟩ := ih.mp ⟨fuel, hrest⟩
          refine ⟨fun r hr hr' => ?_, rfl⟩
          rcases List.mem_cons.mp hr with rfl | hr
          · exact hloop
          · exact hloops r hr hr'
        · rintro ⟨hloops, rfl⟩
          obtain ⟨fuel, hfuel⟩ :=
            (waysFrom_some_iff hentry).mpr ⟨hloops root (by simp) hentry, rfl⟩
          obtain ⟨fuel', hfuel'⟩ := ih.mpr ⟨fun r hr => hloops r (by simp [hr]), rfl⟩
          refine ⟨fuel + fuel', ?_⟩
          rw [waysOf, if_pos hentry, waysFrom_more hfuel, Option.bind_some, Nat.add_comm,
            waysOf_more hfuel']
          rfl
      · have hfilter : (root :: roots).filter (·.entry ∈ tree.indexed) =
            roots.filter (·.entry ∈ tree.indexed) :=
          List.filter_cons_of_neg (by simpa using hentry)
        have hskip : ∀ fuel, waysOf fuel tree (root :: roots) = waysOf fuel tree roots :=
          fun fuel => by rw [waysOf, if_neg hentry]
        simp only [hskip, hfilter, ih]
        refine and_congr_left fun _ => ⟨fun h r hr hr' => ?_, fun h r hr => h r (by simp [hr])⟩
        rcases List.mem_cons.mp hr with rfl | hr
        · exact absurd hr' hentry
        · exact h r hr hr'

end AutomatisedPipeline.Cfg
