import AutomatisedPipeline.Cfg.Compiles
import AutomatisedPipeline.Logic.Assoc
import AutomatisedPipeline.Logic.Spread

/-!
The files that the default features compile out (`indexer/feature_gated.rs`).

The first walk marks the files that a crate root reaches by declarations whose gate is not
false under its features, with those features; a target of a false gate is a seed. The
second walk goes from the seeds over what is not live. `features_iff` says what the two
walks make of a file, over the chains of declarations that lead to it.
-/

namespace AutomatisedPipeline.Cfg

open Text Kleene Walk Spread

/-- `CfgPredicate::eval`: no option is decided. -/
def CfgPredicate.eval (p : CfgPredicate) (enabled : List Str) : Truth := p.evalWith enabled []

/-- `gate`. -/
def gate (decl : ModDecl) (enabled : List Str) : Truth :=
  match decl.cfg with
  | some all => (CfgPredicate.all all).eval enabled
  | none => .unknown

/-- A file and the features it is reached with. -/
abbrev Reached : Type := Path × List Str

/-- The analysis, without the texts of its details. -/
structure FeatureAnalysis where
  gated : List Path
  features : List (Path × FileFeatures)

/-- What the sets of features of a live file say. -/
def knownFeatures (live : List Reached) (file : Path) : FileFeatures :=
  match ((live.filter fun e => e.1 = file).map Prod.snd).dedup with
  | [only] => .enabled only
  | _ => .disagree

namespace ModuleTree

variable (tree : ModuleTree)

/-- The declarations of a live file: what is reached with the features, and the seeds. -/
def liveBelow (node : Reached) : List (Reached ⊕ Path) :=
  (tree.children node.1).map fun child =>
    if gate child.1 node.2 = .false then .inr child.2 else .inl (child.2, node.2)

/-- `walk_live`: the live files and the seeds. No file is put on the stack twice. -/
def walkLive (state : List Reached × List Path) (root : CrateRoot) :
    Option (List Reached × List Path) :=
  let start : Reached := (root.entry, root.defaultFeatures)
  if root.entry ∉ tree.indexed ∨ start ∈ state.1 then some state
  else spread tree.liveBelow (tree.indexed.length + 1) ⟨[start], start :: state.1, state.2⟩

/-- `propagate_gated`. -/
def propagateGated (seeds : List Path) (live : List Reached) : Option (List Path) :=
  walk id (fun file => (tree.children file).map Prod.snd)
    (seeds.length + (tree.indexed.dedup.map fun file => ((tree.children file).map Prod.snd).length).sum)
    seeds.reverse (live.map Prod.fst)

/-- `analyse`, for the roots that are known. -/
def featureAnalysis (roots : List CrateRoot) : Option FeatureAnalysis := do
  let (live, seeds) ← roots.foldlM tree.walkLive ([], [])
  let gated ← tree.propagateGated seeds live
  return {
    gated := gated
    features := gated.map (fun file => (file, .compiledOut)) ++
      (live.map Prod.fst).dedup.map fun file => (file, knownFeatures live file) }

end ModuleTree

/-- `analyse`. -/
def analyseFeatures (sources : SourceTree) : TargetMap → Option FeatureAnalysis
  | .unknown => some { gated := [], features := [] }
  | .known roots => (ModuleTree.new sources roots).featureAnalysis roots

/-! ### Chains of declarations -/

namespace ModuleTree

variable {tree : ModuleTree}

theorem below_iff {node next : Reached} :
    Below tree.liveBelow node next ↔
      next.2 = node.2 ∧ ∃ child ∈ tree.children node.1, child.2 = next.1 ∧
        gate child.1 node.2 ≠ .false := by
  rw [Below, liveBelow, List.mem_map]
  constructor
  · rintro ⟨child, hchild, heq⟩
    split at heq
    · cases heq
    · rename_i hgate
      obtain rfl := Sum.inl.inj heq
      exact ⟨rfl, child, hchild, rfl, hgate⟩
  · rintro ⟨hfeatures, child, hchild, htarget, hgate⟩
    refine ⟨child, hchild, ?_⟩
    rw [if_neg hgate]
    exact congrArg Sum.inl (Prod.ext htarget hfeatures.symm)

theorem seed_iff {node : Reached} {target : Path} :
    .inr target ∈ tree.liveBelow node ↔
      ∃ child ∈ tree.children node.1, child.2 = target ∧ gate child.1 node.2 = .false := by
  rw [liveBelow, List.mem_map]
  constructor
  · rintro ⟨child, hchild, heq⟩
    split at heq
    · rename_i hgate
      exact ⟨child, hchild, Sum.inr.inj heq, hgate⟩
    · cases heq
  · rintro ⟨child, hchild, rfl, hgate⟩
    exact ⟨child, hchild, if_pos hgate⟩

/-- A chain of declarations whose gates are not false is a way down of the first walk. -/
theorem IsChain.below {root : CrateRoot} {chain : Chain} (h : tree.IsChain root chain)
    {features : List Str} (hlive : ∀ decl ∈ chain.decls, gate decl features ≠ .false) :
    Relation.ReflTransGen (Below tree.liveBelow) (root.entry, features) (chain.file, features) := by
  induction h with
  | refl => exact .refl
  | @tail chain chain' _ hstep ih =>
      obtain ⟨child, hchild, rfl⟩ := List.mem_map.mp hstep
      have hbefore : ∀ decl ∈ chain.decls, gate decl features ≠ .false :=
        fun decl hdecl => hlive decl (List.mem_append_left _ hdecl)
      have hlast : gate child.1 features ≠ .false :=
        hlive child.1 (List.mem_append_right _ (List.mem_singleton.mpr rfl))
      exact (ih hbefore).tail (below_iff.mpr ⟨rfl, child, hchild, rfl, hlast⟩)

theorem exists_chain_of_below {root : CrateRoot} {features : List Str} {node : Reached}
    (h : Relation.ReflTransGen (Below tree.liveBelow) (root.entry, features) node) :
    node.2 = features ∧ ∃ chain, tree.IsChain root chain ∧ chain.file = node.1 ∧
      ∀ decl ∈ chain.decls, gate decl features ≠ .false := by
  induction h with
  | refl => exact ⟨rfl, .start root, .refl, rfl, fun decl hdecl => by cases hdecl⟩
  | tail _ hstep ih =>
      obtain ⟨hfeatures, chain, hchain, hfile, hlive⟩ := ih
      obtain ⟨hsame, child, hchild, htarget, hgate⟩ := below_iff.mp hstep
      rw [← hfile] at hchild
      rw [hfeatures] at hgate
      refine ⟨hsame.trans hfeatures, chain.child child.1 child.2,
        hchain.tail (List.mem_map.mpr ⟨child, hchild, rfl⟩), htarget, fun decl hdecl => ?_⟩
      rcases List.mem_append.mp hdecl with hdecl | hdecl
      · exact hlive decl hdecl
      · exact List.mem_singleton.mp hdecl ▸ hgate

variable (tree)

/-- A crate root with the features reaches the file, by declarations none of which is false
under them. -/
def Live (roots : List CrateRoot) (file : Path) (features : List Str) : Prop :=
  ∃ root ∈ roots, root.entry ∈ tree.indexed ∧ root.defaultFeatures = features ∧
    ∃ chain, tree.IsChain root chain ∧ chain.file = file ∧
      ∀ decl ∈ chain.decls, gate decl features ≠ .false

/-- Some chain of declarations leads from an indexed crate root to the file. -/
def Declared (roots : List CrateRoot) (file : Path) : Prop :=
  ∃ root ∈ roots, root.entry ∈ tree.indexed ∧ ∃ chain, tree.IsChain root chain ∧ chain.file = file

variable {tree}

theorem Live.declared {roots : List CrateRoot} {file : Path} {features : List Str}
    (h : tree.Live roots file features) : tree.Declared roots file := by
  obtain ⟨root, hroot, hentry, -, chain, hchain, hfile, -⟩ := h
  exact ⟨root, hroot, hentry, chain, hchain, hfile⟩

theorem Declared.child {roots : List CrateRoot} {file : Path} {child : ModDecl × Path}
    (h : tree.Declared roots file) (hchild : child ∈ tree.children file) :
    tree.Declared roots child.2 := by
  obtain ⟨root, hroot, hentry, chain, hchain, rfl⟩ := h
  exact ⟨root, hroot, hentry, chain.child child.1 child.2,
    hchain.tail (List.mem_map.mpr ⟨child, hchild, rfl⟩), rfl⟩

/-! ### The first walk -/

/-- The first walk adds what lies below the entry of the root, and stays settled. -/
theorem walkLive_spec {live : List Reached} {seeds : List Path} (root : CrateRoot)
    (h : Settled tree.liveBelow ⟨[], live, seeds⟩) :
    ∃ live' seeds', tree.walkLive (live, seeds) root = some (live', seeds') ∧
      Settled tree.liveBelow ⟨[], live', seeds'⟩ ∧
      ∀ node, node ∈ live' ↔ node ∈ live ∨ root.entry ∈ tree.indexed ∧
        Relation.ReflTransGen (Below tree.liveBelow) (root.entry, root.defaultFeatures) node := by
  rw [walkLive]
  dsimp only
  split
  · rename_i hskip
    refine ⟨live, seeds, rfl, h, fun node => ⟨.inl, ?_⟩⟩
    rintro (hold | ⟨hentry, hreach⟩)
    · exact hold
    · exact h.mem_of_below (hskip.resolve_left (not_not.mpr hentry)) hreach
  · rename_i hrun
    obtain ⟨hentry, hnew⟩ := not_or.mp hrun
    have hentry := not_not.mp hentry
    have hsettled : Settled tree.liveBelow ⟨[(root.entry, root.defaultFeatures)],
        (root.entry, root.defaultFeatures) :: live, seeds⟩ := by
      refine ⟨by simp, fun node hnode => ?_, fun e he => ?_⟩
      · rcases List.mem_cons.mp hnode with rfl | hold
        · exact .inl List.mem_cons_self
        · have hdone := (h.done node hold).resolve_left List.not_mem_nil
          exact .inr ⟨fun w hw => List.mem_cons_of_mem _ (hdone.1 w hw), hdone.2⟩
      · obtain ⟨node, hnode, hbelow⟩ := h.reported e he
        exact ⟨node, List.mem_cons_of_mem _ hnode, hbelow⟩
    have hends : ∃ out, spread tree.liveBelow (tree.indexed.length + 1)
        ⟨[(root.entry, root.defaultFeatures)], (root.entry, root.defaultFeatures) :: live, seeds⟩ =
          some out := by
      refine spread_ends (S := tree.indexed.toFinset.image fun file => (file, root.defaultFeatures))
        (P := fun node => node.2 = root.defaultFeatures) ?_ (by simp) ?_
      · intro v w hv hw
        obtain ⟨hsame, child, hchild, htarget, -⟩ := below_iff.mp hw
        refine ⟨hsame.trans hv, Finset.mem_image.mpr ⟨w.1, ?_, Prod.ext rfl (hsame.trans hv).symm⟩⟩
        exact List.mem_toFinset.mpr (htarget ▸ mem_indexed_of_children hchild)
      · have hcard := Finset.card_le_card (Finset.sdiff_subset
          (s := tree.indexed.toFinset.image fun file => (file, root.defaultFeatures))
          (t := ((root.entry, root.defaultFeatures) :: live).toFinset))
        have himage := Finset.card_image_le (s := tree.indexed.toFinset)
          (f := fun file => (file, root.defaultFeatures))
        have hlength := List.toFinset_card_le tree.indexed
        simp only [cost, List.length_singleton]
        omega
    obtain ⟨⟨live', seeds'⟩, hspread⟩ := hends
    have hsettled' := settled_of_spread hspread hsettled
    obtain ⟨hkept, hmarked⟩ := mem_marked_of_spread hspread
    refine ⟨live', seeds', hspread, hsettled', fun node => ⟨fun hnode => ?_, ?_⟩⟩
    · rcases hmarked node hnode with hold | ⟨p, hp, hreach⟩
      · rcases List.mem_cons.mp hold with rfl | hold
        · exact .inr ⟨hentry, .refl⟩
        · exact .inl hold
      · obtain rfl := List.mem_singleton.mp hp
        exact .inr ⟨hentry, hreach⟩
    · rintro (hold | ⟨-, hreach⟩)
      · exact hkept node (List.mem_cons_of_mem _ hold)
      · exact hsettled'.mem_of_below (hkept _ List.mem_cons_self) hreach

variable (tree) in
/-- The first walk over all roots finds the live files. -/
theorem walkLive_all (roots : List CrateRoot) :
    ∃ live seeds, roots.foldlM tree.walkLive ([], []) = some (live, seeds) ∧
      Settled tree.liveBelow ⟨[], live, seeds⟩ ∧
      ∀ node : Reached, node ∈ live ↔ tree.Live roots node.1 node.2 := by
  have main (live : List Reached) (seeds : List Path)
      (h : Settled tree.liveBelow ⟨[], live, seeds⟩) :
      ∃ live' seeds', roots.foldlM tree.walkLive (live, seeds) = some (live', seeds') ∧
        Settled tree.liveBelow ⟨[], live', seeds'⟩ ∧
        ∀ node : Reached, node ∈ live' ↔ node ∈ live ∨ tree.Live roots node.1 node.2 := by
    induction roots generalizing live seeds with
    | nil => exact ⟨live, seeds, rfl, h, fun node => by simp [Live]⟩
    | cons root roots ih =>
        obtain ⟨live₁, seeds₁, hwalk, hsettled, hmem⟩ := walkLive_spec root h
        obtain ⟨live₂, seeds₂, hrest, hsettled', hmem'⟩ := ih live₁ seeds₁ hsettled
        refine ⟨live₂, seeds₂, ?_, hsettled', fun node => ?_⟩
        · rw [List.foldlM_cons, hwalk]
          exact hrest
        · rw [hmem', hmem, or_assoc]
          refine or_congr_right ?_
          simp only [Live, List.mem_cons, or_and_right, exists_or, exists_eq_left]
          refine or_congr_left (and_congr_right fun _ => ⟨fun hreach => ?_, ?_⟩)
          · obtain ⟨hfeatures, chain, hchain, hfile, hlive⟩ := exists_chain_of_below hreach
            exact ⟨hfeatures.symm, chain, hchain, hfile, by rwa [hfeatures]⟩
          · rintro ⟨hfeatures, chain, hchain, hfile, hlive⟩
            have hreach := hchain.below hlive
            rw [hfile] at hreach
            rw [hfeatures]
            exact hreach
  obtain ⟨live, seeds, hwalk, hsettled, hmem⟩ := main [] [] ⟨by simp, by simp, by simp⟩
  exact ⟨live, seeds, hwalk, hsettled, fun node => by simp [hmem]⟩

/-! ### The second walk -/

section SecondWalk

variable {roots : List CrateRoot} {live : List Reached} {seeds : List Path}
  (hlive : ∀ node : Reached, node ∈ live ↔ tree.Live roots node.1 node.2)

include hlive

/-- The files that the first walk marked are those that are live with some features. -/
theorem mem_files_iff {file : Path} :
    file ∈ live.map Prod.fst ↔ ∃ features, tree.Live roots file features := by
  rw [List.mem_map]
  constructor
  · rintro ⟨node, hnode, rfl⟩
    exact ⟨node.2, (hlive node).mp hnode⟩
  · rintro ⟨features, h⟩
    exact ⟨(file, features), (hlive _).mpr h, rfl⟩

variable (hsettled : Settled tree.liveBelow ⟨[], live, seeds⟩)

include hsettled

theorem declared_seed {target : Path} (hseed : target ∈ seeds) :
    target ∈ tree.indexed ∧ tree.Declared roots target := by
  obtain ⟨node, hnode, hbelow⟩ := hsettled.reported target hseed
  obtain ⟨child, hchild, rfl, -⟩ := seed_iff.mp hbelow
  exact ⟨mem_indexed_of_children hchild, ((hlive node).mp hnode).declared.child hchild⟩

theorem propagateGated_ends : ∃ gated, tree.propagateGated seeds live = some gated := by
  refine walk_ends_of_finite (S := tree.indexed.toFinset)
    (fun file => ((tree.children file).map Prod.snd).length) (fun _ => le_rfl) ?_ ?_ ?_
  · intro file target htarget
    obtain ⟨child, hchild, rfl⟩ := List.mem_map.mp htarget
    exact List.mem_toFinset.mpr (mem_indexed_of_children hchild)
  · intro target htarget
    exact List.mem_toFinset.mpr (declared_seed hlive hsettled (List.mem_reverse.mp htarget)).1
  · rw [List.length_reverse, ← sum_toFinset_eq]
    exact Nat.add_le_add_left (Finset.sum_le_sum_of_subset Finset.sdiff_subset) _

variable {gated : List Path} (hwalk : tree.propagateGated seeds live = some gated)

include hwalk

theorem declared_of_gated {file : Path} (hfile : file ∈ gated) :
    tree.Declared roots file ∧ file ∉ live.map Prod.fst := by
  obtain ⟨hnot, seed, hseed, hreach⟩ := reached_of_walk hwalk file hfile
  refine ⟨?_, hnot⟩
  clear hnot hfile
  induction hreach with
  | refl => exact (declared_seed hlive hsettled (List.mem_reverse.mp hseed)).2
  | tail _ hstep ih =>
      obtain ⟨child, hchild, rfl⟩ := List.mem_map.mp hstep
      exact ih.child hchild

/-- The target of a declaration of a live file is live, or a seed. -/
theorem marked_of_live {file : Path} {features : List Str} {child : ModDecl × Path}
    (hfile : tree.Live roots file features) (hchild : child ∈ tree.children file) :
    child.2 ∈ marked id (live.map Prod.fst) gated := by
  have hdone := (hsettled.done _ ((hlive (file, features)).mpr hfile)).resolve_left
    List.not_mem_nil
  by_cases hgate : gate child.1 features = .false
  · have hseed := hdone.2 child.2 (seed_iff.mpr ⟨child, hchild, rfl, hgate⟩)
    exact (seen_of_walk hwalk).1 child.2 (List.mem_reverse.mpr hseed)
  · have hbelow := hdone.1 (child.2, features) (below_iff.mpr ⟨rfl, child, hchild, rfl, hgate⟩)
    exact mem_marked.mpr (.inl (List.mem_map.mpr ⟨_, hbelow, rfl⟩))

/-- A file of a chain is live, or the walk from the seeds comes to it. -/
theorem marked_of_chain {root : CrateRoot} (hroot : root ∈ roots) (hentry : root.entry ∈ tree.indexed)
    {chain : Chain} (hchain : tree.IsChain root chain) :
    chain.file ∈ marked id (live.map Prod.fst) gated := by
  induction hchain with
  | refl =>
      refine mem_marked.mpr (.inl ((mem_files_iff hlive).mpr ⟨root.defaultFeatures, ?_⟩))
      exact ⟨root, hroot, hentry, rfl, .start root, .refl, rfl, fun decl hdecl => by cases hdecl⟩
  | @tail chain chain' _ hstep ih =>
      obtain ⟨child, hchild, rfl⟩ := List.mem_map.mp hstep
      rcases mem_marked.mp ih with hold | ⟨file, hfile, heq⟩
      · obtain ⟨features, hfeatures⟩ := (mem_files_iff hlive).mp hold
        exact marked_of_live hlive hsettled hwalk hfeatures hchild
      · obtain rfl : file = chain.file := heq
        apply (seen_of_walk hwalk).2 chain.file hfile child.2
        exact List.mem_map.mpr ⟨child, hchild, rfl⟩

end SecondWalk

/-- The second walk finds what is declared and not live. -/
theorem propagateGated_spec {roots : List CrateRoot} {live : List Reached} {seeds : List Path}
    (hsettled : Settled tree.liveBelow ⟨[], live, seeds⟩)
    (hlive : ∀ node : Reached, node ∈ live ↔ tree.Live roots node.1 node.2) :
    ∃ gated, tree.propagateGated seeds live = some gated ∧
      ∀ file, file ∈ gated ↔ tree.Declared roots file ∧ ¬∃ features, tree.Live roots file features := by
  obtain ⟨gated, hwalk⟩ := propagateGated_ends hlive hsettled
  refine ⟨gated, hwalk, fun file => ⟨fun hfile => ?_, ?_⟩⟩
  · rw [← mem_files_iff hlive]
    exact declared_of_gated hlive hsettled hwalk hfile
  · rintro ⟨⟨root, hroot, hentry, chain, hchain, rfl⟩, hdead⟩
    rcases mem_marked.mp (marked_of_chain hlive hsettled hwalk hroot hentry hchain) with
      hold | ⟨file, hfile, heq⟩
    · exact absurd ((mem_files_iff hlive).mp hold) hdead
    · obtain rfl : file = chain.file := heq
      exact hfile

/-! ### What is reported of a file -/

theorem knownFeatures_eq_enabled {live : List Reached} {file : Path} {features : List Str} :
    knownFeatures live file = .enabled features ↔
      (file, features) ∈ live ∧ ∀ other, (file, other) ∈ live → other = features := by
  have hmem (other : List Str) :
      other ∈ ((live.filter fun e => e.1 = file).map Prod.snd).dedup ↔ (file, other) ∈ live := by
    rw [List.mem_dedup, List.mem_map]
    constructor
    · rintro ⟨node, hnode, rfl⟩
      obtain ⟨hnode, hfile⟩ := List.mem_filter.mp hnode
      rw [← of_decide_eq_true hfile]
      exact hnode
    · intro hnode
      exact ⟨_, List.mem_filter.mpr ⟨hnode, decide_eq_true rfl⟩, rfl⟩
  have hnodup := List.nodup_dedup ((live.filter fun e => e.1 = file).map Prod.snd)
  simp only [← hmem]
  rw [knownFeatures]
  generalize ((live.filter fun e => e.1 = file).map Prod.snd).dedup = sets at hnodup
  match sets, hnodup with
  | [], _ => simp
  | [only], _ => simp [eq_comm]
  | a :: b :: rest, hnodup =>
      refine iff_of_false (by simp) ?_
      rintro ⟨-, hall⟩
      have hab : a = b := (hall a (by simp)).trans (hall b (by simp)).symm
      exact (List.nodup_cons.mp hnodup).1 (hab ▸ List.mem_cons_self)

/-- The analysis comes to an end. A file is compiled out where declarations lead to it and
none of the ways is live; it has features where all live ways have the same. -/
theorem features_iff (tree : ModuleTree) (roots : List CrateRoot) :
    ∃ analysis, tree.featureAnalysis roots = some analysis ∧ ∀ file,
      (analysis.features.lookup file = some .compiledOut ↔
        tree.Declared roots file ∧ ¬∃ features, tree.Live roots file features) ∧
      ∀ features, analysis.features.lookup file = some (.enabled features) ↔
        tree.Live roots file features ∧ ∀ other, tree.Live roots file other → other = features := by
  obtain ⟨live, seeds, hwalk, hsettled, hlive⟩ := tree.walkLive_all roots
  obtain ⟨gated, hgated, hmem⟩ := propagateGated_spec hsettled hlive
  have hrun : tree.featureAnalysis roots = some {
      gated := gated
      features := gated.map (fun file => (file, .compiledOut)) ++
        (live.map Prod.fst).dedup.map fun file => (file, knownFeatures live file) } := by
    simp [featureAnalysis, hwalk, hgated]
  refine ⟨_, hrun, fun file => ?_⟩
  have hlookup : (gated.map (fun file => (file, FileFeatures.compiledOut)) ++
        (live.map Prod.fst).dedup.map fun file => (file, knownFeatures live file)).lookup file =
      if file ∈ gated then some .compiledOut
      else if file ∈ live.map Prod.fst then some (knownFeatures live file) else none := by
    rw [List.lookup_append, Assoc.lookup_map, Assoc.lookup_map]
    simp only [List.mem_dedup]
    split
    · rfl
    · rfl
  have hknown (features : List Str) : knownFeatures live file = .enabled features ↔
      tree.Live roots file features ∧ ∀ other, tree.Live roots file other → other = features := by
    rw [knownFeatures_eq_enabled, hlive]
    exact and_congr_right fun _ => forall_congr' fun other => by rw [hlive]
  have hnotOut : knownFeatures live file ≠ .compiledOut := by
    unfold knownFeatures
    split
    · exact FileFeatures.noConfusion
    · exact FileFeatures.noConfusion
  rw [hlookup, ← hmem]
  by_cases hout : file ∈ gated
  · rw [if_pos hout]
    refine ⟨iff_of_true rfl hout, fun features => iff_of_false (by simp) fun h => ?_⟩
    exact ((hmem file).mp hout).2 ⟨features, h.1⟩
  · rw [if_neg hout]
    by_cases hin : file ∈ live.map Prod.fst
    · rw [if_pos hin]
      refine ⟨iff_of_false (fun h => hnotOut (Option.some.inj h)) hout, fun features => ?_⟩
      rw [Option.some.injEq, hknown]
    · rw [if_neg hin]
      refine ⟨iff_of_false (by simp) hout, fun features => iff_of_false (by simp) fun h => ?_⟩
      exact hin ((mem_files_iff hlive).mpr ⟨features, h.1⟩)

end ModuleTree

end AutomatisedPipeline.Cfg
