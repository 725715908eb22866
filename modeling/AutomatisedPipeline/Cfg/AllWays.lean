import AutomatisedPipeline.Cfg.FileScope
import AutomatisedPipeline.Logic.Assoc

/-!
A file's scope against all its ways in.

`AllWaysCount` says what the scope of a file is for: one chain of declarations gives the
file its module path and gate, several give neither, and the file is inactive when every
chain has a false gate. The walk keeps one chain for a file and a module path, so the
answer is right only where the chains it leaves out would have changed nothing
(`allWaysCount_iff`). Module paths grow on the way down, so the walk ends only where no file
is declared below itself (`ends_iff`).
-/

namespace AutomatisedPipeline.Cfg

open Text Kleene Walk

/-! ### What all ways in say -/

/-- The text of a chain's gates: nothing for no gate, `?` when one did not parse. -/
def Chain.gateText (chain : Chain) : Str :=
  match chain.gates with
  | none => ['?']
  | some [] => []
  | some all => (CfgPredicate.all all).canonical.compact

/-- A file's entry says the module path and the gate of a chain. A file without an entry has
no gate, and stands where the declarations look for it. -/
def Chain.CarriedBy (chain : Chain) : Option FileCfg → Prop
  | some facts => facts.modulePath = chain.modulePath ∧ facts.gate = chain.gateText
  | none => chain.gateText = [] ∧ chain.placed = false

/-- A file has no module path and no gate. -/
def CarriesNeither (entry : Option FileCfg) : Prop :=
  ∀ facts, entry = some facts → facts.modulePath = [] ∧ facts.gate = []

/-- A file is reported inactive. -/
def ReportedInactive (entry : Option FileCfg) : Prop :=
  ∃ facts, entry = some facts ∧ facts.active = .inactive

namespace Codebase

variable (cb : Codebase)

/-- The entry of a file is what all chains to it say. -/
structure Decides (entries : List (Path × FileCfg)) (file : Path) : Prop where
  one : ∀ chain, cb.chainsInto file = [chain] → chain.CarriedBy (entries.lookup file)
  several : 2 ≤ (cb.chainsInto file).length → CarriesNeither (entries.lookup file)
  inactive : ReportedInactive (entries.lookup file) ↔
    ∀ chain ∈ cb.chainsInto file, chain.HasFalseGate

/-- The analysis comes to an end, and decides every file that is reached by all its ways in. -/
def AllWaysCount : Prop :=
  ∃ entries, (∃ fuel, cb.analyse fuel = some entries) ∧
    ∀ file, cb.chainsInto file ≠ [] → cb.Decides entries file

end Codebase

/-- Nothing about the chain makes an entry: no attribute placed the file, no gate stands on
the way and none is false. -/
structure Chain.Plain (chain : Chain) : Prop where
  placed : chain.placed = false
  gate : chain.gateText = []
  live : ¬ chain.HasFalseGate

/-- The chains that the walk leaves out change nothing. -/
structure Codebase.NothingHidden (cb : Codebase) : Prop where
  /-- No file is declared, directly or through the modules below it, by itself. -/
  noLoop : ∀ root ∈ cb.roots, cb.tree.NoLoop root
  /-- With several chains to a file, two that are kept differ, or none makes an entry. -/
  several : ∀ file, 2 ≤ (cb.chainsInto file).length →
    (∃ a ∈ cb.keptInto file, ∃ b ∈ cb.keptInto file, a.record ≠ b.record) ∨
      cb.compiledOut file = false ∧ ∀ chain ∈ cb.keptInto file, chain.Plain
  /-- No chain left out is live where those that are kept are false. -/
  live : ∀ file, (∀ chain ∈ cb.keptInto file, chain.gates.isSome ∧ chain.HasFalseGate) →
    ∀ chain ∈ cb.chainsInto file, chain.HasFalseGate
  /-- The features walk compiles out only what every chain has a false gate to. -/
  compiledOut : ∀ file, cb.compiledOut file = true →
    ∀ chain ∈ cb.chainsInto file, chain.HasFalseGate
  /-- Where every chain has a false gate, all gates of the kept ones parse, unless the
  features walk has found it. -/
  parsed : ∀ file, cb.compiledOut file = false →
    (∀ chain ∈ cb.chainsInto file, chain.HasFalseGate) →
      ∀ chain ∈ cb.keptInto file, chain.gates.isSome

/-! ### The record of a chain -/

theorem evalIn_all_eq_false {ps : List CfgPredicate} {profile : BuildProfile} :
    (CfgPredicate.all ps).evalIn profile = .false ↔ ∃ p ∈ ps, p.evalIn profile = .false := by
  have hfold : (CfgPredicate.all ps).evalIn profile = conj (ps.map fun p => p.evalIn profile) := by
    unfold CfgPredicate.evalIn
    rw [CfgPredicate.evalWith, fold_conj _ (by decide), CfgPredicate.evalItems_eq_map]
    rfl
  rw [hfold, conj]
  split
  · rename_i hmem
    simpa using hmem
  · rename_i hmem
    refine iff_of_false ?_ (by simpa using hmem)
    split
    · exact Truth.noConfusion
    · exact Truth.noConfusion

namespace Chain

theorem gate_record (chain : Chain) : chain.record.gate = chain.gateText := rfl

/-- The walk finds a chain false when all its gates parse and one is false. -/
theorem truth_eq_false_iff (chain : Chain) :
    chain.record.truth = .false ↔ chain.gates.isSome ∧ chain.HasFalseGate := by
  have htruth : chain.record.truth = chain.way.toWay.truth := rfl
  have hfalse : ∀ decl ∈ chain.decls, ∀ own, decl.cfg = some own →
      ((CfgPredicate.all own).evalIn chain.profile = .false ↔
        ∃ p ∈ decl.cfg.getD [], p.evalIn chain.profile = .false) := by
    intro decl _ own hown
    rw [hown, evalIn_all_eq_false]
    rfl
  by_cases hall : chain.decls.all (·.cfg.isSome)
  · have hgates : chain.gates = some (chain.decls.flatMap (·.cfg.getD [])) := if_pos hall
    have hexists : chain.HasFalseGate ↔
        ∃ p ∈ chain.decls.flatMap (·.cfg.getD []), p.evalIn chain.profile = .false := by
      constructor
      · rintro ⟨decl, hdecl, own, hown, heval⟩
        obtain ⟨p, hp, hp'⟩ := (hfalse decl hdecl own hown).mp heval
        exact ⟨p, List.mem_flatMap.mpr ⟨decl, hdecl, hp⟩, hp'⟩
      · rintro ⟨p, hp, hp'⟩
        obtain ⟨decl, hdecl, hp⟩ := List.mem_flatMap.mp hp
        obtain ⟨own, hown⟩ := Option.isSome_iff_exists.mp (List.all_eq_true.mp hall decl hdecl)
        exact ⟨decl, hdecl, own, hown, (hfalse decl hdecl own hown).mpr ⟨p, hp, hp'⟩⟩
    rw [htruth, Way.truth, hexists]
    simp only [way, hgates, Option.isSome_some, true_and]
    cases chain.decls.flatMap (·.cfg.getD []) with
    | nil => simp
    | cons p ps => exact evalIn_all_eq_false
  · have hgates : chain.gates = none := if_neg hall
    simp [htruth, Way.truth, way, hgates]

theorem modulePath_ne_nil (chain : Chain) : chain.modulePath ≠ [] :=
  List.append_ne_nil_of_left_ne_nil chain.root.named _

end Chain

/-! ### The entry of a set of records -/

section Facts

variable {reaches : List Reach} {compiledOut : Bool}

theorem active_scope (hne : reaches ≠ []) :
    (scope reaches compiledOut).active = .inactive ↔
      compiledOut = true ∨ ∀ r ∈ reaches, r.truth = .false := by
  have hempty : reaches.isEmpty = false := by simpa using hne
  have hcond : (compiledOut || reaches.all (·.truth == .false) && !reaches.isEmpty) = true ↔
      compiledOut = true ∨ ∀ r ∈ reaches, r.truth = .false := by
    simp [hempty]
  simp only [scope]
  rw [← hcond]
  split
  · rename_i hout
    exact iff_of_true rfl hout
  · rename_i hout
    refine iff_of_false ?_ hout
    split
    · exact CfgActive.noConfusion
    · exact CfgActive.noConfusion

theorem eq_scope_of_factsOf {facts : FileCfg} (h : factsOf reaches compiledOut = some facts) :
    facts = scope reaches compiledOut :=
  (Option.some.inj (Option.ite_none_right_eq_some.mp h).2).symm

theorem reportedInactive_factsOf (hne : reaches ≠ []) :
    ReportedInactive (factsOf reaches compiledOut) ↔
      compiledOut = true ∨ ∀ r ∈ reaches, r.truth = .false := by
  rw [← active_scope hne]
  constructor
  · rintro ⟨facts, hfacts, hactive⟩
    exact eq_scope_of_factsOf hfacts ▸ hactive
  · intro hactive
    exact ⟨_, Option.ite_none_right_eq_some.mpr ⟨by simp [hactive], rfl⟩, hactive⟩

/-- The entry of the only record. -/
theorem factsOf_singleton (r : Reach) :
    factsOf [r] compiledOut =
      if r.placed = true ∨ r.gate ≠ [] ∨ compiledOut = true ∨ r.truth = .false then
        some ⟨r.modulePath, r.gate, (scope [r] compiledOut).active⟩
      else none := by
  have hactive := @active_scope [r] compiledOut (List.cons_ne_nil r [])
  rw [List.forall_mem_singleton] at hactive
  refine if_congr ?_ rfl rfl
  rw [Bool.or_eq_true, Bool.or_eq_true, or_assoc, beq_iff_eq, hactive]
  simp [scope]

/-- Records that differ carry nothing. -/
theorem carriesNeither_factsOf_of_ne {a b : Reach} (ha : a ∈ reaches) (hb : b ∈ reaches)
    (hab : a ≠ b) : CarriesNeither (factsOf reaches compiledOut) := by
  intro facts hfacts
  obtain rfl := eq_scope_of_factsOf hfacts
  match reaches, ha, hb with
  | [only], ha, hb =>
      exact absurd ((List.mem_singleton.mp ha).trans (List.mem_singleton.mp hb).symm) hab
  | _ :: _ :: _, _, _ => exact ⟨rfl, rfl⟩

/-- A set of records carries nothing exactly when two of them differ or none makes an
entry. -/
theorem carriesNeither_factsOf (hne : reaches ≠ []) (hnodup : reaches.Nodup)
    (hpath : ∀ r ∈ reaches, r.modulePath ≠ []) :
    CarriesNeither (factsOf reaches compiledOut) ↔
      (∃ a ∈ reaches, ∃ b ∈ reaches, a ≠ b) ∨
        compiledOut = false ∧ ∀ r ∈ reaches, r.placed = false ∧ r.gate = [] ∧ r.truth ≠ .false := by
  match reaches, hne with
  | [r], _ =>
      have hsame : ¬ ∃ a ∈ [r], ∃ b ∈ [r], a ≠ b := by simp
      rw [or_iff_right hsame, factsOf_singleton, List.forall_mem_singleton]
      constructor
      · intro h
        by_contra hentry
        have hmarked : r.placed = true ∨ r.gate ≠ [] ∨ compiledOut = true ∨ r.truth = .false := by
          simp only [← Bool.not_eq_true]  at hentry
          tauto
        rw [if_pos hmarked] at h
        exact hpath r List.mem_cons_self (h _ rfl).1
      · rintro ⟨hout, hplaced, hgate, htruth⟩
        rw [if_neg (by simp [hout, hplaced, hgate, htruth])]
        exact fun facts hfacts => absurd hfacts (by simp)
  | a :: b :: rest, _ =>
      have hab : a ≠ b := fun heq => (List.nodup_cons.mp hnodup).1 (heq ▸ List.mem_cons_self)
      have ha : a ∈ a :: b :: rest := List.mem_cons_self
      have hb : b ∈ a :: b :: rest := List.mem_cons_of_mem a List.mem_cons_self
      exact iff_of_true (carriesNeither_factsOf_of_ne ha hb hab) (.inl ⟨a, ha, b, hb, hab⟩)

end Facts

/-! ### The entries of the analysis -/

namespace Codebase

variable (cb : Codebase)

theorem analyse_some_iff {entries : List (Path × FileCfg)} :
    (∃ fuel, cb.analyse fuel = some entries) ↔
      (∀ root ∈ cb.roots, cb.tree.NoLoop root) ∧
        entries = cb.entriesOf ((cb.roots.flatMap cb.tree.kept).map Chain.way) := by
  have hroots : (∀ root ∈ cb.roots, cb.tree.NoLoop root) ↔
      ∀ root ∈ cb.map.crateRoots, root.entry ∈ cb.tree.indexed → cb.tree.NoLoop root := by
    simp only [roots, List.mem_filter, decide_eq_true_eq, and_imp]
    rfl
  rw [hroots]
  constructor
  · rintro ⟨fuel, h⟩
    obtain ⟨ways, hways, rfl⟩ := Option.map_eq_some_iff.mp h
    obtain ⟨hloops, rfl⟩ := waysOf_some_iff.mp ⟨fuel, hways⟩
    exact ⟨hloops, rfl⟩
  · rintro ⟨hloops, rfl⟩
    obtain ⟨fuel, hfuel⟩ := waysOf_some_iff.mpr ⟨hloops, rfl⟩
    exact ⟨fuel, by rw [analyse, hfuel]; rfl⟩

theorem mem_chainsInto_of_mem_keptInto {file : Path} {chain : Chain}
    (h : chain ∈ cb.keptInto file) : chain ∈ cb.chainsInto file := by
  obtain ⟨h, hfile⟩ := List.mem_filter.mp h
  obtain ⟨root, hroot, h⟩ := List.mem_flatMap.mp h
  have hmem := List.mem_flatMap.mpr ⟨root, hroot, ModuleTree.mem_chains_of_mem_kept h⟩
  exact List.mem_filter.mpr ⟨hmem, hfile⟩

/-- A file that is reached is recorded. -/
theorem keptInto_ne_nil {file : Path} (h : cb.chainsInto file ≠ []) : cb.keptInto file ≠ [] := by
  obtain ⟨chain, hchain⟩ := List.exists_mem_of_ne_nil _ h
  obtain ⟨hchain, hfile⟩ := List.mem_filter.mp hchain
  obtain ⟨root, hroot, hchain⟩ := List.mem_flatMap.mp hchain
  have hfirst := @exists_first _ _ _ Chain.key [] _ _ hchain
  obtain hseen | ⟨first, hfirst, hkey⟩ := mem_marked.mp hfirst
  · cases hseen
  · have hsame : first.file = chain.file := (Prod.mk.inj hkey).1
    refine List.ne_nil_of_mem (List.mem_filter.mpr ⟨List.mem_flatMap.mpr ⟨root, hroot, hfirst⟩, ?_⟩)
    rw [hsame]
    exact hfile

/-- The records of a file. -/
theorem reachesOf_kept (file : Path) :
    reachesOf ((cb.roots.flatMap cb.tree.kept).map Chain.way) file =
      ((cb.keptInto file).map Chain.record).dedup := by
  rw [reachesOf, keptInto, List.filter_map, List.map_map]
  rfl

theorem lookup_entriesOf {file : Path} (h : cb.chainsInto file ≠ []) :
    (cb.entriesOf ((cb.roots.flatMap cb.tree.kept).map Chain.way)).lookup file =
      factsOf ((cb.keptInto file).map Chain.record).dedup (cb.compiledOut file) := by
  obtain ⟨chain, hchain⟩ := List.exists_mem_of_ne_nil _ (cb.keptInto_ne_nil h)
  obtain ⟨hchain, hfile⟩ := List.mem_filter.mp hchain
  have hmem : file ∈ (((cb.roots.flatMap cb.tree.kept).map Chain.way).map (·.file)).dedup := by
    rw [List.mem_dedup, List.map_map]
    exact List.mem_map.mpr ⟨chain, hchain, of_decide_eq_true hfile⟩
  rw [entriesOf, Assoc.lookup_filterMap, if_pos hmem, reachesOf_kept]

/-! ### What the entry of a file says -/

variable {cb} {file : Path}

theorem mem_records {r : Reach} :
    r ∈ ((cb.keptInto file).map Chain.record).dedup ↔
      ∃ chain ∈ cb.keptInto file, chain.record = r := by
  rw [List.mem_dedup, List.mem_map]

theorem records_ne_nil (h : cb.chainsInto file ≠ []) :
    ((cb.keptInto file).map Chain.record).dedup ≠ [] := by
  obtain ⟨chain, hchain⟩ := List.exists_mem_of_ne_nil _ (cb.keptInto_ne_nil h)
  exact List.ne_nil_of_mem (mem_records.mpr ⟨chain, hchain, rfl⟩)

theorem inactive_iff (h : cb.chainsInto file ≠ []) :
    ReportedInactive (factsOf ((cb.keptInto file).map Chain.record).dedup (cb.compiledOut file)) ↔
      cb.compiledOut file = true ∨
        ∀ chain ∈ cb.keptInto file, chain.gates.isSome ∧ chain.HasFalseGate := by
  rw [reportedInactive_factsOf (records_ne_nil h)]
  refine or_congr_right ?_
  simp only [mem_records, ← Chain.truth_eq_false_iff]
  constructor
  · exact fun h chain hchain => h _ ⟨chain, hchain, rfl⟩
  · rintro h _ ⟨chain, hchain, rfl⟩
    exact h chain hchain

theorem plain_iff (chain : Chain) :
    chain.record.placed = false ∧ chain.record.gate = [] ∧ chain.record.truth ≠ .false ↔
      chain.Plain := by
  rw [Ne, Chain.truth_eq_false_iff, Chain.gate_record]
  constructor
  · rintro ⟨hplaced, hgate, htruth⟩
    refine ⟨hplaced, hgate, fun hfalse => htruth ⟨?_, hfalse⟩⟩
    rw [Option.isSome_iff_ne_none]
    intro hnone
    rw [Chain.gateText, hnone] at hgate
    cases hgate
  · rintro ⟨hplaced, hgate, hlive⟩
    exact ⟨hplaced, hgate, fun htruth => hlive htruth.2⟩

theorem carriesNeither_iff (h : cb.chainsInto file ≠ []) :
    CarriesNeither (factsOf ((cb.keptInto file).map Chain.record).dedup (cb.compiledOut file)) ↔
      (∃ a ∈ cb.keptInto file, ∃ b ∈ cb.keptInto file, a.record ≠ b.record) ∨
        cb.compiledOut file = false ∧ ∀ chain ∈ cb.keptInto file, chain.Plain := by
  have hpath : ∀ r ∈ ((cb.keptInto file).map Chain.record).dedup, r.modulePath ≠ [] := by
    intro r hr
    obtain ⟨chain, -, rfl⟩ := mem_records.mp hr
    exact chain.modulePath_ne_nil
  rw [carriesNeither_factsOf (records_ne_nil h) (List.nodup_dedup _) hpath]
  refine or_congr ?_ (and_congr_right fun _ => ?_)
  · constructor
    · rintro ⟨_, ha, _, hb, hab⟩
      obtain ⟨a, ha', rfl⟩ := mem_records.mp ha
      obtain ⟨b, hb', rfl⟩ := mem_records.mp hb
      exact ⟨a, ha', b, hb', hab⟩
    · rintro ⟨a, ha, b, hb, hab⟩
      exact ⟨_, mem_records.mpr ⟨a, ha, rfl⟩, _, mem_records.mpr ⟨b, hb, rfl⟩, hab⟩
  · constructor
    · exact fun h chain hchain => (plain_iff chain).mp (h _ (mem_records.mpr ⟨chain, hchain, rfl⟩))
    · intro h r hr
      obtain ⟨chain, hchain, rfl⟩ := mem_records.mp hr
      exact (plain_iff chain).mpr (h chain hchain)

theorem eq_singleton_of_nodup {l : List Reach} {r : Reach} (hnodup : l.Nodup) (hne : l ≠ [])
    (h : ∀ r' ∈ l, r' = r) : l = [r] := by
  match l, hne with
  | [r'], _ => rw [h r' List.mem_cons_self]
  | a :: b :: rest, _ =>
      have hab : a = b :=
        (h a List.mem_cons_self).trans (h b (List.mem_cons_of_mem a List.mem_cons_self)).symm
      exact absurd (hab ▸ List.mem_cons_self) (List.nodup_cons.mp hnodup).1

/-- The only chain to a file is carried. -/
theorem carriedBy_of_one {chain : Chain} (h : cb.chainsInto file = [chain]) :
    chain.CarriedBy (factsOf ((cb.keptInto file).map Chain.record).dedup (cb.compiledOut file)) := by
  have hne : cb.chainsInto file ≠ [] := by simp [h]
  have hsame : ∀ r ∈ ((cb.keptInto file).map Chain.record).dedup, r = chain.record := by
    intro r hr
    obtain ⟨c, hc, rfl⟩ := mem_records.mp hr
    have hc := cb.mem_chainsInto_of_mem_keptInto hc
    rw [h] at hc
    rw [List.mem_singleton.mp hc]
  have hone : ((cb.keptInto file).map Chain.record).dedup = [chain.record] :=
    eq_singleton_of_nodup (List.nodup_dedup _) (records_ne_nil hne) hsame
  rw [hone, factsOf_singleton]
  split
  · exact ⟨rfl, rfl⟩
  · rename_i hplain
    push Not at hplain
    exact ⟨hplain.2.1, Bool.eq_false_of_not_eq_true hplain.1⟩

end Codebase

/-- The analysis decides every file by all its ways in exactly when the chains that the walk
leaves out change nothing. -/
theorem allWaysCount_iff (cb : Codebase) : cb.AllWaysCount ↔ cb.NothingHidden := by
  constructor
  · rintro ⟨entries, hrun, hall⟩
    obtain ⟨hloops, rfl⟩ := cb.analyse_some_iff.mp hrun
    have hdecides : ∀ file, ∀ chain ∈ cb.chainsInto file, cb.chainsInto file ≠ [] :=
      fun file chain hchain => List.ne_nil_of_mem hchain
    refine ⟨hloops, fun file hlen => ?_, fun file hkept chain hchain => ?_,
      fun file hout chain hchain => ?_, fun file hout hfalse chain hchain => ?_⟩
    · have hne : cb.chainsInto file ≠ [] := fun hnil => by simp [hnil] at hlen
      have hcarries := (hall file hne).several hlen
      rw [cb.lookup_entriesOf hne] at hcarries
      exact (Codebase.carriesNeither_iff hne).mp hcarries
    · have hne := hdecides file chain hchain
      refine (hall file hne).inactive.mp ?_ chain hchain
      rw [cb.lookup_entriesOf hne]
      exact (Codebase.inactive_iff hne).mpr (.inr hkept)
    · have hne := hdecides file chain hchain
      refine (hall file hne).inactive.mp ?_ chain hchain
      rw [cb.lookup_entriesOf hne]
      exact (Codebase.inactive_iff hne).mpr (.inl hout)
    · have hne := hdecides file chain (cb.mem_chainsInto_of_mem_keptInto hchain)
      have hinactive := (hall file hne).inactive.mpr hfalse
      rw [cb.lookup_entriesOf hne, Codebase.inactive_iff hne, hout] at hinactive
      exact (hinactive.resolve_left Bool.false_ne_true chain hchain).1
  · intro h
    refine ⟨_, cb.analyse_some_iff.mpr ⟨h.noLoop, rfl⟩, fun file hne => ?_⟩
    refine ⟨fun chain hone => ?_, fun hlen => ?_, ?_⟩
    · rw [cb.lookup_entriesOf hne]
      exact Codebase.carriedBy_of_one hone
    · rw [cb.lookup_entriesOf hne]
      exact (Codebase.carriesNeither_iff hne).mpr (h.several file hlen)
    · rw [cb.lookup_entriesOf hne, Codebase.inactive_iff hne]
      constructor
      · rintro (hout | hkept)
        · exact h.compiledOut file hout
        · exact h.live file hkept
      · intro hfalse
        cases hout : cb.compiledOut file with
        | true => exact .inl rfl
        | false =>
            refine .inr fun chain hchain => ⟨h.parsed file hout hfalse chain hchain, ?_⟩
            exact hfalse chain (cb.mem_chainsInto_of_mem_keptInto hchain)

/-- The source of `src/lib.rs`: a feature makes a module public. -/
def libSource : Str :=
  "#[cfg(not(feature = \"unstable\"))]\nmod imp;\n#[cfg(feature = \"unstable\")]\npub mod imp;".toList

def libFile : Path := ["src".toList, "lib.rs".toList]

def impFile : Path := ["src".toList, "imp.rs".toList]

def publicWithFeature : Codebase where
  sources := {
    indexed := [impFile, libFile]
    readToString := fun path => if path = libFile then some libSource else some []
    modDecls := fun source =>
      if source = libSource then
        [{ name := "imp".toList, pathAttr := none, altPaths := []
           cfg := some [.not (.feature "unstable".toList)] },
          { name := "imp".toList, pathAttr := none, altPaths := []
            cfg := some [.feature "unstable".toList] }]
      else [] }
  map := .known [⟨libFile, [], by decide +kernel⟩]
  features := fun _ => some (.enabled [])

/-- The file is compiled by the default build, through the first declaration; it carries the
gate of the second and is reported inactive. -/
theorem publicWithFeature_not_allWaysCount :
    (publicWithFeature.analyse 5 = some
        [(impFile,
          ⟨"src/lib.rs::imp".toList, "feature=unstable".toList, .inactive⟩)] ∧
      (publicWithFeature.chainsInto impFile).map (·.record.truth) =
        [.false, .true]) ∧
      ¬ publicWithFeature.AllWaysCount := by
  have hrun : publicWithFeature.analyse 5 = some
      [(impFile,
        ⟨"src/lib.rs::imp".toList, "feature=unstable".toList, .inactive⟩)] := by decide +kernel
  have htruth : (publicWithFeature.chainsInto impFile).map
      (·.record.truth) = [.false, .true] := by decide +kernel
  refine ⟨⟨hrun, htruth⟩, ?_⟩
  rintro ⟨entries, hentries, hall⟩
  obtain ⟨-, heq⟩ := publicWithFeature.analyse_some_iff.mp hentries
  obtain ⟨-, heq'⟩ := publicWithFeature.analyse_some_iff.mp ⟨5, hrun⟩
  rw [heq, ← heq'] at hall
  have hlen : 2 ≤ (publicWithFeature.chainsInto impFile).length := by
    rw [← List.length_map (·.record.truth), htruth]
    decide
  have hne : publicWithFeature.chainsInto impFile ≠ [] :=
    List.ne_nil_of_length_pos (by omega)
  obtain ⟨hpath, -⟩ := (hall _ hne).several hlen _ rfl
  exact absurd hpath (by decide)

/-! ### Where the analysis ends -/

/-- The analysis returns, and there are finitely many pairs of a file and a module path to
visit. -/
structure Codebase.Ends (cb : Codebase) : Prop where
  returns : ∃ fuel entries, cb.analyse fuel = some entries
  finite : {k | ∃ root ∈ cb.roots, ∃ chain,
    Relation.ReflTransGen (fun a b => b ∈ Chain.below cb.tree a) (.start root) chain ∧
      chain.key = k}.Finite

theorem Codebase.entry_mem_of_mem_roots {cb : Codebase} {root : CrateRoot} (h : root ∈ cb.roots) :
    root.entry ∈ cb.tree.indexed :=
  of_decide_eq_true (List.mem_filter.mp h).2

/-- The analysis ends exactly on the trees where no file below an indexed crate root is
declared, directly or further down, by itself. -/
theorem ends_iff (cb : Codebase) : cb.Ends ↔ ∀ root ∈ cb.roots, cb.tree.NoLoop root := by
  constructor
  · rintro ⟨⟨fuel, entries, hrun⟩, -⟩
    exact (cb.analyse_some_iff.mp ⟨fuel, hrun⟩).1
  · intro hloops
    obtain ⟨fuel, hrun⟩ := cb.analyse_some_iff.mpr ⟨hloops, rfl⟩
    refine ⟨⟨fuel, _, hrun⟩, ?_⟩
    refine ((cb.roots.flatMap cb.tree.chains).map Chain.key).finite_toSet.subset ?_
    rintro _ ⟨root, hroot, chain, hbelow, rfl⟩
    have hchain : chain ∈ cb.tree.chains root :=
      (ModuleTree.mem_chains_iff (Codebase.entry_mem_of_mem_roots hroot) (hloops root hroot)).mpr
        hbelow
    exact List.mem_map.mpr ⟨chain, List.mem_flatMap.mpr ⟨root, hroot, hchain⟩, rfl⟩

/-- The source of `src/main.rs`: a module that is the crate root again. -/
def mainSource : Str := "#[cfg(any())]\n#[path = \"main.rs\"]\nmod again;\n".toList

def mainFile : Path := ["src".toList, "main.rs".toList]

def declaresItself : Codebase where
  sources := {
    indexed := [mainFile]
    readToString := fun path => if path = mainFile then some mainSource else none
    modDecls := fun source =>
      if source = mainSource then
        [{ name := "again".toList, pathAttr := some "main.rs".toList, altPaths := []
           cfg := some [.any []] }]
      else [] }
  map := .known [⟨mainFile, [], by decide +kernel⟩]
  features := fun _ => some (.enabled [])

/-- A crate root that is its own module keeps the walk going, also where it is compiled
out. -/
theorem declaresItself_not_ends : ¬ declaresItself.Ends := by
  rintro ⟨⟨fuel, entries, hrun⟩, -⟩
  obtain ⟨hloops, -⟩ := declaresItself.analyse_some_iff.mp ⟨fuel, hrun⟩
  have hroot : (⟨mainFile, [], by decide +kernel⟩ : CrateRoot) ∈ declaresItself.roots :=
    List.mem_filter.mpr ⟨List.mem_singleton_self _, by decide +kernel⟩
  have hself : declaresItself.tree.Declares mainFile mainFile := by
    unfold ModuleTree.Declares
    decide +kernel
  exact hloops _ hroot mainFile .refl (.single hself)

end AutomatisedPipeline.Cfg
