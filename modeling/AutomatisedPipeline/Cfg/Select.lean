import AutomatisedPipeline.Cfg.Twin

/-!
The choice among `#[cfg]` twins (`resolver/cfg_verdict.rs` and
`resolver/cfg_select.rs`).

Over the facts the indexer writes (`TwinView.load`), `select_sound` says what a
choice means in every default build in which the caller's gates hold: the gates
in the chosen twin's id are true, and each other candidate has a false gate or
sits in a file that the build compiles out.
-/

namespace AutomatisedPipeline.Cfg

open Text

/-! ### The source's definitions -/

/-- `SymbolEntry`. -/
structure SymbolEntry where
  id : Str
  label : Str
  qualifiedName : Str
deriving DecidableEq, Repr

/-- `TwinView`. -/
structure TwinView where
  active : Str → Option CfgActive
  files : Str → Option FileCfg
  gatedCallers : List Str

/-- `TwinView::load`, over what the indexer wrote: `cfg_active_by_id` has every
twin, `file_cfg_by_id` every file with a gate or compiled out. -/
def TwinView.load (ix : Indexed) : TwinView where
  active id := if id ∈ ix.twinIds then some (ix.written id) else none
  files file := (ix.fileCfg file).filter fun cfg => !cfg.gate.isEmpty || cfg.active == .inactive
  gatedCallers := ix.gatedCallers

/-- `TwinView::file`. -/
def TwinView.file (view : TwinView) (id : Str) : Option FileCfg :=
  (extractFilePrefix id).bind view.files

/-- `Verdict`. -/
inductive Verdict where
  | compiled
  | notCompiled
  | undecided
deriving DecidableEq, Repr

/-- The conjuncts of one gate. -/
def terms : CfgPredicate → List CfgPredicate
  | .all items => items
  | single => [single]

/-- The inner loop of `conjuncts`: the parts of a gate that are not there yet. -/
def addParts (out parts : List CfgPredicate) : List CfgPredicate :=
  parts.foldl (fun out part => if part ∈ out then out else out ++ [part]) out

/-- The outer loop of `conjuncts`. -/
def addGates (out : List CfgPredicate) : List Str → Option (List CfgPredicate)
  | [] => some out
  | gate :: gates =>
      match parseCompact gate with
      | none => none
      | some p => addGates (addParts out (terms p)) gates

/-- `conjuncts`. -/
def conjuncts (qn : Str) : Option (List CfgPredicate) := addGates [] (cfgGatesIn qn)

/-- `negation`. -/
def negation : CfgPredicate → CfgPredicate
  | .not inner => inner
  | other => .not other

/-- The gate that the file of `qn` inherits, when it has one. -/
def fileGate (view : TwinView) (qn : Str) : List Str :=
  match view.file qn with
  | none => []
  | some f => if f.gate.isEmpty then [] else [f.gate]

/-- `conjuncts_in_file`. -/
def conjunctsInFile (view : TwinView) (qn : Str) : Option (List CfgPredicate) :=
  match conjuncts qn with
  | none => none
  | some out => addGates out (fileGate view qn)

/-- `extract_caller_from_callsite_id`. -/
def extractCallerFromCallsiteId (csId : Str) : Str :=
  match rfind "::call@".toList csId with
  | some idx => csId.take idx
  | none => csId

/-- `CallerGates`. -/
structure CallerGates where
  held : List CfgPredicate
  unspelled : Bool

/-- `caller_gates`. -/
def callerGates (view : TwinView) (caller : Str) : CallerGates where
  held := (conjunctsInFile view caller).getD []
  unspelled := extractCallerFromCallsiteId caller ∈ view.gatedCallers

/-- The part of `verdict` that reads the default profile. -/
def profileVerdict (view : TwinView) (id qn : Str) : Verdict :=
  let fileActive := (view.file id).map (·.active)
  if fileActive = some .inactive then .notCompiled
  else
    match view.active id with
    | some .active => .compiled
    | some .inactive => .notCompiled
    | _ => if fileActive = some .active ∧ cfgGatesIn qn = [] then .compiled else .undecided

/-- `verdict`. -/
def verdict (view : TwinView) (caller : CallerGates) (id qn : Str) : Verdict :=
  let profile := if caller.unspelled then .undecided else profileVerdict view id qn
  match conjunctsInFile view qn with
  | none => profile
  | some gate =>
      if gate ≠ [] ∧ ∀ c ∈ gate, c ∈ caller.held then .compiled
      else if ∃ c ∈ gate, negation c ∈ caller.held then .notCompiled
      else profile

/-- `select`. -/
def select (view : TwinView) (callerQn : Str) (twins : List SymbolEntry) : Option SymbolEntry :=
  match (twins.map fun twin =>
      (twin, verdict view (callerGates view callerQn) twin.id twin.qualifiedName)).filter
        (·.2 ≠ .notCompiled) with
  | [(twin, v)] => if v = .compiled then some twin else none
  | _ => none

/-! ### Conjuncts -/

theorem mem_addParts {q : CfgPredicate} {out parts : List CfgPredicate} :
    q ∈ addParts out parts ↔ q ∈ out ∨ q ∈ parts := by
  induction parts generalizing out with
  | nil => simp [addParts]
  | cons part parts ih =>
      have hstep : addParts out (part :: parts) =
          addParts (if part ∈ out then out else out ++ [part]) parts := rfl
      rw [hstep, ih]
      split
      · rename_i hmem
        constructor
        · rintro (h | h)
          · exact .inl h
          · exact .inr (by simp [h])
        · rintro (h | h)
          · exact .inl h
          · rcases List.mem_cons.mp h with rfl | h
            · exact .inl hmem
            · exact .inr h
      · simp [or_assoc]

/-- The conjuncts are those of the gates, all of which parse. -/
theorem mem_addGates {gates : List Str} {out result : List CfgPredicate}
    (h : addGates out gates = some result) :
    (∀ gate ∈ gates, ∃ p, parseCompact gate = some p) ∧
      ∀ q, q ∈ result ↔ q ∈ out ∨ ∃ gate ∈ gates, ∃ p, parseCompact gate = some p ∧ q ∈ terms p := by
  induction gates generalizing out with
  | nil =>
      obtain rfl : out = result := by simpa [addGates] using h
      simp
  | cons gate gates ih =>
      simp only [addGates] at h
      cases hp : parseCompact gate with
      | none => simp [hp] at h
      | some p =>
          simp only [hp] at h
          obtain ⟨hparse, hmem⟩ := ih h
          constructor
          · intro g hg
            rcases List.mem_cons.mp hg with rfl | hg
            · exact ⟨p, hp⟩
            · exact hparse g hg
          · intro q
            rw [hmem q, mem_addParts]
            simp [hp, or_assoc]

theorem addGates_append (out : List CfgPredicate) (xs ys : List Str) :
    addGates out (xs ++ ys) = (addGates out xs).bind fun out' => addGates out' ys := by
  induction xs generalizing out with
  | nil => rfl
  | cons gate xs ih =>
      simp only [List.cons_append, addGates]
      cases parseCompact gate with
      | none => rfl
      | some p => exact ih _

/-- The gates of a name: those written in it and the one its file inherits. -/
def gatesOf (view : TwinView) (qn : Str) : List Str := cfgGatesIn qn ++ fileGate view qn

theorem conjunctsInFile_eq (view : TwinView) (qn : Str) :
    conjunctsInFile view qn = addGates [] (gatesOf view qn) := by
  rw [gatesOf, addGates_append, conjunctsInFile, conjuncts]
  cases addGates [] (cfgGatesIn qn) <;> rfl

/-! ### Conjuncts in a build -/

theorem holds_iff_terms (b : Build) (p : CfgPredicate) :
    p.holds b = true ↔ ∀ q ∈ terms p, q.holds b = true := by
  cases p <;> simp [terms, CfgPredicate.holds]

theorem holds_negation (b : Build) (p : CfgPredicate) :
    (negation p).holds b = !p.holds b := by
  cases p <;> simp [negation, CfgPredicate.holds]

/-- Gates that parse to held conjuncts hold. -/
theorem gates_true {b : Build} {gates : List Str} {result : List CfgPredicate}
    (h : addGates [] gates = some result) (hold : ∀ q ∈ result, q.holds b = true) :
    ∀ gate ∈ gates, GateTrue b gate := by
  intro gate hgate
  obtain ⟨hparse, hmem⟩ := mem_addGates h
  obtain ⟨p, hp⟩ := hparse gate hgate
  refine ⟨p, hp, (holds_iff_terms b p).mpr fun q hq => hold q ?_⟩
  exact (hmem q).mpr (.inr ⟨gate, hgate, p, hp, hq⟩)

/-- A false conjunct makes its gate false. -/
theorem gate_false {b : Build} {gates : List Str} {result : List CfgPredicate}
    (h : addGates [] gates = some result) {q : CfgPredicate} (hq : q ∈ result)
    (hfalse : q.holds b = false) : ∃ gate ∈ gates, GateFalse b gate := by
  rcases ((mem_addGates h).2 q).mp hq with hnil | ⟨gate, hgate, p, hp, hterm⟩
  · cases hnil
  · refine ⟨gate, hgate, p, hp, ?_⟩
    by_contra hp'
    have := (holds_iff_terms b p).mp (by simpa using hp') q hterm
    simp [hfalse] at this

/-- The build satisfies every gate that the caller holds. -/
def CallerCompiled (view : TwinView) (b : Build) (caller : Str) : Prop :=
  ∀ gate ∈ gatesOf view caller, ∀ p, parseCompact gate = some p → p.holds b = true

theorem held_holds {view : TwinView} {b : Build} {caller : Str}
    (hcaller : CallerCompiled view b caller) :
    ∀ q ∈ (callerGates view caller).held, q.holds b = true := by
  intro q hq
  simp only [callerGates, conjunctsInFile_eq] at hq
  cases hgates : addGates [] (gatesOf view caller) with
  | none => simp [hgates] at hq
  | some result =>
      rw [hgates, Option.getD_some] at hq
      rcases ((mem_addGates hgates).2 q).mp hq with hnil | ⟨gate, hgate, p, hp, hterm⟩
      · cases hnil
      · exact (holds_iff_terms b p).mp (hcaller gate hgate p hp) q hterm

/-! ### Verdicts in a build -/

/-- `b` is a build of one package under its default features, and `defaults` are
the features of every candidate's file and of every way into it. -/
structure DefaultBuild (ix : Indexed) (defaults : List Str) (b : Build)
    (twins : List SymbolEntry) : Prop where
  completes : b.Completes (.withFeatures defaults)
  features : ∀ u ∈ twins, ∀ file, extractFilePrefix u.id = some file →
    ∀ e, ix.features file = some (.enabled e) → ∀ f, f ∈ e ↔ f ∈ defaults
  ways : ∀ u ∈ twins, ∀ file, extractFilePrefix u.id = some file →
    ∀ way ∈ ix.ways file, ∀ f, f ∈ way.enabled ↔ f ∈ defaults

section Sound

variable {ix : Indexed} {defaults : List Str} {b : Build} {twins : List SymbolEntry}
  {u : SymbolEntry} (hb : DefaultBuild ix defaults b twins) (hu : u ∈ twins)
include hb hu

theorem ways_completed {file : Str} (hfile : extractFilePrefix u.id = some file) :
    ∀ way ∈ ix.ways file, b.Completes (.withFeatures way.enabled) :=
  fun way hway => hb.completes.congr (hb.ways u hu file hfile way hway)

/-- The verdict written on a twin is what the build does with it. -/
theorem written_active (h : ix.written u.id = .active) :
    ∀ gate ∈ cfgGatesIn u.id, GateTrue b gate := by
  simp only [Indexed.written] at h
  split at h
  · cases h
  · unfold CfgActive.decide at h
    split at h
    · cases h
    · cases h
    · cases h
    · rename_i enabled hfeatures
      obtain ⟨file, hfile, he⟩ := Option.bind_eq_some_iff.mp hfeatures
      exact evaluate_active (hb.completes.congr (hb.features u hu file hfile enabled he)) h

theorem written_inactive (h : ix.written u.id = .inactive) :
    (∃ gate ∈ cfgGatesIn u.id, GateFalse b gate) ∨
      ∃ file, extractFilePrefix u.id = some file ∧ ix.FileOut b file := by
  simp only [Indexed.written] at h
  split at h
  · rename_i hout
    obtain ⟨cfg, hcfg, hinactive⟩ := Option.any_eq_true _ _ |>.mp hout
    obtain ⟨file, hfile, hfacts⟩ := Option.bind_eq_some_iff.mp hcfg
    exact .inr ⟨file, hfile, ix.fileOut_of_inactive (ways_completed hb hu hfile) hfacts
      (by simpa using hinactive)⟩
  · unfold CfgActive.decide at h
    split at h
    · cases h
    · cases h
    · rename_i hfeatures
      obtain ⟨file, hfile, he⟩ := Option.bind_eq_some_iff.mp hfeatures
      exact .inr ⟨file, hfile, .inl he⟩
    · rename_i enabled hfeatures
      obtain ⟨file, hfile, he⟩ := Option.bind_eq_some_iff.mp hfeatures
      exact .inl (evaluate_inactive (hb.completes.congr (hb.features u hu file hfile enabled he)) h)

theorem profileVerdict_compiled (hid : u.id = u.qualifiedName)
    (h : profileVerdict (.load ix) u.id u.qualifiedName = .compiled) :
    ∀ gate ∈ cfgGatesIn u.qualifiedName, GateTrue b gate := by
  simp only [profileVerdict] at h
  split at h
  · cases h
  · split at h
    · rename_i hactive
      simp only [TwinView.load, Option.ite_none_right_eq_some, Option.some.injEq] at hactive
      rw [← hid]
      exact written_active hb hu hactive.2
    · cases h
    · split at h
      · rename_i hbare
        simp [hbare.2]
      · cases h

theorem profileVerdict_notCompiled (hid : u.id = u.qualifiedName)
    (h : profileVerdict (.load ix) u.id u.qualifiedName = .notCompiled) :
    (∃ gate ∈ cfgGatesIn u.qualifiedName, GateFalse b gate) ∨
      ∃ file, extractFilePrefix u.qualifiedName = some file ∧ ix.FileOut b file := by
  rw [← hid]
  simp only [profileVerdict] at h
  split at h
  · rename_i hfile
    obtain ⟨cfg, hcfg, hinactive⟩ := Option.map_eq_some_iff.mp hfile
    obtain ⟨file, hfile, hfacts⟩ := Option.bind_eq_some_iff.mp hcfg
    exact .inr ⟨file, hfile, ix.fileOut_of_inactive (ways_completed hb hu hfile)
      (Option.filter_eq_some_iff.mp hfacts).1 hinactive⟩
  · split at h
    · cases h
    · rename_i hactive
      simp only [TwinView.load, Option.ite_none_right_eq_some, Option.some.injEq] at hactive
      exact written_inactive hb hu hactive.2
    · split at h <;> cases h

variable {caller : Str} (hcaller : CallerCompiled (.load ix) b caller)
include hcaller

/-- The gates in the id of a twin with the verdict `Compiled` are true. -/
theorem verdict_compiled (hid : u.id = u.qualifiedName)
    (h : verdict (.load ix) (callerGates (.load ix) caller) u.id u.qualifiedName = .compiled) :
    ∀ gate ∈ cfgGatesIn u.qualifiedName, GateTrue b gate := by
  have hprofile : (if (callerGates (.load ix) caller).unspelled then Verdict.undecided
      else profileVerdict (.load ix) u.id u.qualifiedName) = .compiled →
      ∀ gate ∈ cfgGatesIn u.qualifiedName, GateTrue b gate := by
    intro h
    split at h
    · cases h
    · exact profileVerdict_compiled hb hu hid h
  simp only [verdict] at h
  split at h
  · exact hprofile h
  · rename_i gates hgates
    rw [conjunctsInFile_eq] at hgates
    split at h
    · -- the caller holds every conjunct
      rename_i hheld
      intro gate hgate
      exact gates_true hgates (fun q hq => held_holds hcaller q (hheld.2 q hq)) gate
        (List.mem_append_left _ hgate)
    · split at h
      · cases h
      · exact hprofile h

/-- A twin with the verdict `NotCompiled` has a false gate or its file is out. -/
theorem verdict_notCompiled (hid : u.id = u.qualifiedName)
    (h : verdict (.load ix) (callerGates (.load ix) caller) u.id u.qualifiedName =
      .notCompiled) :
    (∃ gate ∈ gatesOf (.load ix) u.qualifiedName, GateFalse b gate) ∨
      ∃ file, extractFilePrefix u.qualifiedName = some file ∧ ix.FileOut b file := by
  have hprofile : (if (callerGates (.load ix) caller).unspelled then Verdict.undecided
      else profileVerdict (.load ix) u.id u.qualifiedName) = .notCompiled →
      (∃ gate ∈ gatesOf (.load ix) u.qualifiedName, GateFalse b gate) ∨
        ∃ file, extractFilePrefix u.qualifiedName = some file ∧ ix.FileOut b file := by
    intro h
    split at h
    · cases h
    · rcases profileVerdict_notCompiled hb hu hid h with ⟨gate, hgate, hfalse⟩ | hout
      · exact .inl ⟨gate, List.mem_append_left _ hgate, hfalse⟩
      · exact .inr hout
  simp only [verdict] at h
  split at h
  · exact hprofile h
  · rename_i gates hgates
    rw [conjunctsInFile_eq] at hgates
    split at h
    · cases h
    · split at h
      · -- the caller holds the negation of a conjunct
        rename_i hneg
        obtain ⟨c, hc, hheld⟩ := hneg
        have hfalse := held_holds hcaller _ hheld
        rw [holds_negation] at hfalse
        exact .inl (gate_false hgates hc (by simpa using hfalse))
      · exact hprofile h

end Sound

/-! ### The choice -/

/-- `select` returns the one twin that is not ruled out, when it is compiled. -/
theorem select_eq_some {view : TwinView} {callerQn : Str} {twins : List SymbolEntry}
    {t : SymbolEntry} (h : select view callerQn twins = some t) :
    t ∈ twins ∧ verdict view (callerGates view callerQn) t.id t.qualifiedName = .compiled ∧
      ∀ u ∈ twins, u ≠ t →
        verdict view (callerGates view callerQn) u.id u.qualifiedName = .notCompiled := by
  unfold select at h
  split at h
  · rename_i twin v hfilter
    split at h
    · rename_i hv
      obtain rfl := Option.some.inj h
      have hmem : ∀ x, x ∈ [(twin, v)] ↔ (∃ u ∈ twins,
          (u, verdict view (callerGates view callerQn) u.id u.qualifiedName) = x) ∧
          x.2 ≠ .notCompiled := by
        intro x
        rw [← hfilter]
        simp
      obtain ⟨⟨u, hu, heq⟩, -⟩ := (hmem (twin, v)).mp (by simp)
      obtain ⟨rfl, hverdict⟩ := Prod.mk.inj heq
      refine ⟨hu, hverdict.trans hv, ?_⟩
      intro w hw hne
      by_contra hnot
      have := (hmem (w, _)).mpr ⟨⟨w, hw, rfl⟩, hnot⟩
      exact hne (by simpa using congrArg Prod.fst (List.mem_singleton.mp this))
    · cases h
  · cases h

/-- A choice among twins, in every default build of their package in which the
caller's gates hold. The gates written in the chosen twin's id are true, and when
its file is decided by the default profile some way into the file is open. Each
other candidate has a false gate, its own or its file's, or its file is out. -/
theorem select_sound (ix : Indexed) (defaults : List Str) (b : Build) (caller : Str)
    (twins : List SymbolEntry) (t : SymbolEntry) (hb : DefaultBuild ix defaults b twins)
    (hid : ∀ u ∈ twins, u.id = u.qualifiedName) (hcaller : CallerCompiled (.load ix) b caller)
    (hselect : select (.load ix) caller twins = some t) :
    t ∈ twins ∧ (∀ gate ∈ cfgGatesIn t.qualifiedName, GateTrue b gate) ∧
      (∀ file cfg, extractFilePrefix t.qualifiedName = some file → ix.fileCfg file = some cfg →
        cfg.active = .active → ∃ way ∈ ix.ways file, way.Open b) ∧
      ∀ u ∈ twins, u ≠ t → (∃ gate ∈ gatesOf (.load ix) u.qualifiedName, GateFalse b gate) ∨
        ∃ file, extractFilePrefix u.qualifiedName = some file ∧ ix.FileOut b file := by
  obtain ⟨ht, hcompiled, hothers⟩ := select_eq_some hselect
  refine ⟨ht, verdict_compiled hb ht hcaller (hid t ht) hcompiled, ?_, ?_⟩
  · intro file cfg hfile hcfg hactive
    rw [← hid t ht] at hfile
    exact ix.open_of_active (ways_completed hb ht hfile) hcfg hactive
  · intro u hu hne
    exact verdict_notCompiled hb hu hcaller (hid u hu) (hothers u hu hne)

/-! ### Twins inside a file under an undecided gate -/

/-- `src/unix.rs` is declared under `cfg(unix)` and holds the twins of `pick` with
and without the feature `fast`, which is off. -/
def pickTwins : List SymbolEntry :=
  ["src/unix.rs::pick#cfg(feature=fast)", "src/unix.rs::pick#cfg(not(feature=fast))"].map
    fun id => ⟨id.toList, "Function".toList, id.toList⟩

def pickIndexed : Indexed where
  ways file :=
    if file = "src/unix.rs".toList then
      [⟨"src/lib.rs::imp".toList, some [.option "unix".toList none], true, []⟩]
    else []
  features file := if file = "src/unix.rs".toList then some (.enabled []) else none
  twinIds := pickTwins.map (·.id)
  gatedCallers := []

/-- A build for another system than Unix, with no features. -/
def plainBuild : Build where
  feature _ := false
  flag _ := false
  valued _ _ := false

theorem pick_defaultBuild : DefaultBuild pickIndexed [] plainBuild pickTwins where
  completes := by
    refine ⟨by simp [plainBuild, BuildProfile.withFeatures], ?_⟩
    intro name value h
    obtain ⟨before, after, hoptions, -⟩ := List.lookup_eq_some_iff.mp h
    have hmem : (name, value) ∈ (BuildProfile.withFeatures []).options := by simp [hoptions]
    obtain ⟨_, _, heq⟩ := List.mem_map.mp hmem
    exact (Prod.mk.inj heq).2
  features := by
    intro u hu file hfile e he
    simp only [pickIndexed, Option.ite_none_right_eq_some, Option.some.injEq,
      FileFeatures.enabled.injEq] at he
    simp [← he.2]
  ways := by
    intro u hu file hfile way hway
    simp only [pickIndexed] at hway
    split at hway
    · simp [List.mem_singleton.mp hway]
    · cases hway

theorem pick_caller : CallerCompiled (.load pickIndexed) plainBuild "src/lib.rs::main".toList := by
  intro gate hgate
  have hnone : gatesOf (.load pickIndexed) "src/lib.rs::main".toList = [] := by decide +kernel
  rw [hnone] at hgate
  cases hgate

theorem pick_selected : select (.load pickIndexed) "src/lib.rs::main".toList pickTwins =
    some ⟨"src/unix.rs::pick#cfg(not(feature=fast))".toList, "Function".toList,
      "src/unix.rs::pick#cfg(not(feature=fast))".toList⟩ := by
  decide +kernel

theorem select_sound_pick : GateTrue plainBuild "not(feature=fast)".toList :=
  (select_sound pickIndexed [] plainBuild "src/lib.rs::main".toList pickTwins _ pick_defaultBuild
    (by decide +kernel) pick_caller pick_selected).2.1 _ (by decide +kernel)

/-- The gate that the file inherits is not among what a choice promises: it is
false in a build in which the twin is chosen by its own gate. -/
theorem file_gate_of_choice_may_be_false : ¬∀ ix defaults b caller twins t,
    DefaultBuild ix defaults b twins → (∀ u ∈ twins, u.id = u.qualifiedName) →
    CallerCompiled (.load ix) b caller → select (.load ix) caller twins = some t →
    (∀ gate ∈ gatesOf (.load ix) t.qualifiedName, GateTrue b gate) ∧
      ∀ u ∈ twins, u ≠ t → ¬∀ gate ∈ gatesOf (.load ix) u.qualifiedName, GateTrue b gate := by
  intro h
  have hgates := (h pickIndexed [] plainBuild "src/lib.rs::main".toList pickTwins _
    pick_defaultBuild (by decide +kernel) pick_caller pick_selected).1
  have hmem : "unix".toList ∈ gatesOf (.load pickIndexed)
      "src/unix.rs::pick#cfg(not(feature=fast))".toList := by decide +kernel
  obtain ⟨p, hp, hholds⟩ := hgates _ hmem
  have hparse : parseCompact "unix".toList = some (.option "unix".toList none) := by decide +kernel
  obtain rfl := Option.some.inj (hparse.symm.trans hp)
  cases hholds

end AutomatisedPipeline.Cfg
