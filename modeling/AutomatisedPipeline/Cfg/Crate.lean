import AutomatisedPipeline.Cfg.Eval
import AutomatisedPipeline.Cfg.ModuleTree

/-!
The module items of Rust files, as the compiler reads them and as `mod_decls` does
(`rust_mod_decls.rs`).

The compiler reads the attributes of an item under a `Reading`, which decides every
predicate. It follows the first `path` attribute that applies, goes into inline modules, and
looks for what a file declares by name beside the file when the file was found through a
`path` attribute. `mod_decls` keeps the items without a body at the top of a file, with the
attributes in the form of a `ModDecl`. A step of the compiler that `children` follows too is
`Seen`.
-/

namespace AutomatisedPipeline.Cfg

open Text

/-! ### Attributes -/

/-- The predicate of an attribute, or the text of one that does not parse. -/
inductive CfgText where
  | read (p : CfgPredicate)
  | unread (text : Str)

def CfgText.parsed : CfgText → Option CfgPredicate
  | .read p => some p
  | .unread _ => none

inductive Attribute where
  | cfg (pred : CfgText)
  | path (value : Str)
  | cfgAttr (pred : CfgText) (attributes : List Attribute)
  | other

/-- Induction with one hypothesis for every attribute of a `cfg_attr`. -/
theorem Attribute.induct {motive : Attribute → Prop} (cfg : ∀ pred, motive (.cfg pred))
    (path : ∀ value, motive (.path value))
    (cfgAttr : ∀ pred attributes, (∀ a ∈ attributes, motive a) → motive (.cfgAttr pred attributes))
    (other : motive .other) (a : Attribute) : motive a :=
  @Attribute.rec motive (fun attributes => ∀ a ∈ attributes, motive a) cfg path cfgAttr other
    (by simp) (fun _ _ ha hrest => List.forall_mem_cons.mpr ⟨ha, hrest⟩) a

/-! ### What the source records -/

mutual
/-- `cfg_attr_paths`, for one part: the predicate of a nested `cfg_attr` is not kept. -/
def Attribute.cfgAttrPaths (pred : Option CfgPredicate) : Attribute → List AltPath
  | .path value => [⟨pred, value⟩]
  | .cfgAttr _ attributes => cfgAttrPathsOf none attributes
  | .cfg _ => []
  | .other => []

/-- `cfg_attr_paths`. -/
def cfgAttrPathsOf (pred : Option CfgPredicate) : List Attribute → List AltPath
  | [] => []
  | a :: rest => a.cfgAttrPaths pred ++ cfgAttrPathsOf pred rest
end

/-- `record_attribute`. -/
def recordAttribute (decl : ModDecl) : Attribute → ModDecl
  | .cfg pred =>
      { decl with
        cfg :=
          match pred.parsed, decl.cfg with
          | some p, some all => some (all ++ [p])
          | _, _ => none }
  | .path value => { decl with pathAttr := some value }
  | .cfgAttr pred attributes =>
      { decl with altPaths := decl.altPaths ++ cfgAttrPathsOf pred.parsed attributes }
  | .other => decl

/-- `mod_decl`. -/
def modDecl (name : Str) (attributes : List Attribute) : ModDecl :=
  attributes.foldl recordAttribute { name := name, pathAttr := none, cfg := some [], altPaths := [] }

/-- A module item: `mod name;`, or `mod name { .. }` with the module items of its body. -/
inductive ModItem where
  | file (name : Str) (attributes : List Attribute)
  | inline (name : Str) (attributes : List Attribute) (items : List ModItem)

/-- `mod_decls`, of the items that stand in the file. -/
def modDecls (items : List ModItem) : List ModDecl :=
  items.filterMap fun
    | .file name attributes => some (modDecl name attributes)
    | .inline _ _ _ => none

/-! ### What the compiler reads -/

/-- A build, and the truth of the predicates that do not parse. -/
structure Reading where
  build : Build
  unread : Str → Bool

def CfgText.holds (r : Reading) : CfgText → Bool
  | .read p => p.holds r.build
  | .unread text => r.unread text

mutual
/-- The values of the `path` attributes that apply. -/
def Attribute.paths (r : Reading) : Attribute → List Str
  | .path value => [value]
  | .cfgAttr pred attributes => if pred.holds r then pathsOf r attributes else []
  | .cfg _ => []
  | .other => []

def pathsOf (r : Reading) : List Attribute → List Str
  | [] => []
  | a :: rest => a.paths r ++ pathsOf r rest
end

mutual
/-- No `cfg` attribute that applies is false. -/
def Attribute.active (r : Reading) : Attribute → Bool
  | .cfg pred => pred.holds r
  | .cfgAttr pred attributes => !pred.holds r || activeAll r attributes
  | .path _ => true
  | .other => true

def activeAll (r : Reading) : List Attribute → Bool
  | [] => true
  | a :: rest => a.active r && activeAll r rest
end

@[simp] theorem pathsOf_eq (r : Reading) (attributes : List Attribute) :
    pathsOf r attributes = attributes.flatMap (Attribute.paths r) := by
  induction attributes with
  | nil => rfl
  | cons a rest ih => rw [pathsOf, ih, List.flatMap_cons]

@[simp] theorem activeAll_eq (r : Reading) (attributes : List Attribute) :
    activeAll r attributes = attributes.all (Attribute.active r) := by
  induction attributes with
  | nil => rfl
  | cons a rest ih => rw [activeAll, ih, List.all_cons]

@[simp] theorem cfgAttrPathsOf_eq (pred : Option CfgPredicate) (attributes : List Attribute) :
    cfgAttrPathsOf pred attributes = attributes.flatMap (Attribute.cfgAttrPaths pred) := by
  induction attributes with
  | nil => rfl
  | cons a rest ih => rw [cfgAttrPathsOf, ih, List.flatMap_cons]

/-! ### The record of an item -/

/-- The value of a `path` attribute. -/
def Attribute.written : Attribute → List Str
  | .path value => [value]
  | _ => []

/-- The paths that a `cfg_attr` records. -/
def Attribute.recorded : Attribute → List AltPath
  | .cfgAttr pred attributes => cfgAttrPathsOf pred.parsed attributes
  | _ => []

/-- The paths that a `cfg_attr` gives under a reading. -/
def Attribute.given (r : Reading) : Attribute → List Str
  | .cfgAttr pred attributes => if pred.holds r then pathsOf r attributes else []
  | _ => []

theorem modDecl_concat (name : Str) (attributes : List Attribute) (a : Attribute) :
    modDecl name (attributes ++ [a]) = recordAttribute (modDecl name attributes) a := by
  simp [modDecl]

theorem name_modDecl (name : Str) (attributes : List Attribute) :
    (modDecl name attributes).name = name := by
  induction attributes using List.reverseRecOn with
  | nil => rfl
  | append_singleton attributes a ih => cases a <;> simp [modDecl_concat, recordAttribute, ih]

theorem altPaths_modDecl (name : Str) (attributes : List Attribute) :
    (modDecl name attributes).altPaths = attributes.flatMap Attribute.recorded := by
  induction attributes using List.reverseRecOn with
  | nil => rfl
  | append_singleton attributes a ih =>
      cases a <;> simp [modDecl_concat, recordAttribute, ih, Attribute.recorded]

theorem pathAttr_modDecl (name : Str) (attributes : List Attribute) :
    (modDecl name attributes).pathAttr = (attributes.flatMap Attribute.written).getLast? := by
  induction attributes using List.reverseRecOn with
  | nil => rfl
  | append_singleton attributes a ih =>
      cases a <;> simp [modDecl_concat, recordAttribute, ih, Attribute.written]

/-- The gate of a declaration holds under a reading, as far as it parsed. -/
def ModDecl.GateHolds (r : Reading) (decl : ModDecl) : Prop :=
  ∀ all, decl.cfg = some all → ∀ p ∈ all, p.holds r.build = true

theorem gateHolds_modDecl {r : Reading} {attributes : List Attribute}
    (h : activeAll r attributes = true) (name : Str) : (modDecl name attributes).GateHolds r := by
  induction attributes using List.reverseRecOn with
  | nil =>
      intro all hall p hp
      obtain rfl := Option.some.inj hall
      cases hp
  | append_singleton attributes a ih =>
      rw [activeAll_eq, List.all_append, Bool.and_eq_true, ← activeAll_eq] at h
      obtain ⟨hattributes, ha⟩ := h
      have ih := ih hattributes
      rw [modDecl_concat]
      cases a with
      | cfg pred =>
          intro all hall p hp
          cases pred with
          | unread text => cases hall
          | read q =>
              cases hcfg : (modDecl name attributes).cfg with
              | none => simp [recordAttribute, CfgText.parsed, hcfg] at hall
              | some all' =>
                  simp only [recordAttribute, CfgText.parsed, hcfg, Option.some.injEq] at hall
                  rw [← hall] at hp
                  rcases List.mem_append.mp hp with hp | hp
                  · exact ih all' hcfg p hp
                  · obtain rfl := List.mem_singleton.mp hp
                    simpa [Attribute.active, CfgText.holds] using ha
      | path value => exact ih
      | cfgAttr pred inner => exact ih
      | other => exact ih

/-! ### The alternatives of an item -/

/-- A recorded path keeps the predicate of the `cfg_attr` it stands in, or none. -/
theorem path_of_cfgAttrPaths {pred : Option CfgPredicate} {a : Attribute} {alt : AltPath}
    (h : alt ∈ a.cfgAttrPaths pred) {p : CfgPredicate} (hp : alt.pred = some p) :
    pred = some p ∧ a = .path alt.path := by
  induction a using Attribute.induct generalizing pred with
  | cfg pred' => simp [Attribute.cfgAttrPaths] at h
  | path value =>
      simp only [Attribute.cfgAttrPaths, List.mem_singleton] at h
      subst h
      exact ⟨hp, rfl⟩
  | cfgAttr pred' attributes ih =>
      rw [Attribute.cfgAttrPaths, cfgAttrPathsOf_eq, List.mem_flatMap] at h
      obtain ⟨a, ha, halt⟩ := h
      exact absurd (ih a ha halt).1 (by simp)
  | other => simp [Attribute.cfgAttrPaths] at h

/-- A path that applies is recorded, under the predicate of the outer `cfg_attr` or none. -/
theorem exists_cfgAttrPath {r : Reading} {a : Attribute} {value : Str} (h : value ∈ a.paths r)
    (pred : Option CfgPredicate) :
    ∃ alt ∈ a.cfgAttrPaths pred, alt.path = value ∧ (alt.pred = pred ∨ alt.pred = none) := by
  induction a using Attribute.induct generalizing pred with
  | cfg pred' => simp [Attribute.paths] at h
  | path written =>
      simp only [Attribute.paths, List.mem_singleton] at h
      subst h
      exact ⟨⟨pred, value⟩, by simp [Attribute.cfgAttrPaths], rfl, .inl rfl⟩
  | cfgAttr pred' attributes ih =>
      rw [Attribute.paths] at h
      split at h
      · rw [pathsOf_eq, List.mem_flatMap] at h
        obtain ⟨a, ha, hvalue⟩ := h
        obtain ⟨alt, halt, hpath, hpred⟩ := ih a ha hvalue none
        refine ⟨alt, ?_, hpath, .inr (hpred.elim id id)⟩
        rw [Attribute.cfgAttrPaths, cfgAttrPathsOf_eq, List.mem_flatMap]
        exact ⟨a, ha, halt⟩
      · cases h
  | other => simp [Attribute.paths] at h

/-- The paths that apply are those written on the item and those its `cfg_attr`s give. -/
theorem paths_perm (r : Reading) (attributes : List Attribute) :
    (attributes.flatMap Attribute.written ++ attributes.flatMap (Attribute.given r)).Perm
      (pathsOf r attributes) := by
  refine (List.flatMap_append_perm attributes _ _).trans (List.Perm.of_eq ?_)
  rw [pathsOf_eq]
  refine List.flatMap_congr fun a _ => ?_
  cases a <;> simp [Attribute.written, Attribute.given, Attribute.paths]

/-- A `cfg_attr` whose recorded predicate holds gives its path. -/
theorem given_of_recorded {r : Reading} {attributes : List Attribute} {alt : AltPath}
    (h : alt ∈ attributes.flatMap Attribute.recorded) {p : CfgPredicate} (hp : alt.pred = some p)
    (hholds : p.holds r.build = true) :
    alt.path ∈ attributes.flatMap (Attribute.given r) := by
  obtain ⟨a, ha, halt⟩ := List.mem_flatMap.mp h
  refine List.mem_flatMap.mpr ⟨a, ha, ?_⟩
  cases a with
  | cfgAttr pred inner =>
      rw [Attribute.recorded, cfgAttrPathsOf_eq, List.mem_flatMap] at halt
      obtain ⟨b, hb, halt⟩ := halt
      obtain ⟨hpred, rfl⟩ := path_of_cfgAttrPaths halt hp
      cases pred with
      | unread text => cases hpred
      | read q =>
          obtain rfl := Option.some.inj hpred
          rw [Attribute.given, CfgText.holds, if_pos hholds, pathsOf_eq, List.mem_flatMap]
          exact ⟨_, hb, by simp [Attribute.paths]⟩
  | cfg pred => cases halt
  | path value => cases halt
  | other => cases halt

/-- A path that a `cfg_attr` gives is recorded under a predicate that holds, or under none. -/
theorem exists_recorded {r : Reading} {attributes : List Attribute} {value : Str}
    (h : value ∈ attributes.flatMap (Attribute.given r)) :
    ∃ alt ∈ attributes.flatMap Attribute.recorded, alt.path = value ∧
      ∀ p, alt.pred = some p → p.holds r.build = true := by
  obtain ⟨a, ha, hvalue⟩ := List.mem_flatMap.mp h
  cases a with
  | cfgAttr pred inner =>
      rw [Attribute.given] at hvalue
      split at hvalue
      · rename_i hpred
        rw [pathsOf_eq, List.mem_flatMap] at hvalue
        obtain ⟨b, hb, hvalue⟩ := hvalue
        obtain ⟨alt, halt, hpath, hsame⟩ := exists_cfgAttrPath hvalue pred.parsed
        refine ⟨alt, List.mem_flatMap.mpr ⟨_, ha, ?_⟩, hpath, fun p hp => ?_⟩
        · rw [Attribute.recorded, cfgAttrPathsOf_eq, List.mem_flatMap]
          exact ⟨b, hb, halt⟩
        · rcases hsame with hsame | hnone
          · cases pred with
            | read q =>
                obtain rfl : p = q := Option.some.inj (hp.symm.trans hsame)
                exact hpred
            | unread text => cases hp.symm.trans hsame
          · cases hp.symm.trans hnone
      · cases hvalue
  | cfg pred => cases hvalue
  | path written => cases hvalue
  | other => cases hvalue

theorem gateHolds_gated {r : Reading} {decl : ModDecl} (h : decl.GateHolds r)
    {pred : Option CfgPredicate} (hpred : ∀ p, pred = some p → p.holds r.build = true)
    {all : List CfgPredicate} (hall : decl.gated pred = some all) : ∀ p ∈ all, p.holds r.build = true := by
  unfold ModDecl.gated at hall
  split at hall
  · rename_i own p hown
    obtain rfl := Option.some.inj hall
    intro q hq
    rcases List.mem_append.mp hq with hq | hq
    · exact h own hown q hq
    · exact List.mem_singleton.mp hq ▸ hpred p rfl
  · cases hall

theorem holds_noneApplies {r : Reading} {alts : List AltPath} {all : List CfgPredicate}
    (h : ∀ alt ∈ alts, ∀ p, alt.pred = some p → p.holds r.build = false)
    (hall : ModDecl.noneApplies alts = some all) : ∀ p ∈ all, p.holds r.build = true := by
  induction alts generalizing all with
  | nil =>
      obtain rfl := Option.some.inj hall
      simp
  | cons alt alts ih =>
      rw [ModDecl.noneApplies] at hall
      split at hall
      · rename_i p rest hp hrest
        obtain rfl := Option.some.inj hall
        refine List.forall_mem_cons.mpr ⟨?_, ih (fun a ha => h a (List.mem_cons_of_mem _ ha)) hrest⟩
        simp [CfgPredicate.holds, h alt List.mem_cons_self p hp]
      · cases hall

theorem gateHolds_fallback {r : Reading} {decl : ModDecl} (h : decl.GateHolds r)
    (hnone : ∀ alt ∈ decl.altPaths, ∀ p, alt.pred = some p → p.holds r.build = false)
    {all : List CfgPredicate} (hall : decl.fallbackCfg = some all) :
    ∀ p ∈ all, p.holds r.build = true := by
  unfold ModDecl.fallbackCfg at hall
  split at hall
  · rename_i own negated hown hnegated
    obtain rfl := Option.some.inj hall
    intro q hq
    rcases List.mem_append.mp hq with hq | hq
    · exact h own hown q hq
    · exact holds_noneApplies hnone hnegated q hq
  · cases hall

/-- Of an active item to which at most one `path` attribute applies, some alternative has
that path and a gate that holds. -/
theorem exists_alternative {r : Reading} {attributes : List Attribute}
    (hactive : activeAll r attributes = true) (hone : (pathsOf r attributes).length ≤ 1) (name : Str) :
    ∃ alternative ∈ (modDecl name attributes).alternatives, alternative.name = name ∧
      alternative.pathAttr = (pathsOf r attributes).head? ∧ alternative.GateHolds r := by
  have hgate := gateHolds_modDecl hactive name
  have hperm := paths_perm r attributes
  cases hgiven : attributes.flatMap (Attribute.given r) with
  | nil =>
      rw [hgiven, List.append_nil] at hperm
      have hnone : ∀ alt ∈ (modDecl name attributes).altPaths, ∀ p, alt.pred = some p →
          p.holds r.build = false := by
        intro alt halt p hp
        rw [altPaths_modDecl] at halt
        by_contra hholds
        have := given_of_recorded halt hp (by simpa using hholds)
        rw [hgiven] at this
        cases this
      have hpath : (modDecl name attributes).pathAttr = (pathsOf r attributes).head? := by
        rw [pathAttr_modDecl]
        rw [← hperm.length_eq] at hone
        match hwritten : attributes.flatMap Attribute.written, hone with
        | [], _ =>
            rw [hwritten] at hperm
            rw [List.nil_perm.mp hperm]
            rfl
        | [value], _ =>
            rw [hwritten] at hperm
            rw [← List.singleton_perm.mp hperm]
            rfl
      refine ⟨{ modDecl name attributes with
        cfg := (modDecl name attributes).fallbackCfg, altPaths := [] }, ?_, name_modDecl name _,
        hpath, fun all hall => gateHolds_fallback hgate hnone hall⟩
      exact List.mem_append_right _ (List.mem_singleton.mpr rfl)
  | cons value rest =>
      have hmem : value ∈ attributes.flatMap (Attribute.given r) := by simp [hgiven]
      obtain ⟨alt, halt, rfl, hpred⟩ := exists_recorded hmem
      have hhead : (pathsOf r attributes).head? = some alt.path := by
        have hin : alt.path ∈ pathsOf r attributes :=
          hperm.subset (List.mem_append_right _ hmem)
        match pathsOf r attributes, hone, hin with
        | [only], _, hin => rw [List.mem_singleton.mp hin]; rfl
      refine ⟨{
        name := (modDecl name attributes).name
        pathAttr := some alt.path
        cfg := (modDecl name attributes).gated alt.pred
        altPaths := [] }, ?_, name_modDecl name _, hhead.symm,
        fun all hall => gateHolds_gated hgate hpred hall⟩
      refine List.mem_append_left _ (List.mem_map.mpr ⟨alt, ?_, rfl⟩)
      rw [altPaths_modDecl]
      exact halt

end AutomatisedPipeline.Cfg
