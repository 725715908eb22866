import AutomatisedPipeline.Codec.Canonical
import AutomatisedPipeline.Resolver.NestedScope
import AutomatisedPipeline.Resolver.Reexport

/-!
What a one-segment type name of the caller's module refers to (`resolver/receiver/binding.rs`).

Six rules are read in the caller's module and, while it has only `use super::*` for the name, one
module up. `Answer` says what a rule gives in a module, `Climbs` when the next module is asked, and
`bind_rules` that `bind` gives the answer of the first module that has one.
-/

namespace AutomatisedPipeline.Receiver

open Text Resolver

/-! ### Written paths -/

/-- `WrittenPath`. Every reader of its paths asks whether any or all of them do something, so they
are a set here. -/
structure WrittenPath where
  callerFile : Str
  anchors : Finset Anchor
  item : Bool
deriving DecidableEq

/-- `WrittenPath::exact`. -/
def WrittenPath.exact (callerFile : Str) (anchor : Anchor) : WrittenPath :=
  { callerFile, anchors := {anchor}, item := false }

/-- `WrittenPath::following`. -/
def WrittenPath.following (facts : PathFacts) (callerFile : Str) (anchor : Anchor) :
    Option WrittenPath :=
  if anchor.written = [] then none
  else some { callerFile, anchors := (follow facts callerFile anchor).toFinset, item := false }

/-- `WrittenPath::imported`. -/
def WrittenPath.imported (facts : PathFacts) (callerFile : Str) (path : List Str) (written : Str) :
    Option WrittenPath :=
  (anchorIn facts.evidence none path (pathSegments written)).bind
    (WrittenPath.following facts callerFile)

/-! ### Scopes -/

/-- The loop of `inline_modules`. -/
def inlineModulesFrom (idx : SymbolIndex) : Str → List Str → List Str
  | _, [] => []
  | qn, segment :: segments =>
      match idx.byQn (qual qn segment) with
      | some entry =>
          if entry.label = .mod then segment :: inlineModulesFrom idx (qual qn segment) segments
          else []
      | none => []

/-- `inline_modules`. -/
def inlineModules (idx : SymbolIndex) (callerQn : Str) : List Str :=
  inlineModulesFrom idx (extractFilePrefixOrSelf callerQn)
    (scopeSegments (behindFile callerQn)).dropLast

/-- `caller_scope`. -/
def callerScope (idx : SymbolIndex) (callerQn : Str) : Str :=
  (inlineModules idx callerQn).foldl qual (extractFilePrefixOrSelf callerQn)

/-- `Level`: a module, from the crate root, and the scopes that declare its `use`s. -/
structure Level where
  path : List Str
  scopes : List Str
deriving DecidableEq

/-- `Defines`. -/
inductive Defines where
  | types
  | typesAndModules
deriving DecidableEq, Repr

/-- `Binding`. -/
inductive Binding where
  | byName
  | path (hint : Str) (written : WrittenPath) (fallback : Bool)
  | decline
deriving DecidableEq

/-- `TYPE_LABELS`, those that the index has. -/
def typeLabels : List SymbolLabel := [.struct, .enum, .typeAlias]

/-! ### The rules -/

/-- `distinct`: the paths of some rows, sorted and without repetition. -/
def distinct (rows : List ImportRow) : List Str := Codec.canonical id (rows.map ImportRow.path)

section Rules

variable (facts : PathFacts) (callerFile name : Str)

/-- `defined_in_scope`. -/
def definedInScope (scope : Str) : Bool :=
  (facts.idx.byName name).any fun e =>
    decide (e.label ∈ typeLabels) && parentQn e.qualifiedName == some scope

/-- `defined_at`. -/
def definedAt (path : List Str) : Bool :=
  (facts.idx.byName name).any fun e =>
    decide (e.label ∈ typeLabels) &&
      ((Anchor.splitLast (modulePathOf facts.evidence e.qualifiedName)).map Prod.fst == some path &&
        sameCrate facts.evidence callerFile (extractFilePrefixOrSelf e.qualifiedName))

/-- `defines_module`. -/
def definesModule (path : List Str) : Bool :=
  (facts.imports.moduleFiles (path ++ [name])).any (sameCrate facts.evidence callerFile)

/-- The closure `a_module` of `bind`. -/
def aModule (defines : Defines) (path : List Str) : Bool :=
  decide (defines = .typesAndModules) && definesModule facts callerFile name path

/-- `may_be_this_crate`. -/
def mayBeThisCrate (written : Str) : Bool :=
  !facts.evidence.known &&
    decide ((Impact.splitScope [] written).headD [] ∉ ["crate", "self", "super"].map String.toList)

/-- `defined_here`. -/
def definedHere (path : List Str) : Binding :=
  .path name (.exact callerFile (.crateRoot (path ++ [name]))) false

/-- `read`. -/
def read (path : List Str) (hint : Str) : Binding :=
  match WrittenPath.imported facts callerFile path hint with
  | some written => .path hint written (mayBeThisCrate facts hint)
  | none => .decline

/-- `in_repository`. -/
def inRepository (path : List Str) (glob : Str) : Bool :=
  match anchorIn facts.evidence none path (pathSegments glob) with
  | some (.crateRoot segments) =>
      (facts.imports.moduleFiles segments).any (sameCrate facts.evidence callerFile)
  | some (.library lib segments) =>
      (facts.imports.moduleFiles segments).any (libraryOwns facts.evidence lib)
  | _ => false

/-- The path that a glob gives the name, where it admits a candidate. -/
def globHit (admitsAny : Str → WrittenPath → Bool) (path : List Str) (glob : Str) :
    Option (Str × WrittenPath) :=
  (WrittenPath.imported facts callerFile path (qual glob name)).bind fun written =>
    if admitsAny (qual glob name) written then some (qual glob name, written) else none

/-- `through_globs`. -/
def throughGlobs (admitsAny : Str → WrittenPath → Bool) (path : List Str) (globs : List Str) :
    Binding :=
  match globs.filterMap (globHit facts callerFile name admitsAny path) with
  | [] =>
      if ¬ facts.evidence.known ∨ ∀ glob ∈ globs, inRepository facts callerFile path glob then .byName
      else .decline
  | [(hint, written)] => .path hint written (mayBeThisCrate facts hint)
  | _ :: _ :: _ => .decline

/-- The inline module around the one scope of a level, or its file. -/
def inlineParent (scopes : List Str) : Option Str :=
  match scopes with
  | [scope] => (parentQn scope).filter fun parent =>
      (extractFilePrefixOrSelf scope).length ≤ parent.length
  | _ => none

/-- `up`. -/
def up (level : Level) : Option Level :=
  if level.path = [] then none
  else
    let parent := level.path.dropLast
    some
      { path := parent
        scopes :=
          match inlineParent level.scopes with
          | some scope => [scope]
          | none => (facts.imports.scopesAt parent).filter fun scope =>
              sameCrate facts.evidence callerFile (extractFilePrefixOrSelf scope) }

/-- The rows of a level. -/
def rowsOf (level : Level) : List ImportRow := level.scopes.flatMap facts.imports.ofScope

/-- The loop of `bind`. -/
def bindFrom (admitsAny : Str → WrittenPath → Bool) (defines : Defines) :
    Nat → Bool → Level → Option Binding
  | 0, _, _ => none
  | fuel + 1, top, level =>
      if ¬ top ∧ (definedAt facts callerFile name level.path ∨
          aModule facts callerFile name defines level.path) then
        some (definedHere callerFile name level.path)
      else
        match distinct ((rowsOf facts level).filter fun row => ¬ row.isGlob ∧ row.binds = name) with
        | [written] => some (read facts callerFile level.path written)
        | _ :: _ :: _ => some .decline
        | [] =>
            let globs := distinct ((rowsOf facts level).filter (·.isGlob))
            if globs = [] then some .byName
            else if ∀ glob ∈ globs, glob = "super".toList then
              match up facts callerFile level with
              | none => some .decline
              | some parent => bindFrom admitsAny defines fuel false parent
            else some (throughGlobs facts callerFile name admitsAny level.path globs)

end Rules

/-- The module that `bind` starts in. -/
def startLevel (facts : PathFacts) (callerQn : Str) : Level :=
  { path := scopeModulePath facts.evidence (callerScope facts.idx callerQn)
    scopes := [callerScope facts.idx callerQn] }

/-- `bind`, with the bound of its loop. Every turn goes one module up. -/
def bindRun (facts : PathFacts) (callerQn name : Str) (admitsAny : Str → WrittenPath → Bool)
    (defines : Defines) : Option Binding :=
  let callerFile := extractFilePrefixOrSelf callerQn
  let level := startLevel facts callerQn
  if definedInScope facts name (callerScope facts.idx callerQn) ∨
      aModule facts callerFile name defines level.path then some .byName
  else bindFrom facts callerFile name admitsAny defines (level.path.length + 1) true level

/-- `bind`. -/
def bind (facts : PathFacts) (callerQn name : Str) (admitsAny : Str → WrittenPath → Bool)
    (defines : Defines) : Binding :=
  (bindRun facts callerQn name admitsAny defines).getD .decline

/-! ### The rules as documented -/

section Documented

variable (facts : PathFacts) (callerQn name : Str) (admitsAny : Str → WrittenPath → Bool)
  (defines : Defines)

/-- An explicit `use` of the level binds the name and writes this path. -/
def Explicit (level : Level) (written : Str) : Prop :=
  ∃ scope ∈ level.scopes, ∃ row ∈ facts.imports.ofScope scope,
    row.isGlob = false ∧ row.binds = name ∧ row.path = written

/-- The level has a glob of this path. -/
def Glob (level : Level) (written : Str) : Prop :=
  ∃ scope ∈ level.scopes, ∃ row ∈ facts.imports.ofScope scope,
    row.isGlob = true ∧ row.path = written

/-- The module defines the name: the caller's own module by its scope, and one above it anywhere
in the caller's crate. -/
def Defined (top : Bool) (level : Level) : Prop :=
  (if top then definedInScope facts name (callerScope facts.idx callerQn) = true
    else definedAt facts (extractFilePrefixOrSelf callerQn) name level.path = true) ∨
  aModule facts (extractFilePrefixOrSelf callerQn) name defines level.path = true

instance (top : Bool) (level : Level) :
    Decidable (Defined facts callerQn name defines top level) :=
  inferInstanceAs (Decidable ((if top then _ = true else _ = true) ∨ _ = true))

/-- Rule 4: nothing in the module but `use super::*` could bind the name. -/
def OnlySuper (top : Bool) (level : Level) : Prop :=
  ¬Defined facts callerQn name defines top level ∧ (∀ written, ¬Explicit facts name level written) ∧
    (∃ glob, Glob facts level glob) ∧ ∀ glob, Glob facts level glob → glob = "super".toList

/-- The next module is asked. -/
def Climbs (here above : Bool × Level) : Prop :=
  OnlySuper facts callerQn name defines here.1 here.2 ∧ above.1 = false ∧
    up facts (extractFilePrefixOrSelf callerQn) here.2 = some above.2

/-- A glob of the level admits a candidate for the name. -/
def Hit (level : Level) (found : Str × WrittenPath) : Prop :=
  ∃ glob, Glob facts level glob ∧
    globHit facts (extractFilePrefixOrSelf callerQn) name admitsAny level.path glob = some found

/-- Rule 5 is to be read: no explicit `use` binds the name, and some glob is not `super`. -/
def OtherGlobs (top : Bool) (level : Level) : Prop :=
  ¬Defined facts callerQn name defines top level ∧ (∀ written, ¬Explicit facts name level written) ∧
    ∃ glob, Glob facts level glob ∧ glob ≠ "super".toList

/-- What the rules give in a module that has an answer. -/
inductive Answer : Bool → Level → Binding → Prop
  | own {level : Level} : Defined facts callerQn name defines true level →
      Answer true level .byName
  | definition {level : Level} : Defined facts callerQn name defines false level →
      Answer false level (definedHere (extractFilePrefixOrSelf callerQn) name level.path)
  | explicit {top : Bool} {level : Level} {written : Str} :
      ¬Defined facts callerQn name defines top level → Explicit facts name level written →
      (∀ other, Explicit facts name level other → other = written) →
      Answer top level (read facts (extractFilePrefixOrSelf callerQn) level.path written)
  | conflict {top : Bool} {level : Level} {written other : Str} :
      ¬Defined facts callerQn name defines top level → Explicit facts name level written →
      Explicit facts name level other → written ≠ other → Answer top level .decline
  | pastRoot {top : Bool} {level : Level} : OnlySuper facts callerQn name defines top level →
      level.path = [] → Answer top level .decline
  | oneGlob {top : Bool} {level : Level} {hint : Str} {written : WrittenPath} :
      OtherGlobs facts callerQn name defines top level →
      Hit facts callerQn name admitsAny level (hint, written) →
      (∀ other, Hit facts callerQn name admitsAny level other → other = (hint, written)) →
      Answer top level (.path hint written (mayBeThisCrate facts hint))
  | severalGlobs {top : Bool} {level : Level} {found other : Str × WrittenPath} :
      OtherGlobs facts callerQn name defines top level →
      Hit facts callerQn name admitsAny level found →
      Hit facts callerQn name admitsAny level other → found ≠ other → Answer top level .decline
  | knownGlobs {top : Bool} {level : Level} : OtherGlobs facts callerQn name defines top level →
      (∀ found, ¬Hit facts callerQn name admitsAny level found) →
      (facts.evidence.known = false ∨ ∀ glob, Glob facts level glob →
        inRepository facts (extractFilePrefixOrSelf callerQn) level.path glob = true) →
      Answer top level .byName
  | foreignGlob {top : Bool} {level : Level} {glob : Str} :
      OtherGlobs facts callerQn name defines top level →
      (∀ found, ¬Hit facts callerQn name admitsAny level found) → facts.evidence.known = true →
      Glob facts level glob →
      inRepository facts (extractFilePrefixOrSelf callerQn) level.path glob = false →
      Answer top level .decline
  | nothing {top : Bool} {level : Level} : ¬Defined facts callerQn name defines top level →
      (∀ written, ¬Explicit facts name level written) → (∀ glob, ¬Glob facts level glob) →
      Answer top level .byName

end Documented

/-! ### What is read of a level -/

theorem eq_singleton_of_nodup {α : Type} {l : List α} {a : α} (hnodup : l.Nodup) (ha : a ∈ l)
    (h : ∀ b ∈ l, b = a) : l = [a] := by
  cases l with
  | nil => cases ha
  | cons b l =>
      obtain rfl := h b List.mem_cons_self
      cases l with
      | nil => rfl
      | cons c l =>
          have hc := h c (List.mem_cons_of_mem _ List.mem_cons_self)
          rw [hc] at hnodup
          exact absurd List.mem_cons_self (List.nodup_cons.mp hnodup).1

theorem exists_two_of_ne {α : Type} {l : List α} {a b : α} (ha : a ∈ l) (hb : b ∈ l) (h : a ≠ b) :
    ∃ x y rest, l = x :: y :: rest := by
  cases l with
  | nil => cases ha
  | cons x l =>
      cases l with
      | nil => exact absurd ((List.mem_singleton.mp ha).trans (List.mem_singleton.mp hb).symm) h
      | cons y l => exact ⟨x, y, l, rfl⟩

section Levels

variable {facts : PathFacts} {callerQn name : Str} {admitsAny : Str → WrittenPath → Bool}
  {defines : Defines}

theorem nodup_distinct (rows : List ImportRow) : (distinct rows).Nodup := by
  exact (Codec.canonical_strict Function.injective_id _).imp fun h => ne_of_lt h

theorem mem_distinct {rows : List ImportRow} {written : Str} :
    written ∈ distinct rows ↔ ∃ row ∈ rows, row.path = written := by
  rw [distinct, Codec.mem_canonical, List.mem_map]

theorem mem_explicit_iff {level : Level} {written : Str} :
    written ∈ distinct ((rowsOf facts level).filter fun row => ¬ row.isGlob ∧ row.binds = name) ↔
      Explicit facts name level written := by
  rw [mem_distinct, Explicit]
  simp only [List.mem_filter, rowsOf, List.mem_flatMap, decide_eq_true_iff, Bool.not_eq_true]
  constructor
  · rintro ⟨row, ⟨⟨scope, hscope, hrow⟩, hglob, hbinds⟩, hpath⟩
    exact ⟨scope, hscope, row, hrow, hglob, hbinds, hpath⟩
  · rintro ⟨scope, hscope, row, hrow, hglob, hbinds, hpath⟩
    exact ⟨row, ⟨⟨scope, hscope, hrow⟩, hglob, hbinds⟩, hpath⟩

theorem mem_globs_iff {level : Level} {written : Str} :
    written ∈ distinct ((rowsOf facts level).filter (·.isGlob)) ↔ Glob facts level written := by
  rw [mem_distinct, Glob]
  simp only [List.mem_filter, rowsOf, List.mem_flatMap]
  constructor
  · rintro ⟨row, ⟨⟨scope, hscope, hrow⟩, hglob⟩, hpath⟩
    exact ⟨scope, hscope, row, hrow, hglob, hpath⟩
  · rintro ⟨scope, hscope, row, hrow, hglob, hpath⟩
    exact ⟨row, ⟨⟨scope, hscope, hrow⟩, hglob⟩, hpath⟩

/-- Two globs never give one path. -/
theorem globHit_injective {callerFile : Str} {path : List Str} {glob glob' : Str}
    {found : Str × WrittenPath}
    (h : globHit facts callerFile name admitsAny path glob = some found)
    (h' : globHit facts callerFile name admitsAny path glob' = some found) : glob = glob' := by
  have hint : ∀ {glob}, globHit facts callerFile name admitsAny path glob = some found →
      found.1 = qual glob name := by
    intro glob h
    obtain ⟨written, -, h⟩ := Option.bind_eq_some_iff.mp h
    split at h
    · cases h
      rfl
    · cases h
  have heq := (hint h).symm.trans (hint h')
  rw [qual, qual, List.append_assoc, List.append_assoc] at heq
  exact List.append_cancel_right heq

theorem mem_hits_iff {level : Level} {found : Str × WrittenPath} :
    found ∈ (distinct ((rowsOf facts level).filter (·.isGlob))).filterMap
        (globHit facts (extractFilePrefixOrSelf callerQn) name admitsAny level.path) ↔
      Hit facts callerQn name admitsAny level found := by
  rw [List.mem_filterMap, Hit]
  simp only [mem_globs_iff]

theorem nodup_hits (level : Level) (callerFile : Str) :
    ((distinct ((rowsOf facts level).filter (·.isGlob))).filterMap
      (globHit facts callerFile name admitsAny level.path)).Nodup :=
  (nodup_distinct _).filterMap fun _ _ _ h h' => globHit_injective h h'

theorem up_eq_none_iff {callerFile : Str} {level : Level} :
    up facts callerFile level = none ↔ level.path = [] := by
  rw [up]
  split
  · rename_i hroot
    exact iff_of_true rfl hroot
  · rename_i hroot
    exact iff_of_false (Option.some_ne_none _) hroot

theorem path_of_up {callerFile : Str} {level parent : Level}
    (h : up facts callerFile level = some parent) :
    level.path ≠ [] ∧ parent.path = level.path.dropLast := by
  rw [up] at h
  split at h
  · cases h
  · rename_i hroot
    cases h
    exact ⟨hroot, rfl⟩

end Levels

/-! ### One turn -/

section Turn

variable {facts : PathFacts} {callerQn name : Str} {admitsAny : Str → WrittenPath → Bool}
  {defines : Defines} {top : Bool} {level : Level}

/-- A turn in a module that does not define the name. -/
theorem bindFrom_undefined (fuel : Nat) (h : ¬Defined facts callerQn name defines top level) :
    bindFrom facts (extractFilePrefixOrSelf callerQn) name admitsAny defines (fuel + 1) top level =
      match distinct ((rowsOf facts level).filter fun row => ¬ row.isGlob ∧ row.binds = name) with
      | [written] => some (read facts (extractFilePrefixOrSelf callerQn) level.path written)
      | _ :: _ :: _ => some .decline
      | [] =>
          let globs := distinct ((rowsOf facts level).filter (·.isGlob))
          if globs = [] then some .byName
          else if ∀ glob ∈ globs, glob = "super".toList then
            match up facts (extractFilePrefixOrSelf callerQn) level with
            | none => some .decline
            | some parent => bindFrom facts (extractFilePrefixOrSelf callerQn) name admitsAny
                defines fuel false parent
          else some (throughGlobs facts (extractFilePrefixOrSelf callerQn) name admitsAny
            level.path globs) := by
  rw [bindFrom, if_neg]
  rintro ⟨htop, hdefined⟩
  rw [Bool.not_eq_true] at htop
  subst htop
  exact h hdefined

theorem explicit_eq_nil (h : ∀ written, ¬Explicit facts name level written) :
    distinct ((rowsOf facts level).filter fun row => ¬ row.isGlob ∧ row.binds = name) = [] := by
  rw [List.eq_nil_iff_forall_not_mem]
  exact fun written hmem => h written (mem_explicit_iff.mp hmem)

theorem globs_ne_nil {glob : Str} (h : Glob facts level glob) :
    distinct ((rowsOf facts level).filter (·.isGlob)) ≠ [] :=
  List.ne_nil_of_mem (mem_globs_iff.mpr h)

/-- A turn in a module with nothing but `use super::*` for the name. -/
theorem bindFrom_super (fuel : Nat) (h : OnlySuper facts callerQn name defines top level) :
    bindFrom facts (extractFilePrefixOrSelf callerQn) name admitsAny defines (fuel + 1) top level =
      match up facts (extractFilePrefixOrSelf callerQn) level with
      | none => some .decline
      | some parent => bindFrom facts (extractFilePrefixOrSelf callerQn) name admitsAny defines
          fuel false parent := by
  obtain ⟨hdefined, hexplicit, ⟨glob, hglob⟩, hsuper⟩ := h
  rw [bindFrom_undefined fuel hdefined, explicit_eq_nil hexplicit]
  dsimp only
  rw [if_neg (globs_ne_nil hglob), if_pos fun other hother => hsuper other (mem_globs_iff.mp hother)]

/-- A turn in a module with other globs. -/
theorem bindFrom_globs (fuel : Nat) (h : OtherGlobs facts callerQn name defines top level) :
    bindFrom facts (extractFilePrefixOrSelf callerQn) name admitsAny defines (fuel + 1) top level =
      some (throughGlobs facts (extractFilePrefixOrSelf callerQn) name admitsAny level.path
        (distinct ((rowsOf facts level).filter (·.isGlob)))) := by
  obtain ⟨hdefined, hexplicit, glob, hglob, hother⟩ := h
  rw [bindFrom_undefined fuel hdefined, explicit_eq_nil hexplicit]
  dsimp only
  rw [if_neg (globs_ne_nil hglob), if_neg fun hsuper => hother (hsuper glob (mem_globs_iff.mpr hglob))]

/-- In a module that has an answer the turn gives it. -/
theorem bindFrom_answer (fuel : Nat) {binding : Binding}
    (h : Answer facts callerQn name admitsAny defines top level binding)
    (hown : top = true → ¬Defined facts callerQn name defines true level) :
    bindFrom facts (extractFilePrefixOrSelf callerQn) name admitsAny defines (fuel + 1) top level =
      some binding := by
  cases h with
  | own hdefined => exact absurd hdefined (hown rfl)
  | definition hdefined => rw [bindFrom, if_pos ⟨Bool.false_ne_true, hdefined⟩]
  | explicit hdefined hwritten hone =>
      have hsingle := eq_singleton_of_nodup (nodup_distinct _) (mem_explicit_iff.mpr hwritten)
        fun other hother => hone other (mem_explicit_iff.mp hother)
      rw [bindFrom_undefined fuel hdefined, hsingle]
  | conflict hdefined hwritten hother hne =>
      obtain ⟨x, y, rest, htwo⟩ := exists_two_of_ne (mem_explicit_iff.mpr hwritten)
        (mem_explicit_iff.mpr hother) hne
      rw [bindFrom_undefined fuel hdefined, htwo]
  | pastRoot hsuper hroot => rw [bindFrom_super fuel hsuper, up_eq_none_iff.mpr hroot]
  | oneGlob hglobs hhit hone =>
      have hsingle := eq_singleton_of_nodup (nodup_hits level _) (mem_hits_iff.mpr hhit)
        fun other hother => hone other (mem_hits_iff.mp hother)
      rw [bindFrom_globs fuel hglobs, throughGlobs, hsingle]
  | severalGlobs hglobs hhit hother hne =>
      obtain ⟨x, y, rest, htwo⟩ := exists_two_of_ne (mem_hits_iff.mpr hhit) (mem_hits_iff.mpr hother) hne
      rw [bindFrom_globs fuel hglobs, throughGlobs, htwo]
  | knownGlobs hglobs hnone hknown =>
      have hempty : List.filterMap _ _ = [] :=
        List.eq_nil_iff_forall_not_mem.mpr fun found hfound => hnone found (mem_hits_iff.mp hfound)
      rw [bindFrom_globs fuel hglobs, throughGlobs, hempty]
      dsimp only
      rw [if_pos (hknown.imp Bool.eq_false_iff.mp fun hall glob hglob =>
        hall glob (mem_globs_iff.mp hglob))]
  | foreignGlob hglobs hnone hknown hglob hforeign =>
      have hempty : List.filterMap _ _ = [] :=
        List.eq_nil_iff_forall_not_mem.mpr fun found hfound => hnone found (mem_hits_iff.mp hfound)
      rw [bindFrom_globs fuel hglobs, throughGlobs, hempty]
      dsimp only
      rw [if_neg]
      rintro (hunknown | hall)
      · exact hunknown hknown
      · rw [hall _ (mem_globs_iff.mpr hglob)] at hforeign
        cases hforeign
  | nothing hdefined hexplicit hglobs =>
      have hempty : distinct ((rowsOf facts level).filter (·.isGlob)) = [] :=
        List.eq_nil_iff_forall_not_mem.mpr fun glob hglob => hglobs glob (mem_globs_iff.mp hglob)
      rw [bindFrom_undefined fuel hdefined, explicit_eq_nil hexplicit]
      dsimp only
      rw [if_pos hempty]

/-- Rule 5 always has an answer. -/
theorem exists_answer_of_globs (h : OtherGlobs facts callerQn name defines top level) :
    ∃ binding, Answer facts callerQn name admitsAny defines top level binding := by
  by_cases hhit : ∃ found, Hit facts callerQn name admitsAny level found
  · obtain ⟨⟨hint, written⟩, hhit⟩ := hhit
    by_cases hone : ∀ other, Hit facts callerQn name admitsAny level other → other = (hint, written)
    · exact ⟨_, .oneGlob h hhit hone⟩
    · push Not at hone
      obtain ⟨other, hother, hne⟩ := hone
      exact ⟨_, .severalGlobs h hhit hother hne.symm⟩
  · have hnone := not_exists.mp hhit
    by_cases hknown : facts.evidence.known = false ∨ ∀ glob, Glob facts level glob →
        inRepository facts (extractFilePrefixOrSelf callerQn) level.path glob = true
    · exact ⟨_, .knownGlobs h hnone hknown⟩
    · push Not at hknown
      obtain ⟨hknown, glob, hglob, hforeign⟩ := hknown
      exact ⟨_, .foreignGlob h hnone (Bool.eq_true_of_not_eq_false hknown) hglob
        (Bool.eq_false_iff.mpr hforeign)⟩

/-- A module has an answer, or the next one is asked. -/
theorem answer_or_climbs (facts : PathFacts) (callerQn name : Str)
    (admitsAny : Str → WrittenPath → Bool) (defines : Defines) (top : Bool) (level : Level) :
    (∃ binding, Answer facts callerQn name admitsAny defines top level binding) ∨
      ∃ parent, Climbs facts callerQn name defines (top, level) (false, parent) := by
  by_cases hdefined : Defined facts callerQn name defines top level
  · cases top with
    | true => exact .inl ⟨_, .own hdefined⟩
    | false => exact .inl ⟨_, .definition hdefined⟩
  by_cases hexplicit : ∃ written, Explicit facts name level written
  · obtain ⟨written, hwritten⟩ := hexplicit
    by_cases hone : ∀ other, Explicit facts name level other → other = written
    · exact .inl ⟨_, .explicit hdefined hwritten hone⟩
    · push Not at hone
      obtain ⟨other, hother, hne⟩ := hone
      exact .inl ⟨_, .conflict hdefined hother hwritten hne⟩
  have hexplicit := not_exists.mp hexplicit
  by_cases hglob : ∃ glob, Glob facts level glob
  · by_cases hsuper : ∀ glob, Glob facts level glob → glob = "super".toList
    · have honly : OnlySuper facts callerQn name defines top level :=
        ⟨hdefined, hexplicit, hglob, hsuper⟩
      cases hup : up facts (extractFilePrefixOrSelf callerQn) level with
      | none => exact .inl ⟨_, .pastRoot honly (up_eq_none_iff.mp hup)⟩
      | some parent => exact .inr ⟨parent, honly, rfl, hup⟩
    · push Not at hsuper
      exact .inl (exists_answer_of_globs ⟨hdefined, hexplicit, hsuper⟩)
  · exact .inl ⟨_, .nothing hdefined hexplicit (not_exists.mp hglob)⟩

end Turn

/-! ### The walk up -/

section Walk

variable {facts : PathFacts} {callerQn name : Str} {admitsAny : Str → WrittenPath → Bool}
  {defines : Defines}

theorem Climbs.path {here above : Bool × Level} (h : Climbs facts callerQn name defines here above) :
    above.2.path.length < here.2.path.length ∧ above.2.path <+: here.2.path := by
  obtain ⟨hne, hpath⟩ := path_of_up h.2.2
  rw [hpath, List.length_dropLast]
  have hpos := List.length_pos_of_ne_nil hne
  exact ⟨by omega, List.dropLast_prefix _⟩

/-- The walk only goes as far as the root of the crate. -/
theorem prefix_of_reached {here above : Bool × Level}
    (h : Relation.ReflTransGen (Climbs facts callerQn name defines) here above) :
    above.2.path <+: here.2.path := by
  induction h with
  | refl => exact List.prefix_rfl
  | tail _ hstep ih => exact hstep.path.2.trans ih

/-- Some module on the way has an answer. -/
theorem exists_answer (facts : PathFacts) (callerQn name : Str)
    (admitsAny : Str → WrittenPath → Bool) (defines : Defines) (here : Bool × Level) :
    ∃ above binding, Relation.ReflTransGen (Climbs facts callerQn name defines) here above ∧
      Answer facts callerQn name admitsAny defines above.1 above.2 binding := by
  obtain ⟨top, level⟩ := here
  induction hlen : level.path.length using Nat.strong_induction_on generalizing top level with
  | h n ih =>
      rcases answer_or_climbs facts callerQn name admitsAny defines top level with
        ⟨binding, hanswer⟩ | ⟨parent, hclimbs⟩
      · exact ⟨(top, level), binding, .refl, hanswer⟩
      · have hlt := hclimbs.path.1
        obtain ⟨above, binding, hreach, hanswer⟩ := ih _ (hlen ▸ hlt) false parent rfl
        exact ⟨above, binding, hreach.head hclimbs, hanswer⟩

/-- The loop gives the answer of the module it gets to. -/
theorem bindFrom_of_reached {here above : Bool × Level} {binding : Binding} {fuel : Nat}
    (hreach : Relation.ReflTransGen (Climbs facts callerQn name defines) here above)
    (hanswer : Answer facts callerQn name admitsAny defines above.1 above.2 binding)
    (hown : here.1 = true → ¬Defined facts callerQn name defines true here.2)
    (hfuel : here.2.path.length < fuel) :
    bindFrom facts (extractFilePrefixOrSelf callerQn) name admitsAny defines fuel here.1 here.2 =
      some binding := by
  induction hreach using Relation.ReflTransGen.head_induction_on generalizing fuel with
  | refl =>
      obtain ⟨fuel, rfl⟩ := Nat.exists_eq_add_one_of_ne_zero (Nat.ne_of_gt (Nat.zero_lt_of_lt hfuel))
      exact bindFrom_answer fuel hanswer hown
  | @head here next hstep _ ih =>
      obtain ⟨fuel, rfl⟩ := Nat.exists_eq_add_one_of_ne_zero (Nat.ne_of_gt (Nat.zero_lt_of_lt hfuel))
      have hlt := hstep.path.1
      obtain ⟨hsuper, hfalse, hup⟩ := hstep
      rw [bindFrom_super fuel hsuper, hup]
      dsimp only
      rw [← hfalse]
      exact ih (fun htrue => absurd (hfalse.symm.trans htrue) Bool.false_ne_true) (by omega)

theorem bindRun_of_reached {above : Bool × Level} {binding : Binding}
    (hreach : Relation.ReflTransGen (Climbs facts callerQn name defines)
      (true, startLevel facts callerQn) above)
    (hanswer : Answer facts callerQn name admitsAny defines above.1 above.2 binding) :
    bindRun facts callerQn name admitsAny defines = some binding := by
  rw [bindRun]
  split
  · rename_i hdefined
    have hdefined : Defined facts callerQn name defines true (startLevel facts callerQn) := hdefined
    -- nothing is reached from a module that defines the name
    rcases Relation.ReflTransGen.cases_head hreach with rfl | ⟨next, hstep, -⟩
    · generalize hlevel : startLevel facts callerQn = level at hanswer hdefined
      cases hanswer with
      | own _ => rfl
      | explicit hnot _ _ => exact absurd hdefined hnot
      | conflict hnot _ _ _ => exact absurd hdefined hnot
      | pastRoot hsuper _ => exact absurd hdefined hsuper.1
      | oneGlob hglobs _ _ => exact absurd hdefined hglobs.1
      | severalGlobs hglobs _ _ _ => exact absurd hdefined hglobs.1
      | knownGlobs hglobs _ _ => exact absurd hdefined hglobs.1
      | foreignGlob hglobs _ _ _ _ => exact absurd hdefined hglobs.1
      | nothing hnot _ _ => exact absurd hdefined hnot
    · exact absurd hdefined hstep.1.1
  · rename_i hdefined
    exact bindFrom_of_reached hreach hanswer (fun _ => hdefined) (Nat.lt_succ_self _)

end Walk

/-! ### The order of the rows -/

/-- Imports with the same rows. -/
structure SameImports (idx : SymbolIndex) (evidence : CrateEvidence)
    (imports imports' : ModuleImports) : Prop where
  moduleFiles : ∀ path, imports.moduleFiles path = imports'.moduleFiles path
  ofScope : ∀ scope row, row ∈ imports.ofScope scope ↔ row ∈ imports'.ofScope scope
  scopesAt : ∀ path, (imports.scopesAt path).Perm (imports'.scopesAt path)
  follow : ∀ callerFile start anchor, anchor ∈ follow ⟨idx, evidence, imports⟩ callerFile start ↔
    anchor ∈ follow ⟨idx, evidence, imports'⟩ callerFile start

theorem sameImports_load (idx : SymbolIndex) (evidence : CrateEvidence) (names : List Str)
    {rows rows' : List (Str × ImportRow)} (h : rows'.Perm rows) :
    SameImports idx evidence (ModuleImports.load evidence names rows')
      (ModuleImports.load evidence names rows) := by
  obtain hreads' := reads_load_perm idx evidence names h
  obtain hreads := reads_load idx evidence names rows
  constructor
  · exact fun path => moduleFiles_load evidence names rows' rows path
  · intro scope row
    rw [hreads'.holds.ofScope, hreads.holds.ofScope]
  · intro path
    refine (List.perm_ext_iff_of_nodup (hreads'.holds.nodup path) (hreads.holds.nodup path)).mpr ?_
    intro scope
    rw [hreads'.holds.scopesAt, hreads.holds.scopesAt]
  · intro callerFile start anchor
    rw [hreads'.mem_follow_iff, hreads.mem_follow_iff]

section Same

variable {idx : SymbolIndex} {evidence : CrateEvidence} {imports imports' : ModuleImports}
  (h : SameImports idx evidence imports imports') (callerFile name : Str)
include h

theorem SameImports.imported (path : List Str) (written : Str) :
    WrittenPath.imported ⟨idx, evidence, imports⟩ callerFile path written =
      WrittenPath.imported ⟨idx, evidence, imports'⟩ callerFile path written := by
  have hfollow : WrittenPath.following ⟨idx, evidence, imports⟩ callerFile =
      WrittenPath.following ⟨idx, evidence, imports'⟩ callerFile := by
    funext anchor
    have hset : (Receiver.follow ⟨idx, evidence, imports⟩ callerFile anchor).toFinset =
        (Receiver.follow ⟨idx, evidence, imports'⟩ callerFile anchor).toFinset := by
      ext other
      rw [List.mem_toFinset, List.mem_toFinset]
      exact h.follow callerFile anchor other
    rw [WrittenPath.following, WrittenPath.following, hset]
  rw [WrittenPath.imported, WrittenPath.imported, hfollow]

theorem SameImports.read (path : List Str) (hint : Str) :
    read ⟨idx, evidence, imports⟩ callerFile path hint =
      read ⟨idx, evidence, imports'⟩ callerFile path hint := by
  rw [Receiver.read, Receiver.read, h.imported]
  rfl

theorem SameImports.aModule (defines : Defines) (path : List Str) :
    aModule ⟨idx, evidence, imports⟩ callerFile name defines path =
      aModule ⟨idx, evidence, imports'⟩ callerFile name defines path := by
  rw [Receiver.aModule, Receiver.aModule, definesModule, definesModule, h.moduleFiles]

theorem SameImports.throughGlobs (admitsAny : Str → WrittenPath → Bool) (path globs : List Str) :
    throughGlobs ⟨idx, evidence, imports⟩ callerFile name admitsAny path globs =
      throughGlobs ⟨idx, evidence, imports'⟩ callerFile name admitsAny path globs := by
  have hhit : globHit ⟨idx, evidence, imports⟩ callerFile name admitsAny path =
      globHit ⟨idx, evidence, imports'⟩ callerFile name admitsAny path := by
    funext glob
    rw [globHit, globHit, h.imported]
  have hin : inRepository ⟨idx, evidence, imports⟩ callerFile path =
      inRepository ⟨idx, evidence, imports'⟩ callerFile path := by
    funext glob
    rw [inRepository, inRepository]
    simp only [h.moduleFiles]
  rw [Receiver.throughGlobs, Receiver.throughGlobs, hhit, hin]
  rfl

theorem SameImports.distinct (scopes scopes' : List Str) (hscopes : scopes.Perm scopes')
    (path : List Str) (p : ImportRow → Bool) :
    distinct ((rowsOf ⟨idx, evidence, imports⟩ ⟨path, scopes⟩).filter p) =
      distinct ((rowsOf ⟨idx, evidence, imports'⟩ ⟨path, scopes'⟩).filter p) := by
  rw [Receiver.distinct, Receiver.distinct, Codec.canonical_eq_iff Function.injective_id]
  intro written
  simp only [List.mem_map, List.mem_filter, rowsOf, List.mem_flatMap, hscopes.mem_iff, h.ofScope]

theorem SameImports.up {scopes scopes' : List Str} (hscopes : scopes.Perm scopes')
    (path : List Str) :
    Option.Rel (fun parent parent' : Level =>
        parent.path = parent'.path ∧ parent.scopes.Perm parent'.scopes)
      (up ⟨idx, evidence, imports⟩ callerFile ⟨path, scopes⟩)
      (up ⟨idx, evidence, imports'⟩ callerFile ⟨path, scopes'⟩) := by
  have hinline : inlineParent scopes = inlineParent scopes' := by
    cases scopes with
    | nil => rw [List.nil_perm.mp hscopes]
    | cons scope rest =>
        cases rest with
        | nil => rw [List.singleton_perm.mp hscopes]
        | cons other rest =>
            have hlen := hscopes.length_eq
            rcases scopes' with _ | ⟨_, _ | ⟨_, _⟩⟩
            · simp at hlen
            · simp at hlen
            · rfl
  rw [Receiver.up, Receiver.up]
  dsimp only
  rw [hinline]
  by_cases hroot : path = []
  · rw [if_pos hroot, if_pos hroot]
    exact .none
  · rw [if_neg hroot, if_neg hroot]
    refine .some ⟨rfl, ?_⟩
    cases inlineParent scopes' with
    | some scope => exact .refl _
    | none => exact (h.scopesAt path.dropLast).filter _

/-- The loop does not depend on the order of the rows, nor on that of the scopes. -/
theorem SameImports.bindFrom (admitsAny : Str → WrittenPath → Bool) (defines : Defines)
    (fuel : Nat) (top : Bool) (path : List Str) {scopes scopes' : List Str}
    (hscopes : scopes.Perm scopes') :
    bindFrom ⟨idx, evidence, imports⟩ callerFile name admitsAny defines fuel top ⟨path, scopes⟩ =
      bindFrom ⟨idx, evidence, imports'⟩ callerFile name admitsAny defines fuel top
        ⟨path, scopes'⟩ := by
  induction fuel generalizing top path scopes scopes' with
  | zero => rfl
  | succ fuel ih =>
      have hup := h.up callerFile hscopes path
      rw [Receiver.bindFrom, Receiver.bindFrom]
      rw [h.aModule, h.distinct scopes scopes' hscopes path, h.distinct scopes scopes' hscopes path]
      simp only [h.read, h.throughGlobs]
      revert hup
      generalize Receiver.up ⟨idx, evidence, imports⟩ callerFile ⟨path, scopes⟩ = parent
      generalize Receiver.up ⟨idx, evidence, imports'⟩ callerFile ⟨path, scopes'⟩ = parent'
      intro hup
      cases hup with
      | none => rfl
      | some hparent =>
          rename_i level level'
          obtain ⟨above, aboveScopes⟩ := level
          obtain ⟨above', aboveScopes'⟩ := level'
          obtain ⟨hpath, hperm⟩ : above = above' ∧ aboveScopes.Perm aboveScopes' := hparent
          subst hpath
          have hnext := ih false above hperm
          dsimp only
          rw [hnext]
          rfl

theorem SameImports.bind (callerQn : Str) (admitsAny : Str → WrittenPath → Bool)
    (defines : Defines) :
    bind ⟨idx, evidence, imports⟩ callerQn name admitsAny defines =
      bind ⟨idx, evidence, imports'⟩ callerQn name admitsAny defines := by
  rw [Receiver.bind, Receiver.bind, bindRun, bindRun]
  dsimp only
  rw [h.aModule]
  have hloop := h.bindFrom (extractFilePrefixOrSelf callerQn) name admitsAny defines
    ((startLevel ⟨idx, evidence, imports⟩ callerQn).path.length + 1) true
    (startLevel ⟨idx, evidence, imports⟩ callerQn).path (List.Perm.refl [callerScope idx callerQn])
  refine congrArg (fun run : Option Binding => run.getD .decline) ?_
  by_cases hown : definedInScope ⟨idx, evidence, imports'⟩ name (callerScope idx callerQn) = true ∨
      Receiver.aModule ⟨idx, evidence, imports'⟩ (extractFilePrefixOrSelf callerQn) name defines
        (startLevel ⟨idx, evidence, imports⟩ callerQn).path = true
  · exact (if_pos hown).trans (if_pos hown).symm
  · exact ((if_neg hown).trans hloop).trans (if_neg hown).symm

end Same

/-! ### The binding -/

/-- A type name binds as the rules say: the loop ends, it asks the modules above the caller's own as
far as the root of the crate, and gives the answer of the first one that has one, whatever the order
of the rows. Where that module does not define the name and two explicit `use`s of different paths
bind it, the call declines. -/
theorem bind_rules (idx : SymbolIndex) (evidence : CrateEvidence) (names : List Str)
    (rows : List (Str × ImportRow)) (callerQn name : Str) (admitsAny : Str → WrittenPath → Bool)
    (defines : Defines) :
    let facts : PathFacts := ⟨idx, evidence, ModuleImports.load evidence names rows⟩
    let Reached : Bool → Level → Prop := fun top level => Relation.ReflTransGen
      (Climbs facts callerQn name defines) (true, startLevel facts callerQn) (top, level)
    (∃ binding, bindRun facts callerQn name admitsAny defines = some binding) ∧
    (∀ top level, Reached top level → level.path <+: (startLevel facts callerQn).path) ∧
    (∃ top level, Reached top level ∧ Answer facts callerQn name admitsAny defines top level
      (bind facts callerQn name admitsAny defines)) ∧
    (∀ top level binding, Reached top level →
      Answer facts callerQn name admitsAny defines top level binding →
        bind facts callerQn name admitsAny defines = binding) ∧
    (∀ top level written other, Reached top level → ¬Defined facts callerQn name defines top level →
      Explicit facts name level written → Explicit facts name level other → written ≠ other →
        bind facts callerQn name admitsAny defines = .decline) ∧
    ∀ rows' : List (Str × ImportRow), rows'.Perm rows →
      bind ⟨idx, evidence, ModuleImports.load evidence names rows'⟩ callerQn name admitsAny defines =
        bind facts callerQn name admitsAny defines := by
  intro facts Reached
  have hbind : ∀ top level binding, Reached top level →
      Answer facts callerQn name admitsAny defines top level binding →
        bind facts callerQn name admitsAny defines = binding := by
    intro top level binding hreach hanswer
    rw [bind, bindRun_of_reached hreach hanswer]
    rfl
  obtain ⟨⟨top, level⟩, binding, hreach, hanswer⟩ :=
    exists_answer facts callerQn name admitsAny defines (true, startLevel facts callerQn)
  refine ⟨⟨binding, bindRun_of_reached hreach hanswer⟩, ?_, ⟨top, level, hreach, ?_⟩, hbind, ?_, ?_⟩
  · exact fun top level hreach => prefix_of_reached hreach
  · rw [hbind top level binding hreach hanswer]
    exact hanswer
  · intro top level written other hreach hdefined hwritten hother hne
    exact hbind top level _ hreach (.conflict hdefined hwritten hother hne)
  · exact fun rows' hperm => (sameImports_load idx evidence names hperm).bind name callerQn
      admitsAny defines

/-- The root defines `Set` under one gate and imports it under two others. -/
def gatedRoot : List (Str × ImportRow) :=
  [("src/a.rs".toList, ⟨"super".toList, [], true⟩),
    ("src/lib.rs".toList, ⟨"x::Set".toList, [], false⟩),
    ("src/lib.rs".toList, ⟨"y::Set".toList, [], false⟩)]

def gatedFacts : PathFacts where
  idx := buildSymbolIndex fun label =>
    if label = .struct then [⟨"src/lib.rs::Set".toList, "Set".toList, "src/lib.rs::Set".toList⟩]
    else []
  evidence := ⟨false, [], [], [], []⟩
  imports := ModuleImports.load ⟨false, [], [], [], []⟩ [] gatedRoot

/-- One module up, a definition is named although two explicit `use`s bind the name there. -/
theorem not_bind_declines :
    let caller := "src/a.rs::f".toList
    let root : Level := ⟨[], ["src/lib.rs".toList]⟩
    Climbs gatedFacts caller "Set".toList .types (true, startLevel gatedFacts caller) (false, root) ∧
      Explicit gatedFacts "Set".toList root "x::Set".toList ∧
      Explicit gatedFacts "Set".toList root "y::Set".toList ∧
      bind gatedFacts caller "Set".toList (fun _ _ => true) .types =
        .path "Set".toList (.exact "src/a.rs".toList (.crateRoot ["Set".toList])) false := by
  intro caller root
  have hscopes : (startLevel gatedFacts caller).scopes = ["src/a.rs".toList] := by decide +kernel
  have hrows : gatedFacts.imports.ofScope "src/a.rs".toList = [⟨"super".toList, [], true⟩] := by
    decide +kernel
  have hroot : ∀ path, path ∈ ["x::Set".toList, "y::Set".toList] →
      Explicit gatedFacts "Set".toList root path := by
    intro path hpath
    refine ⟨"src/lib.rs".toList, List.mem_cons_self, ⟨path, [], false⟩, ?_, rfl, ?_, rfl⟩
    · revert path
      decide +kernel
    · revert path
      decide +kernel
  refine ⟨⟨⟨by decide +kernel, ?_, ⟨"super".toList, "src/a.rs".toList, ?_,
    ⟨"super".toList, [], true⟩, ?_, rfl, rfl⟩, ?_⟩, rfl, ?_⟩, hroot _ (by decide),
    hroot _ (by decide), by decide +kernel⟩
  · rintro written ⟨scope, hscope, row, hrow, hglob, -⟩
    rw [hscopes, List.mem_singleton] at hscope
    rw [hscope, hrows, List.mem_singleton] at hrow
    rw [hrow] at hglob
    cases hglob
  · rw [hscopes]
    exact List.mem_cons_self
  · rw [hrows]
    exact List.mem_cons_self
  · rintro glob ⟨scope, hscope, row, hrow, -, rfl⟩
    rw [hscopes, List.mem_singleton] at hscope
    rw [hscope, hrows, List.mem_singleton] at hrow
    rw [hrow]
  · decide +kernel

end AutomatisedPipeline.Receiver
