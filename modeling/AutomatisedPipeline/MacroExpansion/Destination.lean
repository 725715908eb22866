import AutomatisedPipeline.Text.Find

/-!
What a `write!` calls (`macro_expansion/scope.rs`, `macro_expansion/dispatch.rs`). The declared type
of the destination is placed by all imports that bind its name, and read by the first of them. Two
standard types under one alias therefore give a decision that depends on the order of the imports.
-/

namespace AutomatisedPipeline.MacroExpansion

open Text

/-! ### Where a type name comes from -/

/-- The separator of a path. -/
def pathSep : Str := "::".toList

/-- `last_segment`. -/
def lastSegment (path : Str) : Str := afterLast pathSep path

/-- `Import`: the name a `use` binds, and the path it stands for. -/
structure Import where
  name : Str
  path : Str
deriving DecidableEq, Repr

/-- `Import::new`. A glob binds no name. -/
def Import.new (path aliasName : Str) (isGlob : Bool) : Import :=
  { name := if isGlob then [] else if aliasName = [] then lastSegment path else aliasName
    path := path }

/-- `TypeOrigin`. -/
inductive TypeOrigin where
  | std | other | ambiguous | unknown
deriving DecidableEq, Repr

/-- `STD_ROOTS`. -/
def stdRoots : List Str := ["std".toList, "core".toList, "alloc".toList]

/-- `PRELUDE_TYPES`. -/
def preludeTypes : List Str := ["String".toList, "Vec".toList]

/-- `is_std_path`. -/
def isStdPath (path : Str) : Bool := beforeFirst pathSep path ∈ stdRoots

/-- `bound_origin`. -/
def boundOrigin (name : Str) (imports : List Import) : Option TypeOrigin :=
  match (imports.filter (·.name = name)).map fun i => isStdPath i.path with
  | [] => none
  | first :: origins =>
      if origins.any (· ≠ first) then some .ambiguous
      else some (if first then .std else .other)

/-- `type_origin`. -/
def typeOrigin (declared : Str) (imports : List Import) (definedInFile : Bool) : TypeOrigin :=
  if declared = [] then .unknown
  else
    match splitOnceAt pathSep declared with
    | some (root, _) =>
        if root ∈ stdRoots then .std else (boundOrigin root imports).getD .other
    | none =>
        if definedInFile then .other
        else
          match boundOrigin declared imports with
          | some origin => origin
          | none => if declared ∈ preludeTypes then .std else .unknown

/-- `original_name`. -/
def originalName (declared : Str) (imports : List Import) : Str :=
  if ¬ pathSep <:+: declared then
    match imports.find? (·.name = declared) with
    | some i => lastSegment i.path
    | none => lastSegment declared
  else lastSegment declared

/-! ### The decision -/

/-- `Alternative`. -/
structure Alternative where
  canonical : Str
  receiverTypes : List Str
deriving DecidableEq, Repr

/-- `Basis`. -/
inductive Basis where
  | receiverType | argShape
deriving DecidableEq, Repr

/-- `Decision`. -/
inductive Decision where
  | target (canonical : Str) (basis : Basis)
  | noStableTarget | calleeByArguments | typeNotDetermined
deriving DecidableEq, Repr

/-- `Destination`. -/
structure Destination where
  declared : Str
  definedInFile : Bool
deriving DecidableEq, Repr

/-- `WRITE_FMT_ALTERNATIVES`. -/
def writeFmtAlternatives : List Alternative :=
  [{ canonical := "core::fmt::Formatter::write_fmt".toList
     receiverTypes := ["Formatter".toList] },
   { canonical := "std::fmt::Write::write_fmt".toList
     receiverTypes := ["String".toList] },
   { canonical := "std::io::Write::write_fmt".toList
     receiverTypes := ["File", "BufWriter", "LineWriter", "Stdout", "StdoutLock", "Stderr",
       "StderrLock", "Vec", "Cursor", "TcpStream", "ChildStdin", "Sink"].map String.toList }]

/-- `decide_by_receiver`. -/
def decideByReceiver (alternatives : List Alternative) (dest : Destination)
    (imports : List Import) : Decision :=
  if typeOrigin dest.declared imports dest.definedInFile ≠ .std then .typeNotDetermined
  else
    match alternatives.filter (originalName dest.declared imports ∈ ·.receiverTypes) with
    | [only] => .target only.canonical .receiverType
    | _ => .typeNotDetermined

/-! ### Agreeing evidence -/

/-- The name of the scope a declared type is looked up with: the root of a path, or a bare name. -/
def usedName (declared : Str) : Str :=
  match splitOnceAt pathSep declared with
  | some (root, _) => root
  | none => declared

/-- The type that an import makes of the declared one: for a bare name the last segment of the path
bound to it, for a path its own last segment. -/
def readBy (declared : Str) (i : Import) : Str :=
  match splitOnceAt pathSep declared with
  | some _ => lastSegment declared
  | none => lastSegment i.path

/-- The target that a type's own name selects, if exactly one alternative lists it. -/
def selected (alternatives : List Alternative) (name : Str) : Option Str :=
  match alternatives.filter (name ∈ ·.receiverTypes) with
  | [only] => some only.canonical
  | _ => none

variable {alternatives : List Alternative} {dest : Destination} {imports : List Import}

/-- The decision does not depend on the order of the imports, and a target is named only where each
binding of the name stands for a standard path and selects that target. -/
structure Agreed (alternatives : List Alternative) (dest : Destination) (imports : List Import) :
    Prop where
  order : ∀ imports', imports.Perm imports' →
    decideByReceiver alternatives dest imports' = decideByReceiver alternatives dest imports
  evidence : ∀ canonical basis,
    decideByReceiver alternatives dest imports = .target canonical basis →
      ∀ i ∈ imports, i.name = usedName dest.declared →
        isStdPath i.path ∧ selected alternatives (readBy dest.declared i) = some canonical

/-- The imports allow one reading of the declared type. A bare name that is only bound to standard
paths selects alike by each of them; a path that starts in a standard crate and selects a target
does so with no import that binds the crate's name to something else. -/
structure OneReading (alternatives : List Alternative) (dest : Destination)
    (imports : List Import) : Prop where
  bare : splitOnceAt pathSep dest.declared = none → dest.declared ≠ [] →
    dest.definedInFile = false →
      (∀ i ∈ imports, i.name = dest.declared → isStdPath i.path) →
        ∀ i ∈ imports, i.name = dest.declared → ∀ j ∈ imports, j.name = dest.declared →
          selected alternatives (lastSegment i.path) = selected alternatives (lastSegment j.path)
  root : ∀ root rest, splitOnceAt pathSep dest.declared = some (root, rest) → root ∈ stdRoots →
    selected alternatives (lastSegment dest.declared) ≠ none →
      ∀ i ∈ imports, i.name = root → isStdPath i.path

/-! ### What the imports decide -/

/-- What a selection decides. -/
def decideOf : Option Str → Decision
  | some canonical => .target canonical .receiverType
  | none => .typeNotDetermined

theorem decideOf_injective : Function.Injective decideOf := by
  intro a b h
  cases a <;> cases b <;> simp_all [decideOf]

theorem decideOf_eq_target_iff {choice : Option Str} {canonical : Str} {basis : Basis} :
    decideOf choice = .target canonical basis ↔
      choice = some canonical ∧ basis = .receiverType := by
  cases choice with
  | none => simp [decideOf]
  | some c => simp [decideOf, eq_comm]

theorem decideByReceiver_eq (alternatives : List Alternative) (dest : Destination)
    (imports : List Import) : decideByReceiver alternatives dest imports =
      if typeOrigin dest.declared imports dest.definedInFile ≠ .std then .typeNotDetermined
      else decideOf (selected alternatives (originalName dest.declared imports)) := by
  rw [decideByReceiver, selected]
  split_ifs
  · rfl
  · cases alternatives.filter (originalName dest.declared imports ∈ ·.receiverTypes) with
    | nil => rfl
    | cons only rest => cases rest <;> rfl

/-- What the kinds of a name's paths say, whatever their order. -/
theorem origins_eq (first : Bool) (origins : List Bool) :
    (if origins.any (· ≠ first) then TypeOrigin.ambiguous else if first then .std else .other) =
      if ∀ o ∈ first :: origins, o = true then .std
      else if ∀ o ∈ first :: origins, o = false then .other else .ambiguous := by
  by_cases hsame : ∀ o ∈ origins, o = first
  · have hany : origins.any (· ≠ first) = false := by
      rw [List.any_eq_false]
      intro o ho
      simpa using hsame o ho
    have hall : ∀ o ∈ first :: origins, o = first := List.forall_mem_cons.mpr ⟨rfl, hsame⟩
    rw [hany]
    cases first with
    | true =>
        rw [if_pos hall]
        rfl
    | false =>
        have hnot : ¬ ∀ o ∈ false :: origins, o = true := fun h => by
          cases h false List.mem_cons_self
        rw [if_neg hnot, if_pos hall]
        rfl
  · have hany : origins.any (· ≠ first) = true := by
      rw [List.any_eq_true]
      push Not at hsame
      obtain ⟨o, ho, hne⟩ := hsame
      exact ⟨o, ho, decide_eq_true hne⟩
    have hmixed : ∀ b : Bool, ¬ ∀ o ∈ first :: origins, o = b := by
      intro b h
      refine hsame fun o ho => ?_
      rw [h o (List.mem_cons_of_mem _ ho), h first List.mem_cons_self]
    rw [if_pos hany, if_neg (hmixed true), if_neg (hmixed false)]

/-- The origin of a name depends on which kinds of paths it is bound to. -/
theorem boundOrigin_eq (name : Str) (imports : List Import) : boundOrigin name imports =
    if ∀ i ∈ imports, i.name ≠ name then none
    else some (if ∀ i ∈ imports, i.name = name → isStdPath i.path = true then .std
      else if ∀ i ∈ imports, i.name = name → isStdPath i.path = false then .other
      else .ambiguous) := by
  have hnone : (∀ i ∈ imports, i.name ≠ name) ↔
      (imports.filter (·.name = name)).map (fun i => isStdPath i.path) = [] := by
    simp
  have hall (b : Bool) : (∀ i ∈ imports, i.name = name → isStdPath i.path = b) ↔
      ∀ o ∈ (imports.filter (·.name = name)).map (fun i => isStdPath i.path), o = b := by
    rw [List.forall_mem_map]
    simp only [List.mem_filter, decide_eq_true_iff, and_imp]
  simp only [boundOrigin, hnone, hall]
  cases (imports.filter (·.name = name)).map (fun i => isStdPath i.path) with
  | nil => rfl
  | cons first origins =>
      rw [if_neg (List.cons_ne_nil first origins), ← origins_eq]
      dsimp only
      split_ifs <;> rfl

theorem boundOrigin_perm {imports' : List Import} (h : imports.Perm imports') (name : Str) :
    boundOrigin name imports' = boundOrigin name imports := by
  simp only [boundOrigin_eq, h.mem_iff]

theorem typeOrigin_perm {imports' : List Import} (h : imports.Perm imports') (declared : Str)
    (definedInFile : Bool) :
    typeOrigin declared imports' definedInFile = typeOrigin declared imports definedInFile := by
  simp only [typeOrigin, boundOrigin_perm h]

/-- A name is placed in the standard library by its bindings exactly if it has some and all of them
are standard paths. -/
theorem boundOrigin_eq_std_iff {name : Str} : boundOrigin name imports = some .std ↔
    (∃ i ∈ imports, i.name = name) ∧ ∀ i ∈ imports, i.name = name → isStdPath i.path := by
  rw [boundOrigin_eq]
  split_ifs with hnone hstd hother
  · refine iff_of_false (by simp) ?_
    rintro ⟨⟨i, hi, heq⟩, -⟩
    exact hnone i hi heq
  · push Not at hnone
    exact iff_of_true rfl ⟨hnone, hstd⟩
  · exact iff_of_false (by simp) fun h => hstd h.2
  · exact iff_of_false (by simp) fun h => hstd h.2

/-! ### Paths -/

theorem splitOnceAt_eq_none_iff {sep t : Str} : splitOnceAt sep t = none ↔ ¬ sep <:+: t := by
  rw [splitOnceAt, Option.map_eq_none_iff, find_eq_none_iff]

section Path

variable {root rest : Str} (hsplit : splitOnceAt pathSep dest.declared = some (root, rest))

include hsplit

theorem originalName_path (imports : List Import) :
    originalName dest.declared imports = lastSegment dest.declared := by
  rw [originalName, if_neg]
  rw [← splitOnceAt_eq_none_iff, hsplit]
  exact Option.some_ne_none _

theorem typeOrigin_path (imports : List Import) :
    typeOrigin dest.declared imports dest.definedInFile =
      if root ∈ stdRoots then .std else (boundOrigin root imports).getD .other := by
  have hne : dest.declared ≠ [] := by
    intro hnil
    rw [hnil] at hsplit
    cases hsplit
  rw [typeOrigin, if_neg hne, hsplit]

/-- A path is placed by its root and read by its last segment. -/
theorem agreed_path_iff : Agreed alternatives dest imports ↔
    (root ∈ stdRoots → selected alternatives (lastSegment dest.declared) ≠ none →
      ∀ i ∈ imports, i.name = root → isStdPath i.path) := by
  have hused : usedName dest.declared = root := by rw [usedName, hsplit]
  have hread : ∀ i, readBy dest.declared i = lastSegment dest.declared := by
    intro i
    rw [readBy, hsplit]
  have hdecide : ∀ imports, decideByReceiver alternatives dest imports =
      if typeOrigin dest.declared imports dest.definedInFile ≠ .std then .typeNotDetermined
      else decideOf (selected alternatives (lastSegment dest.declared)) := by
    intro imports
    rw [decideByReceiver_eq, originalName_path hsplit]
  constructor
  · intro hagreed hroot hselected i hi hname
    obtain ⟨canonical, hcanonical⟩ := Option.ne_none_iff_exists'.mp hselected
    refine (hagreed.evidence canonical .receiverType ?_ i hi (hname.trans hused.symm)).1
    rw [hdecide, typeOrigin_path hsplit, if_pos hroot, if_neg (not_not_intro rfl), hcanonical]
    rfl
  · intro hstd
    refine ⟨fun imports' hperm => ?_, fun canonical basis htarget i hi hname => ?_⟩
    · rw [hdecide, hdecide, typeOrigin_perm hperm]
    · rw [hdecide] at htarget
      split_ifs at htarget with horigin
      obtain ⟨hcanonical, -⟩ := decideOf_eq_target_iff.mp htarget
      rw [hread, hcanonical]
      refine ⟨?_, rfl⟩
      rw [hused] at hname
      by_cases hroot : root ∈ stdRoots
      · exact hstd hroot (by rw [hcanonical]; exact Option.some_ne_none _) i hi hname
      · rw [not_not, typeOrigin_path hsplit, if_neg hroot] at horigin
        have hbound : boundOrigin root imports = some .std := by
          cases hb : boundOrigin root imports with
          | none =>
              rw [hb] at horigin
              cases horigin
          | some origin =>
              rw [hb, Option.getD_some] at horigin
              rw [horigin]
        exact (boundOrigin_eq_std_iff.mp hbound).2 i hi hname

end Path

/-! ### Bare names -/

/-- A name that is not placed in the standard library decides nothing. -/
theorem agreed_of_not_std (h : typeOrigin dest.declared imports dest.definedInFile ≠ .std) :
    Agreed alternatives dest imports := by
  have hdecide : decideByReceiver alternatives dest imports = .typeNotDetermined := by
    rw [decideByReceiver_eq, if_pos h]
  refine ⟨fun imports' hperm => ?_, fun canonical basis htarget => ?_⟩
  · rw [hdecide, decideByReceiver_eq, typeOrigin_perm hperm, if_pos h]
  · rw [hdecide] at htarget
    cases htarget

section Bare

variable (hbare : splitOnceAt pathSep dest.declared = none)

include hbare

/-- The type is read by one of the imports that bind its name. -/
theorem originalName_bound (hbound : ∃ i ∈ imports, i.name = dest.declared) :
    ∃ i ∈ imports, i.name = dest.declared ∧
      originalName dest.declared imports = lastSegment i.path := by
  obtain ⟨i, hi, hname⟩ := hbound
  obtain ⟨first, hfirst⟩ := Option.isSome_iff_exists.mp
    (List.find?_isSome.mpr ⟨i, hi, decide_eq_true hname⟩ :
      (imports.find? (·.name = dest.declared)).isSome = true)
  refine ⟨first, List.mem_of_find?_eq_some hfirst, ?_, ?_⟩
  · simpa using List.find?_some hfirst
  · rw [originalName, if_pos (splitOnceAt_eq_none_iff.mp hbare), hfirst]

theorem originalName_free (hfree : ∀ i ∈ imports, i.name ≠ dest.declared) :
    originalName dest.declared imports = lastSegment dest.declared := by
  have hfind : imports.find? (·.name = dest.declared) = none := by
    rw [List.find?_eq_none]
    intro i hi
    simpa using hfree i hi
  rw [originalName, if_pos (splitOnceAt_eq_none_iff.mp hbare), hfind]

theorem originalName_cons {i : Import} (hname : i.name = dest.declared) (rest : List Import) :
    originalName dest.declared (i :: rest) = lastSegment i.path := by
  have hfind : (i :: rest).find? (·.name = dest.declared) = some i :=
    List.find?_cons_of_pos (decide_eq_true hname)
  rw [originalName, if_pos (splitOnceAt_eq_none_iff.mp hbare), hfind]

variable (hne : dest.declared ≠ []) (hdefined : dest.definedInFile = false)

include hne hdefined

/-- A bound name is placed by its bindings. -/
theorem typeOrigin_bound (hbound : ∃ i ∈ imports, i.name = dest.declared) :
    typeOrigin dest.declared imports dest.definedInFile = .std ↔
      ∀ i ∈ imports, i.name = dest.declared → isStdPath i.path := by
  have hiff : boundOrigin dest.declared imports = some .std ↔
      ∀ i ∈ imports, i.name = dest.declared → isStdPath i.path :=
    boundOrigin_eq_std_iff.trans (and_iff_right hbound)
  have hsome : boundOrigin dest.declared imports ≠ none := by
    obtain ⟨i, hi, hname⟩ := hbound
    rw [boundOrigin_eq, if_neg fun h => h i hi hname]
    exact Option.some_ne_none _
  obtain ⟨origin, horigin⟩ := Option.ne_none_iff_exists'.mp hsome
  rw [typeOrigin, if_neg hne, hbare, hdefined, ← hiff, horigin]
  simp

/-- A bare name is read alike by all imports in all orders exactly if all select alike where all
are standard paths. -/
theorem agreed_bare_iff : Agreed alternatives dest imports ↔
    ((∀ i ∈ imports, i.name = dest.declared → isStdPath i.path) →
      ∀ i ∈ imports, i.name = dest.declared → ∀ j ∈ imports, j.name = dest.declared →
        selected alternatives (lastSegment i.path) = selected alternatives (lastSegment j.path)) := by
  have hused : usedName dest.declared = dest.declared := by rw [usedName, hbare]
  have hread : ∀ i, readBy dest.declared i = lastSegment i.path := by
    intro i
    rw [readBy, hbare]
  by_cases hbound : ∃ i ∈ imports, i.name = dest.declared
  · have hplaced := typeOrigin_bound hbare hne hdefined hbound
    by_cases hstd : ∀ i ∈ imports, i.name = dest.declared → isStdPath i.path
    · have horigin := hplaced.mpr hstd
      have hdecide : ∀ imports', imports.Perm imports' → decideByReceiver alternatives dest imports' =
          decideOf (selected alternatives (originalName dest.declared imports')) := by
        intro imports' hperm
        rw [decideByReceiver_eq, typeOrigin_perm hperm, if_neg (not_not_intro horigin)]
      constructor
      · intro hagreed _ i hi hi' j hj hj'
        have hfirst : ∀ i ∈ imports, i.name = dest.declared →
            decideOf (selected alternatives (lastSegment i.path)) =
              decideByReceiver alternatives dest imports := by
          intro i hi hname
          have hperm := List.perm_cons_erase hi
          rw [← hagreed.order _ hperm, hdecide _ hperm, originalName_cons hbare hname]
        exact decideOf_injective ((hfirst i hi hi').trans (hfirst j hj hj').symm)
      · intro hsame
        have hsame := hsame hstd
        obtain ⟨first, hfirst, hfirstName, hfirstRead⟩ := originalName_bound hbare hbound
        refine ⟨fun imports' hperm => ?_, fun canonical basis htarget i hi hname => ?_⟩
        · have hbound' : ∃ i ∈ imports', i.name = dest.declared := by
            simpa only [hperm.mem_iff] using hbound
          obtain ⟨other, hother, hotherName, hotherRead⟩ := originalName_bound hbare hbound'
          rw [hdecide _ hperm, hdecide _ (.refl _), hfirstRead, hotherRead,
            hsame other (hperm.mem_iff.mpr hother) hotherName first hfirst hfirstName]
        · rw [hdecide _ (.refl _), hfirstRead] at htarget
          obtain ⟨hcanonical, -⟩ := decideOf_eq_target_iff.mp htarget
          rw [hused] at hname
          rw [hread, hsame i hi hname first hfirst hfirstName]
          exact ⟨hstd i hi hname, hcanonical⟩
    · exact iff_of_true (agreed_of_not_std (mt hplaced.mp hstd)) fun h => absurd h hstd
  · push Not at hbound
    refine iff_of_true ⟨fun imports' hperm => ?_, fun _ _ _ i hi hname => ?_⟩
      fun _ i hi hname => absurd hname (hbound i hi)
    · have hbound' : ∀ i ∈ imports', i.name ≠ dest.declared := by
        simpa only [hperm.mem_iff] using hbound
      rw [decideByReceiver_eq, decideByReceiver_eq, typeOrigin_perm hperm,
        originalName_free hbare hbound, originalName_free hbare hbound']
    · exact absurd (hname.trans hused) (hbound i hi)

end Bare

/-- The decision rests on agreeing evidence exactly if the imports allow one reading. -/
theorem agreed_iff : Agreed alternatives dest imports ↔ OneReading alternatives dest imports := by
  cases hsplit : splitOnceAt pathSep dest.declared with
  | some split =>
      obtain ⟨root, rest⟩ := split
      rw [agreed_path_iff hsplit]
      constructor
      · intro h
        refine ⟨fun hnone => ?_, fun root' rest' heq => ?_⟩
        · rw [hsplit] at hnone
          cases hnone
        · rw [hsplit] at heq
          cases heq
          exact h
      · exact fun h => h.root root rest hsplit
  | none =>
      have hroot : ∀ root rest, splitOnceAt pathSep dest.declared ≠ some (root, rest) := by
        intro root rest heq
        rw [hsplit] at heq
        cases heq
      by_cases hne : dest.declared = []
      · have hunknown : typeOrigin dest.declared imports dest.definedInFile ≠ .std := by
          rw [typeOrigin, if_pos hne]
          decide
        refine iff_of_true (agreed_of_not_std hunknown) ⟨fun _ h => absurd hne h, ?_⟩
        exact fun root rest heq => absurd heq (hroot root rest)
      · cases hdefined : dest.definedInFile with
        | true =>
            have hother : typeOrigin dest.declared imports dest.definedInFile ≠ .std := by
              rw [typeOrigin, if_neg hne, hsplit, hdefined]
              exact fun h => by cases h
            refine iff_of_true (agreed_of_not_std hother) ⟨fun _ _ h => ?_, ?_⟩
            · rw [hdefined] at h
              cases h
            · exact fun root rest heq => absurd heq (hroot root rest)
        | false =>
            rw [agreed_bare_iff hsplit hne hdefined]
            constructor
            · exact fun h => ⟨fun _ _ _ => h, fun root rest heq => absurd heq (hroot root rest)⟩
            · exact fun h => h.bare hsplit hne hdefined

/-- Two standard types under one alias, from two inline modules. -/
def twoAliases : List Import :=
  [.new "std::fs::File".toList ['F'] false, .new "std::fmt::Formatter".toList ['F'] false]

/-- The first of them decides. -/
theorem twoAliases_not_agreed : ¬ ∀ (dest : Destination) (imports : List Import),
    Agreed writeFmtAlternatives dest imports := by
  intro h
  have horder := (h ⟨['F'], false⟩ twoAliases).order twoAliases.reverse (List.reverse_perm _).symm
  exact absurd horder (by decide)

end AutomatisedPipeline.MacroExpansion
