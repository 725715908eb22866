import AutomatisedPipeline.Resolver.TypeEdges

/-!
Which candidates a Rust call site can name when some of them are functions declared inside a
function body (`resolver/nested_scope.rs`).

The scopes around a caller are the prefixes of its qualified name. The code climbs them from the
caller outwards and stops at the first one that is no callable: what a callable further out
declares is then missed (`visibleCandidates_visible_iff`).
-/

namespace AutomatisedPipeline.Resolver

open Text

/-! ### The walk outwards -/

/-- `parent_qn`. -/
def parentQn (qn : Str) : Option Str := (rfind "::".toList qn).map qn.take

/-- The labels whose body can declare a nested function. -/
def callableLabels : List SymbolLabel := [.function, .method]

/-- `is_callable`. -/
def isCallable (idx : SymbolIndex) (qn : Str) : Bool :=
  match idx.byQn qn with
  | some entry => decide (entry.label ∈ callableLabels)
  | none => false

/-- `is_nested`. -/
def isNested (idx : SymbolIndex) (candidate : SymbolEntry) : Bool :=
  match parentQn candidate.qualifiedName with
  | some parent => isCallable idx parent
  | none => false

/-- The functions among the candidates that a scope declares. -/
def declaredIn (candidates : List SymbolEntry) (owner : Str) : List SymbolEntry :=
  candidates.filter fun c => c.label = .function ∧ parentQn c.qualifiedName = some owner

/-- The loop of `visible_candidates`. -/
def climb (idx : SymbolIndex) (candidates : List SymbolEntry) : Nat → Str → Option (List SymbolEntry)
  | 0, _ => none
  | fuel + 1, owner =>
      if ¬ isCallable idx owner then none
      else if declaredIn candidates owner ≠ [] then some (declaredIn candidates owner)
      else
        match parentQn owner with
        | none => none
        | some parent => climb idx candidates fuel parent

/-- `visible_candidates`. A scope is longer than the one around it, so the walk ends. -/
def visibleCandidates (idx : SymbolIndex) (candidates : List SymbolEntry) (callerQn : Str)
    (calleeIsPath : Bool) : List SymbolEntry :=
  let outer := candidates.filter fun c => ¬ isNested idx c
  if calleeIsPath then outer
  else (climb idx candidates (callerQn.length + 1) callerQn).getD outer

/-! ### Scopes -/

/-- A scope encloses a name: it is the name itself, or a scope around it. -/
def Encloses (scope qn : Str) : Prop :=
  Relation.ReflTransGen (fun qn parent => parentQn qn = some parent) qn scope

theorem length_of_parentQn {qn parent : Str} (h : parentQn qn = some parent) :
    parent.length < qn.length := by
  obtain ⟨i, hi, rfl⟩ := Option.map_eq_some_iff.mp h
  have hle : i + 2 ≤ qn.length := rfind_le hi
  rw [List.length_take]
  omega

theorem Encloses.length_le {scope qn : Str} (h : Encloses scope qn) : scope.length ≤ qn.length := by
  induction h with
  | refl => exact Nat.le_refl _
  | tail _ hparent ih => exact (length_of_parentQn hparent).le.trans ih

/-- A scope around the name is the name itself or one around its parent. -/
theorem encloses_iff {scope qn : Str} :
    Encloses scope qn ↔ scope = qn ∨ ∃ parent, parentQn qn = some parent ∧ Encloses scope parent := by
  rw [Encloses, Relation.ReflTransGen.cases_head_iff, eq_comm]
  rfl

section Visible

variable (idx : SymbolIndex) (candidates : List SymbolEntry) (caller : Str)

/-- The scope is a callable that encloses the caller and declares one of the candidates. -/
def Declares (owner : Str) : Prop :=
  Encloses owner caller ∧ isCallable idx owner ∧ declaredIn candidates owner ≠ []

/-- The innermost callable that encloses the caller and declares one of the candidates. -/
def Innermost (owner : Str) : Prop :=
  Declares idx candidates caller owner ∧
    ∀ other, Declares idx candidates caller other → Encloses other owner

/-- A call sees the functions of the innermost enclosing callable that declares the name. Where
there is none, and by a path, it sees the candidates that are not nested. -/
structure Visible (calleeIsPath : Bool) (seen : List SymbolEntry) : Prop where
  inner : calleeIsPath = false → ∀ owner, Innermost idx candidates caller owner →
    seen = declaredIn candidates owner
  outer : (calleeIsPath = true ∨ ∀ owner, ¬Declares idx candidates caller owner) →
    seen = candidates.filter fun c => ¬ isNested idx c
  enclosed : ∀ c ∈ seen, isNested idx c → ∃ owner, parentQn c.qualifiedName = some owner ∧
    Encloses owner caller

end Visible

section Climb

variable {idx : SymbolIndex} {candidates : List SymbolEntry} {caller : Str}

theorem Declares.of_parent {parent owner : Str} (hparent : parentQn caller = some parent)
    (h : Declares idx candidates parent owner) : Declares idx candidates caller owner :=
  ⟨encloses_iff.mpr (.inr ⟨parent, hparent, h.1⟩), h.2⟩

/-- A callable that declares the name and is not the caller encloses the parent. -/
theorem Declares.parent {owner : Str} (h : Declares idx candidates caller owner)
    (hne : owner ≠ caller) :
    ∃ parent, parentQn caller = some parent ∧ Declares idx candidates parent owner := by
  rcases encloses_iff.mp h.1 with heq | ⟨parent, hparent, hencloses⟩
  · exact absurd heq hne
  · exact ⟨parent, hparent, hencloses, h.2⟩

theorem Innermost.unique {owner other : Str} (h : Innermost idx candidates caller owner)
    (h' : Innermost idx candidates caller other) : owner = other := by
  have hle := (h.2 other h'.1)
  have hge := (h'.2 owner h.1)
  rcases encloses_iff.mp hle with heq | ⟨parent, hparent, hencloses⟩
  · exact heq.symm
  · have hlt := length_of_parentQn hparent
    have := hencloses.length_le
    have := hge.length_le
    omega

/-- The caller itself is the innermost one where it declares the name. -/
theorem innermost_self (h : Declares idx candidates caller caller) :
    Innermost idx candidates caller caller :=
  ⟨h, fun _ hother => hother.1⟩

/-- Where the caller declares nothing, the innermost one is that of its parent. -/
theorem innermost_parent {parent owner : Str} (hparent : parentQn caller = some parent)
    (hself : ¬Declares idx candidates caller caller) :
    Innermost idx candidates caller owner ↔ Innermost idx candidates parent owner := by
  have hdeclares : ∀ other, Declares idx candidates caller other ↔
      Declares idx candidates parent other := by
    intro other
    refine ⟨fun h => ?_, .of_parent hparent⟩
    have hne : other ≠ caller := by
      rintro rfl
      exact hself h
    obtain ⟨parent', hparent', h⟩ := h.parent hne
    rw [hparent] at hparent'
    obtain rfl := Option.some.inj hparent'
    exact h
  simp only [Innermost, hdeclares]

/-- Every scope from the caller to the owner is a callable. -/
def Unbroken (idx : SymbolIndex) (caller owner : Str) : Prop :=
  ∀ scope, Encloses scope caller → Encloses owner scope → isCallable idx scope

/-- From the caller to itself there is only the caller. -/
theorem unbroken_self (hcallable : isCallable idx caller) : Unbroken idx caller caller := by
  intro scope hscope howner
  rcases encloses_iff.mp hscope with rfl | ⟨parent, hparent, hscope⟩
  · exact hcallable
  · have hlt := length_of_parentQn hparent
    have hup := hscope.length_le
    have hdown := howner.length_le
    omega

/-- Behind a callable, the way goes on from its parent. -/
theorem unbroken_parent {parent owner : Str} (hparent : parentQn caller = some parent)
    (hcallable : isCallable idx caller) :
    Unbroken idx caller owner ↔ Unbroken idx parent owner := by
  constructor
  · intro h scope hscope howner
    exact h scope (encloses_iff.mpr (.inr ⟨parent, hparent, hscope⟩)) howner
  · intro h scope hscope howner
    rcases encloses_iff.mp hscope with rfl | ⟨parent', hparent', hscope⟩
    · exact hcallable
    · rw [hparent] at hparent'
      obtain rfl := Option.some.inj hparent'
      exact h scope hscope howner

/-- Without a parent and a declaration of its own, the caller has no innermost one. -/
theorem not_innermost_root {owner : Str} (hparent : parentQn caller = none)
    (hself : ¬Declares idx candidates caller caller) :
    ¬Innermost idx candidates caller owner := by
  intro hinner
  have hne : owner ≠ caller := by
    rintro rfl
    exact hself hinner.1
  obtain ⟨parent, hparent', -⟩ := hinner.1.parent hne
  rw [hparent] at hparent'
  cases hparent'

/-- The walk finds the innermost enclosing callable that declares the name exactly where it gets
there through callables. -/
theorem climb_eq_some {fuel : Nat} {found : List SymbolEntry} (hfuel : caller.length < fuel) :
    climb idx candidates fuel caller = some found ↔
      ∃ owner, Innermost idx candidates caller owner ∧ Unbroken idx caller owner ∧
        found = declaredIn candidates owner := by
  induction fuel generalizing caller with
  | zero => exact absurd hfuel (Nat.not_lt_zero _)
  | succ fuel ih =>
      rw [climb]
      by_cases hcallable : isCallable idx caller = true
      · rw [if_neg (not_not.mpr hcallable)]
        by_cases hdeclared : declaredIn candidates caller = []
        · rw [if_neg (not_not.mpr hdeclared)]
          have hself : ¬Declares idx candidates caller caller := fun h => h.2.2 hdeclared
          cases hparent : parentQn caller with
          | none =>
              refine iff_of_false (fun h => by cases h) ?_
              rintro ⟨owner, hinner, -⟩
              exact not_innermost_root hparent hself hinner
          | some parent =>
              have hlt := length_of_parentQn hparent
              rw [ih (by omega)]
              simp only [innermost_parent hparent hself, unbroken_parent hparent hcallable]
        · rw [if_pos hdeclared]
          have hinner := innermost_self ⟨.refl, hcallable, hdeclared⟩
          constructor
          · intro h
            exact ⟨caller, hinner, unbroken_self hcallable, (Option.some.inj h).symm⟩
          · rintro ⟨owner, howner, -, rfl⟩
            rw [hinner.unique howner]
      · rw [if_pos hcallable]
        refine iff_of_false (fun h => by cases h) ?_
        rintro ⟨owner, hinner, hunbroken, -⟩
        exact hcallable (hunbroken caller .refl hinner.1.1)

theorem isNested_of_mem_declaredIn {owner : Str} {c : SymbolEntry} (howner : isCallable idx owner)
    (h : c ∈ declaredIn candidates owner) :
    isNested idx c ∧ parentQn c.qualifiedName = some owner := by
  have hparent : parentQn c.qualifiedName = some owner :=
    (of_decide_eq_true (List.mem_filter.mp h).2).2
  refine ⟨?_, hparent⟩
  rw [isNested, hparent]
  exact howner

/-- What is not nested is nobody's nested function. -/
theorem enclosed_outer {c : SymbolEntry} (hc : c ∈ candidates.filter fun c => ¬ isNested idx c)
    (hnested : isNested idx c) :
    ∃ owner, parentQn c.qualifiedName = some owner ∧ Encloses owner caller :=
  absurd hnested (of_decide_eq_true (List.mem_filter.mp hc).2)

theorem enclosed_declaredIn {owner : Str} (hinner : Innermost idx candidates caller owner)
    {c : SymbolEntry} (hc : c ∈ declaredIn candidates owner) :
    ∃ owner, parentQn c.qualifiedName = some owner ∧ Encloses owner caller :=
  ⟨owner, (isNested_of_mem_declaredIn hinner.1.2.1 hc).2, hinner.1.1⟩

/-- What the innermost callable declares is what is to be seen. -/
theorem visible_declaredIn {owner : Str} (hinner : Innermost idx candidates caller owner) :
    Visible idx candidates caller false (declaredIn candidates owner) := by
  refine ⟨fun _ other hother => ?_, ?_, fun c hc _ => enclosed_declaredIn hinner hc⟩
  · rw [hinner.unique hother]
  · rintro (h | hnone)
    · cases h
    · exact absurd hinner.1 (hnone owner)

/-- What is not nested is to be seen where no enclosing callable declares the name. A declared
function is nested, so it is not to be seen elsewhere. -/
theorem visible_outer_iff :
    Visible idx candidates caller false (candidates.filter fun c => ¬ isNested idx c) ↔
      ∀ owner, ¬Innermost idx candidates caller owner := by
  constructor
  · intro h owner hinner
    have heq := h.inner rfl owner hinner
    obtain ⟨c, hc⟩ := List.exists_mem_of_ne_nil _ hinner.1.2.2
    have hnested := (isNested_of_mem_declaredIn hinner.1.2.1 hc).1
    rw [← heq] at hc
    exact absurd hnested (of_decide_eq_true (List.mem_filter.mp hc).2)
  · intro hnone
    exact ⟨fun _ owner hinner => absurd hinner (hnone owner), fun _ => rfl,
      fun c hc => enclosed_outer hc⟩

/-- An unqualified callee is seen as it should be exactly where every scope from the caller to the
innermost enclosing callable that declares the name is a callable. A nested function of a callable
that does not enclose the caller is never seen. -/
theorem visibleCandidates_visible_iff (idx : SymbolIndex) (candidates : List SymbolEntry)
    (caller : Str) (calleeIsPath : Bool) :
    (Visible idx candidates caller calleeIsPath
        (visibleCandidates idx candidates caller calleeIsPath) ↔
      calleeIsPath = true ∨ ∀ owner, Innermost idx candidates caller owner →
        Unbroken idx caller owner) ∧
    ∀ c ∈ visibleCandidates idx candidates caller calleeIsPath, isNested idx c →
      ∃ owner, parentQn c.qualifiedName = some owner ∧ Encloses owner caller := by
  cases calleeIsPath with
  | true =>
      rw [visibleCandidates, if_pos rfl]
      refine ⟨iff_of_true ⟨?_, fun _ => rfl, fun c hc => enclosed_outer hc⟩ (.inl rfl),
        fun c hc => enclosed_outer hc⟩
      intro h
      cases h
  | false =>
      rw [visibleCandidates, if_neg Bool.false_ne_true, or_iff_right Bool.false_ne_true]
      cases hclimb : climb idx candidates (caller.length + 1) caller with
      | some found =>
          obtain ⟨owner, hinner, hunbroken, rfl⟩ := (climb_eq_some (Nat.lt_succ_self _)).mp hclimb
          refine ⟨iff_of_true (visible_declaredIn hinner) fun other hother => ?_,
            fun c hc _ => enclosed_declaredIn hinner hc⟩
          rw [← hinner.unique hother]
          exact hunbroken
      | none =>
          refine ⟨visible_outer_iff.trans ?_, fun c hc => enclosed_outer hc⟩
          refine forall_congr' fun owner => ⟨fun hnot hinner => absurd hinner hnot, ?_⟩
          intro hunbroken hinner
          have hfound := (climb_eq_some (Nat.lt_succ_self _)).mpr
            ⟨owner, hinner, hunbroken hinner, rfl⟩
          rw [hclimb] at hfound
          cases hfound

/-- The index of a function with a local struct that has a method, and a function beside it. -/
def localStruct : SymbolLabel → List SymbolRow
  | .function =>
      ["f.rs::outer", "f.rs::outer::gcd", "g.rs::gcd"].map fun qn =>
        ⟨qn.toList, afterLast "::".toList qn.toList, qn.toList⟩
  | .method => [⟨"f.rs::outer::S::m".toList, ['m'], "f.rs::outer::S::m".toList⟩]
  | .struct => [⟨"f.rs::outer::S".toList, ['S'], "f.rs::outer::S".toList⟩]
  | _ => []

/-- The method of a local struct does not see the function beside the struct, but one of that name
in another file. -/
theorem not_visible_localStruct :
    let idx := buildSymbolIndex localStruct
    let candidates := idx.byName "gcd".toList
    let caller := "f.rs::outer::S::m".toList
    Innermost idx candidates caller "f.rs::outer".toList ∧
      (visibleCandidates idx candidates caller false).map SymbolEntry.qualifiedName =
        ["g.rs::gcd".toList] ∧
      ¬Visible idx candidates caller false (visibleCandidates idx candidates caller false) := by
  intro idx candidates caller
  have hstruct : parentQn caller = some "f.rs::outer::S".toList := by decide +kernel
  have houter : parentQn "f.rs::outer::S".toList = some "f.rs::outer".toList := by decide +kernel
  have hcaller : ¬Declares idx candidates caller caller := fun h =>
    h.2.2 (by decide +kernel)
  have hplain : ¬Declares idx candidates "f.rs::outer::S".toList "f.rs::outer::S".toList := fun h =>
    h.2.2 (by decide +kernel)
  have hinner : Innermost idx candidates caller "f.rs::outer".toList := by
    rw [innermost_parent hstruct hcaller, innermost_parent houter hplain]
    exact innermost_self ⟨.refl, by decide +kernel, by decide +kernel⟩
  refine ⟨hinner, by decide +kernel, fun h => ?_⟩
  have heq := h.inner rfl _ hinner
  exact absurd heq (by decide +kernel)

end Climb

end AutomatisedPipeline.Resolver
