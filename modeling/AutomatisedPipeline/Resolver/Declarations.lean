import AutomatisedPipeline.Codec.Canonical
import AutomatisedPipeline.Logic.Spread
import AutomatisedPipeline.Resolver.Includes
import AutomatisedPipeline.Resolver.ReasonMarker
import AutomatisedPipeline.Resolver.TypeEdges

/-!
Which candidates a C call can name (`resolver/calls/includes.rs`,
`resolver/calls/declarations.rs`).

A `static` function is named by the files that include its file. Which files a file includes
is asked for one file at a time, and what was found is kept; the answers do not depend on what
was asked before (`run_reaches`). `keep_definitions` drops what a call cannot name of the
candidates it is given, and nothing else.
-/

namespace AutomatisedPipeline.Includes

open Text

/-! ### The include graph -/

def cFamilyExtensions : List String :=
  ["c", "h", "cc", "hh", "cpp", "hpp", "cxx", "hxx", "inc", "inl"]

/-- `is_c_family`. -/
def isCFamily (file : Str) : Bool :=
  match rfind ['.'] file with
  | none => false
  | some i => decide ((file.drop (i + 1)).map Char.toLower ∈ cFamilyExtensions.map String.toList)

/-- `IncludeGraph`, without its memo: the files that each file includes. -/
structure IncludeGraph where
  direct : List (Str × List Str)

/-- `IncludeGraph::build`. -/
def IncludeGraph.build (fileImports : List (Str × List Str)) (fileIds : List Str) : IncludeGraph :=
  let basenames := byBasename fileIds
  { direct := (fileImports.filter fun entry => isCFamily entry.1).map fun entry =>
      (entry.1, Codec.canonical id
        ((entry.2.flatMap fun path => resolveInclude entry.1 path fileIds basenames).filter
          (· ≠ entry.1))) }

/-- The files that a file includes itself. -/
def IncludeGraph.includes (g : IncludeGraph) (file : Str) : List Str := (g.direct.lookup file).getD []

/-- `IncludeGraph::closure`. No file goes on the stack twice, so the stack runs empty. -/
def IncludeGraph.closure (g : IncludeGraph) (start : Str) : List Str :=
  let fuel := (g.direct.flatMap Prod.snd).length + 1
  let run : Option (List Str × List Empty) :=
    Spread.spread (fun file => (g.includes file).map Sum.inl) fuel ⟨[start], [], []⟩
  (run.map Prod.fst).getD []

/-- The memo of the graph: the closures found so far. -/
abbrev Memo : Type := List (Str × List Str)

/-- `IncludeGraph::reaches`, and the memo behind it. -/
def IncludeGraph.reaches (g : IncludeGraph) (start stop : Str) (memo : Memo) : Bool × Memo :=
  if start = stop then (true, memo)
  else
    match memo.lookup start with
    | some set => (decide (stop ∈ set), memo)
    | none => (decide (stop ∈ g.closure start), (start, g.closure start) :: memo)

end AutomatisedPipeline.Includes

namespace AutomatisedPipeline.Resolver

open Text Includes

/-! ### Candidates -/

def bodyKindPrototype : Str := "prototype".toList

def scopeFileLocal : Str := "file_local".toList

/-- `CallableFacts`: the body kinds other than `body`, and the ids with internal linkage. -/
structure CallableFacts where
  nonBody : List (Str × Str)
  internal : List Str

/-- `candidate_file`. -/
def candidateFile (candidate : SymbolEntry) : Str :=
  extractFilePrefixOrSelf candidate.qualifiedName

/-- `nameable_from`. -/
def nameableFrom (includes : IncludeGraph) (candidate : SymbolEntry) (callerFile : Str) :
    Memo → Bool × Memo :=
  includes.reaches callerFile (candidateFile candidate)

/-- `filter` with a test that has a state. -/
def filterRun {α σ : Type} (test : α → σ → Bool × σ) : List α → σ → List α × σ
  | [], s => ([], s)
  | a :: l, s =>
      let (keep, s) := test a s
      let (rest, s) := filterRun test l s
      (if keep then a :: rest else rest, s)

/-- `own_internal`: the caller's own file declares the name `static`. -/
def ownInternal (facts : CallableFacts) (candidates : List SymbolEntry) (callerFile : Str) : Bool :=
  candidates.any fun c => decide (c.id ∈ facts.internal) && candidateFile c == callerFile

/-- The test of the first filter of `keep_definitions`. -/
def keepTest (facts : CallableFacts) (includes : IncludeGraph) (ownInternal : Bool)
    (callerFile : Str) (c : SymbolEntry) (memo : Memo) : Bool × Memo :=
  if ownInternal then
    if candidateFile c = callerFile then (true, memo)
    else if c.id ∈ facts.internal then nameableFrom includes c callerFile memo
    else (false, memo)
  else if c.id ∉ facts.internal then (true, memo)
  else nameableFrom includes c callerFile memo

/-- `keep_definitions`, and the memo behind it. -/
def keepDefinitions (facts : CallableFacts) (includes : IncludeGraph)
    (candidates : List SymbolEntry) (callerFile : Str) (memo : Memo) :
    (List SymbolEntry × Option Decline) × Memo :=
  let touched := fun c : SymbolEntry =>
    decide (c.id ∈ facts.internal) || (facts.nonBody.lookup c.id).isSome
  if ¬ candidates.any touched then ((candidates, none), memo)
  else
    let (reachable, memo) := filterRun
      (keepTest facts includes (ownInternal facts candidates callerFile) callerFile) candidates memo
    if reachable.isEmpty then ((reachable, some (.scope scopeFileLocal)), memo)
    else
      let prototype := fun c : SymbolEntry => facts.nonBody.lookup c.id == some bodyKindPrototype
      let kept := reachable.filter fun c => ¬ prototype c
      ((kept, if kept.isEmpty then some .declarationOnly else none), memo)

end AutomatisedPipeline.Resolver

namespace AutomatisedPipeline.Includes

open Text

/-! ### What a file includes, directly or through others -/

/-- A file includes another itself. -/
def IncludeGraph.IncludesFile (g : IncludeGraph) (file other : Str) : Prop := other ∈ g.includes file

/-- The other file is the file, or one it includes, directly or through other includes. -/
def IncludeGraph.Reaches (g : IncludeGraph) (start stop : Str) : Prop :=
  Relation.ReflTransGen g.IncludesFile start stop

theorem IncludeGraph.includes_subset (g : IncludeGraph) (file : Str) :
    g.includes file ⊆ g.direct.flatMap Prod.snd := by
  intro other hother
  rw [IncludeGraph.includes] at hother
  cases hlookup : g.direct.lookup file with
  | none =>
      rw [hlookup] at hother
      cases hother
  | some targets =>
      rw [hlookup] at hother
      obtain ⟨before, after, heq, -⟩ := List.lookup_eq_some_iff.mp hlookup
      rw [heq]
      refine List.mem_flatMap.mpr ⟨(file, targets), ?_, hother⟩
      exact List.mem_append_right _ List.mem_cons_self

/-- The closure of a file is what it includes, directly or through other includes. -/
theorem mem_closure {g : IncludeGraph} {start stop : Str} :
    stop ∈ g.closure start ↔ Relation.TransGen g.IncludesFile start stop := by
  have hbelow : Spread.Below (fun file => (g.includes file).map Sum.inl : Str → List (Str ⊕ Empty)) =
      g.IncludesFile := by
    funext file other
    simp [Spread.Below, IncludeGraph.IncludesFile]
  -- what is included is in the graph, so the loop ends within the fuel
  have hsubset : ∀ file other, g.IncludesFile file other →
      other ∈ (g.direct.flatMap Prod.snd).toFinset := fun file other hother =>
    List.mem_toFinset.mpr (g.includes_subset file hother)
  rw [← hbelow] at hsubset
  obtain ⟨marked, reported, hrun, hmarked⟩ :=
    Spread.spread_from hsubset start (fun e => e.elim) (List.toFinset_card_le _)
  have hclosure : g.closure start = marked := by
    rw [IncludeGraph.closure]
    exact congrArg (fun run : Option (List Str × List Empty) => (run.map Prod.fst).getD []) hrun
  rw [hclosure, hmarked, hbelow]

/-- What the memo has of a file is its closure. -/
def Memo.Sound (g : IncludeGraph) (memo : Memo) : Prop :=
  ∀ file set, memo.lookup file = some set → set = g.closure file

theorem Memo.sound_nil (g : IncludeGraph) : Memo.Sound g [] := by
  intro file set h
  cases h

/-- With a sound memo the answer is the closure's, and the memo behind it is sound. -/
theorem reaches_spec {g : IncludeGraph} {memo : Memo} (h : memo.Sound g) (start stop : Str) :
    ((g.reaches start stop memo).1 = true ↔ g.Reaches start stop) ∧
      Memo.Sound g (g.reaches start stop memo).2 := by
  rw [IncludeGraph.reaches]
  by_cases heq : start = stop
  · subst heq
    rw [if_pos rfl]
    exact ⟨iff_of_true rfl .refl, h⟩
  · rw [if_neg heq]
    have hreaches : g.Reaches start stop ↔ stop ∈ g.closure start := by
      rw [mem_closure, IncludeGraph.Reaches, Relation.reflTransGen_iff_eq_or_transGen]
      exact or_iff_right (Ne.symm heq)
    rw [hreaches]
    cases hmemo : memo.lookup start with
    | some set =>
        obtain rfl := h start set hmemo
        exact ⟨decide_eq_true_iff, h⟩
    | none =>
        refine ⟨decide_eq_true_iff, fun file set hlookup => ?_⟩
        rw [List.lookup_cons] at hlookup
        by_cases hfile : file = start
        · rw [beq_iff_eq.mpr hfile] at hlookup
          rw [hfile]
          exact (Option.some.inj hlookup).symm
        · rw [beq_eq_false_iff_ne.mpr hfile] at hlookup
          exact h file set hlookup

/-- The memo behind a sequence of queries. -/
def IncludeGraph.asked (g : IncludeGraph) (queries : List (Str × Str)) : Memo :=
  queries.foldl (fun memo query => (g.reaches query.1 query.2 memo).2) []

theorem sound_asked (g : IncludeGraph) (queries : List (Str × Str)) :
    Memo.Sound g (g.asked queries) := by
  apply List.foldlRecOn (motive := Memo.Sound g)
  · exact Memo.sound_nil g
  · exact fun memo h query _ => (reaches_spec h query.1 query.2).2

end AutomatisedPipeline.Includes

namespace AutomatisedPipeline.Resolver

open Text Includes

/-! ### What is kept -/

/-- A filter whose test keeps an invariant of the state, under which it is a property. -/
theorem filterRun_spec {α σ : Type} {test : α → σ → Bool × σ} {I : σ → Prop} {keep : α → Bool}
    (h : ∀ a s, I s → (test a s).1 = keep a ∧ I (test a s).2) (l : List α) {s : σ} (hs : I s) :
    (filterRun test l s).1 = l.filter keep ∧ I (filterRun test l s).2 := by
  induction l generalizing s with
  | nil => exact ⟨rfl, hs⟩
  | cons a l ih =>
      obtain ⟨hkeep, hnext⟩ := h a s hs
      obtain ⟨hrest, hlast⟩ := ih hnext
      refine ⟨?_, hlast⟩
      rw [filterRun, List.filter_cons]
      simp only [hkeep, hrest]

section Kept

variable (facts : CallableFacts) (g : IncludeGraph) (candidates : List SymbolEntry)
  (callerFile : Str)

/-- The candidate is a `static` function. -/
abbrev Internal (c : SymbolEntry) : Prop := c.id ∈ facts.internal

/-- The candidate is a header prototype. -/
def Prototype (c : SymbolEntry) : Prop := facts.nonBody.lookup c.id = some bodyKindPrototype

/-- The caller's own file declares the name `static`. -/
def OwnInternal : Prop := ∃ c ∈ candidates, Internal facts c ∧ candidateFile c = callerFile

/-- The candidates that a call of the file can name: a `static` one where the file reaches it,
and another one unless the file declares the name `static` and the other is elsewhere. -/
def Nameable (c : SymbolEntry) : Prop :=
  (Internal facts c → g.Reaches callerFile (candidateFile c)) ∧
    (OwnInternal facts candidates callerFile → ¬Internal facts c → candidateFile c = callerFile)

end Kept

section Filter

variable {facts : CallableFacts} {g : IncludeGraph} {candidates : List SymbolEntry}
  {callerFile : Str} {memo : Memo}

theorem ownInternal_iff :
    ownInternal facts candidates callerFile = true ↔ OwnInternal facts candidates callerFile := by
  simp [ownInternal, OwnInternal, Internal]

theorem reaches_own (g : IncludeGraph) {c : SymbolEntry} (h : candidateFile c = callerFile) :
    g.Reaches callerFile (candidateFile c) := by
  rw [h]
  exact .refl

theorem keepTest_spec {own : Bool}
    (hown : own = true ↔ OwnInternal facts candidates callerFile) (c : SymbolEntry)
    (h : memo.Sound g) :
    ((keepTest facts g own callerFile c memo).1 = true ↔
      Nameable facts g candidates callerFile c) ∧
      Memo.Sound g (keepTest facts g own callerFile c memo).2 := by
  have hask := reaches_spec h callerFile (candidateFile c)
  rw [keepTest, Nameable, ← hown]
  cases own with
  | true =>
      rw [if_pos rfl]
      by_cases hfile : candidateFile c = callerFile
      · rw [if_pos hfile]
        exact ⟨iff_of_true rfl ⟨fun _ => reaches_own g hfile, fun _ _ => hfile⟩, h⟩
      · rw [if_neg hfile]
        by_cases hinternal : c.id ∈ facts.internal
        · rw [if_pos hinternal]
          refine ⟨hask.1.trans ?_, hask.2⟩
          simp [hinternal]
        · rw [if_neg hinternal]
          refine ⟨iff_of_false Bool.false_ne_true fun hc => ?_, h⟩
          exact hfile (hc.2 rfl hinternal)
  | false =>
      rw [if_neg Bool.false_ne_true]
      by_cases hinternal : c.id ∈ facts.internal
      · rw [if_neg (not_not.mpr hinternal)]
        refine ⟨hask.1.trans ?_, hask.2⟩
        simp [hinternal]
      · rw [if_pos hinternal]
        exact ⟨iff_of_true rfl ⟨fun hc => absurd hc hinternal, fun hc => by cases hc⟩, h⟩

/-- Where nothing is read of the candidates, none of them is `static` or a prototype. -/
theorem plain_of_untouched (h : ¬(candidates.any fun c : SymbolEntry =>
      decide (c.id ∈ facts.internal) || (facts.nonBody.lookup c.id).isSome) = true) :
    ∀ c ∈ candidates, ¬Internal facts c ∧ ¬Prototype facts c := by
  intro c hc
  have hc := mt (fun h => List.any_eq_true.mpr ⟨c, hc, h⟩) h
  rw [Bool.or_eq_true, not_or, decide_eq_true_iff, Bool.not_eq_true,
    Option.isSome_eq_false_iff, Option.isNone_iff_eq_none] at hc
  refine ⟨hc.1, fun hproto => ?_⟩
  rw [Prototype, hc.2] at hproto
  cases hproto

theorem nameable_of_plain (h : ∀ c ∈ candidates, ¬Internal facts c) {c : SymbolEntry}
    (hc : c ∈ candidates) : Nameable facts g candidates callerFile c := by
  refine ⟨fun hinternal => absurd hinternal (h c hc), ?_⟩
  rintro ⟨other, hother, hinternal, -⟩
  exact absurd hinternal (h other hother)

open Classical in
variable (facts candidates callerFile) in
/-- The filter of the candidates that can be named. -/
theorem filterRun_keepTest (h : memo.Sound g) :
    (filterRun (keepTest facts g (ownInternal facts candidates callerFile) callerFile) candidates
        memo).1 =
      candidates.filter (fun c => decide (Nameable facts g candidates callerFile c)) ∧
      Memo.Sound g (filterRun (keepTest facts g (ownInternal facts candidates callerFile)
        callerFile) candidates memo).2 := by
  refine filterRun_spec (fun c memo hmemo => ?_) candidates h
  rw [Bool.eq_iff_iff, decide_eq_true_iff]
  exact keepTest_spec ownInternal_iff c hmemo

/-- What is kept are the candidates that can be named and are no prototypes. -/
theorem keepDefinitions_spec (h : memo.Sound g) :
    ((keepDefinitions facts g candidates callerFile memo).1.1.Sublist candidates ∧
      ∀ c, c ∈ (keepDefinitions facts g candidates callerFile memo).1.1 ↔
        c ∈ candidates ∧ Nameable facts g candidates callerFile c ∧ ¬Prototype facts c) ∧
      Memo.Sound g (keepDefinitions facts g candidates callerFile memo).2 := by
  classical
  rw [keepDefinitions]
  by_cases htouched : (candidates.any fun c : SymbolEntry =>
      decide (c.id ∈ facts.internal) || (facts.nonBody.lookup c.id).isSome) = true
  · rw [if_neg (not_not.mpr htouched)]
    dsimp only
    obtain ⟨hfilter, hmemo⟩ := filterRun_keepTest facts candidates callerFile h
    generalize filterRun _ candidates memo = run at hfilter hmemo ⊢
    obtain ⟨reachable, memo'⟩ := run
    dsimp only at hfilter hmemo
    subst hfilter
    have hmem : ∀ c, c ∈ (candidates.filter fun c =>
        decide (Nameable facts g candidates callerFile c)).filter
          (fun c => ¬ (facts.nonBody.lookup c.id == some bodyKindPrototype)) ↔
        c ∈ candidates ∧ Nameable facts g candidates callerFile c ∧ ¬Prototype facts c := by
      intro c
      simp only [List.mem_filter, decide_eq_true_iff, beq_iff_eq, and_assoc, Prototype]
    dsimp only
    split
    · rename_i hempty
      rw [List.isEmpty_iff] at hempty
      rw [hempty] at hmem ⊢
      exact ⟨⟨List.nil_sublist _, hmem⟩, hmemo⟩
    · exact ⟨⟨List.filter_sublist.trans List.filter_sublist, hmem⟩, hmemo⟩
  · rw [if_pos htouched]
    have hplain := plain_of_untouched htouched
    refine ⟨⟨List.Sublist.refl _, fun c => ?_⟩, h⟩
    refine ⟨fun hc => ⟨hc, ?_, (hplain c hc).2⟩, fun hc => hc.1⟩
    exact nameable_of_plain (fun c hc => (hplain c hc).1) hc

/-- What a C call can name: whatever was asked before, `reaches` is reachability through
includes, and `keep_definitions` keeps a part of its candidates without prototypes and without
the `static` functions that the caller's file does not reach. With a `static` one of the name in
the caller's file, no external function of another file stays, and that is the only case in which
one is dropped. -/
theorem keepDefinitions_respects_linkage :
    (∀ (g : IncludeGraph) (queries : List (Str × Str)) (a b : Str),
      (g.reaches a b (g.asked queries)).1 = true ↔ Relation.ReflTransGen g.IncludesFile a b) ∧
    ∀ (facts : CallableFacts) (g : IncludeGraph) (queries : List (Str × Str))
      (candidates : List SymbolEntry) (callerFile : Str),
      let kept := (keepDefinitions facts g candidates callerFile (g.asked queries)).1.1
      kept.Sublist candidates ∧
      (∀ c ∈ kept, ¬Prototype facts c) ∧
      (∀ c ∈ kept, Internal facts c → g.Reaches callerFile (candidateFile c)) ∧
      (OwnInternal facts candidates callerFile → ∀ c ∈ kept, ¬Internal facts c →
        candidateFile c = callerFile) ∧
      ∀ c ∈ candidates, ¬Internal facts c → ¬Prototype facts c → c ∉ kept →
        OwnInternal facts candidates callerFile ∧ candidateFile c ≠ callerFile := by
  refine ⟨fun g queries a b => (reaches_spec (sound_asked g queries) a b).1, ?_⟩
  intro facts g queries candidates callerFile kept
  obtain ⟨⟨hsub, hmem⟩, -⟩ :=
    @keepDefinitions_spec facts g candidates callerFile _ (sound_asked g queries)
  refine ⟨hsub, ?_, ?_, ?_, ?_⟩
  · intro c hc
    exact ((hmem c).mp hc).2.2
  · intro c hc
    exact ((hmem c).mp hc).2.1.1
  · intro hown c hc
    exact ((hmem c).mp hc).2.1.2 hown
  · intro c hc hexternal hproto hdropped
    by_contra hcase
    apply hdropped
    refine (hmem c).mpr ⟨hc, ⟨fun h => absurd h hexternal, fun hown _ => ?_⟩, hproto⟩
    by_contra hfile
    exact hcase ⟨hown, hfile⟩

end Filter

end AutomatisedPipeline.Resolver
