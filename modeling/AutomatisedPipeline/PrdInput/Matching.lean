import AutomatisedPipeline.Logic.BestByKey
import AutomatisedPipeline.Text.Find

/-!
How a description matches symbols (`prd_input/matching.rs`).

The hits of all tokens are gathered by qualified name, each with its best mode
(`mem_matched_iff`), so the order of the tokens does not matter (`isBest_perm`). A token is compared
with the name of a symbol and with the last segment of its qualified name, and only where the search
for that token returns the symbol: so the modes are those of the best evidence exactly if every
symbol that a token names is returned for a token which is its name or its last segment
(`bestEvidence_iff`).
-/

namespace AutomatisedPipeline.PrdInput

open Text BestByKey

/-! ### Tokens and modes -/

/-- `clean_token`. -/
def cleanToken (raw : Str) : Str :=
  (raw.filter fun c => c.isAlphanum || c == '_' || c == ':').map Char.toLower

/-- `MatchMode`. -/
inductive MatchMode where
  | verbatim
  | exactName
  | lexical
deriving DecidableEq, Repr

/-- `MatchMode::as_str`. -/
def MatchMode.asStr : MatchMode → Str
  | verbatim => "verbatim".toList
  | exactName => "exact_name".toList
  | lexical => "lexical".toList

/-- `MatchMode::rank`. -/
def MatchMode.rank : MatchMode → Nat
  | lexical => 0
  | exactName => 1
  | verbatim => 2

theorem MatchMode.rank_injective : Function.Injective MatchMode.rank := by
  intro a b h
  cases a <;> cases b <;> first | rfl | cases h

/-- `SearchResult`, what the classification reads of it. -/
structure SearchResult where
  qualifiedName : Str
  name : Str
  label : Str
deriving DecidableEq, Repr

/-- `is_code_symbol`. -/
def isCodeSymbol (hit : SearchResult) : Bool := !eqIgnoreAsciiCase hit.label "File".toList

/-- `search_graph`, with the options of `search_hits`. It can fail. -/
abbrev Search : Type := Str → Option (List SearchResult)

/-- `search_hits`. -/
def searchHits (search : Search) (token : Str) : List SearchResult :=
  ((search token).getD []).filter isCodeSymbol

/-- `is_exact_hit`. -/
def isExactHit (token : Str) (hit : SearchResult) : Bool :=
  hit.name.map Char.toLower = token ∨
    (afterLast "::".toList hit.qualifiedName).map Char.toLower = token

/-! ### The pipeline -/

/-- `upsert_best`. -/
def upsertBest (best : List (SearchResult × MatchMode)) (hit : SearchResult) (mode : MatchMode) :
    List (SearchResult × MatchMode) :=
  upsert SearchResult.qualifiedName MatchMode.rank best hit mode

/-- The first loop of `search_and_classify`, for one token: a citation that is not exact is
dropped. -/
def addVerbatim (search : Search) (best : List (SearchResult × MatchMode)) (token : Str) :
    List (SearchResult × MatchMode) :=
  (searchHits search token).foldl
    (fun best hit => if isExactHit token hit then upsertBest best hit .verbatim else best) best

/-- The second loop, for one token. -/
def addNatural (search : Search) (best : List (SearchResult × MatchMode)) (token : Str) :
    List (SearchResult × MatchMode) :=
  (searchHits search token).foldl
    (fun best hit => upsertBest best hit (if isExactHit token hit then .exactName else .lexical))
    best

/-- `MatchOutcome`. -/
structure MatchOutcome where
  matched : List (SearchResult × MatchMode)
  candidates : List (SearchResult × MatchMode)

/-- `search_and_classify`. -/
def searchAndClassify (search : Search) (verbatimTokens naturalTokens : List Str) : MatchOutcome :=
  let best := verbatimTokens.foldl (addVerbatim search) []
  let best := naturalTokens.foldl (addNatural search) best
  { matched := best.filter fun entry => entry.2 ≠ .lexical
    candidates := best.filter fun entry => entry.2 = .lexical }

/-! ### The graded hits -/

/-- The hits that are gathered, each with the mode that its token gives it. -/
def gradedHits (search : Search) (verbatimTokens naturalTokens : List Str) :
    List (SearchResult × MatchMode) :=
  (verbatimTokens.flatMap fun token =>
      ((searchHits search token).filter (isExactHit token)).map fun hit => (hit, .verbatim)) ++
    naturalTokens.flatMap fun token =>
      (searchHits search token).map fun hit =>
        (hit, if isExactHit token hit then .exactName else .lexical)

section Outcome

variable (search : Search) (verbatimTokens naturalTokens : List Str)

theorem best_eq_gather :
    naturalTokens.foldl (addNatural search) (verbatimTokens.foldl (addVerbatim search) []) =
      gather SearchResult.qualifiedName MatchMode.rank
        (gradedHits search verbatimTokens naturalTokens) := by
  rw [gather, gradedHits, List.foldl_append, List.foldl_flatMap, List.foldl_flatMap]
  simp only [List.foldl_map, List.foldl_filter]
  rfl

/-- A symbol is in the outcome with its best mode. -/
theorem mem_matched_iff (qn : Str) (mode : MatchMode) :
    (∃ entry ∈ (searchAndClassify search verbatimTokens naturalTokens).matched,
        entry.1.qualifiedName = qn ∧ entry.2 = mode) ↔
      IsBest SearchResult.qualifiedName MatchMode.rank
        (gradedHits search verbatimTokens naturalTokens) qn mode ∧ mode ≠ .lexical := by
  rw [← mem_gather_iff MatchMode.rank_injective, ← best_eq_gather]
  simp only [searchAndClassify, List.mem_filter]
  grind

theorem mem_candidates_iff (qn : Str) (mode : MatchMode) :
    (∃ entry ∈ (searchAndClassify search verbatimTokens naturalTokens).candidates,
        entry.1.qualifiedName = qn ∧ entry.2 = mode) ↔
      IsBest SearchResult.qualifiedName MatchMode.rank
        (gradedHits search verbatimTokens naturalTokens) qn mode ∧ mode = .lexical := by
  rw [← mem_gather_iff MatchMode.rank_injective, ← best_eq_gather]
  simp only [searchAndClassify, List.mem_filter]
  grind

end Outcome

/-- The tokens come in any order. -/
theorem gradedHits_perm (search : Search) {verbatimTokens verbatimTokens' naturalTokens
    naturalTokens' : List Str} (hverbatim : verbatimTokens'.Perm verbatimTokens)
    (hnatural : naturalTokens'.Perm naturalTokens) :
    (gradedHits search verbatimTokens' naturalTokens').Perm
      (gradedHits search verbatimTokens naturalTokens) :=
  (hverbatim.flatMap_right _).append (hnatural.flatMap_right _)

/-! ### What a token names -/

/-- The segments of `token` are the last ones of `path`. -/
def IsTail (token path : Str) : Prop := token = path ∨ "::".toList ++ token <:+ path

/-- The token is the name of the symbol, or a tail of its qualified name. -/
def Names (token : Str) (hit : SearchResult) : Prop :=
  token = hit.name.map Char.toLower ∨ IsTail token (hit.qualifiedName.map Char.toLower)

/-- The token is the name of the symbol, or the last segment of its qualified name. -/
def NamesAlone (token : Str) (hit : SearchResult) : Prop :=
  token = hit.name.map Char.toLower ∨
    token = (afterLast "::".toList hit.qualifiedName).map Char.toLower

theorem isExactHit_iff {token : Str} {hit : SearchResult} :
    isExactHit token hit = true ↔ NamesAlone token hit := by
  rw [isExactHit, decide_eq_true_iff, NamesAlone, eq_comm, eq_comm (a := token)]
  exact or_congr_right eq_comm

theorem NamesAlone.names {token : Str} {hit : SearchResult} (h : NamesAlone token hit) :
    Names token hit := by
  rcases h with hname | rfl
  · exact .inl hname
  · right
    have hsep : "::".toList ≠ [] := by decide
    rcases afterLast_cases hsep hit.qualifiedName with
      ⟨-, heq⟩ | ⟨x, hx, -⟩
    · exact .inl (by rw [heq])
    · refine .inr ⟨x.map Char.toLower, ?_⟩
      conv_rhs => rw [hx]
      simp [List.map_append]

section Evidence

variable (search : Search) (cited natural : List Str)

/-- The tokens that a pair of lists is searched with. -/
def tokens : List Str := cited.map cleanToken ++ natural.map cleanToken

/-- The search for one of the tokens returns a hit of the symbol. -/
def HitBy (searched : List Str) (qn : Str) (hit : SearchResult) : Prop :=
  ∃ token ∈ searched, hit ∈ searchHits search token ∧ hit.qualifiedName = qn

/-- One of `texts` names a symbol that is among the hits. -/
def NamedBy (texts : List Str) (qn : Str) : Prop :=
  ∃ text ∈ texts, ∃ hit, HitBy search (tokens cited natural) qn hit ∧ Names (cleanToken text) hit

/-- One of `texts`, which is the name of a symbol or its last segment, is searched and returns it. -/
def FoundAlone (texts : List Str) (qn : Str) : Prop :=
  ∃ text ∈ texts, ∃ hit ∈ searchHits search (cleanToken text), hit.qualifiedName = qn ∧
    NamesAlone (cleanToken text) hit

/-- The outcome for lists of texts. -/
def outcome : MatchOutcome :=
  searchAndClassify search (cited.map cleanToken) (natural.map cleanToken)

/-- The modes are those of the best evidence, in whatever order it comes: a symbol among the hits is
verbatim if a citation names it, exact if only a natural token does, and lexical if none does. A hit
of citations alone which none of them names is no candidate. -/
structure BestEvidence : Prop where
  permMatched : ∀ cited' natural' : List Str, cited'.Perm cited → natural'.Perm natural →
    ∀ qn mode, (∃ entry ∈ (outcome search cited' natural').matched,
        entry.1.qualifiedName = qn ∧ entry.2 = mode) ↔
      ∃ entry ∈ (outcome search cited natural).matched,
        entry.1.qualifiedName = qn ∧ entry.2 = mode
  permCandidates : ∀ cited' natural' : List Str, cited'.Perm cited → natural'.Perm natural →
    ∀ qn mode, (∃ entry ∈ (outcome search cited' natural').candidates,
        entry.1.qualifiedName = qn ∧ entry.2 = mode) ↔
      ∃ entry ∈ (outcome search cited natural).candidates,
        entry.1.qualifiedName = qn ∧ entry.2 = mode
  verbatim : ∀ qn, (∃ entry ∈ (outcome search cited natural).matched,
      entry.1.qualifiedName = qn ∧ entry.2 = .verbatim) ↔ NamedBy search cited natural cited qn
  exactName : ∀ qn, (∃ entry ∈ (outcome search cited natural).matched,
      entry.1.qualifiedName = qn ∧ entry.2 = .exactName) ↔
    ¬ NamedBy search cited natural cited qn ∧ NamedBy search cited natural natural qn
  lexical : ∀ qn, (∃ hit, HitBy search (natural.map cleanToken) qn hit) →
    ((∃ entry ∈ (outcome search cited natural).candidates,
        entry.1.qualifiedName = qn ∧ entry.2 = .lexical) ↔
      ¬ NamedBy search cited natural cited qn ∧ ¬ NamedBy search cited natural natural qn)

variable {search cited natural}

theorem FoundAlone.namedBy {texts : List Str} {qn : Str} (h : FoundAlone search texts qn)
    (hsub : texts ⊆ cited ++ natural) : NamedBy search cited natural texts qn := by
  obtain ⟨text, htext, hit, hhit, hqn, hnames⟩ := h
  refine ⟨text, htext, hit, ⟨cleanToken text, ?_, hhit, hqn⟩, hnames.names⟩
  rw [tokens, ← List.map_append]
  exact List.mem_map_of_mem (hsub htext)

/-- The graded hits of a symbol. -/
theorem mem_gradedHits_iff {hit : SearchResult} {mode : MatchMode} :
    (hit, mode) ∈ gradedHits search (cited.map cleanToken) (natural.map cleanToken) ↔
      (mode = .verbatim ∧ ∃ text ∈ cited, hit ∈ searchHits search (cleanToken text) ∧
          NamesAlone (cleanToken text) hit) ∨
        ∃ text ∈ natural, hit ∈ searchHits search (cleanToken text) ∧
          (mode = .exactName ∧ NamesAlone (cleanToken text) hit ∨
            mode = .lexical ∧ ¬ NamesAlone (cleanToken text) hit) := by
  simp only [gradedHits, List.mem_append, List.mem_flatMap, List.mem_map, List.mem_filter,
    Prod.mk.injEq, isExactHit_iff, exists_exists_and_eq_and]
  grind [isExactHit_iff]

/-- The mode is the best one of a citation if a citation is found alone. -/
theorem isBest_verbatim_iff {qn : Str} :
    IsBest SearchResult.qualifiedName MatchMode.rank
        (gradedHits search (cited.map cleanToken) (natural.map cleanToken)) qn .verbatim ↔
      FoundAlone search cited qn := by
  constructor
  · rintro ⟨⟨⟨hit, mode⟩, hmem, hqn, hmode⟩, -⟩
    rcases mem_gradedHits_iff.mp hmem with ⟨-, text, htext, hhit, hnames⟩ | ⟨text, -, -, hmodes⟩
    · exact ⟨text, htext, hit, hhit, hqn, hnames⟩
    · rcases hmodes with ⟨hexact, -⟩ | ⟨hlexical, -⟩
      · exact absurd (hexact.symm.trans hmode) (by decide)
      · exact absurd (hlexical.symm.trans hmode) (by decide)
  · rintro ⟨text, htext, hit, hhit, hqn, hnames⟩
    refine ⟨⟨(hit, .verbatim), ?_, hqn, rfl⟩, fun g _ _ => ?_⟩
    · exact mem_gradedHits_iff.mpr (.inl ⟨rfl, text, htext, hhit, hnames⟩)
    · cases g.2 <;> decide

theorem isBest_exactName_iff {qn : Str} :
    IsBest SearchResult.qualifiedName MatchMode.rank
        (gradedHits search (cited.map cleanToken) (natural.map cleanToken)) qn .exactName ↔
      ¬ FoundAlone search cited qn ∧ FoundAlone search natural qn := by
  constructor
  · intro hbest
    refine ⟨fun hcited => ?_, ?_⟩
    · exact absurd (hbest.unique MatchMode.rank_injective (isBest_verbatim_iff.mpr hcited))
        (by decide)
    · obtain ⟨⟨⟨hit, mode⟩, hmem, hqn, hmode⟩, -⟩ := hbest
      rcases mem_gradedHits_iff.mp hmem with ⟨hverbatim, -⟩ | ⟨text, htext, hhit, hmodes⟩
      · exact absurd (hverbatim.symm.trans hmode) (by decide)
      · rcases hmodes with ⟨-, hnames⟩ | ⟨hlexical, -⟩
        · exact ⟨text, htext, hit, hhit, hqn, hnames⟩
        · exact absurd (hlexical.symm.trans hmode) (by decide)
  · rintro ⟨hcited, text, htext, hit, hhit, hqn, hnames⟩
    refine ⟨⟨(hit, .exactName), ?_, hqn, rfl⟩, fun g hg hkey => ?_⟩
    · exact mem_gradedHits_iff.mpr (.inr ⟨text, htext, hhit, .inl ⟨rfl, hnames⟩⟩)
    · obtain ⟨hit', mode'⟩ := g
      rcases mem_gradedHits_iff.mp hg with ⟨-, text', htext', hhit', hnames'⟩ |
        ⟨text', htext', hhit', hmodes⟩
      · exact absurd ⟨text', htext', hit', hhit', hkey, hnames'⟩ hcited
      · rcases hmodes with ⟨rfl, -⟩ | ⟨rfl, -⟩
        · exact le_refl _
        · exact Nat.zero_le _

theorem isBest_lexical_iff {qn : Str} (hfound : ∃ hit, HitBy search (natural.map cleanToken) qn hit) :
    IsBest SearchResult.qualifiedName MatchMode.rank
        (gradedHits search (cited.map cleanToken) (natural.map cleanToken)) qn .lexical ↔
      ¬ FoundAlone search cited qn ∧ ¬ FoundAlone search natural qn := by
  constructor
  · intro hbest
    have hcited : ¬ FoundAlone search cited qn := fun hcited =>
      absurd (hbest.unique MatchMode.rank_injective (isBest_verbatim_iff.mpr hcited)) (by decide)
    refine ⟨hcited, fun hnatural => ?_⟩
    exact absurd (hbest.unique MatchMode.rank_injective
      (isBest_exactName_iff.mpr ⟨hcited, hnatural⟩)) (by decide)
  · rintro ⟨hcited, hnatural⟩
    obtain ⟨hit, token, htoken, hhit, hqn⟩ := hfound
    obtain ⟨text, htext, rfl⟩ := List.mem_map.mp htoken
    have halone : ¬ NamesAlone (cleanToken text) hit := fun hnames =>
      hnatural ⟨text, htext, hit, hhit, hqn, hnames⟩
    refine ⟨⟨(hit, .lexical), ?_, hqn, rfl⟩, fun g hg hkey => ?_⟩
    · exact mem_gradedHits_iff.mpr (.inr ⟨text, htext, hhit, .inr ⟨rfl, halone⟩⟩)
    · obtain ⟨hit', mode'⟩ := g
      rcases mem_gradedHits_iff.mp hg with ⟨-, text', htext', hhit', hnames'⟩ |
        ⟨text', htext', hhit', hmodes⟩
      · exact absurd ⟨text', htext', hit', hhit', hkey, hnames'⟩ hcited
      · rcases hmodes with ⟨-, hnames'⟩ | ⟨rfl, -⟩
        · exact absurd ⟨text', htext', hit', hhit', hkey, hnames'⟩ hnatural
        · exact le_refl _

end Evidence

/-- The order of the texts does not matter. -/
theorem isBest_perm (search : Search) {cited cited' natural natural' : List Str}
    (hcited : cited'.Perm cited) (hnatural : natural'.Perm natural) (qn : Str) (mode : MatchMode) :
    IsBest SearchResult.qualifiedName MatchMode.rank
        (gradedHits search (cited'.map cleanToken) (natural'.map cleanToken)) qn mode ↔
      IsBest SearchResult.qualifiedName MatchMode.rank
        (gradedHits search (cited.map cleanToken) (natural.map cleanToken)) qn mode := by
  have hperm := gradedHits_perm search (hcited.map cleanToken) (hnatural.map cleanToken)
  exact ⟨IsBest.perm hperm, IsBest.perm hperm.symm⟩

/-- The modes are those of the best evidence if and only if every symbol that a citation names is
found by the search for a citation which is its name or its last segment, and so is, by natural
tokens, every symbol that they name and no citation does. -/
theorem bestEvidence_iff (search : Search) (cited natural : List Str) :
    BestEvidence search cited natural ↔
      ∀ qn, (NamedBy search cited natural cited qn → FoundAlone search cited qn) ∧
        (¬ NamedBy search cited natural cited qn → NamedBy search cited natural natural qn →
          FoundAlone search natural qn) := by
  have hcited {qn : Str} (h : FoundAlone search cited qn) :
      NamedBy search cited natural cited qn := h.namedBy (List.subset_append_left _ _)
  have hnatural {qn : Str} (h : FoundAlone search natural qn) :
      NamedBy search cited natural natural qn := h.namedBy (List.subset_append_right _ _)
  constructor
  · intro h qn
    refine ⟨fun hnamed => ?_, fun hnone hnamed => ?_⟩
    · have hmatched := (h.verbatim qn).mpr hnamed
      rw [outcome, mem_matched_iff] at hmatched
      exact isBest_verbatim_iff.mp hmatched.1
    · have hmatched := (h.exactName qn).mpr ⟨hnone, hnamed⟩
      rw [outcome, mem_matched_iff] at hmatched
      exact (isBest_exactName_iff.mp hmatched.1).2
  · intro h
    have hverbatim (qn : Str) : FoundAlone search cited qn ↔ NamedBy search cited natural cited qn :=
      ⟨hcited, (h qn).1⟩
    constructor
    · intro cited' natural' hperm hperm' qn mode
      rw [outcome, outcome, mem_matched_iff, mem_matched_iff, isBest_perm search hperm hperm']
    · intro cited' natural' hperm hperm' qn mode
      rw [outcome, outcome, mem_candidates_iff, mem_candidates_iff, isBest_perm search hperm hperm']
    · intro qn
      rw [outcome, mem_matched_iff, isBest_verbatim_iff, hverbatim]
      exact and_iff_left (by decide)
    · intro qn
      rw [outcome, mem_matched_iff, isBest_exactName_iff, hverbatim]
      constructor
      · exact fun hbest => ⟨hbest.1.1, hnatural hbest.1.2⟩
      · exact fun hnamed => ⟨⟨hnamed.1, (h qn).2 hnamed.1 hnamed.2⟩, by decide⟩
    · intro qn hfound
      rw [outcome, mem_candidates_iff, isBest_lexical_iff hfound, hverbatim]
      constructor
      · exact fun hbest => ⟨hbest.1.1, fun hnamed => hbest.1.2 ((h qn).2 hbest.1.1 hnamed)⟩
      · exact fun hnone => ⟨⟨hnone.1, fun halone => hnone.2 (hnatural halone)⟩, rfl⟩

/-- The method `bar` of `Foo`, cited as `Foo::bar`, is dropped. -/
theorem not_bestEvidence : ¬ ∀ search cited natural, BestEvidence search cited natural := by
  intro h
  let hit : SearchResult := ⟨"src/a.rs::Foo::bar".toList, "bar".toList, "Method".toList⟩
  have hfound : hit ∈ searchHits (fun _ => some [hit]) (cleanToken "Foo::bar".toList) := by
    decide +kernel
  have hnames : Names (cleanToken "Foo::bar".toList) hit := .inr (.inr (by decide +kernel))
  have hnamed : NamedBy (fun _ => some [hit]) ["Foo::bar".toList] [] ["Foo::bar".toList]
      hit.qualifiedName :=
    ⟨_, List.mem_singleton_self _, hit, ⟨_, List.mem_cons_self, hfound, rfl⟩, hnames⟩
  obtain ⟨entry, hentry, -⟩ := ((h (fun _ => some [hit]) ["Foo::bar".toList] []).verbatim
    hit.qualifiedName).mpr hnamed
  have hnone : (outcome (fun _ => some [hit]) ["Foo::bar".toList] []).matched = [] := by
    decide +kernel
  rw [hnone] at hentry
  cases hentry

end AutomatisedPipeline.PrdInput
