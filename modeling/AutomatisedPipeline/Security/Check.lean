import AutomatisedPipeline.Security.Gates

/-!
`check_gates` of `security_gates/mod.rs`: the orchestration of the five gates, and
what its report says of the queries that failed.

Every statement that a run puts to the store is recorded with its purpose, so that the
record tells which gate of which symbol a failed query belongs to. The resolution of
the changed symbols is a parameter.
-/

namespace AutomatisedPipeline.Security

open Text Store Query

/-! ### The source's definitions -/

/-- What a statement is put to the store for. -/
inductive Purpose where
  | resolution
  | authScan
  | gate (gate : Gate) (symbol : Str)
deriving DecidableEq

/-- A program over the store whose statements carry their purpose. -/
abbrev CheckM := Asks (Purpose × Statement) Answer

/-- A program run for one purpose. -/
def on {α : Type} (purpose : Purpose) (p : StoreM α) : CheckM α := p.mapAsk (purpose, ·)

/-- `Resolved`. -/
structure Resolved where
  input : Str
  resolvedQn : Option Str
  didYouMean : List Str

/-- `resolve_all`, over `resolve_qualified_name` and its suggestions. -/
def resolveAll (resolve : Str → StoreM (Except (List Str) Str)) :
    List Str → StoreM (List Resolved)
  | [] => return []
  | input :: inputs => do
      let first := match ← resolve input with
        | .ok qn => { input := input, resolvedQn := some qn, didYouMean := [] }
        | .error didYouMean => { input := input, resolvedQn := none, didYouMean := didYouMean }
      return first :: (← resolveAll resolve inputs)

/-- The gates of one symbol, in the order of `check_gates`. -/
def symbolGates (authCommunities : List Str) (qn : Str) (flags : List SecurityFlag) :
    CheckM (Except Str (List SecurityFlag)) := do
  let flags ← on (.gate .authCriticalTouch qn) (runS1 qn authCommunities flags)
  let flags ← on (.gate .unsafeSymbol qn) (runS2 qn flags)
  let flags ← on (.gate .publicApiChange qn) (runS3 qn flags)
  match ← on (.gate .unresolvedImports qn) (runS4 qn flags) with
  | .error error => return .error error
  | .ok flags => return .ok (← on (.gate .testCoverageGap qn) (runS5 qn flags))

/-- The loop of `check_gates` over the resolved symbols. -/
def gatesOver (authCommunities : List Str) :
    List Resolved → List SecurityFlag → CheckM (Except Str (List SecurityFlag))
  | [], flags => return .ok flags
  | r :: rest, flags =>
      match r.resolvedQn with
      | none => gatesOver authCommunities rest flags
      | some qn => do
          match ← symbolGates authCommunities qn flags with
          | .error error => return .error error
          | .ok flags => gatesOver authCommunities rest flags

/-- The flags of the symbols that did not resolve. -/
def unresolvedFlags (resolved : List Resolved) : List SecurityFlag :=
  (resolved.filter (·.resolvedQn.isNone)).map fun r =>
    { gate := .inputUnresolved
      severity := .info
      symbol := r.input
      message := "changed symbol '".toList ++ r.input ++ "' did not resolve in graph".toList
      details := [("did_you_mean", .texts r.didYouMean)] }

/-- `SecuritySummary`. -/
structure SecuritySummary where
  changedSymbols : Nat
  criticalCount : Nat
  warningCount : Nat
  infoCount : Nat

/-- `SecurityReport`. -/
structure SecurityReport where
  gatesPassed : Bool
  flags : List SecurityFlag
  summary : SecuritySummary

/-- `tally`. -/
def tally (flags : List SecurityFlag) (changedSymbols : Nat) : SecuritySummary :=
  { changedSymbols := changedSymbols
    criticalCount := flags.countP (·.severity = .critical)
    warningCount := flags.countP (·.severity = .warning)
    infoCount := flags.countP (·.severity = .info) }

/-- `SecurityReport::assessment_complete`. -/
def SecurityReport.assessmentComplete (report : SecurityReport) : Bool :=
  decide (0 < report.summary.changedSymbols) &&
    !report.flags.any fun flag => decide (flag.gate = .inputUnresolved) || flag.skipped

/-- `check_gates` behind the resolution of the changed symbols. -/
def checkResolved (changedSymbols : List Str) (resolved : List Resolved) :
    CheckM (Except Str SecurityReport) := do
  let authCommunities ← on .authScan findAuthCommunities
  match ← gatesOver authCommunities resolved [] with
  | .error error => return .error error
  | .ok flags =>
      let flags := flags ++ unresolvedFlags resolved
      let summary := tally flags changedSymbols.length
      return .ok { gatesPassed := summary.criticalCount = 0, flags := flags, summary := summary }

/-- `check_gates`. -/
def checkGates (resolve : Str → StoreM (Except (List Str) Str)) (changedSymbols : List Str) :
    CheckM (Except Str SecurityReport) :=
  on .resolution (resolveAll resolve changedSymbols) >>= checkResolved changedSymbols

/-- The symbols the gates run over. -/
def resolvedSymbols (resolved : List Resolved) : List Str := resolved.filterMap Resolved.resolvedQn

/-! ### Failed queries -/

/-- A statement with its purpose, and what the store answered. -/
abbrev Event := (Purpose × Statement) × Answer

/-- The store failed the query. -/
def Failed (e : Event) : Prop := ∃ error, e.2 = .error error

/-- A query that `gate` needs for `symbol` failed: one of its own, or one of the
auth-community scan, which the first gate needs for every symbol. -/
def GateFailed (record : List Event) (gate : Gate) (symbol : Str) : Prop :=
  ∃ e ∈ record, Failed e ∧
    (e.1.1 = .gate gate symbol ∨ (e.1.1 = .authScan ∧ gate = .authCriticalTouch))

/-- No gate is skipped silently: for every resolved symbol and every gate with a failed
query the report holds a flag of that gate marked as skipped, and is not complete. -/
def NoSilentSkip (symbols : List Str) (result : Except Str SecurityReport)
    (record : List Event) : Prop :=
  match result with
  | .error _ => True
  | .ok report => ∀ symbol ∈ symbols, ∀ gate, GateFailed record gate symbol →
      (∃ flag ∈ report.flags, flag.gate = gate ∧ flag.symbol = symbol ∧ flag.skipped = true) ∧
      report.assessmentComplete = false

/-- A purpose whose failed queries read as no rows: the auth-community scan, and the
gates S1, S3 and S5. -/
def Swallowed : Purpose → Prop
  | .authScan => True
  | .gate gate _ =>
      gate = .authCriticalTouch ∨ gate = .publicApiChange ∨ gate = .testCoverageGap
  | .resolution => False

/-- A query of the import check fails, or it is the one that counts the imports and is
answered without a count. -/
def ImportQueryFails (statement : Statement) (answer : Answer) : Prop :=
  (∃ error, answer = .error error) ∨
    (countReturn <:+ statement.cypher ∧ ∃ qr error, answer = .ok qr ∧ importCount qr = .error error)

/-- The import check of a symbol fails. -/
def ImportCheckFails (e : Event) : Prop :=
  (∃ symbol, e.1.1 = .gate .unresolvedImports symbol) ∧ ImportQueryFails e.1.2 e.2

/-! ### The flags of the gates -/

/-- No flag of a gate that swallows its failed queries is marked as skipped. -/
def Unmarked (flags : List SecurityFlag) : Prop :=
  ∀ flag ∈ flags, (∃ symbol, Swallowed (.gate flag.gate symbol)) → flag.skipped = false

theorem Unmarked.append {flags new : List SecurityFlag} (h : Unmarked flags) (hnew : Unmarked new) :
    Unmarked (flags ++ new) := by
  intro flag hflag
  rcases List.mem_append.mp hflag with hmem | hmem
  · exact h flag hmem
  · exact hnew flag hmem

theorem unmarked_singleton {flag : SecurityFlag} (h : flag.skipped = false) : Unmarked [flag] := by
  intro other hother _
  rw [List.mem_singleton.mp hother]
  exact h

theorem unmarked_of_gate {flag : SecurityFlag} (h : ∀ symbol, ¬Swallowed (.gate flag.gate symbol)) :
    Unmarked [flag] := by
  rintro other hother ⟨symbol, hswallowed⟩
  rw [List.mem_singleton.mp hother] at hswallowed
  exact absurd hswallowed (h symbol)

/-- A gate keeps the flags before it, and marks none of those it must not. -/
def Keeps (flags out : List SecurityFlag) : Prop := flags ⊆ out ∧ (Unmarked flags → Unmarked out)

theorem Keeps.refl (flags : List SecurityFlag) : Keeps flags flags := ⟨List.Subset.refl _, id⟩

theorem Keeps.trans {a b c : List SecurityFlag} (hab : Keeps a b) (hbc : Keeps b c) : Keeps a c :=
  ⟨List.Subset.trans hab.1 hbc.1, hbc.2 ∘ hab.2⟩

theorem Keeps.append {flags new : List SecurityFlag} (hnew : Unmarked new) :
    Keeps flags (flags ++ new) :=
  ⟨List.subset_append_left _ _, fun h => h.append hnew⟩

theorem runS1_keeps (qn : Str) (authCommunities : List Str) (flags : List SecurityFlag) :
    (runS1 qn authCommunities flags).Always fun out _ => Keeps flags out := by
  rw [runS1]
  split
  · exact Keeps.refl flags
  · rw [Asks.always_bind]
    refine (Asks.always_true _).mono fun cid _ _ => ?_
    cases cid with
    | none => exact Keeps.refl flags
    | some cid =>
        dsimp only
        split
        · exact Keeps.refl flags
        · exact Keeps.append (unmarked_singleton rfl)

theorem runS2_keeps (qn : Str) (flags : List SecurityFlag) :
    (runS2 qn flags).Always fun out record => record = [] ∧ Keeps flags out ∧
      ∃ flag ∈ out, flag.symbol = qn ∧ flag.skipped = true := by
  refine ⟨rfl, Keeps.append (unmarked_of_gate ?_), _, List.mem_append_right _ (List.mem_singleton_self _),
    rfl, rfl⟩
  intro symbol h
  simp [Swallowed] at h

theorem runS3_keeps (qn : Str) (flags : List SecurityFlag) :
    (runS3 qn flags).Always fun out _ => Keeps flags out := by
  rw [runS3, Asks.always_bind]
  refine (Asks.always_true _).mono fun found _ _ => ?_
  cases found with
  | none => exact Keeps.refl flags
  | some found =>
      dsimp only
      split
      · exact Keeps.refl flags
      · split
        · exact Keeps.refl flags
        · exact Keeps.append (unmarked_singleton rfl)

theorem not_countReturn (front : Str) : ¬countReturn <:+ front ++ "RETURN f.path".toList := by
  rintro ⟨front', h⟩
  have hlast := congrArg List.getLast? h
  have hcount : countReturn.getLast? = some ')' := by decide
  have hpath : "RETURN f.path".toList.getLast? = some 'h' := by decide
  rw [List.getLast?_append, List.getLast?_append, hcount, hpath] at hlast
  simp at hlast

/-- A part of the import check ends in an error exactly when one of its queries fails. -/
def Reported {α : Type} (result : Except Str α) (record : List (Statement × Answer)) : Prop :=
  match result with
  | .error _ => ∃ e ∈ record, ImportQueryFails e.1 e.2
  | .ok _ => ∀ e ∈ record, ¬ImportQueryFails e.1 e.2

/-- The queries for the source file of a symbol and for the files nested in one return
paths. -/
theorem not_importQueryFails {statement : Statement} {qr : QueryResult}
    (h : ¬countReturn <:+ statement.cypher) : ¬ImportQueryFails statement (.ok qr) := by
  rintro (⟨error, herror⟩ | ⟨hcount, -⟩)
  · cases herror
  · exact h hcount

theorem moreSpecificFileExclusions_spec (importPrefix : Str) :
    (moreSpecificFileExclusions importPrefix).Always Reported := by
  intro answer
  cases answer with
  | error error => exact ⟨_, List.mem_singleton_self _, .inl ⟨error, rfl⟩⟩
  | ok qr =>
      intro e he
      rw [List.mem_singleton.mp he]
      apply not_importQueryFails
      rw [show " RETURN f.path".toList = [' '] ++ "RETURN f.path".toList by rfl, ← List.append_assoc]
      exact not_countReturn _

theorem importSourceFile_spec (qn : Str) :
    (importSourceFile qn).Always Reported := by
  intro answer
  cases answer with
  | error error => exact ⟨_, List.mem_singleton_self _, .inl ⟨error, rfl⟩⟩
  | ok qr =>
      intro e he
      rw [List.mem_singleton.mp he]
      apply not_importQueryFails
      rw [show " STARTS WITH (f.path + '::') RETURN f.path".toList =
        " STARTS WITH (f.path + '::') ".toList ++ "RETURN f.path".toList by rfl, ← List.append_assoc]
      exact not_countReturn _

theorem unresolvedImportCount_spec (filePath : Str) :
    (unresolvedImportCount filePath).Always Reported := by
  rw [unresolvedImportCount, Asks.always_bind]
  refine (moreSpecificFileExclusions_spec _).mono fun exclusions record h => ?_
  cases exclusions with
  | error error =>
      obtain ⟨e, he, hfails⟩ := h
      exact ⟨e, List.mem_append_left _ he, hfails⟩
  | ok exclusions =>
      intro answer
      cases answer with
      | error error =>
          exact ⟨_, List.mem_append_right _ (List.mem_singleton_self _), .inl ⟨error, rfl⟩⟩
      | ok qr =>
          change Reported (importCount qr) (record ++ ([(_, .ok qr)] ++ []))
          cases hcount : importCount qr with
          | error error =>
              exact ⟨_, List.mem_append_right _ (List.mem_singleton_self _),
                .inr ⟨List.suffix_append _ _, qr, error, rfl, hcount⟩⟩
          | ok count =>
              intro e he
              rcases List.mem_append.mp he with hmem | hmem
              · exact h e hmem
              · rw [List.mem_singleton.mp hmem]
                rintro (⟨error, herror⟩ | ⟨-, qr', error, hqr, herror⟩)
                · cases herror
                · cases hqr
                  rw [hcount] at herror
                  cases herror

/-- The import check passes on every error of its queries. -/
theorem runS4_spec (qn : Str) (flags : List SecurityFlag) :
    (runS4 qn flags).Always fun result record =>
      Reported result record ∧ ∀ out, result = .ok out → Keeps flags out := by
  have hunmarked : ∀ flag : SecurityFlag, flag.gate = .unresolvedImports → Unmarked [flag] := by
    intro flag hgate
    apply unmarked_of_gate
    intro symbol h
    simp [Swallowed, hgate] at h
  rw [runS4, Asks.always_bind]
  refine (importSourceFile_spec qn).mono fun source record h => ?_
  match source, h with
  | .error error, h =>
      obtain ⟨e, he, hfails⟩ := h
      exact ⟨⟨e, List.mem_append_left _ he, hfails⟩, fun out hout => by cases hout⟩
  | .ok none, h =>
      refine ⟨by simpa [Reported] using h, fun out hout => ?_⟩
      cases hout
      exact Keeps.append (hunmarked _ rfl)
  | .ok (some filePath), h =>
      dsimp only
      rw [Asks.always_bind]
      refine (unresolvedImportCount_spec filePath).mono fun count record' h' => ?_
      cases count with
      | error error =>
          obtain ⟨e, he, hfails⟩ := h'
          exact ⟨⟨e, by simp [he], hfails⟩, fun out hout => by cases hout⟩
      | ok count =>
          have hall : ∀ out : List SecurityFlag, Reported (.ok out) (record ++ (record' ++ [])) := by
            intro out e he
            simp only [List.append_nil, List.mem_append] at he
            exact he.elim (h e) (h' e)
          dsimp only
          split
          · refine ⟨hall flags, fun out hout => ?_⟩
            cases hout
            exact Keeps.refl flags
          · refine ⟨hall _, fun out hout => ?_⟩
            cases hout
            exact Keeps.append (hunmarked _ rfl)

theorem runS5_keeps (qn : Str) (flags : List SecurityFlag) :
    (runS5 qn flags).Always fun out _ => Keeps flags out := by
  rw [runS5, Asks.always_bind]
  refine (Asks.always_true _).mono fun reached _ _ => ?_
  split
  · exact Keeps.refl flags
  · exact Keeps.append (unmarked_singleton rfl)

/-! ### The run of all gates -/

/-- A query that a gate issues for `symbol` and reads as no rows when it fails. -/
def Quiet (symbol : Str) (e : Event) : Prop :=
  ∃ gate, e.1.1 = .gate gate symbol ∧ Swallowed e.1.1

/-- A query of the import check of `symbol`. -/
def OfImportCheck (symbol : Str) (e : Event) : Prop := e.1.1 = .gate .unresolvedImports symbol

theorem Quiet.not_importCheckFails {symbol : Str} {e : Event} (h : Quiet symbol e) :
    ¬ImportCheckFails e := by
  rintro ⟨⟨symbol', hpurpose⟩, -⟩
  obtain ⟨gate, -, hswallowed⟩ := h
  rw [hpurpose] at hswallowed
  simp [Swallowed] at hswallowed

/-- The record of a gate that swallows its failed queries. -/
theorem quiet_of_gate {gate : Gate} {symbol : Str} (h : Swallowed (.gate gate symbol))
    (record : List (Statement × Answer)) :
    ∀ e ∈ record.map (fun e => ((Purpose.gate gate symbol, e.1), e.2)), Quiet symbol e := by
  intro e he
  obtain ⟨e', -, rfl⟩ := List.mem_map.mp he
  exact ⟨gate, rfl, h⟩

/-- The record of the import check. -/
theorem ofImportCheck_of_gate (symbol : Str) (record : List (Statement × Answer)) :
    ∀ e ∈ record.map (fun e => ((Purpose.gate .unresolvedImports symbol, e.1), e.2)),
      OfImportCheck symbol e ∧ ∃ e' ∈ record, e = ((.gate .unresolvedImports symbol, e'.1), e'.2) := by
  intro e he
  obtain ⟨e', he', rfl⟩ := List.mem_map.mp he
  exact ⟨rfl, e', he', rfl⟩

/-- What the gates leave for the symbols `symbols`: the queries belong to the gates S1,
S3, S4 and S5 of these symbols, an error means that an import check failed, and without
one no import check did, and each symbol has a flag marked as skipped. -/
structure GatesLeave (symbols : List Str) (flags : List SecurityFlag)
    (result : Except Str (List SecurityFlag)) (record : List Event) : Prop where
  purposes : ∀ e ∈ record, ∃ symbol ∈ symbols, Quiet symbol e ∨ OfImportCheck symbol e
  on_error : ∀ error, result = .error error → ∃ e ∈ record, ImportCheckFails e
  no_failure : ∀ out, result = .ok out → ∀ e ∈ record, ¬ImportCheckFails e
  keeps : ∀ out, result = .ok out → Keeps flags out
  skipped : ∀ out, result = .ok out →
    ∀ symbol ∈ symbols, ∃ flag ∈ out, flag.symbol = symbol ∧ flag.skipped = true

theorem symbolGates_spec (authCommunities : List Str) (qn : Str) (flags : List SecurityFlag) :
    (symbolGates authCommunities qn flags).Always (GatesLeave [qn] flags) := by
  simp only [symbolGates, on, Asks.always_bind, Asks.always_mapAsk]
  refine (runS1_keeps qn authCommunities flags).mono fun flags₁ record₁ keeps₁ => ?_
  refine (runS2_keeps qn flags₁).mono fun flags₂ record₂ h₂ => ?_
  obtain ⟨hrecord₂, keeps₂, hskipped⟩ := h₂
  refine (runS3_keeps qn flags₂).mono fun flags₃ record₃ keeps₃ => ?_
  refine (runS4_spec qn flags₃).mono fun result record₄ h₄ => ?_
  obtain ⟨hreported, keeps₄⟩ := h₄
  subst hrecord₂
  have quiet₁ := @quiet_of_gate .authCriticalTouch qn (.inl rfl) record₁
  have quiet₃ := @quiet_of_gate .publicApiChange qn (.inr (.inl rfl)) record₃
  have import₄ := ofImportCheck_of_gate qn record₄
  cases result with
  | error error =>
      obtain ⟨e, he, hfails⟩ := hreported
      refine ⟨?_, ?_, by simp, by simp, by simp⟩
      · intro e he
        refine ⟨qn, List.mem_singleton_self _, ?_⟩
        simp only [List.map_nil, List.nil_append, List.append_nil, List.mem_append] at he
        rcases he with h | h | h
        · exact .inl (quiet₁ e h)
        · exact .inl (quiet₃ e h)
        · exact .inr (import₄ e h).1
      · rintro - -
        refine ⟨((.gate .unresolvedImports qn, e.1), e.2), ?_, ⟨qn, rfl⟩, hfails⟩
        simp only [List.map_nil, List.nil_append, List.append_nil, List.mem_append]
        exact .inr (.inr (List.mem_map_of_mem he))
  | ok flags₄ =>
      simp only [Asks.always_bind, Asks.always_mapAsk]
      refine (runS5_keeps qn flags₄).mono fun flags₅ record₅ keeps₅ => ?_
      have quiet₅ := @quiet_of_gate .testCoverageGap qn (.inr (.inr rfl)) record₅
      have hkeeps : Keeps flags flags₅ :=
        ((keeps₁.trans keeps₂).trans keeps₃).trans ((keeps₄ _ rfl).trans keeps₅)
      have hkept : flags₂ ⊆ flags₅ := (keeps₃.trans ((keeps₄ _ rfl).trans keeps₅)).1
      refine ⟨?_, by simp, ?_, ?_, ?_⟩
      · intro e he
        refine ⟨qn, List.mem_singleton_self _, ?_⟩
        simp only [List.map_nil, List.nil_append, List.append_nil, List.mem_append] at he
        rcases he with h | h | h | h
        · exact .inl (quiet₁ e h)
        · exact .inl (quiet₃ e h)
        · exact .inr (import₄ e h).1
        · exact .inl (quiet₅ e h)
      · intro out hout e he
        simp only [List.map_nil, List.nil_append, List.append_nil, List.mem_append] at he
        rcases he with h | h | h | h
        · exact (quiet₁ e h).not_importCheckFails
        · exact (quiet₃ e h).not_importCheckFails
        · rintro ⟨-, hfails⟩
          obtain ⟨e', he', hsame⟩ := (import₄ e h).2
          rw [hsame] at hfails
          exact hreported e' he' hfails
        · exact (quiet₅ e h).not_importCheckFails
      · intro out hout
        cases hout
        exact hkeeps
      · intro out hout symbol hsymbol
        cases hout
        obtain ⟨flag, hflag, hfacts⟩ := hskipped
        rw [List.mem_singleton.mp hsymbol]
        exact ⟨flag, hkept hflag, hfacts⟩

theorem gatesOver_spec (authCommunities : List Str) (resolved : List Resolved)
    (flags : List SecurityFlag) :
    (gatesOver authCommunities resolved flags).Always
      (GatesLeave (resolvedSymbols resolved) flags) := by
  induction resolved generalizing flags with
  | nil =>
      refine ⟨by simp, by simp, by simp, fun out hout => ?_, by simp [resolvedSymbols]⟩
      cases hout
      exact Keeps.refl flags
  | cons r rest ih =>
      rw [gatesOver]
      cases hqn : r.resolvedQn with
      | none =>
          have hsame : resolvedSymbols (r :: rest) = resolvedSymbols rest := by
            simp [resolvedSymbols, hqn]
          rw [hsame]
          exact ih flags
      | some qn =>
          have hsymbols : resolvedSymbols (r :: rest) = qn :: resolvedSymbols rest := by
            simp [resolvedSymbols, hqn]
          rw [hsymbols]
          dsimp only
          rw [Asks.always_bind]
          refine (symbolGates_spec authCommunities qn flags).mono fun result record first => ?_
          cases result with
          | error error =>
              refine ⟨?_, ?_, by simp, by simp, by simp⟩
              · intro e he
                obtain ⟨symbol, hsymbol, hpurpose⟩ := first.purposes e (by simpa using he)
                exact ⟨symbol, by simp_all, hpurpose⟩
              · rintro - -
                obtain ⟨e, he, hfails⟩ := first.on_error error rfl
                exact ⟨e, by simpa using he, hfails⟩
          | ok flags' =>
              refine (ih flags').mono fun result record' later => ?_
              refine ⟨?_, ?_, ?_, ?_, ?_⟩
              · intro e he
                rcases List.mem_append.mp he with hmem | hmem
                · obtain ⟨symbol, hsymbol, hpurpose⟩ := first.purposes e hmem
                  exact ⟨symbol, by simp_all, hpurpose⟩
                · obtain ⟨symbol, hsymbol, hpurpose⟩ := later.purposes e hmem
                  exact ⟨symbol, List.mem_cons_of_mem _ hsymbol, hpurpose⟩
              · intro error herror
                obtain ⟨e, he, hfails⟩ := later.on_error error herror
                exact ⟨e, List.mem_append_right _ he, hfails⟩
              · intro out hout e he
                rcases List.mem_append.mp he with hmem | hmem
                · exact first.no_failure flags' rfl e hmem
                · exact later.no_failure out hout e hmem
              · intro out hout
                exact (first.keeps flags' rfl).trans (later.keeps out hout)
              · intro out hout symbol hsymbol
                rcases List.mem_cons.mp hsymbol with rfl | hmem
                · obtain ⟨flag, hflag, hfacts⟩ := first.skipped flags' rfl symbol (by simp)
                  exact ⟨flag, (later.keeps out hout).1 hflag, hfacts⟩
                · exact later.skipped out hout symbol hmem

/-! ### The report -/

/-- The condition under which a run of `check_gates` skips no gate silently: no symbol
resolves, an import check fails (and with it the run), or no query that is read as no
rows when it fails does fail. -/
def NothingSwallowed (symbols : List Str) (record : List Event) : Prop :=
  symbols = [] ∨ (∃ e ∈ record, ImportCheckFails e) ∨ ∀ e ∈ record, Swallowed e.1.1 → ¬Failed e

theorem unmarked_unresolvedFlags (resolved : List Resolved) : Unmarked (unresolvedFlags resolved) := by
  intro flag hflag _
  obtain ⟨r, -, rfl⟩ := List.mem_map.mp hflag
  rfl

/-- A failed query of a swallowing gate leaves that gate without a skipped flag. -/
theorem swallowed_failure_unflagged {flags : List SecurityFlag} (h : Unmarked flags) {gate : Gate}
    {symbol : Str} (hswallowed : Swallowed (.gate gate symbol)) :
    ¬∃ flag ∈ flags, flag.gate = gate ∧ flag.symbol = symbol ∧ flag.skipped = true := by
  rintro ⟨flag, hflag, rfl, -, hskipped⟩
  rw [h flag hflag ⟨symbol, hswallowed⟩] at hskipped
  cases hskipped

theorem checkResolved_spec (changedSymbols : List Str) (resolved : List Resolved) :
    (checkResolved changedSymbols resolved).Always fun result record =>
      NoSilentSkip (resolvedSymbols resolved) result record ↔
        NothingSwallowed (resolvedSymbols resolved) record := by
  simp only [checkResolved, on, Asks.always_bind, Asks.always_mapAsk]
  refine (Asks.always_true _).mono fun authCommunities scan _ => ?_
  refine (gatesOver_spec authCommunities resolved []).mono fun result record left => ?_
  have hscan : ∀ e ∈ scan.map (fun e => ((Purpose.authScan, e.1), e.2)), e.1.1 = .authScan := by
    intro e he
    obtain ⟨e', -, rfl⟩ := List.mem_map.mp he
    rfl
  generalize scan.map (fun e => ((Purpose.authScan, e.1), e.2)) = scan at hscan
  cases result with
  | error error =>
      obtain ⟨e, he, hfails⟩ := left.on_error error rfl
      exact ⟨fun _ => .inr (.inl ⟨e, by simp [he], hfails⟩), fun _ => trivial⟩
  | ok flags =>
      simp only [Asks.always_pure, List.append_nil]
      have hunmarked : Unmarked (flags ++ unresolvedFlags resolved) :=
        ((left.keeps flags rfl).2 (by simp [Unmarked])).append (unmarked_unresolvedFlags resolved)
      constructor
      · intro hflagged
        by_cases hsymbols : resolvedSymbols resolved = []
        · exact .inl hsymbols
        · refine .inr (.inr fun e he hswallowed hfailed => ?_)
          rcases List.mem_append.mp he with hmem | hmem
          · -- the scan belongs to the first gate of every symbol
            obtain ⟨symbol, hsymbol⟩ := List.exists_mem_of_ne_nil _ hsymbols
            have hgate : GateFailed (scan ++ record) .authCriticalTouch symbol :=
              ⟨e, he, hfailed, .inr ⟨hscan e hmem, rfl⟩⟩
            exact swallowed_failure_unflagged hunmarked (.inl rfl)
              (hflagged symbol hsymbol _ hgate).1
          · obtain ⟨symbol, hsymbol, hquiet | himport⟩ := left.purposes e hmem
            · obtain ⟨gate, hpurpose, -⟩ := hquiet
              rw [hpurpose] at hswallowed
              exact swallowed_failure_unflagged hunmarked hswallowed
                (hflagged symbol hsymbol gate ⟨e, he, hfailed, .inl hpurpose⟩).1
            · rw [OfImportCheck] at himport
              simp [himport, Swallowed] at hswallowed
      · rintro (hsymbols | ⟨e, he, hfails⟩ | hanswered)
        · intro symbol hsymbol
          rw [hsymbols] at hsymbol
          cases hsymbol
        · rcases List.mem_append.mp he with hmem | hmem
          · obtain ⟨⟨symbol, hpurpose⟩, -⟩ := hfails
            rw [hscan e hmem] at hpurpose
            cases hpurpose
          · exact absurd hfails (left.no_failure flags rfl e hmem)
        · rintro symbol hsymbol gate ⟨e, he, hfailed, hpurpose⟩
          exfalso
          rcases List.mem_append.mp he with hmem | hmem
          · exact hanswered e he (by rw [hscan e hmem]; trivial) hfailed
          · obtain ⟨symbol', -, hquiet | himport⟩ := left.purposes e hmem
            · obtain ⟨gate', -, hswallowed⟩ := hquiet
              exact hanswered e he hswallowed hfailed
            · exact left.no_failure flags rfl e hmem ⟨⟨symbol', himport⟩, .inl hfailed⟩

/-- The queries of the resolution belong to no gate. -/
theorem noSilentSkip_append {resolution record : List Event}
    (h : ∀ e ∈ resolution, e.1.1 = .resolution) (symbols : List Str)
    (result : Except Str SecurityReport) :
    NoSilentSkip symbols result (resolution ++ record) ↔ NoSilentSkip symbols result record := by
  have hgate : ∀ gate symbol,
      GateFailed (resolution ++ record) gate symbol ↔ GateFailed record gate symbol := by
    intro gate symbol
    constructor
    · rintro ⟨e, he, hfailed, hpurpose⟩
      rcases List.mem_append.mp he with hmem | hmem
      · rw [h e hmem] at hpurpose
        simp at hpurpose
      · exact ⟨e, hmem, hfailed, hpurpose⟩
    · rintro ⟨e, he, hfailed, hpurpose⟩
      exact ⟨e, List.mem_append_right _ he, hfailed, hpurpose⟩
  simp only [NoSilentSkip, hgate]

theorem nothingSwallowed_append {resolution record : List Event}
    (h : ∀ e ∈ resolution, e.1.1 = .resolution) (symbols : List Str) :
    NothingSwallowed symbols (resolution ++ record) ↔ NothingSwallowed symbols record := by
  have himport : ∀ e ∈ resolution, ¬ImportCheckFails e := by
    rintro e he ⟨⟨symbol, hpurpose⟩, -⟩
    rw [h e he] at hpurpose
    cases hpurpose
  have hswallowed : ∀ e ∈ resolution, ¬Swallowed e.1.1 := by
    intro e he hs
    rw [h e he] at hs
    exact hs
  simp only [NothingSwallowed, List.mem_append]
  constructor
  · rintro (hnone | ⟨e, hmem | hmem, hfails⟩ | hall)
    · exact .inl hnone
    · exact absurd hfails (himport e hmem)
    · exact .inr (.inl ⟨e, hmem, hfails⟩)
    · exact .inr (.inr fun e he => hall e (.inr he))
  · rintro (hnone | ⟨e, hmem, hfails⟩ | hall)
    · exact .inl hnone
    · exact .inr (.inl ⟨e, .inr hmem, hfails⟩)
    · refine .inr (.inr ?_)
      rintro e (hmem | hmem) hs
      · exact absurd hs (hswallowed e hmem)
      · exact hall e hmem hs

/-- Against every store, whatever queries it fails and when, and for every list of
changed symbols: a run of `check_gates` skips no gate silently exactly when no symbol
resolves, an import check fails, or no query of the auth-community scan and of the
gates S1, S3 and S5 fails. -/
theorem skipped_gates_are_flagged_iff (store : Nat → Statement → Answer)
    (resolve : Str → StoreM (Except (List Str) Str)) (changedSymbols : List Str) :
    let symbols := resolvedSymbols ((resolveAll resolve changedSymbols).exec store 0).1
    let run := (checkGates resolve changedSymbols).exec (fun n asked => store n asked.2) 0
    NoSilentSkip symbols run.1 run.2 ↔ NothingSwallowed symbols run.2 := by
  intro symbols run
  have hrun : run = (checkGates resolve changedSymbols).exec (fun n asked => store n asked.2) 0 := rfl
  rw [checkGates, Asks.exec_bind, on, Asks.exec_mapAsk] at hrun
  have hresolution : ∀ e ∈ ((resolveAll resolve changedSymbols).exec store 0).2.map
      (fun e => ((Purpose.resolution, e.1), e.2)), e.1.1 = .resolution := by
    intro e he
    obtain ⟨e', -, rfl⟩ := List.mem_map.mp he
    rfl
  rw [hrun]
  simp only
  rw [noSilentSkip_append hresolution, nothingSwallowed_append hresolution]
  exact (checkResolved_spec changedSymbols _).exec _ _

/-- A store that fails the auth-community scan of functions and answers every other
query without a row. -/
def storeFailingAuthScan (_ : Nat) (statement : Statement) : Answer :=
  if statement.cypher = authScanQuery "Function".toList then .error "IO exception".toList
  else .ok { columns := [], rows := [] }

/-- The failed scan of an auth-critical symbol's community leaves no skipped flag. -/
theorem failed_auth_scan_is_not_flagged :
    ¬∀ (store : Nat → Statement → Answer) (resolve : Str → StoreM (Except (List Str) Str))
      (changedSymbols : List Str),
      let symbols := resolvedSymbols ((resolveAll resolve changedSymbols).exec store 0).1
      let run := (checkGates resolve changedSymbols).exec (fun n asked => store n asked.2) 0
      NoSilentSkip symbols run.1 run.2 := by
  intro h
  have hrun := h storeFailingAuthScan (fun input => return .ok input) ["login.rs::login".toList]
  dsimp only at hrun
  generalize hresult : (checkGates (fun input => return .ok input)
    ["login.rs::login".toList]).exec (fun n asked => storeFailingAuthScan n asked.2) 0 = run at hrun
  have hok : (run.1.toOption.map fun report => report.flags.all fun flag =>
      !(decide (flag.gate = .authCriticalTouch) && flag.skipped)) = some true := by
    rw [← hresult]
    decide +kernel
  have hfailed : (run.2.any fun e => decide (e.1.1 = .authScan) && !e.2.toOption.isSome) = true := by
    rw [← hresult]
    decide +kernel
  obtain ⟨e, he, hscan⟩ := List.any_eq_true.mp hfailed
  simp only [Bool.and_eq_true, decide_eq_true_eq, Bool.not_eq_true'] at hscan
  obtain ⟨⟨purpose, statement⟩, answer⟩ := e
  cases answer with
  | ok qr => exact absurd hscan.2 (by simp [Except.toOption])
  | error error =>
      obtain ⟨result, record⟩ := run
      cases result with
      | error error => cases hok
      | ok report =>
          obtain ⟨⟨flag, hflag, hgate, -, hskipped⟩, -⟩ := hrun "login.rs::login".toList
            (by decide +kernel) .authCriticalTouch ⟨_, he, ⟨error, rfl⟩, .inr ⟨hscan.1, rfl⟩⟩
          have hall := List.all_eq_true.mp (Option.some.inj hok) flag hflag
          simp [hgate, hskipped] at hall

end AutomatisedPipeline.Security
