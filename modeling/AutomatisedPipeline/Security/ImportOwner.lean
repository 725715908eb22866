import AutomatisedPipeline.Logic.Run
import AutomatisedPipeline.Security.Gates

/-!
Which file an unresolved import is charged to (`unresolved_import_count`). A symbol belongs to the
longest file path that its name goes on behind with `::`. Its imports are selected by that path, less
those of the longer paths that start with the same prefix. A path with one colon more is longer and
does not start with the prefix.
-/

namespace AutomatisedPipeline.Security

open Text Store Query

/-! ### Owners -/

/-- A name stands in a file. -/
def StandsIn (id file : Str) : Prop := file ++ "::".toList <+: id

instance (id file : Str) : Decidable (StandsIn id file) :=
  inferInstanceAs (Decidable (_ <+: _))

/-- The owner of a name: the longest file it stands in. -/
structure Owns (files : List Str) (file id : Str) : Prop where
  mem : file ∈ files
  stands : StandsIn id file
  longest : ∀ other ∈ files, StandsIn id other → other.length ≤ file.length

instance (files : List Str) (file id : Str) : Decidable (Owns files file id) :=
  decidable_of_iff (file ∈ files ∧ StandsIn id file ∧
      ∀ other ∈ files, StandsIn id other → other.length ≤ file.length)
    ⟨fun h => ⟨h.1, h.2.1, h.2.2⟩, fun h => ⟨h.mem, h.stands, h.longest⟩⟩

/-- An import node, of which the flag may be missing. -/
structure ImportNode where
  id : Str
  isResolved : Option Bool
deriving DecidableEq, Repr

/-- The files and the imports of a graph. The id of an import goes on behind the path of a file. -/
structure ImportGraph where
  files : List Str
  imports : List ImportNode
  files_nodup : files.Nodup
  imports_stand : ∀ i ∈ imports, ∃ file ∈ files, StandsIn i.id file

namespace ImportGraph

variable (g : ImportGraph)

def unresolved : List ImportNode := g.imports.filter fun i => i.isResolved ≠ some true

/-- The unresolved imports a file owns. -/
def ownedBy (file : Str) : List ImportNode :=
  g.unresolved.filter fun i => Owns g.files file i.id

/-- The unresolved imports that stand in a file, less those that stand in a file whose path starts
with the same prefix. -/
def chargedTo (file : Str) : List ImportNode :=
  g.unresolved.filter fun i => StandsIn i.id file ∧
    ∀ other ∈ g.files, file ++ "::".toList <+: other → ¬ StandsIn i.id other

/-- The unresolved imports selected by a prefix, less those of some longer prefixes. -/
def selected (start : Str) (excluded : List Str) : List ImportNode :=
  g.unresolved.filter fun i => start <+: i.id ∧ ∀ other ∈ excluded, ¬ other <+: i.id

end ImportGraph

/-! ### The store -/

/-- The statement of `import_source_file`. -/
def ownerQuery (name : Str) : Str :=
  "MATCH (f:File) WHERE ".toList ++ cypherStr name ++
    " STARTS WITH (f.path + '::') RETURN f.path".toList

/-- The statement of `more_specific_file_exclusions`. -/
def nestedQuery (start : Str) : Str :=
  "MATCH (f:File) WHERE f.path STARTS WITH ".toList ++ cypherStr start ++ " RETURN f.path".toList

/-- The exclusions in the statement of `unresolved_import_count`. -/
def exclusionsText (excluded : List Str) : Str :=
  excluded.flatMap fun other => " AND NOT (i.id STARTS WITH ".toList ++ cypherStr other ++ [')']

/-- The statement of `unresolved_import_count`. -/
def countQuery (start : Str) (excluded : List Str) : Str :=
  "MATCH (i:Import) WHERE i.id STARTS WITH ".toList ++ cypherStr start ++
    exclusionsText excluded ++ " AND (i.is_resolved = false OR i.is_resolved IS NULL) ".toList ++
      countReturn

/-- The rows of a single column. -/
def column (cells : List Str) : List Row := cells.map fun cell => [cell]

/-- A store that holds the graph: rows come in any order, and a count is a number of 64 bits. -/
structure Holds (g : ImportGraph) (store : Str → Answer) : Prop where
  owner : ∀ name, ∃ qr, store (ownerQuery name) = .ok qr ∧
    qr.rows.Perm (column (g.files.filter (StandsIn name ·)))
  nested : ∀ start, ∃ qr, store (nestedQuery start) = .ok qr ∧
    qr.rows.Perm (column (g.files.filter (start <+: ·)))
  count : ∀ start excluded, ∃ qr, store (countQuery start excluded) = .ok qr ∧
    qr.rows = column [digits (g.selected start excluded).length]
  fits : g.imports.length < 2 ^ 63

/-- The result of a program against a store. -/
abbrev against {α : Type} (store : Str → Answer) (p : StoreM α) : α :=
  p.run fun statement => store statement.cypher

/-- Each symbol is charged with the unresolved imports of the file that owns it, and over all files
each unresolved import is counted once. -/
structure Charged (g : ImportGraph) (store : Str → Answer) : Prop where
  owner : ∀ name file, Owns g.files file name →
    against store (importSourceFile name) = .ok (some file) ∧
      against store (unresolvedImportCount file) = .ok (g.ownedBy file).length
  once : ∃ count : Str → Nat,
    (∀ file ∈ g.files, against store (unresolvedImportCount file) = .ok (count file)) ∧
      (g.files.map count).sum = g.unresolved.length

/-! ### Prefixes of one name -/

theorem StandsIn.begins {id file : Str} (h : StandsIn id file) : file <+: id :=
  (List.prefix_append _ _).trans h

theorem StandsIn.leads {id file other : Str} (h : StandsIn id file) (h' : StandsIn id other)
    (hle : file.length ≤ other.length) : file <+: other :=
  List.prefix_of_prefix_length_le h.begins h'.begins hle

theorem Owns.eq {files : List Str} {id file other : Str} (h : Owns files file id)
    (h' : Owns files other id) : file = other :=
  (h.stands.leads h'.stands (h'.longest file h.mem h.stands)).eq_of_length_le
    (h.longest other h'.mem h'.stands)

/-- A longer path of a name that does not start with the separator behind the shorter one is one
colon longer. -/
theorem eq_colon_of_not_begins {id file other : Str} (h : StandsIn id file)
    (h' : StandsIn id other) (hlt : file.length < other.length)
    (hnot : ¬ file ++ "::".toList <+: other) : other = file ++ [':'] := by
  have hlen : other.length ≤ file.length + 1 := by
    by_contra hlong
    refine hnot (List.prefix_of_prefix_length_le h h'.begins ?_)
    simp
    omega
  have hcolon : file ++ [':'] <+: id := by
    refine List.IsPrefix.trans ?_ h
    exact ⟨[':'], by simp⟩
  exact (List.prefix_of_prefix_length_le h'.begins hcolon (by simpa using hlen)).eq_of_length_le
    (by simpa using hlt)

theorem utf8Len_lt_of_begins {a b : Str} (h : a <+: b) (hne : a ≠ b) : utf8Len a < utf8Len b := by
  obtain ⟨rest, rfl⟩ := h
  cases rest with
  | nil => exact absurd (List.append_nil a).symm hne
  | cons c rest =>
      have hpos : 0 < c.utf8Size := Char.utf8Size_pos c
      simp only [utf8Len, List.map_append, List.sum_append, List.map_cons, List.sum_cons]
      omega

/-- The last of the longest is one of the longest. -/
theorem longest_spec (paths : List Str) : (paths = [] ∧ longest paths = none) ∨
    ∃ path ∈ paths, longest paths = some path ∧ ∀ other ∈ paths, utf8Len other ≤ utf8Len path := by
  refine Run.foldl_invariant (l := paths)
    (fun seen best => (seen = [] ∧ best = none) ∨
      ∃ path ∈ seen, best = some path ∧ ∀ other ∈ seen, utf8Len other ≤ utf8Len path)
    (.inl ⟨rfl, rfl⟩) ?_
  rintro seen a rest best - (⟨rfl, rfl⟩ | ⟨path, hpath, rfl, hall⟩)
  · exact .inr ⟨a, by simp, rfl, by simp⟩
  · right
    by_cases hle : utf8Len path ≤ utf8Len a
    · refine ⟨a, by simp, by simp [hle], fun other hother => ?_⟩
      obtain hother | hother := List.mem_append.mp hother
      · exact (hall other hother).trans hle
      · rw [List.mem_singleton.mp hother]
    · refine ⟨path, List.mem_append_left _ hpath, by simp [hle], fun other hother => ?_⟩
      obtain hother | hother := List.mem_append.mp hother
      · exact hall other hother
      · rw [List.mem_singleton.mp hother]
        exact Nat.le_of_not_le hle

/-! ### What the statements find -/

section Store

variable {g : ImportGraph} {store : Str → Answer} (h : Holds g store)

theorem firstColumn_perm {qr : QueryResult} {cells : List Str} (h : qr.rows.Perm (column cells)) :
    (firstColumn qr).Perm cells := by
  have hcells (cells : List Str) : (column cells).filterMap List.head? = cells := by
    induction cells with
    | nil => rfl
    | cons cell cells ih => exact congrArg (cell :: ·) ih
  exact hcells cells ▸ h.filterMap List.head?

include h

/-- The file a symbol stands in is its owner. -/
theorem run_importSourceFile {name file : Str} (howns : Owns g.files file name) :
    against store (importSourceFile name) = .ok (some file) := by
  obtain ⟨qr, hstore, hrows⟩ := h.owner name
  have hmem : ∀ path, path ∈ firstColumn qr ↔ path ∈ g.files ∧ StandsIn name path := by
    intro path
    rw [(firstColumn_perm hrows).mem_iff, List.mem_filter, decide_eq_true_iff]
  have hfound : longest (firstColumn qr) = some file := by
    have hfile := (hmem file).mpr ⟨howns.mem, howns.stands⟩
    obtain ⟨hnil, -⟩ | ⟨path, hpath, hlongest, hall⟩ := longest_spec (firstColumn qr)
    · rw [hnil] at hfile
      cases hfile
    · obtain ⟨hpathMem, hstands⟩ := (hmem path).mp hpath
      have hprefix := hstands.leads howns.stands (howns.longest path hpathMem hstands)
      by_cases heq : path = file
      · rw [hlongest, heq]
      · exact absurd (hall file hfile) (Nat.not_le.mpr (utf8Len_lt_of_begins hprefix heq))
  have hquery : store ("MATCH (f:File) WHERE ".toList ++ cypherStr name ++
      " STARTS WITH (f.path + '::') RETURN f.path".toList) = .ok qr := hstore
  simp only [importSourceFile, executeQuery, Asks.run_bind, Asks.run_question, hquery]
  rw [hfound]
  rfl

/-- The count of a file is that of the imports charged to it. -/
theorem run_unresolvedImportCount (file : Str) :
    against store (unresolvedImportCount file) = .ok (g.chargedTo file).length := by
  obtain ⟨qr, hstore, hrows⟩ := h.nested (file ++ "::".toList)
  have hmem : ∀ path, path ∈ (firstColumn qr).insertionSort (· ≤ ·) ↔
      path ∈ g.files ∧ file ++ "::".toList <+: path := by
    intro path
    rw [List.mem_insertionSort, (firstColumn_perm hrows).mem_iff, List.mem_filter,
      decide_eq_true_iff]
  generalize hpaths : (firstColumn qr).insertionSort (· ≤ ·) = paths at hmem
  obtain ⟨counted, hcount, hcell⟩ :=
    h.count (file ++ "::".toList) (paths.map (· ++ "::".toList))
  have hselected : g.selected (file ++ "::".toList) (paths.map (· ++ "::".toList)) =
      g.chargedTo file := by
    refine List.filter_congr fun i _ => decide_eq_decide.mpr ?_
    simp only [List.forall_mem_map, hmem, and_imp, StandsIn]
  have hfits : (g.chargedTo file).length < 2 ^ 64 := by
    have hle : (g.chargedTo file).length ≤ g.imports.length :=
      (List.length_filter_le _ _).trans (List.length_filter_le _ _)
    exact (hle.trans_lt h.fits).trans (by decide)
  have hnested : store ("MATCH (f:File) WHERE f.path STARTS WITH ".toList ++
      cypherStr (file ++ "::".toList) ++ " RETURN f.path".toList) = .ok qr := hstore
  have htext : (paths.flatMap fun path => " AND NOT (i.id STARTS WITH ".toList ++
      cypherStr (path ++ "::".toList) ++ ")".toList) =
        exclusionsText (paths.map (· ++ "::".toList)) := by
    rw [exclusionsText, List.flatMap_map]
    rfl
  have hquery : store ("MATCH (i:Import) WHERE i.id STARTS WITH ".toList ++
      cypherStr (file ++ "::".toList) ++ exclusionsText (paths.map (· ++ "::".toList)) ++
        " AND (i.is_resolved = false OR i.is_resolved IS NULL) ".toList ++ countReturn) =
          .ok counted := hcount
  simp only [unresolvedImportCount, moreSpecificFileExclusions, executeQuery, Asks.run_bind,
    Asks.run_question, hnested, Asks.run_pure, hpaths, htext, hquery]
  rw [importCount, firstCell, hcell, hselected]
  simp only [column, List.map_cons, List.head?_cons, Option.bind_some, parseU64_digits hfits]

end Store

/-! ### Owned and charged imports -/

namespace ImportGraph

variable (g : ImportGraph)

theorem mem_ownedBy {file : Str} {i : ImportNode} :
    i ∈ g.ownedBy file ↔ i ∈ g.unresolved ∧ Owns g.files file i.id := by
  rw [ownedBy, List.mem_filter, decide_eq_true_iff]

theorem mem_chargedTo {file : Str} {i : ImportNode} : i ∈ g.chargedTo file ↔
    i ∈ g.unresolved ∧ StandsIn i.id file ∧
      ∀ other ∈ g.files, file ++ "::".toList <+: other → ¬ StandsIn i.id other := by
  rw [chargedTo, List.mem_filter, decide_eq_true_iff]

/-- What a file owns it is charged with. -/
theorem charged_of_owns {file id : Str} (h : Owns g.files file id) :
    ∀ other ∈ g.files, file ++ "::".toList <+: other → ¬ StandsIn id other := by
  intro other hother hprefix hstands
  have hle := h.longest other hother hstands
  have hlen := hprefix.length_le
  rw [List.length_append] at hlen
  have htwo : ("::".toList).length = 2 := rfl
  omega

/-- Every name that stands in a file has an owner. -/
theorem exists_owner {id : Str} (h : ∃ file ∈ g.files, StandsIn id file) :
    ∃ file, Owns g.files file id := by
  obtain ⟨file, hfile, hstands⟩ := h
  obtain ⟨owner, howner, hmax⟩ := Finset.exists_max_image
    (g.files.filter (StandsIn id ·)).toFinset List.length
    ⟨file, by simpa using ⟨hfile, hstands⟩⟩
  simp only [List.mem_toFinset, List.mem_filter, decide_eq_true_eq] at howner hmax
  exact ⟨owner, howner.1, howner.2, fun other hother h => hmax other ⟨hother, h⟩⟩

/-- A file owns the name that ends behind its separator. -/
theorem owns_separator {file : Str} (h : file ∈ g.files) :
    Owns g.files file (file ++ "::".toList) := by
  refine ⟨h, List.prefix_refl _, fun other _ hstands => ?_⟩
  have hlen := hstands.length_le
  rw [List.length_append, List.length_append] at hlen
  omega

/-- The file with one colon more: what it owns is charged to the shorter one too. -/
theorem charged_of_owns_colon {file id : Str} (h : Owns g.files (file ++ [':']) id) :
    StandsIn id file ∧ ∀ other ∈ g.files, file ++ "::".toList <+: other → ¬ StandsIn id other := by
  constructor
  · exact List.IsPrefix.trans ⟨[':'], by simp⟩ h.stands
  · intro other hother hprefix hstands
    have hle := h.longest other hother hstands
    have hlen := hprefix.length_le
    rw [List.length_append] at hle hlen
    have htwo : ("::".toList).length = 2 := rfl
    rw [List.length_singleton] at hle
    omega

/-- An import charged to a file is owned by it or by the file with one colon more. -/
theorem owner_of_charged {file id : Str} (hstands : StandsIn id file) (hfile : file ∈ g.files)
    (hexcluded : ∀ other ∈ g.files, file ++ "::".toList <+: other → ¬ StandsIn id other) :
    Owns g.files file id ∨ Owns g.files (file ++ [':']) id := by
  obtain ⟨owner, howns⟩ := g.exists_owner ⟨file, hfile, hstands⟩
  obtain hlt | heq := (howns.longest file hfile hstands).lt_or_eq
  · have hnot : ¬ file ++ "::".toList <+: owner := fun hprefix =>
      hexcluded owner howns.mem hprefix howns.stands
    exact .inr (eq_colon_of_not_begins hstands howns.stands hlt hnot ▸ howns)
  · exact .inl ((hstands.leads howns.stands heq.le).eq_of_length heq ▸ howns)

theorem ownedBy_sublist (file : Str) : (g.ownedBy file).Sublist (g.chargedTo file) := by
  refine List.monotone_filter_right _ fun i hi => ?_
  have howns : Owns g.files file i.id := of_decide_eq_true hi
  exact decide_eq_true ⟨howns.stands, g.charged_of_owns howns⟩

/-- A file is charged with what it owns exactly if the file with one colon more owns nothing. -/
theorem length_chargedTo_iff {file : Str} (hfile : file ∈ g.files) :
    (g.chargedTo file).length = (g.ownedBy file).length ↔ g.ownedBy (file ++ [':']) = [] := by
  constructor
  · intro hlen
    have heq : g.ownedBy file = g.chargedTo file := (g.ownedBy_sublist file).eq_of_length hlen.symm
    refine List.eq_nil_iff_forall_not_mem.mpr fun i hi => ?_
    obtain ⟨hunresolved, howns⟩ := g.mem_ownedBy.mp hi
    have hcharged : i ∈ g.chargedTo file :=
      g.mem_chargedTo.mpr ⟨hunresolved, g.charged_of_owns_colon howns⟩
    have hsame := (g.mem_ownedBy.mp (heq ▸ hcharged)).2.eq howns
    simpa using congrArg List.length hsame
  · intro hnone
    refine congrArg List.length (List.filter_congr fun i hi => decide_eq_decide.mpr ?_)
    refine ⟨fun ⟨hstands, hexcluded⟩ => ?_, fun h => ⟨h.stands, g.charged_of_owns h⟩⟩
    obtain howns | howns := g.owner_of_charged hstands hfile hexcluded
    · exact howns
    · have hmem : i ∈ g.ownedBy (file ++ [':']) := g.mem_ownedBy.mpr ⟨hi, howns⟩
      rw [hnone] at hmem
      cases hmem

/-- A sum over files of what each owns counts the elements with one owner. -/
theorem sum_length_filter {l : List ImportNode} {owns : Str → ImportNode → Prop}
    [∀ file i, Decidable (owns file i)]
    (h : ∀ i ∈ l, ∃ owner ∈ g.files, ∀ file, owns file i ↔ file = owner) :
    (g.files.map fun file => (l.filter (owns file ·)).length).sum = l.length := by
  induction l with
  | nil => simp
  | cons i l ih =>
      obtain ⟨owner, howner, hiff⟩ := h i List.mem_cons_self
      have hone : (g.files.map fun file => if file = owner then 1 else 0).sum = 1 := by
        have hcount : ∀ files : List Str,
            (files.map fun file => if file = owner then 1 else 0).sum = files.count owner := by
          intro files
          induction files with
          | nil => rfl
          | cons file files ih =>
              rw [List.map_cons, List.sum_cons, ih, List.count_cons, Nat.add_comm]
              simp
        rw [hcount, List.count_eq_one_of_mem g.files_nodup howner]
      have hcons : ∀ file, ((i :: l).filter (owns file ·)).length =
          (if file = owner then 1 else 0) + (l.filter (owns file ·)).length := by
        intro file
        by_cases hfile : file = owner
        · rw [List.filter_cons_of_pos (by simpa using (hiff file).mpr hfile), if_pos hfile,
            List.length_cons, Nat.add_comm]
        · rw [List.filter_cons_of_neg (by simpa using fun h => hfile ((hiff file).mp h)),
            if_neg hfile, Nat.zero_add]
      simp only [hcons, List.sum_map_add, hone]
      rw [ih fun j hj => h j (List.mem_cons_of_mem i hj), List.length_cons, Nat.add_comm]

/-- Over all files, each unresolved import is owned once. -/
theorem sum_ownedBy :
    (g.files.map fun file => (g.ownedBy file).length).sum = g.unresolved.length := by
  refine g.sum_length_filter fun i hi => ?_
  obtain ⟨owner, howns⟩ := g.exists_owner (g.imports_stand i (List.mem_filter.mp hi).1)
  exact ⟨owner, howns.mem, fun file => ⟨fun h => h.eq howns, fun h => h ▸ howns⟩⟩

end ImportGraph

/-! ### The charge -/

/-- Each unresolved import is charged to its owner, and counted once over all files, exactly if no
file owns one whose path is that of another file and a colon. -/
theorem charged_iff {g : ImportGraph} {store : Str → Answer} (h : Holds g store) :
    Charged g store ↔ ∀ file ∈ g.files, g.ownedBy (file ++ [':']) = [] := by
  constructor
  · intro hcharged file hfile
    have hcount := (hcharged.owner _ file (g.owns_separator hfile)).2
    rw [run_unresolvedImportCount h, Except.ok.injEq] at hcount
    exact (g.length_chargedTo_iff hfile).mp hcount
  · intro hnone
    have hcount : ∀ file ∈ g.files,
        against store (unresolvedImportCount file) = .ok (g.ownedBy file).length := by
      intro file hfile
      rw [run_unresolvedImportCount h, (g.length_chargedTo_iff hfile).mpr (hnone file hfile)]
    refine ⟨fun name file howns => ⟨run_importSourceFile h howns, hcount file howns.mem⟩, ?_⟩
    exact ⟨fun file => (g.ownedBy file).length, hcount, g.sum_ownedBy⟩

/-! ### A store for each graph -/

/-- An escaped text ends at the first quote that is not escaped. -/
theorem escapeChar_append_inj {a b x y : Str}
    (h : a.flatMap escapeChar ++ '\'' :: x = b.flatMap escapeChar ++ '\'' :: y) :
    a = b ∧ x = y := by
  have hnil : ∀ {c : Char} {s : Str} (x y : Str), '\'' :: x ≠ escapeChar c ++ s ++ '\'' :: y := by
    intro c s x y heq
    unfold escapeChar at heq
    split_ifs at heq with hslash hquote
    · exact absurd (List.cons.inj heq).1 (by decide)
    · exact absurd (List.cons.inj heq).1 (by decide)
    · exact hquote (List.cons.inj heq).1.symm
  have hhead : ∀ {c d : Char} {s t : Str}, escapeChar c ++ s = escapeChar d ++ t → c = d ∧ s = t := by
    intro c d s t heq
    unfold escapeChar at heq
    split_ifs at heq <;> grind
  induction a generalizing b with
  | nil =>
      cases b with
      | nil => exact ⟨rfl, (List.cons.inj h).2⟩
      | cons d b => exact absurd h (hnil x y)
  | cons c a ih =>
      cases b with
      | nil => exact absurd h.symm (hnil y x)
      | cons d b =>
          simp only [List.flatMap_cons, List.append_assoc] at h
          obtain ⟨rfl, hrest⟩ := hhead h
          obtain ⟨rfl, hxy⟩ := ih hrest
          exact ⟨rfl, hxy⟩

theorem cypherStr_append_inj {a b x y : Str} (h : cypherStr a ++ x = cypherStr b ++ y) :
    a = b ∧ x = y := by
  refine escapeChar_append_inj ?_
  simpa [cypherStr] using h

/-- What the gate asks the store. -/
inductive Question where
  | owner (name : Str)
  | nested (start : Str)
  | count (start : Str) (excluded : List Str)

def Question.text : Question → Str
  | .owner name => ownerQuery name
  | .nested start => nestedQuery start
  | .count start excluded => countQuery start excluded

def Question.rows (g : ImportGraph) : Question → List Row
  | .owner name => column (g.files.filter (StandsIn name ·))
  | .nested start => column (g.files.filter (start <+: ·))
  | .count start excluded => column [digits (g.selected start excluded).length]

/-- Around an escaped text, the rest of a statement determines the text. -/
theorem around_cypherStr_inj {a b c x y : Str} (h : a ++ cypherStr x ++ b = a ++ cypherStr y ++ c) :
    x = y ∧ b = c := by
  rw [List.append_assoc, List.append_assoc] at h
  exact cypherStr_append_inj (List.append_cancel_left h)

theorem getElem?_of_begins {l s : Str} (h : l <+: s) {i : Nat} {c : Char} (hi : l[i]? = some c) :
    s[i]? = some c := by
  obtain ⟨rest, rfl⟩ := h
  rw [List.getElem?_append_left (List.getElem?_eq_some_iff.mp hi).1]
  exact hi

/-- Escaped texts one behind the other end where the statement goes on differently. -/
theorem flatMap_cypherStr_inj {before after rest : Str} {i : Nat} {c : Char}
    (hbefore : before[i]? = some c) (hrest : rest[i]? ≠ some c) {texts texts' : List Str}
    (h : texts.flatMap (fun t => before ++ cypherStr t ++ after) ++ rest =
      texts'.flatMap (fun t => before ++ cypherStr t ++ after) ++ rest) : texts = texts' := by
  have hcons : ∀ (t : Str) (texts : List Str),
      (t :: texts).flatMap (fun t => before ++ cypherStr t ++ after) ++ rest =
        before ++ cypherStr t ++
          (after ++ (texts.flatMap (fun t => before ++ cypherStr t ++ after) ++ rest)) := by
    intro t texts
    simp only [List.flatMap_cons, List.append_assoc]
  have hmark : ∀ (t : Str) (texts : List Str),
      ((t :: texts).flatMap (fun t => before ++ cypherStr t ++ after) ++ rest)[i]? = some c := by
    intro t texts
    refine getElem?_of_begins ?_ hbefore
    rw [hcons, List.append_assoc]
    exact List.prefix_append _ _
  induction texts generalizing texts' with
  | nil =>
      cases texts' with
      | nil => rfl
      | cons t texts' =>
          rw [List.flatMap_nil, List.nil_append] at h
          exact absurd (h ▸ hmark t texts') hrest
  | cons t texts ih =>
      cases texts' with
      | nil =>
          rw [List.flatMap_nil, List.nil_append] at h
          exact absurd (h ▸ hmark t texts) hrest
      | cons t' texts' =>
          rw [hcons, hcons] at h
          obtain ⟨rfl, hmore⟩ := around_cypherStr_inj h
          exact congrArg _ (ih (List.append_cancel_left hmore))

theorem countQuery_injective {start start' : Str} {excluded excluded' : List Str}
    (h : countQuery start excluded = countQuery start' excluded') :
    start = start' ∧ excluded = excluded' := by
  have hassoc : ∀ a s e u v : Str, a ++ s ++ e ++ u ++ v = a ++ s ++ (e ++ (u ++ v)) := by
    intro a s e u v
    simp only [List.append_assoc]
  have hquery : ∀ start excluded, countQuery start excluded =
      "MATCH (i:Import) WHERE i.id STARTS WITH ".toList ++ cypherStr start ++
        (exclusionsText excluded ++
          (" AND (i.is_resolved = false OR i.is_resolved IS NULL) ".toList ++ countReturn)) :=
    fun start excluded => hassoc _ _ _ _ _
  rw [hquery, hquery] at h
  obtain ⟨hstart, hrest⟩ := around_cypherStr_inj h
  have hmark : (" AND (i.is_resolved = false OR i.is_resolved IS NULL) ".toList ++ countReturn)[5]? ≠
      some 'N' := by decide
  exact ⟨hstart, flatMap_cypherStr_inj (by decide) hmark hrest⟩

theorem ownerQuery_marks (name : Str) :
    (ownerQuery name)[7]? = some 'f' ∧ (ownerQuery name)[21]? = some '\'' := by
  have hquote : ∀ a x t : Str, a ++ ['\''] <+: a ++ '\'' :: x ++ t := by
    intro a x t
    exact ⟨x ++ t, by simp⟩
  have hpre := hquote "MATCH (f:File) WHERE ".toList (name.flatMap escapeChar ++ ['\''])
    " STARTS WITH (f.path + '::') RETURN f.path".toList
  exact ⟨getElem?_of_begins hpre (by decide), getElem?_of_begins hpre (by decide)⟩

theorem nestedQuery_marks (start : Str) :
    (nestedQuery start)[7]? = some 'f' ∧ (nestedQuery start)[21]? = some 'f' := by
  have hpre : "MATCH (f:File) WHERE f.path STARTS WITH ".toList <+: nestedQuery start :=
    (List.prefix_append _ _).trans (List.prefix_append _ _)
  exact ⟨getElem?_of_begins hpre (by decide), getElem?_of_begins hpre (by decide)⟩

theorem countQuery_mark (start : Str) (excluded : List Str) :
    (countQuery start excluded)[7]? = some 'i' := by
  have hpre : "MATCH (i:Import) WHERE i.id STARTS WITH ".toList <+: countQuery start excluded :=
    (((List.prefix_append _ _).trans (List.prefix_append _ _)).trans
      (List.prefix_append _ _)).trans (List.prefix_append _ _)
  exact getElem?_of_begins hpre (by decide)

/-- Where the statements differ. -/
def Question.marks : Question → Char × Option Char
  | .owner _ => ('f', some '\'')
  | .nested _ => ('f', some 'f')
  | .count _ _ => ('i', none)

theorem Question.marks_eq (q : Question) :
    q.text[7]? = some q.marks.1 ∧ ∀ c ∈ q.marks.2, q.text[21]? = some c := by
  cases q with
  | owner name =>
      refine ⟨(ownerQuery_marks name).1, ?_⟩
      rintro c ⟨⟩
      exact (ownerQuery_marks name).2
  | nested start =>
      refine ⟨(nestedQuery_marks start).1, ?_⟩
      rintro c ⟨⟩
      exact (nestedQuery_marks start).2
  | count start excluded => exact ⟨countQuery_mark start excluded, by rintro c ⟨⟩⟩

/-- The statement says what is asked. -/
theorem Question.text_injective : Function.Injective Question.text := by
  intro q q' h
  have hfirst : q.marks.1 = q'.marks.1 :=
    Option.some.inj (q.marks_eq.1.symm.trans ((congrArg (·[7]?) h).trans q'.marks_eq.1))
  have hsecond : ∀ c ∈ q.marks.2, ∀ d ∈ q'.marks.2, c = d := by
    intro c hc d hd
    exact Option.some.inj ((q.marks_eq.2 c hc).symm.trans
      ((congrArg (·[21]?) h).trans (q'.marks_eq.2 d hd)))
  cases q with
  | owner name =>
      cases q' with
      | owner name' => exact congrArg _ (around_cypherStr_inj h).1
      | nested start => exact absurd (hsecond _ rfl _ rfl) (by decide)
      | count start excluded => exact absurd hfirst (by simp [marks])
  | nested start =>
      cases q' with
      | owner name => exact absurd (hsecond _ rfl _ rfl) (by decide)
      | nested start' => exact congrArg _ (around_cypherStr_inj h).1
      | count start excluded => exact absurd hfirst (by simp [marks])
  | count start excluded =>
      cases q' with
      | owner name => exact absurd hfirst (by simp [marks])
      | nested start' => exact absurd hfirst (by simp [marks])
      | count start' excluded' =>
          obtain ⟨rfl, rfl⟩ := countQuery_injective h
          rfl

/-- Every graph is held by some store. -/
theorem exists_holds {g : ImportGraph} (hfits : g.imports.length < 2 ^ 63) :
    ∃ store, Holds g store := by
  refine ⟨Function.extend Question.text (fun q => .ok ⟨[], q.rows g⟩) fun _ => .error [],
    fun name => ?_, fun start => ?_, fun start excluded => ?_, hfits⟩
  · exact ⟨_, Question.text_injective.extend_apply _ _ (.owner name), .refl _⟩
  · exact ⟨_, Question.text_injective.extend_apply _ _ (.nested start), .refl _⟩
  · exact ⟨_, Question.text_injective.extend_apply _ _ (.count start excluded), rfl⟩

/-- A file whose name goes on behind the separator of another one. -/
def nestedNames : ImportGraph where
  files := ["a.rs".toList, "a.rs::b.rs".toList]
  imports := [⟨"a.rs::b.rs::use@1".toList, some false⟩]
  files_nodup := by decide
  imports_stand := by decide

theorem nestedNames_charged : ∃ store, Holds nestedNames store ∧ Charged nestedNames store := by
  obtain ⟨store, hstore⟩ := exists_holds (g := nestedNames) (by decide)
  exact ⟨store, hstore, (charged_iff hstore).mpr (by decide)⟩

/-- Two files, the second of which is named like the first with a colon behind. -/
def colonName : ImportGraph where
  files := ["a".toList, "a:".toList]
  imports := [⟨"a:::x".toList, some false⟩]
  files_nodup := by decide
  imports_stand := by decide

/-- The import of the second file is charged to the first one too. -/
theorem colonName_not_charged :
    ¬ ∀ (g : ImportGraph) (store : Str → Answer), Holds g store → Charged g store := by
  intro h
  obtain ⟨store, hstore⟩ := exists_holds (g := colonName) (by decide)
  have hcount := ((h colonName store hstore).owner "a::".toList "a".toList (by decide)).2
  rw [run_unresolvedImportCount hstore] at hcount
  exact absurd hcount (by decide)

end AutomatisedPipeline.Security
