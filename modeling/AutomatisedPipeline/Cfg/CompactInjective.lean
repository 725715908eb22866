import AutomatisedPipeline.Cfg.Canonical
import AutomatisedPipeline.Cfg.CanonicalForm

/-!
The text of a canonical predicate says which predicate it is.

Texts are read from the left: the first word, and the parenthesis or the value behind it
(`headWord_inj`), then the terms of a list one after another (`items_inj`). Only the feature
`x` and the option `feature` with the value `x` are written alike, so a predicate in which
no such pair occurs has the text of no other canonical one (`IsCanonical.eq_of_compact_eq`).
-/

namespace AutomatisedPipeline.Cfg

open Text

namespace CfgPredicate

/-! ### The text says the predicate -/

/-- Words in front of something else are read apart. -/
theorem word_append_inj {w w' s s' : Str} (hw : ∀ c ∈ w, isWordByte c = true)
    (hw' : ∀ c ∈ w', isWordByte c = true) (hs : ∀ c ∈ s.head?, isWordByte c = false)
    (hs' : ∀ c ∈ s'.head?, isWordByte c = false) (h : w ++ s = w' ++ s') : w = w' ∧ s = s' := by
  have htake : ∀ {w s : Str}, (∀ c ∈ w, isWordByte c = true) →
      (∀ c ∈ s.head?, isWordByte c = false) → (w ++ s).takeWhile isWordByte = w := by
    intro w s hw hs
    rw [List.takeWhile_append_of_pos hw]
    cases s with
    | nil => simp
    | cons c s => simp [hs c (by simp)]
  have hwords := congrArg (List.takeWhile isWordByte) h
  rw [htake hw hs, htake hw' hs'] at hwords
  subst hwords
  exact ⟨rfl, List.append_cancel_left h⟩

/-- The text behind a term of a list. -/
def EndsTerm (rest : Str) : Prop := ∀ c ∈ rest.head?, c = ',' ∨ c = ')'

theorem EndsTerm.not_word {rest : Str} (h : EndsTerm rest) : ∀ c ∈ rest.head?, isWordByte c = false := by
  intro c hc
  rcases h c hc with rfl | rfl
  · decide
  · decide

/-- The word that a text begins with. -/
def headWord : CfgPredicate → Str
  | .feature _ => featureKey
  | .option key _ => encode key
  | .all _ => allName
  | .any _ => anyName
  | .not _ => notName

/-- What stands behind the first word. -/
def afterHead : CfgPredicate → Str
  | .feature name => '=' :: encode name
  | .option _ none => []
  | .option _ (some value) => '=' :: encode value
  | .all items => '(' :: (join [','] (compactParts items) ++ [')'])
  | .any items => '(' :: (join [','] (compactParts items) ++ [')'])
  | .not inner => '(' :: (inner.compact ++ [')'])

theorem compact_eq_head (p : CfgPredicate) : p.compact = p.headWord ++ p.afterHead := by
  cases p with
  | option key value =>
      cases value with
      | none => simp [compact, headWord, afterHead]
      | some value => rfl
  | _ => rfl

theorem keyword_wordBytes : ∀ name ∈ [featureKey, allName, anyName, notName],
    ∀ c ∈ name, isWordByte c = true := by
  have hall : ([featureKey, allName, anyName, notName].all fun name => name.all isWordByte) = true := by
    decide
  exact fun name hname => List.all_eq_true.mp (List.all_eq_true.mp hall name hname)

theorem headWord_wordBytes (p : CfgPredicate) : ∀ c ∈ p.headWord, isWordByte c = true := by
  cases p with
  | option key value => exact encode_wordBytes key
  | _ => exact keyword_wordBytes _ (by simp [headWord])

/-- A feature or an option. -/
def IsLeaf : CfgPredicate → Prop
  | .feature _ => True
  | .option _ _ => True
  | _ => False

theorem leaves_of_isLeaf {p : CfgPredicate} (h : p.IsLeaf) : p.leaves = [p] := by
  cases p with
  | feature name => rfl
  | option key value => rfl
  | _ => exact h.elim

/-- Behind the word of a leaf stands nothing or a value. -/
theorem afterHead_leaf {p : CfgPredicate} (h : p.IsLeaf) :
    p.afterHead = [] ∨ ∃ value, p.afterHead = '=' :: encode value := by
  cases p with
  | feature name => exact .inr ⟨name, rfl⟩
  | option key value =>
      cases value with
      | none => exact .inl rfl
      | some value => exact .inr ⟨value, rfl⟩
  | _ => exact h.elim

/-- Behind the word of any other predicate stands a parenthesis. -/
theorem afterHead_open {p : CfgPredicate} (h : ¬ p.IsLeaf) : ∃ s, p.afterHead = '(' :: s := by
  cases p with
  | feature name => exact absurd trivial h
  | option key value => exact absurd trivial h
  | _ => exact ⟨_, rfl⟩

theorem afterHead_not_word (p : CfgPredicate) {rest : Str} (hrest : EndsTerm rest) :
    ∀ c ∈ (p.afterHead ++ rest).head?, isWordByte c = false := by
  intro c hc
  by_cases hleaf : p.IsLeaf
  · rcases afterHead_leaf hleaf with hnil | ⟨value, hvalue⟩
    · rw [hnil] at hc
      exact hrest.not_word c hc
    · rw [hvalue] at hc
      obtain rfl := Option.some.inj hc
      decide
  · obtain ⟨s, hs⟩ := afterHead_open hleaf
    rw [hs] at hc
    obtain rfl := Option.some.inj hc
    decide

/-- Texts are read apart word by word. -/
theorem headWord_inj {p q : CfgPredicate} {r r' : Str} (hr : EndsTerm r) (hr' : EndsTerm r')
    (h : p.compact ++ r = q.compact ++ r') :
    p.headWord = q.headWord ∧ p.afterHead ++ r = q.afterHead ++ r' := by
  rw [compact_eq_head, compact_eq_head, List.append_assoc, List.append_assoc] at h
  exact word_append_inj p.headWord_wordBytes q.headWord_wordBytes (p.afterHead_not_word hr)
    (q.afterHead_not_word hr') h

/-- A leaf is read as a leaf. -/
theorem isLeaf_of_afterHead_eq {p q : CfgPredicate} {r r' : Str} (hr : EndsTerm r)
    (h : p.afterHead ++ r = q.afterHead ++ r') (hp : p.IsLeaf) : q.IsLeaf := by
  by_contra hq
  obtain ⟨s, hs⟩ := afterHead_open hq
  rw [hs] at h
  rcases afterHead_leaf hp with hnil | ⟨value, hvalue⟩
  · rw [hnil, List.nil_append] at h
    rcases hr '(' (by simp [h]) with hc | hc
    · exact absurd hc (by decide)
    · exact absurd hc (by decide)
  · rw [hvalue] at h
    exact absurd (List.cons.inj h).1 (by decide)

/-- What stands behind the words of two leaves is read apart. -/
theorem afterHead_inj {p q : CfgPredicate} {r r' : Str} (hr : EndsTerm r) (hr' : EndsTerm r')
    (hp : p.IsLeaf) (hq : q.IsLeaf) (h : p.afterHead ++ r = q.afterHead ++ r') :
    p.afterHead = q.afterHead ∧ r = r' := by
  have hequals : ∀ {s t value : Str}, EndsTerm s → s ≠ '=' :: encode value ++ t := by
    rintro s t value hs rfl
    rcases hs '=' rfl with hc | hc
    · exact absurd hc (by decide)
    · exact absurd hc (by decide)
  rcases afterHead_leaf hp with hpnil | ⟨value, hpvalue⟩
  · rcases afterHead_leaf hq with hqnil | ⟨value', hqvalue⟩
    · rw [hpnil, hqnil] at h ⊢
      exact ⟨rfl, h⟩
    · rw [hpnil, hqvalue] at h
      exact absurd h (hequals hr)
  · rcases afterHead_leaf hq with hqnil | ⟨value', hqvalue⟩
    · rw [hpvalue, hqnil] at h
      exact absurd h.symm (hequals hr')
    · rw [hpvalue, hqvalue] at h ⊢
      obtain ⟨hvalue, hrest⟩ := word_append_inj (encode_wordBytes value) (encode_wordBytes value')
        hr.not_word hr'.not_word (List.cons.inj h).2
      rw [hvalue]
      exact ⟨rfl, hrest⟩

/-- Leaves of the two predicates that are written alike are the same. -/
def LeavesRead (p q : CfgPredicate) : Prop :=
  ∀ x ∈ p.leaves, ∀ y ∈ q.leaves, x.compact = y.compact → x = y

/-- The text of `p` and what follows it are read back. -/
def ReadsBack (p : CfgPredicate) : Prop :=
  ∀ q r r', IsCanonical q → LeavesRead p q → EndsTerm r → EndsTerm r' →
    p.compact ++ r = q.compact ++ r' → p = q ∧ r = r'

theorem readsBack_leaf {p : CfgPredicate} (hp : p.IsLeaf) : ReadsBack p := by
  intro q r r' _ hleaves hr hr' h
  obtain ⟨hhead, hafter⟩ := headWord_inj hr hr' h
  have hq := isLeaf_of_afterHead_eq hr hafter hp
  obtain ⟨hafter, hrest⟩ := afterHead_inj hr hr' hp hq hafter
  refine ⟨hleaves p ?_ q ?_ ?_, hrest⟩
  · rw [leaves_of_isLeaf hp]
    exact List.mem_singleton_self p
  · rw [leaves_of_isLeaf hq]
    exact List.mem_singleton_self q
  · rw [compact_eq_head, compact_eq_head, hhead, hafter]

/-! ### The text of a list -/

/-- What stands behind the first term of a list. -/
def behindTerm (items : List CfgPredicate) (r : Str) : Str :=
  match items with
  | [] => ')' :: r
  | items => ',' :: (join [','] (compactParts items) ++ ')' :: r)

theorem endsTerm_behindTerm (items : List CfgPredicate) (r : Str) : EndsTerm (behindTerm items r) := by
  intro c hc
  cases items with
  | nil => exact .inr (Option.some.inj hc).symm
  | cons p items => exact .inl (Option.some.inj hc).symm

theorem join_compactParts_cons (p : CfgPredicate) (items : List CfgPredicate) (r : Str) :
    join [','] (compactParts (p :: items)) ++ ')' :: r = p.compact ++ behindTerm items r := by
  cases items with
  | nil => rfl
  | cons q items => simp [compactParts, join, behindTerm]

/-- No term begins with a closing parenthesis. -/
theorem compact_append_ne_close (p : CfgPredicate) {s r : Str} : p.compact ++ ',' :: s ≠ ')' :: r := by
  rw [compact_eq_head, List.append_assoc]
  intro h
  cases hhead : p.headWord with
  | nil =>
      rw [hhead, List.nil_append] at h
      by_cases hleaf : p.IsLeaf
      · rcases afterHead_leaf hleaf with hnil | ⟨value, hvalue⟩
        · rw [hnil] at h
          exact absurd (List.cons.inj h).1 (by decide)
        · rw [hvalue] at h
          exact absurd (List.cons.inj h).1 (by decide)
      · obtain ⟨t, ht⟩ := afterHead_open hleaf
        rw [ht] at h
        exact absurd (List.cons.inj h).1 (by decide)
  | cons c w =>
      rw [hhead] at h
      have hword := p.headWord_wordBytes c (by simp [hhead])
      rw [(List.cons.inj h).1] at hword
      exact absurd hword (by decide)

theorem LeavesRead.of_mem {items items' : List CfgPredicate} {p q : CfgPredicate}
    (h : ∀ x ∈ leavesList items, ∀ y ∈ leavesList items', x.compact = y.compact → x = y)
    (hp : p ∈ items) (hq : q ∈ items') : LeavesRead p q :=
  fun x hx y hy => h x (mem_leavesList.mpr ⟨p, hp, hx⟩) y (mem_leavesList.mpr ⟨q, hq, hy⟩)

/-- Lists of several terms are read back term by term. -/
theorem items_inj {p q : CfgPredicate} {items items' : List CfgPredicate} {r r' : Str}
    (ih : ∀ t ∈ p :: items, ReadsBack t) (hq : ∀ t ∈ q :: items', IsCanonical t)
    (hleaves : ∀ x ∈ leavesList (p :: items), ∀ y ∈ leavesList (q :: items'),
      x.compact = y.compact → x = y)
    (h : join [','] (compactParts (p :: items)) ++ ')' :: r =
      join [','] (compactParts (q :: items')) ++ ')' :: r') :
    p :: items = q :: items' ∧ r = r' := by
  induction items generalizing p q items' with
  | nil =>
      rw [join_compactParts_cons, join_compactParts_cons] at h
      obtain ⟨rfl, hbehind⟩ := ih p (by simp) q _ _ (hq q (by simp))
        (.of_mem hleaves (by simp) (by simp)) (endsTerm_behindTerm _ _) (endsTerm_behindTerm _ _) h
      cases items' with
      | nil => exact ⟨rfl, (List.cons.inj hbehind).2⟩
      | cons q' items' => exact absurd (List.cons.inj hbehind).1 (by decide)
  | cons p' items ihitems =>
      rw [join_compactParts_cons, join_compactParts_cons] at h
      obtain ⟨rfl, hbehind⟩ := ih p (by simp) q _ _ (hq q (by simp))
        (.of_mem hleaves (by simp) (by simp)) (endsTerm_behindTerm _ _) (endsTerm_behindTerm _ _) h
      cases items' with
      | nil => exact absurd (List.cons.inj hbehind).1 (by decide)
      | cons q' items' =>
          obtain ⟨hitems, hrest⟩ := ihitems (fun t ht => ih t (List.mem_cons_of_mem p ht))
            (fun t ht => hq t (List.mem_cons_of_mem p ht))
            (fun x hx y hy => hleaves x (List.mem_append_right _ hx) y (List.mem_append_right _ hy))
            (List.cons.inj hbehind).2
          rw [hitems]
          exact ⟨rfl, hrest⟩

/-- Lists that are no single terms are read back. -/
theorem list_inj {items items' : List CfgPredicate} {r r' : Str} (ih : ∀ t ∈ items, ReadsBack t)
    (hlen : items.length ≠ 1) (hitems' : ∀ t ∈ items', IsCanonical t) (hlen' : items'.length ≠ 1)
    (hleaves : ∀ x ∈ leavesList items, ∀ y ∈ leavesList items', x.compact = y.compact → x = y)
    (h : '(' :: (join [','] (compactParts items) ++ [')']) ++ r =
      '(' :: (join [','] (compactParts items') ++ [')']) ++ r') : items = items' ∧ r = r' := by
  rw [List.cons_append, List.cons_append, List.append_assoc, List.append_assoc] at h
  have h := (List.cons.inj h).2
  match items, items', hlen, hlen' with
  | [], [], _, _ => exact ⟨rfl, (List.cons.inj h).2⟩
  | [], q :: q' :: items', _, _ =>
      rw [List.singleton_append, List.singleton_append, join_compactParts_cons] at h
      exact absurd h.symm (compact_append_ne_close q)
  | p :: p' :: items, [], _, _ =>
      rw [List.singleton_append, List.singleton_append, join_compactParts_cons] at h
      exact absurd h (compact_append_ne_close p)
  | p :: p' :: items, q :: q' :: items', _, _ => exact items_inj ih hitems' hleaves h

theorem keywords_ne : allName ≠ anyName ∧ allName ≠ notName ∧ anyName ≠ notName := by decide

/-- The text of a canonical predicate is read back, up to leaves that are written alike. -/
theorem IsCanonical.readsBack {p : CfgPredicate} (h : IsCanonical p) : ReadsBack p := by
  induction h with
  | feature name => exact readsBack_leaf trivial
  | option key value => exact readsBack_leaf trivial
  | all _ _ _ hlen ih =>
      intro q r r' hq hleaves hr hr' htext
      obtain ⟨hhead, hafter⟩ := headWord_inj hr hr' htext
      have hlist : ¬ q.IsLeaf := isLeaf_of_afterHead_eq hr' hafter.symm
      cases hq with
      | feature name => exact absurd trivial hlist
      | option key value => exact absurd trivial hlist
      | all hitems' _ _ hlen' =>
          obtain ⟨rfl, hrest⟩ := list_inj ih hlen hitems' hlen' hleaves hafter
          exact ⟨rfl, hrest⟩
      | any => exact absurd hhead keywords_ne.1
      | not => exact absurd hhead keywords_ne.2.1
  | any _ _ _ hlen ih =>
      intro q r r' hq hleaves hr hr' htext
      obtain ⟨hhead, hafter⟩ := headWord_inj hr hr' htext
      have hlist : ¬ q.IsLeaf := isLeaf_of_afterHead_eq hr' hafter.symm
      cases hq with
      | feature name => exact absurd trivial hlist
      | option key value => exact absurd trivial hlist
      | all => exact absurd hhead.symm keywords_ne.1
      | any hitems' _ _ hlen' =>
          obtain ⟨rfl, hrest⟩ := list_inj ih hlen hitems' hlen' hleaves hafter
          exact ⟨rfl, hrest⟩
      | not => exact absurd hhead keywords_ne.2.2
  | not _ _ ih =>
      intro q r r' hq hleaves hr hr' htext
      obtain ⟨hhead, hafter⟩ := headWord_inj hr hr' htext
      have hlist : ¬ q.IsLeaf := isLeaf_of_afterHead_eq hr' hafter.symm
      cases hq with
      | feature name => exact absurd trivial hlist
      | option key value => exact absurd trivial hlist
      | all => exact absurd hhead.symm keywords_ne.2.1
      | any => exact absurd hhead.symm keywords_ne.2.2
      | not hinner _ =>
          have hclose : ∀ s : Str, EndsTerm (')' :: s) := fun s c hc =>
            .inr (Option.some.inj hc).symm
          rw [afterHead, afterHead, List.cons_append, List.cons_append, List.append_assoc,
            List.append_assoc] at hafter
          obtain ⟨rfl, hrest⟩ := ih _ _ _ hinner hleaves (hclose _) (hclose _)
            (List.cons.inj hafter).2
          exact ⟨rfl, (List.cons.inj hrest).2⟩

/-- Canonical predicates with one text are one, up to leaves that are written alike. -/
theorem IsCanonical.eq_of_compact_eq {p q : CfgPredicate} (hp : IsCanonical p) (hq : IsCanonical q)
    (hleaves : LeavesRead p q) (h : p.compact = q.compact) : p = q := by
  have hnil : EndsTerm [] := fun c hc => absurd hc (by simp)
  exact (hp.readsBack q [] [] hq hleaves hnil hnil (by rw [h])).1

/-! ### Leaves that are written alike -/

/-- No feature is also there as an option with the key `feature`. -/
def LeavesApart (p : CfgPredicate) : Prop :=
  ∀ name, .feature name ∈ p.leaves → .option featureKey (some name) ∉ p.leaves

theorem isLeaf_of_mem_leaves {p x : CfgPredicate} (h : x ∈ p.leaves) : x.IsLeaf := by
  have hlist : ∀ items : List CfgPredicate, (∀ q ∈ items, x ∈ q.leaves → x.IsLeaf) →
      x ∈ leavesList items → x.IsLeaf := by
    intro items ih hx
    obtain ⟨q, hq, hx⟩ := mem_leavesList.mp hx
    exact ih q hq hx
  induction p using induct with
  | feature name => exact List.mem_singleton.mp h ▸ trivial
  | option key value => exact List.mem_singleton.mp h ▸ trivial
  | all items ih => exact hlist items ih h
  | any items ih => exact hlist items ih h
  | not inner ih => exact ih h

/-- The feature and the option are the only leaves that are written alike. -/
theorem leaf_eq_of_compact_eq {x y : CfgPredicate} (hx : x.IsLeaf) (hy : y.IsLeaf)
    (h : x.compact = y.compact) :
    x = y ∨ ∃ name, x = .feature name ∧ y = .option featureKey (some name) ∨
      x = .option featureKey (some name) ∧ y = .feature name := by
  have hnil : EndsTerm [] := fun c hc => absurd hc (by simp)
  have hkey : encode featureKey = featureKey := by decide +kernel
  obtain ⟨hhead, hafter⟩ := headWord_inj hnil hnil (congrArg (· ++ []) h)
  obtain ⟨hafter, -⟩ := afterHead_inj hnil hnil hx hy hafter
  cases x with
  | feature name =>
      cases y with
      | feature name' => exact .inl (congrArg _ (encode_injective (List.cons.inj hafter).2))
      | option key value =>
          rw [headWord, headWord, ← hkey] at hhead
          obtain rfl := encode_injective hhead
          cases value with
          | none => cases hafter
          | some value =>
              obtain rfl := encode_injective (List.cons.inj hafter).2
              exact .inr ⟨name, .inl ⟨rfl, rfl⟩⟩
      | _ => exact hy.elim
  | option key value =>
      cases y with
      | feature name =>
          rw [headWord, headWord, ← hkey] at hhead
          obtain rfl := encode_injective hhead
          cases value with
          | none => cases hafter
          | some value =>
              obtain rfl := encode_injective (List.cons.inj hafter).2
              exact .inr ⟨value, .inr ⟨rfl, rfl⟩⟩
      | option key' value' =>
          obtain rfl := encode_injective hhead
          cases value with
          | none =>
              cases value' with
              | none => exact .inl rfl
              | some value' => cases hafter
          | some value =>
              cases value' with
              | none => cases hafter
              | some value' =>
                  obtain rfl := encode_injective (List.cons.inj hafter).2
                  exact .inl rfl
      | _ => exact hy.elim
  | _ => exact hx.elim

/-- Parts of a predicate without such a pair are read back. -/
theorem LeavesApart.leavesRead {p s t : CfgPredicate} (h : LeavesApart p)
    (hs : ∀ x ∈ s.leaves, x ∈ p.leaves) (ht : ∀ x ∈ t.leaves, x ∈ p.leaves) : LeavesRead s t := by
  intro x hx y hy hxy
  rcases leaf_eq_of_compact_eq (isLeaf_of_mem_leaves hx) (isLeaf_of_mem_leaves hy) hxy with
    heq | ⟨name, ⟨rfl, rfl⟩ | ⟨rfl, rfl⟩⟩
  · exact heq
  · exact absurd (ht _ hy) (h name (hs _ hx))
  · exact absurd (hs _ hx) (h name (ht _ hy))

end CfgPredicate

end AutomatisedPipeline.Cfg
