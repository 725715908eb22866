import AutomatisedPipeline.Resolver.TypeRefs

/-!
When the type-level edges are a function of the rows.

Two orders of the rows give the same edges, and no class extends itself, exactly when no
name leaves a choice: the row a name is bound to is the only one, and no base is the class
itself (`typeEdges_orderFree_iff`).
-/

namespace AutomatisedPipeline.Resolver

open Text FirstMatch

/-- Every order of the rows draws the same edges, and none from a class to itself. -/
structure OrderFree (langs : Languages) (t : TypeTables) : Prop where
  sameEdges : ∀ t₁ t₂ persisted₁ persisted₂, SameRows t t₁ → SameRows t t₂ →
    persisted₁.Perm persisted₂ → ∀ key,
      key ∈ typeEdgesAfter langs persisted₁ t₁ ↔ key ∈ typeEdgesAfter langs persisted₂ t₂
  noSelf : ∀ t' persisted, SameRows t t' → ∀ label target id,
    ⟨.extending label target, id, id⟩ ∈ typeEdgesAfter langs persisted t' →
      ⟨.extending label target, id, id⟩ ∈ persisted

/-- No name leaves a choice. A row that a type or a trait name can be bound to is the only
one; a base name has one row of the child's label at most, and not the child's. -/
structure BindsOne (langs : Languages) (t : TypeTables) : Prop where
  types : ∀ ref ∈ typeRefs langs t, ∀ label, typeLabel t.symbols ref.name = some label →
    Sole (fun row => !isTwinRow t.symbols label row) (rowsNamed t.symbols label ref.name)
  traits : ∀ ref ∈ traitRefs langs t,
    Sole (fun row => !isTwinRow t.symbols .trait row) (rowsNamed t.symbols .trait ref.name)
  bases : ∀ ref ∈ baseRefs t, Sole (fun _ => true) (rowsNamed t.symbols ref.kind ref.name)
  others : ∀ ref ∈ baseRefs t, ∀ row ∈ rowsNamed t.symbols ref.kind ref.name,
    row.id ≠ ref.fromId

/-! ### The same rows in another order -/

section SameRows

variable {langs : Languages} {t t' : TypeTables}

theorem mem_typeRefs_iff (h : SameRows t t') (ref : NameRef Caller) :
    ref ∈ typeRefs langs t' ↔ ref ∈ typeRefs langs t := by
  simp only [typeRefs, List.mem_append, List.mem_flatMap, (h.fields).mem_iff,
    (h.callables _).mem_iff]

theorem mem_declarations_iff (h : SameRows t t') (d : Declaration) :
    d ∈ declarations langs t' ↔ d ∈ declarations langs t := by
  simp only [declarations, List.mem_flatMap, (h.implementing _).mem_iff]

theorem mem_traitRefs_iff (h : SameRows t t') (ref : NameRef SymbolLabel) :
    ref ∈ traitRefs langs t' ↔ ref ∈ traitRefs langs t := by
  have hblock : ∀ row, blockRef t'.symbols row = blockRef t.symbols row := by
    intro row
    rw [blockRef, h.byQn, blockRef]
  simp only [traitRefs, List.mem_append, List.mem_map, mem_declarations_iff h,
    List.mem_filterMap, h.implBlocks.mem_iff, hblock]

theorem mem_baseRefs_iff (h : SameRows t t') (ref : NameRef SymbolLabel) :
    ref ∈ baseRefs t' ↔ ref ∈ baseRefs t := by
  simp only [baseRefs, List.mem_flatMap, (h.bases _).mem_iff]

theorem typeLabel_eq (h : SameRows t t') (name : Str) :
    typeLabel t'.symbols name = typeLabel t.symbols name := by
  simp only [typeLabel, (h.rowsNamed _ name).isEmpty_eq]

theorem isTwinRow_eq (h : SameRows t t') (label : SymbolLabel) (row : SymbolRow) :
    isTwinRow t'.symbols label row = isTwinRow t.symbols label row := by
  rw [isTwinRow, isTwinRow, isTwinMember, isTwinMember]
  congr 1
  rw [Bool.eq_iff_iff]
  simp only [List.any_eq_true, (h.byName row.name).mem_iff]

/-- Where the row a name is bound to is the only one, every order binds the name to it. -/
theorem targetOf_eq (h : SameRows t t') {label : SymbolLabel} {name : Str}
    (hsole : Sole (fun row => !isTwinRow t.symbols label row) (rowsNamed t.symbols label name)) :
    targetOf t'.symbols label name = targetOf t.symbols label name := by
  rw [targetOf, targetOf]
  simp only [isTwinRow_eq h]
  exact pick_eq_of_perm hsole (h.rowsNamed label name)

theorem traitKeys_eq (h : SameRows t t') {ref : NameRef SymbolLabel}
    (hsole : Sole (fun row => !isTwinRow t.symbols .trait row)
      (rowsNamed t.symbols .trait ref.name)) :
    traitKeys t'.symbols ref = traitKeys t.symbols ref := by
  rw [traitKeys, targetOf_eq h hsole, traitKeys]

theorem deriveKeys_eq (h : SameRows t t') (d : Declaration) :
    deriveKeys langs t'.symbols d = deriveKeys langs t.symbols d := by
  rw [deriveKeys, deriveKeys, (h.rowsNamed .trait d.ref.name).isEmpty_eq]

theorem baseKeys_eq (h : SameRows t t') {ref : NameRef SymbolLabel}
    (hsole : Sole (fun _ => true) (rowsNamed t.symbols ref.kind ref.name)) :
    baseKeys t'.symbols ref = baseKeys t.symbols ref := by
  have hpick := pick_eq_of_perm hsole (h.rowsNamed ref.kind ref.name)
  rw [pick_true, pick_true] at hpick
  rw [baseKeys, baseKeys, hpick]

theorem typeKeys_eq (h : SameRows t t') {ref : NameRef Caller}
    (hsole : ∀ label, typeLabel t.symbols ref.name = some label →
      Sole (fun row => !isTwinRow t.symbols label row) (rowsNamed t.symbols label ref.name)) :
    typeKeys t'.symbols ref = typeKeys t.symbols ref := by
  rw [typeKeys, typeKeys, typeLabel_eq h]
  cases hlabel : typeLabel t.symbols ref.name with
  | none => rfl
  | some label => rw [Option.bind_some, Option.bind_some, targetOf_eq h (hsole label hlabel)]

/-- Where no name leaves a choice, every order draws what the rows draw. -/
theorem BindsOne.mem_drawnKeys_iff (hbinds : BindsOne langs t) (h : SameRows t t')
    (key : EdgeKey) : key ∈ drawnKeys langs t' ↔ key ∈ drawnKeys langs t := by
  have htraits : key ∈ (traitRefs langs t').flatMap (traitKeys t'.symbols) ↔
      key ∈ (traitRefs langs t).flatMap (traitKeys t.symbols) := by
    simp only [List.mem_flatMap, mem_traitRefs_iff h]
    refine exists_congr fun ref => and_congr_right fun href => ?_
    rw [traitKeys_eq h (hbinds.traits ref href)]
  have hderives : key ∈ (declarations langs t').flatMap (deriveKeys langs t'.symbols) ↔
      key ∈ (declarations langs t).flatMap (deriveKeys langs t.symbols) := by
    simp only [List.mem_flatMap, mem_declarations_iff h, deriveKeys_eq h]
  have hbases : key ∈ (baseRefs t').flatMap (baseKeys t'.symbols) ↔
      key ∈ (baseRefs t).flatMap (baseKeys t.symbols) := by
    simp only [List.mem_flatMap, mem_baseRefs_iff h]
    refine exists_congr fun ref => and_congr_right fun href => ?_
    rw [baseKeys_eq h (hbinds.bases ref href)]
  have htypes : key ∈ (typeRefs langs t').flatMap (typeKeys t'.symbols) ↔
      key ∈ (typeRefs langs t).flatMap (typeKeys t.symbols) := by
    simp only [List.mem_flatMap, mem_typeRefs_iff h]
    refine exists_congr fun ref => and_congr_right fun href => ?_
    rw [typeKeys_eq h (hbinds.types ref href)]
  simp only [drawnKeys, List.mem_append, htraits, hderives, hbases, htypes]

end SameRows

/-! ### A row put first -/

/-- The rows of a label in the order that has a row of it first. -/
def putFirst (t : TypeTables) (label : SymbolLabel) (row : SymbolRow)
    (hrow : row ∈ t.symbols label) : TypeTables :=
  { t with
    symbols := Function.update t.symbols label (row :: (t.symbols label).erase row)
    symbols_nodup := by
      intro l
      rcases eq_or_ne l label with rfl | hne
      · rw [Function.update_self]
        exact ((List.perm_cons_erase hrow).map SymbolRow.id).nodup_iff.mp (t.symbols_nodup l)
      · rw [Function.update_of_ne hne]
        exact t.symbols_nodup l
    qualifiedName_eq := by
      intro l
      rcases eq_or_ne l label with rfl | hne
      · rw [Function.update_self]
        exact fun r hr => t.qualifiedName_eq l r ((List.perm_cons_erase hrow).mem_iff.mpr hr)
      · rw [Function.update_of_ne hne]
        exact t.qualifiedName_eq l }

section PutFirst

variable {langs : Languages} {t : TypeTables} {label : SymbolLabel} {row : SymbolRow}

theorem sameRows_putFirst (hrow : row ∈ t.symbols label) : SameRows t (putFirst t label row hrow) :=
  { symbols := by
      intro l
      rcases eq_or_ne l label with rfl | hne
      · simpa [putFirst] using List.perm_cons_erase hrow
      · simp [putFirst, Function.update_of_ne hne]
    imports := .refl _
    implementing := fun _ => .refl _
    implBlocks := .refl _
    bases := fun _ => .refl _
    fields := .refl _
    callables := fun _ => .refl _ }

theorem rowsNamed_putFirst (hrow : row ∈ t.symbols label) :
    ∃ rest, rowsNamed (putFirst t label row hrow).symbols label row.name = row :: rest := by
  refine ⟨((t.symbols label).erase row).filter fun r => r.name = row.name, ?_⟩
  simp [rowsNamed, putFirst]

/-- The order that has a row first picks no other row of its name. -/
theorem eq_of_pick_putFirst {ok : SymbolRow → Bool} {x : SymbolRow}
    (hrow : row ∈ t.symbols label)
    (hpick : pick ok (rowsNamed (putFirst t label row hrow).symbols label row.name) = some x) :
    x = row := by
  obtain ⟨rest, hrows⟩ := rowsNamed_putFirst hrow
  rw [hrows, pick_cons] at hpick
  split at hpick
  · exact (Option.some.inj hpick).symm
  · cases hpick

theorem targetOf_putFirst (hrow : row ∈ t.symbols label)
    (hok : isTwinRow t.symbols label row = false) :
    targetOf (putFirst t label row hrow).symbols label row.name = some row := by
  obtain ⟨rest, hrows⟩ := rowsNamed_putFirst hrow
  rw [targetOf, hrows, pick_cons, isTwinRow_eq (sameRows_putFirst hrow), hok]
  rfl

/-- A row of a name that is picked although another one of the name is first is that one. -/
theorem eq_of_pick_putFirst_id {ok : SymbolRow → Bool} {x found : SymbolRow} {name : Str}
    (hx : x ∈ rowsNamed t.symbols label row.name) (hrow : row ∈ t.symbols label)
    (hpick : pick ok (rowsNamed (putFirst t label row hrow).symbols label name) = some found)
    (hid : found.id = x.id) : row = x := by
  obtain ⟨hxmem, hxname⟩ := mem_rowsNamed.mp hx
  obtain ⟨hmem, hname⟩ := mem_rowsNamed.mp (mem_of_pick hpick)
  have hfound : found ∈ t.symbols label :=
    ((sameRows_putFirst hrow).symbols label).mem_iff.mpr hmem
  obtain rfl : found = x := List.inj_on_of_nodup_map (t.symbols_nodup label) hfound hxmem hid
  rw [← hname, hxname] at hpick
  exact (eq_of_pick_putFirst hrow hpick).symm

end PutFirst

/-! ### The edges of a table -/

section Tables

variable {langs : Languages} {t : TypeTables} {fromId toId : Str} {key : EdgeKey}

theorem mem_drawnKeys : key ∈ drawnKeys langs t ↔
    (∃ ref ∈ traitRefs langs t, key ∈ traitKeys t.symbols ref) ∨
      (∃ d ∈ declarations langs t, key ∈ deriveKeys langs t.symbols d) ∨
      (∃ ref ∈ baseRefs t, key ∈ baseKeys t.symbols ref) ∨
      ∃ ref ∈ typeRefs langs t, key ∈ typeKeys t.symbols ref := by
  simp only [drawnKeys, List.mem_append, List.mem_flatMap, or_assoc]

theorem mem_drawnKeys_uses {caller : Caller} {label : SymbolLabel} :
    ⟨.uses caller label, fromId, toId⟩ ∈ drawnKeys langs t ↔
      ∃ ref ∈ typeRefs langs t, ⟨.uses caller label, fromId, toId⟩ ∈ typeKeys t.symbols ref := by
  rw [mem_drawnKeys]
  constructor
  · rintro (⟨ref, -, h⟩ | ⟨d, -, h⟩ | ⟨ref, -, h⟩ | h)
    · obtain ⟨row, -, heq⟩ := mem_traitKeys.mp h
      cases heq
    · obtain ⟨canonical, heq⟩ := exists_of_mem_deriveKeys h
      cases heq
    · obtain ⟨row, -, heq⟩ := mem_baseKeys.mp h
      cases heq
    · exact h
  · exact fun h => .inr (.inr (.inr h))

theorem mem_drawnKeys_implements {label : SymbolLabel} :
    ⟨.implementsTrait label, fromId, toId⟩ ∈ drawnKeys langs t ↔
      ∃ ref ∈ traitRefs langs t, ⟨.implementsTrait label, fromId, toId⟩ ∈
        traitKeys t.symbols ref := by
  rw [mem_drawnKeys]
  constructor
  · rintro (h | ⟨d, -, h⟩ | ⟨ref, -, h⟩ | ⟨ref, -, h⟩)
    · exact h
    · obtain ⟨canonical, heq⟩ := exists_of_mem_deriveKeys h
      cases heq
    · obtain ⟨row, -, heq⟩ := mem_baseKeys.mp h
      cases heq
    · obtain ⟨label, -, row, -, heq⟩ := mem_typeKeys.mp h
      cases heq
  · exact .inl

theorem mem_drawnKeys_extending {label target : SymbolLabel} :
    ⟨.extending label target, fromId, toId⟩ ∈ drawnKeys langs t ↔
      ∃ ref ∈ baseRefs t, ⟨.extending label target, fromId, toId⟩ ∈ baseKeys t.symbols ref := by
  rw [mem_drawnKeys]
  constructor
  · rintro (⟨ref, -, h⟩ | ⟨d, -, h⟩ | h | ⟨ref, -, h⟩)
    · obtain ⟨row, -, heq⟩ := mem_traitKeys.mp h
      cases heq
    · obtain ⟨canonical, heq⟩ := exists_of_mem_deriveKeys h
      cases heq
    · exact h
    · obtain ⟨label, -, row, -, heq⟩ := mem_typeKeys.mp h
      cases heq
  · exact fun h => .inr (.inr (.inl h))

theorem implements_isKnown {ref : NameRef SymbolLabel} (href : ref ∈ traitRefs langs t) :
    isKnownRelTable (.implementsTrait ref.kind) = true := by
  have hkind : ref.kind = .struct ∨ ref.kind = .enum := by
    rw [traitRefs, List.mem_append, List.mem_map, List.mem_filterMap] at href
    obtain ⟨d, hd, rfl⟩ | ⟨row, -, hblock⟩ := href
    · simp only [declarations, List.mem_flatMap, List.mem_map] at hd
      obtain ⟨label, hlabel, row, -, name, -, rfl⟩ := hd
      simpa [Declaration.ref] using hlabel
    · rw [blockRef] at hblock
      split at hblock
      · cases hblock
      · split at hblock
        · cases hblock
        · split at hblock
          · cases hblock
            assumption
          · cases hblock
  rcases hkind with h | h <;> rw [h] <;> rfl

theorem kind_of_mem_baseRefs {ref : NameRef SymbolLabel} (href : ref ∈ baseRefs t) :
    ref.kind ∈ [SymbolLabel.struct, .enum, .trait] := by
  simp only [baseRefs, List.mem_flatMap, List.mem_map] at href
  obtain ⟨label, hlabel, row, -, base, -, rfl⟩ := href
  exact hlabel

end Tables

/-! ### Runs -/

section Runs

variable {langs : Languages} {t : TypeTables}

/-- On an empty store the edges are those that the references draw. -/
theorem mem_typeEdgesAfter_nil {key : EdgeKey} (hknown : isKnownRelTable key.table = true) :
    key ∈ typeEdgesAfter langs [] t ↔ key ∈ drawnKeys langs t := by
  simp [mem_typeEdgesAfter, hknown]

/-- Edges that every order draws are drawn whichever row is first. -/
theorem OrderFree.mem_drawnKeys_putFirst (hfree : OrderFree langs t) {label : SymbolLabel}
    {x y : SymbolRow} (hx : x ∈ t.symbols label) (hy : y ∈ t.symbols label) {key : EdgeKey}
    (hknown : isKnownRelTable key.table = true)
    (hkey : key ∈ drawnKeys langs (putFirst t label x hx)) :
    key ∈ drawnKeys langs (putFirst t label y hy) := by
  rw [← mem_typeEdgesAfter_nil hknown] at hkey ⊢
  exact (hfree.sameEdges _ _ [] [] (sameRows_putFirst hx) (sameRows_putFirst hy) .nil key).mp hkey

theorem OrderFree.types (hfree : OrderFree langs t) {ref : NameRef Caller}
    (href : ref ∈ typeRefs langs t) {label : SymbolLabel}
    (hlabel : typeLabel t.symbols ref.name = some label) :
    Sole (fun row => !isTwinRow t.symbols label row) (rowsNamed t.symbols label ref.name) := by
  intro x hx hok y hy
  obtain ⟨hxmem, hxname⟩ := mem_rowsNamed.mp hx
  obtain ⟨hymem, hyname⟩ := mem_rowsNamed.mp hy
  have htarget := targetOf_putFirst hxmem (by simpa using hok)
  rw [hxname] at htarget
  have hdrawn : ⟨.uses ref.kind label, ref.fromId, x.id⟩ ∈
      drawnKeys langs (putFirst t label x hxmem) :=
    mem_drawnKeys_uses.mpr ⟨ref, (mem_typeRefs_iff (sameRows_putFirst hxmem) ref).mpr href,
      mem_typeKeys.mpr ⟨label, by rw [typeLabel_eq (sameRows_putFirst hxmem), hlabel], x, htarget,
        rfl⟩⟩
  obtain ⟨ref', -, hkey⟩ := mem_drawnKeys_uses.mp
    (hfree.mem_drawnKeys_putFirst hxmem hymem (uses_isKnown hlabel ref.kind) hdrawn)
  obtain ⟨label', -, row, hrow, heq⟩ := mem_typeKeys.mp hkey
  simp only [EdgeKey.mk.injEq, RelTable.uses.injEq] at heq
  obtain ⟨⟨-, rfl⟩, -, hid⟩ := heq
  rw [← hyname] at hx
  exact eq_of_pick_putFirst_id hx hymem hrow hid.symm

theorem OrderFree.traits (hfree : OrderFree langs t) {ref : NameRef SymbolLabel}
    (href : ref ∈ traitRefs langs t) :
    Sole (fun row => !isTwinRow t.symbols .trait row) (rowsNamed t.symbols .trait ref.name) := by
  intro x hx hok y hy
  obtain ⟨hxmem, hxname⟩ := mem_rowsNamed.mp hx
  obtain ⟨hymem, hyname⟩ := mem_rowsNamed.mp hy
  have htarget := targetOf_putFirst hxmem (by simpa using hok)
  rw [hxname] at htarget
  have hdrawn : ⟨.implementsTrait ref.kind, ref.fromId, x.id⟩ ∈
      drawnKeys langs (putFirst t .trait x hxmem) :=
    mem_drawnKeys_implements.mpr ⟨ref, (mem_traitRefs_iff (sameRows_putFirst hxmem) ref).mpr href,
      mem_traitKeys.mpr ⟨x, htarget, rfl⟩⟩
  obtain ⟨ref', -, hkey⟩ := mem_drawnKeys_implements.mp
    (hfree.mem_drawnKeys_putFirst hxmem hymem (implements_isKnown href) hdrawn)
  obtain ⟨row, hrow, heq⟩ := mem_traitKeys.mp hkey
  rw [← hyname] at hx
  exact eq_of_pick_putFirst_id hx hymem hrow (congrArg EdgeKey.toId heq).symm

/-- The order that has a row of a base name first draws the edge to it. -/
theorem mem_drawnKeys_base {ref : NameRef SymbolLabel} (href : ref ∈ baseRefs t) {x : SymbolRow}
    (hx : x ∈ t.symbols ref.kind) (hname : x.name = ref.name) :
    ⟨.extending ref.kind ref.kind, ref.fromId, x.id⟩ ∈
      drawnKeys langs (putFirst t ref.kind x hx) := by
  obtain ⟨rest, hrows⟩ := rowsNamed_putFirst hx
  rw [hname] at hrows
  exact mem_drawnKeys_extending.mpr ⟨ref, (mem_baseRefs_iff (sameRows_putFirst hx) ref).mpr href,
    mem_baseKeys.mpr ⟨x, by rw [hrows, List.head?_cons], rfl⟩⟩

theorem OrderFree.bases (hfree : OrderFree langs t) {ref : NameRef SymbolLabel}
    (href : ref ∈ baseRefs t) : Sole (fun _ => true) (rowsNamed t.symbols ref.kind ref.name) := by
  intro x hx _ y hy
  obtain ⟨hxmem, hxname⟩ := mem_rowsNamed.mp hx
  obtain ⟨hymem, hyname⟩ := mem_rowsNamed.mp hy
  obtain ⟨ref', -, hkey⟩ := mem_drawnKeys_extending.mp
    (hfree.mem_drawnKeys_putFirst hxmem hymem (extending_isKnown (kind_of_mem_baseRefs href))
      (mem_drawnKeys_base href hxmem hxname))
  obtain ⟨row, hrow, heq⟩ := mem_baseKeys.mp hkey
  simp only [EdgeKey.mk.injEq, RelTable.extending.injEq] at heq
  obtain ⟨⟨hkind, -⟩, -, hid⟩ := heq
  rw [← pick_true, ← hkind] at hrow
  rw [← hyname] at hx
  exact eq_of_pick_putFirst_id hx hymem hrow hid.symm

theorem OrderFree.others (hfree : OrderFree langs t) {ref : NameRef SymbolLabel}
    (href : ref ∈ baseRefs t) {row : SymbolRow}
    (hrow : row ∈ rowsNamed t.symbols ref.kind ref.name) : row.id ≠ ref.fromId := by
  intro hself
  obtain ⟨hmem, hname⟩ := mem_rowsNamed.mp hrow
  have hdrawn := @mem_drawnKeys_base langs t ref href row hmem hname
  rw [← mem_typeEdgesAfter_nil (extending_isKnown (kind_of_mem_baseRefs href)), hself] at hdrawn
  exact List.not_mem_nil (hfree.noSelf _ [] (sameRows_putFirst hmem) _ _ _ hdrawn)

/-- The edges that `resolve_graph` draws are those of the rows, whatever their order, and none
joins a class to itself, if and only if no name leaves a choice. -/
theorem typeEdges_orderFree_iff (langs : Languages) (t : TypeTables) :
    OrderFree langs t ↔ BindsOne langs t := by
  constructor
  · exact fun hfree =>
      { types := fun ref href label hlabel => hfree.types href hlabel
        traits := fun ref href => hfree.traits href
        bases := fun ref href => hfree.bases href
        others := fun ref href row hrow => hfree.others href hrow }
  · intro hbinds
    refine ⟨fun t₁ t₂ persisted₁ persisted₂ h₁ h₂ hpersisted key => ?_,
      fun t' persisted h label target id hself => ?_⟩
    · rw [mem_typeEdgesAfter, mem_typeEdgesAfter, hbinds.mem_drawnKeys_iff h₁,
        hbinds.mem_drawnKeys_iff h₂, hpersisted.mem_iff]
    · rw [mem_typeEdgesAfter, hbinds.mem_drawnKeys_iff h] at hself
      refine hself.resolve_right fun ⟨hdrawn, _⟩ => ?_
      obtain ⟨ref, href, hkey⟩ := mem_drawnKeys_extending.mp hdrawn
      obtain ⟨row, hrow, heq⟩ := mem_baseKeys.mp hkey
      simp only [EdgeKey.mk.injEq] at heq
      exact hbinds.others ref href row (List.mem_of_head? hrow) (heq.2.2.symm.trans heq.2.1)

end Runs

/-- Languages without primitives, imports or macros. -/
def plainLanguages : Languages :=
  { providerFor := fun _ =>
      { primitives := [], importLastSegment := id, isExternalImport := fun _ => false,
        deriveMacroKey := none }
    emitImplements := fun _ _ => none
    isUppercase := Char.isUpper }

/-- A struct `Config` of a file. -/
def configRow (file : Char) : SymbolRow :=
  { id := file :: ".rs::Config".toList, name := "Config".toList,
    qualifiedName := file :: ".rs::Config".toList }

/-- A field of the type `Config`, and a struct of that name in each of two files. -/
def configTables (first second : Char) (hne : first ≠ second) : TypeTables :=
  { symbols := fun label => if label = .struct then [configRow first, configRow second] else []
    imports := []
    implementing := fun _ => []
    implBlocks := []
    bases := fun _ => []
    fields := [⟨"c.rs::App::config".toList, "Config".toList, "rust".toList⟩]
    callables := fun _ => []
    symbols_nodup := by
      intro label
      split
      · simpa [configRow] using hne
      · exact List.nodup_nil
    qualifiedName_eq := by
      intro label
      split
      · simp [configRow]
      · simp }

theorem sameRows_configTables {first second : Char} (hne : first ≠ second) :
    SameRows (configTables first second hne) (configTables second first hne.symm) :=
  { symbols := by
      intro label
      rw [configTables, configTables]
      dsimp only
      split
      · exact .swap _ _ _
      · exact .nil
    imports := .nil
    implementing := fun _ => .nil
    implBlocks := .nil
    bases := fun _ => .nil
    fields := .refl _
    callables := fun _ => .nil }

/-- The field uses the struct whose row comes first. -/
theorem first_row_is_used : ¬ ∀ langs t, OrderFree langs t := by
  intro hfree
  have huses := (hfree plainLanguages (configTables 'a' 'b' (by decide))).sameEdges _ _ [] [] (.refl _)
    (sameRows_configTables (by decide)) .nil
    ⟨.uses .field .struct, "c.rs::App::config".toList, (configRow 'a').id⟩
  have hfirst : ⟨.uses .field .struct, "c.rs::App::config".toList, (configRow 'a').id⟩ ∈
      typeEdgesAfter plainLanguages [] (configTables 'a' 'b' (by decide)) := by decide +kernel
  have hsecond : ⟨.uses .field .struct, "c.rs::App::config".toList, (configRow 'a').id⟩ ∉
      typeEdgesAfter plainLanguages [] (configTables 'b' 'a' (by decide)) := by decide +kernel
  exact hsecond (huses.mp hfirst)

end AutomatisedPipeline.Resolver
