import AutomatisedPipeline.Iac.References

/-!
References to container images (`split_image_ref`). A reference consists of a registry path, a name,
a tag and a digest, where only the name must stand. The digest is looked for first and the tag only
where there is no digest, so a reference with both keeps its tag in the name.
-/

namespace AutomatisedPipeline.Iac

open Text

/-- The path and the tag of a reference, where a digest counts as the tag. -/
def pathAndTag (reference : Str) : Str × Str :=
  match splitOnce '@' reference with
  | some (path, digest) => (path, digest)
  | none =>
      match rfind [':'] reference with
      -- a colon before a slash is the one of a port
      | some i =>
          if '/' ∈ reference.drop i then (reference, [])
          else (reference.take i, reference.drop (i + 1))
      | none => (reference, [])

/-- The registry path and the name of a path. -/
def registryAndName (path : Str) : Str × Str :=
  match rsplitOnce '/' path with
  | some (registry, name) => (registry, name)
  | none => ([], path)

/-- `split_image_ref`: the registry path, the name, and the tag or the digest. -/
def splitImageRef (reference : Str) : Str × Str × Str :=
  let (path, tag) := pathAndTag reference
  let (registry, name) := registryAndName path
  (registry, name, tag)

/-! ### References from their parts -/

/-- The parts of a reference. None of them holds the `@` of a digest, and neither the name nor the
tag holds a separator. -/
structure ImageRef where
  host : Option (Str × Option Str)
  components : List Str
  name : Str
  tag : Option Str
  digest : Option Str
  host_plain : ∀ h port, host = some (h, port) → '@' ∉ h ∧ ∀ p, port = some p → '@' ∉ p
  components_plain : ∀ part ∈ components, '@' ∉ part
  name_plain : ∀ c ∈ name, c ≠ '/' ∧ c ≠ ':' ∧ c ≠ '@'
  tag_plain : ∀ t, tag = some t → ∀ c ∈ t, c ≠ '/' ∧ c ≠ ':' ∧ c ≠ '@'

namespace ImageRef

variable (r : ImageRef)

/-- The host with its port. -/
def authority : Option Str :=
  r.host.map fun h => h.1 ++ h.2.elim [] (':' :: ·)

/-- The parts before the last slash. -/
def directories : List Str := r.authority.toList ++ r.components

/-- The registry path: what stands before the last slash. -/
def registry : Str := join ['/'] r.directories

/-- The reference without its tag and its digest. -/
def path : Str := if r.directories = [] then r.name else r.registry ++ '/' :: r.name

/-- The reference as it is written. -/
def render : Str := r.path ++ (r.tag.elim [] (':' :: ·) ++ r.digest.elim [] ('@' :: ·))

/-- The digest if there is one, else the tag, else nothing. -/
def version : Str := (r.digest <|> r.tag).getD []

theorem at_notMem_directories {part : Str} (h : part ∈ r.directories) : '@' ∉ part := by
  obtain hpart | hpart := List.mem_append.mp h
  · obtain ⟨⟨host, port⟩, hhost, rfl⟩ :=
      Option.map_eq_some_iff.mp (Option.mem_toList.mp hpart)
    obtain ⟨hplain, hport⟩ := r.host_plain host port hhost
    cases port with
    | none => simpa using hplain
    | some p => simpa [hplain] using hport p rfl
  · exact r.components_plain part hpart

theorem at_notMem_registry : '@' ∉ r.registry := by
  intro h
  obtain hsep | ⟨part, hpart, hat⟩ := of_mem_join h
  · exact absurd hsep (by decide)
  · exact r.at_notMem_directories hpart hat

theorem slash_notMem_name : '/' ∉ r.name := fun h => (r.name_plain '/' h).1 rfl

theorem colon_notMem_name : ':' ∉ r.name := fun h => (r.name_plain ':' h).2.1 rfl

theorem at_notMem_name : '@' ∉ r.name := fun h => (r.name_plain '@' h).2.2 rfl

theorem at_notMem_path : '@' ∉ r.path := by
  rw [path]
  split
  · exact r.at_notMem_name
  · simpa [r.at_notMem_registry] using r.at_notMem_name

/-- Splitting a path with anything that holds no slash behind it. -/
theorem registryAndName_append {rest : Str} (hrest : '/' ∉ rest) :
    registryAndName (r.path ++ rest) = (r.registry, r.name ++ rest) := by
  have hname : '/' ∉ r.name ++ rest := by
    simpa [r.slash_notMem_name] using hrest
  rw [registryAndName, path]
  by_cases hnone : r.directories = []
  · rw [if_pos hnone, rsplitOnce_eq_none hname, registry, hnone, join]
  · rw [if_neg hnone, List.append_assoc, List.cons_append, rsplitOnce_append hname]

/-- A path without a tag keeps a colon that stands in it. -/
theorem pathAndTag_path : pathAndTag r.path = (r.path, []) := by
  rw [pathAndTag, splitOnce_eq_none r.at_notMem_path]
  by_cases hcolon : ':' ∈ r.path
  · rw [path] at hcolon ⊢
    split at hcolon
    · exact absurd hcolon r.colon_notMem_name
    · rename_i hsome
      have hrest : ':' ∉ '/' :: r.name := by simp [r.colon_notMem_name]
      obtain ⟨a, b, hab, hb⟩ := exists_last_of_mem ((List.mem_append.mp hcolon).resolve_right hrest)
      have hlast : ':' ∉ b ++ '/' :: r.name := by simp [hb, r.colon_notMem_name]
      rw [if_neg hsome, hab, List.append_assoc, List.cons_append, rfind_append hlast]
      simp
  · rw [rfind_eq_none_of_notMem hcolon]

theorem pathAndTag_tag {t : Str} (ht : ∀ c ∈ t, c ≠ '/' ∧ c ≠ ':' ∧ c ≠ '@') :
    pathAndTag (r.path ++ ':' :: t) = (r.path, t) := by
  have hslash : '/' ∉ ':' :: t := by
    simpa using fun h => (ht '/' h).1 rfl
  have hcolon : ':' ∉ t := fun h => (ht ':' h).2.1 rfl
  have hat : '@' ∉ r.path ++ ':' :: t := by
    simpa [r.at_notMem_path] using fun h => (ht '@' h).2.2 rfl
  rw [pathAndTag, splitOnce_eq_none hat, rfind_append hcolon]
  simpa using hslash

theorem pathAndTag_digest {rest d : Str} (h : '@' ∉ rest) :
    pathAndTag (r.path ++ (rest ++ '@' :: d)) = (r.path ++ rest, d) := by
  have hat : '@' ∉ r.path ++ rest := by simp [r.at_notMem_path, h]
  rw [pathAndTag, ← List.append_assoc, splitOnce_append hat]

/-! ### Splitting a reference back -/

theorem splitImageRef_eq {reference path tag registry name : Str}
    (hpath : pathAndTag reference = (path, tag)) (hname : registryAndName path = (registry, name)) :
    splitImageRef reference = (registry, name, tag) := by
  rw [splitImageRef, hpath]
  simp only [hname]

/-- A reference splits back into its registry path, its name, and its digest or tag exactly if it
does not have both a tag and a digest. -/
theorem splitImageRef_render_iff :
    splitImageRef r.render = (r.registry, r.name, r.version) ↔ r.tag = none ∨ r.digest = none := by
  have hbare : registryAndName r.path = (r.registry, r.name) := by
    simpa using r.registryAndName_append List.not_mem_nil
  rw [render, version]
  cases hdigest : r.digest with
  | none =>
      rw [Option.elim_none, List.append_nil]
      refine iff_of_true ?_ (.inr rfl)
      cases htag : r.tag with
      | none => exact splitImageRef_eq (by simpa using r.pathAndTag_path) hbare
      | some t => exact splitImageRef_eq (r.pathAndTag_tag (r.tag_plain t htag)) hbare
  | some d =>
      cases htag : r.tag with
      | none =>
          refine iff_of_true (splitImageRef_eq ?_ hbare) (.inl rfl)
          simpa using r.pathAndTag_digest List.not_mem_nil
      | some t =>
          -- the tag is taken for a part of the name
          have hplain := r.tag_plain t htag
          have hat : '@' ∉ ':' :: t := by
            simpa using fun h => (hplain '@' h).2.2 rfl
          have hslash : '/' ∉ ':' :: t := by
            simpa using fun h => (hplain '/' h).1 rfl
          rw [Option.elim_some, Option.elim_some, splitImageRef_eq (r.pathAndTag_digest hat)
            (r.registryAndName_append hslash)]
          simp

end ImageRef

/-- A reference with a tag and a digest. -/
def taggedDigest : ImageRef where
  host := none
  components := []
  name := "nginx".toList
  tag := some "1.25".toList
  digest := some "sha256:ab".toList
  host_plain := by simp
  components_plain := by simp
  name_plain := by decide
  tag_plain := by
    rintro t ⟨⟩
    decide

/-- Its tag is left in the name. -/
theorem taggedDigest_keeps_tag :
    ¬ ∀ r : ImageRef, splitImageRef r.render = (r.registry, r.name, r.version) := by
  intro h
  exact absurd (h taggedDigest) (by decide)

end AutomatisedPipeline.Iac
