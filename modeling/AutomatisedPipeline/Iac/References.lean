import AutomatisedPipeline.Indexer.Incremental
import AutomatisedPipeline.Logic.FirstMatch

/-!
The infrastructure pass of `indexer/iac/mod.rs`: the nodes of Dockerfiles, manifests and
kustomizations, and the references out of them.

What the parsers make of a text is a parameter (`IacParsers`). A reference is resolved against
the files of the tree and against two maps, which are filled from the rows of the store in the
order it gives them (`ResolutionIndexes.build`). Images and the edges inside a file are left
out.
-/

namespace AutomatisedPipeline.Iac

open Text Store Indexer KeepFirst

/-! ### Files -/

/-- `DockerfileInfo`: of it, the sources of `COPY`. -/
structure DockerfileInfo where
  copySources : List Str
deriving DecidableEq, Repr

structure ConfigRef where
  kind : Str
  name : Str
deriving DecidableEq, Repr

structure K8sDoc where
  kind : Str
  name : Str
  nspace : Str
  images : List Str
  configRefs : List ConfigRef
deriving DecidableEq, Repr

structure Kustomization where
  refs : List Str
deriving DecidableEq, Repr

/-- `dockerfile::parse`, `k8s::looks_like_manifest`, the documents of `k8s::scan` and
`kustomize::parse`. -/
structure IacParsers where
  dockerfile : Str → Option DockerfileInfo
  looksLikeManifest : Str → Bool
  scan : Str → List K8sDoc
  kustomize : Str → Kustomization

inductive IacKind where
  | dockerfile | kustomization | maybeManifest | other
deriving DecidableEq, Repr

/-- `classify`. -/
def classify (f : SourceFile) : IacKind :=
  let name := f.name.1.map Char.toLower
  let ext := ((extension f.name.1).getD []).map Char.toLower
  if name = "dockerfile".toList ∨ "dockerfile.".toList <+: name ∨ ".dockerfile".toList <:+ name then
    .dockerfile
  else if name ∈ ["kustomization.yaml", "kustomization.yml", "kustomization"].map String.toList then
    .kustomization
  else if ext = "yaml".toList ∨ ext = "yml".toList then .maybeManifest
  else .other

/-- What is read of a file. -/
inductive Parsed where
  | dockerfile (info : DockerfileInfo)
  | manifest (docs : List K8sDoc)
  | kustomization (kust : Kustomization)
  | nothing
deriving DecidableEq, Repr

/-- `parse_dockerfile`, `parse_manifest` and `parse_kustomization`, by the kind of the file. -/
def parse (ps : IacParsers) (f : SourceFile) : Parsed :=
  match classify f, readText f with
  | .dockerfile, some src => ((ps.dockerfile src).map Parsed.dockerfile).getD .nothing
  | .kustomization, some src => .kustomization (ps.kustomize src)
  | .maybeManifest, some src =>
      if ps.looksLikeManifest src && !(ps.scan src).isEmpty then .manifest (ps.scan src)
      else .nothing
  | _, _ => .nothing

def Parsed.info : Parsed → Option DockerfileInfo
  | .dockerfile info => some info
  | _ => none

def Parsed.docs : Parsed → Option (List K8sDoc)
  | .manifest docs => some docs
  | _ => none

def Parsed.kust : Parsed → Option Kustomization
  | .kustomization kust => some kust
  | _ => none

structure ParsedIac where
  dockerfiles : List (Str × DockerfileInfo)
  manifests : List (Str × List K8sDoc)
  kustomizations : List (Str × Kustomization)

/-- The first phase of `run_iac_pass_for`. -/
def parseSources (ps : IacParsers) (sources : List SourceFile) : ParsedIac :=
  { dockerfiles := sources.filterMap fun f => (parse ps f).info.map (f.relId, ·)
    manifests := sources.filterMap fun f => (parse ps f).docs.map (f.relId, ·)
    kustomizations := sources.filterMap fun f => (parse ps f).kust.map (f.relId, ·) }

/-! ### Nodes -/

inductive IacLabel where
  | file | iacResource | iacModule
deriving DecidableEq, Repr

/-- A File node, by its id, and the nodes of the pass, with the columns that it asks for. -/
inductive IacNode where
  | file (id : Str)
  | iacResource (id resourceKind name nspace path : Str)
  | iacModule (id path : Str)
deriving DecidableEq, Repr

def IacNode.key : IacNode → IacLabel × Str
  | .file id => (.file, id)
  | .iacResource id .. => (.iacResource, id)
  | .iacModule id _ => (.iacModule, id)

inductive RefTable where
  | importsIacResourceFile | importsIacModuleFile | importsIacModuleIacModule
deriving DecidableEq, Repr

def RefTable.source : RefTable → IacLabel
  | .importsIacResourceFile => .iacResource
  | .importsIacModuleFile | .importsIacModuleIacModule => .iacModule

def RefTable.target : RefTable → IacLabel
  | .importsIacResourceFile | .importsIacModuleFile => .file
  | .importsIacModuleIacModule => .iacModule

/-- No reference goes out of a File node. -/
theorem RefTable.source_ne_file (table : RefTable) : table.source ≠ .file := by
  cases table <;> decide

structure RefEdge where
  table : RefTable
  source : Str
  target : Str
  confidence : Str
  method : Str
deriving DecidableEq, Repr

abbrev IacGraph : Type := Store.Graph IacNode RefEdge

instance : Schema IacNode RefEdge (IacLabel × Str) where
  key := IacNode.key
  source e := (e.table.source, e.source)
  target e := (e.table.target, e.target)

def basename (rel : Str) : Str := ((rel.splitOn '/').getLast?).getD rel

/-- `parent_dir`. -/
def parentDir (rel : Str) : Option Str := (rfind ['/'] rel).map rel.take

/-- `norm_ns`. -/
def normNs (ns : Str) : Str := if ns = [] then "default".toList else ns

def dockerfileId (rel : Str) : Str := symbolPrefix rel ++ "dockerfile".toList

def docId (rel : Str) (docIdx : Nat) : Str :=
  symbolPrefix rel ++ ("k8s::".toList ++ Nat.toDigits 10 docIdx)

def moduleId (rel : Str) : Str := symbolPrefix rel ++ "kustomize".toList

/-- `emit_dockerfile_nodes`: a Dockerfile has no namespace. -/
def emitDockerfileNodes (rel : Str) : List IacNode :=
  [.iacResource (dockerfileId rel) "Dockerfile".toList (basename rel) [] rel]

def emitManifestNodes (rel : Str) (docs : List K8sDoc) : List IacNode :=
  docs.zipIdx.map fun (doc, docIdx) =>
    .iacResource (docId rel docIdx) doc.kind doc.name doc.nspace rel

def emitModuleNode (rel : Str) : List IacNode := [.iacModule (moduleId rel) rel]

/-- `emit_nodes`, the nodes. -/
def ParsedIac.nodes (parsed : ParsedIac) : List IacNode :=
  (parsed.dockerfiles.flatMap fun (rel, _) => emitDockerfileNodes rel) ++
    (parsed.manifests.flatMap fun (rel, docs) => emitManifestNodes rel docs) ++
    (parsed.kustomizations.flatMap fun (rel, _) => emitModuleNode rel)

/-! ### Indexes -/

/-- `ResolutionIndexes`, its maps as the functions that read them. -/
structure ResolutionIndexes where
  fileIds : Finset Str
  resourceByIdent : Str × Str × Str → Option Str
  dockerfileByDir : Str → Option Str
  moduleFiles : Finset Str

/-- The loop bodies of `ResolutionIndexes::build`. -/
def ResolutionIndexes.addRow (idx : ResolutionIndexes) : IacNode → ResolutionIndexes
  | .file _ => idx
  | .iacResource _ kind name ns path =>
      if kind = "Dockerfile".toList then
        match parentDir path with
        | some dir =>
            { idx with dockerfileByDir := Function.update idx.dockerfileByDir (basename dir) (some path) }
        | none => idx
      else if name = [] then idx
      else
        { idx with
          resourceByIdent := Function.update idx.resourceByIdent (kind, name, normNs ns) (some path) }
  | .iacModule _ path => { idx with moduleFiles := insert path idx.moduleFiles }

/-- `ResolutionIndexes::build`, over the rows of the store in the order it gives them. -/
def ResolutionIndexes.build (rows : List IacNode) (fileIds : Finset Str) : ResolutionIndexes :=
  rows.foldl addRow
    { fileIds, resourceByIdent := fun _ => none, dockerfileByDir := fun _ => none, moduleFiles := ∅ }

/-! ### Paths and images -/

/-- `normalize`. -/
def normalize (comps : List Str) : List Str :=
  comps.foldl (fun out comp => if comp = ['.', '.'] then out.dropLast else out ++ [comp]) []

/-- `resolve_path`: the file itself, or the kustomization of the directory. -/
def resolvePath (fromRel spec : Str) (fileIds : Finset Str) : Option Str :=
  let joined :=
    if spec.head? = some '/' then components spec
    else (components fromRel).dropLast ++ components spec
  let base := (['/'].intercalate (normalize joined)).map fun c => if c = '\\' then '/' else c
  if base = [] then none
  else
    [base, base ++ "/kustomization.yaml".toList, base ++ "/kustomization.yml".toList,
      base ++ "/kustomization".toList].find? (· ∈ fileIds)

/-- The path of an image reference: without its digest or its tag. -/
def imagePath (reference : Str) : Str :=
  match splitOnce '@' reference with
  | some (path, _) => path
  | none =>
      match rfind [':'] reference with
      | some i => if '/' ∈ reference.drop i then reference else reference.take i
      | none => reference

/-- `image_name`: the name that `split_image_ref` gives. -/
def imageName (reference : Str) : Str :=
  let path := imagePath reference
  match rfind ['/'] path with
  | some i => path.drop (i + 1)
  | none => path

/-! ### Reference edges -/

section References

variable (idx : ResolutionIndexes)

/-- A `COPY` source. -/
def copyEdge (rel src : Str) : Option RefEdge :=
  (resolvePath rel src idx.fileIds).map fun target =>
    { table := .importsIacResourceFile, source := dockerfileId rel, target,
      confidence := "0.9".toList, method := "iac-copy-source".toList }

/-- An image that a Dockerfile builds: the one in the directory of its name. -/
def imageEdge (resId image : Str) : Option RefEdge :=
  (idx.dockerfileByDir (imageName image)).map fun target =>
    { table := .importsIacResourceFile, source := resId, target,
      confidence := "0.6".toList, method := "iac-image-build".toList }

/-- The identity that a name in a document refers to. -/
def ConfigRef.ident (cref : ConfigRef) (doc : K8sDoc) : Str × Str × Str :=
  (cref.kind, cref.name, normNs doc.nspace)

def configEdge (resId : Str) (doc : K8sDoc) (cref : ConfigRef) : Option RefEdge :=
  (idx.resourceByIdent (cref.ident doc)).map fun target =>
    { table := .importsIacResourceFile, source := resId, target, confidence := "0.7".toList,
      method := "iac-name-match:".toList ++ cref.kind ++ '/' :: cref.name }

/-- A path of a kustomization: another kustomization is a base. -/
def kustomizeEdge (rel spec : Str) : Option RefEdge :=
  (resolvePath rel spec idx.fileIds).map fun target =>
    if target ∈ idx.moduleFiles ∧ target ≠ rel then
      { table := .importsIacModuleIacModule, source := moduleId rel, target := moduleId target,
        confidence := "0.95".toList, method := "kustomize-base".toList }
    else
      { table := .importsIacModuleFile, source := moduleId rel, target,
        confidence := "0.95".toList, method := "kustomize-ref".toList }

def dockerfileEdges (rel : Str) (info : DockerfileInfo) : List RefEdge :=
  info.copySources.filterMap (copyEdge idx rel)

def manifestEdges (rel : Str) (docs : List K8sDoc) : List RefEdge :=
  docs.zipIdx.flatMap fun (doc, docIdx) =>
    doc.images.filterMap (imageEdge idx (docId rel docIdx)) ++
      doc.configRefs.filterMap (configEdge idx (docId rel docIdx) doc)

def kustomizeEdges (rel : Str) (kust : Kustomization) : List RefEdge :=
  kust.refs.filterMap (kustomizeEdge idx rel)

/-- The edges that are staged, in order. -/
def ParsedIac.edges (parsed : ParsedIac) : List RefEdge :=
  (parsed.dockerfiles.flatMap fun (rel, info) => dockerfileEdges idx rel info) ++
    (parsed.manifests.flatMap fun (rel, docs) => manifestEdges idx rel docs) ++
    (parsed.kustomizations.flatMap fun (rel, kust) => kustomizeEdges idx rel kust)

end References

/-- What `seen` remembers of an edge. -/
def RefEdge.seenKey (e : RefEdge) : Str × Str × RefTable := (e.source, e.target, e.table)

/-- `emit_reference_edges`: an edge that was seen is not staged again. -/
def emitReferenceEdges (idx : ResolutionIndexes) (parsed : ParsedIac) : List RefEdge :=
  keepFirst RefEdge.seenKey (parsed.edges idx)

end AutomatisedPipeline.Iac
