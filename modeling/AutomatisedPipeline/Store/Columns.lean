import AutomatisedPipeline.Text.Basic

/-!
The tables of the graph store (`graph_store/schema.rs`, `graph_store/columns.rs`): the node
labels, the columns each of them declares, and the relationship tables between them.
-/

namespace AutomatisedPipeline.Store

/-- `NODE_LABELS`. -/
inductive NodeLabel where
  | directory | file | «module» | function | method | struct | enum | variant | trait | field
  | constant | typeAlias | «import» | callSite | community | process | stdlibSymbol | commit
  | version | iacResource | iacModule | iacImage | astNode | fileContent
deriving DecidableEq, Repr

/-- The name of the node table. -/
def NodeLabel.name : NodeLabel → String
  | .directory => "Directory"
  | .file => "File"
  | .«module» => "Module"
  | .function => "Function"
  | .method => "Method"
  | .struct => "Struct"
  | .enum => "Enum"
  | .variant => "Variant"
  | .trait => "Trait"
  | .field => "Field"
  | .constant => "Constant"
  | .typeAlias => "TypeAlias"
  | .«import» => "Import"
  | .callSite => "CallSite"
  | .community => "Community"
  | .process => "Process"
  | .stdlibSymbol => "StdlibSymbol"
  | .commit => "Commit"
  | .version => "Version"
  | .iacResource => "IacResource"
  | .iacModule => "IacModule"
  | .iacImage => "IacImage"
  | .astNode => "AstNode"
  | .fileContent => "FileContent"

/-! ### Columns -/

def colsDirectory : List String :=
  ["id", "path", "name"]

def colsFile : List String :=
  ["id", "path", "name", "extension", "size_bytes", "parse_errors", "target_context", "cfg_gate",
    "cfg_active", "module_path"]

def colsModule : List String :=
  ["id", "name", "qualified_name", "cfg_gate", "cfg_active"]

def colsVariant : List String :=
  ["id", "name", "qualified_name", "start_line", "end_line", "language", "cfg_gate", "cfg_active"]

def colsFunction : List String :=
  ["id", "name", "qualified_name", "start_line", "end_line", "visibility", "is_async",
    "return_type", "constructed_types", "language", "entry_kind", "cfg_gate", "cfg_active",
    "code_context", "body_kind", "linkage"]

def colsMethod : List String :=
  ["id", "name", "qualified_name", "start_line", "end_line", "visibility", "is_async",
    "receiver_type", "trait_name", "return_type", "constructed_types", "language", "cfg_gate",
    "cfg_active", "code_context", "body_kind", "linkage"]

def colsTypedecl : List String :=
  ["id", "name", "qualified_name", "start_line", "end_line", "visibility", "language", "bases",
    "implements", "cfg_gate", "cfg_active"]

def colsField : List String :=
  ["id", "name", "type_annotation", "visibility", "start_line", "end_line", "language",
    "cfg_gate", "cfg_active"]

def colsConstant : List String :=
  ["id", "name", "qualified_name", "type_annotation", "start_line", "end_line", "language",
    "cfg_gate", "cfg_active"]

def colsTypeAlias : List String :=
  ["id", "name", "qualified_name", "target_type", "start_line", "end_line", "language",
    "cfg_gate", "cfg_active"]

def colsImport : List String :=
  ["id", "path", "alias", "is_glob", "start_line", "end_line", "is_resolved", "language"]

def colsCallSite : List String :=
  ["id", "callee_name", "line", "col", "is_resolved", "language", "unresolved_reason",
    "receiver_hint", "macro_arg_shape", "receiver_hint_via", "callee_shape"]

def colsCommunity : List String :=
  ["id", "name", "algorithm", "resolution_param", "member_count", "modularity_contribution"]

def colsProcess : List String :=
  ["id", "name", "entry_point_id", "entry_kind", "entry_confidence", "depth", "symbol_count"]

def colsCommit : List String :=
  ["id", "sha", "author", "author_email", "committed_at", "message"]

def colsVersion : List String :=
  ["id", "entity_id", "entity_kind", "qualified_name", "change_type", "commit_sha",
    "committed_at", "lines_changed"]

def colsIacResource : List String :=
  ["id", "name", "qualified_name", "resource_kind", "api_version", "namespace", "image", "ports",
    "entrypoint", "workdir", "source", "path", "start_line"]

def colsIacModule : List String :=
  ["id", "name", "qualified_name", "resource_kind", "source", "path", "start_line"]

def colsIacImage : List String :=
  ["id", "reference", "name", "tag", "registry"]

def colsAstNode : List String :=
  ["id", "file_id", "kind", "is_named", "start_byte", "end_byte", "start_line", "start_col",
    "end_line", "end_col", "field_name", "child_index", "parent_id", "language"]

/-- `node_column_types`, without the types; the labels that the bulk insert does not know have
none. -/
def nodeColumns : NodeLabel → Option (List String)
  | .directory => some colsDirectory
  | .file => some colsFile
  | .«module» => some colsModule
  | .variant => some colsVariant
  | .function => some colsFunction
  | .method => some colsMethod
  | .struct => some colsTypedecl
  | .enum => some colsTypedecl
  | .trait => some colsTypedecl
  | .field => some colsField
  | .constant => some colsConstant
  | .typeAlias => some colsTypeAlias
  | .«import» => some colsImport
  | .callSite => some colsCallSite
  | .community => some colsCommunity
  | .process => some colsProcess
  | .commit => some colsCommit
  | .version => some colsVersion
  | .iacResource => some colsIacResource
  | .iacModule => some colsIacModule
  | .iacImage => some colsIacImage
  | .astNode => some colsAstNode
  | .stdlibSymbol => none
  | .fileContent => none

/-- `label_declares_column`. -/
def labelDeclaresColumn (label : NodeLabel) (column : String) : Bool :=
  match nodeColumns label with
  | some cols => cols.any (· == column)
  | none => false

/-! ### Relationship tables -/

/-- A relationship table: its name and the labels it joins. -/
abbrev RelSchema : Type := String × NodeLabel × NodeLabel

/-- `REL_TABLES`. -/
def relTables : List RelSchema := [
  ("Contains_Dir_File", .directory, .file),
  ("Contains_Dir_Dir", .directory, .directory),
  ("Contains_File_Module", .file, .«module»),
  ("Defines_File_Function", .file, .function),
  ("Defines_File_Struct", .file, .struct),
  ("Defines_File_Enum", .file, .enum),
  ("Defines_File_Trait", .file, .trait),
  ("Defines_File_Constant", .file, .constant),
  ("Defines_File_TypeAlias", .file, .typeAlias),
  ("Defines_File_Import", .file, .«import»),
  ("Defines_Module_Import", .«module», .«import»),
  ("Defines_Module_Function", .«module», .function),
  ("Defines_Module_Struct", .«module», .struct),
  ("Defines_Module_Enum", .«module», .enum),
  ("Defines_Module_Trait", .«module», .trait),
  ("Defines_Module_Constant", .«module», .constant),
  ("Defines_Module_TypeAlias", .«module», .typeAlias),
  ("HasMethod_Struct_Method", .struct, .method),
  ("HasMethod_Enum_Method", .enum, .method),
  ("HasMethod_Trait_Method", .trait, .method),
  ("HasField_Struct_Field", .struct, .field),
  ("HasField_Enum_Field", .enum, .field),
  ("HasVariant_Enum_Variant", .enum, .variant),
  ("Imports_File_File", .file, .file),
  ("References_File_File", .file, .file),
  ("Imports_File_Module", .file, .«module»),
  ("Imports_File_Function", .file, .function),
  ("Imports_File_Method", .file, .method),
  ("Imports_File_Struct", .file, .struct),
  ("Imports_File_Enum", .file, .enum),
  ("Imports_File_Trait", .file, .trait),
  ("Imports_File_Constant", .file, .constant),
  ("Imports_File_TypeAlias", .file, .typeAlias),
  ("Imports_Module_Function", .«module», .function),
  ("Imports_Module_Struct", .«module», .struct),
  ("Imports_Module_Enum", .«module», .enum),
  ("Imports_Module_Trait", .«module», .trait),
  ("Imports_Module_Constant", .«module», .constant),
  ("Imports_Module_TypeAlias", .«module», .typeAlias),
  ("Calls_Function_Function", .function, .function),
  ("Calls_Function_Method", .function, .method),
  ("Calls_Method_Function", .method, .function),
  ("Calls_Method_Method", .method, .method),
  ("Defines_Function_CallSite", .function, .callSite),
  ("Defines_Method_CallSite", .method, .callSite),
  ("Calls_CallSite_Function", .callSite, .function),
  ("Calls_CallSite_Method", .callSite, .method),
  ("Calls_CallSite_StdlibSymbol", .callSite, .stdlibSymbol),
  ("Calls_CallSite_Struct", .callSite, .struct),
  ("Implements_Struct_Trait", .struct, .trait),
  ("Implements_Enum_Trait", .enum, .trait),
  ("Extends_Trait_Trait", .trait, .trait),
  ("Extends_Struct_Struct", .struct, .struct),
  ("Extends_Enum_Enum", .enum, .enum),
  ("Uses_Function_Struct", .function, .struct),
  ("Uses_Function_Enum", .function, .enum),
  ("Uses_Function_Trait", .function, .trait),
  ("Uses_Function_TypeAlias", .function, .typeAlias),
  ("Uses_Method_Struct", .method, .struct),
  ("Uses_Method_Enum", .method, .enum),
  ("Uses_Method_Trait", .method, .trait),
  ("Uses_Method_TypeAlias", .method, .typeAlias),
  ("Uses_Struct_Struct", .struct, .struct),
  ("Uses_Struct_Enum", .struct, .enum),
  ("Uses_Struct_Trait", .struct, .trait),
  ("Uses_Field_Struct", .field, .struct),
  ("Uses_Field_Enum", .field, .enum),
  ("Uses_Field_Trait", .field, .trait),
  ("Uses_Field_TypeAlias", .field, .typeAlias),
  ("Calls_Function_StdlibSymbol", .function, .stdlibSymbol),
  ("Calls_Method_StdlibSymbol", .method, .stdlibSymbol),
  ("Implements_Struct_StdlibSymbol", .struct, .stdlibSymbol),
  ("Implements_Enum_StdlibSymbol", .enum, .stdlibSymbol),
  ("MemberOf_Function_Community", .function, .community),
  ("MemberOf_Method_Community", .method, .community),
  ("MemberOf_Struct_Community", .struct, .community),
  ("MemberOf_Enum_Community", .enum, .community),
  ("MemberOf_Trait_Community", .trait, .community),
  ("MemberOf_Constant_Community", .constant, .community),
  ("MemberOf_TypeAlias_Community", .typeAlias, .community),
  ("MemberOf_Module_Community", .«module», .community),
  ("EntryPointOf_Function_Process", .function, .process),
  ("EntryPointOf_Method_Process", .method, .process),
  ("ParticipatesIn_Function_Process", .function, .process),
  ("ParticipatesIn_Method_Process", .method, .process),
  ("PreviousVersion_Commit_Commit", .commit, .commit),
  ("VersionOf_Version_File", .version, .file),
  ("VersionOf_Version_Function", .version, .function),
  ("VersionOf_Version_Method", .version, .method),
  ("VersionOf_Version_Struct", .version, .struct),
  ("VersionOf_Version_Enum", .version, .enum),
  ("VersionOf_Version_Trait", .version, .trait),
  ("ChangedIn_Version_Commit", .version, .commit),
  ("PreviousVersion_Version_Version", .version, .version),
  ("FILE_CHANGES_WITH", .file, .file),
  ("OBSERVED_CALLS_Function_Function", .function, .function),
  ("OBSERVED_CALLS_Function_Method", .function, .method),
  ("OBSERVED_CALLS_Method_Function", .method, .function),
  ("OBSERVED_CALLS_Method_Method", .method, .method),
  ("Defines_File_IacResource", .file, .iacResource),
  ("Defines_File_IacModule", .file, .iacModule),
  ("Imports_IacResource_IacImage", .iacResource, .iacImage),
  ("Imports_IacResource_File", .iacResource, .file),
  ("Imports_IacModule_File", .iacModule, .file),
  ("Imports_IacModule_IacModule", .iacModule, .iacModule),
  ("Defines_File_AstNode", .file, .astNode),
  ("AstChild_AstNode_AstNode", .astNode, .astNode)]

end AutomatisedPipeline.Store
