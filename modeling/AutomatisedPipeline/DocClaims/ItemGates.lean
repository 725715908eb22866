import AutomatisedPipeline.Cfg.Compact
import AutomatisedPipeline.Indexer.Specifiers

/-!
The `#[cfg]` facts about the items of one Rust file (`parser/rust_item_gates.rs`) and
the effective gate of an item (`parser/spec/rust_cfg_gate.rs`).

A syntax tree is what the grammar returns of its named nodes. `placesOf` visits it in
source order and keeps, at each node, what the code asks the tree for: the siblings in
front of the node and the nodes around it, each with its own siblings in front.
-/

namespace AutomatisedPipeline.DocClaims

open Text Cfg
open Indexer (trim trimStart splitWhitespace)

/-! ### Syntax trees -/

/-- `Node::kind`: the kinds the code compares with. -/
inductive Kind where
  | sourceFile
  | declarationList
  | modItem
  | implItem
  | traitItem
  | functionItem
  | enumItem
  | enumVariant
  | attributeItem
  | innerAttributeItem
  | attr
  | lineComment
  | blockComment
  | other (name : Str)
deriving DecidableEq, Repr

/-- The field names of the grammar that the code asks for. -/
inductive Field where
  | body
  | arguments
deriving DecidableEq, Repr

/-- A named node: its kind, the field of its parent it fills, the 1-based line it
starts on, its text and its named children. -/
inductive Node where
  | mk (kind : Kind) (field : Option Field) (line : Nat) (text : Str) (namedChildren : List Node)

namespace Node

def kind : Node → Kind
  | mk kind _ _ _ _ => kind

def field : Node → Option Field
  | mk _ field _ _ _ => field

def line : Node → Nat
  | mk _ _ line _ _ => line

def text : Node → Str
  | mk _ _ _ text _ => text

def namedChildren : Node → List Node
  | mk _ _ _ _ children => children

/-- `Node::child_by_field_name`. -/
def childByFieldName (node : Node) (name : Field) : Option Node :=
  node.namedChildren.find? (·.field = some name)

end Node

/-- A node with the named siblings in front of it, nearest first. -/
structure Level where
  node : Node
  before : List Node

/-- A node of a file with the nodes around it, nearest first. -/
structure Place where
  item : Level
  above : List Level

/-- The children of a node, each with the ones in front of it. -/
def levels (before : List Node) : List Node → List Level
  | [] => []
  | child :: rest => ⟨child, before⟩ :: levels (child :: before) rest

mutual
/-- The places at and under a node, in source order. -/
def placesAt (above : List Level) (before : List Node) : Node → List Place
  | .mk kind field line text children =>
      ⟨⟨.mk kind field line text children, before⟩, above⟩ ::
        placesUnder (⟨.mk kind field line text children, before⟩ :: above) [] children

def placesUnder (above : List Level) (before : List Node) : List Node → List Place
  | [] => []
  | child :: rest => placesAt above before child ++ placesUnder above (child :: before) rest
end

def placesOf (root : Node) : List Place := placesAt [] [] root

/-- `items`: the nodes of a kind, in source order. -/
def items (root : Node) (kind : Kind) : List Place :=
  (placesOf root).filter (·.item.node.kind = kind)

/-- `has_ancestor`. -/
def hasAncestor (place : Place) (kind : Kind) : Bool := place.above.any (·.node.kind = kind)

/-! ### Attributes -/

/-- `preceding_attributes`: the outer attributes of an item, given the siblings in
front of it. Comments are skipped, any other sibling ends the search. -/
def precedingAttributes : List Node → List Node
  | [] => []
  | previous :: rest =>
      match previous.kind with
      | .attributeItem => previous :: precedingAttributes rest
      | .lineComment => precedingAttributes rest
      | .blockComment => precedingAttributes rest
      | _ => []

/-- The inner attributes among the children of a container. -/
def innerAttributes (container : Node) : List Node :=
  container.namedChildren.filter (·.kind = .innerAttributeItem)

/-- `attribute_name`: the path of an attribute. -/
def attributeName (attributeItem : Node) : Option Str :=
  match attributeItem.namedChildren with
  | [] => none
  | attr :: _ => if attr.kind = .attr then attr.namedChildren.head?.map Node.text else none

/-- The text of the argument list of an attribute. -/
def attributeArguments (attributeItem : Node) : Option Str :=
  attributeItem.namedChildren.head?.bind fun attr =>
    (attr.childByFieldName .arguments).map Node.text

/-- A container whose inner attributes gate what it holds. -/
def isContainer (kind : Kind) : Bool := kind = .declarationList || kind = .sourceFile

/-- `GATING_ANCESTORS`. -/
def gatingAncestors : List Kind := [.modItem, .implItem, .traitItem, .functionItem]

/-! ### The effective gate -/

section Gate

-- `char::is_alphanumeric`, the Unicode property
variable (isAlphanumeric : Char → Bool)

/-- The key of a predicate that does not parse. -/
def unparsedKey : Str := ['u', 'n', 'p', 'a', 'r', 's', 'e', 'd']

/-- `cfg_of`. -/
def cfgOf (attributeItem : Node) : Option CfgPredicate :=
  if attributeName attributeItem = some "cfg".toList then
    (attributeArguments attributeItem).map fun raw =>
      (parseCfgArguments isAlphanumeric (withoutComments raw)).getD
        (.option unparsedKey (some (splitWhitespace (withoutComments raw)).flatten))
  else none

/-- `outer_cfgs`. -/
def outerCfgs (before : List Node) : List CfgPredicate :=
  (precedingAttributes before).filterMap (cfgOf isAlphanumeric)

/-- `inner_cfgs`. -/
def innerCfgs (container : Node) : List CfgPredicate :=
  (innerAttributes container).filterMap (cfgOf isAlphanumeric)

/-- What one enclosing node adds to the predicates of an item. -/
def ancestorCfgs (level : Level) : List CfgPredicate :=
  (if level.node.kind ∈ gatingAncestors then outerCfgs isAlphanumeric level.before else []) ++
    (if isContainer level.node.kind then innerCfgs isAlphanumeric level.node else [])

/-- `gate_predicates`. -/
def gatePredicates (place : Place) : List CfgPredicate :=
  outerCfgs isAlphanumeric place.item.before ++ place.above.flatMap (ancestorCfgs isAlphanumeric)

/-- `effective_gate`. -/
def effectiveGate (place : Place) : Str :=
  match gatePredicates isAlphanumeric place with
  | [] => []
  | predicates => (CfgPredicate.all predicates).canonical.compact

end Gate

/-! ### `cfg_attr` -/

/-- The loop of `top_level_parts`, in front of the part read so far. -/
def partsFrom (depth : Int) (inString escaped : Bool) (part : Str) : Str → List Str
  | [] => [part]
  | c :: rest =>
      if inString then
        if escaped then partsFrom depth true false (part ++ [c]) rest
        else if c = '\\' then partsFrom depth true true (part ++ [c]) rest
        else if c = '"' then partsFrom depth false false (part ++ [c]) rest
        else partsFrom depth true false (part ++ [c]) rest
      else if c = '"' then partsFrom depth true escaped (part ++ [c]) rest
      else if c = '(' ∨ c = '[' ∨ c = '{' then partsFrom (depth + 1) false escaped (part ++ [c]) rest
      else if c = ')' ∨ c = ']' ∨ c = '}' then partsFrom (depth - 1) false escaped (part ++ [c]) rest
      else if c = ',' ∧ depth = 0 then part :: partsFrom depth false escaped [] rest
      else partsFrom depth false escaped (part ++ [c]) rest

/-- `top_level_parts`: splits on the commas outside any bracket or string literal. -/
def topLevelParts (text : Str) : List Str := partsFrom 0 false false [] text

/-- The text between the parentheses of an argument list, or the text itself. -/
def insideParentheses (arguments : Str) : Str :=
  match trim arguments with
  | '(' :: rest => if rest.getLast? = some ')' then rest.dropLast else arguments
  | _ => arguments

theorem length_trim_le (s : Str) : (trim s).length ≤ s.length := by
  have hback := (List.dropWhile_suffix isWhitespace (l := (s.dropWhile isWhitespace).reverse)).length_le
  have hfront := (List.dropWhile_suffix isWhitespace (l := s)).length_le
  rw [List.length_reverse] at hback
  rw [trim, Indexer.trimMatches, List.length_reverse]
  exact hback.trans hfront

theorem length_insideParentheses_le (arguments : Str) :
    (insideParentheses arguments).length ≤ arguments.length := by
  have htrim := length_trim_le arguments
  unfold insideParentheses
  split
  · rename_i rest heq
    rw [heq, List.length_cons] at htrim
    split
    · rw [List.length_dropLast]
      omega
    · exact le_rfl
  · exact le_rfl

theorem length_of_mem_partsFrom {s : Str} (text : Str) :
    ∀ {depth : Int} {inString escaped : Bool} {part : Str},
      s ∈ partsFrom depth inString escaped part text → s.length ≤ part.length + text.length := by
  induction text with
  | nil => simp [partsFrom]
  | cons c rest ih =>
      intro depth inString escaped part h
      have hnext : ∀ {depth : Int} {inString escaped : Bool},
          s ∈ partsFrom depth inString escaped (part ++ [c]) rest →
            s.length ≤ part.length + (c :: rest).length := by
        intro depth inString escaped hs
        have := ih hs
        simp only [List.length_append, List.length_cons, List.length_nil] at this ⊢
        omega
      unfold partsFrom at h
      split_ifs at h
      all_goals first | exact hnext h | skip
      rcases List.mem_cons.mp h with rfl | h
      · simp
      · have := ih h
        simp only [List.length_cons, List.length_nil] at this ⊢
        omega

/-- The text of the attribute `cfg_attr`. -/
def cfgAttrName : Str := "cfg_attr".toList

theorem length_stripped_lt {arguments part rest : Str}
    (hpart : part ∈ (topLevelParts (insideParentheses arguments)).tail)
    (hrest : cfgAttrName.isPrefixOf? (trim part) = some rest) : rest.length < arguments.length := by
  have happend : cfgAttrName ++ rest = trim part := List.append_eq_of_isPrefixOf?_eq_some hrest
  have hlength := congrArg List.length happend
  rw [List.length_append] at hlength
  have hname : cfgAttrName.length = 8 := rfl
  have htrim := length_trim_le part
  have hmem := @length_of_mem_partsFrom part _ 0 false false [] (List.mem_of_mem_tail hpart)
  have hinside := length_insideParentheses_le arguments
  rw [List.length_nil] at hmem
  omega

/-- `arguments_add_cfg`: one of the attributes behind the predicate is a `cfg`, or a
`cfg_attr` that adds one. -/
def argumentsAddCfg (arguments : Str) : Bool :=
  (topLevelParts (insideParentheses arguments)).tail.attach.any fun part =>
    match _h : cfgAttrName.isPrefixOf? (trim part.1) with
    | some rest => argumentsAddCfg rest
    | none =>
        match "cfg".toList.isPrefixOf? (trim part.1) with
        | some rest => (trimStart rest).head? = some '('
        | none => false
termination_by arguments.length
decreasing_by exact length_stripped_lt part.2 _h

/-- `cfg_attr_adds_cfg`. -/
def cfgAttrAddsCfg (attributeItem : Node) : Bool :=
  if attributeName attributeItem = some cfgAttrName then
    match attributeArguments attributeItem with
    | none => true
    | some arguments => argumentsAddCfg arguments
  else false

/-- One step of `reached_by_cfg_attr`. -/
def levelHasCfgAttr (level : Level) : Bool :=
  (precedingAttributes level.before).any cfgAttrAddsCfg ||
    isContainer level.node.kind && (innerAttributes level.node).any cfgAttrAddsCfg

/-- `reached_by_cfg_attr`. -/
def reachedByCfgAttr (place : Place) : Bool := (place.item :: place.above).any levelHasCfgAttr

/-- `own_attributes_name_cfg`. -/
def ownAttributesNameCfg (before : List Node) : Bool :=
  (precedingAttributes before).any fun attr =>
    attributeName attr = some "cfg".toList || cfgAttrAddsCfg attr

/-! ### The facts of a file -/

/-- `FunctionGate`. -/
structure FunctionGate where
  line : Nat
  gate : Str
  cfgAttr : Bool
  nested : Bool
deriving DecidableEq, Repr

/-- `EnumShape`. -/
structure EnumShape where
  line : Nat
  variants : Nat
  gatedVariants : Nat
deriving DecidableEq, Repr

section Facts

variable (isAlphanumeric : Char → Bool)

def functionGate (place : Place) : FunctionGate where
  line := place.item.node.line
  gate := effectiveGate isAlphanumeric place
  cfgAttr := reachedByCfgAttr place
  nested := hasAncestor place .functionItem

/-- `function_gates`, over what `parse` makes of the source. -/
def functionGates (parse : Str → Except Str Node) (source : Str) :
    Except Str (List FunctionGate) :=
  match parse source with
  | .error why => .error why
  | .ok root => .ok ((items root .functionItem).map (functionGate isAlphanumeric))

end Facts

/-- The variants in the body of an enum. -/
def variantsOf (body : Node) : List Level :=
  (levels [] body.namedChildren).filter (·.node.kind = .enumVariant)

def enumShape (node body : Node) : EnumShape where
  line := node.line
  variants := (variantsOf body).length
  gatedVariants := (variantsOf body).countP fun variant => ownAttributesNameCfg variant.before

/-- `enum_shapes`: an enum without a body is passed over. -/
def enumShapes (parse : Str → Except Str Node) (source : Str) : Except Str (List EnumShape) :=
  match parse source with
  | .error why => .error why
  | .ok root =>
      .ok ((items root .enumItem).filterMap fun place =>
        (place.item.node.childByFieldName .body).map (enumShape place.item.node))

end AutomatisedPipeline.DocClaims
