import Fabric.Json.Decode
import Fabric.Json.Printer
import Fabric.Json.Reader
import Fabric.Syntax.Tree

/-!
The interchange form of syntax trees. Writing a tree writes every field; reading one numbers it
anew, so the numbers in a document do not matter.
-/

namespace Fabric

open Json

/-- How many arrays and objects may stand inside each other in a document that is read. -/
def Json.nestingLimit : Nat := 127

/-- The names of the cases of an enumeration, each with its case. -/
def Visibility.names : List (String × Visibility) :=
  [("public", .pub), ("internal", .internal), ("protected", .prot), ("private", .priv)]

def Visibility.name : Visibility → String
  | .pub => "public"
  | .internal => "internal"
  | .prot => "protected"
  | .priv => "private"

def TypeKind.names : List (String × TypeKind) :=
  [("class", .classType), ("struct", .structType), ("interface", .interfaceType)]

def TypeKind.name : TypeKind → String
  | .classType => "class"
  | .structType => "struct"
  | .interfaceType => "interface"

def UnaryOp.names : List (String × UnaryOp) :=
  [("Neg", .neg), ("Not", .not), ("LogicNot", .logicNot)]

def UnaryOp.name : UnaryOp → String
  | .neg => "Neg"
  | .not => "Not"
  | .logicNot => "LogicNot"

def BinaryOp.names : List (String × BinaryOp) :=
  [("Add", .add), ("Sub", .sub), ("Mul", .mul), ("Div", .div), ("Rem", .rem),
    ("BitAnd", .bitAnd), ("BitOr", .bitOr), ("BitXor", .bitXor), ("Shl", .shl), ("Shr", .shr),
    ("Eq", .eq), ("Ne", .ne), ("Lt", .lt), ("Le", .le), ("Gt", .gt), ("Ge", .ge),
    ("LogicAnd", .logicAnd), ("LogicOr", .logicOr)]

def BinaryOp.name : BinaryOp → String
  | .add => "Add"
  | .sub => "Sub"
  | .mul => "Mul"
  | .div => "Div"
  | .rem => "Rem"
  | .bitAnd => "BitAnd"
  | .bitOr => "BitOr"
  | .bitXor => "BitXor"
  | .shl => "Shl"
  | .shr => "Shr"
  | .eq => "Eq"
  | .ne => "Ne"
  | .lt => "Lt"
  | .le => "Le"
  | .gt => "Gt"
  | .ge => "Ge"
  | .logicAnd => "LogicAnd"
  | .logicOr => "LogicOr"

namespace Json

def ofUInt16 (n : UInt16) : Json := .int n.toNat

def ofUInt32 (n : UInt32) : Json := .int n.toNat

def ofUInt64 (n : UInt64) : Json := .int n.toNat

def ofInt64 (n : Int64) : Json := .int n.toInt

def ofOption {α : Type} (encode : α → Json) : Option α → Json
  | none => .null
  | some a => encode a

def ofList {α : Type} (encode : α → Json) (as : List α) : Json := .arr (as.map encode)

def variant (tag : String) (payload : Json) : Json := .obj [(tag, payload)]

end Json

def TypeRef.toJson : TypeRef → Json
  | .void => .str "Void"
  | .bool => .str "Bool"
  | .int width signed => variant "Int" (.obj [("width", ofUInt16 width), ("signed", .bool signed)])
  | .array element => variant "Array" element.toJson
  | .named name => variant "Named" (.str name)

def Literal.toJson : Literal → Json
  | .bool value => variant "Bool" (.bool value)
  | .int value width signed =>
    variant "Int"
      (.obj [("value", ofInt64 value), ("width", ofUInt16 width), ("signed", .bool signed)])

def MemberRef.toJson (m : MemberRef) : Json :=
  .obj [("declaring_type", .str m.declaringType), ("name", .str m.name),
    ("parameter_types", ofList TypeRef.toJson m.parameterTypes)]

def FieldRef.toJson (f : FieldRef) : Json :=
  .obj [("declaring_type", .str f.declaringType), ("name", .str f.name)]

def nodeJson (id : NodeId) (kind : Json) : Json :=
  .obj [("id", ofUInt32 id), ("kind", kind)]

mutual

def Expr.toJson : Expr → Json
  | .literal id value => nodeJson id (variant "Literal" value.toJson)
  | .getLocal id name => nodeJson id (variant "Local" (.str name))
  | .getParameter id name => nodeJson id (variant "Parameter" (.str name))
  | .getField id field => nodeJson id (variant "Field" field.toJson)
  | .unary id op operand =>
    nodeJson id (variant "Unary" (.obj [("op", .str op.name), ("operand", operand.toJson)]))
  | .binary id op lhs rhs =>
    nodeJson id
      (variant "Binary" (.obj [("op", .str op.name), ("lhs", lhs.toJson), ("rhs", rhs.toJson)]))
  | .call id target args =>
    nodeJson id
      (variant "Call" (.obj [("target", target.toJson), ("args", .arr (Expr.listToJson args))]))
  | .newArray id element length =>
    nodeJson id
      (variant "NewArray" (.obj [("element", element.toJson), ("length", length.toJson)]))
  | .arrayElement id array index =>
    nodeJson id (variant "ArrayElement" (.obj [("array", array.toJson), ("index", index.toJson)]))
  | .arrayLength id array => nodeJson id (variant "ArrayLength" array.toJson)
  | .conditional id condition ifTrue ifFalse =>
    nodeJson id
      (variant "Conditional"
        (.obj [("condition", condition.toJson), ("if_true", ifTrue.toJson),
          ("if_false", ifFalse.toJson)]))
  | .cast id type operand =>
    nodeJson id (variant "Cast" (.obj [("ty", type.toJson), ("operand", operand.toJson)]))

def Expr.listToJson : List Expr → List Json
  | [] => []
  | e :: es => e.toJson :: Expr.listToJson es

end

def AssignTarget.toJson : AssignTarget → Json
  | .toLocal name => variant "Local" (.str name)
  | .toParameter name => variant "Parameter" (.str name)
  | .toField field => variant "Field" field.toJson

mutual

def Stmt.toJson : Stmt → Json
  | .declare id name type init =>
    nodeJson id
      (variant "LocalDecl"
        (.obj [("name", .str name), ("ty", type.toJson), ("init", ofOption Expr.toJson init)]))
  | .assign id target value =>
    nodeJson id (variant "Assign" (.obj [("target", target.toJson), ("value", value.toJson)]))
  | .store id array index value =>
    nodeJson id
      (variant "ArrayAssign"
        (.obj [("array", array.toJson), ("index", index.toJson), ("value", value.toJson)]))
  | .branch id condition thenBranch elseBranch =>
    nodeJson id
      (variant "If"
        (.obj [("condition", condition.toJson), ("then_branch", thenBranch.toJson),
          ("else_branch", Stmt.optionToJson elseBranch)]))
  | .whileLoop id condition body =>
    nodeJson id (variant "While" (.obj [("condition", condition.toJson), ("body", body.toJson)]))
  | .forLoop id init condition step body =>
    nodeJson id
      (variant "For"
        (.obj [("init", Stmt.optionToJson init), ("condition", ofOption Expr.toJson condition),
          ("step", Stmt.optionToJson step), ("body", body.toJson)]))
  | .ret id value => nodeJson id (variant "Return" (ofOption Expr.toJson value))
  | .eval id expr => nodeJson id (variant "Expr" expr.toJson)
  | .block id stmts => nodeJson id (variant "Block" (.arr (Stmt.listToJson stmts)))
  | .breakLoop id => nodeJson id (.str "Break")
  | .continueLoop id => nodeJson id (.str "Continue")
  | .parallel id count index call results =>
    nodeJson id
      (variant "ParallelInvoke"
        (.obj [("count", count.toJson), ("index", .str index), ("call", call.toJson),
          ("results", ofOption .str results)]))

def Stmt.optionToJson : Option Stmt → Json
  | none => .null
  | some s => s.toJson

def Stmt.listToJson : List Stmt → List Json
  | [] => []
  | s :: ss => s.toJson :: Stmt.listToJson ss

end

def Modifiers.toJson (m : Modifiers) : Json :=
  .obj [("visibility", .str m.visibility.name), ("is_virtual", .bool m.isVirtual),
    ("is_static", .bool m.isStatic), ("is_async", .bool m.isAsync),
    ("is_abstract", .bool m.isAbstract), ("inline_hint", .bool m.inlineHint)]

def Parameter.toJson (p : Parameter) : Json :=
  .obj [("name", .str p.name), ("ty", p.type.toJson)]

def MethodDecl.toJson (m : MethodDecl) : Json :=
  .obj [("id", ofUInt32 m.id), ("name", .str m.name),
    ("explicit_interface", ofOption .str m.explicitInterface),
    ("modifiers", m.modifiers.toJson), ("parameters", ofList Parameter.toJson m.parameters),
    ("return_type", m.returnType.toJson), ("body", Stmt.optionToJson m.body)]

def FieldDecl.toJson (f : FieldDecl) : Json :=
  .obj [("id", ofUInt32 f.id), ("name", .str f.name), ("ty", f.type.toJson),
    ("visibility", .str f.visibility.name), ("is_static", .bool f.isStatic),
    ("is_readonly", .bool f.isReadonly), ("initializer", ofOption Expr.toJson f.initializer)]

def TypeDecl.toJson (t : TypeDecl) : Json :=
  .obj [("id", ofUInt32 t.id), ("full_name", .str t.fullName), ("kind", .str t.kind.name),
    ("visibility", .str t.visibility.name), ("interfaces", ofList .str t.interfaces),
    ("fields", ofList FieldDecl.toJson t.fields), ("methods", ofList MethodDecl.toJson t.methods)]

def SyntaxTree.toJson (t : SyntaxTree) : Json :=
  .obj [("types", ofList TypeDecl.toJson t.types)]

/-- A variant without content; as an object it opens a container. -/
def decodeUnit {α : Type} (names : List (String × α)) (depth : Nat) (j : Json) : Option α :=
  match depth, j with
  | 0, .obj _ => none
  | _, j => asUnit .text names j

def TypeRef.decode (dialect : Dialect) : Nat → Json → Option TypeRef
  | _, .str tag => [("Void", TypeRef.void), ("Bool", TypeRef.bool)].lookup tag
  | depth + 1, .obj [(tag, payload)] =>
    match tag with
    | "Void" => if payload matches .null then some .void else none
    | "Bool" => if payload matches .null then some .bool else none
    | "Int" =>
      match depth with
      | 0 => none
      | _ + 1 => do
        let r ← content dialect ["width", "signed"] payload
        return .int (← r.required "width" asUInt16) (← r.required "signed" asBool)
    | "Array" => (TypeRef.decode dialect depth payload).map .array
    | "Named" => (asText payload).map .named
    | _ => none
  | _, _ => none

def Literal.decode (dialect : Dialect) (depth : Nat) (j : Json) : Option Literal := do
  if depth = 0 then none
  else
    let (tag, payload) ← asVariant j
    match tag with
    | "Bool" => return .bool (← Json.asBool payload)
    | "Int" =>
      if depth = 1 then none
      else
        let r ← content dialect ["value", "width", "signed"] payload
        return .int (← r.required "value" asInt64) (← r.required "width" asUInt16)
          (← r.required "signed" Json.asBool)
    | _ => none

def decodeList {α : Type} (decode : Nat → Json → Option α) : Nat → Json → Option (List α)
  | 0, _ => none
  | depth + 1, j => asList (decode depth) j

def MemberRef.decode (dialect : Dialect) : Nat → Json → Option MemberRef
  | 0, _ => none
  | depth + 1, j => do
    let r ← record ["declaring_type", "name", "parameter_types"] j
    return {
      declaringType := ← r.required "declaring_type" asText
      name := ← r.required "name" asText
      parameterTypes := ← r.withDefault "parameter_types" []
        (decodeList (TypeRef.decode dialect) depth) }

def FieldRef.decode : Nat → Json → Option FieldRef
  | 0, _ => none
  | _ + 1, j => do
    let r ← record ["declaring_type", "name"] j
    return {
      declaringType := ← r.required "declaring_type" asText
      name := ← r.required "name" asText }

mutual

def Expr.decode : Nat → Json → Option Expr
  | 0, _ => none
  | depth + 1, j => do
    let r ← record ["id", "kind"] j
    let id ← r.withDefault "id" 0 asUInt32
    let kind ← r.get? "kind"
    Expr.decodeKind depth id kind

def Expr.decodeKind : Nat → NodeId → Json → Option Expr
  | 0, _, _ => none
  | depth + 1, id, j => do
    let (tag, payload) ← asVariant j
    match tag with
    | "Literal" => return .literal id (← Literal.decode .text depth payload)
    | "Local" => return .getLocal id (← asText payload)
    | "Parameter" => return .getParameter id (← asText payload)
    | "Field" => return .getField id (← FieldRef.decode depth payload)
    | "ArrayLength" => return .arrayLength id (← Expr.decode depth payload)
    | _ =>
      match depth with
      | 0 => none
      | depth + 1 =>
        match tag with
        | "Unary" =>
          let r ← record ["op", "operand"] payload
          return .unary id (← r.required "op" (decodeUnit UnaryOp.names depth))
            (← r.required "operand" fun j => Expr.decode depth j)
        | "Binary" =>
          let r ← record ["op", "lhs", "rhs"] payload
          return .binary id (← r.required "op" (decodeUnit BinaryOp.names depth))
            (← r.required "lhs" fun j => Expr.decode depth j)
            (← r.required "rhs" fun j => Expr.decode depth j)
        | "Call" =>
          let r ← record ["target", "args"] payload
          return .call id (← r.required "target" (MemberRef.decode .text depth))
            (← r.required "args" fun j => Expr.decodeArgs depth j)
        | "NewArray" =>
          let r ← record ["element", "length"] payload
          return .newArray id (← r.required "element" (TypeRef.decode .text depth))
            (← r.required "length" fun j => Expr.decode depth j)
        | "ArrayElement" =>
          let r ← record ["array", "index"] payload
          return .arrayElement id (← r.required "array" fun j => Expr.decode depth j)
            (← r.required "index" fun j => Expr.decode depth j)
        | "Conditional" =>
          let r ← record ["condition", "if_true", "if_false"] payload
          return .conditional id (← r.required "condition" fun j => Expr.decode depth j)
            (← r.required "if_true" fun j => Expr.decode depth j)
            (← r.required "if_false" fun j => Expr.decode depth j)
        | "Cast" =>
          let r ← record ["ty", "operand"] payload
          return .cast id (← r.required "ty" (TypeRef.decode .text depth))
            (← r.required "operand" fun j => Expr.decode depth j)
        | _ => none

def Expr.decodeArgs : Nat → Json → Option (List Expr)
  | 0, _ => none
  | depth + 1, j => asList (fun j => Expr.decode depth j) j

end

def AssignTarget.decode : Nat → Json → Option AssignTarget
  | 0, _ => none
  | depth + 1, j => do
    let (tag, payload) ← asVariant j
    match tag with
    | "Local" => return .toLocal (← asText payload)
    | "Parameter" => return .toParameter (← asText payload)
    | "Field" => return .toField (← FieldRef.decode depth payload)
    | _ => none

mutual

def Stmt.decode : Nat → Json → Option Stmt
  | 0, _ => none
  | depth + 1, j => do
    let r ← record ["id", "kind"] j
    let id ← r.withDefault "id" 0 asUInt32
    let kind ← r.get? "kind"
    match decodeUnit [("Break", Stmt.breakLoop), ("Continue", Stmt.continueLoop)] depth kind with
    | some make => return make id
    | none => Stmt.decodeKind depth id kind

def Stmt.decodeKind : Nat → NodeId → Json → Option Stmt
  | 0, _, _ => none
  | depth + 1, id, j => do
    let (tag, payload) ← asVariant j
    match tag with
    | "Return" => return .ret id (← optional (Expr.decode depth) payload)
    | "Expr" => return .eval id (← Expr.decode depth payload)
    | "Block" => return .block id (← Stmt.decodeBlock depth payload)
    | _ =>
      match depth with
      | 0 => none
      | depth + 1 =>
        match tag with
        | "LocalDecl" =>
          let r ← record ["name", "ty", "init"] payload
          return .declare id (← r.required "name" asText)
            (← r.required "ty" (TypeRef.decode .text depth))
            (← r.nullable "init" (Expr.decode depth))
        | "Assign" =>
          let r ← record ["target", "value"] payload
          return .assign id (← r.required "target" (AssignTarget.decode depth))
            (← r.required "value" (Expr.decode depth))
        | "ArrayAssign" =>
          let r ← record ["array", "index", "value"] payload
          return .store id (← r.required "array" (Expr.decode depth))
            (← r.required "index" (Expr.decode depth)) (← r.required "value" (Expr.decode depth))
        | "If" =>
          let r ← record ["condition", "then_branch", "else_branch"] payload
          return .branch id (← r.required "condition" (Expr.decode depth))
            (← r.required "then_branch" fun j => Stmt.decode depth j)
            (← r.nullable "else_branch" fun j => Stmt.decode depth j)
        | "While" =>
          let r ← record ["condition", "body"] payload
          return .whileLoop id (← r.required "condition" (Expr.decode depth))
            (← r.required "body" fun j => Stmt.decode depth j)
        | "For" =>
          let r ← record ["init", "condition", "step", "body"] payload
          return .forLoop id (← r.nullable "init" fun j => Stmt.decode depth j)
            (← r.nullable "condition" (Expr.decode depth))
            (← r.nullable "step" fun j => Stmt.decode depth j)
            (← r.required "body" fun j => Stmt.decode depth j)
        | "ParallelInvoke" =>
          let r ← record ["count", "index", "call", "results"] payload
          return .parallel id (← r.required "count" (Expr.decode depth))
            (← r.required "index" asText) (← r.required "call" (Expr.decode depth))
            (← r.nullable "results" asText)
        | _ => none

def Stmt.decodeBlock : Nat → Json → Option (List Stmt)
  | 0, _ => none
  | depth + 1, j => asList (fun j => Stmt.decode depth j) j

end

def Modifiers.decode : Nat → Json → Option Modifiers
  | 0, _ => none
  | depth + 1, j => do
    let r ← record
      ["visibility", "is_virtual", "is_static", "is_async", "is_abstract", "inline_hint"] j
    return {
      visibility := ← r.withDefault "visibility" .priv (decodeUnit Visibility.names depth)
      isVirtual := ← r.withDefault "is_virtual" false asBool
      isStatic := ← r.withDefault "is_static" false asBool
      isAsync := ← r.withDefault "is_async" false asBool
      isAbstract := ← r.withDefault "is_abstract" false asBool
      inlineHint := ← r.withDefault "inline_hint" false asBool }

def Parameter.decode : Nat → Json → Option Parameter
  | 0, _ => none
  | depth + 1, j => do
    let r ← record ["name", "ty"] j
    return {
      name := ← r.required "name" asText
      type := ← r.required "ty" (TypeRef.decode .text depth) }

def MethodDecl.decode : Nat → Json → Option MethodDecl
  | 0, _ => none
  | depth + 1, j => do
    let r ← record
      ["id", "name", "explicit_interface", "modifiers", "parameters", "return_type", "body"] j
    return {
      id := ← r.withDefault "id" 0 asUInt32
      name := ← r.required "name" asText
      explicitInterface := ← r.withDefault "explicit_interface" none (optional asText)
      modifiers := ← r.withDefault "modifiers" {} (Modifiers.decode depth)
      parameters := ← r.withDefault "parameters" [] (decodeList Parameter.decode depth)
      returnType := ← r.withDefault "return_type" .void (TypeRef.decode .text depth)
      body := ← r.withDefault "body" none (optional (Stmt.decode depth)) }

def FieldDecl.decode : Nat → Json → Option FieldDecl
  | 0, _ => none
  | depth + 1, j => do
    let r ← record
      ["id", "name", "ty", "visibility", "is_static", "is_readonly", "initializer"] j
    return {
      id := ← r.withDefault "id" 0 asUInt32
      name := ← r.required "name" asText
      type := ← r.required "ty" (TypeRef.decode .text depth)
      visibility := ← r.withDefault "visibility" .priv (decodeUnit Visibility.names depth)
      isStatic := ← r.withDefault "is_static" false asBool
      isReadonly := ← r.withDefault "is_readonly" false asBool
      initializer := ← r.withDefault "initializer" none (optional (Expr.decode depth)) }

def TypeDecl.decode : Nat → Json → Option TypeDecl
  | 0, _ => none
  | depth + 1, j => do
    let r ← record ["id", "full_name", "kind", "visibility", "interfaces", "fields", "methods"] j
    return {
      id := ← r.withDefault "id" 0 asUInt32
      fullName := ← r.required "full_name" asText
      kind := ← r.withDefault "kind" .classType (decodeUnit TypeKind.names depth)
      visibility := ← r.withDefault "visibility" .priv (decodeUnit Visibility.names depth)
      interfaces := ← r.withDefault "interfaces" [] (decodeList (fun _ => asText) depth)
      fields := ← r.withDefault "fields" [] (decodeList FieldDecl.decode depth)
      methods := ← r.withDefault "methods" [] (decodeList MethodDecl.decode depth) }

namespace SyntaxTree

def decode : Nat → Json → Option SyntaxTree
  | 0, _ => none
  | depth + 1, j => do
    let r ← record ["types"] j
    return ⟨← r.required "types" (decodeList TypeDecl.decode depth)⟩

/-- The tree of a document, its nodes numbered from one. -/
def ofJson? (j : Json) : Option SyntaxTree :=
  (decode nestingLimit j).map fun t => ofTypes t.types

/-- The tree that a text holds, its nodes numbered from one. -/
def parse (text : String) : Option SyntaxTree :=
  (Json.parse text).bind ofJson?

def print (t : SyntaxTree) : String :=
  t.toJson.pretty 0

end SyntaxTree

end Fabric
