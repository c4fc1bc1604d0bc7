import PassThrough.Json.Basic
import PassThrough.Source.Basic

/-! Programs as JSON values: a writer that leaves nothing out, and a reader that fills in defaults. -/

namespace PassThrough
open Json

def Location.toJson (l : Location) : Json :=
  .object [("file", .string l.file), ("line", .natural l.line), ("column", .natural l.column)]

def Location.ofJson? (j : Json) : Option Location := do
  match ← j.fields? ["file", "line", "column"] with
  | [file, line, column] =>
    return ⟨← file.withDefault "" text?, ← line.withDefault 0 count?,
      ← column.withDefault 0 count?⟩
  | _ => none

def textsToJson (texts : List String) : Json := .array (texts.map .string)

def Annotation.toJson (a : Annotation) : Json :=
  .object [("name", .string a.name), ("arguments", textsToJson a.arguments)]

def Annotation.ofJson? (j : Json) : Option Annotation := do
  match ← j.fields? ["name", "arguments"] with
  | [name, arguments] =>
    return ⟨← name.required text?, ← arguments.withDefault [] (list? text?)⟩
  | _ => none

def TypeRef.toJson (t : TypeRef) : Json :=
  .object [("name", .string t.name), ("supertypes", textsToJson t.supertypes)]

def TypeRef.ofJson? (j : Json) : Option TypeRef := do
  match ← j.fields? ["name", "supertypes"] with
  | [name, supertypes] =>
    return ⟨← name.required text?, ← supertypes.withDefault [] (list? text?)⟩
  | _ => none

/-- An absent value is written as `null`. -/
def orNull {α : Type} (encode : α → Json) : Option α → Json
  | some a => encode a
  | none => .null

def Param.toJson (p : Param) : Json :=
  .object [("name", .string p.name), ("ty", orNull TypeRef.toJson p.type),
    ("location", p.location.toJson)]

def Param.ofJson? (j : Json) : Option Param := do
  match ← j.fields? ["name", "ty", "location"] with
  | [name, type, location] =>
    return ⟨← name.required text?, ← type.optional TypeRef.ofJson?,
      ← location.withDefault {} Location.ofJson?⟩
  | _ => none

def FunctionId.toJson (f : FunctionId) : Json :=
  .object [("name", .string f.name), ("signature", textsToJson f.signature)]

def Target.toJson : Target → Json
  | .resolved f =>
    .object [("kind", .string "resolved"), ("name", .string f.name),
      ("signature", textsToJson f.signature)]
  | .unknown => .object [("kind", .string "unknown")]

inductive Target.Tag where
  | resolved | unknown

def Target.variants : List (Variant Target.Tag) :=
  [⟨.resolved, "resolved", ["name", "signature"]⟩, ⟨.unknown, "unknown", []⟩]

def Target.ofJson? (j : Json) : Option Target := do
  match ← Variant.read? Target.variants j with
  | (.resolved, [name, signature]) =>
    return .resolved ⟨← name.required text?, ← signature.withDefault [] (list? text?)⟩
  | (.unknown, []) => return .unknown
  | _ => none

/-- A function whose body is written already. -/
def FunctionHeader.toJson (f : FunctionHeader) (body : List Json) : Json :=
  .object [("name", .string f.name),
    ("annotations", .array (f.annotations.map Annotation.toJson)),
    ("params", .array (f.params.map Param.toJson)),
    ("body", .array body), ("location", f.location.toJson)]

inductive Expr.Tag where
  | ident | literal | call | member | template | lambda | binary | branch | other

def Expr.variants : List (Variant Expr.Tag) :=
  [⟨.ident, "ident", ["name", "location"]⟩,
   ⟨.literal, "literal", ["value"]⟩,
   ⟨.call, "call", ["callee", "target", "receiver", "args", "location"]⟩,
   ⟨.member, "member", ["receiver", "name", "location"]⟩,
   ⟨.template, "template", ["parts"]⟩,
   ⟨.lambda, "lambda", ["ui_building", "params", "body"]⟩,
   ⟨.binary, "binary", ["op", "lhs", "rhs"]⟩,
   ⟨.branch, "if", ["condition", "then_branch", "else_branch"]⟩,
   ⟨.other, "other", ["children"]⟩]

inductive Stmt.Tag where
  | val | expr | nested | ret

def Stmt.variants : List (Variant Stmt.Tag) :=
  [⟨.val, "local", ["name", "delegated", "initializer", "location"]⟩,
   ⟨.expr, "expr", ["expr"]⟩,
   ⟨.nested, "local_function", ["function"]⟩,
   ⟨.ret, "return", ["value"]⟩]

mutual
def Expr.toJson : Expr → Json
  | .ident name location =>
    .object [("kind", .string "ident"), ("name", .string name), ("location", location.toJson)]
  | .literal value => .object [("kind", .string "literal"), ("value", .string value)]
  | .call callee target receiver args location =>
    .object [("kind", .string "call"), ("callee", .string callee), ("target", target.toJson),
      ("receiver", exprToJson? receiver), ("args", .array (argsToJson args)),
      ("location", location.toJson)]
  | .member receiver name location =>
    .object [("kind", .string "member"), ("receiver", receiver.toJson), ("name", .string name),
      ("location", location.toJson)]
  | .template parts =>
    .object [("kind", .string "template"), ("parts", .array (exprsToJson parts))]
  | .lambda uiBuilding params body =>
    .object [("kind", .string "lambda"), ("ui_building", .bool uiBuilding),
      ("params", textsToJson params), ("body", .array (blockToJson body))]
  | .binary op lhs rhs =>
    .object [("kind", .string "binary"), ("op", .string op), ("lhs", lhs.toJson),
      ("rhs", rhs.toJson)]
  | .branch condition thenBranch elseBranch =>
    .object [("kind", .string "if"), ("condition", condition.toJson),
      ("then_branch", .array (blockToJson thenBranch)),
      ("else_branch", .array (blockToJson elseBranch))]
  | .other children =>
    .object [("kind", .string "other"), ("children", .array (exprsToJson children))]
def exprToJson? : Option Expr → Json
  | none => .null
  | some e => e.toJson
def argsToJson : List (Argument Expr) → List Json
  | [] => []
  | ⟨name, trailing, value⟩ :: rest =>
    .object [("name", orNull .string name), ("trailing_lambda", .bool trailing),
      ("value", value.toJson)] :: argsToJson rest
def exprsToJson : List Expr → List Json
  | [] => []
  | e :: rest => e.toJson :: exprsToJson rest
def Stmt.toJson : Stmt → Json
  | .val name delegated initializer location =>
    .object [("kind", .string "local"), ("name", .string name), ("delegated", .bool delegated),
      ("initializer", exprToJson? initializer), ("location", location.toJson)]
  | .expr e => .object [("kind", .string "expr"), ("expr", e.toJson)]
  | .nested header body =>
    .object [("kind", .string "local_function"), ("function", header.toJson (blockToJson body))]
  | .ret value => .object [("kind", .string "return"), ("value", exprToJson? value)]
def blockToJson : List Stmt → List Json
  | [] => []
  | s :: rest => s.toJson :: blockToJson rest
end

def FunctionDecl.toJson (f : FunctionDecl) : Json :=
  f.toFunctionHeader.toJson (blockToJson f.body)

def SourceFile.toJson (f : SourceFile) : Json :=
  .object [("path", .string f.path), ("functions", .array (f.functions.map FunctionDecl.toJson))]

mutual
/-- An expression in a value nested at most `depth` deep. -/
def Expr.ofJson? : Nat → Json → Option Expr
  | 0, _ => none
  | depth + 1, j => do
    match ← Variant.read? Expr.variants j with
    | (.ident, [name, location]) =>
      return .ident (← name.required text?) (← location.withDefault {} Location.ofJson?)
    | (.literal, [value]) => return .literal (← value.withDefault "" text?)
    | (.call, [callee, target, receiver, args, location]) =>
      return .call (← callee.required text?) (← target.withDefault .unknown Target.ofJson?)
        (← receiver.optional (Expr.ofJson? depth))
        (← args.withDefault [] (list? (Argument.ofJson? depth)))
        (← location.withDefault {} Location.ofJson?)
    | (.member, [receiver, name, location]) =>
      return .member (← receiver.required (Expr.ofJson? depth)) (← name.required text?)
        (← location.withDefault {} Location.ofJson?)
    | (.template, [parts]) =>
      return .template (← parts.withDefault [] (list? (Expr.ofJson? depth)))
    | (.lambda, [uiBuilding, params, body]) =>
      return .lambda (← uiBuilding.withDefault false bool?)
        (← params.withDefault [] (list? text?))
        (← body.withDefault [] (list? (Stmt.ofJson? depth)))
    | (.binary, [op, lhs, rhs]) =>
      return .binary (← op.required text?) (← lhs.required (Expr.ofJson? depth))
        (← rhs.required (Expr.ofJson? depth))
    | (.branch, [condition, thenBranch, elseBranch]) =>
      return .branch (← condition.required (Expr.ofJson? depth))
        (← thenBranch.withDefault [] (list? (Stmt.ofJson? depth)))
        (← elseBranch.withDefault [] (list? (Stmt.ofJson? depth)))
    | (.other, [children]) =>
      return .other (← children.withDefault [] (list? (Expr.ofJson? depth)))
    | _ => none
def Argument.ofJson? : Nat → Json → Option (Argument Expr)
  | 0, _ => none
  | depth + 1, j => do
    match ← j.fields? ["name", "trailing_lambda", "value"] with
    | [name, trailing, value] =>
      return ⟨← name.optional text?, ← trailing.withDefault false bool?,
        ← value.required (Expr.ofJson? depth)⟩
    | _ => none
def Stmt.ofJson? : Nat → Json → Option Stmt
  | 0, _ => none
  | depth + 1, j => do
    match ← Variant.read? Stmt.variants j with
    | (.val, [name, delegated, initializer, location]) =>
      return .val (← name.required text?) (← delegated.withDefault false bool?)
        (← initializer.optional (Expr.ofJson? depth))
        (← location.withDefault {} Location.ofJson?)
    | (.expr, [e]) => return .expr (← e.required (Expr.ofJson? depth))
    | (.nested, [function]) =>
      let f ← function.required (FunctionDecl.ofJson? depth)
      return .nested f.toFunctionHeader f.body
    | (.ret, [value]) => return .ret (← value.optional (Expr.ofJson? depth))
    | _ => none
def FunctionDecl.ofJson? : Nat → Json → Option FunctionDecl
  | 0, _ => none
  | depth + 1, j => do
    match ← j.fields? ["name", "annotations", "params", "body", "location"] with
    | [name, annotations, params, body, location] =>
      let header : FunctionHeader :=
        ⟨← name.required text?, ← annotations.withDefault [] (list? Annotation.ofJson?),
          ← params.withDefault [] (list? Param.ofJson?),
          ← location.withDefault {} Location.ofJson?⟩
      return ⟨header, ← body.withDefault [] (list? (Stmt.ofJson? depth))⟩
    | _ => none
end

def SourceFile.ofJson? (depth : Nat) (j : Json) : Option SourceFile := do
  match ← j.fields? ["path", "functions"] with
  | [path, functions] =>
    return ⟨← path.required text?,
      ← functions.withDefault [] (list? (FunctionDecl.ofJson? depth))⟩
  | _ => none

/-- A program is a list of source files or a single one; the list is tried first. -/
def program? (depth : Nat) (j : Json) : Option (List SourceFile) :=
  match list? (SourceFile.ofJson? depth) j with
  | some files => some files
  | none => (SourceFile.ofJson? depth j).map ([·])

end PassThrough
