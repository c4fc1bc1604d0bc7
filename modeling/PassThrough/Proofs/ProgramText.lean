import PassThrough.Proofs.JsonRecord
import PassThrough.Source.Reader

/-! Programs read back. Main statement: a program whose locations are counts is read from every text of its JSON value, the
one that this library prints included, as the same program; and a single file as the program of that file. -/

namespace PassThrough
open Json

section Leaves

theorem Location.ofJson?_toJson {depth : Nat} {l : Location} (h : Readable depth l.toJson) :
    Location.ofJson? l.toJson = some l := by
  obtain ⟨_, rfl, hparts⟩ := h.members
  simp only [List.forall_mem_cons] at hparts
  obtain ⟨_, hline, hcolumn, _⟩ := hparts
  have hfields : l.toJson.fields? ["file", "line", "column"] = some [_, _, _] := fields?_object rfl (by decide)
  have hline : l.line < Text.countLimit := hline.plain
  have hcolumn : l.column < Text.countLimit := hcolumn.plain
  simp [Location.ofJson?, hfields, count?, hline, hcolumn]

theorem list?_textsToJson (texts : List String) : list? text? (textsToJson texts) = some texts :=
  list?_map fun _ _ => rfl

theorem Annotation.ofJson?_toJson (a : Annotation) : Annotation.ofJson? a.toJson = some a := by
  have hfields : a.toJson.fields? ["name", "arguments"] = some [_, _] := fields?_object rfl (by decide)
  simp [hfields, Annotation.ofJson?, list?_textsToJson]

theorem TypeRef.ofJson?_toJson (t : TypeRef) : TypeRef.ofJson? t.toJson = some t := by
  have hfields : t.toJson.fields? ["name", "supertypes"] = some [_, _] := fields?_object rfl (by decide)
  simp [TypeRef.ofJson?, hfields, list?_textsToJson]

theorem Param.ofJson?_toJson {depth : Nat} {p : Param} (h : Readable depth p.toJson) : Param.ofJson? p.toJson = some p := by
  obtain ⟨_, rfl, hparts⟩ := h.members
  simp only [List.forall_mem_cons] at hparts
  obtain ⟨_, _, hlocation, _⟩ := hparts
  have hfields : p.toJson.fields? ["name", "ty", "location"] = some [_, _, _] := fields?_object rfl (by decide)
  have htype : Slot.optional TypeRef.ofJson? (some (orNull TypeRef.toJson p.type)) = some p.type :=
    Slot.optional_orNull (fun _ => Json.noConfusion) fun t _ => t.ofJson?_toJson
  simp [Param.ofJson?, hfields, htype, Location.ofJson?_toJson hlocation]

theorem Target.variants_separate : Variant.Separate Target.variants := ⟨by decide, by decide⟩

theorem Target.ofJson?_toJson (t : Target) : Target.ofJson? t.toJson = some t := by
  cases t with
  | resolved f =>
    have hread : Variant.read? Target.variants (Target.resolved f).toJson = some (.resolved, [_, _]) :=
      Target.variants_separate.read?_object 0 rfl rfl
    simp [Target.ofJson?, hread, list?_textsToJson]
  | unknown =>
    have hread : Variant.read? Target.variants Target.unknown.toJson = some (.unknown, []) :=
      Target.variants_separate.read?_object 1 rfl rfl
    simp [Target.ofJson?, hread]

theorem FunctionHeader.ofJson?_toJson {depth : Nat} {header : FunctionHeader} {items : List Json} {body : List Stmt}
    (h : Readable depth (header.toJson items))
    (hbody : ∀ d, (∀ j ∈ items, Readable d j) → list? (Stmt.ofJson? d) (.array items) = some body) :
    FunctionDecl.ofJson? depth (header.toJson items) = some ⟨header, body⟩ := by
  obtain ⟨depth, rfl, hparts⟩ := h.members
  simp only [List.forall_mem_cons] at hparts
  obtain ⟨_, _, hparams, hitems, hlocation, _⟩ := hparts
  have hfields : (header.toJson items).fields? ["name", "annotations", "params", "body", "location"] = some [_, _, _, _, _] :=
    fields?_object rfl (by decide)
  have hannotations : list? Annotation.ofJson? (.array (header.annotations.map Annotation.toJson)) = some header.annotations :=
    list?_map fun a _ => a.ofJson?_toJson
  have hparams : list? Param.ofJson? (.array (header.params.map Param.toJson)) = some header.params :=
    list?_map fun p hp => Param.ofJson?_toJson (hparams.items _ (List.mem_map_of_mem hp))
  simp [FunctionDecl.ofJson?, hfields, hannotations, hparams, Location.ofJson?_toJson hlocation, hbody depth hitems.items]

end Leaves

section Trees

theorem Expr.variants_separate : Variant.Separate Expr.variants := ⟨by decide, by decide⟩

theorem Stmt.variants_separate : Variant.Separate Stmt.variants := ⟨by decide, by decide⟩

private theorem Expr.toJson_ne_null (e : Expr) : e.toJson ≠ .null := by
  cases e <;> exact Json.noConfusion

mutual
private theorem Expr.ofJson?_toJson :
    ∀ (e : Expr) (depth : Nat), Readable depth e.toJson → Expr.ofJson? depth e.toJson = some e
  | .ident name location, _ => by
    intro h
    obtain ⟨depth, rfl, hparts⟩ := h.members
    simp only [List.forall_mem_cons] at hparts
    obtain ⟨_, _, hlocation, _⟩ := hparts
    have hread : Variant.read? Expr.variants (Expr.ident name location).toJson = some (.ident, [_, _]) :=
      Expr.variants_separate.read?_object 0 rfl rfl
    simp [Expr.ofJson?, hread, Location.ofJson?_toJson hlocation]
  | .literal value, _ => by
    intro h
    obtain ⟨depth, rfl, _⟩ := h.members
    have hread : Variant.read? Expr.variants (Expr.literal value).toJson = some (.literal, [_]) :=
      Expr.variants_separate.read?_object 1 rfl rfl
    simp [Expr.ofJson?, hread]
  | .call callee target receiver args location, _ => by
    intro h
    obtain ⟨depth, rfl, hparts⟩ := h.members
    simp only [List.forall_mem_cons] at hparts
    obtain ⟨_, _, _, hreceiver, hargs, hlocation, _⟩ := hparts
    have hread : Variant.read? Expr.variants (Expr.call callee target receiver args location).toJson =
        some (.call, [_, _, _, _, _]) := Expr.variants_separate.read?_object 2 rfl rfl
    simp [Expr.ofJson?, hread, target.ofJson?_toJson, optional_exprToJson? receiver depth hreceiver,
      list?_argsToJson args depth hargs.items, Location.ofJson?_toJson hlocation]
  | .member receiver name location, _ => by
    intro h
    obtain ⟨depth, rfl, hparts⟩ := h.members
    simp only [List.forall_mem_cons] at hparts
    obtain ⟨_, hreceiver, _, hlocation, _⟩ := hparts
    have hread : Variant.read? Expr.variants (Expr.member receiver name location).toJson = some (.member, [_, _, _]) :=
      Expr.variants_separate.read?_object 3 rfl rfl
    simp [Expr.ofJson?, hread, receiver.ofJson?_toJson depth hreceiver, Location.ofJson?_toJson hlocation]
  | .template parts, _ => by
    intro h
    obtain ⟨depth, rfl, hparts⟩ := h.members
    simp only [List.forall_mem_cons] at hparts
    obtain ⟨_, hparts, _⟩ := hparts
    have hread : Variant.read? Expr.variants (Expr.template parts).toJson = some (.template, [_]) :=
      Expr.variants_separate.read?_object 4 rfl rfl
    simp [Expr.ofJson?, hread, list?_exprsToJson parts depth hparts.items]
  | .lambda uiBuilding params body, _ => by
    intro h
    obtain ⟨depth, rfl, hparts⟩ := h.members
    simp only [List.forall_mem_cons] at hparts
    obtain ⟨_, _, _, hbody, _⟩ := hparts
    have hread : Variant.read? Expr.variants (Expr.lambda uiBuilding params body).toJson = some (.lambda, [_, _, _]) :=
      Expr.variants_separate.read?_object 5 rfl rfl
    simp [Expr.ofJson?, hread, list?_textsToJson, list?_blockToJson body depth hbody.items]
  | .binary op lhs rhs, _ => by
    intro h
    obtain ⟨depth, rfl, hparts⟩ := h.members
    simp only [List.forall_mem_cons] at hparts
    obtain ⟨_, _, hlhs, hrhs, _⟩ := hparts
    have hread : Variant.read? Expr.variants (Expr.binary op lhs rhs).toJson = some (.binary, [_, _, _]) :=
      Expr.variants_separate.read?_object 6 rfl rfl
    simp [Expr.ofJson?, hread, lhs.ofJson?_toJson depth hlhs, rhs.ofJson?_toJson depth hrhs]
  | .branch condition thenBranch elseBranch, _ => by
    intro h
    obtain ⟨depth, rfl, hparts⟩ := h.members
    simp only [List.forall_mem_cons] at hparts
    obtain ⟨_, hcondition, hthen, helse, _⟩ := hparts
    have hread : Variant.read? Expr.variants (Expr.branch condition thenBranch elseBranch).toJson = some (.branch, [_, _, _]) :=
      Expr.variants_separate.read?_object 7 rfl rfl
    simp [Expr.ofJson?, hread, condition.ofJson?_toJson depth hcondition, list?_blockToJson thenBranch depth hthen.items,
      list?_blockToJson elseBranch depth helse.items]
  | .other children, _ => by
    intro h
    obtain ⟨depth, rfl, hparts⟩ := h.members
    simp only [List.forall_mem_cons] at hparts
    obtain ⟨_, hchildren, _⟩ := hparts
    have hread : Variant.read? Expr.variants (Expr.other children).toJson = some (.other, [_]) :=
      Expr.variants_separate.read?_object 8 rfl rfl
    simp [Expr.ofJson?, hread, list?_exprsToJson children depth hchildren.items]
private theorem optional_exprToJson? : ∀ (e : Option Expr) (depth : Nat), Readable depth (exprToJson? e) →
    Slot.optional (Expr.ofJson? depth) (some (exprToJson? e)) = some e
  | none, _ => fun _ => rfl
  | some e, depth => fun h => Slot.optional_some e.toJson_ne_null (e.ofJson?_toJson depth h)
private theorem list?_argsToJson : ∀ (args : List (Argument Expr)) (depth : Nat), (∀ j ∈ argsToJson args, Readable depth j) →
    list? (Argument.ofJson? depth) (.array (argsToJson args)) = some args
  | [], _ => fun _ => rfl
  | ⟨name, trailing, value⟩ :: rest, depth => by
    intro h
    rw [argsToJson, List.forall_mem_cons] at h
    refine list?_cons ?_ (list?_argsToJson rest depth h.2)
    obtain ⟨depth, rfl, hparts⟩ := h.1.members
    simp only [List.forall_mem_cons] at hparts
    obtain ⟨_, _, hvalue, _⟩ := hparts
    have hname : Slot.optional text? (some (orNull .string name)) = some name :=
      Slot.optional_orNull (fun _ => Json.noConfusion) fun _ _ => rfl
    have hfields : (object [("name", orNull .string name), ("trailing_lambda", .bool trailing),
        ("value", value.toJson)]).fields? ["name", "trailing_lambda", "value"] = some [_, _, _] :=
      fields?_object rfl (by decide)
    simp [Argument.ofJson?, hfields, hname, value.ofJson?_toJson depth hvalue]
private theorem list?_exprsToJson : ∀ (parts : List Expr) (depth : Nat), (∀ j ∈ exprsToJson parts, Readable depth j) →
    list? (Expr.ofJson? depth) (.array (exprsToJson parts)) = some parts
  | [], _ => fun _ => rfl
  | e :: rest, depth => by
    intro h
    rw [exprsToJson, List.forall_mem_cons] at h
    exact list?_cons (e.ofJson?_toJson depth h.1) (list?_exprsToJson rest depth h.2)
private theorem Stmt.ofJson?_toJson :
    ∀ (s : Stmt) (depth : Nat), Readable depth s.toJson → Stmt.ofJson? depth s.toJson = some s
  | .val name delegated initializer location, _ => by
    intro h
    obtain ⟨depth, rfl, hparts⟩ := h.members
    simp only [List.forall_mem_cons] at hparts
    obtain ⟨_, _, _, hinitializer, hlocation, _⟩ := hparts
    have hread : Variant.read? Stmt.variants (Stmt.val name delegated initializer location).toJson = some (.val, [_, _, _, _]) :=
      Stmt.variants_separate.read?_object 0 rfl rfl
    simp [Stmt.ofJson?, hread, optional_exprToJson? initializer depth hinitializer, Location.ofJson?_toJson hlocation]
  | .expr e, _ => by
    intro h
    obtain ⟨depth, rfl, hparts⟩ := h.members
    simp only [List.forall_mem_cons] at hparts
    obtain ⟨_, he, _⟩ := hparts
    have hread : Variant.read? Stmt.variants (Stmt.expr e).toJson = some (.expr, [_]) :=
      Stmt.variants_separate.read?_object 1 rfl rfl
    simp [Stmt.ofJson?, hread, e.ofJson?_toJson depth he]
  | .nested header body, _ => by
    intro h
    obtain ⟨depth, rfl, hparts⟩ := h.members
    simp only [List.forall_mem_cons] at hparts
    obtain ⟨_, hfunction, _⟩ := hparts
    have hread : Variant.read? Stmt.variants (Stmt.nested header body).toJson = some (.nested, [_]) :=
      Stmt.variants_separate.read?_object 2 rfl rfl
    simp [Stmt.ofJson?, hread, FunctionHeader.ofJson?_toJson hfunction (list?_blockToJson body)]
  | .ret value, _ => by
    intro h
    obtain ⟨depth, rfl, hparts⟩ := h.members
    simp only [List.forall_mem_cons] at hparts
    obtain ⟨_, hvalue, _⟩ := hparts
    have hread : Variant.read? Stmt.variants (Stmt.ret value).toJson = some (.ret, [_]) :=
      Stmt.variants_separate.read?_object 3 rfl rfl
    simp [Stmt.ofJson?, hread, optional_exprToJson? value depth hvalue]
private theorem list?_blockToJson : ∀ (body : List Stmt) (depth : Nat), (∀ j ∈ blockToJson body, Readable depth j) →
    list? (Stmt.ofJson? depth) (.array (blockToJson body)) = some body
  | [], _ => fun _ => rfl
  | s :: rest, depth => by
    intro h
    rw [blockToJson, List.forall_mem_cons] at h
    exact list?_cons (s.ofJson?_toJson depth h.1) (list?_blockToJson rest depth h.2)
end

theorem SourceFile.ofJson?_toJson {depth : Nat} {f : SourceFile} (h : Readable depth f.toJson) :
    SourceFile.ofJson? depth f.toJson = some f := by
  obtain ⟨depth, rfl, hparts⟩ := h.members
  simp only [List.forall_mem_cons] at hparts
  obtain ⟨_, hfunctions, _⟩ := hparts
  have hfields : f.toJson.fields? ["path", "functions"] = some [_, _] := fields?_object rfl (by decide)
  have hread : list? (FunctionDecl.ofJson? (depth + 1)) (.array (f.functions.map FunctionDecl.toJson)) = some f.functions := by
    refine list?_map fun d hd => FunctionHeader.ofJson?_toJson ?_ (list?_blockToJson d.body)
    exact (hfunctions.items _ (List.mem_map_of_mem hd)).mono (Nat.le_succ depth)
  simp [SourceFile.ofJson?, hfields, hread]

end Trees

section Locations

/-- Line and column are counts. -/
def Location.Counted (l : Location) : Prop := l.line < Text.countLimit ∧ l.column < Text.countLimit

instance (l : Location) : Decidable l.Counted := inferInstanceAs (Decidable (_ ∧ _))

def FunctionHeader.locations (f : FunctionHeader) : List Location := f.params.map Param.location ++ [f.location]

mutual
/-- Every location that stands in the expression. -/
def Expr.locations : Expr → List Location
  | .ident _ l => [l]
  | .literal _ => []
  | .call _ _ receiver args l => locationsOfExpr? receiver ++ locationsOfArgs args ++ [l]
  | .member receiver _ l => receiver.locations ++ [l]
  | .template parts => locationsOfExprs parts
  | .lambda _ _ body => locationsOfBlock body
  | .binary _ lhs rhs => lhs.locations ++ rhs.locations
  | .branch condition thenBranch elseBranch =>
    condition.locations ++ locationsOfBlock thenBranch ++ locationsOfBlock elseBranch
  | .other children => locationsOfExprs children
def locationsOfExpr? : Option Expr → List Location
  | none => []
  | some e => e.locations
def locationsOfArgs : List (Argument Expr) → List Location
  | [] => []
  | ⟨_, _, value⟩ :: rest => value.locations ++ locationsOfArgs rest
def locationsOfExprs : List Expr → List Location
  | [] => []
  | e :: rest => e.locations ++ locationsOfExprs rest
def Stmt.locations : Stmt → List Location
  | .val _ _ initializer l => locationsOfExpr? initializer ++ [l]
  | .expr e => e.locations
  | .nested header body => header.locations ++ locationsOfBlock body
  | .ret value => locationsOfExpr? value
def locationsOfBlock : List Stmt → List Location
  | [] => []
  | s :: rest => s.locations ++ locationsOfBlock rest
end

def SourceFile.locations (f : SourceFile) : List Location :=
  f.functions.flatMap fun d => d.toFunctionHeader.locations ++ locationsOfBlock d.body

theorem isPlain_textsToJson (texts : List String) : (textsToJson texts).IsPlain := by
  simp [textsToJson, IsPlain, itemsPlain_iff]

theorem Location.isPlain_toJson (l : Location) : l.toJson.IsPlain ↔ l.Counted := by
  simp [Location.toJson, IsPlain, MembersPlain, Location.Counted]

theorem Target.isPlain_toJson (t : Target) : t.toJson.IsPlain := by
  cases t <;> simp [Target.toJson, IsPlain, MembersPlain, isPlain_textsToJson]

theorem Annotation.isPlain_toJson (a : Annotation) : a.toJson.IsPlain := by
  simp [IsPlain, MembersPlain, Annotation.toJson, isPlain_textsToJson]

theorem Param.isPlain_toJson (p : Param) : p.toJson.IsPlain ↔ p.location.Counted := by
  have htype : (orNull TypeRef.toJson p.type).IsPlain := by
    cases p.type <;> simp [orNull, TypeRef.toJson, IsPlain, MembersPlain, isPlain_textsToJson]
  simp [Param.toJson, IsPlain, MembersPlain, htype, Location.isPlain_toJson]

theorem FunctionHeader.isPlain_toJson (f : FunctionHeader) (items : List Json) :
    (f.toJson items).IsPlain ↔ (∀ l ∈ f.locations, l.Counted) ∧ ItemsPlain items := by
  have hannotations : ItemsPlain (f.annotations.map Annotation.toJson) := by
    simp [itemsPlain_iff, Annotation.isPlain_toJson]
  have hparams : ItemsPlain (f.params.map Param.toJson) ↔ ∀ l ∈ f.params.map Param.location, l.Counted := by
    simp [itemsPlain_iff, Param.isPlain_toJson]
  simp only [FunctionHeader.toJson, IsPlain, MembersPlain, hannotations, hparams, Location.isPlain_toJson,
    FunctionHeader.locations, List.forall_mem_append, List.forall_mem_singleton]
  tauto

mutual
private theorem Expr.isPlain_toJson : ∀ e : Expr, e.toJson.IsPlain ↔ ∀ l ∈ e.locations, l.Counted
  | .ident _ l => by
    simp [Expr.toJson, Expr.locations, IsPlain, MembersPlain, l.isPlain_toJson]
  | .literal _ => by
    simp [Expr.toJson, Expr.locations, IsPlain, MembersPlain]
  | .call _ target receiver args l => by
    simp only [Expr.toJson, Expr.locations, IsPlain, MembersPlain, target.isPlain_toJson, isPlain_exprToJson? receiver,
      itemsPlain_argsToJson args, l.isPlain_toJson, List.forall_mem_append, List.forall_mem_singleton, true_and, and_true,
      and_assoc]
  | .member receiver _ l => by
    simp only [Expr.toJson, Expr.locations, IsPlain, MembersPlain, receiver.isPlain_toJson, l.isPlain_toJson,
      List.forall_mem_append, List.forall_mem_singleton, true_and, and_true]
  | .template parts => by
    simp only [Expr.toJson, Expr.locations, IsPlain, MembersPlain, itemsPlain_exprsToJson parts, true_and, and_true]
  | .lambda _ params body => by
    simp only [Expr.toJson, Expr.locations, IsPlain, MembersPlain, isPlain_textsToJson params, itemsPlain_blockToJson body,
      true_and, and_true]
  | .binary _ lhs rhs => by
    simp only [Expr.toJson, Expr.locations, IsPlain, MembersPlain, lhs.isPlain_toJson, rhs.isPlain_toJson,
      List.forall_mem_append, true_and, and_true]
  | .branch condition thenBranch elseBranch => by
    simp only [Expr.toJson, Expr.locations, IsPlain, MembersPlain, condition.isPlain_toJson, itemsPlain_blockToJson thenBranch,
      itemsPlain_blockToJson elseBranch, List.forall_mem_append, true_and, and_true, and_assoc]
  | .other children => by
    simp only [Expr.toJson, Expr.locations, IsPlain, MembersPlain, itemsPlain_exprsToJson children, true_and, and_true]
private theorem isPlain_exprToJson? : ∀ e : Option Expr, (exprToJson? e).IsPlain ↔ ∀ l ∈ locationsOfExpr? e, l.Counted
  | none => by simp [exprToJson?, locationsOfExpr?, IsPlain]
  | some e => e.isPlain_toJson
private theorem itemsPlain_argsToJson :
    ∀ args : List (Argument Expr), ItemsPlain (argsToJson args) ↔ ∀ l ∈ locationsOfArgs args, l.Counted
  | [] => by simp [argsToJson, locationsOfArgs, ItemsPlain]
  | ⟨name, _, value⟩ :: rest => by
    have hname : (orNull Json.string name).IsPlain := by
      cases name <;> exact trivial
    simp only [argsToJson, locationsOfArgs, ItemsPlain, IsPlain, MembersPlain, hname, value.isPlain_toJson,
      itemsPlain_argsToJson rest, List.forall_mem_append, true_and, and_true]
private theorem itemsPlain_exprsToJson :
    ∀ parts : List Expr, ItemsPlain (exprsToJson parts) ↔ ∀ l ∈ locationsOfExprs parts, l.Counted
  | [] => by simp [exprsToJson, locationsOfExprs, ItemsPlain]
  | e :: rest => by
    simp only [exprsToJson, locationsOfExprs, ItemsPlain, e.isPlain_toJson, itemsPlain_exprsToJson rest,
      List.forall_mem_append]
private theorem Stmt.isPlain_toJson : ∀ s : Stmt, s.toJson.IsPlain ↔ ∀ l ∈ s.locations, l.Counted
  | .val _ _ initializer l => by
    simp only [Stmt.toJson, Stmt.locations, IsPlain, MembersPlain, isPlain_exprToJson? initializer, l.isPlain_toJson,
      List.forall_mem_append, List.forall_mem_singleton, true_and, and_true]
  | .expr e => by
    simp only [Stmt.toJson, Stmt.locations, IsPlain, MembersPlain, e.isPlain_toJson, true_and, and_true]
  | .nested header body => by
    simp only [Stmt.toJson, Stmt.locations, IsPlain, MembersPlain, header.isPlain_toJson, itemsPlain_blockToJson body,
      List.forall_mem_append, true_and, and_true]
  | .ret value => by
    simp only [Stmt.toJson, Stmt.locations, IsPlain, MembersPlain, isPlain_exprToJson? value, true_and, and_true]
private theorem itemsPlain_blockToJson :
    ∀ body : List Stmt, ItemsPlain (blockToJson body) ↔ ∀ l ∈ locationsOfBlock body, l.Counted
  | [] => by simp [blockToJson, locationsOfBlock, ItemsPlain]
  | s :: rest => by
    simp only [blockToJson, locationsOfBlock, ItemsPlain, s.isPlain_toJson, itemsPlain_blockToJson rest,
      List.forall_mem_append]
end

theorem SourceFile.isPlain_toJson (f : SourceFile) : f.toJson.IsPlain ↔ ∀ l ∈ f.locations, l.Counted := by
  simp only [SourceFile.toJson, IsPlain, MembersPlain, itemsPlain_iff, List.forall_mem_map, FunctionDecl.toJson,
    FunctionHeader.isPlain_toJson, itemsPlain_iff.symm.trans (itemsPlain_blockToJson _), SourceFile.locations,
    List.forall_mem_flatMap, List.forall_mem_append, true_and, and_true]

end Locations

/-- A program as one JSON value. -/
def programJson (files : List SourceFile) : Json := .array (files.map SourceFile.toJson)

private theorem program?_programJson {depth : Nat} {files : List SourceFile} (h : Readable depth (programJson files)) :
    program? depth (programJson files) = some files := by
  have hfiles : list? (SourceFile.ofJson? depth) (programJson files) = some files :=
    list?_map fun f hf => SourceFile.ofJson?_toJson (h.items _ (List.mem_map_of_mem hf))
  rw [program?, hfiles]

private theorem program?_toJson {depth : Nat} {f : SourceFile} (h : Readable depth f.toJson) :
    program? depth f.toJson = some [f] := by
  have hlist : list? (SourceFile.ofJson? depth) f.toJson = none := rfl
  rw [program?, hlist, SourceFile.ofJson?_toJson h]
  rfl

theorem parseProgram_of_parse? {path text : String} {j : Json} {files : List SourceFile}
    (htext : parse? maxDepth text = some j) (hfiles : program? maxDepth j = some files) :
    parseProgram path text = .ok files := by
  obtain ⟨rest, hfirst, hend⟩ := exists_first?_of_parse? htext
  simp [parseProgram, readProgram, hfirst, hfiles, hend]

/-- A program whose lines and columns are counts is what the reader gives back for its JSON value, in whatever text the value
stands. The value of a single file is read as the program of that file. -/
theorem parseProgram_written (path : String) :
    (∀ files : List SourceFile, (∀ f ∈ files, ∀ l ∈ f.locations, l.Counted) → (programJson files).depth ≤ maxDepth →
      parseProgram path (programJson files).render = .ok files ∧
      ∀ text, parse? maxDepth text = some (programJson files) → parseProgram path text = .ok files) ∧
    ∀ f : SourceFile, (∀ l ∈ f.locations, l.Counted) → f.toJson.depth ≤ maxDepth →
      parseProgram path f.toJson.render = .ok [f] ∧
      ∀ text, parse? maxDepth text = some f.toJson → parseProgram path text = .ok [f] := by
  constructor
  · intro files hcounted hdepth
    have hplain : (programJson files).IsPlain :=
      itemsPlain_iff.2 (List.forall_mem_map.2 fun f hf => f.isPlain_toJson.2 (hcounted f hf))
    have hread : Readable maxDepth (programJson files) := ⟨hplain, hdepth⟩
    have hfiles := program?_programJson hread
    exact ⟨parseProgram_of_parse? hread.parse?_render hfiles, fun _ htext => parseProgram_of_parse? htext hfiles⟩
  · intro f hcounted hdepth
    have hread : Readable maxDepth f.toJson := ⟨f.isPlain_toJson.2 hcounted, hdepth⟩
    have hfile := program?_toJson hread
    exact ⟨parseProgram_of_parse? hread.parse?_render hfile, fun _ htext => parseProgram_of_parse? htext hfile⟩

/-- A file with every kind of statement and expression, the last line that a count can name, and texts that need escapes. -/
def Sample.everyKind : SourceFile :=
  let here : Location := ⟨"", 18446744073709551615, 7⟩
  let header : FunctionHeader :=
    ⟨"Screen", [⟨"@Composable", ["\t"]⟩], [⟨"state", some ⟨"State", ["Any"]⟩, here⟩, ⟨"x", none, {}⟩], here⟩
  let label : Expr := .call "Label" (.resolved ⟨"Label", ["?"]⟩) (some (.ident "scope" here))
    [⟨some "text", false, .template [.literal "a \"b\"\n", .member (.ident "state" {}) "value" here]⟩,
     ⟨none, true, .lambda true ["it"] [.ret none]⟩] here
  ⟨"ui\\Screen.kt", [⟨header,
    [.val "shown" true (some (.binary "+" (.literal "1") (.other []))) here,
     .nested header [.ret (some (.call "now" .unknown none [] {}))],
     .expr (.branch (.ident "shown" here) [.expr label] [])]⟩]⟩

theorem parseProgram_written_everyKind :
    (∀ l ∈ Sample.everyKind.locations, l.Counted) ∧ (programJson [Sample.everyKind, Sample.everyKind]).depth ≤ maxDepth ∧
      parseProgram "model.json" (programJson [Sample.everyKind, Sample.everyKind]).render =
        .ok [Sample.everyKind, Sample.everyKind] ∧
      parseProgram "model.json" Sample.everyKind.toJson.render = .ok [Sample.everyKind] := by
  have hcounted : ∀ l ∈ Sample.everyKind.locations, l.Counted := by decide
  have hdepth : (programJson [Sample.everyKind, Sample.everyKind]).depth ≤ maxDepth := by decide +kernel
  have hsingle : Sample.everyKind.toJson.depth ≤ maxDepth := by decide +kernel
  refine ⟨hcounted, hdepth, ?_, ((parseProgram_written "model.json").2 _ hcounted hsingle).1⟩
  exact ((parseProgram_written "model.json").1 _ (by simpa using hcounted) hdepth).1

end PassThrough
