import EnumNames.Proofs.Reading
import EnumNames.Proofs.Sequencing
import EnumNames.Source.Parse

/-!
Reading syntax trees without places. The declarations that are read off a tree,
once their places are forgotten, depend on its forest alone and not on where it
starts. The functions on forests below say what they are.
-/

namespace EnumNames.Grammar

/-! ## Nodes of a forest -/

namespace Forest

def nodes : Forest → List (Rule × Forest)
  | .nil => []
  | .leaf _ rest => rest.nodes
  | .node rule inside rest => (rule, inside) :: rest.nodes

def every (f : Forest) (r : Rule) : List Forest :=
  (f.nodes.filter fun p => p.1 == r).map (·.2)

def first? (f : Forest) (r : Rule) : Option Forest :=
  (f.nodes.find? fun p => p.1 == r).map (·.2)

def reach? (f : Forest) : List Rule → Option Forest
  | [] => some f
  | r :: rs => (f.first? r).bind (·.reach? rs)

@[simp] theorem nodes_nil : nodes .nil = [] := rfl

@[simp] theorem nodes_leaf (text : List Char) (rest : Forest) :
    (Forest.leaf text rest).nodes = rest.nodes := rfl

@[simp] theorem nodes_node (rule : Rule) (inside rest : Forest) :
    (Forest.node rule inside rest).nodes = (rule, inside) :: rest.nodes := rfl

@[simp] theorem nodes_append (f g : Forest) : (f.append g).nodes = f.nodes ++ g.nodes := by
  induction f with
  | nil => rfl
  | leaf _ _ ih | node _ _ _ _ ih => simp [append, nodes, ih]

theorem nodes_branches (f : Forest) (start : Nat) :
    (f.branches start).map (fun b => (b.rule, b.inside)) = f.nodes := by
  induction f generalizing start with
  | nil => rfl
  | leaf _ _ ih => exact ih _
  | node _ _ _ _ ih => simp [branches, nodes, ih]

end Forest

namespace Branch

theorem inside_every (b : Branch) (r : Rule) :
    (b.every r).map (·.inside) = b.inside.every r := by
  rw [every, children, Forest.every, ← Forest.nodes_branches b.inside b.start, List.filter_map,
    List.map_map]
  rfl

theorem inside_first? (b : Branch) (r : Rule) :
    (b.first? r).map (·.inside) = b.inside.first? r := by
  rw [first?, children, Forest.first?, ← Forest.nodes_branches b.inside b.start, List.find?_map,
    Option.map_map]
  rfl

theorem inside_reach? (b : Branch) (rs : List Rule) :
    (b.reach? rs).map (·.inside) = b.inside.reach? rs := by
  induction rs generalizing b with
  | nil => rfl
  | cons r rs ih =>
      have h := inside_first? b r
      cases hb : b.first? r with
      | none => simp [reach?, Forest.reach?, ← h, hb]
      | some d => simp [reach?, Forest.reach?, ← h, hb, ih]

end Branch
end EnumNames.Grammar

namespace EnumNames

open EnumNames.Grammar EnumNames.Text

/-! ## Declarations of a forest -/

namespace Grammar.Forest

def ident (f : Forest) : Ident := { name := String.ofList f.text }

def trimmed (f : Forest) : String := String.ofList (trim f.text)

def operand (f : Forest) : Except Rune.Fault Expr :=
  match f.first? .intLit, f.first? .charLit with
  | some lit, _ => .ok (.int (String.ofList lit.text) {})
  | none, some lit => (Rune.value lit.text).map fun v => .rune (String.ofList lit.text) v {}
  | none, none => .ok (.ident f.ident)

def binary (f : Forest) : Except Rune.Fault Expr :=
  match f.every .operand, f.first? .addOp with
  | [left, right], some op => do
      let x ← left.operand
      let y ← right.operand
      pure (.binary (String.ofList op.text) x y {})
  | _, _ => .ok (.verbatim f.trimmed {})

def value (f : Forest) : Except Rune.Fault Expr :=
  match f.reach? [.simpleExpr, .simpleShape, .binaryExpr],
      f.reach? [.simpleExpr, .simpleShape, .operand] with
  | some e, _ => e.binary
  | none, some e => e.operand
  | none, none => .ok (.verbatim f.trimmed {})

def typeRef (f : Forest) (toIdent : List Rule) : TypeRef :=
  match f.reach? toIdent with
  | some id => .ident id.ident
  | none => .verbatim f.trimmed {}

def typeSpec (f : Forest) : TypeSpec :=
  { name := String.ofList ((f.first? .identifier).getD f).text
    type := ((f.first? .typeExpr).getD f).typeRef [.namedType, .identifier]
    isAlias := (f.first? .aliasMark).isSome }

def constSpec (f : Forest) : Except Rune.Fault ConstSpec := do
  let values ← (((f.reach? [.constValues, .exprList]).map (·.every .expr)).getD []).mapM value
  pure
    { names := (((f.first? .identifierList).map (·.every .identifier)).getD []).map ident
      type := (f.reach? [.constType, .typeName]).map (·.typeRef [.identifier])
      values
      comment := (f.first? .lineComment).bind fun c => (Comment.text c.text).map String.ofList }

def specs (body : Option Forest) (bracketed item spec : Rule) : List Forest × Bool :=
  match body with
  | none => ([], false)
  | some body =>
      match body.first? bracketed with
      | some g => ((g.every item).filterMap (·.first? spec), true)
      | none => (body.every spec, false)

def decl (f : Forest) : Except Rune.Fault Decl :=
  match f.first? .typeDecl, f.first? .constDecl with
  | some d, _ =>
      let (specs, grouped) := specs (d.first? .typeBody) .typeGroup .groupedType .typeSpec
      .ok (.types (specs.map typeSpec) grouped {})
  | none, some d => do
      let (specs, grouped) := specs (d.first? .constBody) .constGroup .groupedConst .constSpec
      pure (.consts (← specs.mapM constSpec) grouped {})
  | none, none =>
      let keyword := ((f.reach? [.otherDecl, .otherKw]).map fun k => String.ofList k.text).getD ""
      .ok (.other keyword f.trimmed {})

def sourceFile (f : Forest) (path : String) : Except Rune.Fault SourceFile := do
  let decls ← ((f.every .topLevel).filterMap (·.first? .topDecl)).mapM decl
  let package :=
    ((f.reach? [.packageClause, .identifier]).map fun n => String.ofList n.text).getD ""
  pure { package, decls, path }

end Grammar.Forest

/-! ## The reader -/

namespace Reader

variable (r : Reader)

theorem operand_unplaced (b : Branch) : (r.operand b).map (·.unplaced) = b.inside.operand := by
  unfold operand Forest.operand
  rw [← b.inside_first? .intLit, ← b.inside_first? .charLit]
  cases b.first? .intLit with
  | some lit => rfl
  | none =>
      cases b.first? .charLit with
      | some lit =>
          cases hv : Rune.value lit.inside.text <;>
            simp [hv, Except.map, Expr.unplaced, Branch.text]
      | none => rfl

theorem binary_unplaced (b : Branch) : (r.binary b).map (·.unplaced) = b.inside.binary := by
  unfold binary Forest.binary
  rw [← b.inside_every .operand, ← b.inside_first? .addOp]
  rcases b.every .operand with _ | ⟨left, _ | ⟨right, _ | ⟨_, _⟩⟩⟩
  · rfl
  · rfl
  · cases b.first? .addOp with
    | none => rfl
    | some op =>
        simp only [List.map_cons, List.map_nil, Option.map_some, ← operand_unplaced r]
        cases r.operand left with
        | error _ => rfl
        | ok x => cases r.operand right <;> rfl
  · rfl

theorem value_unplaced (b : Branch) : (r.value b).map (·.unplaced) = b.inside.value := by
  unfold value Forest.value
  rw [← b.inside_reach? [.simpleExpr, .simpleShape, .binaryExpr],
    ← b.inside_reach? [.simpleExpr, .simpleShape, .operand]]
  cases b.reach? [.simpleExpr, .simpleShape, .binaryExpr] with
  | some e => exact binary_unplaced r e
  | none =>
      cases b.reach? [.simpleExpr, .simpleShape, .operand] with
      | some e => exact operand_unplaced r e
      | none => rfl

theorem typeRef_unplaced (b : Branch) (toIdent : List Rule) :
    (r.typeRef b toIdent).unplaced = b.inside.typeRef toIdent := by
  unfold typeRef Forest.typeRef
  rw [← b.inside_reach? toIdent]
  cases b.reach? toIdent <;> rfl

theorem typeSpec_unplaced (b : Branch) : (r.typeSpec b).unplaced = b.inside.typeSpec := by
  unfold typeSpec Forest.typeSpec TypeSpec.unplaced
  rw [← b.inside_first? .identifier, ← b.inside_first? .typeExpr, ← b.inside_first? .aliasMark]
  simp only [typeRef_unplaced]
  cases b.first? .identifier <;> cases b.first? .typeExpr <;> simp [Branch.text]

/-- Results of the parts can be taken without places before or after they are put together. -/
theorem mapM_unplaced {α β : Type} {read : Branch → Except Rune.Fault α} {forget : α → β}
    {readForest : Forest → Except Rune.Fault β}
    (h : ∀ b, (read b).map forget = readForest b.inside) (bs : List Branch) :
    (bs.mapM read).map (·.map forget) = (bs.map (·.inside)).mapM readForest := by
  induction bs with
  | nil => rfl
  | cons b bs ih =>
      rw [List.mapM_cons, List.map_cons, List.mapM_cons, ← h b, ← ih]
      cases read b with
      | error _ => rfl
      | ok a => cases bs.mapM read <;> rfl

theorem constSpec_unplaced (b : Branch) :
    (r.constSpec b).map (·.unplaced) = b.inside.constSpec := by
  unfold constSpec Forest.constSpec
  have hvalues : (((b.reach? [.constValues, .exprList]).map (·.every .expr)).getD []).map
      (·.inside) =
      ((b.inside.reach? [.constValues, .exprList]).map (·.every .expr)).getD [] := by
    rw [← b.inside_reach? [.constValues, .exprList]]
    cases b.reach? [.constValues, .exprList] with
    | none => rfl
    | some e => exact e.inside_every .expr
  have hnames : (((b.first? .identifierList).map (·.every .identifier)).getD []).map
      (fun n => (r.ident n).unplaced) =
      (((b.inside.first? .identifierList).map (·.every .identifier)).getD []).map
        Forest.ident := by
    rw [← b.inside_first? .identifierList]
    cases b.first? .identifierList with
    | none => rfl
    | some e =>
        simp only [Option.map_some, Option.getD_some, ← e.inside_every .identifier, List.map_map]
        rfl
  have htype : ((b.reach? [.constType, .typeName]).map (r.typeRef · [.identifier])).map
      (·.unplaced) =
      (b.inside.reach? [.constType, .typeName]).map (·.typeRef [.identifier]) := by
    rw [← b.inside_reach? [.constType, .typeName]]
    cases b.reach? [.constType, .typeName] with
    | none => rfl
    | some e => simp [typeRef_unplaced]
  rw [← hvalues, ← mapM_unplaced r.value_unplaced, ← hnames, ← htype,
    ← b.inside_first? .lineComment]
  cases (((b.reach? [.constValues, .exprList]).map (·.every .expr)).getD []).mapM r.value with
  | error _ => rfl
  | ok values =>
      cases b.first? .lineComment <;>
        simp [Except.map, pure, Except.pure, ConstSpec.unplaced]

theorem specs_unplaced (body : Option Branch) (bracketed item spec : Rule) :
    (specs body bracketed item spec).1.map (·.inside) =
        (Forest.specs (body.map (·.inside)) bracketed item spec).1 ∧
      (specs body bracketed item spec).2 =
        (Forest.specs (body.map (·.inside)) bracketed item spec).2 := by
  cases body with
  | none => exact ⟨rfl, rfl⟩
  | some body =>
      simp only [specs, Forest.specs, Option.map_some]
      rw [← body.inside_first? bracketed]
      cases body.first? bracketed with
      | none => exact ⟨body.inside_every spec, rfl⟩
      | some g =>
          refine ⟨?_, rfl⟩
          simp only [Option.map_some, ← g.inside_every item, List.filterMap_map,
            List.map_filterMap]
          congr 1
          funext b
          exact b.inside_first? spec

theorem decl_unplaced (b : Branch) : (r.decl b).map (·.unplaced) = b.inside.decl := by
  unfold decl Forest.decl
  rw [← b.inside_first? .typeDecl, ← b.inside_first? .constDecl,
    ← b.inside_reach? [.otherDecl, .otherKw]]
  cases b.first? .typeDecl with
  | some d =>
      obtain ⟨hspecs, hgrouped⟩ :=
        specs_unplaced (d.first? .typeBody) .typeGroup .groupedType .typeSpec
      rw [d.inside_first? .typeBody] at hspecs hgrouped
      simp only [Option.map_some, Except.map, Decl.unplaced]
      rw [← hspecs, ← hgrouped]
      simp [typeSpec_unplaced]
  | none =>
      cases b.first? .constDecl with
      | some d =>
          obtain ⟨hspecs, hgrouped⟩ :=
            specs_unplaced (d.first? .constBody) .constGroup .groupedConst .constSpec
          rw [d.inside_first? .constBody] at hspecs hgrouped
          simp only [Option.map_some, Option.map_none]
          rw [← hspecs, ← hgrouped, ← mapM_unplaced r.constSpec_unplaced]
          cases ((specs (d.first? .constBody) .constGroup .groupedConst .constSpec).1).mapM
            r.constSpec <;> rfl
      | none =>
          cases b.reach? [.otherDecl, .otherKw] <;> rfl

/-- The file that a tree is read as, without places. -/
theorem sourceFile_unplaced (b : Branch) :
    (r.sourceFile b).map (·.unplaced) = b.inside.sourceFile r.file := by
  unfold sourceFile Forest.sourceFile
  have hdecls : ((b.every .topLevel).filterMap (·.first? .topDecl)).map (·.inside) =
      (b.inside.every .topLevel).filterMap (·.first? .topDecl) := by
    simp only [← b.inside_every .topLevel, List.filterMap_map, List.map_filterMap]
    congr 1
    funext b
    exact b.inside_first? .topDecl
  rw [← hdecls, ← mapM_unplaced r.decl_unplaced, ← b.inside_reach? [.packageClause, .identifier]]
  cases ((b.every .topLevel).filterMap (·.first? .topDecl)).mapM r.decl with
  | error _ => rfl
  | ok decls => cases b.reach? [.packageClause, .identifier] <;> rfl

end Reader

/-- A text that the grammar takes as a whole is read as its forest says. -/
theorem SourceFile.parse_of_reads (path : String) {cs : List Char} {f : Forest} {file : SourceFile}
    (h : (Peg.rule .sourceFile).Reads [] cs [] (.node .sourceFile f .nil))
    (hf : f.sourceFile path = .ok file) :
    ∃ parsed, SourceFile.parse path (String.ofList cs) = .ok parsed ∧ parsed.unplaced = file := by
  have hrun := h 0
  rw [List.append_nil] at hrun
  have hmatch : Rule.sourceFile.matchRest cs 0 = .ok ⟨.sourceFile, 0, f⟩ := by
    simp only [Peg.run] at hrun
    simp [Rule.matchRest, Rule.matchSome, Cursor.ofText, hrun, Forest.branches, Cursor.atEnd]
  have hread := (Reader.ofText path cs).sourceFile_unplaced ⟨.sourceFile, 0, f⟩
  rw [show (Reader.ofText path cs).file = path from rfl, hf] at hread
  obtain ⟨parsed, hparsed, hfile⟩ := ok_of_map hread
  refine ⟨parsed, ?_, hfile⟩
  delta SourceFile.parse
  simp [hmatch, hparsed, Except.mapError]

end EnumNames
