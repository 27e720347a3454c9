import EnumNames.Enumeration.Underlying
import EnumNames.Proofs.RefusedSpecs

/-!
What the analysis needs of source files. Some texts are kept as they were written:
those of values that are no operands, sums or differences, of types without a name
and of other declarations. An outline leaves them out. Checking the type depends
on the outline alone, and so do the constants that are found and the kind and the
place of the failure when they are not; only its message may quote such a text.
-/

namespace EnumNames

/-! ## Outlines -/

namespace Expr

def outline : Expr → Expr
  | .verbatim _ loc => .verbatim "" loc
  | .binary op left right loc => .binary op left.outline right.outline loc
  | e => e

end Expr

namespace TypeRef

def outline : TypeRef → TypeRef
  | .verbatim _ loc => .verbatim "" loc
  | t => t

end TypeRef

def TypeSpec.outline (s : TypeSpec) : TypeSpec := { s with type := s.type.outline }

/-- The type is kept: sources can only give it by a name. -/
def ConstSpec.outline (s : ConstSpec) : ConstSpec :=
  { s with values := s.values.map (·.outline) }

def Decl.outline : Decl → Decl
  | .types specs grouped loc => .types (specs.map (·.outline)) grouped loc
  | .consts specs grouped loc => .consts (specs.map (·.outline)) grouped loc
  | .other keyword _ loc => .other keyword "" loc

namespace SourceFile

def outline (f : SourceFile) : SourceFile := { f with decls := f.decls.map (·.outline) }

theorem typeSpecs_outline (f : SourceFile) :
    f.outline.typeSpecs = f.typeSpecs.map (·.outline) := by
  rw [typeSpecs, outline, List.flatMap_map, typeSpecs, List.map_flatMap]
  refine List.flatMap_congr fun d _ => ?_
  cases d with
  | types specs grouped loc | consts specs grouped loc | other keyword text loc => rfl

theorem constBlocks_outline (f : SourceFile) :
    f.outline.constBlocks = f.constBlocks.map (List.map ConstSpec.outline) := by
  rw [constBlocks, outline, List.filterMap_map, constBlocks, List.map_filterMap]
  refine List.filterMap_congr fun d _ => ?_
  cases d with
  | types specs grouped loc | consts specs grouped loc | other keyword text loc => rfl

end SourceFile

/-! ## The type -/

theorem checkTypeSpec_outline (type : String) (s : TypeSpec) :
    checkTypeSpec type s.outline = checkTypeSpec type s := by
  have hunderlying : s.outline.underlying type = s.underlying type := by
    rw [TypeSpec.underlying, TypeSpec.underlying, TypeSpec.outline]
    cases s.type with
    | ident id | verbatim text loc => rfl
  rw [checkTypeSpec, checkTypeSpec, hunderlying]
  rfl

theorem checkType_outline (type : String) (files : List SourceFile) :
    checkType type (files.map (·.outline)) = checkType type files := by
  have hspecs : (files.map (·.outline)).flatMap (·.typeSpecs) =
      (files.flatMap (·.typeSpecs)).map (·.outline) := by
    rw [List.flatMap_map, List.map_flatMap]
    simp only [SourceFile.typeSpecs_outline]
  rw [checkType, checkType, hspecs]
  induction files.flatMap (·.typeSpecs) with
  | nil => rfl
  | cons s specs ih =>
      change (checkTypeSpec type s.outline >>= fun _ => _) = (checkTypeSpec type s >>= fun _ => _)
      rw [checkTypeSpec_outline, ih]

/-! ## Constants -/

section Errors

variable {ε ε' α β : Type} {view : ε → ε'}

theorem mapError_bind (view : ε → ε') (x : Except ε α) (next : α → Except ε β) :
    (x >>= next).mapError view = x.mapError view >>= fun a => (next a).mapError view := by
  cases x with
  | error e | ok a => rfl

theorem mapError_map (view : ε → ε') (f : α → β) (x : Except ε α) :
    (x.map f).mapError view = (x.mapError view).map f := by
  cases x with
  | error e | ok a => rfl

/-- Two results that agree but for their failures are one value, or failures that look alike. -/
theorem cases_of_mapError_eq {x y : Except ε α} (h : x.mapError view = y.mapError view) :
    (∃ a, x = .ok a ∧ y = .ok a) ∨ ∃ e e', x = .error e ∧ y = .error e' ∧ view e = view e' := by
  cases x with
  | ok a =>
      cases y with
      | ok b => exact .inl ⟨a, rfl, congrArg Except.ok (Except.ok.inj h).symm⟩
      | error e => cases h
  | error e =>
      cases y with
      | ok b => cases h
      | error e' => exact .inr ⟨e, e', rfl, rfl, Except.error.inj h⟩

end Errors

def Failure.gist (f : Failure) : Option Kind × Option Span := (f.kind?, f.span?)

/-- A run over images of items ends as the run over the items when their steps do. -/
theorem Logged.foldlM_map_mapError {σ α ε : Type} {view : Failure → ε} {f : α → α}
    {step : σ → α → Logged σ}
    (hstep : ∀ s a, (step s (f a)).result.mapError view = (step s a).result.mapError view)
    (as : List α) (s : σ) :
    ((as.map f).foldlM step s).result.mapError view = (as.foldlM step s).result.mapError view := by
  induction as generalizing s with
  | nil => rfl
  | cons a as ih =>
      rw [List.map_cons, List.foldlM_cons, List.foldlM_cons, result_bind, result_bind,
        mapError_bind, mapError_bind, hstep s a]
      simp only [ih]

namespace Resolve

theorem isIota_outline (e : Expr) : isIota e.outline = isIota e := by
  cases e with
  | int _ _ | rune _ _ _ | ident _ | binary _ _ _ _ | verbatim _ _ | stray _ _ _ => rfl

/-- All obstacles are of one kind. -/
theorem obstructed_kind {α : Type} (name : String) (o o' : Obstacle) :
    (obstructed name o : Except Cause α).mapError Cause.kind =
      (obstructed name o' : Except Cause α).mapError Cause.kind := rfl

theorem amountValue_outline (table : Table) (name : String) (whole whole' right : Expr) :
    (amountValue table name whole' right.outline).mapError Cause.kind =
      (amountValue table name whole right).mapError Cause.kind := by
  cases right with
  | int text loc | ident id => simp only [Expr.outline, amountValue]
  | rune _ _ _ | binary _ _ _ _ | verbatim _ _ | stray _ _ _ => exact obstructed_kind name _ _

theorem shift_outline (table : Table) (name op : String) (whole whole' left right : Expr) :
    (shift table name op whole' left.outline right.outline).mapError Cause.kind =
      (shift table name op whole left right).mapError Cause.kind := by
  have hsigned : ∀ delta : Int,
      (if op == "-" then pure (-delta) else if op == "+" then pure delta
        else obstructed name (.operator op whole') : Except Cause Int).mapError Cause.kind =
      (if op == "-" then pure (-delta) else if op == "+" then pure delta
        else obstructed name (.operator op whole) : Except Cause Int).mapError Cause.kind := by
    intro delta
    split
    · rfl
    · split
      · rfl
      · exact obstructed_kind name _ _
  rw [shift_eq, shift_eq, isIota_outline]
  split
  · rw [mapError_bind, mapError_bind, amountValue_outline table name whole whole']
    simp only [hsigned]
  · exact obstructed_kind name _ _

theorem exprValue_outline (table : Table) (counter : Counter) (name : String) (e : Expr) :
    (exprValue table counter name e.outline).mapError Cause.kind =
      (exprValue table counter name e).mapError Cause.kind := by
  cases e with
  | int _ _ | rune _ _ _ | ident _ | stray _ _ _ => simp only [Expr.outline]
  | verbatim text loc => exact obstructed_kind name _ _
  | binary op left right loc =>
      rw [Expr.outline, exprValue, exprValue, mapError_map, mapError_map, shift_outline]

theorem specValue_outline (table : Table) (counter : Counter) (name : String) (es : List Expr) :
    (specValue table counter name (es.map (·.outline))).mapError Cause.kind =
      (specValue table counter name es).mapError Cause.kind := by
  match es with
  | [] => rfl
  | [e] => exact exprValue_outline table counter name e
  | e :: e' :: es => exact obstructed_kind name _ _

variable (o : Options)

theorem define_outline (s : State) (spec : ConstSpec) (name : String) :
    (define o s spec.outline name).result.mapError Failure.gist =
      (define o s spec name).result.mapError Failure.gist := by
  rw [define, define]
  obtain ⟨_, hx, hy⟩ | ⟨_, _, hx, hy, hkind⟩ :=
    cases_of_mapError_eq (specValue_outline s.table s.counter name spec.values)
  · rw [ConstSpec.outline, hx, hy]
    rfl
  · rw [ConstSpec.outline, hx, hy]
    simp only [Logged.report, Except.mapError, Failure.gist, Failure.kind?, Failure.span?, hkind]
    rfl

theorem step_outline (s : State) (spec : ConstSpec) :
    (step o s spec.outline).result.mapError Failure.gist =
      (step o s spec).result.mapError Failure.gist := by
  have hbelongs : belongs o.type s.belongs spec.outline = belongs o.type s.belongs spec := rfl
  have hnames : spec.outline.names = spec.names := rfl
  rw [step, step, hbelongs, hnames]
  split
  · split
    · exact define_outline o s spec _
    · rfl
  · rfl

theorem block_outline (table : Table) (specs : List ConstSpec) :
    (block o table (specs.map (·.outline))).result.mapError Failure.gist =
      (block o table specs).result.mapError Failure.gist := by
  rw [block, block, Logged.result_bind, Logged.result_bind, mapError_bind, mapError_bind,
    Logged.foldlM_map_mapError (step_outline o)]

end Resolve

theorem resolve_outline (o : Options) (files : List SourceFile) :
    (resolve o (files.map (·.outline))).result.mapError Failure.gist =
      (resolve o files).result.mapError Failure.gist := by
  have hblocks : (files.map (·.outline)).flatMap (·.constBlocks) =
      (files.flatMap (·.constBlocks)).map (List.map ConstSpec.outline) := by
    rw [List.flatMap_map, List.map_flatMap]
    simp only [SourceFile.constBlocks_outline]
  rw [resolve, resolve, hblocks, Logged.result_bind, Logged.result_bind, mapError_bind,
    mapError_bind, Logged.foldlM_map_mapError (Resolve.block_outline o)]

end EnumNames
