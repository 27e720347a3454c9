import EnumNames.Proofs.BlockEntries

/-!
Specifications that are refused. Whether one is depends on its own form and on
which names are known, and so does the failure that it makes: neither the values
of the known constants nor the counter have a part in it.
-/

namespace EnumNames

/-! ## Kinds of failures -/

inductive Kind where
  | plain (family : Family)
  | sourceRead
  | sourceParse
  | typeNotInteger
  | insufficientConstants
  | multiName
  | unresolvedReference
  | unsupportedExpression
  | receiverCollision
  | outputWrite
  deriving DecidableEq, Repr

def Cause.kind : Cause → Kind
  | .plain family _ => .plain family
  | .sourceRead .. => .sourceRead
  | .sourceParse .. => .sourceParse
  | .typeNotInteger .. => .typeNotInteger
  | .insufficientConstants .. => .insufficientConstants
  | .multiName .. => .multiName
  | .unresolvedReference .. => .unresolvedReference
  | .unsupportedExpression .. => .unsupportedExpression
  | .receiverCollision .. => .receiverCollision
  | .outputWrite .. => .outputWrite

namespace Failure

/-- Failures that are not meant for the user have no kind. -/
def kind? : Failure → Option Kind
  | .diagnostic d => some d.cause.kind
  | .numeral _ | .rune _ | .nullInPath | .unencodable _ => none

def span? : Failure → Option Span
  | .diagnostic d => d.span
  | .numeral _ | .rune _ | .nullInPath | .unencodable _ => none

end Failure

namespace Folding

/-! ## Offences -/

def isMalformed (text : String) : Bool := !(IntLiteral.value text).isOk

/-- What may not stand to the right of `iota`, when some names are known. -/
def badAmount (known : List String) : Expr → Bool
  | .int text _ => isMalformed text
  | .ident id => !known.contains id.name
  | .rune .. | .binary .. | .verbatim .. | .stray .. => true

/-- What may not be the value of a constant, when some names are known. -/
def badValue (known : List String) : Expr → Bool
  | .int text _ => isMalformed text
  | .rune .. => false
  | .ident id => id.name != iotaName && !known.contains id.name
  | .binary op left right _ =>
      !Resolve.isIota left || badAmount known right || (op != "+" && op != "-")
  | .verbatim .. | .stray .. => true

/-- The same for what stands as values. There may be none. -/
def badValues (known : List String) : List Expr → Bool
  | [] => false
  | [e] => badValue known e
  | _ => true

/-- A specification that does not give one name a value, when some names are known. -/
def offends (known : List String) (spec : ConstSpec) : Bool :=
  spec.names.length != 1 || badValues known spec.values

/-- The kind of failure that a refused value makes: whatever else is wrong with it, a name that it
refers to and that is not known comes first. -/
def refusalKind (known : List String) (reference : Option String) : Kind :=
  if reference.any (!known.contains ·) then .unresolvedReference else .unsupportedExpression

def offenceKind (known : List String) (spec : ConstSpec) : Kind :=
  if spec.names.length != 1 then .multiName else refusalKind known (referenceOf? spec.values)

end Folding

/-! ## Values of offending and of other specifications -/

namespace Resolve

open Folding

variable {known : List String} {t : Table}

def Knows (t : Table) (known : List String) : Prop := ∀ name, t.contains name = known.contains name

theorem referenceValue_known (ht : Knows t known) (name : String) {reference : String}
    (h : known.contains reference = true) : ∃ n, referenceValue t name reference = .ok n := by
  rw [← ht, Table.contains] at h
  obtain ⟨n, hn⟩ := Option.isSome_iff_exists.1 h
  exact ⟨n, by rw [referenceValue, hn]⟩

theorem referenceValue_unknown (ht : Knows t known) {name reference : String}
    (h : known.contains reference = false) :
    referenceValue t name reference = .error (.unresolvedReference name reference) := by
  rw [← ht, Table.contains, Option.isSome_eq_false_iff, Option.isNone_iff_eq_none] at h
  rw [referenceValue, h]

theorem literalValue_of_not_malformed (name : String) {text : String}
    (h : isMalformed text = false) :
    ∃ n, literalValue name text = .ok n := by
  obtain ⟨n, hn⟩ := exists_of_isOk (by simpa [isMalformed] using h)
  exact ⟨n, by delta literalValue; rw [hn]⟩

theorem literalValue_of_malformed {name text : String} (h : isMalformed text = true) :
    literalValue name text = obstructed name (.literal text) := by
  delta literalValue
  cases hv : IntLiteral.value text with
  | ok n => simp [isMalformed, hv, Except.isOk, Except.toBool] at h
  | error fault => rfl

def amountValue (t : Table) (name : String) (whole : Expr) : Expr → Except Cause Int
  | .int text _ => literalValue name text
  | .ident id => referenceValue t name id.name
  | _ => obstructed name (.rightOperand whole)

theorem shift_eq (t : Table) (name op : String) (whole left right : Expr) :
    shift t name op whole left right =
      if isIota left then
        amountValue t name whole right >>= fun delta =>
          if op == "-" then pure (-delta) else if op == "+" then pure delta
          else obstructed name (.operator op whole)
      else obstructed name (.leftOperand whole left) := by
  rw [shift]
  cases right <;> rfl

theorem amountValue_known (ht : Knows t known) (name : String) (whole : Expr) {right : Expr}
    (h : badAmount known right = false) : ∃ n, amountValue t name whole right = .ok n := by
  cases right with
  | int text loc =>
      rw [badAmount] at h
      rw [amountValue]
      exact literalValue_of_not_malformed name h
  | ident id => exact referenceValue_known ht name (by simpa [badAmount] using h)
  | rune _ _ _ | binary _ _ _ _ | verbatim _ _ | stray _ _ _ => cases h

theorem exprValue_known (ht : Knows t known) (counter : Counter) (name : String) {e : Expr}
    (h : badValue known e = false) : ∃ r, exprValue t counter name e = .ok r := by
  cases e with
  | rune _ value _ => exact ⟨(value, counter.deactivate), rfl⟩
  | int text loc =>
      rw [badValue] at h
      obtain ⟨n, hn⟩ := literalValue_of_not_malformed name h
      exact ⟨(n, counter.deactivate), by rw [exprValue, hn]; rfl⟩
  | ident id =>
      by_cases hi : id.name = iotaName
      · exact ⟨counter.activate, by simp [exprValue, hi]⟩
      · obtain ⟨n, hn⟩ := referenceValue_known ht name (show known.contains id.name = true
          by simpa [badValue, hi] using h)
        refine ⟨(n, counter.deactivate), ?_⟩
        rw [exprValue, if_neg (by simpa using hi), hn]
        rfl
  | binary op left right loc =>
      simp only [badValue, Bool.or_eq_false_iff, Bool.not_eq_false', Bool.and_eq_false_iff,
        bne_eq_false_iff_eq] at h
      obtain ⟨⟨hleft, hright⟩, hop⟩ := h
      obtain ⟨n, hn⟩ := amountValue_known ht name (.binary op left right loc) hright
      have hshift : ∃ k, shift t name op (.binary op left right loc) left right = .ok k := by
        rw [shift_eq, if_pos hleft, hn, ok_bind]
        rcases hop with rfl | rfl
        · exact ⟨n, rfl⟩
        · exact ⟨-n, rfl⟩
      obtain ⟨k, hk⟩ := hshift
      exact ⟨counter.offset k, by rw [exprValue, hk]; rfl⟩
  | verbatim _ _ | stray _ _ _ => cases h

/-- Values that are not refused have a value. -/
theorem specValue_known (ht : Knows t known) (counter : Counter) (name : String)
    {values : List Expr} (h : badValues known values = false) :
    ∃ r, specValue t counter name values = .ok r := by
  match values with
  | [] => exact ⟨_, rfl⟩
  | [e] => exact exprValue_known ht counter name h
  | _ :: _ :: _ => cases h

/-- What is to the right of `iota` and has no value is refused alike in all tables with the same
names. -/
theorem amountValue_refused {right : Expr} (h : badAmount known right = true) (name : String)
    (whole : Expr) :
    ∃ cause : Cause,
      cause.kind = (match right with
        | .ident _ => Kind.unresolvedReference
        | _ => .unsupportedExpression) ∧
      ∀ t, Knows t known → amountValue t name whole right = .error cause := by
  cases right with
  | int text loc =>
      rw [badAmount] at h
      refine ⟨.unsupportedExpression name (Obstacle.literal text).text, rfl, fun t _ => ?_⟩
      rw [amountValue]
      exact literalValue_of_malformed h
  | ident id =>
      exact ⟨.unresolvedReference name id.name, rfl,
        fun t ht => referenceValue_unknown ht (by simpa [badAmount] using h)⟩
  | rune _ _ _ | binary _ _ _ _ | verbatim _ _ | stray _ _ _ =>
      exact ⟨.unsupportedExpression name (Obstacle.rightOperand whole).text, rfl, fun t _ => rfl⟩

theorem exprValue_refused {e : Expr} (h : badValue known e = true) (name : String) :
    ∃ cause : Cause, cause.kind = refusalKind known (reference? e) ∧
      ∀ t counter, Knows t known → exprValue t counter name e = .error cause := by
  cases e with
  | rune _ _ _ => cases h
  | int text loc =>
      refine ⟨.unsupportedExpression name (Obstacle.literal text).text, rfl, fun t counter _ => ?_⟩
      rw [exprValue, literalValue_of_malformed h]
      rfl
  | ident id =>
      simp only [badValue, Bool.and_eq_true, bne_iff_ne] at h
      refine ⟨.unresolvedReference name id.name, ?_, fun t counter ht => ?_⟩
      · rw [reference?, if_neg h.1, refusalKind, Option.any_some, if_pos h.2]
        rfl
      · rw [exprValue, if_neg (by simpa using h.1),
          referenceValue_unknown ht (by simpa using h.2)]
        rfl
  | binary op left right loc =>
      have hvalue : ∀ {cause : Cause}, (∀ t, Knows t known →
          shift t name op (.binary op left right loc) left right = .error cause) →
          ∀ t counter, Knows t known →
            exprValue t counter name (.binary op left right loc) = .error cause := by
        intro cause hshift t counter ht
        rw [exprValue, hshift t ht]
        rfl
      cases hleft : isIota left with
      | false =>
          refine ⟨_, ?_, hvalue fun t _ => by rw [shift_eq, hleft]; rfl⟩
          cases right <;> simp [reference?, refusalKind, hleft, Cause.kind]
      | true =>
          cases hright : badAmount known right with
          | true =>
              obtain ⟨cause, hkind, hrefused⟩ :=
                amountValue_refused hright name (.binary op left right loc)
              refine ⟨cause, ?_, hvalue fun t ht => by rw [shift_eq, hleft, hrefused t ht]; rfl⟩
              rw [hkind]
              cases right with
              | ident id =>
                  rw [badAmount] at hright
                  simp only [reference?, hleft, refusalKind, if_true, Option.any_some, hright]
              | int _ _ | rune _ _ _ | binary _ _ _ _ | verbatim _ _ | stray _ _ _ => rfl
          | false =>
              have hop : op ≠ "+" ∧ op ≠ "-" := by simpa [badValue, hleft, hright] using h
              refine ⟨.unsupportedExpression name
                (Obstacle.operator op (.binary op left right loc)).text, ?_,
                hvalue fun t ht => ?_⟩
              · cases right with
                | ident id =>
                    rw [badAmount] at hright
                    simp only [reference?, hleft, refusalKind, if_true, Option.any_some, hright]
                    rfl
                | int _ _ | rune _ _ _ | binary _ _ _ _ | verbatim _ _ | stray _ _ _ => rfl
              · obtain ⟨n, hn⟩ :=
                  amountValue_known ht name (.binary op left right loc) hright
                rw [shift_eq, hleft, hn]
                simp [hop.1, hop.2, obstructed]
  | verbatim text loc =>
      exact ⟨.unsupportedExpression name (Obstacle.verbatim text).text, rfl, fun t counter _ => rfl⟩
  | stray kind text loc =>
      exact ⟨.unsupportedExpression name (Obstacle.stray kind).text, rfl, fun t counter _ => rfl⟩

/-- Values that are refused are refused alike in all tables with the same names. -/
theorem specValue_refused {values : List Expr} (h : badValues known values = true)
    (name : String) :
    ∃ cause : Cause, cause.kind = refusalKind known (referenceOf? values) ∧
      ∀ t counter, Knows t known → specValue t counter name values = .error cause := by
  match values with
  | [] => cases h
  | [e] => exact exprValue_refused h name
  | e :: e' :: es =>
      exact ⟨.unsupportedExpression name (Obstacle.severalValues (e :: e' :: es)).text, rfl,
        fun t counter _ => rfl⟩

/-! ## Steps -/

variable {o : Options} {s : State} {spec : ConstSpec}

/-- Wherever a run comes to the specification with these names, it fails like this. -/
def Refuses (o : Options) (known : List String) (spec : ConstSpec) (f : Failure) : Prop :=
  ∀ s : State, Knows s.table known → belongs o.type s.belongs spec = true →
    (step o s spec).result = .error f

theorem refuses_of_offends (o : Options) (h : offends known spec = true) :
    ∃ f : Failure, f.kind? = some (offenceKind known spec) ∧ f.span? = some spec.span ∧
      Refuses o known spec f := by
  cases hnames : spec.names.length != 1 with
  | true =>
      refine ⟨.diagnostic
        { cause := .multiName o.type (spec.names.map (·.name)), span := some spec.span },
        ?_, rfl, fun s _ hb => ?_⟩
      · rw [offenceKind, if_pos hnames]
        rfl
      · rw [step, if_pos hb]
        split
        · next id hid => simp [hid] at hnames
        · rfl
  | false =>
      obtain ⟨id, hid⟩ := List.length_eq_one_iff.1 (by simpa using hnames)
      rw [offends, hnames, Bool.false_or] at h
      obtain ⟨cause, hkind, hrefused⟩ := specValue_refused h id.name
      refine ⟨.diagnostic { cause, span := some spec.span }, ?_, rfl, fun s hs hb => ?_⟩
      · rw [offenceKind, hnames]
        exact congrArg some hkind
      · rw [step, if_pos hb, hid]
        simp only [define, hrefused s.table s.counter hs]
        rfl

theorem step_of_not_offends (hs : Knows s.table known) (hb : belongs o.type s.belongs spec = true)
    (h : offends known spec = false) : ∃ s', (step o s spec).result = .ok s' := by
  rw [offends, Bool.or_eq_false_iff, bne_eq_false_iff_eq] at h
  obtain ⟨id, hid⟩ := List.length_eq_one_iff.1 h.1
  obtain ⟨r, hr⟩ := specValue_known hs s.counter id.name h.2
  exact ⟨_, step_of_value hb hid hr⟩

/-- What is added is known. -/
theorem knows_of_adds {α : Type} {specs : List ConstSpec} {t t' : Table}
    {run : Table → Except Failure α} {close : Table → α} (h : Adds specs t t' run close)
    (ht : Knows t known) : Knows t' (known ++ declared specs) := by
  obtain ⟨entries, hnames, rfl, _⟩ := h
  intro name
  rw [Bool.eq_iff_iff, Table.contains_recordAll, hnames, ht, List.contains_iff_mem,
    List.contains_iff_mem, List.mem_append]

end Resolve
end EnumNames
