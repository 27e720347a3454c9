import EnumNames.Proofs.AnalysisFailures
import EnumNames.Proofs.BlockReading
import EnumNames.Proofs.IntegerText
import Mathlib.Algebra.Group.Nat.Defs

/-!
A file whose constant has a power of sixteen for a value. For every exponent the
file is read and the table has that value, although for large ones the value has
more decimal digits than can be written.
-/

namespace EnumNames

open EnumNames.Grammar EnumNames.Text
open Numeral (Short)

def powerLiteral (n : Nat) : List Char := '0' :: 'x' :: '1' :: List.replicate n '0'

theorem integerWidth_powerLiteral (n : Nat) :
    integerWidth (powerLiteral n) = some (powerLiteral n).length := by
  have hrun : ('1' :: List.replicate n '0').takeWhile (spaced isHexDigit) =
      '1' :: List.replicate n '0' := by
    have hone : spaced isHexDigit '1' = true := by decide
    have hzero : spaced isHexDigit '0' = true := by decide
    simp [hone, hzero]
  simp [integerWidth, powerLiteral, basedWidth, runWidth, hrun, passed, isPlainDigit]
  omega

theorem ofDigits_power (n : Nat) :
    Numeral.ofDigits 16 (1 :: List.replicate n 0) = 16 ^ n := by
  have hzeros : ∀ m, (List.replicate n 0).foldl (fun k d => k * 16 + d) m = m * 16 ^ n := by
    induction n with
    | zero => simp
    | succ n ih =>
        intro m
        rw [List.replicate_succ, List.foldl_cons, ih, Nat.add_zero, Nat.mul_assoc, Nat.pow_succ',
          Nat.mul_comm 16]
  rw [Numeral.ofDigits, List.foldl_cons, hzeros]
  simp

theorem readUnsigned_powerLiteral (n : Nat) :
    Numeral.readUnsigned 0 (powerLiteral n) = .ok (16 ^ n) := by
  have hspells : Numeral.Spells 16 ('1' :: List.replicate n '0') (1 :: List.replicate n 0) := by
    simp [Numeral.Spells, Numeral.digitBelow?, Numeral.digitValue?]
  have hmark : Numeral.markedBase? (powerLiteral n) = some 16 := rfl
  have hafter : Numeral.afterMark 16 (powerLiteral n) = '1' :: List.replicate n '0' := rfl
  have hlead := Numeral.leadingDigits_of_spells hspells true (.inl (by simp))
  unfold Numeral.readUnsigned
  simp [hmark, hafter, hlead, ofDigits_power]

theorem value_powerLiteral (n : Nat) :
    IntLiteral.value (String.ofList (powerLiteral n)) = .ok ((16 ^ n : Nat) : Int) := by
  have halnum : ∀ c ∈ powerLiteral n, (Numeral.digitValue? c).isSome = true := by
    intro c hc
    simp only [powerLiteral, List.mem_cons, List.mem_replicate] at hc
    rcases hc with rfl | rfl | rfl | ⟨_, rfl⟩ <;> rfl
  have hne : powerLiteral n ≠ [] := List.cons_ne_nil _ _
  have hdigits : IntLiteral.digits (String.ofList (powerLiteral n)).toList = powerLiteral n := by
    rw [String.toList_ofList]
    refine List.filter_eq_self.2 fun c hc => bne_iff_ne.2 ?_
    rintro rfl
    cases halnum '_' hc
  have hoctal : ¬ IntLiteral.isOctal (powerLiteral n) = true := by
    have hletter : isDigit 'x' = false := by decide +kernel
    simp [IntLiteral.isOctal, powerLiteral, hletter]
  rw [IntLiteral.value_of_alnum hdigits hne halnum (if_neg hoctal), readUnsigned_powerLiteral]

def powerBlock (n : Nat) : Written.Block :=
  { beforePackage := ⟨[' '], rfl⟩
    package := ⟨['p'], by decide⟩
    beforeGroup := ⟨[' '], rfl⟩
    opening := []
    specs :=
      [{ names := ⟨⟨['A'], by decide⟩, []⟩
         type := some ⟨⟨[' '], rfl⟩, by decide, .plain ⟨['T'], by decide⟩⟩
         values := some ⟨⟨[' '], rfl⟩, [.space ' ' (by decide)],
           ⟨.single (.int (powerLiteral n) (integerWidth_powerLiteral n)), []⟩⟩
         before := .none
         close := .line
         after := [] }] }

structure PowerSpec (n : Nat) (spec : ConstSpec) : Prop where
  names : ∃ id : Ident, spec.names = [id] ∧ id.name = "A"
  type : ∃ id : Ident, spec.type = some (.ident id) ∧ id.name = "T"
  values : ∃ loc, spec.values = [.int (String.ofList (powerLiteral n)) loc]

theorem powerSpec_of_unplaced {n : Nat} {spec : ConstSpec}
    (h : [spec.unplaced] = (powerBlock n).specs.map (·.content)) : PowerSpec n spec := by
  have hspec : spec.unplaced =
      { names := [{ name := "A" }]
        type := some (.ident { name := "T" })
        values := [.int (String.ofList (powerLiteral n)) {}] } := List.singleton_inj.1 h
  have hnames : spec.names.map (·.unplaced) = [{ name := "A" }] := congrArg ConstSpec.names hspec
  have htype : spec.type.map (·.unplaced) = some (.ident { name := "T" }) :=
    congrArg ConstSpec.type hspec
  have hvalues : spec.values.map (·.unplaced) = [.int (String.ofList (powerLiteral n)) {}] :=
    congrArg ConstSpec.values hspec
  refine ⟨?_, ?_, ?_⟩
  · obtain ⟨id, hid, hname⟩ := List.map_eq_singleton_iff.1 hnames
    exact ⟨id, hid, congrArg Ident.name hname⟩
  · obtain ⟨t, ht, hplain⟩ := Option.map_eq_some_iff.1 htype
    cases t with
    | verbatim _ _ => cases hplain
    | ident id => exact ⟨id, ht, congrArg Ident.name (TypeRef.ident.inj hplain)⟩
  · obtain ⟨e, he, hint⟩ := List.map_eq_singleton_iff.1 hvalues
    cases e with
    | rune _ _ _ | ident _ | binary _ _ _ _ | verbatim _ _ | stray _ _ _ => cases hint
    | int text loc => exact ⟨loc, (Expr.int.inj hint).1 ▸ he⟩

def powerTable (n : Nat) : Table :=
  { names := ["A"], values := [("A", ((16 ^ n : Nat) : Int))], displays := [("A", "A")] }

theorem resolve_powerSpec {n : Nat} {file : SourceFile} {spec : ConstSpec}
    (hfile : file.constBlocks = [[spec]]) (hspec : PowerSpec n spec) :
    (resolve { type := "T" } [file]).result = .ok (powerTable n) := by
  obtain ⟨id, hid, hname⟩ := hspec.names
  obtain ⟨type, htype, htypeName⟩ := hspec.type
  obtain ⟨loc, hvalues⟩ := hspec.values
  have hvalue : Resolve.specValue {} {} "A" spec.values =
      .ok (((16 ^ n : Nat) : Int), Counter.deactivate {}) := by
    rw [hvalues, Resolve.specValue, Resolve.exprValue, Resolve.literalValue, value_powerLiteral]
    rfl
  have hbelongs : Resolve.belongs "T" false spec = true := by
    rw [Resolve.belongs, htype]
    simp [TypeRef.isNamed, htypeName]
  have hdisplay : Resolve.displayText { type := "T" } "A" spec.comment = "A" := by
    unfold Resolve.displayText
    rfl
  have hdefine := (Folding.define_of_value (o := { type := "T" }) (s := { table := {} }) hvalue).1
  rw [hdisplay] at hdefine
  simp only [resolve, List.flatMap_cons, List.flatMap_nil, List.append_nil, hfile, List.foldlM_cons,
    List.foldlM_nil, Resolve.block, Resolve.step, hbelongs, if_true, hid, hname,
    Logged.result_bind, hdefine, ok_bind, Logged.result_pure]
  rfl

/-- The file is read, and the constant has the value of the literal. -/
theorem resolve_powerBlock (n : Nat) :
    ∃ file, SourceFile.parse "t.go" (String.ofList (powerBlock n).text) = .ok file ∧
      (resolve { type := "T" } [file]).result = .ok (powerTable n) := by
  obtain ⟨file, hparse, hunplaced⟩ := SourceFile.parse_of_reads "t.go" (powerBlock n).reads
    ((powerBlock n).sourceFile_inside "t.go")
  have hblocks := SourceFile.constBlocks_unplaced file
  have hcontent : ((powerBlock n).content "t.go").constBlocks =
      [(powerBlock n).specs.map (·.content)] := rfl
  rw [hunplaced, hcontent] at hblocks
  obtain ⟨specs, hspecs, hmap⟩ := List.map_eq_singleton_iff.1 hblocks.symm
  obtain ⟨spec, rfl, heq⟩ := List.map_eq_singleton_iff.1 hmap
  exact ⟨file, hparse, resolve_powerSpec hspecs (powerSpec_of_unplaced (by rw [← hmap]; rfl))⟩

theorem exists_long_power {n : Nat} (h : Nat.pow 10 Numeral.digitLimit ≤ 16 ^ n) :
    ∃ r ∈ (powerTable n).records, ¬ Short r.value := by
  refine ⟨⟨"A", ((16 ^ n : Nat) : Int), "A", 0⟩, List.mem_singleton.2 rfl, ?_⟩
  rw [Short, Int.natAbs_natCast]
  exact Nat.not_lt.2 h

/-- After so many hexadecimal digits a number has more decimal ones than can be written. -/
def longExponent : Nat := 3572

theorem limit_le_power : Nat.pow 10 Numeral.digitLimit ≤ 16 ^ longExponent := by decide +kernel

end EnumNames
