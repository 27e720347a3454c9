import EnumNames.Enumeration.Underlying
import EnumNames.Proofs.FirstOffence
import EnumNames.Proofs.NodePlaces

/-!
How the analysis of sources can fail. Reading texts, checking the type and
finding its constants fail with diagnostics of six kinds and with nothing else.
Every node of a syntax tree has the parts of its rule in their order, and the
values that are read off it are literals, names, sums, differences or texts.
-/

namespace EnumNames.Grammar

/-! ## Shapes of nodes -/

/-- The forest consists of the parts of the expression, in their order. -/
inductive Peg.Shapes : Peg → Forest → Prop where
  | token {t : Token} {behind text rest : List Char} :
      t.width behind (text ++ rest) = some text.length → Shapes (.token t) (.leaf text .nil)
  | rule {r : Rule} {inside : Forest} : Shapes (.rule r) (.node r inside .nil)
  | seq {e e' : Peg} {f f' : Forest} :
      Shapes e f → Shapes e' f' → Shapes (.seq e e') (f.append f')
  | first {e e' : Peg} {f : Forest} : Shapes e f → Shapes (.choice e e') f
  | second {e e' : Peg} {f : Forest} : Shapes e' f → Shapes (.choice e e') f
  | none {e : Peg} : Shapes (.many e) .nil
  | more {e : Peg} {f f' : Forest} :
      Shapes e f → Shapes (.many e) f' → Shapes (.many e) (f.append f')
  | absent {e : Peg} : Shapes (.optional e) .nil
  | present {e : Peg} {f : Forest} : Shapes e f → Shapes (.optional e) f

variable {e : Peg} {f : Forest} {behind cs rest text : List Char} {b tree : Branch}

theorem Peg.Reads.shapes (he : e.steady = true) (h : e.Reads behind cs rest f) : e.Shapes f := by
  induction e generalizing behind cs rest f with
  | token t =>
      obtain ⟨hwidth, rfl⟩ := width_of_reads h
      exact .token hwidth
  | rule r =>
      obtain ⟨g, rfl, _⟩ := body_of_reads h
      exact .rule
  | seq e e' ih ih' =>
      obtain ⟨he, he'⟩ := Bool.and_eq_true_iff.1 he
      obtain ⟨a, b, g, g', rfl, ha, hb, rfl⟩ := parts_of_reads_seq h
      exact .seq (ih he ha) (ih' he' hb)
  | choice e e' ih ih' =>
      obtain ⟨he, he'⟩ := Bool.and_eq_true_iff.1 he
      rcases parts_of_reads_choice h with h | ⟨_, h⟩
      · exact .first (ih he h)
      · exact .second (ih' he' h)
  | many e ih =>
      simp only [Peg.steady, Bool.and_eq_true, Bool.not_eq_true'] at he
      refine h.many_induction (P := fun _ _ f => (Peg.many e).Shapes f) he.1 ?_ ?_
      · exact fun _ _ => .none
      · exact fun _ _ _ _ _ ha _ hmore => .more (ih he.2 ha) hmore
  | optional e ih =>
      rcases parts_of_reads_optional h with h | ⟨_, rfl, _⟩
      · exact .present (ih he h)
      · exact .absent

inductive Branch.Below (tree : Branch) : Branch → Prop where
  | root : Below tree tree
  | child {b c : Branch} : Below tree b → c ∈ b.children → Below tree c

namespace Placed

theorem shapes (h : Placed text b) : b.rule.body.Shapes b.inside := by
  obtain ⟨_, _, _, _, hreads⟩ := h
  exact hreads.shapes b.rule.steady_body

theorem below (h : Placed text tree) (hb : tree.Below b) : Placed text b := by
  induction hb with
  | root => exact h
  | child _ hc ih => exact ih.children _ hc

theorem of_reach? {path : List Rule} {c : Branch} (h : Placed text b)
    (hc : b.reach? path = some c) : Placed text c := by
  induction path generalizing b with
  | nil => exact Option.some.inj hc ▸ h
  | cons r path ih =>
      obtain ⟨d, hd, hreach⟩ := Option.bind_eq_some_iff.1 hc
      exact ih (h.of_first? hd).2 hreach

theorem sign (h : Placed text b) (hr : b.rule = .addOp) : b.text = "+" ∨ b.text = "-" := by
  obtain ⟨_, _, _, _, hreads⟩ := h
  rw [hr] at hreads
  rcases parts_of_reads_choice hreads with hplus | ⟨_, hminus⟩
  · exact .inl (by rw [Branch.text, (lit_of_reads hplus).1])
  · exact .inr (by rw [Branch.text, (lit_of_reads hminus).1])

end Placed
end EnumNames.Grammar

namespace EnumNames

open EnumNames.Grammar

/-! ## Values that are read -/

namespace Expr

def isOperand : Expr → Bool
  | .int .. | .rune .. | .ident _ => true
  | .binary .. | .verbatim .. | .stray .. => false

/-- A value that sources can give: an operand, the sum or difference of two, or a text. -/
def isWritten : Expr → Bool
  | .int .. | .rune .. | .ident _ | .verbatim .. => true
  | .binary op left right _ => (op == "+" || op == "-") && left.isOperand && right.isOperand
  | .stray .. => false

end Expr

namespace Reader

variable {r : Reader} {b : Branch} {text : List Char}

theorem operand_isOperand {e : Expr} (h : r.operand b = .ok e) : e.isOperand = true := by
  unfold operand at h
  split at h
  · cases h
    rfl
  · obtain ⟨_, _, rfl⟩ := ok_of_map h
    rfl
  · cases h
    rfl

theorem isWritten_of_isOperand {e : Expr} (h : e.isOperand = true) : e.isWritten = true := by
  cases e with
  | int _ _ | rune _ _ _ | ident _ | verbatim _ _ => rfl
  | binary _ _ _ _ | stray _ _ _ => cases h

theorem binary_isWritten {e : Expr} (hb : Placed text b) (h : r.binary b = .ok e) :
    e.isWritten = true := by
  unfold binary at h
  split at h
  · next left right op _ hop =>
      obtain ⟨x, hx, h⟩ := ok_of_bind h
      obtain ⟨y, hy, h⟩ := ok_of_bind h
      cases h
      obtain ⟨hrule, hplaced⟩ := hb.of_first? hop
      rw [Expr.isWritten, operand_isOperand hx, operand_isOperand hy]
      rcases hplaced.sign hrule with hsign | hsign <;> rw [hsign] <;> rfl
  · cases h
    rfl

theorem value_isWritten {e : Expr} (hb : Placed text b) (h : r.value b = .ok e) :
    e.isWritten = true := by
  unfold value at h
  split at h
  · next hreach => exact binary_isWritten (hb.of_reach? hreach) h
  · exact isWritten_of_isOperand (operand_isOperand h)
  · cases h
    rfl

def Written (s : ConstSpec) : Prop := ∀ e ∈ s.values, e.isWritten = true

theorem constSpec_written {s : ConstSpec} (hb : Placed text b) (h : r.constSpec b = .ok s) :
    Written s := by
  obtain ⟨values, hvalues, hs⟩ := ok_of_bind h
  cases hs
  intro e he
  obtain ⟨c, hc, hread⟩ := exists_of_mapM_ok hvalues he
  cases hlist : b.reach? [.constValues, .exprList] with
  | none => simp [hlist] at hc
  | some list =>
      rw [hlist] at hc
      exact value_isWritten ((hb.of_reach? hlist).of_mem_every hc).2 hread

theorem placed_specs {bracketed item spec : Rule} {c : Branch} (hb : Placed text b)
    (h : c ∈ (specs (some b) bracketed item spec).1) : Placed text c := by
  simp only [specs] at h
  split at h
  · next list hlist =>
      obtain ⟨i, hi, hc⟩ := List.mem_filterMap.1 h
      exact (((hb.of_first? hlist).2.of_mem_every hi).2.of_first? hc).2
  · exact (hb.of_mem_every h).2

theorem decl_written {specs : List ConstSpec} {grouped : Bool} {loc : Loc} (hb : Placed text b)
    (h : r.decl b = .ok (.consts specs grouped loc)) : ∀ s ∈ specs, Written s := by
  unfold decl at h
  split at h
  · cases h
  · next d _ hd =>
      obtain ⟨specs', hspecs, heq⟩ := ok_of_bind h
      cases heq
      intro s hs
      obtain ⟨c, hc, hread⟩ := exists_of_mapM_ok hspecs hs
      cases hbody : d.first? .constBody with
      | none => simp [hbody] at hc
      | some body =>
          rw [hbody] at hc
          exact constSpec_written (placed_specs ((hb.of_first? hd).2.of_first? hbody).2 hc) hread
  · cases h

theorem sourceFile_written {file : SourceFile} (hb : Placed text b)
    (h : r.sourceFile b = .ok file) : ∀ specs ∈ file.constBlocks, ∀ s ∈ specs, Written s := by
  obtain ⟨decls, hdecls, heq⟩ := ok_of_bind h
  cases heq
  intro specs hspecs s hs
  obtain ⟨d, hd, hblock⟩ := List.mem_filterMap.1 hspecs
  obtain ⟨c, hc, hread⟩ := exists_of_mapM_ok hdecls hd
  obtain ⟨t, ht, htop⟩ := List.mem_filterMap.1 hc
  cases d with
  | types _ _ _ | other _ _ _ => cases hblock
  | consts specs' grouped loc =>
      cases hblock
      exact decl_written ((hb.of_mem_every ht).2.of_first? htop).2 hread s hs

end Reader

/-! ## Failures -/

/-- All failures of a computation are of one of the kinds. -/
def FailsWithin {α : Type} (kinds : List Kind) (x : Except Failure α) : Prop :=
  ∀ f, x = .error f → ∃ k ∈ kinds, f.kind? = some k

namespace FailsWithin

variable {α β : Type} {kinds more : List Kind} {x : Except Failure α}

theorem ok (kinds : List Kind) (a : α) : FailsWithin kinds (.ok a) := by
  intro f h
  cases h

theorem mono (h : FailsWithin kinds x) (hsub : kinds ⊆ more) : FailsWithin more x := by
  intro f hf
  obtain ⟨k, hk, hkind⟩ := h f hf
  exact ⟨k, hsub hk, hkind⟩

theorem bind {next : α → Except Failure β} (h : FailsWithin kinds x)
    (hnext : ∀ a, FailsWithin kinds (next a)) : FailsWithin kinds (x >>= next) := by
  cases x with
  | error f => exact fun f' hf' => h f' (congrArg Except.error (Except.error.inj hf'))
  | ok a => exact hnext a

theorem mapM {read : α → Except Failure β} (h : ∀ a, FailsWithin kinds (read a)) (as : List α) :
    FailsWithin kinds (as.mapM read) := by
  induction as with
  | nil => exact ok kinds []
  | cons a as ih =>
      rw [List.mapM_cons]
      exact (h a).bind fun b => ih.bind fun bs => ok kinds (b :: bs)

end FailsWithin

theorem Grammar.Forest.Sound.sourceFile_ok {f : Forest} (hf : f.Sound) (path : String) :
    ∃ file, f.sourceFile path = .ok file := by
  have hdecls : ∀ g ∈ (f.every .topLevel).filterMap (·.first? .topDecl), ∃ d, g.decl = .ok d := by
    intro g hg
    obtain ⟨t, ht, htop⟩ := List.mem_filterMap.1 hg
    exact ((hf.of_mem_every ht).2.of_first? htop).2.decl_ok
  obtain ⟨decls, hdecls⟩ := mapM_ok hdecls
  exact ⟨_, by rw [Forest.sourceFile, hdecls]; rfl⟩

/-- A text that matches is read. -/
theorem SourceFile.parse_of_matchRest (path : String) {text : String} {tree : Branch}
    (h : Rule.sourceFile.matchRest text.toList 0 = .ok tree) :
    ∃ file, (Reader.ofText path text.toList).sourceFile tree = .ok file ∧
      SourceFile.parse path text = .ok file := by
  obtain ⟨f, rfl, hsound, _⟩ := Rule.reads_of_matchRest h
  obtain ⟨file, hfile⟩ := hsound.sourceFile_ok path
  have hread := (Reader.ofText path text.toList).sourceFile_unplaced ⟨.sourceFile, 0, f⟩
  rw [show (Reader.ofText path text.toList).file = path from rfl, hfile] at hread
  obtain ⟨parsed, hparsed, _⟩ := ok_of_map hread
  refine ⟨parsed, hparsed, ?_⟩
  delta SourceFile.parse
  simp [h, hparsed, Except.mapError]

theorem SourceFile.parse_of_mismatch (path : String) {text : String} {m : Mismatch}
    (h : Rule.sourceFile.matchRest text.toList 0 = .error m) :
    SourceFile.parse path text = .error (.diagnostic (unreadable path text.toList m.offset)) := by
  delta SourceFile.parse
  simp only [h]

theorem SourceFile.matchRest_of_parse {path text : String} {file : SourceFile}
    (h : SourceFile.parse path text = .ok file) :
    ∃ tree, Rule.sourceFile.matchRest text.toList 0 = .ok tree ∧
      (Reader.ofText path text.toList).sourceFile tree = .ok file := by
  cases hmatch : Rule.sourceFile.matchRest text.toList 0 with
  | error m => cases (SourceFile.parse_of_mismatch path hmatch).symm.trans h
  | ok tree =>
      obtain ⟨parsed, hread, hparse⟩ := SourceFile.parse_of_matchRest path hmatch
      cases hparse.symm.trans h
      exact ⟨tree, rfl, hread⟩

theorem parse_failsWithin (path text : String) :
    FailsWithin [.sourceParse] (SourceFile.parse path text) := by
  cases h : Rule.sourceFile.matchRest text.toList 0 with
  | ok tree =>
      obtain ⟨file, _, hparse⟩ := SourceFile.parse_of_matchRest path h
      rw [hparse]
      exact .ok _ file
  | error m =>
      intro f hf
      cases (SourceFile.parse_of_mismatch path h).symm.trans hf
      exact ⟨.sourceParse, by simp, rfl⟩

theorem checkTypeSpec_failsWithin (type : String) (s : TypeSpec) :
    FailsWithin [.typeNotInteger] (checkTypeSpec type s).result := by
  rw [checkTypeSpec, TypeSpec.underlying]
  intro f hf
  split at hf
  · split at hf
    · cases hf
    · next cause hcause =>
        cases hf
        refine ⟨.typeNotInteger, by simp, ?_⟩
        split at hcause
        · split at hcause
          · cases hcause
          · cases hcause
            rfl
        · cases hcause
          rfl
  · cases hf

theorem checkType_failsWithin (type : String) (files : List SourceFile) :
    FailsWithin [.typeNotInteger] (checkType type files).result := by
  rw [checkType]
  induction files.flatMap (·.typeSpecs) with
  | nil => exact .ok _ ()
  | cons s specs ih =>
      change FailsWithin _
        (checkTypeSpec type s >>= fun _ => specs.forM (checkTypeSpec type)).result
      rw [Logged.result_bind]
      exact (checkTypeSpec_failsWithin type s).bind fun _ => ih

def resolveKinds : List Kind :=
  [.multiName, .unsupportedExpression, .unresolvedReference, .insufficientConstants]

theorem offenceKind_mem (known : List String) (spec : ConstSpec) :
    Folding.offenceKind known spec ∈ resolveKinds := by
  rw [Folding.offenceKind, Folding.refusalKind]
  split
  · simp [resolveKinds]
  · split <;> simp [resolveKinds]

theorem resolve_failsWithin (o : Options) (files : List SourceFile) :
    FailsWithin resolveKinds (resolve o files).result := by
  intro f hf
  rcases clean_or_fails o files with hclean | ⟨before, spec, _, f', _, _, hkind, hf'⟩
  · obtain ⟨t, _, hresult⟩ := resolve_of_clean hclean
    rw [hresult] at hf
    split at hf
    · cases hf
      exact ⟨.insufficientConstants, by simp [resolveKinds], rfl⟩
    · cases hf
  · obtain rfl : f' = f := Except.error.inj (hf'.symm.trans hf)
    exact ⟨_, offenceKind_mem (Folding.declared before) spec, hkind⟩

/-- Reads sources, given by their paths and texts, checks the type and finds its constants. -/
def analyse (o : Options) (sources : List (String × String)) : Except Failure Table := do
  let files ← sources.mapM fun s => SourceFile.parse s.1 s.2
  (checkType o.type files).result
  (resolve o files).result

def analysisKinds : List Kind := .sourceParse :: .typeNotInteger :: resolveKinds

theorem analyse_failsWithin (o : Options) (sources : List (String × String)) :
    FailsWithin analysisKinds (analyse o sources) := by
  refine FailsWithin.bind (.mapM (fun s => ?_) sources) fun files => ?_
  · exact (parse_failsWithin s.1 s.2).mono (by simp [analysisKinds])
  · refine FailsWithin.bind ?_ fun _ => ?_
    · exact (checkType_failsWithin o.type files).mono (by simp [analysisKinds])
    · exact (resolve_failsWithin o files).mono (by simp [analysisKinds])

/-- Analysing any sources gives a table or a diagnostic of one of six kinds. A file that is read
comes from a tree in which every node has the parts of its rule, and none of its values is a stray
node or has another sign than plus and minus. -/
theorem analysis_ends_or_reports (o : Options) (sources : List (String × String)) :
    ((∃ t, analyse o sources = .ok t) ∨
      ∃ d : Diagnostic, analyse o sources = .error (.diagnostic d) ∧
        d.cause.kind ∈ analysisKinds) ∧
    ∀ s ∈ sources, ∀ file, SourceFile.parse s.1 s.2 = .ok file →
      (∀ specs ∈ file.constBlocks, ∀ spec ∈ specs, ∀ e ∈ spec.values, e.isWritten = true) ∧
      ∃ tree, Rule.sourceFile.matchRest s.2.toList 0 = .ok tree ∧
        (Reader.ofText s.1 s.2.toList).sourceFile tree = .ok file ∧
        ∀ b, tree.Below b → b.rule.body.Shapes b.inside := by
  constructor
  · cases h : analyse o sources with
    | ok t => exact .inl ⟨t, rfl⟩
    | error f =>
        obtain ⟨k, hk, hkind⟩ := analyse_failsWithin o sources f h
        cases f with
        | diagnostic d => exact .inr ⟨d, rfl, Option.some.inj hkind ▸ hk⟩
        | numeral _ | rune _ | nullInPath | unencodable _ => cases hkind
  · intro s _ file hparse
    cases hmatch : Rule.sourceFile.matchRest s.2.toList 0 with
    | error e =>
        delta SourceFile.parse at hparse
        simp only [hmatch] at hparse
        cases hparse
    | ok tree =>
        obtain ⟨parsed, hread, hparsed⟩ := SourceFile.parse_of_matchRest s.1 hmatch
        obtain rfl : parsed = file := Except.ok.inj (hparsed.symm.trans hparse)
        have hplaced := (placed_of_matchRest hmatch).2
        exact ⟨Reader.sourceFile_written hplaced hread, tree, rfl, hread,
          fun b hb => (hplaced.below hb).shapes⟩

theorem shifted_constant_is_written :
    ∃ file, SourceFile.parse "t.go" "package p\nconst A T = iota + 1\n" = .ok file ∧
      (∃ specs ∈ file.constBlocks, ∃ spec ∈ specs, ∃ e ∈ spec.values, e.isWritten = true) ∧
      ∃ tree, Rule.sourceFile.matchRest "package p\nconst A T = iota + 1\n".toList 0 = .ok tree ∧
        tree.rule.body.Shapes tree.inside := by
  have hsome : ((SourceFile.parse "t.go"
      "package p\nconst A T = iota + 1\n").toOption.any fun file =>
        file.constBlocks.any fun specs => specs.any fun spec => !spec.values.isEmpty) = true := by
    decide +kernel
  obtain ⟨file, hfile, hblocks⟩ := (Option.any_eq_true _ _).1 hsome
  have hparse := ok_of_toOption hfile
  obtain ⟨hwritten, tree, hmatch, _, hshapes⟩ := (analysis_ends_or_reports { type := "T" }
    [("t.go", "package p\nconst A T = iota + 1\n")]).2 _ (List.mem_singleton.2 rfl) file hparse
  obtain ⟨specs, hspecs, hspec⟩ := List.any_eq_true.1 hblocks
  obtain ⟨spec, hmem, hvalues⟩ := List.any_eq_true.1 hspec
  obtain ⟨e, he⟩ := List.exists_mem_of_ne_nil spec.values (by simpa using hvalues)
  exact ⟨file, hparse, ⟨specs, hspecs, spec, hmem, e, he, hwritten specs hspecs spec hmem e he⟩,
    tree, hmatch, hshapes tree .root⟩

end EnumNames
