import EnumNames.Proofs.RefusedSpecs

/-!
Which specification stops a run. The first that offends does, with a failure of
its own, and nothing after it has a part in that. A run without an offence fails
only when it finds nothing to record, and more files add to the end of a table.
-/

namespace EnumNames
namespace Folding

def matchedOf (type : String) (files : List SourceFile) : List ConstSpec :=
  matchedIn type (files.flatMap (·.constBlocks))

/-- No specification offends when the names are known that those before it declare. -/
def Clean (specs : List ConstSpec) : Prop :=
  ∀ before spec after, specs = before ++ spec :: after → offends (declared before) spec = false

def firstOffence? (known : List String) : List ConstSpec → Option (List String × ConstSpec)
  | [] => none
  | spec :: specs =>
      if offends known spec then some (known, spec)
      else firstOffence? (known ++ declared [spec]) specs

variable {known : List String} {specs more : List ConstSpec}

theorem firstOffence?_append (known : List String) (specs more : List ConstSpec) :
    firstOffence? known (specs ++ more) =
      (firstOffence? known specs).or (firstOffence? (known ++ declared specs) more) := by
  induction specs generalizing known with
  | nil => simp [firstOffence?, declared]
  | cons spec specs ih =>
      rw [List.cons_append, firstOffence?, firstOffence?]
      split
      · rfl
      · rw [ih, declared_cons spec specs, List.append_assoc]

theorem split_of_firstOffence? {k : List String} {spec : ConstSpec}
    (h : firstOffence? known specs = some (k, spec)) :
    ∃ before after, specs = before ++ spec :: after ∧ k = known ++ declared before ∧
      offends k spec = true := by
  induction specs generalizing known with
  | nil => cases h
  | cons head specs ih =>
      rw [firstOffence?] at h
      split at h
      · next hoffends =>
          cases h
          exact ⟨[], specs, rfl, by simp [declared], hoffends⟩
      · obtain ⟨before, after, rfl, rfl, hoffends⟩ := ih h
        refine ⟨head :: before, after, rfl, ?_, hoffends⟩
        rw [declared_cons head before, List.append_assoc]

theorem firstOffence?_eq_none : firstOffence? [] specs = none ↔ Clean specs := by
  constructor
  · rintro h before spec after rfl
    rw [firstOffence?_append, Option.or_eq_none_iff, firstOffence?] at h
    have hrest := h.2
    split at hrest
    · cases hrest
    · next hoffends => simpa using hoffends
  · intro hclean
    cases h : firstOffence? [] specs with
    | none => rfl
    | some offence =>
        obtain ⟨before, after, hspecs, hk, hoffends⟩ := split_of_firstOffence? h
        rw [hk, List.nil_append, hclean before offence.2 after hspecs] at hoffends
        cases hoffends

theorem firstOffence?_of_clean {before after : List ConstSpec} {spec : ConstSpec}
    (hclean : Clean before) (h : offends (declared before) spec = true) :
    firstOffence? [] (before ++ spec :: after) = some (declared before, spec) := by
  rw [firstOffence?_append, firstOffence?_eq_none.2 hclean, Option.none_or, List.nil_append,
    firstOffence?, if_pos h]

/-- Where nothing offends, only the name for discarding keeps constants from being declared. -/
theorem declared_eq_nil (h : Clean specs) :
    declared specs = [] ↔ ∀ spec ∈ specs, spec.names.map (·.name) = [discardName] := by
  have hone : ∀ spec ∈ specs, ∃ id, spec.names = [id] := by
    intro spec hmem
    obtain ⟨before, after, hspecs⟩ := List.append_of_mem hmem
    have hoffends := h before spec after hspecs
    rw [offends, Bool.or_eq_false_iff, bne_eq_false_iff_eq] at hoffends
    exact List.length_eq_one_iff.1 hoffends.1
  rw [declared, List.filter_eq_nil_iff]
  constructor
  · intro hnone spec hmem
    obtain ⟨id, hid⟩ := hone spec hmem
    have hname := hnone id.name (List.mem_flatMap.2 ⟨spec, hmem, by simp [hid]⟩)
    rw [hid, List.map_singleton]
    simpa using hname
  · intro hall name hmem
    obtain ⟨spec, hspec, hname⟩ := List.mem_flatMap.1 hmem
    rw [hall spec hspec, List.mem_singleton] at hname
    simp [hname]

/-- A computation over specifications fails as their first offence does, and otherwise ends. -/
def Course {α : Type} (o : Options) (known : List String) (specs : List ConstSpec)
    (x : Except Failure α) : Prop :=
  match firstOffence? known specs with
  | none => ∃ a, x = .ok a
  | some (k, spec) => ∀ f, Resolve.Refuses o k spec f → x = .error f

theorem Course.nil {α : Type} (o : Options) (known : List String) (a : α) :
    Course o known [] (.ok a) := ⟨a, rfl⟩

theorem Course.bind {α β : Type} {o : Options} {x : Except Failure α}
    {next : α → Except Failure β} (h : Course o known specs x)
    (hnext : ∀ a, x = .ok a → Course o (known ++ declared specs) more (next a)) :
    Course o known (specs ++ more) (x >>= next) := by
  rw [Course] at h ⊢
  rw [firstOffence?_append]
  cases hfirst : firstOffence? known specs with
  | none =>
      rw [hfirst] at h
      obtain ⟨a, rfl⟩ := h
      exact hnext a rfl
  | some offence =>
      rw [hfirst] at h
      intro f hf
      rw [h f hf]
      rfl

end Folding

namespace Resolve

open Folding

variable {o : Options} {s : State} {known : List String} {t : Table}

theorem knows_empty : Knows {} [] := fun _ => rfl

theorem step_course (hs : Knows s.table known) (spec : ConstSpec) :
    Course o known (matchedAfter o.type s.belongs [spec]) (step o s spec).result := by
  rw [matchedAfter]
  cases hb : belongs o.type s.belongs spec with
  | false =>
      rw [step, hb]
      exact .nil o known _
  | true =>
      rw [if_pos rfl, matchedAfter, Course, firstOffence?]
      cases hoffends : offends known spec with
      | true => exact fun f hf => hf s hs hb
      | false => exact step_of_not_offends hs hb hoffends

theorem steps_course (hs : Knows s.table known) (specs : List ConstSpec) :
    Course o known (matchedAfter o.type s.belongs specs) (specs.foldlM (step o) s).result := by
  induction specs generalizing s known with
  | nil => exact .nil o known s
  | cons spec specs ih =>
      rw [List.foldlM_cons, Logged.result_bind, matchedAfter_cons]
      refine (step_course hs spec).bind fun s₁ h₁ => ?_
      rw [← belongs_of_step h₁]
      exact ih (knows_of_adds (step_adds h₁) hs)

theorem block_course (ht : Knows t known) (specs : List ConstSpec) :
    Course o known (matchedSpecs o.type specs) (block o t specs).result := by
  rw [block, Logged.result_bind, matchedSpecs_eq, ← List.append_nil (matchedAfter ..)]
  exact Course.bind (steps_course (s := { table := t }) ht specs) fun s _ => .nil o _ s.table

theorem blocks_course (ht : Knows t known) (blocks : List (List ConstSpec)) :
    Course o known (matchedIn o.type blocks) (blocks.foldlM (block o) t).result := by
  induction blocks generalizing t known with
  | nil => exact .nil o known t
  | cons specs blocks ih =>
      rw [List.foldlM_cons, Logged.result_bind, matchedIn, List.flatMap_cons]
      exact (block_course ht specs).bind fun t₁ h₁ => ih (knows_of_adds (block_adds h₁) ht)

end Resolve

open Folding Resolve

variable {o : Options} {files : List SourceFile}

theorem resolve_of_offence {before after : List ConstSpec} {spec : ConstSpec} {f : Failure}
    (hspecs : matchedOf o.type files = before ++ spec :: after) (hclean : Clean before)
    (h : offends (declared before) spec = true) (hf : Refuses o (declared before) spec f) :
    (resolve o files).result = .error f := by
  have hcourse := blocks_course (o := o) knows_empty (files.flatMap (·.constBlocks))
  rw [Course, ← matchedOf, hspecs, firstOffence?_of_clean hclean h] at hcourse
  rw [resolve, Logged.result_bind, hcourse f hf]
  rfl

/-- Without an offence a table is found, and what is left to fail is that it is empty. -/
theorem resolve_of_clean (h : Clean (matchedOf o.type files)) :
    ∃ t : Table, t.isEmpty = (declared (matchedOf o.type files)).isEmpty ∧
      (resolve o files).result =
        if t.isEmpty then .error (.diagnostic { cause := .insufficientConstants o.type })
        else .ok t := by
  have hcourse := blocks_course (o := o) knows_empty (files.flatMap (·.constBlocks))
  rw [Course, ← matchedOf, firstOffence?_eq_none.2 h] at hcourse
  obtain ⟨t, ht⟩ := hcourse
  refine ⟨t, ?_, ?_⟩
  · obtain ⟨entries, hnames, rfl, _⟩ := blocks_adds ht
    rw [Table.isEmpty_recordAll, Bool.eq_iff_iff, List.isEmpty_iff, matchedOf,
      List.eq_nil_iff_forall_not_mem]
    simp only [← hnames, ← List.eq_nil_iff_forall_not_mem, List.map_eq_nil_iff]
    simp [Table.isEmpty]
  · rw [resolve, Logged.result_bind, ht, ok_bind]
    split <;> rfl

theorem offenceKind_ne_insufficient (known : List String) (spec : ConstSpec) :
    offenceKind known spec ≠ .insufficientConstants := by
  rw [offenceKind, refusalKind]
  split
  · simp
  · split <;> simp

/-- Nothing offends, or the run fails with the kind of an offence. -/
theorem clean_or_fails (o : Options) (files : List SourceFile) :
    Clean (matchedOf o.type files) ∨
      ∃ before spec after f, matchedOf o.type files = before ++ spec :: after ∧
        offends (declared before) spec = true ∧
        f.kind? = some (offenceKind (declared before) spec) ∧
        (resolve o files).result = .error f := by
  cases hfirst : firstOffence? [] (matchedOf o.type files) with
  | none => exact .inl (firstOffence?_eq_none.1 hfirst)
  | some offence =>
      obtain ⟨before, after, hspecs, hknown, hoffends⟩ := split_of_firstOffence? hfirst
      rw [hknown, List.nil_append] at hoffends
      obtain ⟨f, hkind, _, hrefuses⟩ := refuses_of_offends o hoffends
      refine .inr ⟨before, offence.2, after, f, hspecs, hoffends, hkind, ?_⟩
      have hcourse := blocks_course (o := o) knows_empty (files.flatMap (·.constBlocks))
      rw [Course, ← matchedOf, hfirst] at hcourse
      rw [resolve, Logged.result_bind, hcourse f (by rwa [hknown])]
      rfl

theorem failure_iff_offence :
    (∃ f, (resolve o files).result = .error f ∧ f.kind? ≠ some .insufficientConstants) ↔
      ∃ before spec after, matchedOf o.type files = before ++ spec :: after ∧
        offends (declared before) spec = true := by
  rcases clean_or_fails o files with hclean | ⟨before, spec, after, f, hspecs, hoffends, hkind, hf⟩
  · constructor
    · rintro ⟨f, hf, hkind⟩
      obtain ⟨t, _, hresult⟩ := resolve_of_clean hclean
      rw [hresult] at hf
      split at hf
      · cases hf
        exact absurd rfl hkind
      · cases hf
    · rintro ⟨before, spec, after, hspecs, hoffends⟩
      rw [hclean before spec after hspecs] at hoffends
      cases hoffends
  · refine ⟨fun _ => ⟨before, spec, after, hspecs, hoffends⟩, fun _ => ⟨f, hf, ?_⟩⟩
    rw [hkind]
    exact fun h => offenceKind_ne_insufficient _ _ (Option.some.inj h)

theorem insufficient_iff_discarded (h : Clean (matchedOf o.type files)) :
    (∃ f, (resolve o files).result = .error f ∧ f.kind? = some .insufficientConstants) ↔
      ∀ spec ∈ matchedOf o.type files, spec.names.map (·.name) = [discardName] := by
  obtain ⟨t, hempty, hresult⟩ := resolve_of_clean h
  rw [← declared_eq_nil h, ← List.isEmpty_iff, ← hempty, hresult]
  cases t.isEmpty with
  | true => exact ⟨fun _ => rfl, fun _ => ⟨_, rfl, rfl⟩⟩
  | false =>
      constructor
      · rintro ⟨f, hf, _⟩
        cases hf
      · intro hfalse
        cases hfalse

/-- More files add to the end of the table, and change only what they declare. -/
theorem resolve_append {more : List SourceFile} {t u : Table}
    (ht : (resolve o files).result = .ok t) (hu : (resolve o (files ++ more)).result = .ok u) :
    t.names <+: u.names ∧
      ∀ name, name ∉ declared (matchedOf o.type more) → u.AgreeAt t name := by
  have hmore := (resolve_eq_ok.1 hu).1
  rw [List.flatMap_append, foldlM_append_result, (resolve_eq_ok.1 ht).1, ok_bind] at hmore
  obtain ⟨entries, hnames, rfl, _⟩ := blocks_adds hmore
  refine ⟨Table.names_recordAll t entries, fun name hname => ?_⟩
  exact Table.recordAll_agreeAt t fun hmem => hname ((hnames name).1 hmem)

theorem mem_names_of_resolve {t : Table} (h : (resolve o files).result = .ok t) (name : String) :
    name ∈ t.names ↔ name ∈ declared (matchedOf o.type files) := by
  have hknows := knows_of_adds (blocks_adds (resolve_eq_ok.1 h).1) knows_empty name
  rw [(Table.coherent_of_resolve h).values, ← Table.contains, hknows, List.nil_append,
    List.contains_iff_mem, matchedOf]

/-- A run fails for another reason than finding too little just when a specification offends, by
what those before it declare. The first that does makes the failure, which has its kind and its
place and is the same whatever follows. Without an offence too little is found just when all
constants are discarded. A table has the names that are declared, and further files add theirs after
them and leave the entries alone that they do not declare again. -/
theorem first_offence_decides (o : Options) :
    (∀ files : List SourceFile,
      (∃ f, (resolve o files).result = .error f ∧ f.kind? ≠ some .insufficientConstants) ↔
        ∃ before spec after, matchedOf o.type files = before ++ spec :: after ∧
          offends (declared before) spec = true) ∧
    (∀ before spec, Clean before → offends (declared before) spec = true →
      ∃ f : Failure, f.kind? = some (offenceKind (declared before) spec) ∧
        f.span? = some spec.span ∧
        ∀ files after, matchedOf o.type files = before ++ spec :: after →
          (resolve o files).result = .error f) ∧
    (∀ files : List SourceFile, Clean (matchedOf o.type files) →
      ((∃ f, (resolve o files).result = .error f ∧ f.kind? = some .insufficientConstants) ↔
        ∀ spec ∈ matchedOf o.type files, spec.names.map (·.name) = [discardName])) ∧
    (∀ (files : List SourceFile) (t : Table), (resolve o files).result = .ok t →
      (∀ name, name ∈ t.names ↔ name ∈ declared (matchedOf o.type files)) ∧
      ∀ (more : List SourceFile) (u : Table), (resolve o (files ++ more)).result = .ok u →
        t.names <+: u.names ∧
          ∀ name, name ∉ declared (matchedOf o.type more) →
            u.value? name = t.value? name ∧ u.display? name = t.display? name) := by
  refine ⟨fun files => failure_iff_offence, fun before spec hclean hoffends => ?_,
    fun files hclean => insufficient_iff_discarded hclean, fun files t ht => ?_⟩
  · obtain ⟨f, hkind, hspan, hrefuses⟩ := refuses_of_offends o hoffends
    exact ⟨f, hkind, hspan, fun files after hspecs =>
      resolve_of_offence hspecs hclean hoffends hrefuses⟩
  · refine ⟨mem_names_of_resolve ht, fun more u hu => ?_⟩
    obtain ⟨hnames, hagree⟩ := resolve_append ht hu
    exact ⟨hnames, fun name hname => ⟨(hagree name hname).value, (hagree name hname).display⟩⟩

def fileOfT (specs : List (String × Expr)) : SourceFile :=
  { package := "p"
    decls := [.consts (specs.map fun s =>
      { names := [{ name := s.1 }], type := some (.ident { name := "T" }), values := [s.2] })
      true {}] }

/-- After `A` and in any company, a constant that refers to `C` fails as unresolved; a file that
only discards finds too little; and the constants of a second file come after those of the first. -/
theorem missing_reference_decides :
    (∃ f : Failure, f.kind? = some .unresolvedReference ∧ f.span? = some (.ofLoc {}) ∧
      ∀ others, (resolve { type := "T" }
        (fileOfT [("A", .int "1" {}), ("B", .ident { name := "C" })] :: others)).result =
          .error f) ∧
    (∃ f, (resolve { type := "T" } [fileOfT [("_", .int "1" {})]]).result = .error f ∧
      f.kind? = some .insufficientConstants) ∧
    ∃ t u, (resolve { type := "T" } [fileOfT [("A", .int "1" {})]]).result = .ok t ∧
      (resolve { type := "T" }
        [fileOfT [("A", .int "1" {})], fileOfT [("B", .int "2" {})]]).result = .ok u ∧
      t.names <+: u.names ∧ u.value? "A" = t.value? "A" := by
  obtain ⟨_, hfirst, hnone, hmore⟩ := first_offence_decides { type := "T" }
  refine ⟨?_, ?_, ?_⟩
  · obtain ⟨f, hkind, hspan, hf⟩ := hfirst
      [{ names := [{ name := "A" }], type := some (.ident { name := "T" }),
         values := [.int "1" {}] }]
      { names := [{ name := "B" }], type := some (.ident { name := "T" }),
        values := [.ident { name := "C" }] }
      (firstOffence?_eq_none.1 (by decide +kernel)) (by decide +kernel)
    exact ⟨f, hkind, hspan, fun others => hf _ (matchedOf "T" others) rfl⟩
  · exact (hnone [fileOfT [("_", .int "1" {})]]
      (firstOffence?_eq_none.1 (by decide +kernel))).2 (by decide +kernel)
  · obtain ⟨t, ht⟩ := exists_of_isOk
      (show (resolve { type := "T" } [fileOfT [("A", .int "1" {})]]).result.isOk = true
        by decide +kernel)
    obtain ⟨u, hu⟩ := exists_of_isOk
      (show (resolve { type := "T" }
        [fileOfT [("A", .int "1" {})], fileOfT [("B", .int "2" {})]]).result.isOk = true
        by decide +kernel)
    obtain ⟨hnames, hkeeps⟩ := (hmore _ t ht).2 [fileOfT [("B", .int "2" {})]] u hu
    exact ⟨t, u, ht, hu, hnames, (hkeeps "A" (by decide +kernel)).1⟩

/-- To the right of a sign `iota` is a name like any other. Were it always known, `iota + iota`
would be no offence, and yet it makes a run fail. -/
theorem iota_not_always_known :
    ¬ ∀ files : List SourceFile,
      (∃ f, (resolve { type := "T" } files).result = .error f ∧
        f.kind? ≠ some .insufficientConstants) ↔
        ∃ before spec after, matchedOf "T" files = before ++ spec :: after ∧
          offends (iotaName :: declared before) spec = true := by
  intro h
  have hfails := (h [fileOfT
    [("A", .binary "+" (.ident { name := iotaName }) (.ident { name := iotaName }) {})]]).1
    ⟨_, rfl, by decide⟩
  obtain ⟨before, spec, after, hspecs, hoffends⟩ := hfails
  cases before with
  | nil =>
      cases hspecs
      exact absurd hoffends (by decide +kernel)
  | cons head before =>
      have hlength := congrArg List.length (List.cons.inj hspecs).2
      simp at hlength

end EnumNames
