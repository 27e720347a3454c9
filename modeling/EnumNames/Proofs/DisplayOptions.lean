import EnumNames.Proofs.FileRows
import EnumNames.Proofs.TableRecords

/-!
Display options and comments. They have no part in which constants there are or in
their values: two runs that differ in nothing else fail alike or find the same
names and values, and the files that they generate have the same guard, the same
receiver and the same cases, and list the same constants in some order.
-/

namespace EnumNames

/-! ## Forgetting comments and display texts -/

def ConstSpec.uncommented (s : ConstSpec) : ConstSpec := { s with comment := none }

def Decl.uncommented : Decl → Decl
  | .consts specs grouped loc => .consts (specs.map (·.uncommented)) grouped loc
  | d => d

def SourceFile.uncommented (f : SourceFile) : SourceFile :=
  { f with decls := f.decls.map (·.uncommented) }

theorem SourceFile.constBlocks_uncommented (f : SourceFile) :
    f.uncommented.constBlocks = f.constBlocks.map (List.map ConstSpec.uncommented) := by
  rw [constBlocks, uncommented, List.filterMap_map, constBlocks, List.map_filterMap]
  refine List.filterMap_congr fun d _ => ?_
  cases d with
  | types specs grouped loc | consts specs grouped loc | other keyword text loc => rfl

theorem flatMap_constBlocks_uncommented (files : List SourceFile) :
    (files.map (·.uncommented)).flatMap (·.constBlocks) =
      (files.flatMap (·.constBlocks)).map (List.map ConstSpec.uncommented) := by
  rw [List.flatMap_map, List.map_flatMap]
  simp only [SourceFile.constBlocks_uncommented]

def Table.bare (t : Table) : Table :=
  { t with displays := t.displays.map fun entry => (entry.1, "") }

def Record.bare (r : Record) : Record := { r with display := "" }

namespace Table

theorem isEmpty_bare (t : Table) : t.bare.isEmpty = t.isEmpty := by
  simp [isEmpty, bare]

theorem bare_bare (t : Table) : t.bare.bare = t.bare := by
  simp [bare, Function.comp_def]

theorem record_bare (t : Table) (name : String) (value : Int) (display : String) :
    (t.record name value display).bare = t.bare.record name value "" := rfl

theorem display?_bare (t : Table) (name : String) : (t.bare.display? name).getD "" = "" := by
  have hlookup : ∀ entries : List (String × String),
      ((entries.map fun entry => (entry.1, "")).lookup name).getD "" = "" := by
    intro entries
    induction entries with
    | nil => rfl
    | cons entry entries ih =>
        rw [List.map_cons, lookup_cons_ite]
        split
        · rfl
        · exact ih
  exact hlookup t.displays

theorem recordsFrom_bare (t : Table) (order : Nat) (names : List String) :
    t.bare.recordsFrom order names = (t.recordsFrom order names).map Record.bare := by
  induction names generalizing order with
  | nil => rfl
  | cons name names ih =>
      rw [recordsFrom, recordsFrom, List.map_cons, ih, display?_bare]
      rfl

theorem records_bare (t : Table) : t.bare.records = t.records.map Record.bare :=
  recordsFrom_bare t 0 t.names

end Table

/-! ## Two runs -/

namespace Resolve

def State.bare (s : State) : State := { s with table := s.table.bare }

/-- Values are computed without display texts. -/
theorem specValue_bare (t : Table) (counter : Counter) (name : String) (values : List Expr) :
    specValue t.bare counter name values = specValue t counter name values := rfl

theorem define_bare (o : Options) (s : State) (spec : ConstSpec) (name : String) :
    (define o s spec name).result.map State.bare =
      (define { type := o.type } s.bare spec.uncommented name).result.map State.bare := by
  have hvalue : specValue s.bare.table s.bare.counter name spec.uncommented.values =
      specValue s.table s.counter name spec.values := specValue_bare ..
  cases hv : specValue s.table s.counter name spec.values with
  | error cause =>
      simp only [define, hv, hvalue]
      rfl
  | ok r =>
      obtain ⟨value, counter⟩ := r
      rw [(Folding.define_of_value hv).1, (Folding.define_of_value (hvalue.trans hv)).1]
      by_cases hd : name = discardName
      · simp only [if_pos hd, Except.map, State.bare, Table.bare_bare]
      · simp only [if_neg hd, Except.map, State.bare, Table.record_bare, Table.bare_bare]

theorem step_bare (o : Options) (s : State) (spec : ConstSpec) :
    (step o s spec).result.map State.bare =
      (step { type := o.type } s.bare spec.uncommented).result.map State.bare := by
  have hbelongs : belongs o.type s.bare.belongs spec.uncommented = belongs o.type s.belongs spec :=
    rfl
  rw [step, step, hbelongs]
  split
  · cases hnames : spec.names with
    | nil =>
        simp only [ConstSpec.uncommented, hnames]
        rfl
    | cons id ids =>
        cases ids with
        | nil =>
            simp only [ConstSpec.uncommented, hnames]
            exact define_bare o s spec id.name
        | cons id' ids =>
            simp only [ConstSpec.uncommented, hnames]
            rfl
  · simp only [Logged.result_pure, Except.map, State.bare, Table.bare_bare]

theorem step_agree {o₁ o₂ : Options} (ho : o₁.type = o₂.type) (s t : State) (a b : ConstSpec)
    (hst : s.bare = t.bare) (hab : a.uncommented = b.uncommented) :
    (step o₁ s a).result.map State.bare = (step o₂ t b).result.map State.bare := by
  rw [step_bare, step_bare o₂, ho, hst, hab]

theorem block_agree {o₁ o₂ : Options} (ho : o₁.type = o₂.type) (t t' : Table)
    (specs specs' : List ConstSpec) (ht : t.bare = t'.bare)
    (hspecs : specs.map ConstSpec.uncommented = specs'.map ConstSpec.uncommented) :
    (block o₁ t specs).result.map Table.bare = (block o₂ t' specs').result.map Table.bare := by
  have hstart : State.bare { table := t } = State.bare { table := t' } := by
    rw [State.bare, State.bare, ht]
  have hsteps := Logged.foldlM_agree (step_agree ho) hspecs hstart
  rw [block, block, Logged.result_bind, Logged.result_bind]
  exact bind_agree hsteps fun s s' h => congrArg (fun s : State => Except.ok s.table) h

end Resolve

/-- Two runs find the same names and values, or fail alike. -/
theorem resolve_agree {o₁ o₂ : Options} {files₁ files₂ : List SourceFile}
    (ho : o₁.type = o₂.type)
    (hfiles : files₁.map SourceFile.uncommented = files₂.map SourceFile.uncommented) :
    (resolve o₁ files₁).result.map Table.bare = (resolve o₂ files₂).result.map Table.bare := by
  have hblocks : (files₁.flatMap (·.constBlocks)).map (List.map ConstSpec.uncommented) =
      (files₂.flatMap (·.constBlocks)).map (List.map ConstSpec.uncommented) := by
    rw [← flatMap_constBlocks_uncommented, hfiles, flatMap_constBlocks_uncommented]
  have hrun := Logged.foldlM_agree (Resolve.block_agree ho) hblocks (s := {}) (t := {}) rfl
  rw [resolve, resolve, Logged.result_bind, Logged.result_bind]
  refine bind_agree hrun fun t t' h => ?_
  rw [← Table.isEmpty_bare t, ← Table.isEmpty_bare t', h, ho]
  split
  · rfl
  · exact congrArg Except.ok h

/-! ## Two files -/

namespace Artifact

/-- The files of two tables have the same guard, methods of one receiver with the same labels,
and slices that list the same constants in some order. -/
def SameButTexts (o₁ o₂ : Options) (package : String) (t₁ t₂ : Table) (code₁ code₂ : String) :
    Prop :=
  ∃ (name : String) (guardLines mapLines₁ mapLines₂ : List String),
    code₁ = stacked (fileRows o₁ package name t₁.records guardLines mapLines₁) ∧
    code₂ = stacked (fileRows o₂ package name t₂.records guardLines mapLines₂) ∧
    (method o₁.type name t₁.records).clauses.map (·.label) =
      (method o₂.type name t₂.records).clauses.map (·.label) ∧
    ((ordered t₁.records).map (·.name)).Perm ((ordered t₂.records).map (·.name))

theorem firstPerValue_bare (seen : List Int) (records : List Record) :
    firstPerValue seen (records.map Record.bare) =
      (firstPerValue seen records).map Record.bare := by
  induction records generalizing seen with
  | nil => rfl
  | cons r records ih =>
      rw [List.map_cons, firstPerValue, firstPerValue, ih, ih]
      show (if seen.contains r.value then _ else _) = _
      split
      · rfl
      · rfl

variable {t₁ t₂ : Table}

theorem map_name_cases (h : t₁.bare = t₂.bare) :
    (cases t₁.records).map (·.name) = (cases t₂.records).map (·.name) := by
  have hbare : (cases t₁.records).map Record.bare = (cases t₂.records).map Record.bare := by
    rw [cases, cases, ← firstPerValue_bare, ← firstPerValue_bare, ← Table.records_bare,
      ← Table.records_bare, h]
  have hnames := congrArg (List.map (·.name)) hbare
  rwa [List.map_map, List.map_map] at hnames

theorem map_name_ordered (h : t₁.bare = t₂.bare) :
    ((ordered t₁.records).map (·.name)).Perm ((ordered t₂.records).map (·.name)) := by
  have h₁ := (ordered_perm_cases t₁.records).map (·.name)
  have h₂ := (ordered_perm_cases t₂.records).map (·.name)
  rw [map_name_cases h] at h₁
  exact h₁.trans h₂.symm

theorem receiver_agree (h : t₁.bare = t₂.bare) : receiver t₁ = receiver t₂ := by
  have hbare : ∀ t : Table, receiver t.bare = receiver t := fun _ => rfl
  rw [← hbare t₁, h, hbare t₂]

theorem mapM_guardLine (h : t₁.bare = t₂.bare) :
    t₁.records.mapM guardLine = t₂.records.mapM guardLine := by
  have hbare : ∀ t : Table, t.bare.records.mapM guardLine = t.records.mapM guardLine := by
    intro t
    rw [Table.records_bare, List.mapM_map]
    rfl
  rw [← hbare t₁, h, hbare t₂]

/-- Once the guard can be written, so can the map: they hold the same numbers. -/
theorem exists_mapLines {records : List Record} {guardLines : List String} (width : Nat)
    (h : records.mapM guardLine = .ok guardLines) :
    ∃ mapLines, records.mapM (mapLine width) = .ok mapLines := by
  refine mapM_ok fun r hr => ?_
  obtain ⟨line, _, hline⟩ := ok_of_mem_mapM h hr
  obtain ⟨value, hvalue, _⟩ := ok_of_bind hline
  exact ⟨_, by rw [mapLine, hvalue]; rfl⟩

theorem exists_code (o : Options) (package : String) {t : Table} {name : String}
    {guardLines : List String} (hreceiver : receiver t = .ok name)
    (hguard : t.records.mapM guardLine = .ok guardLines) :
    ∃ code, Artifact.code o package t = .ok code := by
  obtain ⟨mapLines, hmap⟩ := exists_mapLines (keyWidth t.records) hguard
  rw [Artifact.code, hreceiver, hguard, hmap]
  exact ⟨_, rfl⟩

theorem sameButTexts_of_code {o₁ o₂ : Options} {package code₁ code₂ : String}
    (h : t₁.bare = t₂.bare) (h₁ : Artifact.code o₁ package t₁ = .ok code₁)
    (h₂ : Artifact.code o₂ package t₂ = .ok code₂) :
    SameButTexts o₁ o₂ package t₁ t₂ code₁ code₂ := by
  obtain ⟨name₁, guardLines₁, mapLines₁, hname₁, hguard₁, _, hrows₁⟩ := rows_of_code h₁
  obtain ⟨name₂, guardLines₂, mapLines₂, hname₂, hguard₂, _, hrows₂⟩ := rows_of_code h₂
  obtain rfl : name₁ = name₂ :=
    Except.ok.inj (hname₁.symm.trans ((receiver_agree h).trans hname₂))
  obtain rfl : guardLines₁ = guardLines₂ :=
    Except.ok.inj (hguard₁.symm.trans ((mapM_guardLine h).trans hguard₂))
  have hlabels : ∀ (type : String) (t : Table),
      (method type name₁ t.records).clauses.map (·.label) = (cases t.records).map (·.name) := by
    intro type t
    rw [method, List.map_map]
    rfl
  refine ⟨name₁, guardLines₁, mapLines₁, mapLines₂, hrows₁, hrows₂, ?_, map_name_ordered h⟩
  rw [hlabels, hlabels, map_name_cases h]

/-- Tables that differ in display texts only make the same failure or similar files. -/
theorem code_agree (o₁ o₂ : Options) (package : String) (h : t₁.bare = t₂.bare) :
    (∃ failure, Artifact.code o₁ package t₁ = .error failure ∧
      Artifact.code o₂ package t₂ = .error failure) ∨
    ∃ code₁ code₂, Artifact.code o₁ package t₁ = .ok code₁ ∧
      Artifact.code o₂ package t₂ = .ok code₂ ∧ SameButTexts o₁ o₂ package t₁ t₂ code₁ code₂ := by
  have hreceiver := receiver_agree h
  have hguard := mapM_guardLine h
  cases hr : receiver t₂ with
  | error cause =>
      rw [hr] at hreceiver
      refine .inl ⟨.diagnostic { cause }, ?_, ?_⟩
      · rw [Artifact.code, hreceiver]
        rfl
      · rw [Artifact.code, hr]
        rfl
  | ok name =>
      rw [hr] at hreceiver
      cases hg : t₂.records.mapM guardLine with
      | error fault =>
          rw [hg] at hguard
          refine .inl ⟨.numeral fault, ?_, ?_⟩
          · rw [Artifact.code, hreceiver, hguard]
            rfl
          · rw [Artifact.code, hr, hg]
            rfl
      | ok guardLines =>
          rw [hg] at hguard
          obtain ⟨code₁, h₁⟩ := exists_code o₁ package hreceiver hguard
          obtain ⟨code₂, h₂⟩ := exists_code o₂ package hr hg
          exact .inr ⟨code₁, code₂, h₁, h₂, sameButTexts_of_code h h₁ h₂⟩

end Artifact

/-- Display options and comments change display texts only: two runs for one type over files
that agree up to comments fail alike, or find the same names with the same values, and then
either no file can be generated, for the same reason, or the files agree but for their texts. -/
theorem display_options_inert (o₁ o₂ : Options) (files₁ files₂ : List SourceFile)
    (htype : o₁.type = o₂.type)
    (hfiles : files₁.map SourceFile.uncommented = files₂.map SourceFile.uncommented) :
    (∃ failure, (resolve o₁ files₁).result = .error failure ∧
      (resolve o₂ files₂).result = .error failure) ∨
    ∃ t₁ t₂, (resolve o₁ files₁).result = .ok t₁ ∧ (resolve o₂ files₂).result = .ok t₂ ∧
      t₁.names = t₂.names ∧ (∀ name, t₁.value? name = t₂.value? name) ∧
      ∀ package, (∃ failure, (generate o₁ package t₁).result = .error failure ∧
          (generate o₂ package t₂).result = .error failure) ∨
        ∃ code₁ code₂, (generate o₁ package t₁).result = .ok code₁ ∧
          (generate o₂ package t₂).result = .ok code₂ ∧
          Artifact.SameButTexts o₁ o₂ package t₁ t₂ code₁ code₂ := by
  rcases cases_of_map_eq (resolve_agree htype hfiles) with ⟨failure, h₁, h₂⟩ | ⟨t₁, t₂, h₁, h₂, h⟩
  · exact .inl ⟨failure, h₁, h₂⟩
  · have hnames : t₁.bare.names = t₂.bare.names := congrArg Table.names h
    have hvalues : t₁.bare.values = t₂.bare.values := congrArg Table.values h
    refine .inr ⟨t₁, t₂, h₁, h₂, hnames, fun name => ?_, fun package => ?_⟩
    · exact congrArg (fun entries : List (String × Int) => entries.lookup name) hvalues
    · rw [result_generate, result_generate]
      exact Artifact.code_agree o₁ o₂ package h

def kindFile (first second : Option String) : SourceFile :=
  let a : ConstSpec :=
    { names := [⟨"KindA", {}⟩], type := some (.ident ⟨"T", {}⟩), values := [.ident ⟨"iota", {}⟩]
      comment := first }
  { package := "p", decls := [.consts [a, { names := [⟨"KindB", {}⟩], comment := second }] true {}] }

def kindTable (first second : String) : Table :=
  { names := ["KindA", "KindB"]
    values := [("KindB", 1), ("KindA", 0)]
    displays := [("KindB", second), ("KindA", first)] }

def notedOptions : Options := { type := "T", lineComment := true, sliceName := "S" }

def plainOptions : Options := { type := "T", trimPrefix := "Kind", sliceName := "S" }

/-- The comments put the constants in the other order in the slice. -/
theorem noted_options_inert :
    (resolve notedOptions [kindFile (some "z") (some "a")]).result = .ok (kindTable "z" "a") ∧
    (resolve plainOptions [kindFile none none]).result = .ok (kindTable "A" "B") ∧
    ∃ code₁ code₂, (generate notedOptions "p" (kindTable "z" "a")).result = .ok code₁ ∧
      (generate plainOptions "p" (kindTable "A" "B")).result = .ok code₂ ∧
      Artifact.SameButTexts notedOptions plainOptions "p" (kindTable "z" "a")
        (kindTable "A" "B") code₁ code₂ := by
  have hnoted : (resolve notedOptions [kindFile (some "z") (some "a")]).result =
      .ok (kindTable "z" "a") := by
    decide +kernel
  have hplain : (resolve plainOptions [kindFile none none]).result = .ok (kindTable "A" "B") := by
    decide +kernel
  have hok : (generate notedOptions "p" (kindTable "z" "a")).result.isOk = true := by
    decide +kernel
  obtain ⟨code, hcode⟩ := exists_of_isOk hok
  refine ⟨hnoted, hplain, ?_⟩
  have hruns := display_options_inert notedOptions plainOptions
    [kindFile (some "z") (some "a")] [kindFile none none] rfl rfl
  rw [hnoted, hplain] at hruns
  rcases hruns with ⟨_, hfail, _⟩ | ⟨t₁, t₂, h₁, h₂, _, _, hfiles⟩
  · cases hfail
  · obtain rfl := Except.ok.inj h₁
    obtain rfl := Except.ok.inj h₂
    rcases hfiles "p" with ⟨_, hfail, _⟩ | hcodes
    · rw [hcode] at hfail
      cases hfail
    · exact hcodes

end EnumNames
