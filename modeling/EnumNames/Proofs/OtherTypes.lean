import EnumNames.Proofs.DeclaredValues

/-!
Specifications of other types. A run passes over them without a trace: deleting
them, and all declarations that declare no constants, and dividing the rest
among files in another way gives the same events and the same table, or the same
failure at the same place.
-/

namespace EnumNames

open Resolve

namespace Folding

/-- The specifications of a block that belong to a type. -/
def matchedSpecs (type : String) (specs : List ConstSpec) : List ConstSpec :=
  (specs.zipIdx.filter fun p => matchedAt type specs p.2).map (·.1)

/-- The same for what follows in a block, when it is known whether the specification before it
belongs. -/
def matchedAfter (type : String) : Bool → List ConstSpec → List ConstSpec
  | _, [] => []
  | before, spec :: specs =>
      if belongs type before spec then spec :: matchedAfter type true specs
      else matchedAfter type false specs

theorem matchedAt_append (type : String) (done specs : List ConstSpec) (spec : ConstSpec) :
    matchedAt type (done ++ spec :: specs) done.length =
      matchedAt type (done ++ [spec]) done.length := by
  have hsplit : done ++ spec :: specs = (done ++ [spec]) ++ specs := by simp
  rw [matchedAt, matchedAt, hsplit, List.take_append_of_le_length (by simp)]

theorem matchedAfter_eq (type : String) (done specs : List ConstSpec) :
    ((specs.zipIdx done.length).filter fun p => matchedAt type (done ++ specs) p.2).map (·.1) =
      matchedAfter type (((done.filterMap (·.type)).getLast?).any (·.isNamed type)) specs := by
  induction specs generalizing done with
  | nil => rfl
  | cons spec specs ih =>
      have hspec := (matchedAt_append type done specs spec).trans (matchedAt_concat type done spec)
      have hlast : (((done ++ [spec]).filterMap (·.type)).getLast?).any (·.isNamed type) =
          belongs type (((done.filterMap (·.type)).getLast?).any (·.isNamed type)) spec := by
        rw [← matchedAt_concat, matchedAt, List.take_of_length_le (by simp)]
      have hrest := ih (done ++ [spec])
      rw [hlast, List.append_assoc, List.singleton_append, List.length_append,
        List.length_singleton] at hrest
      rw [List.zipIdx_cons, List.filter_cons, hspec, matchedAfter]
      split
      · next hb =>
          rw [hb] at hrest
          rw [List.map_cons, hrest]
      · next hb =>
          rw [Bool.eq_false_iff.2 hb] at hrest
          exact hrest

theorem matchedSpecs_eq (type : String) (specs : List ConstSpec) :
    matchedSpecs type specs = matchedAfter type false specs :=
  matchedAfter_eq type [] specs

end Folding

/-! ## Runs without them -/

namespace Resolve

variable {o : Options} {s t : State} {spec : ConstSpec}

theorem belongs_mono {type : String} {before after : Bool} (h : before = true → after = true)
    (hb : belongs type before spec = true) : belongs type after spec = true := by
  cases htype : spec.type with
  | none =>
      rw [belongs, htype] at hb ⊢
      exact h hb
  | some ref =>
      rw [belongs, htype] at hb ⊢
      exact hb

/-- Taking in a specification that belongs does not look at the one before it. -/
theorem step_of_belongs (htable : s.table = t.table) (hcounter : s.counter = t.counter)
    (hs : belongs o.type s.belongs spec = true) (ht : belongs o.type t.belongs spec = true) :
    step o s spec = step o t spec := by
  obtain ⟨table, counter, before⟩ := s
  obtain ⟨table', counter', before'⟩ := t
  obtain rfl : table = table' := htable
  obtain rfl : counter = counter' := hcounter
  rw [step, step, if_pos hs, if_pos ht]
  rfl

theorem belongs_of_step {s' : State} (h : (step o s spec).result = .ok s') :
    s'.belongs = belongs o.type s.belongs spec := by
  rcases Folding.cases_of_step h with ⟨hb, rfl⟩ | ⟨hb, id, value, counter, _, rfl⟩
  · rw [hb]
  · rw [hb]

/-- The run over a block and the run over what belongs in it stay together: whenever the first
would let a bare specification belong, so does the second. -/
theorem steps_matchedAfter (specs : List ConstSpec) (htable : s.table = t.table)
    (hcounter : s.counter = t.counter) (hb : s.belongs = true → t.belongs = true) :
    ((Folding.matchedAfter o.type s.belongs specs).foldlM (step o) t >>= fun s => pure s.table) =
      (specs.foldlM (step o) s >>= fun s => pure s.table) := by
  induction specs generalizing s t with
  | nil =>
      simp only [Folding.matchedAfter, List.foldlM_nil, Logged.pure_andThen, htable]
  | cons spec specs ih =>
      rw [Folding.matchedAfter]
      by_cases hspec : belongs o.type s.belongs spec = true
      · rw [if_pos hspec, List.foldlM_cons, List.foldlM_cons,
          step_of_belongs htable hcounter hspec (belongs_mono hb hspec), Logged.andThen_assoc,
          Logged.andThen_assoc]
        refine Logged.bind_congr_of_result fun s' hs' => ?_
        have hs : s'.belongs = true := by rw [belongs_of_step hs', belongs_mono hb hspec]
        have hrest := ih (s := s') (t := s') rfl rfl id
        rwa [hs] at hrest
      · have hskip : step o s spec = pure { s with belongs := false } := by
          rw [step, if_neg hspec]
        rw [if_neg hspec, List.foldlM_cons, hskip, Logged.pure_andThen]
        exact ih (s := { s with belongs := false }) htable hcounter (by simp)

theorem block_matchedSpecs (o : Options) (table : Table) (specs : List ConstSpec) :
    block o table (Folding.matchedSpecs o.type specs) = block o table specs := by
  rw [Folding.matchedSpecs_eq]
  exact steps_matchedAfter (s := { table }) (t := { table }) specs rfl rfl id

end Resolve

/-! ## Files without them -/

namespace Decl

def specs? : Decl → Option (List ConstSpec)
  | .consts specs .. => some specs
  | _ => none

/-- What a declaration has to do with a type: of constants those that belong to it, and of other
declarations nothing. -/
def restrict? (type : String) : Decl → Option Decl
  | .consts specs grouped loc => some (.consts (Folding.matchedSpecs type specs) grouped loc)
  | .types .. | .other .. => none

def isSolid : Decl → Bool
  | .consts [] .. => false
  | _ => true

end Decl

theorem constBlocks_flatMap (files : List SourceFile) :
    files.flatMap (·.constBlocks) = (files.flatMap (·.decls)).filterMap Decl.specs? := by
  have hfile : ∀ file : SourceFile, file.constBlocks = file.decls.filterMap Decl.specs? := by
    intro file
    refine List.filterMap_congr fun d _ => ?_
    cases d <;> rfl
  simp only [hfile, List.filterMap_flatMap]

variable {o : Options}

theorem foldlM_isSolid (decls : List Decl) (table : Table) :
    ((decls.filter Decl.isSolid).filterMap Decl.specs?).foldlM (Resolve.block o) table =
      (decls.filterMap Decl.specs?).foldlM (Resolve.block o) table := by
  induction decls generalizing table with
  | nil => rfl
  | cons d decls ih =>
      cases d with
      | types specs grouped loc | other keyword text loc => exact ih table
      | consts specs grouped loc =>
          cases specs with
          | nil =>
              -- An empty block ends as it starts.
              have hblock : Resolve.block o table [] = pure table := Logged.pure_andThen _ _
              simp only [List.filter_cons, Decl.isSolid, List.filterMap_cons, Decl.specs?,
                List.foldlM_cons, hblock, Logged.pure_andThen]
              exact ih table
          | cons spec specs =>
              simp only [List.filter_cons, Decl.isSolid, if_true, List.filterMap_cons, Decl.specs?,
                List.foldlM_cons, ih]

theorem foldlM_restrict (decls : List Decl) (table : Table) :
    ((decls.filterMap (Decl.restrict? o.type)).filterMap Decl.specs?).foldlM (Resolve.block o)
        table = (decls.filterMap Decl.specs?).foldlM (Resolve.block o) table := by
  induction decls generalizing table with
  | nil => rfl
  | cons d decls ih =>
      cases d with
      | types specs grouped loc | other keyword text loc => exact ih table
      | consts specs grouped loc =>
          simp only [List.filterMap_cons, Decl.restrict?, Decl.specs?, List.foldlM_cons,
            Resolve.block_matchedSpecs, ih]

/-- Only the specifications that belong to the type count. The files that are kept may divide the
declarations in any way, and leave out those that are left empty. -/
theorem resolve_kept (o : Options) (files kept : List SourceFile)
    (h : (kept.flatMap (·.decls)).filter Decl.isSolid =
      ((files.flatMap (·.decls)).filterMap (Decl.restrict? o.type)).filter Decl.isSolid) :
    resolve o kept = resolve o files := by
  have hrun : (kept.flatMap (·.constBlocks)).foldlM (Resolve.block o) {} =
      (files.flatMap (·.constBlocks)).foldlM (Resolve.block o) {} := by
    rw [constBlocks_flatMap, constBlocks_flatMap, ← foldlM_isSolid (kept.flatMap (·.decls)), h,
      foldlM_isSolid, foldlM_restrict]
  rw [resolve, resolve, hrun]

/-! ## Constants among those of another type -/

def namedSpec (name : String) (type : Option String) (values : List Expr) : ConstSpec :=
  { names := [⟨name, {}⟩], type := type.map fun t => .ident ⟨t, {}⟩, values }

def crowdedFiles : List SourceFile :=
  [{ package := "p"
     decls :=
      [.types [{ name := "T", type := .ident ⟨"int", {}⟩ }] false {},
       .consts
        [namedSpec "X" "U" [.ident ⟨iotaName, {}⟩], namedSpec "Y" none [],
         namedSpec "A" "T" [.ident ⟨iotaName, {}⟩], namedSpec "B" none []] true {}] },
   { package := "p"
     decls :=
      [.consts [namedSpec "Z" none [.int "3" {}]] false {},
       .other "var" "var v int" {},
       .consts
        [namedSpec "C" "T" [.ident ⟨"B", {}⟩], namedSpec "V" "U" [], namedSpec "W" none []]
        true {}] }]

def clearedFiles : List SourceFile :=
  [{ package := "q"
     decls :=
      [.consts [namedSpec "A" "T" [.ident ⟨iotaName, {}⟩], namedSpec "B" none []] true {},
       .consts [namedSpec "C" "T" [.ident ⟨"B", {}⟩]] true {}] }]

theorem resolve_cleared :
    (resolve { type := "T" } crowdedFiles).result = .ok
        { names := ["A", "B", "C"]
          values := [("C", 1), ("B", 1), ("A", 0)]
          displays := [("C", "C"), ("B", "B"), ("A", "A")] } ∧
      resolve { type := "T" } clearedFiles = resolve { type := "T" } crowdedFiles :=
  ⟨by decide +kernel, resolve_kept { type := "T" } crowdedFiles clearedFiles (by decide +kernel)⟩

end EnumNames
