import EnumNames.Proofs.OtherTypes
import EnumNames.Proofs.TableRecords

/-!
What a block does to a table. It adds entries, one for each constant that belongs
to the type and is not discarded. Which entries they are depends on the table only
through the names that values refer to, and no other name is touched.
-/

namespace EnumNames

structure Entry where
  name : String
  value : Int
  display : String
  deriving DecidableEq, Repr

namespace Table

variable {t u : Table} {entries : List Entry} {name : String}

def recordAll (t : Table) (entries : List Entry) : Table :=
  entries.foldl (fun t e => t.record e.name e.value e.display) t

@[simp] theorem recordAll_nil (t : Table) : t.recordAll [] = t := rfl

@[simp] theorem recordAll_cons (t : Table) (e : Entry) (entries : List Entry) :
    t.recordAll (e :: entries) = (t.record e.name e.value e.display).recordAll entries := rfl

theorem recordAll_append (t : Table) (entries more : List Entry) :
    t.recordAll (entries ++ more) = (t.recordAll entries).recordAll more :=
  List.foldl_append

structure AgreeAt (t u : Table) (name : String) : Prop where
  value : t.value? name = u.value? name
  display : t.display? name = u.display? name

theorem AgreeAt.symm (h : t.AgreeAt u name) : u.AgreeAt t name := ⟨h.value.symm, h.display.symm⟩

theorem AgreeAt.trans {v : Table} (h : t.AgreeAt u name) (h' : u.AgreeAt v name) :
    t.AgreeAt v name :=
  ⟨h.value.trans h'.value, h.display.trans h'.display⟩

/-- The same record makes tables agree at its name, and at any other name where they did. -/
theorem agreeAt_record (e : Entry) (h : name = e.name ∨ t.AgreeAt u name) :
    (t.record e.name e.value e.display).AgreeAt (u.record e.name e.value e.display) name := by
  refine ⟨?_, ?_⟩
  · rw [value?_record, value?_record]
    split
    · rfl
    · next hne => exact (h.resolve_left hne).value
  · rw [display?_record, display?_record]
    split
    · rfl
    · next hne => exact (h.resolve_left hne).display

theorem agreeAt_recordAll (entries : List Entry)
    (h : name ∈ entries.map (·.name) ∨ t.AgreeAt u name) :
    (t.recordAll entries).AgreeAt (u.recordAll entries) name := by
  induction entries generalizing t u with
  | nil => exact h.resolve_left List.not_mem_nil
  | cons e entries ih =>
      apply ih
      rw [List.map_cons, List.mem_cons, or_assoc] at h
      rcases h with hname | hmem | hagree
      · exact .inr (agreeAt_record e (.inl hname))
      · exact .inl hmem
      · exact .inr (agreeAt_record e (.inr hagree))

theorem value?_recordAll_congr (entries : List Entry) (h : t.value? name = u.value? name) :
    (t.recordAll entries).value? name = (u.recordAll entries).value? name := by
  induction entries generalizing t u with
  | nil => exact h
  | cons e entries ih =>
      apply ih
      rw [value?_record, value?_record, h]

/-- Names without an entry keep what they have. -/
theorem recordAll_agreeAt (t : Table) (h : name ∉ entries.map (·.name)) :
    (t.recordAll entries).AgreeAt t name := by
  induction entries generalizing t with
  | nil => exact ⟨rfl, rfl⟩
  | cons e entries ih =>
      rw [List.map_cons, List.mem_cons, not_or] at h
      refine (ih _ h.2).trans ⟨?_, ?_⟩
      · rw [value?_record, if_neg h.1]
      · rw [display?_record, if_neg h.1]

/-- Entries for names that are not there yet go to the end. -/
theorem names_recordAll (t : Table) (entries : List Entry) :
    t.names <+: (t.recordAll entries).names := by
  induction entries generalizing t with
  | nil => exact List.prefix_refl _
  | cons e entries ih =>
      refine List.IsPrefix.trans ?_ (ih _)
      simp only [record]
      split
      · exact List.prefix_refl _
      · exact List.prefix_append ..

theorem contains_recordAll (t : Table) (entries : List Entry) (name : String) :
    (t.recordAll entries).contains name = true ↔
      t.contains name = true ∨ name ∈ entries.map (·.name) := by
  induction entries generalizing t with
  | nil => simp
  | cons e entries ih =>
      rw [recordAll_cons, ih, List.map_cons, List.mem_cons, contains, value?_record, ← or_assoc]
      by_cases hname : name = e.name
      · simp [hname]
      · simp [hname, contains]

theorem isEmpty_recordAll (t : Table) (entries : List Entry) :
    (t.recordAll entries).isEmpty = (t.isEmpty && entries.isEmpty) := by
  induction entries generalizing t with
  | nil => simp
  | cons e entries ih => rw [recordAll_cons, ih, List.isEmpty_cons, Bool.and_false]; rfl

end Table

/-! ## What specifications declare and refer to -/

namespace Folding

/-- The names that specifications declare, those for discarding left out. -/
def declared (specs : List ConstSpec) : List String :=
  (specs.flatMap fun s => s.names.map (·.name)).filter (· != discardName)

/-- The name whose value an expression is computed from. -/
def reference? : Expr → Option String
  | .ident id => if id.name = iotaName then none else some id.name
  | .binary _ left (.ident id) _ => if Resolve.isIota left then some id.name else none
  | _ => none

def referenceOf? : List Expr → Option String
  | [e] => reference? e
  | _ => none

def referenced (specs : List ConstSpec) : List String :=
  specs.filterMap fun s => referenceOf? s.values

def matchedIn (type : String) (blocks : List (List ConstSpec)) : List ConstSpec :=
  blocks.flatMap (matchedSpecs type)

theorem declared_cons (spec : ConstSpec) (specs : List ConstSpec) :
    declared (spec :: specs) = declared [spec] ++ declared specs := by
  simp [declared]

theorem declared_append (specs more : List ConstSpec) :
    declared (specs ++ more) = declared specs ++ declared more := by
  simp [declared]

theorem referenced_append (specs more : List ConstSpec) :
    referenced (specs ++ more) = referenced specs ++ referenced more :=
  List.filterMap_append

/-- From the table `t` a computation comes to `t'` by adding an entry for each name that some
specifications declare, and it adds the same entries to every table that agrees with `t` where they
refer to. What it ends with is made of the table by `close`. -/
def Adds {α : Type} (specs : List ConstSpec) (t t' : Table) (run : Table → Except Failure α)
    (close : Table → α) : Prop :=
  ∃ entries : List Entry,
    (∀ name, name ∈ entries.map (·.name) ↔ name ∈ declared specs) ∧
    t' = t.recordAll entries ∧
    ∀ u : Table, (∀ r ∈ referenced specs, t.value? r = u.value? r) →
      run u = .ok (close (u.recordAll entries))

theorem Adds.refl {α : Type} {t : Table} {run : Table → Except Failure α} {close : Table → α}
    (h : ∀ u, run u = .ok (close u)) : Adds [] t t run close :=
  ⟨[], by simp [declared], rfl, fun u _ => h u⟩

theorem Adds.trans {α β : Type} {specs more : List ConstSpec} {t t₁ t₂ : Table}
    {run : Table → Except Failure α} {close : Table → α} {next : α → Except Failure β}
    {close' : Table → β} (h : Adds specs t t₁ run close)
    (h' : Adds more t₁ t₂ (fun u => next (close u)) close') :
    Adds (specs ++ more) t t₂ (fun u => run u >>= next) close' := by
  obtain ⟨first, hfirst, rfl, hrun⟩ := h
  obtain ⟨rest, hrest, rfl, hnext⟩ := h'
  rw [Adds, declared_append, referenced_append]
  refine ⟨first ++ rest, fun name => ?_, (Table.recordAll_append ..).symm, fun u hu => ?_⟩
  · rw [List.map_append, List.mem_append, List.mem_append, hfirst, hrest]
  · rw [hrun u fun r hr => hu r (List.mem_append_left _ hr), ok_bind, Table.recordAll_append]
    -- Both tables have become longer by the same entries.
    exact hnext _ fun r hr =>
      Table.value?_recordAll_congr first (hu r (List.mem_append_right _ hr))

end Folding

namespace Resolve

open Folding

variable {o : Options} {s s' : State} {spec : ConstSpec} {t u : Table} {counter : Counter}

def State.defined (o : Options) (s : State) (spec : ConstSpec) (name : String) (value : Int)
    (counter : Counter) : State :=
  { table := if name = discardName then s.table
      else s.table.record name value (displayText o name spec.comment)
    counter
    belongs := true }

theorem step_of_value {id : Ident} {value : Int} (hb : belongs o.type s.belongs spec = true)
    (hid : spec.names = [id])
    (hv : specValue s.table s.counter id.name spec.values = .ok (value, counter)) :
    (step o s spec).result = .ok (s.defined o spec id.name value counter) := by
  rw [step, if_pos hb, hid]
  exact (define_of_value hv).1

theorem value_of_step (hb : belongs o.type s.belongs spec = true)
    (h : (step o s spec).result = .ok s') :
    ∃ (id : Ident) (value : Int) (counter : Counter), spec.names = [id] ∧
      specValue s.table s.counter id.name spec.values = .ok (value, counter) ∧
      s' = s.defined o spec id.name value counter := by
  rw [step, if_pos hb] at h
  split at h
  · next id hid =>
      cases hv : specValue s.table s.counter id.name spec.values with
      | error cause =>
          simp only [define, hv] at h
          cases h
      | ok r =>
          rw [(define_of_value hv).1] at h
          exact ⟨id, r.1, r.2, hid, hv, (Except.ok.inj h).symm⟩
  · cases h

/-- An expression is computed from the name that it refers to and from no other. -/
theorem exprValue_congr {name : String} {e : Expr}
    (h : ∀ r ∈ reference? e, t.value? r = u.value? r) :
    exprValue t counter name e = exprValue u counter name e := by
  cases e with
  | int _ _ | rune _ _ _ | verbatim _ _ | stray _ _ _ => rfl
  | ident id =>
      by_cases hi : id.name = iotaName
      · simp [exprValue, hi]
      · have hr := h id.name (by simp [reference?, hi])
        simp only [exprValue, referenceValue, hr]
  | binary op left right loc =>
      cases hleft : isIota left with
      | false => simp [exprValue, shift, hleft]
      | true =>
          cases right with
          | ident id =>
              have hr := h id.name (by simp [reference?, hleft])
              simp only [exprValue, shift, referenceValue, hr]
          | int _ _ | rune _ _ _ | binary _ _ _ _ | verbatim _ _ | stray _ _ _ => rfl

theorem specValue_congr {name : String} {values : List Expr}
    (h : ∀ r ∈ referenceOf? values, t.value? r = u.value? r) :
    specValue t counter name values = specValue u counter name values := by
  match values with
  | [] | _ :: _ :: _ => rfl
  | [e] => exact exprValue_congr h

theorem matchedAfter_cons (type : String) (before : Bool) (spec : ConstSpec)
    (specs : List ConstSpec) :
    matchedAfter type before (spec :: specs) =
      matchedAfter type before [spec] ++ matchedAfter type (belongs type before spec) specs := by
  rw [matchedAfter, matchedAfter]
  cases belongs type before spec <;> rfl

theorem step_adds (h : (step o s spec).result = .ok s') :
    Adds (matchedAfter o.type s.belongs [spec]) s.table s'.table
      (fun u => (step o { s with table := u } spec).result) fun u => { s' with table := u } := by
  rw [matchedAfter]
  cases hb : belongs o.type s.belongs spec with
  | false =>
      obtain rfl : { s with belongs := false } = s' := by
        rw [step, hb] at h
        exact Except.ok.inj h
      refine ⟨[], by simp [matchedAfter, declared], rfl, fun u _ => ?_⟩
      dsimp only
      rw [step, hb]
      rfl
  | true =>
      obtain ⟨id, value, counter, hid, hv, rfl⟩ := value_of_step hb h
      have hdefined : ∀ u : Table,
          (∀ r ∈ referenced [spec], s.table.value? r = u.value? r) →
          (step o { s with table := u } spec).result =
            .ok (State.defined o { s with table := u } spec id.name value counter) := by
        intro u hu
        refine step_of_value hb hid ?_
        rw [← hv]
        refine (specValue_congr fun r hr => hu r ?_).symm
        rw [Option.mem_def] at hr
        simp [referenced, hr]
      by_cases hd : id.name = discardName
      · refine ⟨[], by simp [matchedAfter, declared, hid, hd], by simp [State.defined, hd],
          fun u hu => ?_⟩
        simp [hdefined u hu, State.defined, hd]
      · refine ⟨[⟨id.name, value, displayText o id.name spec.comment⟩],
          by simp [matchedAfter, declared, hid, hd], by simp [State.defined, hd], fun u hu => ?_⟩
        simp [hdefined u hu, State.defined, hd]

theorem steps_adds {specs : List ConstSpec} (h : (specs.foldlM (step o) s).result = .ok s') :
    Adds (matchedAfter o.type s.belongs specs) s.table s'.table
      (fun u => (specs.foldlM (step o) { s with table := u }).result)
      fun u => { s' with table := u } := by
  induction specs generalizing s with
  | nil =>
      cases h
      exact .refl fun _ => rfl
  | cons spec specs ih =>
      rw [List.foldlM_cons] at h
      obtain ⟨s₁, h₁, h₂⟩ := Logged.ok_of_result_bind h
      rw [matchedAfter_cons, ← belongs_of_step h₁]
      simp only [List.foldlM_cons, Logged.result_bind]
      exact (step_adds h₁).trans (ih h₂)

theorem block_adds {specs : List ConstSpec} (h : (block o t specs).result = .ok u) :
    Adds (matchedSpecs o.type specs) t u (fun t => (block o t specs).result) id := by
  obtain ⟨s, hs, heq⟩ := Logged.ok_of_result_bind h
  cases heq
  obtain ⟨entries, hnames, htable, hrun⟩ := steps_adds hs
  rw [matchedSpecs_eq]
  refine ⟨entries, hnames, htable, fun u hu => ?_⟩
  have hsteps := hrun u hu
  dsimp only at hsteps ⊢
  rw [block, Logged.result_bind, hsteps]
  rfl

theorem blocks_adds {blocks : List (List ConstSpec)}
    (h : (blocks.foldlM (block o) t).result = .ok u) :
    Adds (matchedIn o.type blocks) t u (fun t => (blocks.foldlM (block o) t).result) id := by
  induction blocks generalizing t with
  | nil =>
      cases h
      exact .refl fun _ => rfl
  | cons specs blocks ih =>
      rw [List.foldlM_cons] at h
      obtain ⟨t₁, h₁, h₂⟩ := Logged.ok_of_result_bind h
      rw [matchedIn, List.flatMap_cons]
      simp only [List.foldlM_cons, Logged.result_bind]
      exact (block_adds h₁).trans (ih h₂)

theorem foldlM_append_result (a b : List (List ConstSpec)) (t : Table) :
    ((a ++ b).foldlM (block o) t).result =
      (a.foldlM (block o) t).result >>= fun t => (b.foldlM (block o) t).result := by
  induction a generalizing t with
  | nil => rfl
  | cons specs a ih =>
      rw [List.cons_append, List.foldlM_cons, List.foldlM_cons, Logged.result_bind,
        Logged.result_bind]
      cases (block o t specs).result with
      | error _ => rfl
      | ok t₁ => exact ih t₁

end Resolve

theorem resolve_eq_ok {o : Options} {files : List SourceFile} {table : Table} :
    (resolve o files).result = .ok table ↔
      ((files.flatMap (·.constBlocks)).foldlM (Resolve.block o) {}).result = .ok table ∧
        table.isEmpty = false := by
  constructor
  · intro h
    obtain ⟨t, ht, hrest⟩ := Logged.ok_of_result_bind h
    split at hrest
    · cases hrest
    · next hempty =>
        cases hrest
        exact ⟨ht, by simpa using hempty⟩
  · rintro ⟨hrun, hempty⟩
    rw [resolve, Logged.result_bind, hrun, ok_bind, hempty]
    rfl

end EnumNames
