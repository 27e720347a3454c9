import EnumNames.Proofs.DeclaredValues
import Mathlib.Data.List.Induction

/-!
The language's own rule for `iota` on regular blocks. The rule evaluates the
nearest expression at or before a specification with the index of the
specification for `iota`. Folding keeps a counter instead, which an offset moves
for good; the two agree because a regular block has nothing but bare
specifications after its offset.
-/

namespace EnumNames.IotaRule

/-! ## The rule -/

def lastExpression (specs : List ConstSpec) : Option Expr :=
  (specs.filterMap (·.values.head?)).getLast?

def amount (table : Table) : Expr → Option Int
  | .int text _ => (IntLiteral.value text).toOption
  | .ident id => table.value? id.name
  | _ => none

def evaluate (table : Table) (iota : Int) : Expr → Option Int
  | .ident id => if id.name = iotaName then some iota else table.value? id.name
  | .binary op left right _ =>
      match evaluate table iota left, amount table right with
      | some n, some k =>
          if op = "+" then some (n + k) else if op = "-" then some (n - k) else none
      | _, _ => none
  | e => amount table e

/-- The value of the specification at an index: its own expression or the nearest one before it,
with the index for `iota`. -/
def valueAt (table : Table) (specs : List ConstSpec) (index : Nat) : Option Int :=
  (lastExpression (specs.take (index + 1))).bind (evaluate table index)

/-! ## Regular blocks -/

def Bare (spec : ConstSpec) : Prop := spec.type = none ∧ spec.values = []

/-- A specification with the type written out and one value. -/
def Explicit (type : String) (spec : ConstSpec) : Prop :=
  (∃ t, spec.type = some t ∧ t.isNamed type = true) ∧ ∃ e, spec.values = [e]

/-- A sum or difference of `iota` and an amount. A name in it is not one of the block. -/
def IsOffset (table : Table) (specs : List ConstSpec) : Expr → Prop
  | .binary op left right _ =>
      (op = "+" ∨ op = "-") ∧ Resolve.isIota left = true ∧ (amount table right).isSome = true ∧
        ∀ id, right = .ident id → ∀ spec ∈ specs, id.name ∉ spec.names.map (·.name)
  | _ => False

/-- A block that counts: each value is `iota`, but one may be an offset from it, and then all
specifications after that one are bare. -/
structure Regular (type : String) (table : Table) (specs : List ConstSpec) : Prop where
  oneName : ∀ spec ∈ specs, ∃ id, spec.names = [id]
  first : ∃ spec rest, specs = spec :: rest ∧ Explicit type spec
  shape : ∀ spec ∈ specs, Bare spec ∨ Explicit type spec
  values : ∀ spec ∈ specs, ∀ e ∈ spec.values, Resolve.isIota e = true ∨ IsOffset table specs e
  afterOffset : specs.Pairwise fun spec next =>
    (∃ e ∈ spec.values, IsOffset table specs e) → Bare next

variable {type : String} {table : Table} {specs done rest : List ConstSpec} {spec : ConstSpec}

theorem Regular.ne_nil_of_bare (hr : Regular type table specs) (hs : specs = done ++ spec :: rest)
    (hbare : Bare spec) : done ≠ [] := by
  rintro rfl
  obtain ⟨first, others, hfirst, _, e, he⟩ := hr.first
  obtain ⟨rfl, _⟩ : first = spec ∧ others = rest := by simpa [hs] using hfirst.symm
  simp [hbare.2] at he

theorem Regular.bare_of_offset (hr : Regular type table specs) (hs : specs = done ++ spec :: rest)
    {e : Expr} (he : e ∈ spec.values) (hoffset : IsOffset table specs e) :
    ∀ next ∈ rest, Bare next := by
  intro next hnext
  have hp := hr.afterOffset
  rw [hs, List.pairwise_append, List.pairwise_cons] at hp
  exact hp.2.1.1 next hnext ⟨e, he, hs ▸ hoffset⟩

/-! ## Expressions -/

theorem lastExpression_concat (done : List ConstSpec) (spec : ConstSpec) :
    lastExpression (done ++ [spec]) = (spec.values.head?).or (lastExpression done) := by
  cases h : spec.values.head? with
  | none => simp [lastExpression, h]
  | some e => simp [lastExpression, h]

theorem valueAt_length (h : specs = done ++ spec :: rest) :
    valueAt table specs done.length =
      ((spec.values.head?).or (lastExpression done)).bind (evaluate table done.length) := by
  have ht : specs.take (done.length + 1) = done ++ [spec] := by
    rw [h, show done ++ spec :: rest = (done ++ [spec]) ++ rest by simp]
    exact List.take_left' (by simp)
  rw [valueAt, ht, lastExpression_concat]

theorem evaluate_iota {e : Expr} (h : Resolve.isIota e = true) (iota : Int) :
    evaluate table iota e = some iota := by
  cases e with
  | ident id =>
      have hi : id.name = iotaName := by simpa [Resolve.isIota] using h
      simp [evaluate, hi]
  | int _ _ | rune _ _ _ | binary _ _ _ _ | verbatim _ _ | stray _ _ _ => cases h

/-- Folding shifts by an amount, against its sign in a difference. -/
theorem shift_of_amount {op : String} {left right : Expr} {k : Int} (hop : op = "+" ∨ op = "-")
    (hleft : Resolve.isIota left = true) (hk : amount table right = some k) (name : String)
    (whole : Expr) :
    Resolve.shift table name op whole left right = .ok (if op = "-" then -k else k) := by
  cases right with
  | int text _ =>
      have hv : Resolve.literalValue name text = .ok k := by
        cases hn : IntLiteral.value text with
        | ok n =>
            delta Resolve.literalValue
            simpa [amount, hn, Except.toOption] using hk
        | error _ => simp [amount, hn, Except.toOption] at hk
      rcases hop with rfl | rfl <;> simp [Resolve.shift, hleft, hv]
  | ident id =>
      have hv : Resolve.referenceValue table name id.name = .ok k := by
        have hvalue : table.value? id.name = some k := hk
        simp [Resolve.referenceValue, hvalue]
      rcases hop with rfl | rfl <;> simp [Resolve.shift, hleft, hv]
  | rune _ _ _ | binary _ _ _ _ | verbatim _ _ | stray _ _ _ => cases hk

/-- An offset adds the same amount to every value of `iota`, and folding shifts the counter by
that amount, also when constants of the block have been recorded since. -/
theorem evaluate_offset {op : String} {left right : Expr} {loc : Loc}
    (h : IsOffset table specs (.binary op left right loc)) :
    ∃ k, (∀ iota, evaluate table iota (.binary op left right loc) = some (iota + k)) ∧
      ∀ table' : Table,
        (∀ name, (∀ spec ∈ specs, name ∉ spec.names.map (·.name)) →
          table'.value? name = table.value? name) →
        ∀ name whole, Resolve.shift table' name op whole left right = .ok k := by
  obtain ⟨hop, hleft, hright, houter⟩ := h
  obtain ⟨k, hk⟩ := Option.isSome_iff_exists.1 hright
  refine ⟨if op = "-" then -k else k, fun iota => ?_, fun table' htable name whole => ?_⟩
  · rcases hop with rfl | rfl
    · simp [evaluate, evaluate_iota hleft, hk]
    · simp [evaluate, evaluate_iota hleft, hk]
      omega
  · refine shift_of_amount hop hleft ?_ name whole
    cases right with
    | ident id => exact (htable id.name (houter id rfl)).trans hk
    | int _ _ | rune _ _ _ | binary _ _ _ _ | verbatim _ _ | stray _ _ _ => exact hk

/-! ## The counter -/

def lastDeclaring (specs : List ConstSpec) (name : String) : Option Nat :=
  ((specs.zipIdx.filter fun p =>
    p.1.names.map (·.name) == [name] && name != discardName).getLast?).map (·.2)

def valueAfter (table : Table) (specs done : List ConstSpec) (name : String) : Option Int :=
  match lastDeclaring done name with
  | some index => valueAt table specs index
  | none => table.value? name

theorem lastDeclaring_concat (done : List ConstSpec) (spec : ConstSpec) (name : String) :
    lastDeclaring (done ++ [spec]) name =
      if spec.names.map (·.name) = [name] ∧ name ≠ discardName then some done.length
      else lastDeclaring done name := by
  simp only [lastDeclaring, List.zipIdx_append, List.filter_append]
  by_cases h : spec.names.map (·.name) = [name] ∧ name ≠ discardName
  · simp [h.1, h.2]
  · rw [if_neg h]
    simp only [not_and_or, ne_eq, not_not] at h
    rcases h with h | h
    · simp [h]
    · simp [h]

theorem valueAfter_of_not_mem {name : String}
    (h : ∀ spec ∈ done, name ∉ spec.names.map (·.name)) :
    valueAfter table specs done name = table.value? name := by
  induction done using List.reverseRecOn with
  | nil => rfl
  | append_singleton done spec ih =>
      have hs : spec.names.map (·.name) ≠ [name] := by
        intro heq
        exact h spec (by simp) (by simp [heq])
      have hd := ih fun d hd => h d (by simp [hd])
      simpa [valueAfter, lastDeclaring_concat, hs] using hd

/-- After some specifications of a block the counter is ahead of the index by a shift, which is
the amount that the last expression adds. There is a shift only if nothing but bare specifications
follows. -/
structure Halfway (table : Table) (specs done rest : List ConstSpec) (s : Resolve.State)
    (shift : Int) : Prop where
  counter : s.counter.value = done.length + shift
  values : ∀ name, s.table.value? name = valueAfter table specs done name
  running : done ≠ [] → s.counter.active = true ∧ s.belongs = true ∧
    ∃ e, lastExpression done = some e ∧ ∀ iota, evaluate table iota e = some (iota + shift)
  bare : shift = 0 ∨ ∀ spec ∈ rest, Bare spec

variable {s : Resolve.State} {shift : Int}

/-- The next specification has the value of the rule, and the counter after it is ahead of the
next index by a shift again. -/
def Continues (table : Table) (specs done rest : List ConstSpec) (spec : ConstSpec)
    (s : Resolve.State) (name : String) : Prop :=
  ∃ value counter shift',
    Resolve.specValue s.table s.counter name spec.values = .ok (value, counter) ∧
    valueAt table specs done.length = some value ∧
    counter.value = done.length + 1 + shift' ∧ counter.active = true ∧
    (∃ e, lastExpression (done ++ [spec]) = some e ∧
      ∀ iota, evaluate table iota e = some (iota + shift')) ∧
    (shift' = 0 ∨ ∀ next ∈ rest, Bare next)

/-- A specification with a value comes before any shift. -/
theorem Halfway.counter_of_value (hh : Halfway table specs done (spec :: rest) s shift) {e : Expr}
    (he : spec.values = [e]) : s.counter.value = done.length := by
  rcases hh.bare with hzero | hbare
  · rw [hh.counter, hzero, Int.add_zero]
  · simp [(hbare spec (by simp)).2] at he

theorem continues_bare (hr : Regular type table specs) (hs : specs = done ++ spec :: rest)
    (hh : Halfway table specs done (spec :: rest) s shift) (hbare : Bare spec) (name : String) :
    Continues table specs done rest spec s name := by
  obtain ⟨hactive, _, e, he, heval⟩ := hh.running (hr.ne_nil_of_bare hs hbare)
  rw [Continues, valueAt_length hs, lastExpression_concat]
  refine ⟨s.counter.value, s.counter.take.2, shift, ?_, ?_, ?_, hactive, ⟨e, ?_, heval⟩, ?_⟩
  · simp [Resolve.specValue, hbare.2, hactive, Counter.take]
  · simp [hbare.2, he, heval, hh.counter]
  · simp only [Counter.take, hh.counter]
    omega
  · simp [hbare.2, he]
  · exact hh.bare.imp id fun h next hn => h next (by simp [hn])

theorem continues_iota (hs : specs = done ++ spec :: rest)
    (hh : Halfway table specs done (spec :: rest) s shift) {e : Expr} (he : spec.values = [e])
    (hiota : Resolve.isIota e = true) (name : String) :
    Continues table specs done rest spec s name := by
  have hcounter := hh.counter_of_value he
  rw [Continues, valueAt_length hs, lastExpression_concat]
  refine ⟨done.length, s.counter.activate.2, 0, ?_, ?_, ?_, rfl, ⟨e, ?_, ?_⟩, .inl rfl⟩
  · cases e with
    | ident id =>
        have hi : id.name = iotaName := by simpa [Resolve.isIota] using hiota
        simp [Resolve.specValue, he, Resolve.exprValue, hi, Counter.activate, Counter.take,
          hcounter]
    | int _ _ | rune _ _ _ | binary _ _ _ _ | verbatim _ _ | stray _ _ _ => cases hiota
  · simp [he, evaluate_iota hiota]
  · simp [Counter.activate, Counter.take, hcounter]
  · simp [he]
  · intro iota
    simp [evaluate_iota hiota]

theorem continues_offset (hr : Regular type table specs) (hs : specs = done ++ spec :: rest)
    (hh : Halfway table specs done (spec :: rest) s shift) {e : Expr} (he : spec.values = [e])
    (hoffset : IsOffset table specs e) (name : String) :
    Continues table specs done rest spec s name := by
  have hcounter := hh.counter_of_value he
  have htable : ∀ name, (∀ spec ∈ specs, name ∉ spec.names.map (·.name)) →
      s.table.value? name = table.value? name := by
    intro name hname
    rw [hh.values, valueAfter_of_not_mem]
    exact fun spec hspec => hname spec (by simp [hs, hspec])
  rw [Continues, valueAt_length hs, lastExpression_concat]
  cases e with
  | binary op left right loc =>
      obtain ⟨k, heval, hshift⟩ := evaluate_offset hoffset
      refine ⟨done.length + k, (s.counter.offset k).2, k, ?_, ?_, ?_, rfl, ⟨_, ?_, heval⟩, ?_⟩
      · simp [Resolve.specValue, he, Resolve.exprValue, hshift s.table htable, Except.map,
          Counter.offset, Counter.activate, Counter.take, hcounter]
      · simp [he, heval]
      · simp only [Counter.offset, Counter.activate, Counter.take, hcounter]
        omega
      · simp [he]
      · exact .inr (hr.bare_of_offset hs (by simp [he]) hoffset)
  | int _ _ | rune _ _ _ | ident _ | verbatim _ _ | stray _ _ _ => cases hoffset

theorem continues_of_halfway (hr : Regular type table specs) (hs : specs = done ++ spec :: rest)
    (hh : Halfway table specs done (spec :: rest) s shift) (name : String) :
    Continues table specs done rest spec s name := by
  have hmem : spec ∈ specs := by simp [hs]
  rcases hr.shape spec hmem with hbare | ⟨_, e, he⟩
  · exact continues_bare hr hs hh hbare name
  · rcases hr.values spec hmem e (by simp [he]) with hiota | hoffset
    · exact continues_iota hs hh he hiota name
    · exact continues_offset hr hs hh he hoffset name

def reported (e : Event) : Option (Span × List String × Option Int) :=
  e.given?.map fun g => (g.1, [g.2.1], some g.2.2)

theorem step_halfway {o : Options} (hr : Regular o.type table specs)
    (hs : specs = done ++ spec :: rest) (hh : Halfway table specs done (spec :: rest) s shift) :
    ∃ s' shift', (Resolve.step o s spec).result = .ok s' ∧
      (Resolve.step o s spec).events.filterMap reported =
        [(spec.span, spec.names.map (·.name), valueAt table specs done.length)] ∧
      Halfway table specs (done ++ [spec]) rest s' shift' := by
  have hmem : spec ∈ specs := by simp [hs]
  obtain ⟨id, hid⟩ := hr.oneName spec hmem
  have hbelongs : Resolve.belongs o.type s.belongs spec = true := by
    rcases hr.shape spec hmem with hbare | ⟨⟨t, ht, hnamed⟩, _⟩
    · have hrunning := hh.running (hr.ne_nil_of_bare hs hbare)
      simp [Resolve.belongs, hbare.1, hrunning.2.1]
    · simp [Resolve.belongs, ht, hnamed]
  obtain ⟨value, counter, shift', hvalue, hat, hcounter, hactive, hlast, hrest⟩ :=
    continues_of_halfway hr hs hh id.name
  obtain ⟨hresult, hgiven⟩ := Folding.define_of_value (o := o) hvalue
  have hstep : Resolve.step o s spec = Resolve.define o s spec id.name := by
    simp [Resolve.step, hbelongs, hid]
  rw [hstep]
  refine ⟨_, shift', hresult, ?_, ?_, ?_, fun _ => ⟨hactive, rfl, hlast⟩, hrest⟩
  · have hmap : (Resolve.define o s spec id.name).events.filterMap reported =
        ((Resolve.define o s spec id.name).events.filterMap Event.given?).map
          fun g => (g.1, [g.2.1], some g.2.2) := by
      rw [List.map_filterMap]
      rfl
    rw [hmap, hgiven, hat]
    simp [hid]
  · simpa using hcounter
  · intro name
    have hvalues := hh.values name
    by_cases hd : id.name = discardName
    · have hn : ¬ (spec.names.map (·.name) = [name] ∧ name ≠ discardName) := by
        rintro ⟨h, hkeep⟩
        rw [hid] at h
        exact hkeep (by simpa [hd] using h.symm)
      rw [valueAfter, lastDeclaring_concat, if_neg hn]
      simpa [hd, valueAfter] using hvalues
    · by_cases hn : id.name = name
      · subst hn
        simp [hd, valueAfter, lastDeclaring_concat, hid, hat, Table.value?, Table.record]
      · have hne : (name == id.name) = false := by simpa using Ne.symm hn
        simpa [hd, valueAfter, lastDeclaring_concat, hid, hn, Table.value?, Table.record,
          List.lookup_cons, hne] using hvalues

theorem steps_halfway {o : Options} (hr : Regular o.type table specs) (hs : specs = done ++ rest)
    (hh : Halfway table specs done rest s shift) :
    ∃ s', (rest.foldlM (Resolve.step o) s).result = .ok s' ∧
      (rest.foldlM (Resolve.step o) s).events.filterMap reported =
        (rest.zipIdx done.length).map (fun p =>
          (p.1.span, p.1.names.map (·.name), valueAt table specs p.2)) ∧
      ∀ name, s'.table.value? name = valueAfter table specs specs name := by
  induction rest generalizing done s shift with
  | nil =>
      rw [List.append_nil] at hs
      subst hs
      exact ⟨s, rfl, rfl, hh.values⟩
  | cons spec rest ih =>
      obtain ⟨s₁, shift₁, h₁, hreported, hh₁⟩ := step_halfway hr hs hh
      obtain ⟨s₂, h₂, hrest, hvalues⟩ := ih (by simp [hs]) hh₁
      rw [List.foldlM_cons, Logged.result_bind, Logged.events_bind h₁, h₁]
      refine ⟨s₂, h₂, ?_, hvalues⟩
      rw [List.filterMap_append, hreported, hrest]
      simp [List.zipIdx_cons]

/-- Folding a regular block succeeds and gives every specification the value of the language's
rule, whatever was in the table before. -/
theorem block_follows_iota_rule (o : Options) (table : Table) (specs : List ConstSpec)
    (h : Regular o.type table specs) :
    ∃ table', (Resolve.block o table specs).result = .ok table' ∧
      (Resolve.block o table specs).events.filterMap reported =
        specs.zipIdx.map (fun p =>
          (p.1.span, p.1.names.map (·.name), valueAt table specs p.2)) ∧
      ∀ name, table'.value? name = valueAfter table specs specs name := by
  have hstart : Halfway table specs [] specs { table } 0 := by
    refine ⟨rfl, fun name => rfl, fun hne => absurd rfl hne, .inl rfl⟩
  obtain ⟨s, hs, hreported, hvalues⟩ := steps_halfway h rfl hstart
  refine ⟨s.table, ?_, ?_, hvalues⟩
  · simp [Resolve.block, hs]
  · simpa [Resolve.block, Logged.events_bind hs] using hreported

/-- A block that counts on from an offset by a constant of the table, with discarded names and a
name that is declared twice. -/
def shiftedBlock : List ConstSpec :=
  let plain : Option TypeRef := some (.ident ⟨"T", {}⟩)
  let iota : Expr := .ident ⟨iotaName, {}⟩
  let bare (name : String) : ConstSpec := { names := [⟨name, {}⟩] }
  let full (name : String) (value : Expr) : ConstSpec :=
    { names := [⟨name, {}⟩], type := plain, values := [value] }
  [full "A" iota, bare "_", full "B" iota, full "C" (.binary "-" iota (.ident ⟨"k", {}⟩) {}),
   bare "A", bare "_", bare "D"]

def shiftedTable : Table := ({} : Table).record "k" 10 "k"

theorem shiftedBlock_regular : Regular "T" shiftedTable shiftedBlock := by
  constructor <;>
    simp [shiftedBlock, shiftedTable, Bare, Explicit, IsOffset, amount, TypeRef.isNamed,
      Resolve.isIota, Table.value?, Table.record]

theorem shiftedBlock_follows_iota_rule :
    Regular "T" shiftedTable shiftedBlock ∧
      ∃ table', (Resolve.block { type := "T" } shiftedTable shiftedBlock).result = .ok table' ∧
        (Resolve.block { type := "T" } shiftedTable shiftedBlock).events.filterMap reported =
          shiftedBlock.zipIdx.map (fun p =>
            (p.1.span, p.1.names.map (·.name), valueAt shiftedTable shiftedBlock p.2)) ∧
        ∀ name, table'.value? name = valueAfter shiftedTable shiftedBlock shiftedBlock name :=
  ⟨shiftedBlock_regular, block_follows_iota_rule { type := "T" } _ _ shiftedBlock_regular⟩

example : (List.range 7).map (valueAt shiftedTable shiftedBlock) =
    [0, 1, 2, -7, -6, -5, -4].map some := by decide

end EnumNames.IotaRule
