import EnumNames.Enumeration.Resolve
import EnumNames.Proofs.Sequencing
import Mathlib.Algebra.Ring.Int.Defs
import Mathlib.Data.List.Basic

/-!
Constant folding against a definition without a counter. The definition looks
only at the constants declared before: `iota` is the number of constants of the
block that counted, plus all offsets among them, and a name stands for the last
constant declared by it. It says nothing about which specifications are refused.
-/

namespace EnumNames

def Event.given? : Event → Option (Span × String × Int)
  | .constantResolved span name value _ => some (span, name, value)
  | _ => none

namespace Folding

/-! ## Which specifications count -/

/-- The last explicit type at or before an index of a block is the name. -/
def matchedAt (type : String) (specs : List ConstSpec) (index : Nat) : Bool :=
  (((specs.take (index + 1)).filterMap (·.type)).getLast?).any (·.isNamed type)

/-- A specification by the number of its block and its index there. -/
structure Site where
  block : Nat
  index : Nat
  spec : ConstSpec

def sitesOf (type : String) (block : Nat) (specs : List ConstSpec) : List Site :=
  (specs.zipIdx.filter fun p => matchedAt type specs p.2).map fun p => ⟨block, p.2, p.1⟩

def sites (type : String) (blocks : List (List ConstSpec)) : List Site :=
  blocks.zipIdx.flatMap fun p => sitesOf type p.2 p.1

/-! ## Their values -/

structure Constant extends Site where
  name : String
  value : Int

/-- The value of the last constant of a name. The name for discarding has none. -/
def latest (cs : List Constant) (name : String) : Option Int :=
  if name = discardName then none
  else ((cs.filter fun c => c.name == name).getLast?).map (·.value)

def amount (earlier : List Constant) : Expr → Option Int
  | .int text _ => (IntLiteral.value text).toOption
  | .ident id => latest earlier id.name
  | _ => none

/-- What `iota + k` and `iota - k` add to `iota`. -/
def offset? (earlier : List Constant) : List Expr → Option Int
  | [.binary op left right _] =>
      if Resolve.isIota left then
        if op = "+" then amount earlier right
        else if op = "-" then (amount earlier right).map (- ·)
        else none
      else none
  | _ => none

def usesIota : List Expr → Bool
  | [.ident id] => id.name == iotaName
  | [.binary _ left _ _] => Resolve.isIota left
  | _ => false

/-- The nearest constant of the block that has a value uses `iota`. -/
def counting (earlier : List Constant) (block : Nat) : Bool :=
  ((earlier.filter fun c => c.block == block && !c.spec.values.isEmpty).getLast?).any
    fun c => usesIota c.spec.values

def counted (earlier : List Constant) (c : Constant) : Bool :=
  usesIota c.spec.values || (c.spec.values.isEmpty && counting earlier c.block)

def splits (cs : List Constant) : List (List Constant × Constant) :=
  cs.zipIdx.map fun p => (cs.take p.2, p.1)

/-- The value of `iota` after some constants: how many of the block counted, and the sum of the
offsets among them. -/
def iotaAfter (cs : List Constant) (block : Nat) : Int :=
  let here := (splits cs).filter fun p => p.2.block == block
  (here.countP fun p => counted p.1 p.2) +
    (here.map fun p => (offset? p.1 p.2.spec.values).getD 0).sum

/-- The value that a specification has by its own form, after the constants before it. -/
def HasValue (earlier : List Constant) (block : Nat) (value : Int) : List Expr → Prop
  | [] => value = if counting earlier block then iotaAfter earlier block else 0
  | [.int text _] => IntLiteral.value text = .ok value
  | [.rune _ code _] => value = code
  | [.ident id] =>
      if id.name = iotaName then value = iotaAfter earlier block
      else latest earlier id.name = some value
  | [.binary op left right loc] =>
      ∃ k, offset? earlier [.binary op left right loc] = some k ∧
        value = iotaAfter earlier block + k
  | _ => False

/-- A constant has one name, and its value follows from the constants before it. -/
structure Declared (earlier : List Constant) (c : Constant) : Prop where
  name : c.spec.names.map (·.name) = [c.name]
  value : HasValue earlier c.block c.value c.spec.values

/-! ## One more constant -/

theorem splits_concat (cs : List Constant) (c : Constant) :
    splits (cs ++ [c]) = splits cs ++ [(cs, c)] := by
  have h : ∀ p ∈ cs.zipIdx, ((cs ++ [c]).take p.2, p.1) = (cs.take p.2, p.1) := by
    intro p hp
    have hlt : p.2 < cs.length := (List.mem_zipIdx' hp).1
    rw [List.take_append_of_le_length (Nat.le_of_lt hlt)]
  simp only [splits, List.zipIdx_append, List.map_append, List.map_congr_left h]
  simp

theorem latest_concat (cs : List Constant) (c : Constant) (name : String) :
    latest (cs ++ [c]) name =
      if c.name = name ∧ name ≠ discardName then some c.value else latest cs name := by
  by_cases hd : name = discardName
  · simp [latest, hd]
  · by_cases hn : c.name = name
    · simp [latest, hd, hn, List.filter_append]
    · simp [latest, hd, hn, List.filter_append]

theorem counting_concat (cs : List Constant) (c : Constant) (block : Nat) :
    counting (cs ++ [c]) block =
      if c.block = block ∧ c.spec.values ≠ [] then usesIota c.spec.values
      else counting cs block := by
  by_cases hb : c.block = block
  · cases hv : c.spec.values with
    | nil => simp [counting, List.filter_append, hb, hv]
    | cons e es => simp [counting, List.filter_append, hb, hv]
  · simp [counting, List.filter_append, hb]

theorem iotaAfter_concat (cs : List Constant) (c : Constant) (block : Nat) :
    iotaAfter (cs ++ [c]) block =
      if c.block = block then
        iotaAfter cs block + ((if counted cs c then 1 else 0) +
          (offset? cs c.spec.values).getD 0)
      else iotaAfter cs block := by
  by_cases hb : c.block = block
  · by_cases hc : counted cs c
    · simp [iotaAfter, splits_concat, List.filter_append, hb, hc]
      omega
    · simp [iotaAfter, splits_concat, List.filter_append, hb, hc]
      omega
  · simp [iotaAfter, splits_concat, List.filter_append, hb]

/-- Constants of other blocks leave `iota` alone. -/
theorem iotaAfter_of_forall_ne (cs : List Constant) (block : Nat)
    (h : ∀ c ∈ cs, c.block ≠ block) : iotaAfter cs block = 0 := by
  have hs : (splits cs).filter (fun p => p.2.block == block) = [] := by
    rw [List.filter_eq_nil_iff]
    intro p hp
    obtain ⟨q, hq, rfl⟩ := List.mem_map.1 hp
    have hm : q.1 ∈ cs := (List.mem_zipIdx' hq).2 ▸ List.getElem_mem _
    simpa using h q.1 hm
  simp [iotaAfter, hs]

theorem counting_of_forall_ne (cs : List Constant) (block : Nat)
    (h : ∀ c ∈ cs, c.block ≠ block) : counting cs block = false := by
  have hf : cs.filter (fun c => c.block == block && !c.spec.values.isEmpty) = [] := by
    rw [List.filter_eq_nil_iff]
    intro c hc
    simp [h c hc]
  simp [counting, hf]

theorem matchedAt_concat (type : String) (specs : List ConstSpec) (spec : ConstSpec) :
    matchedAt type (specs ++ [spec]) specs.length =
      Resolve.belongs type (((specs.filterMap (·.type)).getLast?).any (·.isNamed type)) spec := by
  have ht : (specs ++ [spec]).take (specs.length + 1) = specs ++ [spec] := by
    apply List.take_of_length_le
    simp
  cases hs : spec.type with
  | none => simp [matchedAt, Resolve.belongs, ht, hs]
  | some t => simp [matchedAt, Resolve.belongs, ht, hs]

theorem sitesOf_concat (type : String) (block : Nat) (specs : List ConstSpec) (spec : ConstSpec) :
    sitesOf type block (specs ++ [spec]) =
      sitesOf type block specs ++
        if matchedAt type (specs ++ [spec]) specs.length then [⟨block, specs.length, spec⟩]
        else [] := by
  have h : ∀ p ∈ specs.zipIdx,
      matchedAt type (specs ++ [spec]) p.2 = matchedAt type specs p.2 := by
    intro p hp
    have hlt : p.2 < specs.length := (List.mem_zipIdx' hp).1
    rw [matchedAt, matchedAt, List.take_append_of_le_length hlt]
  simp only [sitesOf, List.zipIdx_append, List.filter_append, List.map_append,
    List.filter_congr h]
  by_cases hm : matchedAt type (specs ++ [spec]) specs.length <;> simp [hm]

/-! ## The counter -/

structure Agrees (cs : List Constant) (block : Nat) (table : Table) (counter : Counter) : Prop where
  table : ∀ name, table.value? name = latest cs name
  value : counter.value = iotaAfter cs block
  active : counter.active = counting cs block

structure Moved (cs : List Constant) (block : Nat) (values : List Expr) (counter : Counter) :
    Prop where
  value : counter.value = iotaAfter cs block +
    ((if usesIota values || (values.isEmpty && counting cs block) then 1 else 0) +
      (offset? cs values).getD 0)
  active : counter.active = if values = [] then counting cs block else usesIota values

variable {cs : List Constant} {block : Nat} {table : Table} {counter counter' : Counter}

theorem literalValue_ok {name text : String} {value : Int}
    (h : Resolve.literalValue name text = .ok value) : IntLiteral.value text = .ok value := by
  unfold Resolve.literalValue at h
  split at h
  · next n hv =>
      cases h
      exact hv
  · cases h

theorem referenceValue_ok {name reference : String} {value : Int}
    (ht : ∀ name, table.value? name = latest cs name)
    (h : Resolve.referenceValue table name reference = .ok value) :
    latest cs reference = some value := by
  unfold Resolve.referenceValue at h
  rw [ht] at h
  split at h
  · next n hl =>
      cases h
      exact hl
  · cases h

/-- A shift that is computed is the declared offset. -/
theorem shift_ok {name op : String} {whole left right : Expr} (loc : Loc) {delta : Int}
    (ht : ∀ name, table.value? name = latest cs name)
    (h : Resolve.shift table name op whole left right = .ok delta) :
    Resolve.isIota left = true ∧ offset? cs [.binary op left right loc] = some delta := by
  unfold Resolve.shift at h
  split at h
  · next hleft =>
      have hk : ∃ k, amount cs right = some k ∧
          (if op == "-" then pure (-k) else if op == "+" then pure k
            else Resolve.obstructed name (.operator op whole)) = Except.ok delta := by
        cases right with
        | int text _ =>
            obtain ⟨k, hk, hop⟩ := ok_of_bind h
            exact ⟨k, by simp [amount, literalValue_ok hk, Except.toOption], hop⟩
        | ident id =>
            obtain ⟨k, hk, hop⟩ := ok_of_bind h
            exact ⟨k, referenceValue_ok ht hk, hop⟩
        | rune _ _ _ | binary _ _ _ _ | verbatim _ _ | stray _ _ _ => cases h
      obtain ⟨k, hamount, hop⟩ := hk
      refine ⟨hleft, ?_⟩
      split at hop
      · next hminus =>
          cases hop
          have hop' : op = "-" := by simpa using hminus
          simp [offset?, hleft, hop', hamount]
      · split at hop
        · next hplus =>
            cases hop
            have hop' : op = "+" := by simpa using hplus
            simp [offset?, hleft, hop', hamount]
        · cases hop
  · cases h

/-- The value of an expression is the declared one, and the counter goes on as declared. -/
theorem exprValue_ok {name : String} {e : Expr} {value : Int}
    (ha : Agrees cs block table counter)
    (h : Resolve.exprValue table counter name e = .ok (value, counter')) :
    HasValue cs block value [e] ∧ Moved cs block [e] counter' := by
  cases e with
  | int text loc =>
      simp only [Resolve.exprValue] at h
      obtain ⟨n, hn, heq⟩ := ok_of_map h
      cases heq
      refine ⟨literalValue_ok hn, ?_, ?_⟩
      · simp [Counter.deactivate, ha.value, usesIota, offset?]
      · simp [Counter.deactivate, usesIota]
  | rune text code loc =>
      cases h
      refine ⟨rfl, ?_, ?_⟩
      · simp [Counter.deactivate, ha.value, usesIota, offset?]
      · simp [Counter.deactivate, usesIota]
  | ident id =>
      simp only [Resolve.exprValue] at h
      split at h
      · next hi =>
          cases h
          have hi' : id.name = iotaName := by simpa using hi
          refine ⟨?_, ?_, ?_⟩
          · simp [HasValue, hi', ha.value]
          · simp [ha.value, usesIota, offset?, hi']
          · simp [usesIota, hi']
      · next hi =>
          obtain ⟨n, hn, heq⟩ := ok_of_map h
          cases heq
          have hi' : id.name ≠ iotaName := by simpa using hi
          refine ⟨?_, ?_, ?_⟩
          · simp only [HasValue, if_neg hi']
            exact referenceValue_ok ha.table hn
          · simp [Counter.deactivate, ha.value, usesIota, offset?, hi']
          · simp [Counter.deactivate, usesIota, hi']
  | binary op left right loc =>
      obtain ⟨k, hk, heq⟩ := ok_of_map h
      obtain ⟨hleft, hoffset⟩ := shift_ok loc ha.table hk
      cases heq
      refine ⟨⟨k, hoffset, ?_⟩, ?_, ?_⟩
      · simp [ha.value]
      · simp [ha.value, usesIota, hleft, hoffset]
        omega
      · simp [usesIota, hleft]
  | verbatim text loc => cases h
  | stray kind text loc => cases h

theorem specValue_ok {name : String} {values : List Expr} {value : Int}
    (ha : Agrees cs block table counter)
    (h : Resolve.specValue table counter name values = .ok (value, counter')) :
    HasValue cs block value values ∧ Moved cs block values counter' := by
  match values, h with
  | [], h =>
      simp only [Resolve.specValue, Except.ok.injEq] at h
      cases hc : counting cs block with
      | true =>
          rw [ha.active, hc] at h
          cases h
          refine ⟨?_, ?_, ?_⟩
          · simp [HasValue, hc, ha.value]
          · simp [ha.value, usesIota, offset?, hc]
          · simp [ha.active, hc]
      | false =>
          rw [ha.active, hc] at h
          cases h
          refine ⟨?_, ?_, ?_⟩
          · simp [HasValue, hc]
          · simp [ha.value, usesIota, offset?, hc]
          · simp [ha.active, hc]
  | [e], h => exact exprValue_ok ha h
  | _ :: _ :: _, h => cases h

/-! ## Runs -/

def Constant.given (c : Constant) : Span × String × Int := (c.spec.span, c.name, c.value)

def Valid (cs : List Constant) : Prop :=
  ∀ earlier c later, cs = earlier ++ c :: later → Declared earlier c

theorem Valid.concat {c : Constant} (hv : Valid cs) (hc : Declared cs c) : Valid (cs ++ [c]) := by
  intro earlier d later h
  rcases List.eq_nil_or_concat later with rfl | ⟨later, e, rfl⟩
  · obtain ⟨rfl, hd⟩ := List.append_inj' h rfl
    cases hd
    exact hc
  · have h' : cs ++ [c] = (earlier ++ d :: later) ++ [e] := by simpa using h
    exact hv earlier d later (List.append_inj' h' rfl).1

/-- Constants grow by those of some sites, as some events report. -/
structure Gains (sites : List Site) (events : List Event) (cs cs' : List Constant) : Prop where
  sites : cs'.map (·.toSite) = cs.map (·.toSite) ++ sites
  given : cs'.map (·.given) = cs.map (·.given) ++ events.filterMap Event.given?
  valid : Valid cs → Valid cs'

theorem Gains.refl {events : List Event} (h : events.filterMap Event.given? = []) :
    Gains [] events cs cs := by
  refine ⟨by simp, by simp [h], id⟩

theorem Gains.trans {sites sites' : List Site} {events events' : List Event}
    {cs' cs'' : List Constant} (h : Gains sites events cs cs')
    (h' : Gains sites' events' cs' cs'') :
    Gains (sites ++ sites') (events ++ events') cs cs'' := by
  refine ⟨?_, ?_, h'.valid ∘ h.valid⟩
  · rw [h'.sites, h.sites, List.append_assoc]
  · rw [h'.given, h.given, List.append_assoc, List.filterMap_append]

/-- Recording a constant keeps the table and the counter in agreement. -/
theorem Agrees.concat {c : Constant} {display : String} (ha : Agrees cs block table counter)
    (hb : c.block = block) (hm : Moved cs block c.spec.values counter') :
    Agrees (cs ++ [c]) block
      (if c.name = discardName then table else table.record c.name c.value display) counter' := by
  refine ⟨?_, ?_, ?_⟩
  · intro name
    rw [latest_concat]
    by_cases hd : c.name = discardName
    · have hn : ¬ (c.name = name ∧ name ≠ discardName) := by
        rintro ⟨rfl, h⟩
        exact h hd
      simp only [if_pos hd, if_neg hn]
      exact ha.table name
    · by_cases hn : c.name = name
      · subst hn
        simp [hd, Table.value?, Table.record]
      · have hne : (name == c.name) = false := by simpa using Ne.symm hn
        simp only [if_neg hd, hn, false_and, if_false]
        rw [← ha.table name]
        simp [Table.value?, Table.record, List.lookup_cons, hne]
  · rw [iotaAfter_concat, if_pos hb, hm.value, counted, hb]
  · rw [counting_concat, hm.active]
    by_cases hv : c.spec.values = [] <;> simp [hb, hv]

structure Inside (type : String) (block : Nat) (done : List ConstSpec) (cs : List Constant)
    (s : Resolve.State) : Prop where
  agrees : Agrees cs block s.table s.counter
  belongs : s.belongs = ((done.filterMap (·.type)).getLast?).any (·.isNamed type)

variable {o : Options} {s s' : Resolve.State} {spec : ConstSpec}

/-- A constant whose value is known is reported, and recorded unless its name is for discarding. -/
theorem define_of_value {name : String} {value : Int}
    (hv : Resolve.specValue s.table s.counter name spec.values = .ok (value, counter)) :
    (Resolve.define o s spec name).result = .ok
        { table := if name = discardName then s.table
            else s.table.record name value (Resolve.displayText o name spec.comment)
          counter
          belongs := true } ∧
      (Resolve.define o s spec name).events.filterMap Event.given? =
        [(spec.span, name, value)] := by
  simp only [Resolve.define, hv]
  rw [Logged.result_bind, Logged.result_note, ok_bind, Logged.events_bind (Logged.result_note _)]
  by_cases hd : name = discardName
  · simp [hd, Event.given?]
  · by_cases he : (Resolve.displayText o name spec.comment).isEmpty
    · simp [hd, he, Event.given?, Logged.events_bind (Logged.result_note _)]
    · simp [hd, he, Event.given?]

/-- A step that succeeds passes over a specification or takes in its only name. -/
theorem cases_of_step (h : (Resolve.step o s spec).result = .ok s') :
    (Resolve.belongs o.type s.belongs spec = false ∧ s' = { s with belongs := false }) ∨
    (Resolve.belongs o.type s.belongs spec = true ∧
      ∃ (id : Ident) (value : Int) (counter : Counter), spec.names = [id] ∧
        s' =
          { table := if id.name = discardName then s.table
              else s.table.record id.name value (Resolve.displayText o id.name spec.comment)
            counter
            belongs := true }) := by
  unfold Resolve.step at h
  split at h
  · next hb =>
      split at h
      · next id hid =>
          cases hv : Resolve.specValue s.table s.counter id.name spec.values with
          | error cause =>
              simp only [Resolve.define, hv] at h
              cases h
          | ok r =>
              rw [(define_of_value hv).1] at h
              cases h
              exact .inr ⟨hb, id, r.1, r.2, hid, rfl⟩
      · cases h
  · next hb =>
      cases h
      exact .inl ⟨by simpa using hb, rfl⟩

theorem define_ok {name : String} (index : Nat) (ha : Agrees cs block s.table s.counter)
    (hn : spec.names.map (·.name) = [name])
    (h : (Resolve.define o s spec name).result = .ok s') :
    ∃ cs', Gains [⟨block, index, spec⟩] (Resolve.define o s spec name).events cs cs' ∧
      Agrees cs' block s'.table s'.counter ∧ s'.belongs = true := by
  cases hv : Resolve.specValue s.table s.counter name spec.values with
  | error cause =>
      simp only [Resolve.define, hv] at h
      cases h
  | ok r =>
      obtain ⟨value, counter⟩ := r
      obtain ⟨hvalue, hmoved⟩ := specValue_ok ha hv
      obtain ⟨hresult, hgiven⟩ := define_of_value (o := o) hv
      let c : Constant := ⟨⟨block, index, spec⟩, name, value⟩
      refine ⟨cs ++ [c], ⟨by simp [c], ?_, fun hcs => hcs.concat ⟨hn, hvalue⟩⟩, ?_⟩
      · simp [hgiven, c, Constant.given]
      · rw [hresult] at h
        cases h
        exact ⟨ha.concat (c := c) rfl hmoved, rfl⟩

theorem step_ok {type : String} {done : List ConstSpec} (ht : o.type = type)
    (hi : Inside type block done cs s) (h : (Resolve.step o s spec).result = .ok s') :
    ∃ cs', Gains (if matchedAt type (done ++ [spec]) done.length then [⟨block, done.length, spec⟩]
          else []) (Resolve.step o s spec).events cs cs' ∧
      Inside type block (done ++ [spec]) cs' s' := by
  subst ht
  have hm := matchedAt_concat o.type done spec
  rw [← hi.belongs] at hm
  have hlast : (((done ++ [spec]).filterMap (·.type)).getLast?).any (·.isNamed o.type) =
      Resolve.belongs o.type s.belongs spec := by
    rw [← hm, matchedAt, List.take_of_length_le (by simp)]
  unfold Resolve.step at h ⊢
  by_cases hb : Resolve.belongs o.type s.belongs spec
  · rw [hm, if_pos hb]
    rw [if_pos hb] at h ⊢
    split at h
    · next id hid =>
        obtain ⟨cs', hg, ha, hs⟩ := define_ok done.length hi.agrees (by simp [hid]) h
        refine ⟨cs', ?_, ha, ?_⟩
        · simpa [hid] using hg
        · rw [hs, hlast, hb]
    · cases h
  · rw [hm, if_neg hb]
    rw [if_neg hb] at h ⊢
    cases h
    refine ⟨cs, .refl rfl, hi.agrees, ?_⟩
    rw [hlast]
    simpa using hb

theorem steps_ok {type : String} {done specs : List ConstSpec} (ht : o.type = type)
    (hi : Inside type block done cs s)
    (h : (specs.foldlM (Resolve.step o) s).result = .ok s') :
    ∃ cs' new, sitesOf type block (done ++ specs) = sitesOf type block done ++ new ∧
      Gains new (specs.foldlM (Resolve.step o) s).events cs cs' ∧
      Inside type block (done ++ specs) cs' s' := by
  induction specs generalizing done cs s with
  | nil =>
      cases h
      exact ⟨cs, [], by simp, .refl rfl, by simpa using hi⟩
  | cons spec specs ih =>
      rw [List.foldlM_cons] at h ⊢
      obtain ⟨s₁, h₁, h₂⟩ := Logged.ok_of_result_bind h
      obtain ⟨cs₁, hg₁, hi₁⟩ := step_ok ht hi h₁
      obtain ⟨cs₂, new, hnew, hg₂, hi₂⟩ := ih hi₁ h₂
      rw [List.append_assoc, List.singleton_append] at hnew hi₂
      rw [sitesOf_concat, List.append_assoc] at hnew
      refine ⟨cs₂, _, hnew, ?_, hi₂⟩
      rw [Logged.events_bind h₁]
      exact hg₁.trans hg₂

theorem block_ok {specs : List ConstSpec} {table' : Table}
    (ht : ∀ name, table.value? name = latest cs name) (hcs : ∀ c ∈ cs, c.block < block)
    (h : (Resolve.block o table specs).result = .ok table') :
    ∃ cs', Gains (sitesOf o.type block specs) (Resolve.block o table specs).events cs cs' ∧
      (∀ name, table'.value? name = latest cs' name) ∧ ∀ c ∈ cs', c.block < block + 1 := by
  have hne : ∀ c ∈ cs, c.block ≠ block := fun c hc => Nat.ne_of_lt (hcs c hc)
  have hstart : Inside o.type block [] cs { table } := by
    refine ⟨⟨ht, ?_, ?_⟩, rfl⟩
    · exact (iotaAfter_of_forall_ne cs block hne).symm
    · exact (counting_of_forall_ne cs block hne).symm
  unfold Resolve.block at h ⊢
  obtain ⟨s, hs, hr⟩ := Logged.ok_of_result_bind h
  cases hr
  obtain ⟨cs', new, hnew, hg, hi⟩ := steps_ok rfl hstart hs
  have hn : sitesOf o.type block specs = new := by simpa [sitesOf] using hnew
  subst hn
  refine ⟨cs', ?_, hi.agrees.table, ?_⟩
  · simpa [Logged.events_bind hs] using hg
  · intro c hc
    have hmem : c.toSite ∈ cs.map (·.toSite) ++ sitesOf o.type block specs := by
      rw [← hg.sites]
      exact List.mem_map_of_mem hc
    rcases List.mem_append.1 hmem with hold | hhere
    · obtain ⟨d, hd, heq⟩ := List.mem_map.1 hold
      have hdb := hcs d hd
      rw [← heq]
      omega
    · obtain ⟨p, _, heq⟩ := List.mem_map.1 hhere
      rw [← heq]
      exact Nat.lt_succ_self block

theorem blocks_ok {blocks : List (List ConstSpec)} {table' : Table}
    (ht : ∀ name, table.value? name = latest cs name) (hcs : ∀ c ∈ cs, c.block < block)
    (h : (blocks.foldlM (Resolve.block o) table).result = .ok table') :
    ∃ cs', Gains ((blocks.zipIdx block).flatMap fun p => sitesOf o.type p.2 p.1)
        (blocks.foldlM (Resolve.block o) table).events cs cs' ∧
      ∀ name, table'.value? name = latest cs' name := by
  induction blocks generalizing block cs table with
  | nil =>
      cases h
      exact ⟨cs, .refl rfl, ht⟩
  | cons specs blocks ih =>
      rw [List.foldlM_cons] at h ⊢
      obtain ⟨table₁, h₁, h₂⟩ := Logged.ok_of_result_bind h
      obtain ⟨cs₁, hg₁, ht₁, hcs₁⟩ := block_ok ht hcs h₁
      obtain ⟨cs₂, hg₂, ht₂⟩ := ih ht₁ hcs₁ h₂
      refine ⟨cs₂, ?_, ht₂⟩
      rw [Logged.events_bind h₁, List.zipIdx_cons, List.flatMap_cons]
      exact hg₁.trans hg₂

/-- Folding gives every constant of the type its declared value, and the table holds the value of
the last constant of each name. -/
theorem resolve_values_declared (o : Options) (files : List SourceFile) (table : Table)
    (h : (resolve o files).result = .ok table) :
    ∃ cs : List Constant,
      cs.map (·.toSite) = sites o.type (files.flatMap (·.constBlocks)) ∧
      (resolve o files).events.filterMap Event.given? =
        cs.map (fun c => (c.spec.span, c.name, c.value)) ∧
      (∀ earlier c later, cs = earlier ++ c :: later → Declared earlier c) ∧
      ∀ name, table.value? name = latest cs name := by
  unfold resolve at h ⊢
  obtain ⟨found, hfound, hrest⟩ := Logged.ok_of_result_bind h
  have hempty : ∀ name, ({} : Table).value? name = latest [] name := by
    intro name
    simp [Table.value?, latest]
  have hnone : ∀ c ∈ ([] : List Constant), c.block < 0 := by simp
  obtain ⟨cs, hg, ht⟩ := blocks_ok hempty hnone hfound
  have hnil : Valid [] := by
    intro earlier c later heq
    simp at heq
  split at hrest
  · cases hrest
  · next hne =>
      cases hrest
      refine ⟨cs, by simpa [sites] using hg.sites, ?_, hg.valid hnil, ht⟩
      have hgiven : _ = cs.map (·.given) := hg.given.symm
      rw [Logged.events_bind hfound, if_neg hne, Logged.events_bind (Logged.result_note _),
        List.filterMap_append]
      simpa [List.filterMap_cons, Event.given?, Constant.given] using hgiven

/-- Two files whose constants use every form of value: offsets by a literal and by a name, bare
specifications that count and that do not, a redeclared name, and another type in between. -/
def mixedFiles : List SourceFile :=
  let plain : Option TypeRef := some (.ident ⟨"T", {}⟩)
  let other : Option TypeRef := some (.ident ⟨"U", {}⟩)
  let iota : Expr := .ident ⟨iotaName, {}⟩
  let spec (name : String) (type : Option TypeRef) (values : List Expr) : ConstSpec :=
    { names := [⟨name, {}⟩], type, values }
  [{ package := "p"
     decls :=
      [.consts
        [spec "A" plain [.binary "+" iota (.int "2" {}) {}], spec "_" none [], spec "B" none [],
         spec "X" other [.int "7" {}], spec "Y" none [], spec "C" plain [.int "0x_9" {}],
         spec "D" none [], spec "E" plain [iota], spec "F" none []] true {}] },
   { package := "p"
     decls :=
      [.consts
        [spec "A" plain [.rune "'x'" 120 {}],
         spec "G" none [.binary "-" iota (.ident ⟨"B", {}⟩) {}],
         spec "H" none [.ident ⟨"A", {}⟩]] true {}] }]

def mixedTable : Table :=
  { names := ["A", "B", "C", "D", "E", "F", "G", "H"]
    values := [("H", 120), ("G", -4), ("A", 120), ("F", 6), ("E", 5), ("D", 0), ("C", 9), ("B", 4),
      ("A", 2)]
    displays := [("H", "H"), ("G", "G"), ("A", "A"), ("F", "F"), ("E", "E"), ("D", "D"), ("C", "C"),
      ("B", "B"), ("A", "A")] }

theorem mixedFiles_values_declared :
    (resolve { type := "T" } mixedFiles).result = .ok mixedTable ∧
      ∃ cs : List Constant,
        cs.map (·.toSite) = sites "T" (mixedFiles.flatMap (·.constBlocks)) ∧
        (resolve { type := "T" } mixedFiles).events.filterMap Event.given? =
          cs.map (fun c => (c.spec.span, c.name, c.value)) ∧
        (∀ earlier c later, cs = earlier ++ c :: later → Declared earlier c) ∧
        ∀ name, mixedTable.value? name = latest cs name := by
  have h : (resolve { type := "T" } mixedFiles).result = .ok mixedTable := by decide +kernel
  exact ⟨h, resolve_values_declared _ _ _ h⟩

end Folding
end EnumNames
