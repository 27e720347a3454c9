import EnumNames.Proofs.DeclaredValues
import EnumNames.Proofs.Unplaced

/-!
Names that come from sources are identifiers. Every node of a syntax tree whose
rule is a token is one by its text, and every node has the children that its
rule calls for. So the package, the names of constants and the named
types of a parsed file are identifiers, and with them all names that a table
gets from such files.
-/

namespace EnumNames.Grammar

/-! ## Nodes at any depth -/

def Peg.requires (r : Rule) : Peg → Bool
  | .rule r' => r' == r
  | .seq first second => first.requires r || second.requires r
  | .choice first second => first.requires r && second.requires r
  | .token _ | .many _ | .optional _ => false

structure Rule.Fits (r : Rule) (f : Forest) : Prop where
  lexeme : ∀ t, r.body = .token t →
    ∃ behind rest, t.width behind (f.text ++ rest) = some f.text.length
  children : ∀ r', r.body.requires r' = true → (f.first? r').isSome = true

theorem Rule.Fits.isIdentifier {f : Forest} (h : Rule.identifier.Fits f) :
    isIdentifier f.text = true := by
  obtain ⟨_, rest, hwidth⟩ := h.lexeme .identifier rfl
  simpa using isIdentifier_take hwidth

namespace Forest

/-- Every node, at any depth, has what its rule calls for. -/
def Sound : Forest → Prop
  | .nil => True
  | .leaf _ rest => rest.Sound
  | .node r inside rest => r.Fits inside ∧ inside.Sound ∧ rest.Sound

variable {f g : Forest} {r : Rule}

theorem Sound.append (hf : f.Sound) (hg : g.Sound) : (f.append g).Sound := by
  induction f with
  | nil => exact hg
  | leaf _ _ ih => exact ih hf
  | node _ _ _ _ ih => exact ⟨hf.1, hf.2.1, ih hf.2.2⟩

theorem Sound.of_mem_nodes (hf : f.Sound) (h : (r, g) ∈ f.nodes) : r.Fits g ∧ g.Sound := by
  induction f with
  | nil => cases h
  | leaf _ _ ih => exact ih hf h
  | node _ _ _ _ ih =>
      rcases List.mem_cons.1 h with heq | h
      · cases heq
        exact ⟨hf.1, hf.2.1⟩
      · exact ih hf.2.2 h

theorem Sound.of_first? (hf : f.Sound) (h : f.first? r = some g) : r.Fits g ∧ g.Sound := by
  obtain ⟨⟨r', g'⟩, hfind, rfl⟩ := Option.map_eq_some_iff.1 h
  have hr : r' = r := by simpa using List.find?_some hfind
  subst hr
  exact hf.of_mem_nodes (List.mem_of_find?_eq_some hfind)

theorem Sound.of_mem_every (hf : f.Sound) (h : g ∈ f.every r) : r.Fits g ∧ g.Sound := by
  obtain ⟨⟨r', g'⟩, hmem, rfl⟩ := List.mem_map.1 h
  obtain ⟨hnode, hrule⟩ := List.mem_filter.1 hmem
  have hr : r' = r := by simpa using hrule
  subst hr
  exact hf.of_mem_nodes hnode

theorem isSome_first?_append (f g : Forest) (r : Rule) :
    ((f.append g).first? r).isSome = ((f.first? r).isSome || (g.first? r).isSome) := by
  simp [first?, List.find?_append, Option.isSome_or]

end Forest

/-! ## Matching -/

def Outcome.Sound (o : Outcome) : Prop := ∀ f c, o.result = some (f, c) → f.Sound

namespace Outcome

theorem sound_stay (c : Cursor) : (stay c).Sound := by
  intro f c' h
  cases h
  trivial

theorem result_andThen {o : Outcome} {next : Cursor → Outcome} {f : Forest} {c : Cursor}
    (h : (o.andThen next).result = some (f, c)) :
    ∃ f₁ c₁ f₂, o.result = some (f₁, c₁) ∧ (next c₁).result = some (f₂, c) ∧
      f = f₁.append f₂ := by
  unfold andThen at h
  split at h
  · next hnone => rw [hnone] at h; cases h
  · next f₁ c₁ hsome =>
      obtain ⟨⟨f₂, c₂⟩, hnext, heq⟩ := Option.map_eq_some_iff.1 h
      cases heq
      exact ⟨f₁, c₁, f₂, hsome, hnext, rfl⟩

theorem result_orElse {o : Outcome} {other : Unit → Outcome} {x : Forest × Cursor}
    (h : (o.orElse other).result = some x) : o.result = some x ∨ (other ()).result = some x := by
  unfold orElse at h
  split at h
  · exact .inr h
  · exact .inl h

theorem result_under {r : Rule} {offset : Nat} {o : Outcome} {f : Forest} {c : Cursor}
    (h : (o.under r offset).result = some (f, c)) :
    ∃ g, f = .node r g .nil ∧ o.result = some (g, c) := by
  unfold under at h
  split at h
  · cases h
  · next g c' hsome =>
      cases h
      exact ⟨g, rfl, hsome⟩

end Outcome

theorem repeated_sound {item : Cursor → Outcome} (hi : ∀ c, (item c).Sound) (fuel : Nat)
    (c : Cursor) : (repeated item fuel c).Sound := by
  induction fuel generalizing c with
  | zero => exact Outcome.sound_stay c
  | succ fuel ih =>
      intro f c' h
      simp only [repeated] at h
      split at h
      · exact Outcome.sound_stay c f c' h
      · split at h
        · cases h
          trivial
        · split at h
          · obtain ⟨f₁, c₁, f₂, h₁, h₂, rfl⟩ := Outcome.result_andThen h
            exact (hi c f₁ c₁ h₁).append (ih c₁ f₂ c' h₂)
          · exact hi c f c' h

namespace Peg

variable {call : Rule → Cursor → Outcome}

theorem run_sound (hcall : ∀ r c, (call r c).Sound) (e : Peg) (c : Cursor) :
    (e.run call c).Sound := by
  induction e generalizing c with
  | token t =>
      intro f c' h
      simp only [run, Token.run] at h
      split at h
      · cases h
      · cases h
        trivial
  | rule r => exact hcall r c
  | seq e e' ih ih' =>
      intro f c' h
      obtain ⟨f₁, c₁, f₂, h₁, h₂, rfl⟩ := Outcome.result_andThen h
      exact (ih c f₁ c₁ h₁).append (ih' c₁ f₂ c' h₂)
  | choice e e' ih ih' =>
      intro f c' h
      rcases Outcome.result_orElse h with h | h
      · exact ih c f c' h
      · exact ih' c f c' h
  | many e ih => exact repeated_sound ih _ c
  | optional e ih =>
      intro f c' h
      simp only [run] at h
      split at h
      · exact Outcome.sound_stay c f c' h
      · rcases Outcome.result_orElse h with h | h
        · exact ih c f c' h
        · exact Outcome.sound_stay c f c' h

/-- A match has the nodes that the expression requires. -/
theorem first?_of_requires
    (hcall : ∀ r c f c', (call r c).result = some (f, c') → ∃ g, f = .node r g .nil) {r : Rule}
    (e : Peg) {c c' : Cursor} {f : Forest} (he : e.requires r = true)
    (h : (e.run call c).result = some (f, c')) : (f.first? r).isSome = true := by
  induction e generalizing c c' f with
  | token _ | many _ _ | optional _ _ => cases he
  | rule r' =>
      obtain ⟨g, rfl⟩ := hcall r' c f c' h
      have hr : r' = r := by simpa [requires] using he
      simp [Forest.first?, hr]
  | seq e e' ih ih' =>
      obtain ⟨f₁, c₁, f₂, h₁, h₂, rfl⟩ := Outcome.result_andThen h
      rw [Forest.isSome_first?_append, Bool.or_eq_true]
      rcases Bool.or_eq_true_iff.1 he with he | he
      · exact .inl (ih he h₁)
      · exact .inr (ih' he h₂)
  | choice e e' ih ih' =>
      obtain ⟨he, he'⟩ := Bool.and_eq_true_iff.1 he
      rcases Outcome.result_orElse h with h | h
      · exact ih he h
      · exact ih' he' h

end Peg

namespace Rule

theorem node_of_runWithin (fuel : Nat) (r : Rule) (c : Cursor) (f : Forest) (c' : Cursor)
    (h : (r.runWithin fuel c).result = some (f, c')) : ∃ g, f = .node r g .nil := by
  cases fuel with
  | zero => cases h
  | succ fuel =>
      obtain ⟨g, rfl, _⟩ := Outcome.result_under h
      exact ⟨g, rfl⟩

theorem runWithin_sound (fuel : Nat) (r : Rule) (c : Cursor) : (r.runWithin fuel c).Sound := by
  induction fuel generalizing r c with
  | zero =>
      intro f c' h
      cases h
  | succ fuel ih =>
      intro f c' h
      obtain ⟨g, rfl, hbody⟩ := Outcome.result_under h
      refine ⟨⟨?_, fun r' hr' => Peg.first?_of_requires (node_of_runWithin fuel) _ hr' hbody⟩,
        Peg.run_sound ih _ c g c' hbody, trivial⟩
      intro t ht
      simp only [ht, Peg.run, Token.run] at hbody
      split at hbody
      · cases hbody
      · next n hn =>
          cases hbody
          have hn' : (c.ahead.take n).length = n :=
            List.length_take_of_le (Token.width_bounds hn).1
          exact ⟨c.behind, c.ahead.drop n, by simpa [Forest.text, hn'] using hn⟩

end Rule
end EnumNames.Grammar

namespace EnumNames

open EnumNames.Grammar

/-! ## Parsed files -/

structure ConstSpec.Named (s : ConstSpec) : Prop where
  names : ∀ id ∈ s.names, isIdentifier id.name.toList = true
  type : ∀ id, s.type = some (.ident id) → isIdentifier id.name.toList = true

theorem ConstSpec.Named.of_unplaced {s : ConstSpec} (h : s.unplaced.Named) : s.Named := by
  refine ⟨fun id hid => ?_, fun id hid => ?_⟩
  · exact h.names id.unplaced (List.mem_map_of_mem hid)
  · exact h.type id.unplaced (by simp [ConstSpec.unplaced, hid, TypeRef.unplaced])

structure SourceFile.Named (file : SourceFile) : Prop where
  package : isIdentifier file.package.toList = true
  specs : ∀ specs ∈ file.constBlocks, ∀ s ∈ specs, s.Named

namespace Grammar.Forest

variable {f : Forest}

theorem Sound.ident (hf : Rule.identifier.Fits f) : isIdentifier f.ident.name.toList = true := by
  simpa [Forest.ident] using hf.isIdentifier

theorem Sound.constSpec {s : ConstSpec} (hf : f.Sound) (h : f.constSpec = .ok s) : s.Named := by
  obtain ⟨values, _, hs⟩ := ok_of_bind h
  cases hs
  refine ⟨fun id hid => ?_, fun id hid => ?_⟩
  · obtain ⟨g, hg, rfl⟩ := List.mem_map.1 hid
    cases hlist : f.first? .identifierList with
    | none => simp [hlist] at hg
    | some list =>
        rw [hlist, Option.map_some, Option.getD_some] at hg
        exact Sound.ident ((hf.of_first? hlist).2.of_mem_every hg).1
  · obtain ⟨g, hg, htype⟩ := Option.map_eq_some_iff.1 hid
    obtain ⟨t, ht, hname⟩ := Option.bind_eq_some_iff.1 hg
    obtain ⟨n, hn, heq⟩ := Option.bind_eq_some_iff.1 hname
    cases heq
    have hsound := ((hf.of_first? ht).2.of_first? hn).2
    unfold typeRef at htype
    split at htype
    · next i hi =>
        cases htype
        obtain ⟨i', hi', heq⟩ := Option.bind_eq_some_iff.1 hi
        cases heq
        exact Sound.ident (hsound.of_first? hi').1
    · cases htype

theorem Sound.specs (hf : f.Sound) {bracketed item spec : Rule} {g : Forest}
    (h : g ∈ (Forest.specs (some f) bracketed item spec).1) : g.Sound := by
  simp only [Forest.specs] at h
  split at h
  · next list hlist =>
      obtain ⟨i, hi, hg⟩ := List.mem_filterMap.1 h
      exact (((hf.of_first? hlist).2.of_mem_every hi).2.of_first? hg).2
  · exact (hf.of_mem_every h).2

theorem Sound.decl {specs : List ConstSpec} {grouped : Bool} {loc : Loc} (hf : f.Sound)
    (h : f.decl = .ok (.consts specs grouped loc)) : ∀ s ∈ specs, s.Named := by
  unfold Forest.decl at h
  split at h
  · cases h
  · next d _ hd =>
      obtain ⟨specs', hspecs, heq⟩ := ok_of_bind h
      cases heq
      intro s hs
      obtain ⟨g, hg, hread⟩ := exists_of_mapM_ok hspecs hs
      cases hbody : d.first? .constBody with
      | none => simp [hbody] at hg
      | some body =>
          rw [hbody] at hg
          exact (Sound.specs ((hf.of_first? hd).2.of_first? hbody).2 hg).constSpec hread
  · cases h

theorem Sound.sourceFile {path : String} {file : SourceFile} (hf : f.Sound)
    (hfit : Rule.sourceFile.Fits f) (h : f.sourceFile path = .ok file) : file.Named := by
  obtain ⟨decls, hdecls, heq⟩ := ok_of_bind h
  cases heq
  refine ⟨?_, fun specs hspecs s hs => ?_⟩
  · obtain ⟨clause, hclause⟩ := Option.isSome_iff_exists.1 (hfit.children .packageClause rfl)
    obtain ⟨hfits, hsound⟩ := hf.of_first? hclause
    obtain ⟨name, hname⟩ := Option.isSome_iff_exists.1 (hfits.children .identifier rfl)
    have hident := (hsound.of_first? hname).1.isIdentifier
    simpa [reach?, hclause, hname] using hident
  · obtain ⟨d, hd, hblock⟩ := List.mem_filterMap.1 hspecs
    obtain ⟨g, hg, hread⟩ := exists_of_mapM_ok hdecls hd
    obtain ⟨t, ht, htop⟩ := List.mem_filterMap.1 hg
    have hsound := ((hf.of_mem_every ht).2.of_first? htop).2
    cases d with
    | types _ _ _ | other _ _ _ => cases hblock
    | consts specs' grouped loc =>
        cases hblock
        exact hsound.decl hread s hs

end Grammar.Forest

namespace SourceFile

/-- A parsed file is read off a sound syntax tree. -/
theorem forest_of_parse {path text : String} {file : SourceFile}
    (h : SourceFile.parse path text = .ok file) :
    ∃ f : Forest, Rule.sourceFile.Fits f ∧ f.Sound ∧ f.sourceFile path = .ok file.unplaced := by
  delta parse at h
  dsimp only at h
  split at h
  · cases h
  · next tree hmatch =>
      obtain ⟨g, c, hrun, rfl⟩ : ∃ g c, (Rule.sourceFile.run (.ofText text.toList 0)).result =
          some (.node .sourceFile g .nil, c) ∧ tree = ⟨.sourceFile, 0, g⟩ := by
        unfold Rule.matchRest at hmatch
        split at hmatch
        · cases hmatch
        · next b c hsome =>
            have htree : tree = b := by
              split at hmatch <;> cases hmatch
              rfl
            subst htree
            simp only [Rule.matchSome] at hsome
            split at hsome
            · cases hsome
            · next f c' hres =>
                obtain ⟨g, rfl⟩ := Rule.node_of_runWithin _ _ _ _ _ hres
                cases hsome
                exact ⟨g, c, hres, rfl⟩
      have hsound := Rule.runWithin_sound _ _ _ _ _ hrun
      have hread := (Reader.ofText path text.toList).sourceFile_unplaced ⟨.sourceFile, 0, g⟩
      rw [ok_of_mapError h] at hread
      exact ⟨g, hsound.1, hsound.2.1, hread.symm⟩

theorem constBlocks_unplaced (file : SourceFile) :
    file.unplaced.constBlocks = file.constBlocks.map (·.map (·.unplaced)) := by
  simp only [constBlocks, unplaced, List.filterMap_map, List.map_filterMap]
  congr 1
  funext d
  cases d <;> rfl

/-- A parsed file has identifiers for names. -/
theorem named_of_parse {path text : String} {file : SourceFile}
    (h : SourceFile.parse path text = .ok file) : file.Named := by
  obtain ⟨f, hfit, hsound, hread⟩ := forest_of_parse h
  have hnamed := hsound.sourceFile hfit hread
  refine ⟨hnamed.package, fun specs hspecs s hs => .of_unplaced ?_⟩
  refine hnamed.specs (specs.map (·.unplaced)) ?_ _ (List.mem_map_of_mem hs)
  rw [constBlocks_unplaced]
  exact List.mem_map_of_mem hspecs

end SourceFile

/-! ## Tables -/

/-- The names of a table are identifiers, and so is its type once it holds a constant. -/
structure Table.Named (type : String) (t : Table) : Prop where
  names : ∀ name ∈ t.names, isIdentifier name.toList = true
  type : t.values ≠ [] → isIdentifier type.toList = true

theorem Table.Named.record {type name display : String} {value : Int} {t : Table}
    (h : t.Named type) (hn : isIdentifier name.toList = true)
    (ht : isIdentifier type.toList = true) : (t.record name value display).Named type := by
  refine ⟨fun n hmem => ?_, fun _ => ht⟩
  simp only [Table.record] at hmem
  split at hmem
  · exact h.names n hmem
  · rcases List.mem_append.1 hmem with hmem | hmem
    · exact h.names n hmem
    · rw [List.mem_singleton.1 hmem]
      exact hn

namespace Resolve

variable {o : Options}

structure State.Named (type : String) (s : State) : Prop where
  table : s.table.Named type
  type : s.belongs = true → isIdentifier type.toList = true

theorem named_of_belongs {type : String} {before : Bool} {spec : ConstSpec} (hs : spec.Named)
    (hb : before = true → isIdentifier type.toList = true)
    (h : Resolve.belongs type before spec = true) : isIdentifier type.toList = true := by
  unfold Resolve.belongs at h
  split at h
  · next t ht =>
      cases t with
      | verbatim _ _ => cases h
      | ident id =>
          have hid : id.name = type := by simpa [TypeRef.isNamed] using h
          exact hid ▸ hs.type id ht
  · exact hb h

theorem step_named {s s' : State} {spec : ConstSpec} (hspec : spec.Named) (hs : s.Named o.type)
    (h : (step o s spec).result = .ok s') : s'.Named o.type := by
  rcases Folding.cases_of_step h with ⟨_, rfl⟩ | ⟨hb, id, value, counter, hid, rfl⟩
  · exact ⟨hs.table, fun hfalse => by cases hfalse⟩
  · have htype := named_of_belongs hspec hs.type hb
    have hname := hspec.names id (by simp [hid])
    refine ⟨?_, fun _ => htype⟩
    dsimp only
    split
    · exact hs.table
    · exact hs.table.record hname htype

theorem block_named {specs : List ConstSpec} {t t' : Table} (hspecs : ∀ s ∈ specs, s.Named)
    (ht : t.Named o.type) (h : (block o t specs).result = .ok t') : t'.Named o.type := by
  obtain ⟨s, hs, heq⟩ := Logged.ok_of_result_bind h
  cases heq
  have hstart : State.Named o.type { table := t } := ⟨ht, fun hfalse => by cases hfalse⟩
  exact (Logged.foldlM_keeps (fun spec hmem _ _ hi => step_named (hspecs spec hmem) hi) hstart
    hs).table

end Resolve

/-- The table of constants has identifiers for names, and its type is an identifier. -/
theorem named_of_resolve {o : Options} {files : List SourceFile} {table : Table}
    (hfiles : ∀ file ∈ files, file.Named) (h : (resolve o files).result = .ok table) :
    (∀ name ∈ table.names, isIdentifier name.toList = true) ∧
      isIdentifier o.type.toList = true := by
  obtain ⟨t, ht, hrest⟩ := Logged.ok_of_result_bind h
  have hstart : ({} : Table).Named o.type := by
    refine ⟨fun _ hmem => ?_, fun hne => absurd rfl hne⟩
    cases hmem
  have hnamed : t.Named o.type := by
    refine Logged.foldlM_keeps (fun specs hmem t t' hi => ?_) hstart ht
    obtain ⟨file, hfile, hblock⟩ := List.mem_flatMap.1 hmem
    exact Resolve.block_named ((hfiles file hfile).specs specs hblock) hi
  split at hrest
  · cases hrest
  · next hempty =>
      simp only [Logged.result_bind, Logged.result_note, ok_bind, Logged.result_pure] at hrest
      cases hrest
      refine ⟨hnamed.names, hnamed.type ?_⟩
      rintro hnil
      simp [Table.isEmpty, hnil] at hempty

end EnumNames
