import EnumNames.Proofs.BlockEntries
import Mathlib.Data.List.Perm.Basic

/-!
Blocks that have nothing to do with each other. When neither of two blocks
declares a name that the other declares or refers to, each adds the same entries
whichever comes first, and the tables differ in the order of names only. So do
the tables of files in another order, when no two of them share a name.
-/

namespace EnumNames

namespace Table

variable {t u : Table}

structure Rearranged (t u : Table) : Prop where
  names : t.names.Perm u.names
  values : ∀ name, t.value? name = u.value? name
  displays : ∀ name, t.display? name = u.display? name

theorem eq_nil_of_lookup {α : Type} {entries : List (String × α)}
    (h : ∀ name, entries.lookup name = none) : entries = [] := by
  cases entries with
  | nil => rfl
  | cons e entries =>
      have hfirst := h e.1
      rw [lookup_cons_ite, if_pos rfl] at hfirst
      cases hfirst

theorem isEmpty_of_agree (h : ∀ name, t.AgreeAt u name) (ht : t.isEmpty = true) :
    u.isEmpty = true := by
  simp only [isEmpty, Bool.or_eq_true, List.isEmpty_iff] at ht ⊢
  rcases ht with ht | ht
  · refine .inl (eq_nil_of_lookup fun name => (h name).value.symm.trans ?_)
    rw [value?, ht]
    rfl
  · refine .inr (eq_nil_of_lookup fun name => (h name).display.symm.trans ?_)
    rw [display?, ht]
    rfl

/-- Tables of runs with the same maps have the same names. -/
theorem Coherent.rearranged (ht : t.Coherent) (hu : u.Coherent)
    (h : ∀ name, t.AgreeAt u name) : t.Rearranged u := by
  refine ⟨?_, fun name => (h name).value, fun name => (h name).display⟩
  rw [List.perm_ext_iff_of_nodup ht.nodup hu.nodup]
  intro name
  rw [ht.values, hu.values, (h name).value]

/-- Entries of different names may be added in either order. -/
theorem recordAll_swap {a b : List Entry} (t : Table)
    (h : ∀ name ∈ a.map (·.name), name ∉ b.map (·.name)) (name : String) :
    ((t.recordAll a).recordAll b).AgreeAt ((t.recordAll b).recordAll a) name := by
  by_cases ha : name ∈ a.map (·.name)
  · exact (recordAll_agreeAt _ (h name ha)).trans (agreeAt_recordAll a (.inl ha))
  · have hrest : (t.recordAll a).AgreeAt t name := recordAll_agreeAt t ha
    exact (agreeAt_recordAll b (.inr hrest)).trans (recordAll_agreeAt _ ha).symm

end Table

/-! ## Independence -/

namespace Folding

/-- No name that the first specifications declare is declared or referred to by the others. -/
def Apart (a b : List ConstSpec) : Prop :=
  ∀ name ∈ declared a, name ∉ declared b ∧ name ∉ referenced b

def Independent (a b : List ConstSpec) : Prop := Apart a b ∧ Apart b a

instance (a b : List ConstSpec) : Decidable (Independent a b) := by
  unfold Independent Apart
  infer_instance

theorem Independent.symm {a b : List ConstSpec} (h : Independent a b) : Independent b a :=
  ⟨h.2, h.1⟩

end Folding

namespace Resolve

open Folding

variable {o : Options} {t t' u : Table} {a b blocks : List (List ConstSpec)}

/-- From tables with the same maps, blocks come to tables with the same maps. -/
theorem blocks_agree (h : (blocks.foldlM (block o) t).result = .ok t')
    (htu : ∀ name, t.AgreeAt u name) :
    ∃ u', (blocks.foldlM (block o) u).result = .ok u' ∧ ∀ name, t'.AgreeAt u' name := by
  obtain ⟨entries, _, rfl, hrun⟩ := blocks_adds h
  refine ⟨u.recordAll entries, hrun u fun r _ => (htu r).value, fun name => ?_⟩
  exact Table.agreeAt_recordAll entries (.inr (htu name))

/-- Independent blocks come to the same maps in either order. -/
theorem blocks_swap (hind : Independent (matchedIn o.type a) (matchedIn o.type b))
    (h : ((a ++ b).foldlM (block o) t).result = .ok t') :
    ∃ u', ((b ++ a).foldlM (block o) t).result = .ok u' ∧ ∀ name, t'.AgreeAt u' name := by
  rw [foldlM_append_result] at h ⊢
  obtain ⟨t₁, ha, hb⟩ := ok_of_bind h
  obtain ⟨first, hfirst, rfl, hrunA⟩ := blocks_adds ha
  obtain ⟨second, hsecond, rfl, hrunB⟩ := blocks_adds hb
  -- Neither writes where the other reads, so each adds its entries from the start as well.
  have hreadsB : ∀ r ∈ referenced (matchedIn o.type b),
      (t.recordAll first).value? r = t.value? r := by
    intro r hr
    have hfree : r ∉ first.map (·.name) := fun hmem => (hind.1 r ((hfirst r).1 hmem)).2 hr
    exact (Table.recordAll_agreeAt t hfree).value
  have hreadsA : ∀ r ∈ referenced (matchedIn o.type a),
      t.value? r = (t.recordAll second).value? r := by
    intro r hr
    have hfree : r ∉ second.map (·.name) := fun hmem => (hind.2 r ((hsecond r).1 hmem)).2 hr
    exact (Table.recordAll_agreeAt t hfree).value.symm
  have hb' : (b.foldlM (block o) t).result = .ok (t.recordAll second) := hrunB t hreadsB
  have ha' : (a.foldlM (block o) (t.recordAll second)).result =
      .ok ((t.recordAll second).recordAll first) := hrunA _ hreadsA
  rw [hb', ok_bind, ha']
  refine ⟨_, rfl, Table.recordAll_swap t fun name hmem hmem' => ?_⟩
  exact (hind.1 name ((hfirst name).1 hmem)).1 ((hsecond name).1 hmem')

/-- The same in the middle of a run. -/
theorem blocks_swap_between (before : List (List ConstSpec)) {after : List (List ConstSpec)}
    (hind : Independent (matchedIn o.type a) (matchedIn o.type b))
    (h : ((before ++ (a ++ b ++ after)).foldlM (block o) t).result = .ok t') :
    ∃ u', ((before ++ (b ++ a ++ after)).foldlM (block o) t).result = .ok u' ∧
      ∀ name, t'.AgreeAt u' name := by
  rw [foldlM_append_result] at h ⊢
  obtain ⟨t₁, hbefore, h⟩ := ok_of_bind h
  rw [hbefore, ok_bind, foldlM_append_result]
  rw [foldlM_append_result] at h
  obtain ⟨t₂, hmiddle, hafter⟩ := ok_of_bind h
  obtain ⟨u₂, hswapped, hagree⟩ := blocks_swap hind hmiddle
  rw [hswapped, ok_bind]
  exact blocks_agree hafter hagree

end Resolve

/-! ## Runs in another order -/

open Folding

/-- Both runs find constants or neither does, and what they find is the same but for the order. -/
def Rearranges (x y : Except Failure Table) : Prop :=
  ((∃ t, x = .ok t) ↔ ∃ u, y = .ok u) ∧ ∀ t u, x = .ok t → y = .ok u → t.Rearranged u

variable {o : Options} {files others : List SourceFile}

/-- Runs that come to tables with the same maps, both ways, rearrange the constants. -/
theorem rearranges_of_agree
    (hto : ∀ t, ((files.flatMap (·.constBlocks)).foldlM (Resolve.block o) {}).result = .ok t →
      ∃ u, ((others.flatMap (·.constBlocks)).foldlM (Resolve.block o) {}).result = .ok u ∧
        ∀ name, t.AgreeAt u name)
    (hback : ∀ u, ((others.flatMap (·.constBlocks)).foldlM (Resolve.block o) {}).result = .ok u →
      ∃ t, ((files.flatMap (·.constBlocks)).foldlM (Resolve.block o) {}).result = .ok t ∧
        ∀ name, u.AgreeAt t name) :
    Rearranges (resolve o files).result (resolve o others).result := by
  have hne : ∀ {t u : Table}, (∀ name, t.AgreeAt u name) → t.isEmpty = false →
      u.isEmpty = false := by
    intro t u h ht
    by_contra hu
    rw [Bool.not_eq_false] at hu
    rw [Table.isEmpty_of_agree (fun name => (h name).symm) hu] at ht
    cases ht
  refine ⟨⟨?_, ?_⟩, fun t u ht hu => ?_⟩
  · rintro ⟨t, ht⟩
    obtain ⟨hrun, hempty⟩ := resolve_eq_ok.1 ht
    obtain ⟨u, hu, hagree⟩ := hto t hrun
    exact ⟨u, resolve_eq_ok.2 ⟨hu, hne hagree hempty⟩⟩
  · rintro ⟨u, hu⟩
    obtain ⟨hrun, hempty⟩ := resolve_eq_ok.1 hu
    obtain ⟨t, ht, hagree⟩ := hback u hrun
    exact ⟨t, resolve_eq_ok.2 ⟨ht, hne hagree hempty⟩⟩
  · obtain ⟨u', hu', hagree⟩ := hto t (resolve_eq_ok.1 ht).1
    obtain rfl := Except.ok.inj ((resolve_eq_ok.1 hu).1.symm.trans hu')
    exact (Table.coherent_of_resolve ht).rearranged (Table.coherent_of_resolve hu) hagree

def SourceFile.matched (type : String) (file : SourceFile) : List ConstSpec :=
  matchedIn type file.constBlocks

theorem files_perm (hperm : files.Perm others)
    (hind : files.Pairwise fun f g => Independent (f.matched o.type) (g.matched o.type))
    {t u t' : Table} (htu : ∀ name, t.AgreeAt u name)
    (h : ((files.flatMap (·.constBlocks)).foldlM (Resolve.block o) t).result = .ok t') :
    ∃ u', ((others.flatMap (·.constBlocks)).foldlM (Resolve.block o) u).result = .ok u' ∧
      ∀ name, t'.AgreeAt u' name := by
  induction hperm generalizing t u t' with
  | nil => exact Resolve.blocks_agree h htu
  | cons f _ ih =>
      rw [List.flatMap_cons, Resolve.foldlM_append_result] at h ⊢
      obtain ⟨t₁, hf, hrest⟩ := ok_of_bind h
      obtain ⟨u₁, hu₁, hagree⟩ := Resolve.blocks_agree hf htu
      rw [hu₁, ok_bind]
      exact ih (List.pairwise_cons.1 hind).2 hagree hrest
  | swap f g files =>
      have hfg : Independent (g.matched o.type) (f.matched o.type) :=
        (List.pairwise_cons.1 hind).1 f (by simp)
      obtain ⟨u₁, hu₁, hagree₁⟩ := Resolve.blocks_agree h htu
      simp only [List.flatMap_cons] at hu₁ ⊢
      rw [← List.append_assoc] at hu₁ ⊢
      obtain ⟨u₂, hu₂, hagree₂⟩ := Resolve.blocks_swap_between [] hfg hu₁
      exact ⟨u₂, hu₂, fun name => (hagree₁ name).trans (hagree₂ name)⟩
  | trans hfirst _ ih₁ ih₂ =>
      obtain ⟨u₁, hu₁, hagree₁⟩ := ih₁ hind htu h
      obtain ⟨u₂, hu₂, hagree₂⟩ := ih₂ ((hfirst.pairwise_iff Independent.symm).1 hind)
        (fun _ => ⟨rfl, rfl⟩) hu₁
      exact ⟨u₂, hu₂, fun name => (hagree₁ name).trans (hagree₂ name)⟩

/-- Two adjacent blocks that are independent may change places, however the blocks are divided
among files, and files of which every two are independent may stand in any order. -/
theorem independent_blocks_commute (o : Options) :
    (∀ (files others : List SourceFile) (before after : List (List ConstSpec))
        (a b : List ConstSpec),
      files.flatMap (·.constBlocks) = before ++ a :: b :: after →
      others.flatMap (·.constBlocks) = before ++ b :: a :: after →
      Independent (matchedSpecs o.type a) (matchedSpecs o.type b) →
      Rearranges (resolve o files).result (resolve o others).result) ∧
    ∀ files others : List SourceFile, files.Perm others →
      files.Pairwise (fun f g => Independent (f.matched o.type) (g.matched o.type)) →
      Rearranges (resolve o files).result (resolve o others).result := by
  refine ⟨?_, ?_⟩
  · intro files others before after a b hfiles hothers hind
    have hind' : Independent (matchedIn o.type [a]) (matchedIn o.type [b]) := by
      simpa [matchedIn] using hind
    refine rearranges_of_agree (fun t ht => ?_) fun u hu => ?_
    · rw [hothers]
      rw [hfiles] at ht
      exact Resolve.blocks_swap_between _ hind' ht
    · rw [hfiles]
      rw [hothers] at hu
      exact Resolve.blocks_swap_between _ hind'.symm hu
  · intro files others hperm hind
    have hind' := (hperm.pairwise_iff Independent.symm).1 hind
    exact rearranges_of_agree (fun t ht => files_perm hperm hind (fun _ => ⟨rfl, rfl⟩) ht)
      fun u hu => files_perm hperm.symm hind' (fun _ => ⟨rfl, rfl⟩) hu

/-! ## Two blocks and one that refers to both -/

def blocksFile (blocks : List (List ConstSpec)) : SourceFile :=
  { package := "p", decls := blocks.map fun specs => .consts specs true {} }

def colours : List ConstSpec :=
  [namedSpec "Red" "T" [.ident ⟨iotaName, {}⟩], namedSpec "Green" none []]

def shades : List ConstSpec :=
  [namedSpec "Dark" "T" [.binary "+" (.ident ⟨iotaName, {}⟩) (.int "5" {}) {}],
   namedSpec "_" none [], namedSpec "Light" none []]

def mixtures : List ConstSpec :=
  [namedSpec "Pale" "T" [.ident ⟨"Light", {}⟩],
   namedSpec "Olive" none [.binary "-" (.ident ⟨iotaName, {}⟩) (.ident ⟨"Green", {}⟩) {}]]

theorem colours_shades_commute :
    Independent (matchedSpecs "T" colours) (matchedSpecs "T" shades) ∧
      ((resolve { type := "T" } [blocksFile [colours], blocksFile [shades, mixtures]]).result.map
        (·.names)) = .ok ["Red", "Green", "Dark", "Light", "Pale", "Olive"] ∧
      ((resolve { type := "T" } [blocksFile [shades, colours, mixtures]]).result.map
        (·.names)) = .ok ["Dark", "Light", "Red", "Green", "Pale", "Olive"] ∧
      Rearranges
        (resolve { type := "T" } [blocksFile [colours], blocksFile [shades, mixtures]]).result
        (resolve { type := "T" } [blocksFile [shades, colours, mixtures]]).result ∧
      Rearranges
        (resolve { type := "T" } [blocksFile [colours], blocksFile [shades]]).result
        (resolve { type := "T" } [blocksFile [shades], blocksFile [colours]]).result := by
  have hblocks : Independent (matchedSpecs "T" colours) (matchedSpecs "T" shades) := by
    decide +kernel
  have hfiles : Independent ((blocksFile [colours]).matched "T")
      ((blocksFile [shades]).matched "T") := by
    decide +kernel
  refine ⟨hblocks, by decide +kernel, by decide +kernel, ?_, ?_⟩
  · exact (independent_blocks_commute { type := "T" }).1 _ _ [] [mixtures] colours shades rfl rfl
      hblocks
  · refine (independent_blocks_commute { type := "T" }).2 _ _ (.swap _ _ _) ?_
    simpa using hfiles

end EnumNames
