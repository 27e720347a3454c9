import EnumNames.Proofs.AtomicOutput
import EnumNames.Proofs.EmittedCode
import EnumNames.Proofs.LongLiteral

/-!
How generating code can fail. There is no code for a table when both names for
the receiver are constants, and none when a value has more digits than can be
written; in every other case there is. A run of the program ends with one of
three exit codes, however its files are had, unless such a value, a null
character in a path or a surrogate in the output breaks it off. Arguments are
Unicode text: surrogates among them are known by what they do to the output.
-/

namespace EnumNames

open Numeral (Short)

/-! ## Null characters in paths -/

namespace Path

open Text

variable {c : Char} {cs part : List Char} {parts kept : List (List Char)}

theorem mem_of_mem_splitAt {sep : Char} (hpart : part ∈ splitAt sep cs) (hc : c ∈ part) : c ∈ cs := by
  induction cs generalizing part with
  | nil =>
      rw [splitAt, List.mem_singleton] at hpart
      exact hpart ▸ hc
  | cons d cs ih =>
      rw [splitAt] at hpart
      split at hpart
      · rcases List.mem_cons.1 hpart with rfl | hpart
        · cases hc
        · exact List.mem_cons_of_mem d (ih hpart hc)
      · cases hparts : splitAt sep cs with
        | nil => exact absurd hparts (splitAt_ne_nil sep cs)
        | cons first rest =>
            rw [hparts] at hpart ih
            rcases List.mem_cons.1 hpart with rfl | hpart
            · rcases List.mem_cons.1 hc with rfl | hc
              · exact List.mem_cons_self ..
              · exact List.mem_cons_of_mem d (ih (List.mem_cons_self ..) hc)
            · exact List.mem_cons_of_mem d (ih (List.mem_cons_of_mem _ hpart) hc)

theorem mem_of_mem_joinParts (h : c ∈ joinParts parts) : c = '/' ∨ ∃ part ∈ parts, c ∈ part := by
  rw [joinParts] at h
  induction parts with
  | nil => cases h
  | cons first rest ih =>
      by_cases hrest : rest = []
      · subst hrest
        rw [List.intercalate_singleton] at h
        exact .inr ⟨first, List.mem_cons_self .., h⟩
      · rw [List.intercalate_cons_of_ne_nil hrest, List.mem_append, List.mem_append,
          List.mem_singleton] at h
        rcases h with (h | h) | h
        · exact .inr ⟨first, List.mem_cons_self .., h⟩
        · exact .inl h
        · exact (ih h).imp_right fun ⟨part, hpart, hc⟩ =>
            ⟨part, List.mem_cons_of_mem first hpart, hc⟩

theorem mem_of_mem_keepPart {absolute : Bool} {p : List Char}
    (h : p ∈ keepPart absolute kept part) : p = part ∨ p ∈ kept := by
  unfold keepPart at h
  split at h
  · exact .inr h
  · split at h
    · cases kept with
      | nil =>
          dsimp only at h
          split at h
          · cases h
          · exact .inl (List.mem_singleton.1 h)
      | cons last rest =>
          dsimp only at h
          split at h
          · exact List.mem_cons.1 h
          · exact .inr (List.mem_cons_of_mem last h)
    · exact List.mem_cons.1 h

theorem mem_of_mem_kept {absolute : Bool} {p : List Char}
    (h : p ∈ parts.foldl (keepPart absolute) kept) : p ∈ parts ∨ p ∈ kept := by
  induction parts generalizing kept with
  | nil => exact .inr h
  | cons part parts ih =>
      rcases ih h with h | h
      · exact .inl (List.mem_cons_of_mem part h)
      · rcases mem_of_mem_keepPart h with rfl | h
        · exact .inl (List.mem_cons_self ..)
        · exact .inr h

/-- Normalising puts in slashes and dots only. -/
theorem mem_of_mem_normalize (h : c ∈ normalize cs) : c ∈ cs ∨ c = '/' ∨ c = '.' := by
  unfold normalize at h
  dsimp only at h
  split at h
  · exact .inr (.inr (List.mem_singleton.1 h))
  · rcases List.mem_append.1 h with h | h
    · exact .inr (.inl (List.eq_of_mem_replicate h))
    · rcases mem_of_mem_joinParts h with rfl | ⟨part, hpart, hc⟩
      · exact .inr (.inl rfl)
      · rcases mem_of_mem_kept (List.mem_reverse.1 hpart) with hpart | hpart
        · exact .inl (mem_of_mem_splitAt hpart hc)
        · cases hpart

theorem mem_of_mem_dropEndWhile {p : Char → Bool} (h : c ∈ dropEndWhile p cs) : c ∈ cs :=
  List.mem_reverse.1 ((List.dropWhile_sublist p).subset (List.mem_reverse.1 h))

theorem mem_of_mem_directory (h : c ∈ directory cs) : c ∈ cs := by
  unfold directory at h
  dsimp only at h
  split at h
  · exact mem_of_mem_dropEndWhile h
  · exact mem_of_mem_dropEndWhile (mem_of_mem_dropEndWhile h)

theorem hasNull_of_directory (h : hasNull (normalize (directory cs)) = true) :
    hasNull cs = true := by
  rw [hasNull, List.contains_iff_mem] at h ⊢
  rcases mem_of_mem_normalize h with h | h | h
  · exact mem_of_mem_directory h
  · exact absurd h (by decide)
  · exact absurd h (by decide)

end Path

/-! ## Failures of a run -/

theorem Logged.error_of_mapM {α β : Type} {read : α → Logged β} {as : List α} {f : Failure}
    (h : (as.mapM read).result = .error f) : ∃ a ∈ as, (read a).result = .error f := by
  suffices hloop : ∀ done, (List.mapM.loop read as done).result = .error f →
      ∃ a ∈ as, (read a).result = .error f from hloop [] h
  clear h
  induction as with
  | nil => exact fun _ h => by cases h
  | cons a as ih =>
      intro done h
      rw [List.mapM.loop, Logged.result_bind] at h
      rcases error_of_bind h with h | ⟨b, _, h⟩
      · exact ⟨a, List.mem_cons_self .., h⟩
      · obtain ⟨a', ha', hread⟩ := ih (b :: done) h
        exact ⟨a', List.mem_cons_of_mem a ha', hread⟩

theorem FailsWithin.diagnostic {α : Type} {kinds : List Kind} {x : Except Failure α} {f : Failure}
    (h : FailsWithin kinds x) (hf : x = .error f) : ∃ d, f = .diagnostic d := by
  obtain ⟨k, _, hkind⟩ := h f hf
  cases f with
  | diagnostic d => exact ⟨d, rfl⟩
  | numeral _ | rune _ | nullInPath | unencodable _ => cases hkind

variable {opener : Opener} {o : Options} {f : Failure}

def Options.FindsLong (o : Options) (opener : Opener) : Prop :=
  ∃ a, (analyze opener o).result = .ok a ∧ ∃ r ∈ a.table.records, ¬ Short r.value

def Options.HasNullPath (o : Options) : Prop :=
  (∃ path ∈ o.files, Path.hasNull path.toList = true) ∨ Path.hasNull o.destination.toList = true

theorem load_failure {path : String} (h : (SourceFile.load opener path).result = .error f) :
    (∃ d, f = .diagnostic d) ∨ f = .nullInPath ∧ Path.hasNull path.toList = true := by
  unfold SourceFile.load at h
  split at h
  · next hnull => exact .inr ⟨(Except.error.inj h).symm, hnull⟩
  · split at h
    · exact .inl ⟨_, (Except.error.inj h).symm⟩
    · next text _ =>
        rw [Logged.result_bind, Logged.result_ofResult] at h
        rcases error_of_bind h with h | ⟨_, _, h⟩
        · exact .inl ((parse_failsWithin path text).diagnostic h)
        · cases h

theorem loadAll_failure {paths : List String}
    (h : (SourceFile.loadAll opener paths).result = .error f) :
    (∃ d, f = .diagnostic d) ∨
      f = .nullInPath ∧ ∃ path ∈ paths, Path.hasNull path.toList = true := by
  rw [SourceFile.loadAll, Logged.result_bind] at h
  rcases error_of_bind h with h | ⟨files, _, h⟩
  · obtain ⟨path, hpath, h⟩ := Logged.error_of_mapM h
    exact (load_failure h).imp_right fun ⟨hf, hnull⟩ => ⟨hf, path, hpath, hnull⟩
  · rw [Logged.result_bind, Logged.result_ofResult] at h
    rcases error_of_bind h with h | ⟨_, _, h⟩
    · cases hpackage : SourceFile.commonPackage "" "" files with
      | error d =>
          rw [hpackage] at h
          exact .inl ⟨d, (Except.error.inj h).symm⟩
      | ok _ =>
          rw [hpackage] at h
          cases h
    · cases h

theorem analyze_failure (h : (analyze opener o).result = .error f) :
    (∃ d, f = .diagnostic d) ∨
      f = .nullInPath ∧ ∃ path ∈ o.files, Path.hasNull path.toList = true := by
  rw [analyze, Logged.result_bind, Logged.result_ofResult] at h
  rcases error_of_bind h with h | ⟨_, _, h⟩
  · cases hcheck : o.check with
    | error p =>
        rw [hcheck] at h
        exact .inl ⟨p.diagnostic, (Except.error.inj h).symm⟩
    | ok _ =>
        rw [hcheck] at h
        cases h
  · rw [Logged.result_bind] at h
    rcases error_of_bind h with h | ⟨⟨files, package⟩, _, h⟩
    · exact loadAll_failure h
    · dsimp only at h
      rw [Logged.result_bind] at h
      rcases error_of_bind h with h | ⟨_, _, h⟩
      · exact .inl ((checkType_failsWithin o.type files).diagnostic h)
      · rw [Logged.result_bind] at h
        rcases error_of_bind h with h | ⟨_, _, h⟩
        · exact .inl ((resolve_failsWithin o files).diagnostic h)
        · cases h

theorem code_failure {package : String} {table : Table}
    (h : Artifact.code o package table = .error f) :
    (∃ d, f = .diagnostic d) ∨
      f = .numeral .tooLongToWrite ∧ ∃ r ∈ table.records, ¬ Short r.value := by
  by_cases hnames : table.contains "i" = true ∧ table.contains "_i" = true
  · exact .inl ⟨_, Except.error.inj (h.symm.trans (Artifact.code_of_collision hnames))⟩
  · obtain ⟨name, hname⟩ := Artifact.exists_receiver hnames
    by_cases hshort : ∀ r ∈ table.records, Short r.value
    · cases (Artifact.code_of_short hname hshort).symm.trans h
    · have hlong : ∃ r ∈ table.records, ¬ Short r.value := by simpa using hshort
      exact .inr ⟨Except.error.inj (h.symm.trans (Artifact.code_of_long hname hlong)), hlong⟩

/-- What can stop a run before anything is written. -/
theorem stringify_failure (h : (stringify opener o).result = .error f) :
    (∃ d, f = .diagnostic d) ∨ f = .nullInPath ∧ o.HasNullPath ∨
      f = .numeral .tooLongToWrite ∧ o.FindsLong opener := by
  rw [stringify, Logged.result_bind] at h
  rcases error_of_bind h with h | ⟨a, ha, h⟩
  · exact (analyze_failure h).imp_right fun ⟨hf, hnull⟩ => .inl ⟨hf, .inl hnull⟩
  · rw [result_generate] at h
    exact (code_failure h).imp_right fun ⟨hf, hlong⟩ => .inr ⟨hf, a, ha, hlong⟩

/-! ## Exit codes -/

theorem exitCode_mem (d : Diagnostic) : exitCode d ∈ [0, 1, 2] := by
  unfold exitCode
  split <;> simp

namespace Publish

variable {c : Conditions} {umask : Nat} {t : FileTree} {dest text : String} {fault : Fault}

/-- A fault that is not the system's has its cause in the path or in the text. -/
def Fault.Founded (c : Conditions) (dest : String) : Fault → Prop
  | .system _ => True
  | .nullInPath _ => Path.hasNull dest.toList = true
  | .unencodable surrogates _ => c.surrogates = some surrogates

theorem founded_of_openTemp {dir : List Char} {draws : List String}
    (h : openTemp t dir draws = .error fault) : fault.Founded c dest := by
  unfold openTemp at h
  dsimp only at h
  split at h
  · exact Except.error.inj h ▸ trivial
  · split at h
    · cases h
    · exact Except.error.inj h ▸ trivial

theorem founded_of_chooseTemp {draws : List String} (h : chooseTemp t dest draws = .error fault) :
    fault.Founded c dest := by
  unfold chooseTemp at h
  split at h
  · next hnull =>
      cases h
      exact Path.hasNull_of_directory hnull
  · exact founded_of_openTemp h

theorem Course.founded {trace : Trace Place} (h : Course c umask t dest text trace)
    (hfault : trace.result = .error fault) : fault.Founded c dest := by
  cases h with
  | unchosen _ refused => exact founded_of_chooseTemp (Except.error.inj hfault ▸ refused)
  | uncreated _ | undone _ _ _ _ => exact Except.error.inj hfault ▸ trivial
  | unencodable _ _ _ _ found => exact Except.error.inj hfault ▸ found
  | unnameable _ _ _ null => exact Except.error.inj hfault ▸ null
  | done _ _ _ _ _ => cases hfault

end Publish

/-- A run ends with an exit code unless a null character, a long value or a surrogate breaks it
off. -/
theorem executeWith_exit (opener : Opener) (c : Publish.Conditions) (umask : Nat) (t : FileTree)
    (o : Options) :
    (∃ n ∈ [0, 1, 2], (executeWith opener c umask t o).exit = .ok n) ∨
      (executeWith opener c umask t o).exit = .error .nullInPath ∧ o.HasNullPath ∨
      (executeWith opener c umask t o).exit = .error (.numeral .tooLongToWrite) ∧
        o.FindsLong opener ∨
      ∃ s, (executeWith opener c umask t o).exit = .error (.unencodable s) ∧
        c.surrogates = some s := by
  unfold executeWith plan
  dsimp only
  cases hcode : (stringify opener o).result with
  | error f =>
      rcases stringify_failure hcode with ⟨d, rfl⟩ | ⟨rfl, hnull⟩ | ⟨rfl, hlong⟩
      · exact .inl ⟨_, exitCode_mem d, rfl⟩
      · exact .inr (.inl ⟨rfl, hnull⟩)
      · exact .inr (.inr (.inl ⟨rfl, hlong⟩))
  | ok code =>
      dsimp only
      by_cases hout : o.toStandardOutput = true
      · rw [if_pos hout, conclude]
        split
        · next surrogates hsurrogates =>
            exact .inr (.inr (.inr ⟨surrogates, rfl, hsurrogates⟩))
        · exact .inl ⟨0, by simp, rfl⟩
      · have hcourse := Publish.run_course c umask t o.destination code
        rw [if_neg hout, conclude]
        split
        · exact .inl ⟨_, exitCode_mem _, rfl⟩
        · next hnull => exact .inr (.inl ⟨rfl, .inr (hcourse.founded hnull)⟩)
        · next surrogates _ hsurrogates =>
            exact .inr (.inr (.inr ⟨surrogates, rfl, hcourse.founded hsurrogates⟩))
        · exact .inl ⟨0, by simp, rfl⟩

/-! ## Emission -/

/-- Generating code for the constants of files fails with a diagnostic exactly when both names for
the receiver are constants, and then it says so. Without that there is code when all values can be
written, and otherwise the writing of a number breaks it off. However its files are had, the program
ends with one of its exit codes unless such a number, a null character in a path or a surrogate in
the output breaks it off. -/
theorem emission_outcomes (o : Options) (files : List SourceFile) (package : String)
    (opener : Opener) (c : Publish.Conditions) (umask : Nat) (t : FileTree) (argv : List String) :
    (∀ table, (resolve o files).result = .ok table →
      ((generate o package table).result =
          .error (.diagnostic { cause := .receiverCollision ["i", "_i"] }) ↔
        "i" ∈ table.names ∧ "_i" ∈ table.names) ∧
      ((∃ code, (generate o package table).result = .ok code) ↔
        ¬ ("i" ∈ table.names ∧ "_i" ∈ table.names) ∧ ∀ r ∈ table.records, Short r.value) ∧
      ((generate o package table).result = .error (.numeral .tooLongToWrite) ↔
        ¬ ("i" ∈ table.names ∧ "_i" ∈ table.names) ∧ ¬ ∀ r ∈ table.records, Short r.value)) ∧
    ((∃ n ∈ [0, 1, 2], (CommandLine.runWith opener c umask t argv).exit = .ok n) ∨
      ∃ settings, CommandLine.parse argv = .ok settings ∧
        ((CommandLine.runWith opener c umask t argv).exit = .error .nullInPath ∧
            settings.options.HasNullPath ∨
          (CommandLine.runWith opener c umask t argv).exit = .error (.numeral .tooLongToWrite) ∧
            settings.options.FindsLong opener ∨
          ∃ s, (CommandLine.runWith opener c umask t argv).exit = .error (.unencodable s) ∧
            c.surrogates = some s)) := by
  constructor
  · intro table hresolve
    have hcoherent := Table.coherent_of_resolve hresolve
    have hnames : ∀ name, name ∈ table.names ↔ table.contains name = true := hcoherent.values
    rw [result_generate, hnames, hnames]
    by_cases hboth : table.contains "i" = true ∧ table.contains "_i" = true
    · simp [Artifact.code_of_collision hboth, hboth, Artifact.receiverCandidates]
    · obtain ⟨name, hname⟩ := Artifact.exists_receiver hboth
      by_cases hshort : ∀ r ∈ table.records, Short r.value
      · rw [Artifact.code_of_short hname hshort]
        simpa [hboth] using hshort
      · have hlong : ∃ r ∈ table.records, ¬ Short r.value := by simpa using hshort
        rw [Artifact.code_of_long hname hlong]
        simp [hboth, hshort]
  · unfold CommandLine.runWith
    cases hparse : CommandLine.parse argv with
    | error stop =>
        left
        cases stop with
        | help | version => exact ⟨0, by simp, rfl⟩
        | refused _ => exact ⟨2, by simp, rfl⟩
    | ok settings =>
        exact (executeWith_exit opener c umask t settings.options).imp_right fun h =>
          ⟨settings, rfl, h⟩

def receiverText : String := "package p\nconst i T = iota - 1\n"

def receiverTable : Table := { names := ["i"], values := [("i", -1)], displays := [("i", "i")] }

theorem receiver_name_free :
    ∃ file, SourceFile.parse "p.go" receiverText = .ok file ∧
      (resolve { type := "T" } [file]).result = .ok receiverTable ∧
      (∃ code, (generate { type := "T" } "p" receiverTable).result = .ok code) ∧
      (generate { type := "T" } "p" receiverTable).result ≠ .error (.numeral .tooLongToWrite) := by
  have hrun : (Logged.ofResult (SourceFile.parse "p.go" receiverText) >>= fun file =>
      resolve { type := "T" } [file]).result = .ok receiverTable := by
    decide +kernel
  obtain ⟨file, hfile, hresolve⟩ := Logged.ok_of_result_bind hrun
  obtain ⟨_, hcode, hlong⟩ :=
    (emission_outcomes { type := "T" } [file] "p" (fun _ => .error .notFound) { draws := [] } 0o022 {}
      []).1 receiverTable hresolve
  have hshort : ∀ r ∈ receiverTable.records, Short r.value :=
    Artifact.short_of_all (by decide +kernel)
  exact ⟨file, hfile, hresolve, hcode.2 ⟨by decide, hshort⟩, fun h => (hlong.1 h).2 hshort⟩

/-- For a literal of 3573 hexadecimal digits there is a table, in which no name is in the way of a
receiver, and no code. -/
theorem long_literal_breaks_off :
    ∃ file,
      SourceFile.parse "t.go" (String.ofList (powerBlock longExponent).text) = .ok file ∧
      (resolve { type := "T" } [file]).result = .ok (powerTable longExponent) ∧
      "i" ∉ (powerTable longExponent).names ∧ "_i" ∉ (powerTable longExponent).names ∧
      (generate { type := "T" } "p" (powerTable longExponent)).result =
        .error (.numeral .tooLongToWrite) := by
  obtain ⟨file, hparse, hresolve⟩ := resolve_powerBlock longExponent
  have hi : "i" ∉ ["A"] := by decide
  have hi' : "_i" ∉ ["A"] := by decide
  refine ⟨file, hparse, hresolve, hi, hi', ?_⟩
  have hreceiver : Artifact.receiver (powerTable longExponent) = .ok "i" := rfl
  rw [result_generate]
  exact Artifact.code_of_long hreceiver (exists_long_power limit_le_power)

end EnumNames
