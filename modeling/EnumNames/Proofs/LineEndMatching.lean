import EnumNames.Proofs.Inversion
import EnumNames.Proofs.LineEnds
import EnumNames.Proofs.ParsedNames

/-!
Matching with other line ends. A rule that matches a text matches the text with
carriage returns before its newlines as well, with a tree of the same nodes. The
two matches go side by side. Where the second may be within a line end is worked
out from the rules beforehand; no gap between pieces is read there.
-/

namespace EnumNames.Grammar

open EnumNames.Text

/-! ## Where a match may be within a line end -/

/-- Whether a match may be within a line end after a rule, if it may be so before it. Rules that
are not tried there have no answer. -/
def Rule.halves (half : Bool) : Rule → Option Bool
  | .indent | .stmtEnd => some half
  | .comment | .commentText | .groupItem | .topLevel => some true
  | .trivia | .group | .parenGroup | .bracketGroup | .braceGroup | .stringLit | .rawString
  | .charLit | .groupText | .loneSlash => some false
  | .lineComment | .typeSpec | .constSpec | .typeBody | .constBody | .typeDecl | .constDecl
  | .otherDecl | .topDecl | .groupBody => if half then none else some true
  | _ => if half then none else some false

/-- The same for an expression. A repetition may start where one of its items has ended. -/
def Peg.halves (half : Bool) : Peg → Option Bool
  | .token t => t.halves half
  | .rule r => r.halves half
  | .seq first second => (first.halves half).bind second.halves
  | .choice first second =>
      (first.halves half).bind fun x => (second.halves half).map fun y => x || y
  | .many item =>
      (item.halves half).bind fun x => (item.halves (half || x)).map fun _ => half || x
  | .optional item => (item.halves half).map (half || ·)

/-- The answers for rules agree with what they stand for. -/
theorem Rule.halves_body (r : Rule) {half half' : Bool} (h : r.halves half = some half') :
    ∃ b, r.body.halves half = some b ∧ (b = true → half' = true) := by
  have hall : ((r.halves half).all fun half' =>
      (r.body.halves half).any fun b => !b || half') = true := by
    cases half <;> cases r <;> rfl
  rw [h, Option.all_some] at hall
  obtain ⟨b, hb, hle⟩ := (Option.any_eq_true _ _).1 hall
  exact ⟨b, hb, fun htrue => by simpa [htrue] using hle⟩

/-! ## Matches side by side -/

structure Cursor.Crossed (h : Bool) (c c' : Cursor) : Prop where
  behind : Crosses false h c.behind.reverse c'.behind.reverse
  ahead : Crosses h false c.ahead c'.ahead
  clean : '\r' ∉ c.ahead

/-- Forests of the same nodes, where texts and line ends correspond. -/
inductive Forest.Crossed : Bool → Bool → Forest → Forest → Prop where
  | nil {h : Bool} : Crossed h h .nil .nil
  | leaf {h h₁ h₂ : Bool} {text text' : List Char} {rest rest' : Forest} :
      Crosses h h₁ text text' → Crossed h₁ h₂ rest rest' →
      Crossed h h₂ (.leaf text rest) (.leaf text' rest')
  | node {h h₁ h₂ half half' : Bool} {r : Rule} {inside inside' rest rest' : Forest} :
      r.halves half = some half' → (h = true → half = true) → (h₁ = true → half' = true) →
      Crossed h h₁ inside inside' → Crossed h₁ h₂ rest rest' →
      Crossed h h₂ (.node r inside rest) (.node r inside' rest')

theorem Forest.Crossed.append {h h₁ h₂ : Bool} {f f' g g' : Forest} (hf : Crossed h h₁ f f')
    (hg : Crossed h₁ h₂ g g') : Crossed h h₂ (f.append g) (f'.append g') := by
  induction hf with
  | nil => exact hg
  | leaf htext _ ih => exact .leaf htext (ih hg)
  | node hr hh hh' hinside _ _ ih => exact .node hr hh hh' hinside (ih hg)

theorem Forest.Crossed.text {h h' : Bool} {f f' : Forest} (hf : Crossed h h' f f') :
    Crosses h h' f.text f'.text := by
  induction hf with
  | nil => exact .nil _
  | leaf htext _ ih => exact htext.append ih
  | node _ _ _ _ _ ihi ihr => exact ihi.append ihr

/-- Two matches end at places that correspond, and take something or not together. -/
def Reached (h half' : Bool) (x y : Forest × Cursor) : Prop :=
  (x.1.text = [] ↔ y.1.text = []) ∧
    ∃ h', (h' = true → half' = true) ∧ Forest.Crossed h h' x.1 y.1 ∧ Cursor.Crossed h' x.2 y.2

def Outcome.Crossed (h half' : Bool) (o o' : Outcome) : Prop :=
  Option.Rel (Reached h half') o.result o'.result

variable {h half half' : Bool} {c c' : Cursor} {o o' : Outcome}

theorem Cursor.Crossed.atEnd (hc : c.Crossed h c') : c.atEnd = c'.atEnd := by
  have hahead := hc.ahead
  cases h with
  | true =>
      obtain ⟨ds, hds, hds'⟩ := hahead.newline_of_half hc.clean
      rw [Cursor.atEnd, Cursor.atEnd, hds, hds']
      rfl
  | false =>
      rw [Cursor.atEnd, Cursor.atEnd, hahead.eq_crlf, Bool.eq_iff_iff, List.isEmpty_iff,
        List.isEmpty_iff, crlf_eq_nil]

theorem Cursor.Crossed.advance {h' : Bool} {n n' : Nat} (hc : c.Crossed h c')
    (hn : Crosses h h' (c.ahead.take n) (c'.ahead.take n')) :
    (c.advance n).Crossed h' (c'.advance n') := by
  refine ⟨?_, ?_, fun hmem => hc.clean (List.mem_of_mem_drop hmem)⟩
  · simp only [Cursor.advance, List.reverse_append, List.reverse_reverse]
    exact hc.behind.append hn
  · refine hn.rest ?_
    simp only [Cursor.advance, List.take_append_drop]
    exact hc.ahead

namespace Outcome

theorem crossed_stay (hc : c.Crossed h c') (hh : h = true → half' = true) :
    Crossed h half' (stay c) (stay c') :=
  .some ⟨Iff.rfl, h, hh, .nil, hc⟩

theorem Crossed.mono {b : Bool} (ho : Crossed h half' o o') (hb : half' = true → b = true) :
    Crossed h b o o' := by
  unfold Crossed at ho ⊢
  generalize o.result = x, o'.result = y at ho
  cases ho with
  | none => exact .none
  | some hxy =>
      obtain ⟨hempty, h', hh', hf, hc⟩ := hxy
      exact .some ⟨hempty, h', hb ∘ hh', hf, hc⟩

theorem Crossed.andThen {b : Bool} {next next' : Cursor → Outcome} (ho : Crossed h half' o o')
    (hnext : ∀ h₁ c c', (h₁ = true → half' = true) → c.Crossed h₁ c' →
      Crossed h₁ b (next c) (next' c')) :
    Crossed h b (o.andThen next) (o'.andThen next') := by
  unfold Crossed at ho ⊢
  unfold Outcome.andThen
  generalize hx : o.result = x, hy : o'.result = y at ho
  cases ho with
  | none => simpa only [hx, hy] using .none
  | @some x y hxy =>
      obtain ⟨f, d⟩ := x
      obtain ⟨f', d'⟩ := y
      obtain ⟨hempty, h₁, hh₁, hf, hd⟩ := hxy
      have hrel := hnext h₁ d d' hh₁ hd
      unfold Crossed at hrel
      dsimp only
      generalize (next d).result = x, (next' d').result = y at hrel
      cases hrel with
      | none => exact .none
      | some hxy =>
          obtain ⟨hempty', h₂, hh₂, hg, he⟩ := hxy
          refine .some ⟨?_, h₂, hh₂, hf.append hg, he⟩
          simp only [Forest.text_append, List.append_eq_nil_iff]
          exact and_congr hempty hempty'

theorem Crossed.orElse {other other' : Unit → Outcome} (ho : Crossed h half' o o')
    (hother : Crossed h half' (other ()) (other' ())) :
    Crossed h half' (o.orElse other) (o'.orElse other') := by
  unfold Crossed at ho ⊢
  unfold Outcome.orElse
  generalize hx : o.result = x, hy : o'.result = y at ho
  cases ho with
  | none => exact hother
  | some hxy => simpa only [hx, hy] using .some hxy

theorem Crossed.under {r : Rule} (ho : Crossed h half' o o') (hr : r.halves half = some half')
    (hh : h = true → half = true) (m n : Nat) : Crossed h half' (o.under r m) (o'.under r n) := by
  unfold Crossed at ho ⊢
  unfold Outcome.under
  generalize o.result = x, o'.result = y at ho
  cases ho with
  | none => exact .none
  | some hxy =>
      obtain ⟨hempty, h', hh', hf, hc⟩ := hxy
      exact .some ⟨by simpa [Forest.text] using hempty, h', hh', .node hr hh hh' hf .nil, hc⟩

end Outcome

/-- A match moves forward just when its text is not empty. -/
theorem Outcome.Forward.offset_lt_iff_text {strict : Bool} {f : Forest} {d : Cursor}
    (ho : o.Forward c strict) (hr : o.result = some (f, d)) :
    c.offset < d.offset ↔ f.text ≠ [] := by
  obtain ⟨n, hn, rfl, htext, _⟩ := ho f d hr
  rw [htext, ← List.length_pos_iff]
  simp only [Cursor.advance]
  omega

theorem crossed_repeated {item : Cursor → Outcome} (hf : ∀ c, (item c).Forward c false)
    (hitem : ∀ h c c', (h = true → half = true) → c.Crossed h c' →
      (item c).Crossed h half (item c')) (fuel : Nat) (hh : h = true → half = true)
    (hc : c.Crossed h c') : (repeated item fuel c).Crossed h half (repeated item fuel c') := by
  induction fuel generalizing h c c' with
  | zero => exact Outcome.crossed_stay hc hh
  | succ fuel ih =>
      simp only [repeated, ← hc.atEnd]
      split
      · exact Outcome.crossed_stay hc hh
      · have hrun := hitem h c c' hh hc
        have hrel := hrun
        unfold Outcome.Crossed at hrel
        generalize hx : (item c).result = x, hy : (item c').result = y at hrel
        cases hrel with
        | none => exact Outcome.crossed_stay hc hh
        | @some x y hxy =>
            obtain ⟨f, d⟩ := x
            obtain ⟨f', d'⟩ := y
            have hmoved : c.offset < d.offset ↔ c'.offset < d'.offset := by
              rw [(hf c).offset_lt_iff_text hx, (hf c').offset_lt_iff_text hy]
              exact not_congr hxy.1
            simp only [hmoved]
            split
            · exact hrun.andThen fun _ _ _ hh hc => ih hh hc
            · exact hrun

theorem Token.crossed_run {t : Token} (ht : t.halves half = some half')
    (hh : h = true → half = true) (hc : c.Crossed h c') :
    (t.run c).Crossed h half' (t.run c') := by
  have hrel := Token.taken ht hh hc.behind hc.ahead hc.clean
  unfold Outcome.Crossed Token.run
  generalize hn : t.width c.behind c.ahead = w, hn' : t.width c'.behind c'.ahead = w' at hrel
  cases hrel with
  | none => exact .none
  | @some n n' htaken =>
      obtain ⟨hzero, h', hh', hcross⟩ := htaken
      refine .some ⟨?_, h', hh', .leaf hcross .nil, hc.advance hcross⟩
      have hle := (Token.width_bounds hn).1
      have hle' := (Token.width_bounds hn').1
      simp only [Forest.text, List.append_nil, ← List.length_eq_zero_iff,
        List.length_take_of_le hle, List.length_take_of_le hle', hzero]

theorem Peg.crossed_run {call : Rule → Cursor → Outcome}
    (hf : ∀ r c, (call r c).Forward c !r.mayBeEmpty)
    (hcall : ∀ r half half' h c c', r.halves half = some half' → (h = true → half = true) →
      c.Crossed h c' → (call r c).Crossed h half' (call r c'))
    (e : Peg) (he : e.halves half = some half') (hh : h = true → half = true)
    (hc : c.Crossed h c') : (e.run call c).Crossed h half' (e.run call c') := by
  induction e generalizing half half' h c c' with
  | token t => exact Token.crossed_run he hh hc
  | rule r => exact hcall r half half' h c c' he hh hc
  | seq first second ih₁ ih₂ =>
      obtain ⟨b, hfirst, hsecond⟩ := Option.bind_eq_some_iff.1 he
      exact (ih₁ hfirst hh hc).andThen fun h₁ d d' hh₁ hd => ih₂ hsecond hh₁ hd
  | choice first second ih₁ ih₂ =>
      obtain ⟨x, hfirst, he⟩ := Option.bind_eq_some_iff.1 he
      obtain ⟨y, hsecond, rfl⟩ := Option.map_eq_some_iff.1 he
      exact ((ih₁ hfirst hh hc).mono (by simp +contextual)).orElse
        ((ih₂ hsecond hh hc).mono (by simp +contextual))
  | many item ih =>
      obtain ⟨x, hfirst, he⟩ := Option.bind_eq_some_iff.1 he
      obtain ⟨y, hmore, rfl⟩ := Option.map_eq_some_iff.1 he
      -- From any place that the repetition comes to, an item leads to such a place again.
      have hle : y = true → (half || x) = true := by
        cases hb : half || x with
        | true => exact fun _ => rfl
        | false =>
            obtain ⟨rfl, rfl⟩ := Bool.or_eq_false_iff.1 hb
            rw [Bool.or_false, hfirst] at hmore
            cases hmore
            exact id
      have hforward : ∀ c, (item.run call c).Forward c false := fun c =>
        (forward_run call hf item c).mono (by simp)
      have hrun := crossed_repeated hforward
        (fun h c c' hh hc => (ih hmore hh hc).mono hle) (c.ahead.length + c'.ahead.length)
        (fun htrue => by simp [hh htrue]) hc
      simp only [run]
      rwa [repeated_eq hforward _ c.ahead.length c (by omega) (Nat.le_refl _),
        repeated_eq hforward _ c'.ahead.length c' (by omega) (Nat.le_refl _)] at hrun
  | optional item ih =>
      obtain ⟨x, hitem, rfl⟩ := Option.map_eq_some_iff.1 he
      have hstay : h = true → (half || x) = true := fun htrue => by simp [hh htrue]
      simp only [run, ← hc.atEnd]
      split
      · exact Outcome.crossed_stay hc hstay
      · exact ((ih hitem hh hc).mono (by simp +contextual)).orElse (Outcome.crossed_stay hc hstay)

namespace Rule

theorem crossed_runWithin (n : Nat) (r : Rule) (half half' h : Bool) (c c' : Cursor)
    (hr : r.halves half = some half') (hh : h = true → half = true) (hc : c.Crossed h c') :
    (r.runWithin n c).Crossed h half' (r.runWithin n c') := by
  induction n generalizing r half half' h c c' with
  | zero => exact .none
  | succ n ih =>
      obtain ⟨b, hbody, hle⟩ := r.halves_body hr
      have hrun := Peg.crossed_run (forward_runWithin n) ih r.body hbody hh hc
      exact (hrun.mono hle).under hr hh _ _

theorem crossed_run (r : Rule) (hr : r.halves half = some half') (hh : h = true → half = true)
    (hc : c.Crossed h c') : (r.run c).Crossed h half' (r.run c') := by
  have hheight := r.height_le
  have hrun := crossed_runWithin (depthBound c + depthBound c') r half half' h c c' hr hh hc
  rwa [runWithin_eq r c _ (depthBound c) (by simp only [depthBound]; omega)
      (by simp only [depthBound]; omega),
    runWithin_eq r c' _ (depthBound c') (by simp only [depthBound]; omega)
      (by simp only [depthBound]; omega)] at hrun

end Rule

/-- The tree of a text and that of the text with other line ends. -/
theorem Rule.crossed_matchRest {r : Rule} (hr : r.halves false = some half') {text : List Char}
    (hcr : '\r' ∉ text) {f : Forest} (htree : r.matchRest text 0 = .ok ⟨r, 0, f⟩) :
    ∃ f' h', r.matchRest (crlf text) 0 = .ok ⟨r, 0, f'⟩ ∧ (h' = true → half' = true) ∧
      Forest.Crossed false h' f f' := by
  have hc : Cursor.Crossed false (.ofText text 0) (.ofText (crlf text) 0) :=
    ⟨.nil false, .all text, by simpa [Cursor.ofText] using hcr⟩
  have hrel := r.crossed_run hr (by simp) hc
  unfold Outcome.Crossed at hrel
  simp only [Rule.matchRest, Rule.matchSome] at htree ⊢
  generalize hx : (r.run (.ofText text 0)).result = x,
    hy : (r.run (.ofText (crlf text) 0)).result = y at hrel htree
  cases hrel with
  | none => cases htree
  | @some x y hxy =>
      obtain ⟨f, d⟩ := x
      obtain ⟨f', d'⟩ := y
      obtain ⟨_, h₁, hh₁, hcross, hd⟩ := hxy
      obtain ⟨g, rfl⟩ := node_of_runWithin _ _ _ _ _ hx
      obtain ⟨g', rfl⟩ := node_of_runWithin _ _ _ _ _ hy
      simp only [Forest.branches] at htree ⊢
      rw [hd.atEnd] at htree
      split at htree
      · next hatEnd =>
          cases htree
          rw [if_pos hatEnd]
          cases hcross with
          | node _ _ _ hinside hrest =>
              cases hrest
              exact ⟨g', h₁, rfl, hh₁, hinside⟩
      · cases htree

end EnumNames.Grammar
