import EnumNames.Proofs.Reading

/-!
Matches taken apart. An outcome depends on what is ahead, and of what is behind
only on where a line goes on. So a single run decides whether an expression
reads or refuses, and an expression that reads has parts that read. The lemmas
below go the way back from those in `Reading`.
-/

namespace EnumNames.Grammar

/-! ## What an outcome depends on -/

/-- The same text is ahead, and whatever is read next, the line goes on alike after it. -/
structure Cursor.Like (c d : Cursor) : Prop where
  ahead : c.ahead = d.ahead
  behind : ∀ cs, continues (cs ++ c.behind) = continues (cs ++ d.behind)

def Outcome.Like (o o' : Outcome) : Prop :=
  Option.Rel (fun x y => x.1 = y.1 ∧ x.2.Like y.2) o.result o'.result

variable {c d : Cursor} {o o' : Outcome}

theorem Cursor.Like.advance (h : c.Like d) (n : Nat) : (c.advance n).Like (d.advance n) := by
  refine ⟨by simp only [Cursor.advance, h.ahead], fun cs => ?_⟩
  simp only [Cursor.advance, h.ahead, ← List.append_assoc]
  exact h.behind _

theorem Outcome.like_stay (h : c.Like d) : (Outcome.stay c).Like (.stay d) := .some ⟨rfl, h⟩

theorem Outcome.Like.andThen {next next' : Cursor → Outcome} (h : o.Like o')
    (hn : ∀ c d, c.Like d → (next c).Like (next' d)) :
    (o.andThen next).Like (o'.andThen next') := by
  unfold Outcome.Like at h ⊢
  unfold Outcome.andThen
  generalize ho : o.result = x, ho' : o'.result = y at h
  cases h with
  | none => simpa only [ho, ho'] using .none
  | @some x y h =>
      obtain ⟨f, c⟩ := x
      obtain ⟨g, d⟩ := y
      obtain ⟨rfl, hcd⟩ := h
      have hnext := hn c d hcd
      unfold Outcome.Like at hnext
      dsimp only
      generalize (next c).result = x, (next' d).result = y at hnext
      cases hnext with
      | none => exact .none
      | some h => exact .some ⟨congrArg f.append h.1, h.2⟩

theorem Outcome.Like.orElse {other other' : Unit → Outcome} (h : o.Like o')
    (ho : (other ()).Like (other' ())) : (o.orElse other).Like (o'.orElse other') := by
  unfold Outcome.Like at h ⊢
  unfold Outcome.orElse
  generalize hr : o.result = x, hr' : o'.result = y at h
  cases h with
  | none => exact ho
  | some h => simpa only [hr, hr'] using .some h

theorem Outcome.Like.under (h : o.Like o') (r : Rule) (m n : Nat) :
    (o.under r m).Like (o'.under r n) := by
  unfold Outcome.Like at h ⊢
  unfold Outcome.under
  generalize o.result = x, o'.result = y at h
  cases h with
  | none => exact .none
  | some h => exact .some ⟨by rw [h.1], h.2⟩

/-- A cursor that has moved forward has fewer characters ahead. -/
theorem Outcome.Forward.offset_lt_iff {strict : Bool} {f : Forest} (h : o.Forward c strict)
    (hr : o.result = some (f, d)) : c.offset < d.offset ↔ d.ahead.length < c.ahead.length := by
  obtain ⟨n, hn, rfl, _, _⟩ := h f d hr
  simp only [Cursor.advance, List.length_take, List.length_drop]
  omega

theorem repeated_like {item : Cursor → Outcome} (hf : ∀ c, (item c).Forward c false)
    (hl : ∀ c d, c.Like d → (item c).Like (item d)) (fuel : Nat) (h : c.Like d) :
    (repeated item fuel c).Like (repeated item fuel d) := by
  induction fuel generalizing c d with
  | zero => exact Outcome.like_stay h
  | succ fuel ih =>
      simp only [repeated]
      have hend : c.atEnd = d.atEnd := by simp only [Cursor.atEnd, h.ahead]
      rw [← hend]
      split
      · exact Outcome.like_stay h
      · have hitem := hl c d h
        have hrel := hitem
        unfold Outcome.Like at hrel
        generalize hx : (item c).result = x, hy : (item d).result = y at hrel
        cases hrel with
        | none => exact .some ⟨rfl, h⟩
        | @some x y hxy =>
            obtain ⟨f, c'⟩ := x
            obtain ⟨g, d'⟩ := y
            have hmoved : c.offset < c'.offset ↔ d.offset < d'.offset := by
              rw [(hf c).offset_lt_iff hx, (hf d).offset_lt_iff hy, h.ahead, hxy.2.ahead]
            simp only [hmoved]
            split
            · exact hitem.andThen fun _ _ => ih
            · exact hitem

theorem Peg.like_run {call : Rule → Cursor → Outcome}
    (hf : ∀ r c, (call r c).Forward c !r.mayBeEmpty)
    (hl : ∀ r c d, c.Like d → (call r c).Like (call r d)) (e : Peg) (h : c.Like d) :
    (e.run call c).Like (e.run call d) := by
  induction e generalizing c d with
  | token t =>
      simp only [run, Token.run]
      have hwidth : t.width c.behind c.ahead = t.width d.behind d.ahead := by
        have hgap := h.behind []
        simp only [List.nil_append] at hgap
        rw [h.ahead]
        cases t with
        | gap => simp only [Token.width, hgap]
        | _ => rfl
      rw [hwidth]
      split
      · exact .none
      · exact .some ⟨by rw [h.ahead], h.advance _⟩
  | rule r => exact hl r c d h
  | seq first second ih₁ ih₂ => exact (ih₁ h).andThen fun _ _ => ih₂
  | choice first second ih₁ ih₂ => exact (ih₁ h).orElse (ih₂ h)
  | many item ih =>
      simp only [run, h.ahead]
      exact repeated_like (fun c => (forward_run call hf item c).mono (by simp)) (fun _ _ => ih) _ h
  | optional item ih =>
      have hend : c.atEnd = d.atEnd := by simp only [Cursor.atEnd, h.ahead]
      simp only [run, hend]
      split
      · exact Outcome.like_stay h
      · exact (ih h).orElse (Outcome.like_stay h)

theorem Rule.like_runWithin (n : Nat) (r : Rule) (c d : Cursor) (h : c.Like d) :
    (r.runWithin n c).Like (r.runWithin n d) := by
  induction n generalizing r c d with
  | zero => exact .none
  | succ n ih => exact (Peg.like_run (forward_runWithin n) ih r.body h).under r _ _

theorem Rule.like_run (r : Rule) (c d : Cursor) (h : c.Like d) : (r.run c).Like (r.run d) := by
  unfold Rule.run
  rw [show depthBound c = depthBound d by simp only [depthBound, h.ahead]]
  exact like_runWithin _ r c d h

/-! ## One run decides -/

variable {e e' : Peg} {t : Token} {r : Rule} {f g : Forest}
  {behind behind' cs ds rest rest' ahead : List Char}

theorem Peg.reads_of_like {behind' : List Char} {offset : Nat}
    (hb : ∀ cs, continues (cs ++ behind) = continues (cs ++ behind'))
    (h : (e.run Rule.run ⟨offset, behind, ahead⟩).result = some (f, c)) :
    ∃ cs, ahead = cs ++ c.ahead ∧ e.Reads behind' cs c.ahead f := by
  have hf : ∀ c, (e.run Rule.run c).Forward c _ := Peg.forward_run Rule.run Rule.forward_run e
  obtain ⟨n, hn, rfl, _, _⟩ := hf _ f c h
  have hcs : ahead = ahead.take n ++ ahead.drop n := (List.take_append_drop n ahead).symm
  refine ⟨ahead.take n, hcs, fun offset' => ?_⟩
  have hlike := Peg.like_run Rule.forward_run Rule.like_run e
    (show Cursor.Like ⟨offset, behind, ahead⟩ ⟨offset', behind', ahead⟩ from ⟨rfl, hb⟩)
  unfold Outcome.Like at hlike
  rw [h] at hlike
  simp only [Cursor.advance]
  rw [← hcs]
  generalize hx : (e.run Rule.run ⟨offset', behind', ahead⟩).result = x at hlike
  cases hlike with
  | @some _ y hy =>
      obtain ⟨g, d⟩ := y
      obtain ⟨m, hm, rfl, _, _⟩ := hf _ g d hx
      obtain ⟨rfl, hd⟩ := hy
      have hlen := congrArg List.length hd.ahead
      simp only [Cursor.advance, List.length_drop] at hlen hn hm
      obtain rfl : m = n := by omega
      rfl

theorem Peg.reads_of_run {offset : Nat}
    (h : (e.run Rule.run ⟨offset, behind, ahead⟩).result = some (f, c)) :
    ∃ cs, ahead = cs ++ c.ahead ∧ e.Reads behind cs c.ahead f :=
  Peg.reads_of_like (fun _ => rfl) h

theorem Peg.refuses_of_run {offset : Nat}
    (h : (e.run Rule.run ⟨offset, behind, ahead⟩).result = none) : e.Refuses behind ahead := by
  intro offset'
  have hlike := Peg.like_run Rule.forward_run Rule.like_run e
    (show Cursor.Like ⟨offset, behind, ahead⟩ ⟨offset', behind, ahead⟩ from ⟨rfl, fun _ => rfl⟩)
  unfold Outcome.Like at hlike
  rw [h] at hlike
  generalize (e.run Rule.run ⟨offset', behind, ahead⟩).result = x at hlike
  cases hlike
  rfl

theorem Peg.reads_or_refuses (e : Peg) (behind ahead : List Char) :
    (∃ cs rest f, ahead = cs ++ rest ∧ e.Reads behind cs rest f) ∨ e.Refuses behind ahead := by
  cases h : (e.run Rule.run ⟨0, behind, ahead⟩).result with
  | none => exact .inr (Peg.refuses_of_run h)
  | some x =>
      obtain ⟨cs, hcs, hreads⟩ := Peg.reads_of_run h
      exact .inl ⟨cs, _, _, hcs, hreads⟩

theorem Peg.Reads.not_refuses (h : e.Reads behind cs rest f) : ¬ e.Refuses behind (cs ++ rest) := by
  intro hno
  have := (h 0).symm.trans (hno 0)
  cases this

/-- An expression takes the same characters of the same text. -/
theorem Peg.Reads.unique (h : e.Reads behind cs rest f) (h' : e.Reads behind ds rest' g)
    (heq : cs ++ rest = ds ++ rest') : cs = ds ∧ rest = rest' ∧ f = g := by
  have h₀ := h 0
  rw [heq, h' 0] at h₀
  simp only [Option.some.injEq, Prod.mk.injEq, Cursor.mk.injEq] at h₀
  obtain ⟨hfg, _, _, hrest⟩ := h₀
  subst hrest
  exact ⟨List.append_cancel_right heq, rfl, hfg.symm⟩

theorem Peg.Reads.text_eq (h : e.Reads behind cs rest f) : f.text = cs := by
  obtain ⟨n, hn, hc, htext, _⟩ := Peg.forward_run Rule.run Rule.forward_run e _ _ _ (h 0)
  have hlen := congrArg (fun c => c.ahead.length) hc
  simp only [Cursor.advance, List.length_drop, List.length_append] at hlen hn
  obtain rfl : n = cs.length := by omega
  rw [htext, List.take_left]

/-- Only where lines go on does it matter what is behind. -/
theorem Peg.Reads.elsewhere (h : e.Reads behind cs rest f)
    (hb : ∀ cs, continues (cs ++ behind) = continues (cs ++ behind')) :
    e.Reads behind' cs rest f := by
  obtain ⟨cs', hcs, hreads⟩ := Peg.reads_of_like hb (h 0)
  rwa [List.append_cancel_right hcs]

theorem Peg.Reads.ne_nil (he : e.mayBeEmpty = false) (h : e.Reads behind cs rest f) : cs ≠ [] := by
  rintro rfl
  obtain ⟨n, hle, hc, _, hpos⟩ := Peg.forward_run Rule.run Rule.forward_run e _ _ _ (h 0)
  have hlen := congrArg (fun c => c.ahead.length) hc
  have hn := hpos (by simp [he])
  simp only [Cursor.advance, List.length_drop, List.nil_append] at hlen hle
  omega

/-! ## Parts of expressions that read -/

theorem width_of_reads (h : (Peg.token t).Reads behind cs rest f) :
    t.width behind (cs ++ rest) = some cs.length ∧ f = .leaf cs .nil := by
  have h₀ := h 0
  simp only [Peg.run, Token.run] at h₀
  split at h₀
  · cases h₀
  · next n hn =>
      have hle := (Token.width_bounds hn).1
      simp only [Option.some.injEq, Prod.mk.injEq, Cursor.advance, Cursor.mk.injEq] at h₀
      obtain ⟨hleaf, _, _, hrest⟩ := h₀
      have hlen := congrArg List.length hrest
      simp only [List.length_drop, List.length_append] at hlen hle
      obtain rfl : n = cs.length := by omega
      exact ⟨hn, by rw [← hleaf, List.take_left]⟩

theorem width_of_refuses (h : (Peg.token t).Refuses behind ahead) :
    t.width behind ahead = none := by
  have h₀ := h 0
  simp only [Peg.run, Token.run] at h₀
  split at h₀
  · assumption
  · cases h₀

theorem body_of_reads (h : (Peg.rule r).Reads behind cs rest f) :
    ∃ g, f = .node r g .nil ∧ r.body.Reads behind cs rest g := by
  have h₀ := h 0
  simp only [Peg.run, Rule.run_eq r, Outcome.under] at h₀
  split at h₀
  · cases h₀
  · next g c hg =>
      simp only [Option.some.injEq, Prod.mk.injEq] at h₀
      obtain ⟨hf, rfl⟩ := h₀
      obtain ⟨cs', hcs, hreads⟩ := Peg.reads_of_run hg
      rw [← List.append_cancel_right hcs] at hreads
      exact ⟨g, hf.symm, hreads⟩

theorem body_of_refuses (h : (Peg.rule r).Refuses behind ahead) : r.body.Refuses behind ahead := by
  have h₀ := h 0
  simp only [Peg.run, Rule.run_eq r, Outcome.under] at h₀
  split at h₀
  · next hnone => exact Peg.refuses_of_run hnone
  · cases h₀

/-- A rule that is a single token reads what the token takes. -/
theorem lexeme_of_reads (hb : r.body = .token t) (h : (Peg.rule r).Reads behind cs rest f) :
    t.width behind (cs ++ rest) = some cs.length ∧ f = .lexeme r cs := by
  obtain ⟨g, rfl, hg⟩ := body_of_reads h
  rw [hb] at hg
  obtain ⟨hwidth, rfl⟩ := width_of_reads hg
  exact ⟨hwidth, rfl⟩

theorem lexeme_of_refuses (hb : r.body = .token t) (h : (Peg.rule r).Refuses behind ahead) :
    t.width behind ahead = none :=
  width_of_refuses (hb ▸ body_of_refuses h)

theorem lit_of_reads {x : Char} (h : (Peg.lit x).Reads behind cs rest f) :
    cs = [x] ∧ f = .leaf [x] .nil := by
  obtain ⟨hwidth, rfl⟩ := width_of_reads h
  obtain ⟨hlen, more, hmore⟩ := wordWidth_eq_some.1 hwidth
  obtain rfl : [x] = cs := (List.append_inj hmore hlen.symm).1
  exact ⟨rfl, rfl⟩

theorem parts_of_reads_seq (h : (Peg.seq e e').Reads behind cs rest f) :
    ∃ a b g g', cs = a ++ b ∧ e.Reads behind a (b ++ rest) g ∧
      e'.Reads (a.reverse ++ behind) b rest g' ∧ f = g.append g' := by
  have h₀ := h 0
  simp only [Peg.run, Outcome.andThen] at h₀
  split at h₀
  · next hnone =>
      rw [hnone] at h₀
      cases h₀
  · next g c hg =>
      obtain ⟨⟨g', c'⟩, hg', heq⟩ := Option.map_eq_some_iff.1 h₀
      simp only [Prod.mk.injEq] at heq
      obtain ⟨rfl, rfl⟩ := heq
      obtain ⟨a, ha, hfirst⟩ := Peg.reads_of_run hg
      have hc := (hfirst 0).symm.trans (ha ▸ hg)
      simp only [Option.some.injEq, Prod.mk.injEq, true_and] at hc
      rw [← hc] at hg'
      obtain ⟨b, hb, hsecond⟩ := Peg.reads_of_run hg'
      rw [hb] at ha hfirst
      refine ⟨a, b, g, g', ?_, hfirst, hsecond, rfl⟩
      rw [← List.append_assoc] at ha
      exact List.append_cancel_right ha

theorem parts_of_refuses_seq (h : (Peg.seq e e').Refuses behind ahead) :
    e.Refuses behind ahead ∨ ∃ a b g, ahead = a ++ b ∧ e.Reads behind a b g ∧
      e'.Refuses (a.reverse ++ behind) b := by
  rcases e.reads_or_refuses behind ahead with ⟨a, b, g, rfl, ha⟩ | hno
  · refine .inr ⟨a, b, g, rfl, ha, ?_⟩
    rcases e'.reads_or_refuses (a.reverse ++ behind) b with ⟨a', b', g', rfl, hb⟩ | hno
    · have hreads := reads_seq ha hb
      rw [← List.append_assoc] at h
      exact absurd h hreads.not_refuses
    · exact hno
  · exact .inl hno

theorem parts_of_reads_choice (h : (Peg.choice e e').Reads behind cs rest f) :
    e.Reads behind cs rest f ∨ e.Refuses behind (cs ++ rest) ∧ e'.Reads behind cs rest f := by
  rcases e.reads_or_refuses behind (cs ++ rest) with ⟨a, b, g, heq, ha⟩ | hno
  · have hfirst : (Peg.choice e e').Reads behind a b g := reads_choice_first ha
    obtain ⟨rfl, rfl, rfl⟩ := hfirst.unique h heq.symm
    exact .inl ha
  · refine .inr ⟨hno, ?_⟩
    rcases e'.reads_or_refuses behind (cs ++ rest) with ⟨a, b, g, heq, ha⟩ | hno'
    · obtain ⟨rfl, rfl, rfl⟩ := (reads_choice_second (heq ▸ hno) ha).unique h heq.symm
      exact ha
    · exact absurd (refuses_choice hno hno') h.not_refuses

theorem parts_of_refuses_choice (h : (Peg.choice e e').Refuses behind ahead) :
    e.Refuses behind ahead ∧ e'.Refuses behind ahead := by
  rcases e.reads_or_refuses behind ahead with ⟨a, b, g, rfl, ha⟩ | hno
  · exact absurd h (reads_choice_first ha).not_refuses
  · refine ⟨hno, ?_⟩
    rcases e'.reads_or_refuses behind ahead with ⟨a, b, g, rfl, ha⟩ | hno'
    · exact absurd h (reads_choice_second hno ha).not_refuses
    · exact hno'

theorem parts_of_reads_optional (h : (Peg.optional e).Reads behind cs rest f) :
    e.Reads behind cs rest f ∨ cs = [] ∧ f = .nil ∧ (rest ≠ [] → e.Refuses behind rest) := by
  rcases e.reads_or_refuses behind (cs ++ rest) with ⟨a, b, g, heq, ha⟩ | hno
  · by_cases hne : cs ++ rest = []
    · obtain ⟨rfl, rfl⟩ := List.append_eq_nil_iff.1 hne
      have hnil : (Peg.optional e).Reads behind [] [] .nil := reads_optional_none (by simp)
      exact .inr ⟨rfl, (h.unique hnil rfl).2.2, by simp⟩
    · obtain ⟨rfl, rfl, rfl⟩ :=
        (reads_optional_some (heq ▸ hne) ha).unique h heq.symm
      exact .inl ha
  · have hnil : (Peg.optional e).Reads behind [] (cs ++ rest) .nil :=
      reads_optional_none fun _ => hno
    obtain ⟨rfl, _, rfl⟩ := h.unique hnil rfl
    exact .inr ⟨rfl, rfl, fun _ => hno⟩

theorem repeated_ne_none (item : Cursor → Outcome) (fuel : Nat) (c : Cursor) :
    (repeated item fuel c).result ≠ none := by
  induction fuel generalizing c with
  | zero => simp [repeated, Outcome.stay]
  | succ fuel ih =>
      simp only [repeated]
      split
      · simp [Outcome.stay]
      · split
        · simp
        · next c' hr =>
            split
            · simp [Outcome.andThen, hr, ih c']
            · simp [hr]

/-- A repetition never fails. -/
theorem Peg.not_refuses_many (e : Peg) (behind ahead : List Char) :
    ¬ (Peg.many e).Refuses behind ahead := by
  intro hno
  have hrun := hno 0
  simp only [Peg.run] at hrun
  exact repeated_ne_none _ _ _ hrun

/-- A repetition has read nothing, or an item and then a repetition. -/
theorem parts_of_reads_many (he : e.mayBeEmpty = false) (h : (Peg.many e).Reads behind cs rest f) :
    (cs = [] ∧ f = .nil ∧ (rest ≠ [] → e.Refuses behind rest)) ∨
      ∃ a b g g', cs = a ++ b ∧ a ≠ [] ∧ e.Reads behind a (b ++ rest) g ∧
        (Peg.many e).Reads (a.reverse ++ behind) b rest g' ∧ f = g.append g' := by
  -- One run of the item tells the cases apart; what `h` has read then agrees by uniqueness.
  rcases e.reads_or_refuses behind (cs ++ rest) with ⟨a, b, g, heq, ha⟩ | hno
  · have hne : a ≠ [] := ha.ne_nil he
    rcases (Peg.many e).reads_or_refuses (a.reverse ++ behind) b with ⟨a', b', g', rfl, hb⟩ | hno
    · have hcons := reads_many_cons hne ha hb
      rw [← List.append_assoc] at heq
      obtain ⟨rfl, rfl, rfl⟩ := h.unique hcons heq
      exact .inr ⟨a, a', g, g', rfl, hne, ha, hb, rfl⟩
    · exact absurd hno (Peg.not_refuses_many e _ _)
  · have hnil : (Peg.many e).Reads behind [] (cs ++ rest) .nil := reads_many_nil fun _ => hno
    obtain ⟨rfl, _, rfl⟩ := h.unique hnil rfl
    exact .inl ⟨rfl, rfl, fun _ => hno⟩

/-- Induction over the items that a repetition has read before the same rest. -/
theorem Peg.Reads.many_induction {P : List Char → List Char → Forest → Prop}
    (he : e.mayBeEmpty = false)
    (nil : ∀ behind, (rest ≠ [] → e.Refuses behind rest) → P behind [] .nil)
    (cons : ∀ behind a b g g', e.Reads behind a (b ++ rest) g →
      (Peg.many e).Reads (a.reverse ++ behind) b rest g' → P (a.reverse ++ behind) b g' →
      P behind (a ++ b) (g.append g'))
    (h : (Peg.many e).Reads behind cs rest f) : P behind cs f := by
  induction hn : cs.length using Nat.strongRecOn generalizing behind cs f with
  | ind n ih =>
      subst hn
      rcases parts_of_reads_many he h with ⟨rfl, rfl, hno⟩ | ⟨a, b, g, g', rfl, hne, ha, hb, rfl⟩
      · exact nil behind hno
      · have hlt : b.length < (a ++ b).length := by
          have := List.length_pos_iff.2 hne
          rw [List.length_append]
          omega
        exact cons behind a b g g' ha hb (ih b.length hlt hb rfl)

/-! ## Matches within a text -/

/-- What a rule reads at an offset is what it matches there. -/
theorem Rule.matchSome_of_reads {text : List Char} {start : Nat}
    (htext : text.drop start = cs ++ rest)
    (h : (Peg.rule r).Reads (text.take start).reverse cs rest (.node r f .nil)) :
    r.matchSome text start = .ok (⟨r, start, f⟩,
      ⟨start + cs.length, cs.reverse ++ (text.take start).reverse, rest⟩) := by
  have hrun := h start
  rw [← htext] at hrun
  simp only [Peg.run] at hrun
  simp only [Rule.matchSome, Cursor.ofText, hrun, Forest.branches]

theorem Rule.matchSome_of_refuses {text : List Char} {start : Nat}
    (h : (Peg.rule r).Refuses (text.take start).reverse (text.drop start)) :
    ∃ offset, r.matchSome text start = .error (.failed offset) := by
  have hrun := h start
  simp only [Peg.run] at hrun
  exact ⟨_, by simp only [Rule.matchSome, Cursor.ofText, hrun]; rfl⟩

end EnumNames.Grammar
