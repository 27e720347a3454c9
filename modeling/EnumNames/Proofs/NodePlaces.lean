import EnumNames.Proofs.JoinedDeclarations

/-!
Where nodes stand. Every node of a syntax tree stands where its rule was read:
before it is as much text as its offset says, and the rule takes what is inside
it before the rest. So a fact about what a rule takes before a rest is a fact
about the text around the node.
-/

namespace EnumNames.Grammar

variable {e : Peg} {f : Forest} {r : Rule} {behind cs rest text : List Char}

def Placed (text : List Char) (b : Branch) : Prop :=
  ∃ behind rest, text = behind.reverse ++ b.inside.text ++ rest ∧ b.start = behind.length ∧
    b.rule.body.Reads behind b.inside.text rest b.inside

/-- What is repeated takes something. -/
def Peg.steady : Peg → Bool
  | .token _ | .rule _ => true
  | .seq first second | .choice first second => first.steady && second.steady
  | .many item => !item.mayBeEmpty && item.steady
  | .optional item => item.steady

theorem Rule.steady_body (r : Rule) : r.body.steady = true := by
  cases r <;> rfl

theorem Forest.branches_append (f g : Forest) (start : Nat) :
    (f.append g).branches start = f.branches start ++ g.branches (start + f.width) := by
  induction f generalizing start with
  | nil => rfl
  | leaf _ _ ih => simp [append, branches, width, ih, Nat.add_assoc]
  | node _ _ _ _ ih => simp [append, branches, width, ih, Nat.add_assoc]

theorem Peg.Reads.width_eq (h : e.Reads behind cs rest f) : f.width = cs.length := by
  rw [← f.length_text, h.text_eq]

/-- The nodes of two parts stand in the text that they share. -/
theorem placed_append {a b : List Char} {g g' : Forest} (ha : g.width = a.length)
    (h : ∀ n ∈ g.branches behind.length, Placed (behind.reverse ++ a ++ (b ++ rest)) n)
    (h' : ∀ n ∈ g'.branches (a.reverse ++ behind).length,
      Placed ((a.reverse ++ behind).reverse ++ b ++ rest) n) :
    ∀ n ∈ (g.append g').branches behind.length, Placed (behind.reverse ++ (a ++ b) ++ rest) n := by
  intro n hn
  rw [Forest.branches_append] at hn
  rcases List.mem_append.1 hn with hn | hn
  · simpa using h n hn
  · have hstart : behind.length + g.width = (a.reverse ++ behind).length := by
      simp [ha, Nat.add_comm]
    rw [hstart] at hn
    simpa using h' n hn

theorem placed_branches (he : e.steady = true) (h : e.Reads behind cs rest f) :
    ∀ b ∈ f.branches behind.length, Placed (behind.reverse ++ cs ++ rest) b := by
  induction e generalizing behind cs rest f with
  | token t =>
      obtain ⟨_, rfl⟩ := width_of_reads h
      simp [Forest.branches]
  | rule r =>
      obtain ⟨g, rfl, hbody⟩ := body_of_reads h
      have htext : g.text = cs := hbody.text_eq
      intro b hb
      obtain rfl : b = ⟨r, behind.length, g⟩ := by simpa [Forest.branches] using hb
      exact ⟨behind, rest, by rw [htext], rfl, htext ▸ hbody⟩
  | seq e e' ih ih' =>
      obtain ⟨he, he'⟩ := Bool.and_eq_true_iff.1 he
      obtain ⟨a, b, g, g', rfl, ha, hb, rfl⟩ := parts_of_reads_seq h
      exact placed_append ha.width_eq (ih he ha) (ih' he' hb)
  | choice e e' ih ih' =>
      obtain ⟨he, he'⟩ := Bool.and_eq_true_iff.1 he
      rcases parts_of_reads_choice h with h | ⟨_, h⟩
      · exact ih he h
      · exact ih' he' h
  | many e ih =>
      simp only [Peg.steady, Bool.and_eq_true, Bool.not_eq_true'] at he
      refine h.many_induction (P := fun behind cs f =>
        ∀ b ∈ f.branches behind.length, Placed (behind.reverse ++ cs ++ rest) b) he.1 ?_ ?_
      · exact fun _ _ => by simp [Forest.branches]
      · exact fun _ _ _ _ _ ha _ hb => placed_append ha.width_eq (ih he.2 ha) hb
  | optional e ih =>
      rcases parts_of_reads_optional h with h | ⟨_, rfl, _⟩
      · exact ih he h
      · simp [Forest.branches]

namespace Placed

variable {b c : Branch}

theorem children (h : Placed text b) : ∀ c ∈ b.children, Placed text c := by
  obtain ⟨behind, rest, rfl, hstart, hreads⟩ := h
  rw [Branch.children, hstart]
  exact placed_branches b.rule.steady_body hreads

theorem of_mem_every (h : Placed text b) (hc : c ∈ b.every r) : c.rule = r ∧ Placed text c := by
  obtain ⟨hmem, hr⟩ := List.mem_filter.1 hc
  exact ⟨by simpa using hr, h.children c hmem⟩

theorem of_first? (h : Placed text b) (hc : b.first? r = some c) : c.rule = r ∧ Placed text c := by
  have hr : c.rule = r := by simpa using List.find?_some hc
  exact ⟨hr, h.children c (List.mem_of_find?_eq_some hc)⟩

end Placed

/-- The tree of a whole text. -/
theorem placed_of_matchRest {tree : Branch} (h : r.matchRest text 0 = .ok tree) :
    tree.rule = r ∧ Placed text tree := by
  obtain ⟨f, rfl, _, hreads⟩ := Rule.reads_of_matchRest h
  obtain ⟨g, hg, hbody⟩ := body_of_reads hreads
  obtain rfl : f = g := (Forest.node.inj hg).2.1
  have htext : f.text = text := hbody.text_eq
  exact ⟨rfl, [], [], by simp [htext], rfl, htext ▸ hbody⟩

end EnumNames.Grammar
