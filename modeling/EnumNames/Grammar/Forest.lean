import EnumNames.Grammar.Rule

/-!
Syntax trees. A forest is a row of text pieces and of nodes named by rules, in
reading order. It holds no positions: a node starts where the text before it
ends, so positions follow from the offset at which the forest starts.
-/

namespace EnumNames.Grammar

inductive Forest where
  | nil
  | leaf (text : List Char) (rest : Forest)
  | node (rule : Rule) (inside rest : Forest)
  deriving DecidableEq, Repr

namespace Forest

def append : Forest → Forest → Forest
  | .nil, g => g
  | .leaf text rest, g => .leaf text (rest.append g)
  | .node rule inside rest, g => .node rule inside (rest.append g)

def text : Forest → List Char
  | .nil => []
  | .leaf text rest => text ++ rest.text
  | .node _ inside rest => inside.text ++ rest.text

def width : Forest → Nat
  | .nil => 0
  | .leaf text rest => text.length + rest.width
  | .node _ inside rest => inside.width + rest.width

@[simp] theorem text_append (f g : Forest) : (f.append g).text = f.text ++ g.text := by
  induction f with
  | nil => rfl
  | leaf _ _ ih | node _ _ _ _ ih => simp [append, text, ih]

theorem length_text (f : Forest) : f.text.length = f.width := by
  induction f with
  | nil => rfl
  | leaf _ _ ih => simp [text, width, ih]
  | node _ _ _ ihi ihr => simp [text, width, ihi, ihr]

end Forest

structure Branch where
  rule : Rule
  start : Nat
  inside : Forest
  deriving DecidableEq, Repr

namespace Forest

/-- The nodes of a forest that starts at an offset. -/
def branches (start : Nat) : Forest → List Branch
  | .nil => []
  | .leaf text rest => rest.branches (start + text.length)
  | .node rule inside rest => ⟨rule, start, inside⟩ :: rest.branches (start + inside.width)

end Forest

namespace Branch

def stop (b : Branch) : Nat := b.start + b.inside.width

def text (b : Branch) : String := String.ofList b.inside.text

def children (b : Branch) : List Branch := b.inside.branches b.start

def every (b : Branch) (r : Rule) : List Branch := b.children.filter (·.rule == r)

def first? (b : Branch) (r : Rule) : Option Branch := b.children.find? (·.rule == r)

/-- The node reached by taking first children of the rules in turn. -/
def reach? (b : Branch) : List Rule → Option Branch
  | [] => some b
  | r :: rs => (b.first? r).bind (·.reach? rs)

end Branch
end EnumNames.Grammar
