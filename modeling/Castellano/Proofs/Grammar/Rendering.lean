import Castellano.Grammar.Tree
import Castellano.Proofs.ForStd
import Castellano.Proofs.Text.Lines

/-!
# Castellano.Proofs.Grammar.Rendering

A rendered tree can be told from every other one (`render_eq_iff`), whatever its shape, as long as no
value runs over the end of a line.

A rendering has a line for each node, parents before their children and children from left to right
(`Tree.rows`). Two steps lead back to the tree. A line shows all there is to a node: its symbol has
no blanks, so it ends where the blank before the arrow is, and all that follows up to the last quote
is the value, quotes and arrows included (`Row.line_injective`). And the levels show where the
children of a node end: the row behind them, if there is one, is not further to the right than the
node itself (`rowsAt_append_inj`). The induction is on the tree; it carries the rows that follow.
-/

namespace Castellano

/-! ## Rows -/

/-- A node as it is shown on a line, with the level on which it stands. -/
structure Row where
  level : Nat
  symbol : NonTerminal
  value : Option String

namespace Row

/-- A value as it is shown behind the symbol. -/
def shown : Option String → List Char
  | none => []
  | some word => " -> \"".toList ++ (word.toList ++ "\"".toList)

/-- The line of a row, without its end. -/
def line (r : Row) : List Char :=
  List.replicate (2 * r.level) ' ' ++ (r.symbol.label.toList ++ shown r.value)

/-- The value fits on a line. -/
def Unbroken (r : Row) : Prop := ∀ word ∈ r.value, '\n' ∉ word.toList

instance : DecidablePred Unbroken := fun r =>
  inferInstanceAs (Decidable (∀ word ∈ r.value, '\n' ∉ word.toList))

end Row

namespace Tree

mutual

/-- The nodes of a tree whose root is at the given level, a node before its children and the children
from left to right. -/
def rowsAt (level : Nat) : Tree → List Row
  | node s v ts => ⟨level, s, v⟩ :: rowsAllAt (level + 1) ts

/-- The nodes of trees whose roots are at the given level, one tree after the other. -/
def rowsAllAt (level : Nat) : List Tree → List Row
  | [] => []
  | t :: ts => rowsAt level t ++ rowsAllAt level ts

end

def rows (t : Tree) : List Row := t.rowsAt 0

/-! ## One line a node -/

theorem toList_nodeLine (s : NonTerminal) (v : Option String) :
    (nodeLine s v).toList = s.label.toList ++ Row.shown v ++ ['\n'] := by
  cases v <;> simp [nodeLine, Row.shown]

mutual

theorem toList_renderAt (level : Nat) (t : Tree) :
    (t.renderAt level).toList = (t.rowsAt level).flatMap fun r => r.line ++ ['\n'] := by
  match t with
  | node s v ts =>
    rw [renderAt, rowsAt, String.toList_append, String.toList_append,
      toList_renderAllAt (level + 1) ts, toList_nodeLine]
    simp [indent, Row.line]

theorem toList_renderAllAt (level : Nat) (ts : List Tree) :
    (renderAllAt level ts).toList = (rowsAllAt level ts).flatMap fun r => r.line ++ ['\n'] := by
  match ts with
  | [] => simp [renderAllAt, rowsAllAt]
  | u :: us =>
    rw [renderAllAt, rowsAllAt, String.toList_append, toList_renderAt level u,
      toList_renderAllAt level us, List.flatMap_append]

end

end Tree

/-! ## Reading a line -/

namespace NonTerminal

/-- A label is that of one symbol only. -/
theorem find?_label (s : NonTerminal) : all.find? (fun n => n.label = s.label) = some s := by
  cases s <;> decide

theorem label_injective {s s' : NonTerminal} (h : s.label = s'.label) : s = s' := by
  have hs := find?_label s
  rw [h, find?_label s', Option.some.injEq] at hs
  exact hs.symm

theorem label_chars (s : NonTerminal) :
    s.label.toList ≠ [] ∧ ∀ c ∈ s.label.toList, c ≠ ' ' ∧ c ≠ '\n' ∧ c ≠ '\r' := by
  cases s <;> simp [label]

end NonTerminal

namespace Row

theorem shown_injective {v v' : Option String} (h : shown v = shown v') : v = v' := by
  cases v with
  | none =>
    cases v' with
    | none => rfl
    | some w' => simp [shown] at h
  | some w =>
    cases v' with
    | none => simp [shown] at h
    | some w' =>
      have hwords := List.append_cancel_right (List.append_cancel_left h)
      rw [String.toList_inj.mp hwords]

theorem head?_shown (v : Option String) : ∀ c ∈ (shown v).head?, c = ' ' := by
  cases v <;> simp [shown]

/-- Behind the indentation there is a character that is no blank. -/
theorem head?_label_shown (r : Row) :
    ∀ c ∈ (r.symbol.label.toList ++ shown r.value).head?, ¬c = ' ' := by
  obtain ⟨hne, hchars⟩ := r.symbol.label_chars
  rw [List.head?_append_of_ne_nil _ hne]
  intro c hc
  exact (hchars c (List.mem_of_mem_head? hc)).1

theorem line_injective {r r' : Row} (h : r.line = r'.line) : r = r' := by
  -- the indentation is all blanks, and the label has none
  obtain ⟨hindent, hrest⟩ := List.append_inj_of_head? (p := fun c => c = ' ')
    (fun _ => List.eq_of_mem_replicate) r.head?_label_shown
    (fun _ => List.eq_of_mem_replicate) r'.head?_label_shown h
  have hlevel : 2 * r.level = 2 * r'.level := by
    simpa using congrArg List.length hindent
  obtain ⟨hlabel, hshown⟩ := List.append_inj_of_head? (p := fun c => c ≠ ' ')
    (fun c hc => (r.symbol.label_chars.2 c hc).1)
    (fun c hc => not_not.mpr (head?_shown r.value c hc))
    (fun c hc => (r'.symbol.label_chars.2 c hc).1)
    (fun c hc => not_not.mpr (head?_shown r'.value c hc)) hrest
  obtain ⟨level, s, v⟩ := r
  obtain ⟨level', s', v'⟩ := r'
  rw [mk.injEq]
  exact ⟨Nat.eq_of_mul_eq_mul_left Nat.zero_lt_two hlevel,
    NonTerminal.label_injective (String.toList_inj.mp hlabel), shown_injective hshown⟩

theorem Unbroken.newline_not_mem {r : Row} (h : r.Unbroken) : '\n' ∉ r.line := by
  have hlabel : '\n' ∉ r.symbol.label.toList := fun hmem =>
    (r.symbol.label_chars.2 _ hmem).2.1 rfl
  have hshown : '\n' ∉ shown r.value := by
    obtain ⟨level, s, v⟩ := r
    cases v with
    | none => simp [shown]
    | some word => simp [shown, h word rfl]
  simp [line, hlabel, hshown]

theorem getLast?_line (r : Row) : r.line.getLast? ≠ some '\r' := by
  obtain ⟨level, s, v⟩ := r
  obtain ⟨hne, hchars⟩ := s.label_chars
  cases v with
  | none =>
    simp only [line, shown, List.append_nil]
    rw [List.getLast?_append_of_ne_nil _ hne]
    intro hlast
    exact (hchars _ (List.mem_of_getLast? hlast)).2.2 rfl
  | some word =>
    have hend : line ⟨level, s, some word⟩ = List.replicate (2 * level) ' ' ++
        (s.label.toList ++ (" -> \"".toList ++ word.toList)) ++ "\"".toList := by
      simp [line, shown]
    rw [hend, List.getLast?_append_of_ne_nil _ (by decide)]
    decide

end Row

/-! ## Reading the levels -/

/-- The first row, if there is one, stands above the level. -/
def StartsAbove (level : Nat) (rest : List Row) : Prop := ∀ r ∈ rest.head?, r.level < level

namespace Tree

theorem startsAbove_rowsAllAt_append {level : Nat} {rest : List Row}
    (h : StartsAbove level rest) (ts : List Tree) :
    StartsAbove (level + 1) (rowsAllAt level ts ++ rest) := by
  intro r hr
  cases ts with
  | nil =>
    rw [rowsAllAt, List.nil_append] at hr
    exact Nat.lt_succ_of_lt (h r hr)
  | cons t ts =>
    obtain ⟨s, v, us⟩ := t
    simp only [rowsAllAt, rowsAt, List.cons_append, List.head?_cons, Option.mem_some] at hr
    rw [← hr]
    exact Nat.lt_succ_self level

/-- Where the rows of trees begin, no row stands above their level. -/
theorem ne_rowsAllAt_cons_append {level : Nat} {rest : List Row} (h : StartsAbove level rest)
    (t : Tree) (ts : List Tree) (rest' : List Row) : rest ≠ rowsAllAt level (t :: ts) ++ rest' := by
  rintro rfl
  obtain ⟨s, v, us⟩ := t
  simp only [rowsAllAt, rowsAt, List.cons_append] at h
  exact Nat.lt_irrefl level (h _ rfl)

mutual

theorem rowsAt_append_inj {level : Nat} (t u : Tree) {rest rest' : List Row}
    (hrest : StartsAbove (level + 1) rest) (hrest' : StartsAbove (level + 1) rest')
    (h : t.rowsAt level ++ rest = u.rowsAt level ++ rest') : t = u ∧ rest = rest' := by
  match t, u with
  | node s v ts, node s' v' us =>
    rw [rowsAt, rowsAt, List.cons_append, List.cons_append, List.cons.injEq, Row.mk.injEq] at h
    obtain ⟨⟨-, rfl, rfl⟩, hbelow⟩ := h
    obtain ⟨rfl, rfl⟩ := rowsAllAt_append_inj ts us hrest hrest' hbelow
    exact ⟨rfl, rfl⟩

theorem rowsAllAt_append_inj {level : Nat} (ts us : List Tree) {rest rest' : List Row}
    (hrest : StartsAbove level rest) (hrest' : StartsAbove level rest')
    (h : rowsAllAt level ts ++ rest = rowsAllAt level us ++ rest') : ts = us ∧ rest = rest' := by
  match ts, us with
  | [], [] => exact ⟨rfl, h⟩
  | [], u :: us => exact absurd h (ne_rowsAllAt_cons_append hrest u us rest')
  | t :: ts, [] => exact absurd h.symm (ne_rowsAllAt_cons_append hrest' t ts rest)
  | t :: ts, u :: us =>
    rw [rowsAllAt, rowsAllAt, List.append_assoc, List.append_assoc] at h
    obtain ⟨rfl, hsiblings⟩ := rowsAt_append_inj t u (startsAbove_rowsAllAt_append hrest ts)
      (startsAbove_rowsAllAt_append hrest' us) h
    obtain ⟨rfl, rfl⟩ := rowsAllAt_append_inj ts us hrest hrest' hsiblings
    exact ⟨rfl, rfl⟩

end

theorem rows_injective {t u : Tree} (h : t.rows = u.rows) : t = u := by
  have hnil : StartsAbove 1 [] := fun _ hr => absurd hr (Option.not_mem_none _)
  refine (rowsAt_append_inj t u hnil hnil ?_).1
  rw [List.append_nil, List.append_nil]
  exact h

/-- No value of the tree runs over the end of a line. -/
def Unbroken (t : Tree) : Prop := ∀ r ∈ t.rows, r.Unbroken

instance : DecidablePred Unbroken := fun t =>
  inferInstanceAs (Decidable (∀ r ∈ t.rows, r.Unbroken))

theorem Unbroken.lines_render {t : Tree} (h : t.Unbroken) :
    Text.lines t.render.toList = t.rows.map Row.line := by
  have htext : t.render.toList = (t.rows.map Row.line).flatMap fun line => line ++ ['\n'] := by
    rw [render, toList_renderAt, List.flatMap_map, rows]
  rw [htext]
  refine Text.lines_flatMap_newline (List.forall_mem_map.mpr fun r hr => ?_)
    (List.forall_mem_map.mpr fun r _ => r.getLast?_line)
  exact (h r hr).newline_not_mem

end Tree

/-- Trees of any shape whose values hold no line feeds are the same if they are rendered the same.
The lines of a rendering are those of the nodes, one for each, from the root down and from left to
right. -/
theorem render_eq_iff {t u : Tree} (ht : t.Unbroken) (hu : u.Unbroken) :
    (t.render = u.render ↔ t = u) ∧ Text.lines t.render.toList = t.rows.map Row.line := by
  refine ⟨⟨fun h => ?_, fun h => by rw [h]⟩, ht.lines_render⟩
  have hlines : t.rows.map Row.line = u.rows.map Row.line := by
    rw [← ht.lines_render, h, hu.lines_render]
  exact Tree.rows_injective (List.map_injective_iff.mpr (fun _ _ => Row.line_injective) hlines)

/-- A value may look like the lines of other nodes. The first tree has a node with a value and a
child, the second one has a leaf. -/
theorem render_eq_iff_arrows :
    let t := Tree.node .nounPhrase (some "SOL") [Tree.leaf .noun "\" -> \"X"]
    let u := Tree.leaf .nounPhrase "SOL\"  NOUN -> \"\" -> \"X"
    t.Unbroken ∧ u.Unbroken ∧ t.render ≠ u.render ∧
    Text.lines t.render.toList =
      ["NP -> \"SOL\"".toList, "  NOUN -> \"\" -> \"X\"".toList] := by
  intro t u
  have ht : t.Unbroken := by decide
  have hu : u.Unbroken := by decide
  obtain ⟨hiff, hlines⟩ := render_eq_iff ht hu
  refine ⟨ht, hu, fun h => ?_, hlines.trans (by decide)⟩
  -- one of the trees has a child and the other one has none
  exact absurd (congrArg (fun t => t.children.length) (hiff.mp h)) (by decide)

end Castellano
