import Castellano.Proofs.Text.Normal

/-!
# Castellano.Proofs.Text.Lines

The pieces of a text between separators, and its lines. A line ends with a line feed; a carriage
return right before the line feed is part of the end, too. What stands behind the last line feed is
one more line, unless nothing does. So a text that is written line by line, with a line feed behind
each line, has these lines (`lines_flatMap_newline`).

Where lines are looked at without the blanks around them, the text can be split at the line feeds
alone: a carriage return is a blank, so it goes with the others (`trim_withoutReturn`).
-/

namespace Castellano
namespace Text

/-! ## Pieces -/

theorem not_mem_of_mem_splitOn {a : Char} {cs piece : List Char} (h : piece ∈ cs.splitOn a) :
    a ∉ piece := by
  induction cs generalizing piece with
  | nil =>
    rw [List.splitOn_nil, List.mem_singleton] at h
    rw [h]
    exact List.not_mem_nil
  | cons c cs ih =>
    rw [List.splitOn_cons_eq_if_modifyHead] at h
    split at h
    · rcases List.mem_cons.mp h with rfl | h
      · exact List.not_mem_nil
      · exact ih h
    · rename_i hc
      cases hpieces : cs.splitOn a with
      | nil => exact absurd hpieces (List.splitOn_ne_nil a cs)
      | cons first rest =>
        rw [hpieces] at h ih
        rcases List.mem_cons.mp h with rfl | h
        · intro ha
          rcases List.mem_cons.mp ha with rfl | ha
          · exact hc (beq_self_eq_true a)
          · exact ih List.mem_cons_self ha
        · exact ih (List.mem_cons_of_mem first h)

theorem head?_splitOn (a : Char) (cs : List Char) :
    (cs.splitOn a).head? = some (cs.takeWhile fun c => c ≠ a) := by
  induction cs with
  | nil => simp
  | cons c cs ih =>
    rw [List.splitOn_cons_eq_if_modifyHead, List.takeWhile_cons]
    by_cases hc : c = a
    · simp [hc]
    · simp [hc, ih]

/-- Lines that are ended one by one are what the text falls into. -/
theorem splitOn_flatMap_newline {ls : List (List Char)} (h : ∀ line ∈ ls, '\n' ∉ line) :
    (ls.flatMap fun line => line ++ ['\n']).splitOn '\n' = ls ++ [[]] := by
  induction ls with
  | nil => simp
  | cons line ls ih =>
    obtain ⟨hline, hls⟩ := List.forall_mem_cons.mp h
    rw [List.flatMap_cons, List.append_assoc, List.singleton_append,
      List.splitOn_append_cons_self_of_not_mem hline, ih hls, List.cons_append]

theorem length_splitOn_newline (cs : List Char) :
    (cs.splitOn '\n').length = cs.count '\n' + 1 := by
  induction cs with
  | nil => simp
  | cons c cs ih =>
    rw [List.splitOn_cons_eq_if_modifyHead, List.count_cons]
    by_cases hc : c = '\n'
    · simp [hc, ih]
    · simp [hc, ih]

/-- A text that is empty or ends with a line feed has a piece for each line feed, and what follows
it falls into pieces as it would alone. -/
theorem exists_ended_lines {cs : List Char} (h : cs = [] ∨ cs.getLast? = some '\n') :
    ∃ ended, ended.length = cs.count '\n' ∧
      ∀ ds, (cs ++ ds).splitOn '\n' = ended ++ ds.splitOn '\n' := by
  rcases h with rfl | h
  · exact ⟨[], by simp⟩
  · obtain ⟨before, rfl⟩ := List.getLast?_eq_some_iff.mp h
    refine ⟨before.splitOn '\n', ?_, fun ds => ?_⟩
    · rw [length_splitOn_newline, List.count_append, List.count_singleton_self]
    · rw [List.append_assoc, List.singleton_append, List.splitOn_append_cons_self]

/-! ## Lines -/

/-- The line without a carriage return at its end. -/
def withoutReturn (line : List Char) : List Char :=
  if line.getLast? = some '\r' then line.dropLast else line

/-- The lines of a text without their ends. -/
def lines (cs : List Char) : List (List Char) :=
  let pieces := cs.splitOn '\n'
  pieces.dropLast.map withoutReturn ++ pieces.getLast?.toList.filter fun line => line ≠ []

theorem exists_pieces (cs : List Char) :
    ∃ ended last, cs.splitOn '\n' = ended ++ [last] ∧
      lines cs = ended.map withoutReturn ++ [last].filter fun line => line ≠ [] := by
  have hne : cs.splitOn '\n' ≠ [] := List.splitOn_ne_nil '\n' cs
  refine ⟨_, _, (List.dropLast_append_getLast hne).symm, ?_⟩
  rw [lines, List.getLast?_eq_some_getLast hne, Option.toList_some]

/-- Lines that are ended one by one are the lines of the text, unless one of them ends in a carriage
return of its own. -/
theorem lines_flatMap_newline {ls : List (List Char)} (h : ∀ line ∈ ls, '\n' ∉ line)
    (hreturn : ∀ line ∈ ls, line.getLast? ≠ some '\r') :
    lines (ls.flatMap fun line => line ++ ['\n']) = ls := by
  have hid : ∀ line ∈ ls, withoutReturn line = id line := fun line hline =>
    if_neg (hreturn line hline)
  rw [lines, splitOn_flatMap_newline h]
  simp [List.map_congr_left hid]

/-- A blank at the end of a text is trimmed. -/
theorem trim_append_singleton (cs : List Char) {c : Char} (hc : isBlank c = true) :
    trim (cs ++ [c]) = trim cs := by
  rw [trim_eq, trim_eq, List.dropWhile_append]
  split
  · rename_i hempty
    rw [List.isEmpty_iff.mp hempty, List.dropWhile_cons, if_pos hc, List.dropWhile_nil]
  · rw [List.rdropWhile_concat, if_pos hc]

theorem trim_withoutReturn (line : List Char) : trim (withoutReturn line) = trim line := by
  rw [withoutReturn]
  split
  · rename_i hlast
    have hline : line.dropLast ++ ['\r'] = line :=
      List.dropLast_append_getLast? '\r' hlast
    have hreturn : isBlank '\r' = true := by decide
    rw [← trim_append_singleton line.dropLast hreturn, hline]
  · rfl

end Text
end Castellano
