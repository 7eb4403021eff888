import Mathlib.Data.List.DropRight
import GraphQuery.Text.Basic
/-!
# Lines and blanks

A text whose lines are each followed by a newline has these lines, carriage returns at their ends
aside (`Text.lines_joined`); any text is that of its lines between the newlines, but for a last
newline (`Text.joined_splitOn`); and a newline at its very end adds no line but an empty one
(`Text.exists_lines_concat`).  Blanks at the ends of a text do not show once it is trimmed.
-/

namespace GraphQuery

namespace Text

/-! ## Blanks at the ends -/

theorem dropEnd_concat_of_pos {p : Char → Bool} {c : Char} (h : p c = true) (cs : List Char) :
    dropEnd p (cs ++ [c]) = dropEnd p cs := by
  simp [dropEnd, h]

theorem dropEnd_append {p : Char → Bool} {ds : List Char} (h : dropEnd p ds ≠ [])
    (cs : List Char) : dropEnd p (cs ++ ds) = cs ++ dropEnd p ds := by
  have hne : (ds.reverse.dropWhile p).isEmpty = false := by
    simpa [dropEnd] using h
  simp [dropEnd, List.dropWhile_append, hne]

theorem dropEnd_dropEnd (p : Char → Bool) (cs : List Char) :
    dropEnd p (dropEnd p cs) = dropEnd p cs := by
  simp [dropEnd, List.dropWhile_idempotent]

theorem trim_concat {c : Char} (h : isBlank c = true) (cs : List Char) :
    trim (cs ++ [c]) = trim cs := by
  unfold trim
  rw [List.dropWhile_append]
  by_cases hcs : cs.dropWhile isBlank = []
  · simp [hcs, h]
  · simp [hcs, dropEnd_concat_of_pos h]

theorem trim_cons {c : Char} (h : isBlank c = true) (cs : List Char) :
    trim (c :: cs) = trim cs := by
  rw [trim, List.dropWhile_cons_of_pos h, trim]

theorem dropEnd_of_trim {cs : List Char} (h : trim cs = cs) : dropEnd isBlank cs = cs := by
  rw [← h, trim, dropEnd_dropEnd]

theorem ne_concat_of_trim {cs : List Char} (h : trim cs = cs) {c : Char} (hc : isBlank c = true)
    (ds : List Char) : cs ≠ ds ++ [c] := by
  rintro rfl
  have hlength := congrArg List.length (dropEnd_of_trim h)
  have hle : (dropEnd isBlank ds).length ≤ ds.length := by
    simpa [dropEnd] using List.length_dropWhile_le (p := isBlank) ds.reverse
  rw [dropEnd_concat_of_pos hc, List.length_append, List.length_singleton] at hlength
  omega

/-! ## Lines -/

def dropReturn (line : List Char) : List Char :=
  match line.reverse with
  | '\r' :: kept => kept.reverse
  | _ => line

theorem dropReturn_cases (line : List Char) :
    dropReturn line = line ∨ line = dropReturn line ++ ['\r'] := by
  unfold dropReturn
  split
  · rename_i kept h
    right
    rw [← List.reverse_reverse line, h, List.reverse_cons]
  · exact .inl rfl

theorem trim_dropReturn (line : List Char) : trim (dropReturn line) = trim line := by
  rcases dropReturn_cases line with h | h
  · rw [h]
  · conv => rhs; rw [h]
    rw [trim_concat (by decide)]

theorem go_append {line cs : List Char} (h : '\n' ∉ line) (acc : List Char) :
    lines.go acc (line ++ cs) = lines.go (line.reverse ++ acc) cs := by
  induction line generalizing acc with
  | nil => rfl
  | cons c line ih =>
    rw [List.mem_cons, not_or] at h
    rw [List.cons_append, lines.go, ih h.2]
    · simp
    · exact fun hc => h.1 hc.symm

theorem go_newline (acc cs : List Char) :
    lines.go acc ('\n' :: cs) = dropReturn acc.reverse :: lines cs := by
  unfold dropReturn
  rw [List.reverse_reverse]
  split
  · rfl
  · rename_i hreturn
    rw [lines.go, lines]
    exact fun kept h => hreturn kept h

theorem lines_cons {line : List Char} (h : '\n' ∉ line) (cs : List Char) :
    lines (line ++ '\n' :: cs) = dropReturn line :: lines cs := by
  rw [lines, go_append h, List.append_nil, go_newline, List.reverse_reverse]

/-- Some lines as a text, each with a newline behind it. -/
def joined (ls : List (List Char)) : List Char := ls.flatMap (· ++ ['\n'])

theorem joined_cons (l : List Char) (ls : List (List Char)) :
    joined (l :: ls) = l ++ '\n' :: joined ls := by
  simp [joined]

theorem lines_joined {ls : List (List Char)} (h : ∀ l ∈ ls, '\n' ∉ l) :
    lines (joined ls) = ls.map dropReturn := by
  induction ls with
  | nil => rfl
  | cons l ls ih =>
    obtain ⟨hl, hls⟩ := List.forall_mem_cons.1 h
    rw [joined_cons, lines_cons hl, ih hls, List.map_cons]

theorem joined_append (ls ls' : List (List Char)) : joined (ls ++ ls') = joined ls ++ joined ls' :=
  List.flatMap_append

theorem joined_splitOn (cs : List Char) : joined (cs.splitOn '\n') = cs ++ ['\n'] := by
  have hjoined : ∀ {ls : List (List Char)}, ls ≠ [] →
      joined ls = ['\n'].intercalate ls ++ ['\n'] := by
    intro ls hls
    induction ls with
    | nil => exact absurd rfl hls
    | cons l rest ih =>
      cases rest with
      | nil => simp [joined]
      | cons l' rest =>
        rw [joined_cons, ih (List.cons_ne_nil l' rest), List.intercalate_cons_cons]
        simp
  rw [hjoined (List.splitOn_ne_nil '\n' cs), List.intercalate_splitOn]

theorem not_mem_of_mem_splitOn {cs line : List Char} (h : line ∈ cs.splitOn '\n') :
    '\n' ∉ line := by
  induction cs generalizing line with
  | nil => simp_all
  | cons c cs ih =>
    rw [List.splitOn_cons_eq_if_modifyHead] at h
    split at h
    · rcases List.mem_cons.1 h with rfl | h
      · exact List.not_mem_nil
      · exact ih h
    · rename_i hc
      cases hs : cs.splitOn '\n' with
      | nil => exact absurd hs (List.splitOn_ne_nil '\n' cs)
      | cons first rest =>
        rw [hs, List.modifyHead_cons] at h
        rcases List.mem_cons.1 h with rfl | h
        · rw [List.mem_cons, not_or]
          exact ⟨fun he => hc (by simp [← he]), ih (hs ▸ List.mem_cons_self)⟩
        · exact ih (hs ▸ List.mem_cons_of_mem first h)

/-- **A newline at the end of a text** completes its last line, or adds an empty one. -/
theorem exists_lines_concat (cs : List Char) : ∃ before last,
    lines cs = before ++ (if last = [] then [] else [last]) ∧
      lines (cs ++ ['\n']) = before ++ [dropReturn last] := by
  have hgo : ∀ acc, ∃ before last,
      lines.go acc cs = before ++ (if last = [] then [] else [last]) ∧
        lines.go acc (cs ++ ['\n']) = before ++ [dropReturn last] := by
    induction cs with
    | nil =>
      intro acc
      refine ⟨[], acc.reverse, ?_, ?_⟩
      · cases acc <;> simp [lines.go]
      · rw [List.nil_append, go_newline]
        rfl
    | cons c cs ih =>
      intro acc
      by_cases hc : c = '\n'
      · subst hc
        obtain ⟨before, last, h, hn⟩ := ih []
        refine ⟨dropReturn acc.reverse :: before, last, ?_, ?_⟩
        · rw [go_newline, lines, h, List.cons_append]
        · rw [List.cons_append, go_newline, lines, hn, List.cons_append]
      · obtain ⟨before, last, h, hn⟩ := ih (c :: acc)
        refine ⟨before, last, ?_, ?_⟩
        · rw [lines.go, h]
          exact hc
        · rw [List.cons_append, lines.go, hn]
          exact hc
  exact hgo []

end Text

end GraphQuery
