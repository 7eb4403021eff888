import Mathlib.Data.List.Basic
import GraphQuery.Scenario.QueryBook
/-!
# The sections of a source

A mark opens a section, which has the name of the mark and the lines up to the next one, comments
left out (`QueryBook.sections`).  Reading a source is adding its sections to an empty book, one by
one (`QueryBook.parse_eq`), so which sources are read, and as what, is seen from their sections
(`QueryBook.parse_eq_ok_iff`).
-/

namespace GraphQuery

namespace QueryBook

/-! ## What a book holds -/

theorem lookup_filter_ne {name other : String} (h : other ≠ name) (ts : List (String × String)) :
    (ts.filter fun t => t.1 != name).lookup other = ts.lookup other := by
  induction ts with
  | nil => rfl
  | cons t ts ih =>
    by_cases ht : t.1 = name
    · subst ht
      rw [List.filter_cons_of_neg (by simp), ih, List.lookup_cons, beq_false_of_ne h]
    · rw [List.filter_cons_of_pos (by simp [ht]), List.lookup_cons, List.lookup_cons, ih]

theorem text?_setText (b : QueryBook) (name text other : String) :
    (b.setText name text).text? other = if other = name then some text else b.text? other := by
  unfold text? setText
  by_cases h : other = name
  · subst h
    simp
  · rw [List.lookup_cons, beq_false_of_ne h, if_neg h]
    exact lookup_filter_ne h b.texts

theorem text?_insert (b : QueryBook) (name text other : String) :
    (b.insert name text).text? other = if other = name then some text else b.text? other := by
  unfold insert
  rw [text?_setText]
  split
  · rfl
  · split <;> rfl

theorem names_insert (b : QueryBook) (name text : String) :
    (b.insert name text).names =
      if (b.text? name).isSome then b.names else b.names ++ [name] := by
  unfold insert setText
  split <;> rfl

/-- A query as a source gives it: its name, and the lines under its mark, each with a newline. -/
structure Section where
  name : String
  body : List Char

def Section.text (s : Section) : List Char := Text.trim s.body

def addSection (b : QueryBook) (s : Section) : QueryBook := b.finish s.name s.body

theorem names_addSection (b : QueryBook) (s : Section) :
    (b.addSection s).names = b.names ++ [s.name] := by
  unfold addSection finish setText
  dsimp only
  split <;> rfl

theorem text?_addSection (b : QueryBook) (s : Section) (other : String) :
    (b.addSection s).text? other =
      if other = s.name ∧ s.text ≠ [] then some (String.ofList s.text) else b.text? other := by
  have hadd : (b.addSection s).text? other =
      (if s.text.isEmpty then b else b.setText s.name (String.ofList s.text)).text? other := rfl
  rw [hadd]
  by_cases ht : s.text = []
  · simp [ht]
  · rw [if_neg (mt List.isEmpty_iff.1 ht), text?_setText]
    simp [ht]

theorem isSome_text?_foldl (ss : List Section) (b : QueryBook) (name : String) :
    ((ss.foldl addSection b).text? name).isSome ↔
      (b.text? name).isSome ∨ ∃ s ∈ ss, s.name = name ∧ s.text ≠ [] := by
  induction ss generalizing b with
  | nil => simp
  | cons s rest ih =>
    rw [List.foldl_cons, ih, text?_addSection, List.exists_mem_cons_iff]
    by_cases h : name = s.name ∧ s.text ≠ []
    · simp [h]
    · have hs : ¬ (s.name = name ∧ s.text ≠ []) := fun hs => h ⟨hs.1.symm, hs.2⟩
      rw [if_neg h, or_iff_right hs]

theorem text?_foldl_addSection {ss : List Section} (hn : (ss.map Section.name).Nodup)
    (ht : ∀ s ∈ ss, s.text ≠ []) (b : QueryBook) (name : String) :
    (ss.foldl addSection b).text? name =
      ((ss.map fun s => (s.name, String.ofList s.text)).lookup name).or (b.text? name) := by
  induction ss generalizing b with
  | nil => rfl
  | cons s rest ih =>
    rw [List.map_cons, List.nodup_cons] at hn
    obtain ⟨hs, hrest⟩ := List.forall_mem_cons.1 ht
    rw [List.foldl_cons, ih hn.2 hrest, text?_addSection, List.map_cons, List.lookup_cons]
    by_cases hname : name = s.name
    · have hnone : (rest.map fun s => (s.name, String.ofList s.text)).lookup name = none := by
        rw [List.lookup_eq_none_iff]
        rintro p hp
        obtain ⟨t, ht, rfl⟩ := List.mem_map.1 hp
        exact bne_iff_ne.2 fun he => hn.1 (hname ▸ he ▸ List.mem_map_of_mem ht)
      rw [hnone, if_pos ⟨hname, hs⟩, hname, beq_self_eq_true]
      rfl
    · rw [if_neg fun h => hname h.1, beq_false_of_ne hname]

theorem names_foldl_addSection (ss : List Section) (b : QueryBook) :
    (ss.foldl addSection b).names = b.names ++ ss.map Section.name := by
  induction ss generalizing b with
  | nil => simp
  | cons s rest ih =>
    rw [List.foldl_cons, ih, names_addSection, List.map_cons, List.append_assoc]
    rfl

/-! ## Sections -/

/-- The lines in front of the first mark, each with a newline, and the sections behind it. -/
def sections : List Line → List Char × List Section
  | [] => ([], [])
  | .mark name :: rest => ([], ⟨String.ofList name, (sections rest).1⟩ :: (sections rest).2)
  | .comment :: rest => sections rest
  | .body text :: rest => (text ++ '\n' :: (sections rest).1, (sections rest).2)

def sectionsOf (source : String) : List Section :=
  (sections ((Text.lines source.toList).map Line.ofText)).2

def enter (b : QueryBook) (s : Section) : Except QueryBookFault QueryBook :=
  if s.name.isEmpty then .error .emptyName
  else if (b.text? s.name).isSome then .error (.duplicate s.name)
  else .ok (b.addSection s)

def enterAll (b : QueryBook) : List Section → Except QueryBookFault QueryBook
  | [] => .ok b
  | s :: rest => (b.enter s).bind (·.enterAll rest)

def Reading.extend (r : Reading) (body : List Char) : Reading :=
  { r with current := r.current.map fun q => (q.1, q.2 ++ body) }

theorem Reading.extend_nil (r : Reading) : r.extend [] = r := by
  obtain ⟨done, current⟩ := r
  cases current <;> simp [extend]

/-- **Reading on is adding sections**, the first of which may be open already. -/
theorem close_run (lines : List (List Char)) (r : Reading) :
    (r.run lines).map Reading.close =
      (r.extend (sections (lines.map Line.ofText)).1).close.enterAll
        (sections (lines.map Line.ofText)).2 := by
  induction lines generalizing r with
  | nil =>
    rw [List.map_nil, sections, Reading.extend_nil]
    rfl
  | cons line rest ih =>
    rw [List.map_cons, Reading.run, Reading.step]
    cases Line.ofText line with
    | mark name =>
      rw [sections, Reading.extend_nil, enterAll, enter]
      dsimp only
      split
      · rfl
      · split
        · rfl
        · exact ih ⟨r.close, some (String.ofList name, [])⟩
    | comment =>
      rw [sections]
      exact ih r
    | body text =>
      refine (ih _).trans ?_
      rw [sections]
      obtain ⟨done, current⟩ := r
      cases current <;> simp [Reading.extend]

/-- **A source is read section by section.** -/
theorem parse_eq (source : String) : parse source = empty.enterAll (sectionsOf source) := by
  rw [parse, close_run]
  rfl

theorem enterAll_eq_ok_iff {ss : List Section} {b b' : QueryBook} :
    b.enterAll ss = .ok b' ↔
      (∀ s ∈ ss, s.name ≠ "" ∧ b.text? s.name = none) ∧
        ss.Pairwise (fun s t => s.name = t.name → s.text = []) ∧ b' = ss.foldl addSection b := by
  induction ss generalizing b with
  | nil =>
    rw [enterAll, Except.ok.injEq]
    exact ⟨fun h => ⟨nofun, .nil, h.symm⟩, fun h => h.2.2.symm⟩
  | cons s rest ih =>
    rw [enterAll, enter]
    by_cases hempty : s.name = ""
    · rw [if_pos (String.isEmpty_iff.2 hempty)]
      exact ⟨nofun, fun h => absurd hempty (h.1 s List.mem_cons_self).1⟩
    rw [if_neg (mt String.isEmpty_iff.1 hempty)]
    cases htext : b.text? s.name with
    | some text =>
      rw [Option.isSome_some, if_pos rfl]
      refine ⟨nofun, fun h => ?_⟩
      have hnone := (h.1 s List.mem_cons_self).2
      rw [htext] at hnone
      cases hnone
    | none =>
      have hrest : ∀ t : Section, (b.addSection s).text? t.name = none ↔
          b.text? t.name = none ∧ (s.name = t.name → s.text = []) := by
        intro t
        rw [text?_addSection]
        grind
      rw [if_neg (by simp)]
      refine ih.trans ?_
      simp only [hrest, List.forall_mem_cons, List.pairwise_cons, List.foldl_cons, htext]
      grind

/-- **The sources that are read**: no name is empty, and none is that of a section before it with a
text. -/
theorem parse_eq_ok_iff {source : String} {b : QueryBook} :
    parse source = .ok b ↔
      (∀ s ∈ sectionsOf source, s.name ≠ "") ∧
        (sectionsOf source).Pairwise (fun s t => s.name = t.name → s.text = []) ∧
          b = (sectionsOf source).foldl addSection empty := by
  have hnone : ∀ name, empty.text? name = none := fun name => rfl
  simp only [parse_eq, enterAll_eq_ok_iff, hnone, and_true]

theorem exists_parse {source : String} (hne : ∀ s ∈ sectionsOf source, s.name ≠ "" ∧ s.text ≠ [])
    (hn : ((sectionsOf source).map Section.name).Nodup) :
    ∃ b, parse source = .ok b ∧ b.names = (sectionsOf source).map Section.name ∧ ∀ name,
      b.text? name =
        ((sectionsOf source).map fun s => (s.name, String.ofList s.text)).lookup name := by
  refine ⟨_, parse_eq_ok_iff.2 ⟨fun s hs => (hne s hs).1, ?_, rfl⟩, ?_, fun name => ?_⟩
  · exact (List.pairwise_map.1 hn).imp fun hst he => absurd he hst
  · exact names_foldl_addSection _ empty
  · rw [text?_foldl_addSection hn fun s hs => (hne s hs).2]
    exact Option.or_none

end QueryBook

end GraphQuery
