import Mathlib.Data.List.Nodup
import GraphQuery.Proofs.Scenario.Sections
/-!
# The names of a book

A book lists every name that it has a text for (`QueryBook.Listed`).  Whether it lists a name twice
is another matter, as a name is looked up among the texts and not in the list: a section without
text leaves a name that can be given again, by a mark or by an insertion, and this is the only way
to a list with repetitions (`QueryBook.names_nodup_iff`).
-/

namespace GraphQuery

namespace QueryBook

def insertAll (b : QueryBook) (later : List (String × String)) : QueryBook :=
  later.foldl (fun b q => b.insert q.1 q.2) b

/-! ## Names that are listed -/

def Listed (b : QueryBook) : Prop := ∀ name, (b.text? name).isSome → name ∈ b.names

theorem listed_empty : Listed empty := fun _ h => by cases h

theorem Listed.addSection {b : QueryBook} (h : b.Listed) (s : Section) :
    (b.addSection s).Listed := by
  intro name hname
  rw [names_addSection, List.mem_append, List.mem_singleton]
  rw [text?_addSection] at hname
  split at hname
  · rename_i hs
    exact .inr hs.1
  · exact .inl (h name hname)

theorem Listed.insert {b : QueryBook} (h : b.Listed) (name text : String) :
    (b.insert name text).Listed := by
  intro other hother
  rw [text?_insert] at hother
  rw [names_insert]
  by_cases hn : other = name
  · subst hn
    split
    · rename_i hb
      exact h other hb
    · exact List.mem_concat_self
  · rw [if_neg hn] at hother
    split
    · exact h other hother
    · exact List.mem_append_left _ (h other hother)

theorem Listed.foldl_addSection {b : QueryBook} (h : b.Listed) (ss : List Section) :
    (ss.foldl QueryBook.addSection b).Listed := by
  induction ss generalizing b with
  | nil => exact h
  | cons s rest ih => exact ih (h.addSection s)

theorem Listed.insertAll {b : QueryBook} (h : b.Listed) (later : List (String × String)) :
    (b.insertAll later).Listed := by
  induction later generalizing b with
  | nil => exact h
  | cons q rest ih => exact ih (h.insert q.1 q.2)

/-! ## Names that are repeated -/

/-- **Insertions repeat a name** just when it was listed before without a text. -/
theorem nodup_insertAll_iff {later : List (String × String)} {b : QueryBook} :
    (b.insertAll later).names.Nodup ↔
      b.names.Nodup ∧ ∀ q ∈ later, q.1 ∈ b.names → (b.text? q.1).isSome := by
  induction later generalizing b with
  | nil => simp [insertAll]
  | cons q rest ih =>
    rw [List.forall_mem_cons]
    refine Iff.trans (ih (b := b.insert q.1 q.2)) ?_
    simp only [names_insert, text?_insert]
    -- from now on the name has a text, so it is not listed again
    by_cases hq : (b.text? q.1).isSome
    · simp only [hq, if_true]
      grind
    · simp only [hq]
      grind [List.nodup_append]

theorem unwritten_iff {ss : List Section} (h : (ss.map Section.name).Nodup)
    (later : List (String × String)) :
    (∀ q ∈ later, q.1 ∈ ss.map Section.name →
      ((ss.foldl addSection empty).text? q.1).isSome) ↔
        ∀ s ∈ ss, s.text = [] → s.name ∉ later.map Prod.fst := by
  have hsome : ∀ name, ((ss.foldl addSection empty).text? name).isSome ↔
      ∃ s ∈ ss, s.name = name ∧ s.text ≠ [] := fun name => by
    rw [isSome_text?_foldl]
    exact or_iff_right (by simp [text?, empty])
  simp only [hsome]
  constructor
  · intro hall s hs ht hmem
    obtain ⟨q, hq, hname⟩ := List.mem_map.1 hmem
    obtain ⟨t, hts, htname, httext⟩ := hall q hq (hname ▸ List.mem_map_of_mem hs)
    have hsame : t = s := List.inj_on_of_nodup_map h hts hs (htname.trans hname)
    exact httext (hsame ▸ ht)
  · intro hall q hq hmem
    obtain ⟨s, hs, hname⟩ := List.mem_map.1 hmem
    refine ⟨s, hs, hname, fun ht => hall s hs ht ?_⟩
    rw [hname]
    exact List.mem_map_of_mem hq

/--
**What keeps the names of a book apart.**  A source is read just when no name is empty and no name
is that of a section before it that has a text.  In what it is read as, whatever is added or
replaced later, every name that has a text is listed; and no name is listed twice just when the
sections have different names and nothing is added under the name of one without text.
-/
theorem names_nodup_iff (source : String) :
    ((∃ b, parse source = .ok b) ↔ (∀ s ∈ sectionsOf source, s.name ≠ "") ∧
      (sectionsOf source).Pairwise fun s t => s.name = t.name → s.text = []) ∧
    ∀ b, parse source = .ok b → ∀ later : List (String × String),
      (∀ name, ((b.insertAll later).text? name).isSome → name ∈ (b.insertAll later).names) ∧
      ((b.insertAll later).names.Nodup ↔ ((sectionsOf source).map Section.name).Nodup ∧
        ∀ s ∈ sectionsOf source, s.text = [] → s.name ∉ later.map Prod.fst) := by
  refine ⟨?_, fun b hb later => ?_⟩
  · constructor
    · rintro ⟨b, hb⟩
      obtain ⟨hnames, htexts, -⟩ := parse_eq_ok_iff.1 hb
      exact ⟨hnames, htexts⟩
    · rintro ⟨hnames, htexts⟩
      exact ⟨_, parse_eq_ok_iff.2 ⟨hnames, htexts, rfl⟩⟩
  · obtain ⟨-, -, rfl⟩ := parse_eq_ok_iff.1 hb
    refine ⟨(listed_empty.foldl_addSection _).insertAll later, ?_⟩
    have hnames : ((sectionsOf source).foldl addSection empty).names =
        (sectionsOf source).map Section.name := names_foldl_addSection _ empty
    rw [nodup_insertAll_iff, hnames]
    exact and_congr_right fun h => unwritten_iff h later

/-- A section with a text and one without it; the one is replaced, and a third query is added. -/
theorem names_nodup_iff_replaced :
    let b : QueryBook := ⟨[("a", "(1)")], ["a", "b"]⟩
    let later := [("a", "(2)"), ("c", "(3)")]
    parse ";;# a\n(1)\n;;# b" = .ok b ∧ (b.insertAll later).names.Nodup ∧
      (b.insertAll later).names = ["a", "b", "c"] := by
  intro b later
  have hparse : parse ";;# a\n(1)\n;;# b" = .ok ⟨[("a", "(1)")], ["a", "b"]⟩ := rfl
  have hsections : sectionsOf ";;# a\n(1)\n;;# b" = [⟨"a", "(1)\n".toList⟩, ⟨"b", []⟩] := rfl
  refine ⟨hparse, (((names_nodup_iff _).2 b hparse later).2).2 ?_, rfl⟩
  rw [hsections]
  decide

/-- A name without text is given again, by a mark or by an insertion. -/
theorem names_repeated :
    parse ";;# a\n;;# a\n(1)" = .ok ⟨[("a", "(1)")], ["a", "a"]⟩ ∧
      parse ";;# a" = .ok ⟨[], ["a"]⟩ ∧
      insertAll ⟨[], ["a"]⟩ [("a", "(1)")] = ⟨[("a", "(1)")], ["a", "a"]⟩ ∧
      ¬ ["a", "a"].Nodup :=
  ⟨rfl, rfl, rfl, by decide⟩

end QueryBook

end GraphQuery
