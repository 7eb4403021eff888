import GraphQuery.Proofs.Scenario.Sections
import GraphQuery.Proofs.Text.Lines
/-!
# Writing a source

A source is written as the mark and the lines of each query in turn, with lines in front that are no
marks and with comments anywhere (`QueryBook.Writes`).  Reading it gives the queries back
(`QueryBook.parse_written`), whether or not the last line is followed by a newline
(`QueryBook.parse_newline`).
-/

namespace GraphQuery

namespace QueryBook

open Text

/-! ## Kinds of lines -/

structure IsComment (line : List Char) : Prop where
  single : '\n' ∉ line
  begins : [';', ';'] <+: trim line
  unmarked : ¬ [';', ';', '#'] <+: trim line

theorem strip?_eq_none_iff {cs ps : List Char} : strip? cs ps = none ↔ ¬ ps <+: cs := by
  rw [Option.eq_none_iff_forall_ne_some]
  constructor
  · rintro h ⟨rest, rfl⟩
    exact h rest (strip?_eq_some_iff.2 rfl)
  · exact fun h rest hr => h ⟨rest, (strip?_eq_some_iff.1 hr).symm⟩

theorem ofText_mark {line name : List Char} (h : trim line = [';', ';', '#'] ++ name) :
    Line.ofText line = .mark (trim name) := by
  unfold Line.ofText
  simp only [strip?_eq_some_iff.2 h]

theorem ofText_comment {line : List Char} (hb : [';', ';'] <+: trim line)
    (hu : ¬ [';', ';', '#'] <+: trim line) : Line.ofText line = .comment := by
  obtain ⟨rest, hrest⟩ := hb
  unfold Line.ofText
  simp only [strip?_eq_none_iff.2 hu, strip?_eq_some_iff.2 hrest.symm, Option.isSome_some, if_true]

theorem ofText_body {line : List Char} (h : ¬ [';', ';'] <+: trim line) :
    Line.ofText line = .body line := by
  have hmark : ¬ [';', ';', '#'] <+: trim line := fun hm =>
    h (List.IsPrefix.trans ⟨['#'], rfl⟩ hm)
  unfold Line.ofText
  simp [strip?_eq_none_iff.2 hmark, strip?_eq_none_iff.2 h]

/-! ## The end of a source -/

theorem finish_concat {c : Char} (h : isBlank c = true) (b : QueryBook) (name : String)
    (body : List Char) : b.finish name (body ++ [c]) = b.finish name body := by
  unfold finish
  rw [trim_concat h]

namespace Reading

theorem step_congr {line line' : List Char} (h : Line.ofText line = Line.ofText line')
    (r : Reading) : r.step line = r.step line' := by
  unfold step
  rw [h]

theorem close_step_body (r : Reading) {line : List Char} (h : ¬ [';', ';'] <+: trim line) :
    (r.step line).map close = .ok (r.extend line).close := by
  unfold step
  rw [ofText_body h]
  obtain ⟨done, current⟩ := r
  cases current with
  | none => rfl
  | some q => exact congrArg Except.ok (finish_concat (by decide) ..)

theorem close_step_return (r : Reading) (line : List Char) :
    (r.step (line ++ ['\r'])).map close = (r.step line).map close := by
  have htrim : trim (line ++ ['\r']) = trim line := trim_concat (by decide) line
  by_cases hbody : [';', ';'] <+: trim line
  · refine congrArg (Except.map close) (step_congr ?_ r)
    by_cases hmark : [';', ';', '#'] <+: trim line
    · obtain ⟨name, hname⟩ := hmark
      rw [ofText_mark (htrim.trans hname.symm), ofText_mark hname.symm]
    · rw [ofText_comment (htrim ▸ hbody) (htrim ▸ hmark), ofText_comment hbody hmark]
  · rw [close_step_body r (htrim ▸ hbody), close_step_body r hbody]
    obtain ⟨done, current⟩ := r
    cases current with
    | none => rfl
    | some q =>
      have hsame := finish_concat (c := '\r') (by decide) done q.1 (q.2 ++ line)
      rw [List.append_assoc] at hsame
      exact congrArg Except.ok hsame

theorem close_step_dropReturn (r : Reading) (line : List Char) :
    (r.step (dropReturn line)).map close = (r.step line).map close := by
  rcases dropReturn_cases line with h | h
  · rw [h]
  · conv => rhs; rw [h]
    rw [close_step_return]

theorem run_append (r : Reading) (ls ls' : List (List Char)) :
    r.run (ls ++ ls') = (r.run ls).bind (·.run ls') := by
  induction ls generalizing r with
  | nil => rfl
  | cons line rest ih =>
    rw [List.cons_append, run, run]
    cases r.step line with
    | error e => rfl
    | ok next => exact ih next

theorem run_singleton (r : Reading) (line : List Char) : r.run [line] = r.step line := by
  rw [run]
  cases r.step line <;> rfl

theorem close_run_last (r : Reading) (last : List Char) :
    (r.run (if last = [] then [] else [last])).map close =
      (r.run [dropReturn last]).map close := by
  rw [run_singleton, close_step_dropReturn]
  by_cases h : last = []
  · subst h
    rw [close_step_body r (by decide), extend_nil]
    rfl
  · rw [if_neg h, run_singleton]

end Reading

/-- **A newline at the end of a source makes no difference.** -/
theorem parse_newline (source : String) : parse (source ++ "\n") = parse source := by
  obtain ⟨before, last, hlines, hnewline⟩ := exists_lines_concat source.toList
  have htext : (source ++ "\n").toList = source.toList ++ ['\n'] := String.toList_append ..
  rw [parse, parse, htext, hlines, hnewline, Reading.run_append, Reading.run_append]
  cases ({} : Reading).run before with
  | error e => rfl
  | ok r => exact (r.close_run_last last).symm

/-! ## Written queries -/

structure Writable (q : String × String) : Prop where
  name_ne : q.1 ≠ ""
  name_single : '\n' ∉ q.1.toList
  name_trim : trim q.1.toList = q.1.toList
  text_ne : q.2 ≠ ""
  text_trim : trim q.2.toList = q.2.toList
  text_return : ¬ ['\r', '\n'] <:+: q.2.toList
  text_unmarked : ∀ line ∈ q.2.toList.splitOn '\n', ¬ [';', ';'] <+: trim line

/-- The mark of a query and the lines of its text. -/
def written (q : String × String) : List (List Char) :=
  ([';', ';', '#', ' '] ++ q.1.toList) :: q.2.toList.splitOn '\n'

/-- Some lines, and comments anywhere between them. -/
inductive Commented : List (List Char) → List (List Char) → Prop
  | nil : Commented [] []
  | keep (line : List Char) {plain lines : List (List Char)} (h : Commented plain lines) :
      Commented (line :: plain) (line :: lines)
  | comment {line : List Char} (hc : IsComment line) {plain lines : List (List Char)}
      (h : Commented plain lines) : Commented plain (line :: lines)

structure Writes (queries : List (String × String)) (source : String) : Prop where
  distinct : (queries.map Prod.fst).Nodup
  writable : ∀ q ∈ queries, Writable q
  /-- in front of the first mark any lines that are no marks, and comments anywhere; the last line
  may be without a newline -/
  lines : ∃ before all, (∀ line ∈ before, '\n' ∉ line ∧ ¬ [';', ';', '#'] <+: trim line) ∧
    Commented (before ++ queries.flatMap written) all ∧
      (source.toList = joined all ∨ source.toList ++ ['\n'] = joined all)

theorem Writable.dropReturn_eq {q : String × String} (h : Writable q) {line : List Char}
    (hline : line ∈ q.2.toList.splitOn '\n') : dropReturn line = line := by
  refine (dropReturn_cases line).resolve_right fun hreturn => ?_
  obtain ⟨front, back, hsplit⟩ := List.append_of_mem hline
  have htext : (joined front ++ dropReturn line ++ ['\r']) ++ ('\n' :: joined back) =
      q.2.toList ++ ['\n'] := by
    rw [← joined_splitOn, hsplit, joined_append, joined_cons, List.append_assoc, List.append_assoc,
      ← List.append_assoc (dropReturn line), ← hreturn]
  -- the newline behind the line is the last one, or stands in the text
  rcases List.eq_nil_or_concat' (joined back) with hback | ⟨more, last, hback⟩
  · rw [hback] at htext
    exact ne_concat_of_trim h.text_trim (by decide) _ (List.append_inj_left' htext rfl).symm
  · rw [hback, ← List.cons_append, ← List.append_assoc] at htext
    refine h.text_return ⟨joined front ++ dropReturn line, more, ?_⟩
    rw [← List.append_inj_left' htext rfl]
    simp

/-! ## What is read -/

def kind (line : List Char) : Line := Line.ofText (dropReturn line)

theorem kind_comment {line : List Char} (hb : [';', ';'] <+: trim line)
    (hu : ¬ [';', ';', '#'] <+: trim line) : kind line = .comment :=
  ofText_comment ((trim_dropReturn line).symm ▸ hb) ((trim_dropReturn line).symm ▸ hu)

theorem kind_body {line : List Char} (h : ¬ [';', ';'] <+: trim line) :
    kind line = .body (dropReturn line) :=
  ofText_body ((trim_dropReturn line).symm ▸ h)

theorem sections_commented {plain lines : List (List Char)} (h : Commented plain lines) :
    sections (lines.map kind) = sections (plain.map kind) := by
  induction h with
  | nil => rfl
  | keep line h ih =>
    rw [List.map_cons, List.map_cons]
    cases kind line <;> simp only [sections, ih]
  | comment hc h ih => rw [List.map_cons, kind_comment hc.begins hc.unmarked, sections, ih]

theorem sections_before {before : List (List Char)}
    (h : ∀ line ∈ before, '\n' ∉ line ∧ ¬ [';', ';', '#'] <+: trim line)
    (lines : List (List Char)) :
    (sections ((before ++ lines).map kind)).2 = (sections (lines.map kind)).2 := by
  induction before with
  | nil => rfl
  | cons line rest ih =>
    obtain ⟨hline, hrest⟩ := List.forall_mem_cons.1 h
    rw [List.cons_append, List.map_cons]
    by_cases hb : [';', ';'] <+: trim line
    · rw [kind_comment hb hline.2, sections]
      exact ih hrest
    · rw [kind_body hb, sections]
      exact ih hrest

theorem sections_lines {ls : List (List Char)}
    (h : ∀ line ∈ ls, ¬ [';', ';'] <+: trim line ∧ dropReturn line = line) (lines : List Line) :
    sections (ls.map kind ++ lines) = (joined ls ++ (sections lines).1, (sections lines).2) := by
  induction ls with
  | nil => rfl
  | cons line rest ih =>
    obtain ⟨⟨hline, hreturn⟩, hrest⟩ := List.forall_mem_cons.1 h
    rw [List.map_cons, List.cons_append, kind_body hline, hreturn, sections, ih hrest,
      joined_cons, List.append_assoc, List.cons_append]

theorem kind_mark {name : List Char} (hne : name ≠ []) (h : trim name = name) :
    kind ([';', ';', '#', ' '] ++ name) = .mark name := by
  have hend : dropEnd isBlank name ≠ [] := by rwa [dropEnd_of_trim h]
  have htrim : trim ([';', ';', '#', ' '] ++ name) = [';', ';', '#'] ++ (' ' :: name) := by
    have hfirst : ([';', ';', '#', ' '] ++ name).dropWhile isBlank =
      [';', ';', '#', ' '] ++ name := List.dropWhile_cons_of_neg (by decide)
    rw [trim, hfirst, dropEnd_append hend, dropEnd_of_trim h]
    rfl
  rw [kind, ofText_mark ((trim_dropReturn _).trans htrim), trim_cons (by decide), h]

/-- **The sections of written queries.** -/
theorem sections_written {queries : List (String × String)} (h : ∀ q ∈ queries, Writable q) :
    sections ((queries.flatMap written).map kind) =
      ([], queries.map fun q => ⟨q.1, q.2.toList ++ ['\n']⟩) := by
  induction queries with
  | nil => rfl
  | cons q rest ih =>
    obtain ⟨hq, hrest⟩ := List.forall_mem_cons.1 h
    have hne : q.1.toList ≠ [] := mt String.toList_eq_nil_iff.1 hq.name_ne
    have hlines : ∀ line ∈ q.2.toList.splitOn '\n',
        ¬ [';', ';'] <+: trim line ∧ dropReturn line = line :=
      fun line hline => ⟨hq.text_unmarked line hline, hq.dropReturn_eq hline⟩
    rw [List.flatMap_cons, List.map_append, written, List.map_cons, kind_mark hne hq.name_trim,
      List.cons_append, sections, sections_lines hlines, ih hrest, joined_splitOn,
      String.ofList_toList, List.append_nil, List.map_cons]

theorem Commented.single {plain lines : List (List Char)} (h : Commented plain lines)
    (hp : ∀ line ∈ plain, '\n' ∉ line) : ∀ line ∈ lines, '\n' ∉ line := by
  induction h with
  | nil => exact hp
  | keep line h ih =>
    rw [List.forall_mem_cons] at hp ⊢
    exact ⟨hp.1, ih hp.2⟩
  | comment hc h ih =>
    rw [List.forall_mem_cons]
    exact ⟨hc.single, ih hp⟩

theorem Writable.single {q : String × String} (h : Writable q) :
    ∀ line ∈ written q, '\n' ∉ line := by
  rw [written, List.forall_mem_cons]
  refine ⟨?_, fun line => not_mem_of_mem_splitOn⟩
  rw [List.mem_append, not_or]
  exact ⟨by decide, h.name_single⟩

theorem sectionsOf_written {queries : List (String × String)} {before all : List (List Char)}
    {source : String} (hq : ∀ q ∈ queries, Writable q)
    (hb : ∀ line ∈ before, '\n' ∉ line ∧ ¬ [';', ';', '#'] <+: trim line)
    (hc : Commented (before ++ queries.flatMap written) all) (hs : source.toList = joined all) :
    sectionsOf source = queries.map fun q => ⟨q.1, q.2.toList ++ ['\n']⟩ := by
  have hsingle : ∀ line ∈ before ++ queries.flatMap written, '\n' ∉ line := by
    rw [List.forall_mem_append]
    refine ⟨fun line hline => (hb line hline).1, fun line hline => ?_⟩
    obtain ⟨q, hmem, hline⟩ := List.mem_flatMap.1 hline
    exact (hq q hmem).single line hline
  have hkind : (lines source.toList).map Line.ofText = all.map kind := by
    rw [hs, lines_joined (hc.single hsingle), List.map_map]
    rfl
  rw [sectionsOf, hkind, sections_commented hc, sections_before hb, sections_written hq]

/--
**Loading undoes writing**: a source that is written from queries with different names is read as
these queries, their names in order and each with its text, and as nothing else.
-/
theorem parse_written {queries : List (String × String)} {source : String}
    (h : Writes queries source) :
    ∃ b, parse source = .ok b ∧ b.names = queries.map Prod.fst ∧
      ∀ name, b.text? name = queries.lookup name := by
  obtain ⟨before, all, hb, hc, hs⟩ := h.lines
  -- a newline that is missing at the end can be added
  obtain ⟨full, hparse, hfull⟩ : ∃ full, parse source = parse full ∧ full.toList = joined all := by
    rcases hs with hs | hs
    · exact ⟨source, rfl, hs⟩
    · exact ⟨source ++ "\n", (parse_newline source).symm, (String.toList_append ..).trans hs⟩
  have hsections := sectionsOf_written h.writable hb hc hfull
  have htext : ∀ q ∈ queries, Section.text ⟨q.1, q.2.toList ++ ['\n']⟩ = q.2.toList :=
    fun q hq => (trim_concat (by decide) _).trans (h.writable q hq).text_trim
  have hnames : (sectionsOf full).map Section.name = queries.map Prod.fst := by
    simp [hsections, Function.comp_def]
  have htexts : ((sectionsOf full).map fun s => (s.name, String.ofList s.text)) = queries := by
    rw [hsections, List.map_map]
    refine (List.map_congr_left fun q hq => ?_).trans (List.map_id queries)
    rw [Function.comp_apply, htext q hq, String.ofList_toList]
    rfl
  have hne : ∀ s ∈ sectionsOf full, s.name ≠ "" ∧ s.text ≠ [] := by
    intro s hs
    rw [hsections] at hs
    obtain ⟨q, hq, rfl⟩ := List.mem_map.1 hs
    refine ⟨(h.writable q hq).name_ne, ?_⟩
    rw [htext q hq]
    exact mt String.toList_eq_nil_iff.1 (h.writable q hq).text_ne
  have hread := exists_parse hne (hnames ▸ h.distinct)
  rw [hnames, htexts] at hread
  rwa [hparse]

/-- A line in front, a text of three lines with an empty one, comments in front of a mark and within
a text, and no newline at the end. -/
theorem parse_written_comments :
    let queries := [("a", "(b\n\n  c)"), ("d e", "(f)")]
    let source := "x\n;; y\n;;# a\n(b\n\n  ;;-#\n  c)\n;;# d e\n(f)"
    Writes queries source ∧ ∃ b, parse source = .ok b ∧ b.names = ["a", "d e"] ∧
      ∀ name, b.text? name = queries.lookup name := by
  intro queries source
  let all : List (List Char) := ["x", ";; y", ";;# a", "(b", "", "  ;;-#", "  c)", ";;# d e",
    "(f)"].map String.toList
  have hcomment : IsComment ";; y".toList := by constructor <;> decide +kernel
  have hinside : IsComment "  ;;-#".toList := by constructor <;> decide +kernel
  have hfirst : Writable ("a", "(b\n\n  c)") := by constructor <;> decide +kernel
  have hsecond : Writable ("d e", "(f)") := by constructor <;> decide +kernel
  have hwrites : Writes queries source := by
    refine ⟨by decide, List.forall_mem_cons.2 ⟨hfirst, List.forall_mem_singleton.2 hsecond⟩,
      ["x".toList], all, by decide +kernel, ?_, .inr (by decide +kernel)⟩
    exact .keep _ (.comment hcomment (.keep _ (.keep _ (.keep _ (.comment hinside (.keep _
      (.keep _ (.keep _ .nil))))))))
  exact ⟨hwrites, parse_written hwrites⟩

end QueryBook

end GraphQuery
