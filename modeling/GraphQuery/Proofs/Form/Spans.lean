import Mathlib.Data.String.Basic
import GraphQuery.Proofs.Form.Lexeme
/-!
# The spans of tokens

A text consists of the stretches that its tokens were cut from and of separators between them
(`Tokens.Tiling`), so the spans of the tokens can be checked against the text without scanning it
(`Tokens.Tiles`): they lie in it one behind the other, they leave out separators only, each begins
at the line and the column that one counts in the text, and the stretch under a span is scanned
again as the same token (`Tokens.tiles_of_scan`).
-/

namespace GraphQuery

/-! ## Counting places -/

namespace Position

/-- The place behind a beginning of a text, counted in that beginning: its bytes, its newlines, and
the characters behind the last newline. -/
def behind (cs : List Char) : Position where
  offset := String.utf8Len cs
  line := 1 + cs.count '\n'
  column := 1 + (cs.reverse.takeWhile (· ≠ '\n')).length

theorem advance_behind (cs : List Char) (c : Char) :
    (behind cs).advance c = behind (cs ++ [c]) := by
  by_cases h : c = '\n'
  · subst h
    simp [advance, behind, Nat.add_assoc]
  · simp [advance, behind, h, Nat.add_comm]

/-- **A place that is moved on along a text is the place behind it.** -/
theorem after_behind (cs ds : List Char) : (behind cs).after ds = behind (cs ++ ds) := by
  induction ds generalizing cs with
  | nil => rw [List.append_nil]; rfl
  | cons d ds ih =>
    have hd : (behind cs).after (d :: ds) = ((behind cs).advance d).after ds := rfl
    rw [hd, advance_behind, ih, List.append_assoc, List.singleton_append]

end Position

def Span.slice (text : String) (s : Span) : String :=
  String.Pos.Raw.extract text ⟨s.start.offset⟩ ⟨s.stop⟩

/-! ## Cutting a lexeme by itself -/

namespace Lexeme

theorem takeString_alone {cs value raw rest : List Char}
    (h : takeString cs = .closed value raw rest) : takeString raw = .closed value raw [] := by
  fun_induction takeString cs generalizing value raw with
  | case1 => cases h
  | case2 r =>
    cases h
    rfl
  | case3 => cases h
  | case4 c r ih =>
    cases hr : takeString r <;> rw [hr] at h <;> cases h
    rw [List.cons_append, List.cons_append, List.nil_append, takeString, ih hr]
    rfl
  | case5 c r hquote hend hescape ih =>
    cases hr : takeString r <;> rw [hr] at h <;> cases h
    rename_i v raw'
    -- a backslash would be an escape, and the text behind it is never empty
    have hnext : takeString (c :: raw') = (takeString raw').cons c [c] := by
      rw [takeString]
      · exact hquote
      · rintro rfl rfl
        have hnil : StringEnd.unclosed = .closed v [] [] := ih hr
        cases hnil
      · rintro d ds rfl rfl
        exact hescape d _ rfl (takeString_append hr).symm
    rw [List.singleton_append, hnext, ih hr]
    rfl

theorem isNumber_takeWhile (c : Char) (cs : List Char) :
    isNumber (c :: cs.takeWhile (continues (isNumber (c :: cs)))) = isNumber (c :: cs) := by
  by_cases hc : c = '-'
  · subst hc
    cases cs with
    | nil => rfl
    | cons d ds =>
      have hd : isNumber ('-' :: d :: ds) = d.isDigit := rfl
      rw [hd]
      cases hdigit : d.isDigit with
      | true =>
        have hkeep : continues true d = true := by
          simp [continues, not_endsAtom_of_isDigit hdigit]
        rw [List.takeWhile_cons_of_pos hkeep]
        exact hdigit
      | false =>
        rw [List.takeWhile_cons]
        split
        · exact hdigit
        · rfl
  · simp [isNumber, hc]

/-- **A lexeme by itself is cut off as what it was cut off a text.** -/
theorem cut_alone {c : Char} {cs raw rest : List Char} {kind : TokenKind}
    (h : cut c cs = .token kind raw rest) : cut c raw = .token kind raw [] := by
  unfold cut at h
  split at h
  · rename_i hc
    cases h
    rw [cut, if_pos hc]
  rename_i hopen
  split at h
  · rename_i hc
    cases h
    rw [cut, if_neg hopen, if_pos hc]
  rename_i hclose
  split at h
  · rename_i hc
    cases h
    rw [cut, if_neg hopen, if_neg hclose, if_pos hc]
  rename_i hquote
  split at h
  · rename_i hc
    split at h
    · rename_i value raw' rest' hs
      cases h
      rw [cut, if_neg hopen, if_neg hclose, if_neg hquote, if_pos hc, takeString_alone hs]
    · cases h
    · cases h
  · rename_i hstring
    dsimp only at h
    split at h
    · rename_i kind' hatom
      cases h
      have hall : ∀ d ∈ cs.takeWhile (continues (isNumber (c :: cs))),
          continues (isNumber (c :: cs)) d = true := fun d hd => List.mem_takeWhile_imp hd
      rw [cut, if_neg hopen, if_neg hclose, if_neg hquote, if_neg hstring]
      simp only [isNumber_takeWhile, List.takeWhile_eq_self_iff.2 hall,
        List.dropWhile_eq_nil_iff.2 hall, hatom]
    · cases h

end Lexeme

namespace Tokens

open Lexeme

/-! ## Tilings -/

def Lone (kind : TokenKind) (raw : List Char) : Prop :=
  scan (String.ofList raw) =
    .ok ⟨[⟨kind, ⟨.behind [], String.utf8Len raw⟩⟩], .behind raw⟩

/-- The rest of a text, behind a beginning, as separators and the stretches of some tokens. -/
inductive Tiling : List Char → List Char → List Token → Prop
  | done (before : List Char) : Tiling before [] []
  | separator {before rest : List Char} {c : Char} {ts : List Token}
      (hc : isSeparator c = true) (h : Tiling (before ++ [c]) rest ts) :
      Tiling before (c :: rest) ts
  | token {before raw rest : List Char} {kind : TokenKind} {ts : List Token}
      (hne : raw ≠ []) (hl : Lone kind raw) (h : Tiling (before ++ raw) rest ts) :
      Tiling before (raw ++ rest)
        (⟨kind, ⟨.behind before, String.utf8Len (before ++ raw)⟩⟩ :: ts)

theorem lone_of_cut {c : Char} {cs raw rest : List Char} {kind : TokenKind}
    (hsep : isSeparator c = false) (h : cut c cs = .token kind raw rest) :
    Lone kind (c :: raw) := by
  have hplace : Position.after {} (c :: raw) = .behind (c :: raw) :=
    Position.after_behind [] (c :: raw)
  rw [Lone, scan, String.toList_ofList, scanFrom_cut hsep (cut_alone h), scanFrom_nil, hplace]
  rfl

/-- **A scan tiles the text.** -/
theorem tiling_of_scanFrom {p : Position} {cs : List Char} {ts : Tokens}
    (h : scanFrom p cs = .ok ts) : ∀ before, p = .behind before →
      Tiling before cs ts.list ∧ ts.finish = .behind (before ++ cs) := by
  refine scan_induction (motive := fun p cs ts => ∀ before, p = .behind before →
    Tiling before cs ts.list ∧ ts.finish = .behind (before ++ cs)) ?nil ?skip ?token h
  case nil =>
    rintro p before rfl
    rw [List.append_nil]
    exact ⟨.done before, rfl⟩
  case skip =>
    rintro p c cs ts hsep ih before rfl
    obtain ⟨htiling, hfinish⟩ := ih (before ++ [c]) (Position.advance_behind before c)
    rw [List.append_assoc] at hfinish
    exact ⟨.separator hsep htiling, hfinish⟩
  case token =>
    rintro p c cs kind raw rest ts hsep hcut ih before rfl
    rw [Position.after_behind] at ih ⊢
    obtain ⟨htiling, hfinish⟩ := ih (before ++ c :: raw) rfl
    rw [← cut_append hcut]
    refine ⟨.token (List.cons_ne_nil c raw) (lone_of_cut hsep hcut) htiling, ?_⟩
    rw [List.append_assoc] at hfinish
    exact hfinish

theorem Tiling.stretch {before rest : List Char} {ts : List Token} (h : Tiling before rest ts) :
    ∀ t ∈ ts, ∃ pre raw post, rest = pre ++ raw ++ post ∧ raw ≠ [] ∧ Lone t.kind raw ∧
      t.span = ⟨.behind (before ++ pre), String.utf8Len (before ++ pre ++ raw)⟩ := by
  induction h with
  | done before => exact fun t ht => absurd ht List.not_mem_nil
  | @separator before rest c ts hc h ih =>
    intro t ht
    obtain ⟨pre, raw, post, rfl, hne, hl, hspan⟩ := ih t ht
    refine ⟨c :: pre, raw, post, rfl, hne, hl, ?_⟩
    rw [hspan, List.append_assoc before [c] pre, List.singleton_append]
  | @token before raw rest kind ts hne hl h ih =>
    intro t ht
    rcases List.mem_cons.1 ht with rfl | ht
    · refine ⟨[], raw, rest, rfl, hne, hl, ?_⟩
      rw [List.append_nil]
    · obtain ⟨pre, raw', post, rfl, hne', hl', hspan⟩ := ih t ht
      refine ⟨raw ++ pre, raw', post, by simp only [List.append_assoc], hne', hl', ?_⟩
      rw [hspan, List.append_assoc before raw pre]

theorem Tiling.ordered {before rest : List Char} {ts : List Token} (h : Tiling before rest ts) :
    ts.Pairwise fun t u => t.span.stop ≤ u.span.start.offset := by
  induction h with
  | done before => exact .nil
  | separator hc h ih => exact ih
  | @token before raw rest kind ts hne hl h ih =>
    refine List.pairwise_cons.2 ⟨fun u hu => ?_, ih⟩
    obtain ⟨pre, raw', post, -, -, -, hspan⟩ := h.stretch u hu
    rw [hspan]
    show String.utf8Len (before ++ raw) ≤ String.utf8Len (before ++ raw ++ pre)
    rw [String.utf8Len_append (before ++ raw)]
    exact Nat.le_add_right _ _

theorem utf8Len_pos {cs : List Char} (h : cs ≠ []) : 0 < String.utf8Len cs :=
  Nat.pos_of_ne_zero fun hz => h (String.utf8Len_eq_zero.1 hz)

/-- **A character that is under no span is a separator.** -/
theorem Tiling.uncovered {before rest : List Char} {ts : List Token} (h : Tiling before rest ts) :
    ∀ {pre : List Char} {c : Char} {post : List Char}, rest = pre ++ c :: post →
      (∀ t ∈ ts, ¬ (t.span.start.offset ≤ String.utf8Len (before ++ pre) ∧
        String.utf8Len (before ++ pre) < t.span.stop)) → isSeparator c = true := by
  induction h with
  | done before =>
    intro pre c post he
    cases pre <;> cases he
  | @separator before rest d ts hd h ih =>
    intro pre c post he hcover
    cases pre with
    | nil =>
      cases he
      exact hd
    | cons e pre =>
      obtain ⟨rfl, hrest⟩ := List.cons.inj he
      rw [← List.singleton_append, ← List.append_assoc] at hcover
      exact ih hrest hcover
  | @token before raw rest kind ts hne hl h ih =>
    intro pre c post he hcover
    rcases List.append_eq_append_iff.1 he with ⟨more, rfl, hrest⟩ | ⟨more, rfl, hrest⟩
    · -- the character stands behind the stretch of the first token
      rw [← List.append_assoc] at hcover
      exact ih hrest fun t ht => hcover t (List.mem_cons_of_mem _ ht)
    · -- it stands in the stretch, unless the stretch ends right in front of it
      cases more with
      | nil =>
        rw [List.append_nil] at ih
        refine @ih [] c post hrest.symm fun t ht => ?_
        rw [List.append_nil]
        exact hcover t (List.mem_cons_of_mem _ ht)
      | cons d more =>
        refine absurd ?_ (hcover _ List.mem_cons_self)
        simp only [Position.behind, String.utf8Len_append]
        have hpos := utf8Len_pos (List.cons_ne_nil d more)
        omega

/-! ## What spans say about a text -/

/-- The spans of tokens checked against their text. -/
structure Tiles (text : String) (ts : Tokens) : Prop where
  ordered : ts.list.Pairwise fun t u => t.span.stop ≤ u.span.start.offset
  /-- a span holds something, lies in the text, and has its ends between characters -/
  within : ∀ t ∈ ts.list, t.span.start.offset < t.span.stop ∧
    t.span.stop ≤ text.utf8ByteSize ∧
    String.Pos.Raw.IsValid text ⟨t.span.start.offset⟩ ∧ String.Pos.Raw.IsValid text ⟨t.span.stop⟩
  /-- a character that no span covers is a separator -/
  uncovered : ∀ before c rest, text.toList = before ++ c :: rest →
    (∀ t ∈ ts.list, ¬ (t.span.start.offset ≤ String.utf8Len before ∧
      String.utf8Len before < t.span.stop)) → isSeparator c = true
  placed : ∀ t ∈ ts.list, ∃ before rest, text.toList = before ++ rest ∧
    t.span.start = .behind before
  /-- the text under a span is scanned as the one token again -/
  lone : ∀ t ∈ ts.list, scan (t.span.slice text) =
    .ok ⟨[⟨t.kind, ⟨.behind [], (t.span.slice text).utf8ByteSize⟩⟩],
      .behind (t.span.slice text).toList⟩
  /-- the end is an empty span at the end of the text -/
  ended : Span.at ts.finish = ⟨.behind text.toList, text.utf8ByteSize⟩

theorem slice_stretch {text : String} {pre raw post : List Char} {s : Span}
    (ht : text.toList = pre ++ raw ++ post)
    (hs : s = ⟨.behind pre, String.utf8Len (pre ++ raw)⟩) : s.slice text = String.ofList raw := by
  have htext : text = String.ofList (pre ++ raw ++ post) := by
    rw [← ht, String.ofList_toList]
  subst hs
  rw [Span.slice, htext, String.utf8Len_append]
  exact String.extract_of_valid pre raw post

theorem isValid_utf8Len {text : String} {pre post : List Char} (ht : text.toList = pre ++ post) :
    String.Pos.Raw.IsValid text ⟨String.utf8Len pre⟩ := by
  refine String.Pos.Raw.isValid_iff_exists_append.2 ⟨String.ofList pre, String.ofList post, ?_, ?_⟩
  · rw [← String.ofList_append, ← ht, String.ofList_toList]
  · rw [String.rawEndPos_ofList]

theorem utf8ByteSize_eq (text : String) : text.utf8ByteSize = String.utf8Len text.toList := by
  rw [← String.utf8ByteSize_ofList, String.ofList_toList]

/-- **The tokens of a text tile it.** -/
theorem tiles_of_scan {text : String} {ts : Tokens} (h : scan text = .ok ts) : Tiles text ts := by
  obtain ⟨htiling, hfinish⟩ := tiling_of_scanFrom h [] rfl
  refine { ordered := htiling.ordered, within := fun t ht => ?_, uncovered := ?_,
           placed := fun t ht => ?_, lone := fun t ht => ?_, ended := ?_ }
  · obtain ⟨pre, raw, post, htext, hne, -, hspan⟩ := htiling.stretch t ht
    rw [hspan]
    simp only [List.nil_append, Position.behind]
    refine ⟨?_, ?_, isValid_utf8Len (by rw [htext, List.append_assoc]), isValid_utf8Len htext⟩
    · have hpos := utf8Len_pos hne
      rw [String.utf8Len_append]
      omega
    · rw [utf8ByteSize_eq, htext, String.utf8Len_append (pre ++ raw)]
      exact Nat.le_add_right _ _
  · exact fun before c rest he hcover => htiling.uncovered he hcover
  · obtain ⟨pre, raw, post, htext, -, -, hspan⟩ := htiling.stretch t ht
    refine ⟨pre, raw ++ post, by rw [htext, List.append_assoc], ?_⟩
    rw [hspan, List.nil_append]
  · obtain ⟨pre, raw, post, htext, -, hl, hspan⟩ := htiling.stretch t ht
    rw [List.nil_append] at hspan
    rw [slice_stretch htext hspan, String.utf8ByteSize_ofList, String.toList_ofList]
    exact hl
  · rw [hfinish, List.nil_append, utf8ByteSize_eq]
    rfl

/-- A string with a character of two bytes and a newline, and a number with a comma behind it. -/
theorem tiles_of_scan_lines :
    let text := "\"é\n\" 5,"
    let ts : Tokens := ⟨[⟨.atom (.string "é\n"), ⟨⟨0, 1, 1⟩, 5⟩⟩,
      ⟨.atom (.int 5), ⟨⟨6, 2, 3⟩, 8⟩⟩], ⟨8, 2, 5⟩⟩
    scan text = .ok ts ∧ Tiles text ts := by
  intro text ts
  have htext : text.toList = ['"', 'é', '\n', '"', ' ', '5', ','] := by decide
  have hscan : scan text = .ok ts := by
    rw [scan, htext]
    with_unfolding_all rfl
  exact ⟨hscan, tiles_of_scan hscan⟩

end Tokens

end GraphQuery
