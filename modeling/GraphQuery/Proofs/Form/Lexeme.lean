import Mathlib.Data.List.TakeWhile
import GraphQuery.Form.Token
import GraphQuery.Proofs.Number.Numeral
/-!
# Cutting atoms off a text

A string, a name and an integer are cut off a text as what they are, whatever follows, as long as a
name or a number ends there: behind some commas comes nothing more, or a character that ends an atom
(`Lexeme.Ends`).  Conversely a symbol that was cut off a text is a name (`Lexeme.isName_of_cut`).
-/

namespace GraphQuery

namespace Lexeme

/-! ## Character classes -/

theorem not_endsAtom_of_isDigit {c : Char} (h : c.isDigit = true) : endsAtom c = false := by
  have hlow : 48 ≤ c.toNat ∧ c.toNat ≤ 57 := by
    simp only [Char.isDigit, Bool.and_eq_true, decide_eq_true_eq] at h
    exact ⟨h.1, h.2⟩
  have hblank : isBlank c = false := by
    simp only [isBlank, blankRanges, List.any_cons, List.any_nil, Bool.or_false,
      Bool.or_eq_false_iff, Bool.and_eq_false_iff, decide_eq_false_iff_not]
    omega
  have hne : ∀ d : Char, d.toNat < 48 → c ≠ d := fun d hd he => by
    rw [he] at hlow
    omega
  simp [endsAtom, hblank, hne '(' (by decide), hne ')' (by decide), hne '"' (by decide),
    hne '\'' (by decide), hne ',' (by decide)]

theorem isSeparator_eq_or {c : Char} (h : isSeparator c = true) : isBlank c = true ∨ c = ',' := by
  simpa [isSeparator] using h

theorem endsAtom_of_isSeparator {c : Char} (h : isSeparator c = true) : endsAtom c = true := by
  rcases isSeparator_eq_or h with h | rfl
  · simp [endsAtom, h]
  · decide

theorem cut_of_not_endsAtom {c : Char} (h : endsAtom c = false) (cs : List Char) :
    cut c cs =
      let keep := continues (isNumber (c :: cs))
      match atom (c :: cs.takeWhile keep) with
      | .ok kind => .token kind (cs.takeWhile keep) (cs.dropWhile keep)
      | .error fault => .fault fault (cs.takeWhile keep) := by
  simp only [endsAtom, Bool.or_eq_false_iff, decide_eq_false_iff_not] at h
  obtain ⟨⟨⟨⟨⟨-, hopen⟩, hclose⟩, hstring⟩, hquote⟩, -⟩ := h
  unfold cut
  exact (if_neg hopen).trans ((if_neg hclose).trans ((if_neg hquote).trans (if_neg hstring)))

/-! ## Strings -/

theorem takeString_escape (value rest : List Char) :
    takeString (value.flatMap Atom.escape ++ '"' :: rest) =
      .closed value (value.flatMap Atom.escape ++ ['"']) rest := by
  induction value with
  | nil => rfl
  | cons c cs ih =>
    rw [List.flatMap_cons, List.append_assoc]
    by_cases hb : c = '\\'
    · subst hb
      have he : Atom.escape '\\' = ['\\', '\\'] := rfl
      rw [he, List.cons_append, List.cons_append, List.nil_append, takeString, ih]
      rfl
    by_cases hq : c = '"'
    · subst hq
      have he : Atom.escape '"' = ['\\', '"'] := rfl
      rw [he, List.cons_append, List.cons_append, List.nil_append, takeString, ih]
      rfl
    have he : Atom.escape c = [c] := by rw [Atom.escape, if_neg hb, if_neg hq]
    have hnext : ∀ more, takeString (c :: more) = (takeString more).cons c [c] := fun more => by
      rw [takeString]
      · exact hq
      · exact fun h => absurd h hb
      · exact fun _ _ h => absurd h hb
    rw [he, List.singleton_append, hnext, ih]
    rfl

theorem cut_string (text : String) (rest : List Char) :
    cut '"' (text.toList.flatMap Atom.escape ++ '"' :: rest) =
      .token (.atom (.string text)) (text.toList.flatMap Atom.escape ++ ['"']) rest := by
  have hclass : ∀ c : Char, c ≠ '"' → ('"' : Char) ≠ c := fun _ h => h.symm
  rw [cut, if_neg (hclass _ (by decide)), if_neg (hclass _ (by decide)),
    if_neg (hclass _ (by decide)), if_pos rfl, takeString_escape]
  simp

/-! ## Words -/

def Ends (text : List Char) : Prop := ∃ commas rest, text = commas ++ rest ∧
  (∀ c ∈ commas, c = ',') ∧ ∀ c more, rest = c :: more → endsAtom c = true ∧ c ≠ ','

theorem Ends.head {c : Char} {text : List Char} (h : Ends (c :: text)) : endsAtom c = true := by
  obtain ⟨commas, rest, he, hcommas, hrest⟩ := h
  cases commas with
  | nil => exact (hrest c text he.symm).1
  | cons d ds =>
    rw [(List.cons.inj he).1, hcommas d List.mem_cons_self]
    decide

/-- A name: characters that do not end an atom, and not a number. -/
def isName (cs : List Char) : Bool := !cs.isEmpty && cs.all (!endsAtom ·) && !isNumber cs

theorem ne_comma_of_not_endsAtom {c : Char} (h : endsAtom c = false) : c ≠ ',' := fun he => by
  rw [he] at h
  cases h

theorem takeWhile_continues {word text : List Char} (hw : ∀ c ∈ word, endsAtom c = false)
    (ht : Ends text) (number : Bool) : ∃ commas rest, text = commas ++ rest ∧
      (∀ c ∈ commas, c = ',') ∧
      (word ++ text).takeWhile (continues number) = word ++ commas ∧
      (word ++ text).dropWhile (continues number) = rest := by
  have hword : ∀ c ∈ word, continues number c = true := fun c hc => by simp [continues, hw c hc]
  cases number with
  | false =>
    have hstop : ∀ c more, text = c :: more → continues false c = false := fun c more he => by
      rw [he] at ht
      simp [continues, ht.head]
    have hscan := Text.takeWhile_append_stop hword hstop
    exact ⟨[], text, rfl, by simp, by rw [hscan.1, List.append_nil], hscan.2⟩
  | true =>
    obtain ⟨commas, rest, rfl, hcommas, hrest⟩ := ht
    have hstop : ∀ c more, rest = c :: more → continues true c = false := fun c more he => by
      have hc := hrest c more he
      simp [continues, hc.1, hc.2]
    have hall : ∀ c ∈ word ++ commas, continues true c = true := fun c hc => by
      rcases List.mem_append.1 hc with hc | hc
      · exact hword c hc
      · rw [hcommas c hc]
        decide
    have hscan := Text.takeWhile_append_stop hall hstop
    rw [List.append_assoc] at hscan
    exact ⟨commas, rest, rfl, hcommas, hscan.1, hscan.2⟩

theorem dropEnd_word {word commas : List Char} (hw : ∀ c ∈ word, endsAtom c = false)
    (hc : ∀ c ∈ commas, c = ',') : Text.dropEnd (· = ',') (word ++ commas) = word := by
  have hcommas : ∀ c ∈ commas.reverse, decide (c = ',') = true := fun c h => by
    simpa using hc c (List.mem_reverse.1 h)
  have hstop : ∀ c more, word.reverse = c :: more → decide (c = ',') = false := fun c more he => by
    have hmem : c ∈ word.reverse := by simp [he]
    simpa using ne_comma_of_not_endsAtom (hw c (List.mem_reverse.1 hmem))
  rw [Text.dropEnd, List.reverse_append, (Text.takeWhile_append_stop hcommas hstop).2,
    List.reverse_reverse]

theorem dropEnd_word_self {word : List Char} (hw : ∀ c ∈ word, endsAtom c = false) :
    Text.dropEnd (· = ',') word = word := by
  have hnone : ∀ c ∈ ([] : List Char), c = ',' := fun c hc => by cases hc
  have hself := dropEnd_word hw hnone
  rwa [List.append_nil] at hself

/-- **A word is cut off as the atom that it is, with the commas behind it if it is a number.** -/
theorem cut_word {c : Char} {cs text : List Char} {kind : TokenKind}
    (hw : ∀ d ∈ c :: cs, endsAtom d = false) (ht : Ends text) (ha : atom (c :: cs) = .ok kind) :
    ∃ commas rest, text = commas ++ rest ∧ (∀ d ∈ commas, d = ',') ∧
      cut c (cs ++ text) = .token kind (cs ++ commas) rest := by
  have htail : ∀ d ∈ cs, endsAtom d = false := fun d hd => hw d (List.mem_cons_of_mem c hd)
  obtain ⟨commas, rest, he, hcommas, htake, hdrop⟩ :=
    takeWhile_continues htail ht (isNumber (c :: (cs ++ text)))
  have hatom : atom (c :: (cs ++ commas)) = .ok kind := by
    rw [← ha]
    simp only [atom, ← List.cons_append, dropEnd_word hw hcommas, dropEnd_word_self hw]
  refine ⟨commas, rest, he, hcommas, ?_⟩
  rw [cut_of_not_endsAtom (hw c List.mem_cons_self)]
  simp only [htake, hdrop, hatom]

/-- **A name is read as a symbol.** -/
theorem atom_name {cs : List Char} (h : isName cs = true) :
    atom cs = .ok (.atom (.symbol (String.ofList cs))) := by
  simp only [isName, Bool.and_eq_true, Bool.not_eq_true', List.all_eq_true] at h
  obtain ⟨⟨-, hall⟩, hnumber⟩ := h
  simp [atom, dropEnd_word_self hall, hnumber]

theorem not_endsAtom_of_mem_toString {z : Int} {c : Char} (h : c ∈ (toString z).toList) :
    endsAtom c = false := by
  rcases Numeral.mem_toString h with rfl | h
  · decide
  · exact not_endsAtom_of_isDigit h

theorem isNumber_toString (z : Int) : isNumber (toString z).toList = true := by
  obtain ⟨d, ds, hd, hdigit⟩ := Numeral.toDigits_eq_cons z.natAbs
  rw [Numeral.toList_toString, hd]
  split
  · exact hdigit
  · have hne : d ≠ '-' := fun he => by
      rw [he] at hdigit
      cases hdigit
    simp [isNumber, hne, hdigit]

theorem number?_toString (i : Int64) : number? (toString i.toInt).toList = some (.int i) := by
  have hplain : ∀ c ∈ (toString i.toInt).toList, ∀ d : Char, d ≠ '-' → d.isDigit = false → c ≠ d :=
    fun c hc d hd hdigit he => by
      rcases Numeral.mem_toString hc with h | h
      · exact hd (he.symm.trans h)
      · rw [he, hdigit] at h
        cases h
  have hclean : (toString i.toInt).toList.filter (fun c => c != ',' && c != '_') =
      (toString i.toInt).toList := List.filter_eq_self.2 fun c hc => by
    have hcomma := hplain c hc ',' (by decide) (by decide)
    have hscore := hplain c hc '_' (by decide) (by decide)
    simp [hcomma, hscore]
  have hwhole : (toString i.toInt).toList.any (fun c => c = '.' || c = 'e' || c = 'E') = false :=
    List.any_eq_false.2 fun c hc => by
      have hpoint := hplain c hc '.' (by decide) (by decide)
      have hlower := hplain c hc 'e' (by decide) (by decide)
      have hupper := hplain c hc 'E' (by decide) (by decide)
      simp [hpoint, hlower, hupper]
  simp only [number?, hclean, hwhole, Bool.false_eq_true, if_false, Numeral.int64?_toList_toString,
    Option.map_some]

/-- **The text of an integer is read as that integer.** -/
theorem atom_int (i : Int64) : atom (toString i.toInt).toList = .ok (.atom (.int i)) := by
  have hall : ∀ c ∈ (toString i.toInt).toList, endsAtom c = false := fun c hc =>
    not_endsAtom_of_mem_toString hc
  simp only [atom, dropEnd_word_self hall, isNumber_toString, number?_toString, if_true]

/-! ## What is cut off -/

theorem dropEnd_cons {p : Char → Bool} {c : Char} (h : p c = false) (cs : List Char) :
    Text.dropEnd p (c :: cs) = c :: Text.dropEnd p cs := by
  have hc : ¬ p c = true := by simp [h]
  rw [Text.dropEnd, List.reverse_cons, List.dropWhile_append, Text.dropEnd]
  split
  · rename_i hempty
    rw [List.isEmpty_iff] at hempty
    rw [hempty, List.dropWhile_cons_of_neg hc]
    rfl
  · rw [List.reverse_append]
    rfl

theorem isNumber_dropEnd {c : Char} {cs : List Char} (h : isNumber (c :: cs) = true) :
    isNumber (Text.dropEnd (· = ',') (c :: cs.takeWhile (continues true))) = true := by
  have hcomma : ∀ d : Char, d.isDigit = true → decide (d = ',') = false := fun d hd => by
    simpa using ne_comma_of_not_endsAtom (not_endsAtom_of_isDigit hd)
  by_cases hc : c = '-'
  · subst hc
    cases cs with
    | nil => cases h
    | cons d ds =>
      have hd : d.isDigit = true := h
      have hkeep : continues true d = true := by simp [continues, not_endsAtom_of_isDigit hd]
      rw [List.takeWhile_cons_of_pos hkeep, dropEnd_cons (by decide), dropEnd_cons (hcomma d hd)]
      exact hd
  · have hd : c.isDigit = true := by simpa [isNumber, hc] using h
    rw [dropEnd_cons (hcomma c hd)]
    simp [isNumber, hc, hd]

theorem isNumber_of_atom {cs : List Char} {name : String}
    (h : atom cs = .ok (.atom (.symbol name))) :
    isNumber (Text.dropEnd (· = ',') cs) = false ∧
      name = String.ofList (Text.dropEnd (· = ',') cs) := by
  unfold atom at h
  dsimp only at h
  split at h
  · -- a number is no symbol
    split at h
    · rename_i a ha
      cases h
      unfold number? at ha
      dsimp only at ha
      split at ha <;> obtain ⟨_, _, he⟩ := Option.map_eq_some_iff.1 ha <;> cases he
    · cases h
  · rename_i hnumber
    cases h
    exact ⟨Bool.eq_false_iff.2 hnumber, rfl⟩

/-- **A symbol that was cut off is a name.** -/
theorem isName_of_cut {c : Char} {cs raw rest : List Char} {name : String}
    (hsep : isSeparator c = false) (h : cut c cs = .token (.atom (.symbol name)) raw rest) :
    isName name.toList = true := by
  have hc : endsAtom c = false := by
    simp only [isSeparator, Bool.or_eq_false_iff] at hsep
    unfold cut at h
    split at h
    · cases h
    split at h
    · cases h
    split at h
    · cases h
    split at h
    · split at h <;> cases h
    · simp_all [endsAtom]
  rw [cut_of_not_endsAtom hc] at h
  dsimp only at h
  split at h
  · rename_i kind hatom
    cases h
    obtain ⟨hnumber, rfl⟩ := isNumber_of_atom hatom
    have hfirst : isNumber (c :: cs) = false := Bool.eq_false_iff.2 fun hn => by
      rw [hn, isNumber_dropEnd hn] at hnumber
      cases hnumber
    have hall : ∀ d ∈ c :: cs.takeWhile (continues (isNumber (c :: cs))), endsAtom d = false := by
      intro d hd
      rcases List.mem_cons.1 hd with rfl | hd
      · exact hc
      · have hkeep := List.mem_takeWhile_imp hd
        simpa [continues, hfirst] using hkeep
    rw [dropEnd_word_self hall] at hnumber ⊢
    simp only [String.toList_ofList, isName, hnumber, Bool.and_eq_true, List.all_eq_true]
    exact ⟨⟨rfl, fun d hd => by simp [hall d hd]⟩, rfl⟩
  · cases h

end Lexeme

/-! ## Scanning -/

namespace Tokens

open Lexeme

theorem after_append (p : Position) (cs ds : List Char) :
    p.after (cs ++ ds) = (p.after cs).after ds := List.foldl_append

theorem scanFrom_nil (p : Position) : scanFrom p [] = .ok ⟨[], p⟩ := by rw [scanFrom]

theorem scanFrom_separators {gap : List Char} (h : ∀ c ∈ gap, isSeparator c = true) (p : Position)
    (text : List Char) : scanFrom p (gap ++ text) = scanFrom (p.after gap) text := by
  induction gap generalizing p with
  | nil => rfl
  | cons c gap ih =>
    rw [List.cons_append, scanFrom, if_pos (h c List.mem_cons_self),
      ih fun d hd => h d (List.mem_cons_of_mem c hd)]
    rfl

theorem scanFrom_cut {c : Char} {cs raw rest : List Char} {kind : TokenKind}
    (hsep : isSeparator c = false) (h : cut c cs = .token kind raw rest) (p : Position) :
    scanFrom p (c :: cs) = (scanFrom (p.after (c :: raw)) rest).map
      (cons ⟨kind, p, (p.after (c :: raw)).offset⟩) := by
  rw [scanFrom, if_neg (by simp [hsep])]
  split
  · rename_i kind' raw' rest' h'
    cases h.symm.trans h'
    rfl
  · rename_i h'
    cases h.symm.trans h'
  · rename_i h'
    cases h.symm.trans h'

/-- **A successful scan skips separators and cuts off tokens.** -/
theorem scan_induction {motive : Position → List Char → Tokens → Prop}
    (nil : ∀ p, motive p [] ⟨[], p⟩)
    (skip : ∀ p c cs ts, isSeparator c = true → motive (p.advance c) cs ts → motive p (c :: cs) ts)
    (token : ∀ p c cs kind raw rest ts, isSeparator c = false → cut c cs = .token kind raw rest →
      motive (p.after (c :: raw)) rest ts →
        motive p (c :: cs) (cons ⟨kind, p, (p.after (c :: raw)).offset⟩ ts))
    {p : Position} {cs : List Char} {ts : Tokens} (h : scanFrom p cs = .ok ts) :
    motive p cs ts := by
  fun_induction scanFrom p cs generalizing ts with
  | case1 p =>
    cases h
    exact nil p
  | case2 p c cs hsep ih => exact skip p c cs ts hsep (ih h)
  | case3 p c cs hsep kind raw rest hcut next =>
    rename_i ih
    cases hr : scanFrom next rest with
    | error e =>
      rw [hr] at h
      cases h
    | ok more =>
      rw [hr] at h
      cases h
      exact token p c cs kind raw rest more (Bool.eq_false_iff.2 hsep) hcut (ih hr)
  | case4 => cases h
  | case5 => cases h

end Tokens

end GraphQuery
