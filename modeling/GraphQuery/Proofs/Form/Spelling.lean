import GraphQuery.Proofs.Form.Grammar
import GraphQuery.Proofs.Form.Lexeme
/-!
# Spelling a form

The tokens of a form can be written with any separators between them, as long as there is a blank
wherever two of them would run together (`Spelled`).  Such a text is cut into these tokens again
(`Tokens.scanFrom_spelled`), and the text of a form is one of them (`Form.spelled_render`), so
reading undoes writing (`Form.read_spelled`).  Nothing is asked of strings and integers; a symbol
has to be a name, which every symbol that was read is.
-/

namespace GraphQuery

open Lexeme

/-- Whether an atom is read back from its text: a symbol has to be a name. -/
def Atom.isReadable : Atom → Bool
  | symbol name => isName name.toList
  | string _ => true
  | int _ => true
  | float _ => false

def TokenKind.text : TokenKind → List Char
  | opening => ['(']
  | closing => [')']
  | quote => ['\'']
  | atom a => a.render.toList

def Readable (ks : List TokenKind) : Prop := ∀ a, TokenKind.atom a ∈ ks → a.isReadable = true

/-! ## Spellings -/

/-- Whether a token may follow another one, or begin a text, with no blank in front of it. -/
def mayTouch : Option TokenKind → TokenKind → Bool
  | none, _ => true
  | some .opening, _ => true
  | some .quote, _ => true
  | some _, .closing => true
  | some _, _ => false

/-- What can stand in front of a token: separators, a blank among them unless it may touch. -/
def Gap (before : Option TokenKind) (k : TokenKind) (gap : List Char) : Prop :=
  (∀ c ∈ gap, isSeparator c = true) ∧ (mayTouch before k = true ∨ ∃ c ∈ gap, isBlank c = true)

inductive Spelled : Option TokenKind → List TokenKind → List Char → Prop
  | nil {before : Option TokenKind} {gap : List Char} (h : ∀ c ∈ gap, isSeparator c = true) :
      Spelled before [] gap
  | cons {before : Option TokenKind} {k : TokenKind} {ks : List TokenKind} {gap text : List Char}
      (hg : Gap before k gap) (h : Spelled (some k) ks text) :
      Spelled before (k :: ks) (gap ++ (k.text ++ text))

theorem ends_append {gap text : List Char} (hg : ∀ c ∈ gap, isSeparator c = true)
    (h : (∃ c ∈ gap, isBlank c = true) ∨
      ∀ c more, text = c :: more → endsAtom c = true ∧ c ≠ ',') : Ends (gap ++ text) := by
  induction gap with
  | nil =>
    refine ⟨[], text, rfl, by simp, ?_⟩
    rcases h with ⟨c, hc, -⟩ | h
    · cases hc
    · exact h
  | cons d gap ih =>
    have hd := hg d List.mem_cons_self
    have hgap : ∀ c ∈ gap, isSeparator c = true := fun c hc => hg c (List.mem_cons_of_mem d hc)
    by_cases hcomma : d = ','
    · subst hcomma
      have hrest : Ends (gap ++ text) := ih hgap (by
        rcases h with ⟨c, hc, hblank⟩ | h
        · rcases List.mem_cons.1 hc with rfl | hc
          · cases hblank
          · exact .inl ⟨c, hc, hblank⟩
        · exact .inr h)
      obtain ⟨commas, rest, he, hcommas, hstop⟩ := hrest
      refine ⟨',' :: commas, rest, by rw [List.cons_append, he]; rfl, fun c hc => ?_, hstop⟩
      rcases List.mem_cons.1 hc with rfl | hc
      · rfl
      · exact hcommas c hc
    · refine ⟨[], d :: (gap ++ text), rfl, by simp, fun c more he => ?_⟩
      obtain ⟨rfl, -⟩ := List.cons.inj he
      exact ⟨endsAtom_of_isSeparator hd, hcomma⟩

/-- **An atom ends where the spelling of what follows it begins.** -/
theorem Spelled.ends {a : Atom} {ks : List TokenKind} {text : List Char}
    (h : Spelled (some (.atom a)) ks text) : Ends text := by
  cases h with
  | nil hg =>
    rw [← List.append_nil text]
    exact ends_append hg (.inr fun c more he => by cases he)
  | @cons _ k _ gap _ hg h =>
    obtain ⟨hsep, htouch | hblank⟩ := hg
    · have hk : k = .closing := by
        cases k <;> first | rfl | cases htouch
      subst hk
      refine ends_append hsep (.inr fun c more he => ?_)
      obtain ⟨rfl, -⟩ := List.cons.inj he
      exact ⟨by decide, by decide⟩
    · exact ends_append hsep (.inl hblank)

/-! ## Scanning -/

namespace Tokens

theorem scanFrom_cut_commas {c : Char} {cs commas rest : List Char} {kind : TokenKind}
    (hsep : isSeparator c = false) (hcommas : ∀ d ∈ commas, d = ',')
    (h : cut c (cs ++ (commas ++ rest)) = .token kind (cs ++ commas) rest) (p : Position) :
    ∃ stop, scanFrom p (c :: (cs ++ (commas ++ rest))) =
      (scanFrom (p.after (c :: cs)) (commas ++ rest)).map (cons ⟨kind, p, stop⟩) := by
  have hgap : ∀ d ∈ commas, isSeparator d = true := fun d hd => by
    rw [hcommas d hd]
    decide
  have hplace : p.after (c :: (cs ++ commas)) = (p.after (c :: cs)).after commas :=
    after_append p (c :: cs) commas
  rw [scanFrom_cut hsep h, scanFrom_separators hgap, hplace]
  exact ⟨_, rfl⟩

theorem isSeparator_of_not_endsAtom {c : Char} (h : endsAtom c = false) : isSeparator c = false :=
  Bool.eq_false_iff.2 fun hs => by
    rw [endsAtom_of_isSeparator hs] at h
    cases h

theorem scanFrom_word {word text : List Char} {a : Atom} (hne : word ≠ [])
    (hw : ∀ d ∈ word, endsAtom d = false) (ht : Ends text) (ha : Lexeme.atom word = .ok (.atom a))
    (p : Position) : ∃ stop, scanFrom p (word ++ text) =
      (scanFrom (p.after word) text).map (cons ⟨.atom a, p, stop⟩) := by
  obtain ⟨c, cs, rfl⟩ := List.exists_cons_of_ne_nil hne
  obtain ⟨commas, rest, rfl, hcommas, hcut⟩ := cut_word hw ht ha
  have hsep := isSeparator_of_not_endsAtom (hw c List.mem_cons_self)
  exact scanFrom_cut_commas hsep hcommas hcut p

/-- **A token is scanned first, whatever follows, if it ends there.** -/
theorem scanFrom_token {k : TokenKind} {text : List Char}
    (hk : ∀ a, k = .atom a → a.isReadable = true) (ht : ∀ a, k = .atom a → Ends text)
    (p : Position) : ∃ stop, scanFrom p (k.text ++ text) =
      (scanFrom (p.after k.text) text).map (cons ⟨k, p, stop⟩) := by
  cases k with
  | opening => exact ⟨_, scanFrom_cut (by decide) rfl p⟩
  | closing => exact ⟨_, scanFrom_cut (by decide) rfl p⟩
  | quote => exact ⟨_, scanFrom_cut (by decide) rfl p⟩
  | atom a =>
    have ha := hk a rfl
    have hends := ht a rfl
    cases a with
    | symbol name =>
      have hname : isName name.toList = true := ha
      have hatom := atom_name hname
      rw [String.ofList_toList] at hatom
      simp only [isName, Bool.and_eq_true, Bool.not_eq_true', List.all_eq_true] at hname
      have hne : name.toList ≠ [] := fun he => by
        rw [he] at hname
        cases hname.1.1
      exact scanFrom_word hne hname.1.2 hends hatom p
    | string s =>
      have htext : (TokenKind.atom (.string s)).text ++ text =
          '"' :: (s.toList.flatMap Atom.escape ++ '"' :: text) := by
        simp [TokenKind.text, Atom.render]
      have hraw : (TokenKind.atom (.string s)).text =
          '"' :: (s.toList.flatMap Atom.escape ++ ['"']) := by
        simp [TokenKind.text, Atom.render]
      rw [htext, hraw]
      exact ⟨_, scanFrom_cut (by decide) (cut_string s text) p⟩
    | int i =>
      have hne : (toString i.toInt).toList ≠ [] := fun he => by
        have hnumber := isNumber_toString i.toInt
        rw [he] at hnumber
        cases hnumber
      exact scanFrom_word hne (fun c hc => not_endsAtom_of_mem_toString hc) hends (atom_int i) p
    | float d => cases ha

/-- **A spelling of tokens is cut into these tokens.** -/
theorem scanFrom_spelled {before : Option TokenKind} {ks : List TokenKind} {text : List Char}
    (h : Spelled before ks text) (hr : Readable ks) (p : Position) :
    ∃ ts, scanFrom p text = .ok ts ∧ ts.kinds = ks := by
  induction h generalizing p with
  | @nil before gap hg =>
    have hscan := scanFrom_separators hg p []
    rw [List.append_nil, scanFrom_nil] at hscan
    exact ⟨_, hscan, rfl⟩
  | @cons before k ks gap text hg h ih =>
    have hk : ∀ a, k = .atom a → a.isReadable = true := fun a he =>
      hr a (he ▸ List.mem_cons_self)
    have hends : ∀ a, k = .atom a → Ends text := fun a he => by
      subst he
      exact h.ends
    obtain ⟨stop, hscan⟩ := scanFrom_token hk hends (p.after gap)
    obtain ⟨ts, hts, hkinds⟩ := ih (fun a ha => hr a (List.mem_cons_of_mem k ha))
      ((p.after gap).after k.text)
    refine ⟨cons ⟨k, p.after gap, stop⟩ ts, ?_, ?_⟩
    · rw [scanFrom_separators hg.1, hscan, hts]
      rfl
    · show k :: ts.kinds = k :: ks
      rw [hkinds]

/-- **Every symbol of a text is a name.** -/
theorem isName_of_scanFrom {p : Position} {cs : List Char} {ts : Tokens}
    (h : scanFrom p cs = .ok ts) :
    ∀ name, .atom (.symbol name) ∈ ts.kinds → isName name.toList = true := by
  refine scan_induction
    (motive := fun _ _ ts => ∀ name : String,
      TokenKind.atom (.symbol name) ∈ ts.kinds → isName name.toList = true)
    (fun _ _ hm => absurd hm List.not_mem_nil) (fun _ _ _ _ _ ih => ih) ?_ h
  intro p c cs kind raw rest ts hsep hcut ih name hm
  rcases List.mem_cons.1 hm with he | hm
  · dsimp only at he
    subst he
    exact isName_of_cut hsep hcut
  · exact ih name hm

theorem readable_of_scanFrom {p : Position} {cs : List Char} {ts : Tokens}
    (h : scanFrom p cs = .ok ts) (hf : ∀ d, TokenKind.atom (.float d) ∉ ts.kinds) :
    Readable ts.kinds := by
  intro a ha
  cases a with
  | symbol name => exact isName_of_scanFrom h name ha
  | string s => rfl
  | int i => rfl
  | float d => exact absurd ha (hf d)

end Tokens

/-! ## The text of a form -/

namespace Form

theorem toList_render_list (fs : List Form) :
    (list fs).render.toList = '(' :: ((renderAll fs).toList ++ [')']) := by
  rw [render, String.toList_append, String.toList_append]
  rfl

theorem toList_render_quote (f : Form) : f.quote.render.toList = '\'' :: f.render.toList := by
  rw [render, String.toList_append]
  rfl

def Spells (f : Form) : Prop := ∀ {before : Option TokenKind} {ks : List TokenKind}
  {gap text : List Char}, (∀ k, Gap before k gap) → (∀ k, Spelled (some k) ks text) →
    Spelled before (f.tokens ++ ks) (gap ++ (f.render.toList ++ text))

theorem gap_nil {before : Option TokenKind} (h : ∀ k, mayTouch before k = true) (k : TokenKind) :
    Gap before k [] := ⟨by simp, .inl (h k)⟩

theorem gap_closing (k : TokenKind) : Gap (some k) .closing [] :=
  ⟨by simp, .inl (by cases k <;> rfl)⟩

theorem gap_blank (before : Option TokenKind) (k : TokenKind) : Gap before k [' '] :=
  ⟨List.all_eq_true.1 rfl, .inr (List.any_eq_true.1 rfl)⟩

theorem spelled_renderAll {ks : List TokenKind} {text : List Char}
    (ht : ∀ k, Spelled (some k) ks text) : ∀ {fs : List Form} {before : Option TokenKind}
    {gap : List Char}, (∀ f ∈ fs, f.Spells) → (∀ k, Gap before k gap) →
      Spelled before (fs.flatMap tokens ++ .closing :: ks)
        (gap ++ ((renderAll fs).toList ++ ')' :: text))
  | [], before, gap, _, hg => .cons (hg .closing) (ht .closing)
  | [f], before, gap, hf, hg => by
    have hclose : ∀ k, Spelled (some k) (.closing :: ks) ([] ++ ([')'] ++ text)) := fun k =>
      .cons (gap_closing k) (ht .closing)
    rw [List.flatMap_singleton, renderAll]
    exact hf f (List.mem_singleton_self f) hg hclose
  | f :: g :: rest, before, gap, hf, hg => by
    have hrest : ∀ k, Spelled (some k) ((g :: rest).flatMap tokens ++ .closing :: ks)
        ([' '] ++ ((renderAll (g :: rest)).toList ++ ')' :: text)) := fun k =>
      spelled_renderAll ht (fun f' hf' => hf f' (List.mem_cons_of_mem f hf')) (gap_blank _)
    have hfirst := hf f List.mem_cons_self hg hrest
    rw [List.flatMap_cons, renderAll, String.toList_append, String.toList_append]
    simpa using hfirst

/-- **The text of a form spells its tokens.** -/
theorem spelled_render (f : Form) : f.Spells := by
  induction f using Form.induction with
  | atom a =>
    intro before ks gap text hg ht
    exact .cons (hg (.atom a)) (ht (.atom a))
  | quote f ih =>
    intro before ks gap text hg ht
    have hf : Spelled (some .quote) (f.tokens ++ ks) ([] ++ (f.render.toList ++ text)) :=
      ih (gap_nil fun _ => rfl) ht
    rw [toList_render_quote]
    exact .cons (hg .quote) hf
  | list fs ih =>
    intro before ks gap text hg ht
    have hfs : Spelled (some .opening) (fs.flatMap tokens ++ .closing :: ks)
        ([] ++ ((renderAll fs).toList ++ ')' :: text)) :=
      spelled_renderAll ht ih (gap_nil fun _ => rfl)
    have hcons := Spelled.cons (hg .opening) hfs
    rw [toList_render_list, tokens_list]
    simpa [TokenKind.text] using hcons

theorem read_of_spelled {f : Form} {text : String} (hr : Readable f.tokens)
    (h : Spelled none f.tokens text.toList) : read text = .ok f := by
  obtain ⟨ts, hscan, hkinds⟩ := Tokens.scanFrom_spelled h hr {}
  rw [read_eq hscan, ofTokens_eq_ok_iff]
  exact hkinds

theorem read_render {f : Form} (hr : Readable f.tokens) : read f.render = .ok f := by
  have hspelled : Spelled none (f.tokens ++ []) ([] ++ (f.render.toList ++ [])) :=
    spelled_render f (gap_nil fun _ => rfl) fun k => .nil (by simp)
  rw [List.append_nil, List.append_nil, List.nil_append] at hspelled
  exact read_of_spelled hr hspelled

/--
**A form is read from every spelling of its tokens, if its symbols are names and none of its atoms
is a float**; its own text is one.  What was read from a text without floats is such a form.
-/
theorem read_spelled :
    (∀ (f : Form) (text : String), Readable f.tokens → Spelled none f.tokens text.toList →
      read text = .ok f) ∧
    (∀ f : Form, Readable f.tokens → read f.render = .ok f) ∧
    ∀ (text : String) (ts : Tokens) (f : Form), Tokens.scan text = .ok ts →
      (∀ d, TokenKind.atom (.float d) ∉ ts.kinds) → read text = .ok f → read f.render = .ok f := by
  refine ⟨fun f text hr h => read_of_spelled hr h, fun f hr => read_render hr, ?_⟩
  intro text ts f hscan hfloat hread
  rw [read_eq hscan, ofTokens_eq_ok_iff] at hread
  have hr := Tokens.readable_of_scanFrom hscan hfloat
  rw [hread] at hr
  exact read_render hr

/-- A quote right before a number, and commas in three places of which one is behind the number. -/
theorem read_spelled_commas :
    let f : Form := .list [.symbol "a", .quote (.int 5)]
    let text := ", (a ,'5,, )"
    Readable f.tokens ∧ Spelled none f.tokens text.toList ∧ read text = .ok f := by
  intro f text
  have hr : Readable f.tokens := by
    intro a ha
    simp [f, tokens, tokensOfAll] at ha
    rcases ha with rfl | rfl <;> decide
  have htext : text.toList = [',', ' '] ++ (TokenKind.opening.text ++ ([] ++
      ((TokenKind.atom (.symbol "a")).text ++ ([' ', ','] ++ (TokenKind.quote.text ++ ([] ++
      ((TokenKind.atom (.int 5)).text ++ ([',', ',', ' '] ++
      (TokenKind.closing.text ++ []))))))))) := by
    decide
  have hgap : ∀ {before : Option TokenKind} {k : TokenKind} {gap : List Char},
      gap.all isSeparator = true → (mayTouch before k || gap.any isBlank) = true →
        Gap before k gap := fun hall htouch =>
    ⟨List.all_eq_true.1 hall, (Bool.or_eq_true_iff.1 htouch).imp_right List.any_eq_true.1⟩
  have hs : Spelled none f.tokens text.toList := by
    rw [htext]
    exact .cons (hgap rfl rfl) (.cons (hgap rfl rfl) (.cons (hgap rfl rfl)
      (.cons (hgap rfl rfl) (.cons (hgap rfl rfl) (.nil (List.all_eq_true.1 rfl))))))
  exact ⟨hr, hs, read_spelled.1 f text hr hs⟩

end Form

end GraphQuery
