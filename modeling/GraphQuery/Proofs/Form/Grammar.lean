import GraphQuery.Form.OfTokens
/-!
# The grammar of forms

The tokens of a form are an atom for an atom, a quote and the tokens of the form behind it, and the
tokens of the elements between parentheses.  A reader's state spells the tokens that it has taken
(`ReadState.spelled_run`), and a form's tokens are taken whatever is open around it
(`ReadState.run_tokens`).  So the reader accepts the tokens of forms and nothing else
(`Form.read_eq_ok_iff`).
-/

namespace GraphQuery

def Tokens.kinds (ts : Tokens) : List TokenKind := ts.list.map Token.kind

namespace Form

/-- **Forms are built from forms.** -/
theorem induction {motive : Form → Prop} (atom : ∀ a, motive (.atom a))
    (list : ∀ fs, (∀ f ∈ fs, motive f) → motive (.list fs))
    (quote : ∀ f, motive f → motive (.quote f)) : ∀ f, motive f :=
  @Form.rec motive (fun fs => ∀ f ∈ fs, motive f) atom list quote
    (fun _ h => absurd h List.not_mem_nil)
    (fun f rest hf hrest g hg => by
      rcases List.mem_cons.1 hg with rfl | hg
      · exact hf
      · exact hrest g hg)

mutual

def tokens : Form → List TokenKind
  | atom a => [.atom a]
  | list fs => .opening :: (tokensOfAll fs ++ [.closing])
  | quote f => .quote :: f.tokens
termination_by structural f => f

def tokensOfAll : List Form → List TokenKind
  | [] => []
  | f :: rest => f.tokens ++ tokensOfAll rest
termination_by structural fs => fs

end

theorem tokensOfAll_eq (fs : List Form) : tokensOfAll fs = fs.flatMap tokens := by
  induction fs with
  | nil => rfl
  | cons f rest ih => rw [tokensOfAll, ih, List.flatMap_cons]

theorem tokens_list (fs : List Form) :
    (list fs).tokens = .opening :: (fs.flatMap tokens ++ [.closing]) := by
  rw [tokens, tokensOfAll_eq]

end Form

/-! ## What has been taken -/

def OpenForm.spelled : OpenForm → List TokenKind
  | list _ before => .opening :: before.reverse.flatMap Form.tokens
  | quote => [.quote]

namespace Form

namespace ReadState

def spelled : ReadState → List TokenKind
  | reading stack => stack.reverse.flatMap OpenForm.spelled
  | finished f => f.tokens

theorem spelled_cons (o : OpenForm) (outer : List OpenForm) :
    (reading (o :: outer)).spelled = (reading outer).spelled ++ o.spelled := by
  simp [spelled]

theorem spelled_complete (f : Form) (stack : List OpenForm) :
    (complete f stack).spelled = (reading stack).spelled ++ f.tokens := by
  induction stack generalizing f with
  | nil => rfl
  | cons o outer ih =>
    cases o with
    | list opening before =>
      rw [complete, spelled_cons, spelled_cons, List.append_assoc]
      simp [OpenForm.spelled]
    | quote =>
      rw [complete, ih, spelled_cons, List.append_assoc]
      rfl

theorem spelled_step {s s' : ReadState} {t : Token} (h : s.step t = .ok s') :
    s'.spelled = s.spelled ++ [t.kind] := by
  obtain ⟨kind, span⟩ := t
  cases s with
  | finished f => cases h
  | reading stack =>
    cases kind with
    | opening =>
      cases h
      exact spelled_cons _ _
    | quote =>
      cases h
      exact spelled_cons _ _
    | atom a =>
      cases h
      exact spelled_complete _ _
    | closing =>
      cases stack with
      | nil => cases h
      | cons o outer =>
        cases o with
        | quote => cases h
        | list opening before =>
          cases h
          rw [spelled_complete, spelled_cons, tokens_list, List.append_assoc]
          rfl

/-- **A run spells what it has taken.** -/
theorem spelled_run : ∀ {ts : List Token} {s s' : ReadState}, s.run ts = .ok s' →
    s'.spelled = s.spelled ++ ts.map Token.kind
  | [], _, _, h => by
    cases h
    exact (List.append_nil _).symm
  | t :: ts, s, s', h => by
    rw [run] at h
    cases hs : s.step t with
    | error e =>
      rw [hs] at h
      cases h
    | ok v =>
      rw [hs] at h
      have hrest : s'.spelled = v.spelled ++ ts.map Token.kind := spelled_run h
      rw [hrest, spelled_step hs, List.append_assoc]
      rfl

/-! ## What is accepted -/

theorem run_cons {s s' : ReadState} {t : Token} (h : s.step t = .ok s') (ts : List Token) :
    s.run (t :: ts) = s'.run ts := by
  rw [run, h]
  rfl

def Takes (f : Form) : Prop := ∀ (stack : List OpenForm) (ts rest : List Token),
  ts.map Token.kind = f.tokens → (reading stack).run (ts ++ rest) = (complete f stack).run rest

theorem run_elements (opening : Span) (outer : List OpenForm) (rest : List Token) :
    ∀ {fs : List Form} (before : List Form) (ts : List Token), (∀ f ∈ fs, Takes f) →
      ts.map Token.kind = fs.flatMap tokens →
        (reading (.list opening before :: outer)).run (ts ++ rest) =
          (reading (.list opening (fs.reverse ++ before) :: outer)).run rest
  | [], before, ts, _, h => by
    cases List.map_eq_nil_iff.1 h
    rfl
  | f :: fs, before, ts, hf, h => by
    rw [List.flatMap_cons] at h
    obtain ⟨us, vs, rfl, hu, hv⟩ := List.map_eq_append_iff.1 h
    have hfirst := hf f List.mem_cons_self (.list opening before :: outer) us (vs ++ rest) hu
    have hrest := run_elements opening outer rest (f :: before) vs
      (fun g hg => hf g (List.mem_cons_of_mem f hg)) hv
    rw [List.append_assoc, hfirst, complete, hrest]
    simp

/-- **The tokens of every form are taken as that form.** -/
theorem run_tokens (f : Form) : Takes f := by
  induction f using Form.induction with
  | atom a =>
    intro stack ts rest h
    obtain ⟨⟨kind, span⟩, tail, rfl, hk, ht⟩ := List.map_eq_cons_iff.1 h
    cases List.map_eq_nil_iff.1 ht
    cases hk
    exact run_cons rfl rest
  | quote f ih =>
    intro stack ts rest h
    obtain ⟨⟨kind, span⟩, tail, rfl, hk, ht⟩ := List.map_eq_cons_iff.1 h
    cases hk
    have hopen : (reading stack).step ⟨.quote, span⟩ = .ok (reading (.quote :: stack)) := rfl
    rw [List.cons_append, run_cons hopen, ih (.quote :: stack) tail rest ht]
    rfl
  | list fs ih =>
    intro stack ts rest h
    rw [tokens_list] at h
    obtain ⟨⟨kind, span⟩, tail, rfl, hk, ht⟩ := List.map_eq_cons_iff.1 h
    cases hk
    obtain ⟨us, vs, rfl, hu, hv⟩ := List.map_eq_append_iff.1 ht
    obtain ⟨⟨kind', span'⟩, none, rfl, hk', hnone⟩ := List.map_eq_cons_iff.1 hv
    cases hk'
    cases List.map_eq_nil_iff.1 hnone
    have hopen : (reading stack).step ⟨.opening, span⟩ = .ok (reading (.list span [] :: stack)) :=
      rfl
    have hclose : (reading (.list span (fs.reverse ++ []) :: stack)).step ⟨.closing, span'⟩ =
        .ok (complete (.list fs) stack) := by
      rw [step, List.append_nil, List.reverse_reverse]
    rw [List.cons_append, run_cons hopen, List.append_assoc,
      run_elements span stack _ [] us ih hu]
    exact run_cons hclose rest

end ReadState

open ReadState

/-- **The reader accepts the tokens of a form as that form, and no others.** -/
theorem ofTokens_eq_ok_iff {ts : Tokens} {f : Form} :
    ofTokens ts = .ok f ↔ ts.kinds = f.tokens := by
  unfold ofTokens
  constructor
  · intro h
    cases hr : (reading []).run ts.list with
    | error e =>
      rw [hr] at h
      cases h
    | ok s =>
      rw [hr] at h
      cases s with
      | finished g =>
        cases h
        exact (spelled_run hr).symm
      | reading stack =>
        cases stack with
        | nil => cases h
        | cons o outer => cases o <;> cases h
  · intro h
    have hrun := run_tokens f [] ts.list [] h
    rw [List.append_nil] at hrun
    rw [hrun]
    rfl

theorem read_eq {text : String} {ts : Tokens} (h : Tokens.scan text = .ok ts) :
    read text = ofTokens ts := by
  rw [read, h]
  rfl

/--
**A text is read as a form just when its tokens are those of the form, and refused when they are
those of no form.**
-/
theorem read_eq_ok_iff {text : String} {ts : Tokens} (h : Tokens.scan text = .ok ts) :
    (∀ f : Form, read text = .ok f ↔ ts.kinds = f.tokens) ∧
      ((∀ f : Form, ts.kinds ≠ f.tokens) → ∃ e, read text = .error e) := by
  rw [read_eq h]
  refine ⟨fun f => ofTokens_eq_ok_iff, fun hnone => ?_⟩
  cases hr : ofTokens ts with
  | error e => exact ⟨e, rfl⟩
  | ok f => exact absurd (ofTokens_eq_ok_iff.1 hr) (hnone f)

/-- A list with a quoted element, and a comma that is no token. -/
theorem read_eq_ok_iff_list :
    let token : TokenKind → Nat → Token := fun kind k => ⟨kind, ⟨⟨k, 1, k + 1⟩, k + 1⟩⟩
    let ts : Tokens := ⟨[token .opening 0, token .quote 1, token (.atom (.symbol "a")) 2,
      token (.atom (.int 1)) 5, token .closing 6], ⟨7, 1, 8⟩⟩
    Tokens.scan "('a, 1)" = .ok ts ∧
      read "('a, 1)" = .ok (.list [.quote (.symbol "a"), .int 1]) := by
  intro token ts
  have hscan : Tokens.scan "('a, 1)" = .ok ts := by with_unfolding_all rfl
  exact ⟨hscan, ((read_eq_ok_iff hscan).1 (.list [.quote (.symbol "a"), .int 1])).2 rfl⟩

end Form

end GraphQuery
