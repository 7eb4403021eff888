import GraphQuery.Proofs.Form.Grammar
/-!
# Lists that are not closed

Which parenthesis closes which is a matter of the tokens alone: the one that opens is closed by the
first one behind it that closes with only pairs in between (`TokenKind.Closed`).  While a reader is
in a form, what it keeps open are the parentheses and quotes that its tokens leave open, each with
the span of its own token (`Form.run_eq_reading_iff`).  So a text that breaks off inside a list is
refused at the last parenthesis that opens and is not closed (`Form.read_unclosed_iff`).
-/

namespace GraphQuery

/-! ## Pairs of parentheses -/

namespace TokenKind

inductive Paired : List TokenKind → Prop
  | nil : Paired []
  | other {k : TokenKind} {ks : List TokenKind} (ho : k ≠ opening) (hc : k ≠ closing)
      (h : Paired ks) : Paired (k :: ks)
  | pair {inner ks : List TokenKind} (hi : Paired inner) (h : Paired ks) :
      Paired (opening :: (inner ++ closing :: ks))

/-- Whether a parenthesis that opens in front of some tokens is closed by one of them. -/
def Closed (after : List TokenKind) : Prop :=
  ∃ inner rest, after = inner ++ closing :: rest ∧ Paired inner

theorem Paired.append {ks ls : List TokenKind} (hk : Paired ks) (hl : Paired ls) :
    Paired (ks ++ ls) := by
  induction hk with
  | nil => exact hl
  | other ho hc h ih => exact .other ho hc ih
  | pair hi h ihi ih =>
    rw [List.cons_append, List.append_assoc]
    exact .pair hi ih

def depth? : Nat → List TokenKind → Option Nat
  | n, [] => some n
  | n, opening :: ks => depth? (n + 1) ks
  | 0, closing :: _ => none
  | n + 1, closing :: ks => depth? n ks
  | n, quote :: ks => depth? n ks
  | n, atom _ :: ks => depth? n ks

theorem Paired.depth?_append {ks : List TokenKind} (h : Paired ks) (n : Nat) (ls : List TokenKind) :
    depth? n (ks ++ ls) = depth? n ls := by
  induction h generalizing n ls with
  | nil => rfl
  | @other k ks ho hc h ih =>
    cases k with
    | opening => exact absurd rfl ho
    | closing => exact absurd rfl hc
    | quote => rw [List.cons_append, depth?, ih]
    | atom a => rw [List.cons_append, depth?, ih]
  | pair hi h ihi ih =>
    rw [List.cons_append, depth?, List.append_assoc, ihi, List.cons_append, depth?, ih]

theorem Paired.not_closed {ks : List TokenKind} (h : Paired ks) : ¬ Closed ks := by
  rintro ⟨inner, rest, rfl, hi⟩
  have hpairs : depth? 0 (inner ++ closing :: rest) = some 0 := by
    have hall := h.depth?_append 0 []
    rwa [List.append_nil] at hall
  rw [hi.depth?_append, depth?] at hpairs
  cases hpairs

theorem Paired.closed {ks before after : List TokenKind} (h : Paired ks)
    (he : ks = before ++ opening :: after) : Closed after := by
  induction h generalizing before after with
  | nil => exact absurd he (by simp)
  | other ho hc h ih =>
    cases before with
    | nil => exact absurd (List.cons.inj he).1 ho
    | cons b before => exact ih (List.cons.inj he).2
  | @pair inner ks hi h ihi ih =>
    cases before with
    | nil => exact ⟨inner, ks, (List.cons.inj he).2.symm, hi⟩
    | cons b before =>
      rcases List.append_eq_append_iff.1 (List.cons.inj he).2 with
        ⟨more, rfl, hmore⟩ | ⟨more, rfl, hmore⟩
      · -- it opens behind the pair, as the parenthesis that closes the pair does not open
        cases more with
        | nil => cases hmore
        | cons c more => exact ih (List.cons.inj hmore).2
      · -- it opens in the pair, or is what closes the pair
        cases more with
        | nil => cases hmore
        | cons c more =>
          obtain ⟨rfl, rfl⟩ := List.cons.inj hmore
          obtain ⟨within, rest, rfl, hw⟩ := ihi rfl
          exact ⟨within, rest ++ closing :: ks, by simp, hw⟩

end TokenKind

open TokenKind

/-- Whether a span is that of the last parenthesis that opens and is not closed. -/
def Tokens.LastOpen (ts : Tokens) (s : Span) : Prop :=
  ∃ before after, ts.list = before ++ ⟨.opening, s⟩ :: after ∧
    ¬ Closed (after.map Token.kind) ∧
    ∀ between t later, after = between ++ t :: later → t.kind = .opening →
      Closed (later.map Token.kind)

theorem Tokens.LastOpen.unique {ts : Tokens} {s s' : Span} (h : ts.LastOpen s)
    (h' : ts.LastOpen s') : s = s' := by
  obtain ⟨before, after, he, hnot, hall⟩ := h
  obtain ⟨before', after', he', hnot', hall'⟩ := h'
  rcases List.append_eq_append_iff.1 (he.symm.trans he') with ⟨more, -, hm⟩ | ⟨more, -, hm⟩
  · cases more with
    | nil => cases hm; rfl
    | cons t more => exact absurd (hall more _ after' (List.cons.inj hm).2 rfl) hnot'
  · cases more with
    | nil => cases hm; rfl
    | cons t more => exact absurd (hall' more _ after (List.cons.inj hm).2 rfl) hnot

namespace Form

theorem paired_flatMap {fs : List Form} (h : ∀ f ∈ fs, Paired f.tokens) :
    Paired (fs.flatMap tokens) := by
  induction fs with
  | nil => exact .nil
  | cons f rest ih =>
    obtain ⟨hf, hrest⟩ := List.forall_mem_cons.1 h
    exact hf.append (ih hrest)

theorem paired_tokens (f : Form) : Paired f.tokens := by
  induction f using Form.induction with
  | atom a => exact .other nofun nofun .nil
  | quote f ih => exact .other nofun nofun ih
  | list fs ih =>
    rw [tokens_list]
    exact .pair (paired_flatMap ih) .nil

/-! ## What is kept open -/

/-- Whether unfinished forms are what some tokens leave open, the innermost first. -/
inductive LeftOpen : List OpenForm → List Token → Prop
  | none : LeftOpen [] []
  | list {outer : List OpenForm} {before : List Form} {ts us : List Token} {s : Span}
      (h : LeftOpen outer ts) (hu : us.map Token.kind = before.reverse.flatMap tokens) :
      LeftOpen (.list s before :: outer) (ts ++ ⟨.opening, s⟩ :: us)
  | quote {outer : List OpenForm} {ts : List Token} {s : Span} (h : LeftOpen outer ts) :
      LeftOpen (.quote :: outer) (ts ++ [⟨.quote, s⟩])

open ReadState

theorem LeftOpen.complete {stack stack' : List OpenForm} {ts us : List Token} {f : Form}
    (h : LeftOpen stack ts) (hu : us.map Token.kind = f.tokens)
    (hc : ReadState.complete f stack = reading stack') : LeftOpen stack' (ts ++ us) := by
  induction h generalizing f us with
  | none => cases hc
  | @list outer before ts vs s h hv ih =>
    cases hc
    rw [List.append_assoc, List.cons_append]
    refine .list h ?_
    rw [List.map_append, hv, hu]
    simp
  | @quote outer ts s h ih =>
    rw [List.append_assoc]
    refine ih ?_ hc
    rw [List.singleton_append, List.map_cons, hu, tokens]

/-- **A token opens or completes what the tokens before it have left open.** -/
theorem LeftOpen.step {stack stack' : List OpenForm} {ts : List Token} {t : Token}
    (h : LeftOpen stack ts) (hs : (reading stack).step t = .ok (reading stack')) :
    LeftOpen stack' (ts ++ [t]) := by
  obtain ⟨kind, span⟩ := t
  cases kind with
  | opening => cases hs; exact .list h rfl
  | quote => cases hs; exact .quote h
  | atom a => exact h.complete rfl (Except.ok.inj hs)
  | closing =>
    cases h with
    | none => cases hs
    | quote h => cases hs
    | @list outer before ts us s h hu =>
      rw [List.append_assoc]
      refine h.complete ?_ (Except.ok.inj hs)
      rw [tokens_list, List.cons_append, List.map_cons, List.map_append, hu]
      rfl

theorem LeftOpen.run {stack stack' : List OpenForm} {ts us : List Token} (h : LeftOpen stack ts)
    (hr : (reading stack).run us = .ok (reading stack')) : LeftOpen stack' (ts ++ us) := by
  induction us generalizing stack ts with
  | nil =>
    cases hr
    rwa [List.append_nil]
  | cons t us ih =>
    cases hs : (reading stack).step t with
    | error e => rw [ReadState.run, hs] at hr; cases hr
    | ok next =>
      rw [run_cons hs] at hr
      cases next with
      | finished f => cases us <;> cases hr
      | reading between =>
        have hrest := ih (h.step hs) hr
        rwa [List.append_assoc] at hrest

theorem run_append (s : ReadState) (ts us : List Token) :
    s.run (ts ++ us) = (s.run ts).bind (·.run us) := by
  induction ts generalizing s with
  | nil => rfl
  | cons t ts ih =>
    cases hs : s.step t with
    | error e =>
      rw [List.cons_append, ReadState.run, ReadState.run, hs]
      rfl
    | ok s' => rw [List.cons_append, run_cons hs, run_cons hs, ih]

theorem LeftOpen.run_eq {stack : List OpenForm} {ts : List Token} (h : LeftOpen stack ts) :
    (reading []).run ts = .ok (reading stack) := by
  induction h with
  | none => rfl
  | @list outer before ts us s h hu ih =>
    have helements := run_elements s outer [] [] us (fun f _ => run_tokens f) hu
    rw [List.append_nil, List.append_nil, List.reverse_reverse] at helements
    have hopen : (reading outer).step ⟨.opening, s⟩ = .ok (reading (.list s [] :: outer)) := rfl
    rw [run_append, ih]
    exact (run_cons hopen us).trans helements
  | quote h ih =>
    rw [run_append, ih]
    rfl

/-- **A reader that is in a form keeps what its tokens leave open.** -/
theorem run_eq_reading_iff {stack : List OpenForm} {ts : List Token} :
    (reading []).run ts = .ok (reading stack) ↔ LeftOpen stack ts :=
  ⟨LeftOpen.none.run, LeftOpen.run_eq⟩

theorem LeftOpen.exists_form {stack : List OpenForm} {ts : List Token} (h : LeftOpen stack ts)
    (next : Form) : ∃ more f, ts.map Token.kind ++ (next.tokens ++ more) = tokens f := by
  induction h generalizing next with
  | none => exact ⟨[], next, List.append_nil _⟩
  | @list outer before ts us s h hu ih =>
    obtain ⟨more, f, he⟩ := ih (.list (before.reverse ++ [next]))
    refine ⟨.closing :: more, f, ?_⟩
    rw [← he, tokens_list, List.map_append, List.map_cons, hu]
    simp
  | quote h ih =>
    obtain ⟨more, f, he⟩ := ih (.quote next)
    refine ⟨more, f, ?_⟩
    rw [← he, tokens, List.map_append]
    simp

/-! ## Texts that break off -/

theorem LeftOpen.lastOpen {outer : List OpenForm} {before : List Form} {ts : Tokens} {s : Span}
    (h : LeftOpen (.list s before :: outer) ts.list) : ts.LastOpen s := by
  generalize hts : ts.list = all at h
  cases h with
  | @list _ _ opened us _ h hu =>
    have hpaired : Paired (us.map Token.kind) := hu ▸ paired_flatMap fun f _ => paired_tokens f
    refine ⟨opened, us, hts, hpaired.not_closed, ?_⟩
    rintro between ⟨kind, span⟩ later rfl rfl
    exact hpaired.closed (List.map_append ..)

theorem step_ne_unclosed {state : ReadState} {t : Token} {s : Span} :
    state.step t ≠ .error ⟨.unclosedList, s⟩ := by
  unfold ReadState.step
  split <;> simp

theorem run_ne_unclosed {ts : List Token} {state : ReadState} {s : Span} :
    state.run ts ≠ .error ⟨.unclosedList, s⟩ := by
  induction ts generalizing state with
  | nil => nofun
  | cons t ts ih =>
    cases hs : state.step t with
    | error e =>
      rw [ReadState.run, hs]
      rintro ⟨⟩
      exact step_ne_unclosed hs
    | ok next =>
      rw [run_cons hs]
      exact ih

theorem result_unclosed_iff {state : ReadState} {finish : Position} {s : Span} :
    state.result finish = .error ⟨.unclosedList, s⟩ ↔
      ∃ before outer, state = reading (.list s before :: outer) := by
  constructor
  · intro h
    unfold ReadState.result at h
    split at h
    · cases h
    · rename_i opening before outer
      cases h
      exact ⟨before, outer, rfl⟩
    · cases h
  · rintro ⟨before, outer, rfl⟩
    rfl

theorem ofTokens_unclosed_iff {ts : Tokens} {s : Span} :
    ofTokens ts = .error ⟨.unclosedList, s⟩ ↔
      ∃ before outer, LeftOpen (.list s before :: outer) ts.list := by
  simp only [← run_eq_reading_iff]
  unfold ofTokens
  cases hr : (reading []).run ts.list with
  | error e =>
    refine ⟨fun h => ?_, fun ⟨_, _, h⟩ => nomatch h⟩
    cases h
    exact absurd hr run_ne_unclosed
  | ok state =>
    refine result_unclosed_iff.trans ?_
    simp only [Except.ok.injEq]

theorem exists_of_step_closing {state next : ReadState} {s : Span}
    (h : state.step ⟨.closing, s⟩ = .ok next) :
    ∃ s' before outer, state = reading (.list s' before :: outer) := by
  cases state with
  | finished f => cases h
  | reading stack =>
    cases stack with
    | nil => cases h
    | cons o outer =>
      cases o with
      | quote => cases h
      | list s' before => exact ⟨s', before, outer, rfl⟩

/--
**An unterminated list is reported where it opens**: at the last parenthesis of the text that opens
and is not closed.  This is what is reported just when the text breaks off where a form could go on
with a closing parenthesis.
-/
theorem read_unclosed_iff {text : String} {ts : Tokens} (h : Tokens.scan text = .ok ts) (s : Span) :
    read text = .error ⟨.unclosedList, s⟩ ↔
      ts.LastOpen s ∧ ∃ more f, ts.kinds ++ .closing :: more = tokens f := by
  rw [read_eq h, ofTokens_unclosed_iff]
  constructor
  · rintro ⟨before, outer, hopen⟩
    refine ⟨hopen.lastOpen, ?_⟩
    generalize hts : ts.list = all at hopen
    cases hopen with
    | @list _ _ opened us _ hopen hu =>
      obtain ⟨more, f, he⟩ := hopen.exists_form (.list before.reverse)
      refine ⟨more, f, ?_⟩
      rw [← he, tokens_list, Tokens.kinds, hts, List.map_append, List.map_cons, hu]
      simp
  · rintro ⟨hlast, more, f, he⟩
    have hrun := run_tokens f [] (ts.list ++ (.closing :: more).map (⟨·, s⟩)) []
      (by rw [← he]; simp [Tokens.kinds, Function.comp_def])
    rw [List.append_nil, run_append] at hrun
    cases hr : (reading []).run ts.list with
    | error e => rw [hr] at hrun; cases hrun
    | ok state =>
      rw [hr] at hrun
      cases hs : state.step ⟨.closing, s⟩ with
      | error e => simp [Except.bind, ReadState.run, hs] at hrun
      | ok next =>
        obtain ⟨s', before, outer, rfl⟩ := exists_of_step_closing hs
        have hopen := run_eq_reading_iff.1 hr
        cases hlast.unique hopen.lastOpen
        exact ⟨before, outer, hopen⟩

/-- The outer list and the quoted one are open; the lists in them are closed. -/
theorem read_unclosed_iff_quoted :
    let token : TokenKind → Nat → Nat → Nat → Token := fun kind k line column =>
      ⟨kind, ⟨⟨k, line, column⟩, k + 1⟩⟩
    let ts : Tokens := ⟨[token .opening 0 1 1, token (.atom (.symbol "a")) 1 1 2,
      token .opening 4 2 2, token (.atom (.symbol "b")) 5 2 3, token .closing 6 2 4,
      token .quote 8 2 6, token .opening 9 2 7, token .opening 10 2 8,
      token (.atom (.symbol "c")) 11 2 9, token .closing 12 2 10], ⟨13, 2, 11⟩⟩
    let s : Span := ⟨⟨9, 2, 7⟩, 10⟩
    Tokens.scan "(a\n (b) '((c)" = .ok ts ∧ read "(a\n (b) '((c)" = .error ⟨.unclosedList, s⟩ ∧
      ts.LastOpen s ∧ ∃ more f, ts.kinds ++ .closing :: more = tokens f := by
  intro token ts s
  have hscan : Tokens.scan "(a\n (b) '((c)" = .ok ts := by with_unfolding_all rfl
  have hread : read "(a\n (b) '((c)" = .error ⟨.unclosedList, s⟩ := by
    rw [read_eq hscan]
    rfl
  exact ⟨hscan, hread, (read_unclosed_iff hscan s).1 hread⟩

end Form

end GraphQuery
