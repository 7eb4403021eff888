import GraphQuery.Proofs.Json.Scalar
/-!
# Cutting a JSON text into tokens

The text of a document is cut into the tokens of the document (`Json.scan?_text`): brackets,
separators, and one token for every scalar, whatever it holds.  Only a float can differ from what was
written, or be refused, so what is scanned is the document with its floats read back
(`Json.scanned?`).
-/

namespace GraphQuery

namespace Json

/-! ## Documents and their tokens -/

mutual

def tokens : Json → List Token
  | array [] => [.openArray, .closeArray]
  | array (j :: rest) => .openArray :: (j.tokens ++ moreElementTokens rest)
  | object [] => [.openObject, .closeObject]
  | object ((name, j) :: rest) =>
    .openObject :: .scalar (string name) :: .colon :: (j.tokens ++ moreMemberTokens rest)
  | j => [.scalar j]
termination_by structural j => j

def moreElementTokens : List Json → List Token
  | [] => [.closeArray]
  | j :: rest => .comma :: (j.tokens ++ moreElementTokens rest)
termination_by structural js => js

def moreMemberTokens : List (String × Json) → List Token
  | [] => [.closeObject]
  | (name, j) :: rest =>
    .comma :: .scalar (string name) :: .colon :: (j.tokens ++ moreMemberTokens rest)
termination_by structural ms => ms

end

mutual

def scanned? : Json → Option Json
  | float d => if d.isFinite then Token.number? (floatText d) else some null
  | array js => (elementsScanned? js).map array
  | object ms => (membersScanned? ms).map object
  | j => some j
termination_by structural j => j

def elementsScanned? : List Json → Option (List Json)
  | [] => some []
  | j :: rest => j.scanned?.bind fun k => (elementsScanned? rest).map (k :: ·)
termination_by structural js => js

def membersScanned? : List (String × Json) → Option (List (String × Json))
  | [] => some []
  | (name, j) :: rest => j.scanned?.bind fun k => (membersScanned? rest).map ((name, k) :: ·)
termination_by structural ms => ms

end

theorem elementsScanned?_eq_self {js : List Json} (h : ∀ j ∈ js, j.scanned? = some j) :
    elementsScanned? js = some js := by
  induction js with
  | nil => rfl
  | cons j rest ih =>
    obtain ⟨hj, hrest⟩ := List.forall_mem_cons.1 h
    rw [elementsScanned?, hj, ih hrest]
    rfl

theorem membersScanned?_eq_self {ms : List (String × Json)}
    (h : ∀ m ∈ ms, m.2.scanned? = some m.2) : membersScanned? ms = some ms := by
  induction ms with
  | nil => rfl
  | cons m rest ih =>
    obtain ⟨hm, hrest⟩ := List.forall_mem_cons.1 h
    rw [membersScanned?, hm, ih hrest]
    rfl

theorem names_membersScanned? {ms ks : List (String × Json)} (h : membersScanned? ms = some ks) :
    ks.map Prod.fst = ms.map Prod.fst := by
  induction ms generalizing ks with
  | nil =>
    cases h
    rfl
  | cons m rest ih =>
    obtain ⟨k, -, h⟩ := Option.bind_eq_some_iff.1 h
    obtain ⟨ks, hks, rfl⟩ := Option.map_eq_some_iff.1 h
    rw [List.map_cons, List.map_cons, ih hks]

/-! ## One token -/

namespace Token

theorem scan?_cons {c : Char} (h : isSpace c = false) (cs : List Char) :
    scan? (c :: cs) = (next? c cs).bind fun r => (scan? r.2).map (r.1 :: ·) := by
  rw [scan?, h]
  simp only [Bool.false_eq_true, if_false]
  split
  · rename_i hnext
    rw [hnext]
    rfl
  · rename_i hnext
    rw [hnext]
    rfl

theorem scan?_token {c : Char} {cs rest : List Char} {t : Token} (h : isSpace c = false)
    (hnext : next? c cs = some (t, rest)) : scan? (c :: cs) = (scan? rest).map (t :: ·) := by
  rw [scan?_cons h, hnext]
  rfl

def EndsNumber (text : List Char) : Prop := ∀ c more, text = c :: more → isNumeric c = false

theorem ne_of_isNumeric {c d : Char} (h : isNumeric c = true) (hd : isNumeric d = false) : c ≠ d :=
  fun he => by
    rw [he, hd] at h
    cases h

/-- **A number is cut off a text as a whole**, if it ends where the rest begins. -/
theorem scan?_number {cs rest : List Char} (hne : cs ≠ []) (hcs : ∀ c ∈ cs, isNumeric c = true)
    (hrest : EndsNumber rest) : scan? (cs ++ rest) =
      (number? cs).bind fun j => (scan? rest).map (.scalar j :: ·) := by
  obtain ⟨c, cs, rfl⟩ := List.exists_cons_of_ne_nil hne
  obtain ⟨hc, hcs⟩ := List.forall_mem_cons.1 hcs
  have hother : ∀ d, isNumeric d = false → c ≠ d := fun d hd => ne_of_isNumeric hc hd
  have hspace : isSpace c = false := by
    simp [isSpace, hother ' ' (by decide), hother '\n' (by decide), hother '\t' (by decide),
      hother '\r' (by decide)]
  have hscan := Text.takeWhile_append_stop hcs hrest
  rw [List.cons_append, scan?_cons hspace, next?]
  iterate 10 rw [if_neg (hother _ (by decide))]
  rw [hscan.1, hscan.2]
  cases number? (c :: cs) <;> rfl

theorem scan?_int (i : Int64) {rest : List Char} (hrest : EndsNumber rest) :
    scan? ((int i).text ++ rest) = (scan? rest).map (.scalar (int i) :: ·) := by
  have hne : (toString i.toInt).toList ≠ [] := fun he => by
    have hread := number?_toString i
    rw [he] at hread
    cases hread
  have hnumeric : ∀ c ∈ (toString i.toInt).toList, isNumeric c = true := fun c hc => by
    rcases Numeral.mem_toString hc with rfl | hc
    · decide
    · exact isNumeric_of_isDigit hc
  rw [text, scan?_number hne hnumeric hrest, number?_toString]
  rfl

theorem scan?_quote (s : String) (rest : List Char) :
    scan? (quote s ++ rest) = (scan? rest).map (.scalar (string s) :: ·) := by
  have hnext : next? '"' (s.toList.flatMap escape ++ '"' :: rest) =
      some (.scalar (string s), rest) := by
    have hother : ∀ c : Char, c ≠ '"' → ('"' : Char) ≠ c := fun _ h => h.symm
    rw [next?]
    iterate 6 rw [if_neg (hother _ (by decide))]
    rw [if_pos rfl, takeString_quote]
    simp only [Option.map_some, String.ofList_toList]
  have htext : quote s ++ rest = '"' :: (s.toList.flatMap escape ++ '"' :: rest) := by
    simp [quote]
  rw [htext, scan?_token (by decide) hnext]

theorem scan?_word {c : Char} {word : List Char} {j : Json} (h : isSpace c = false)
    (hnext : ∀ cs, next? c cs = (Text.strip? cs word).map fun rest => (.scalar j, rest))
    (rest : List Char) : scan? (c :: (word ++ rest)) = (scan? rest).map (.scalar j :: ·) := by
  have hword : Text.strip? (word ++ rest) word = some rest := Text.strip?_eq_some_iff.2 rfl
  refine scan?_token h ?_
  rw [hnext, hword]
  rfl

theorem scan?_null (rest : List Char) :
    scan? (null.text ++ rest) = (scan? rest).map (.scalar null :: ·) :=
  scan?_word (by decide) (fun _ => rfl) rest

theorem scan?_bool (b : Bool) (rest : List Char) :
    scan? ((bool b).text ++ rest) = (scan? rest).map (.scalar (bool b) :: ·) := by
  cases b with
  | true => exact scan?_word (by decide) (fun _ => rfl) rest
  | false => exact scan?_word (by decide) (fun _ => rfl) rest

theorem scan?_float (d : Double) {rest : List Char} (hrest : EndsNumber rest) :
    scan? ((float d).text ++ rest) =
      (float d).scanned?.bind fun k => (scan? rest).map (k.tokens ++ ·) := by
  rw [text, scanned?]
  by_cases hd : d.isFinite = true
  · have hfloat := isFractional_floatText hd
    rw [if_pos hd, scan?_number hfloat.ne_nil hfloat.numeric hrest]
    cases hread : number? (floatText d) with
    | none => rfl
    | some k =>
      obtain ⟨d', rfl⟩ := number?_floatText hd hread
      rfl
  · rw [floatText, if_neg hd, if_neg hd]
    exact scan?_null rest

theorem endsNumber_nil : EndsNumber [] := fun _ _ h => by cases h

theorem endsNumber_cons {c : Char} (h : isNumeric c = false) (cs : List Char) :
    EndsNumber (c :: cs) := fun d more he => by
  cases he
  exact h

end Token

open Json.Token

/-! ## Documents -/

theorem endsNumber_moreElements (js : List Json) (rest : List Char) :
    EndsNumber (moreElements js ++ rest) := by
  cases js <;> exact endsNumber_cons (by decide) _

theorem endsNumber_moreMembers (ms : List (String × Json)) (rest : List Char) :
    EndsNumber (moreMembers ms ++ rest) := by
  rcases ms with _ | ⟨⟨name, j⟩, ms⟩ <;> exact endsNumber_cons (by decide) _

mutual

/-- **The text of a document is cut into the tokens of what is read of it**, whatever follows. -/
theorem scan?_text : ∀ (j : Json) {rest : List Char}, EndsNumber rest →
    scan? (j.text ++ rest) = j.scanned?.bind fun k => (scan? rest).map (k.tokens ++ ·)
  | null, rest, _ => scan?_null rest
  | bool b, rest, _ => scan?_bool b rest
  | int i, _, h => scan?_int i h
  | float d, _, h => scan?_float d h
  | string s, rest, _ => scan?_quote s rest
  | array [], rest, _ => by
    have hstart : (array []).text ++ rest = '[' :: ']' :: rest := rfl
    rw [hstart, scan?_token (by decide) rfl, scan?_token (by decide) rfl]
    cases scan? rest <;> rfl
  | array (j :: js), rest, _ => by
    have hstart : (array (j :: js)).text ++ rest = '[' :: (j.text ++ (moreElements js ++ rest)) := by
      simp [text]
    rw [hstart, scan?_token (by decide) rfl, scan?_text j (endsNumber_moreElements js rest),
      scan?_moreElements js rest, scanned?, elementsScanned?]
    -- a float that cannot be read, in either part, or a bad rest leaves nothing on both sides
    cases j.scanned? <;> cases elementsScanned? js <;> cases scan? rest <;> simp [tokens]
  | object [], rest, _ => by
    have hstart : (object []).text ++ rest = '\x7b' :: '\x7d' :: rest := rfl
    rw [hstart, scan?_token (by decide) rfl, scan?_token (by decide) rfl]
    cases scan? rest <;> rfl
  | object ((name, j) :: ms), rest, _ => by
    have hstart : (object ((name, j) :: ms)).text ++ rest =
        '\x7b' :: (quote name ++ ':' :: (j.text ++ (moreMembers ms ++ rest))) := by
      simp [text]
    rw [hstart, scan?_token (by decide) rfl, scan?_quote, scan?_token (by decide) rfl,
      scan?_text j (endsNumber_moreMembers ms rest), scan?_moreMembers ms rest, scanned?,
      membersScanned?]
    cases j.scanned? <;> cases membersScanned? ms <;> cases scan? rest <;> simp [tokens]
termination_by structural j => j

theorem scan?_moreElements : ∀ (js : List Json) (rest : List Char),
    scan? (moreElements js ++ rest) =
      (elementsScanned? js).bind fun ks => (scan? rest).map (moreElementTokens ks ++ ·)
  | [], rest => scan?_token (by decide) rfl
  | j :: js, rest => by
    have hstart : moreElements (j :: js) ++ rest = ',' :: (j.text ++ (moreElements js ++ rest)) := by
      simp [moreElements]
    rw [hstart, scan?_token (by decide) rfl, scan?_text j (endsNumber_moreElements js rest),
      scan?_moreElements js rest, elementsScanned?]
    cases j.scanned? <;> cases elementsScanned? js <;> cases scan? rest <;>
      simp [moreElementTokens]
termination_by structural js => js

theorem scan?_moreMembers : ∀ (ms : List (String × Json)) (rest : List Char),
    scan? (moreMembers ms ++ rest) =
      (membersScanned? ms).bind fun ks => (scan? rest).map (moreMemberTokens ks ++ ·)
  | [], rest => scan?_token (by decide) rfl
  | (name, j) :: ms, rest => by
    have hstart : moreMembers ((name, j) :: ms) ++ rest =
        ',' :: (quote name ++ ':' :: (j.text ++ (moreMembers ms ++ rest))) := by
      simp [moreMembers]
    rw [hstart, scan?_token (by decide) rfl, scan?_quote, scan?_token (by decide) rfl,
      scan?_text j (endsNumber_moreMembers ms rest), scan?_moreMembers ms rest, membersScanned?]
    cases j.scanned? <;> cases membersScanned? ms <;> cases scan? rest <;> simp [moreMemberTokens]
termination_by structural ms => ms

end

end Json

end GraphQuery
