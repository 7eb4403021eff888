/-!
# Texts

What the readers need of texts, which they take as lists of characters: what follows a beginning,
whether one text occurs in another, blanks at the ends of a text, and its lines.
-/

namespace GraphQuery

/-- The code point ranges of the Unicode property `White_Space`, ends included. -/
def blankRanges : List (Nat × Nat) :=
  [(0x09, 0x0d), (0x20, 0x20), (0x85, 0x85), (0xa0, 0xa0), (0x1680, 0x1680), (0x2000, 0x200a),
   (0x2028, 0x2029), (0x202f, 0x202f), (0x205f, 0x205f), (0x3000, 0x3000)]

def isBlank (c : Char) : Bool :=
  blankRanges.any fun (low, high) => low ≤ c.toNat && c.toNat ≤ high

namespace Text

def dropEnd (p : Char → Bool) (cs : List Char) : List Char := (cs.reverse.dropWhile p).reverse

def trim (cs : List Char) : List Char := dropEnd isBlank (cs.dropWhile isBlank)

def strip? : List Char → List Char → Option (List Char)
  | cs, [] => some cs
  | [], _ :: _ => none
  | c :: cs, p :: ps => if c = p then strip? cs ps else none

theorem strip?_eq_some_iff {cs ps rest : List Char} :
    strip? cs ps = some rest ↔ cs = ps ++ rest := by
  induction ps generalizing cs with
  | nil => cases cs <;> simp [strip?]
  | cons b bs ih =>
    cases cs with
    | nil => simp [strip?]
    | cons a as =>
      by_cases h : a = b
      · simp [strip?, h, ih]
      · simp [strip?, h]

theorem strip?_length {cs ps rest : List Char} (h : strip? cs ps = some rest) :
    rest.length ≤ cs.length := by
  rw [strip?_eq_some_iff.1 h, List.length_append]
  exact Nat.le_add_left ..

theorem takeWhile_append_stop {p : Char → Bool} {word text : List Char}
    (hw : ∀ c ∈ word, p c = true) (ht : ∀ c more, text = c :: more → p c = false) :
    (word ++ text).takeWhile p = word ∧ (word ++ text).dropWhile p = text := by
  rw [List.takeWhile_append_of_pos hw, List.dropWhile_append_of_pos hw]
  cases text with
  | nil => exact ⟨List.append_nil word, rfl⟩
  | cons c more =>
    have hc : ¬ p c = true := by simp [ht c more rfl]
    rw [List.takeWhile_cons_of_neg hc, List.dropWhile_cons_of_neg hc, List.append_nil]
    exact ⟨rfl, rfl⟩

def occursIn (needle : List Char) : List Char → Bool
  | [] => needle.isEmpty
  | c :: cs => needle.isPrefixOf (c :: cs) || occursIn needle cs

/-- The lines of a text: each ends before a newline, and a carriage return before it is dropped. -/
def lines (cs : List Char) : List (List Char) :=
  go [] cs
where
  go (line : List Char) : List Char → List (List Char)
    | [] => if line.isEmpty then [] else [line.reverse]
    | '\n' :: rest =>
      let line := match line with
        | '\r' :: kept => kept
        | whole => whole
      line.reverse :: go [] rest
    | c :: rest => go (c :: line) rest

end Text

end GraphQuery
