import Mathlib.Data.List.Chain
import NetDesc.Json.Token

namespace NetDesc

namespace Json

/-- One or more digits. -/
def Digits (chars : List Char) : Prop :=
  chars ≠ [] ∧ ∀ c ∈ chars, c.isDigit = true

namespace Numeral

/-- Digits before the point. None but a zero alone starts with a zero. -/
structure WholeSpelled (chars : List Char) : Prop where
  digits : Digits chars
  zero : chars.head? = some '0' → chars = ['0']

/-- The part of a number from the point up to the exponent. -/
inductive FractionSpelled : Option (List Nat) → List Char → Prop
  | none : FractionSpelled none []
  | some {digits : List Char} (h : Digits digits) :
    FractionSpelled (some (Token.digitsOf digits)) ('.' :: digits)

/-- The part of a number from the mark of its exponent on. -/
inductive ExponentSpelled : Option Int → List Char → Prop
  | none : ExponentSpelled none []
  | unsigned {mark : Char} {digits : List Char} (hmark : mark = 'e' ∨ mark = 'E')
      (h : Digits digits) :
    ExponentSpelled (some (Nat.ofDigitChars 10 digits 0 : Nat)) (mark :: digits)
  | plus {mark : Char} {digits : List Char} (hmark : mark = 'e' ∨ mark = 'E')
      (h : Digits digits) :
    ExponentSpelled (some (Nat.ofDigitChars 10 digits 0 : Nat)) (mark :: '+' :: digits)
  | minus {mark : Char} {digits : List Char} (hmark : mark = 'e' ∨ mark = 'E')
      (h : Digits digits) :
    ExponentSpelled (some (-(Nat.ofDigitChars 10 digits 0 : Nat))) (mark :: '-' :: digits)

/-- A number, from its sign to its exponent. -/
inductive Spelled : Numeral → List Char → Prop
  | mk (negative : Bool) {whole afterPoint afterMark : List Char} {fraction : Option (List Nat)}
      {exponent : Option Int} (hwhole : WholeSpelled whole)
      (hfraction : FractionSpelled fraction afterPoint)
      (hexponent : ExponentSpelled exponent afterMark) :
    Spelled { negative, whole := Token.digitsOf whole, fraction, exponent }
      ((if negative then ['-'] else []) ++ (whole ++ (afterPoint ++ afterMark)))

end Numeral

namespace Token

/-- What the characters between two quotes add to the content of a string. -/
inductive Content.Spelled : Content → List Char → Content → Prop
  | done (content : Content) : Spelled content [] content
  | plain {content final : Content} {c : Char} {chars : List Char} (hc : 0x20 ≤ c.toNat)
      (hquote : c ≠ '"') (hslash : c ≠ '\\') (h : Spelled (content.addChar c) chars final) :
    Spelled content (c :: chars) final
  | escape {content final : Content} {letter c : Char} {chars : List Char}
      (hc : escaped? letter = some c) (h : Spelled (content.addChar c) chars final) :
    Spelled content ('\\' :: letter :: chars) final
  | unit {content final : Content} {a b c d : Char} {unit : Nat} {chars : List Char}
      (hunit : hexUnit? a b c d = some unit) (h : Spelled (content.addUnit unit) chars final) :
    Spelled content ('\\' :: 'u' :: a :: b :: c :: d :: chars) final

/-- How a token may be written. -/
inductive Spelled : Token → List Char → Prop
  | openBrace : Spelled openBrace ['{']
  | closeBrace : Spelled closeBrace ['}']
  | openBracket : Spelled openBracket ['[']
  | closeBracket : Spelled closeBracket [']']
  | comma : Spelled comma [',']
  | colon : Spelled colon [':']
  | null : Spelled null ['n', 'u', 'l', 'l']
  | yes : Spelled (truth true) ['t', 'r', 'u', 'e']
  | no : Spelled (truth false) ['f', 'a', 'l', 's', 'e']
  | number {n : Numeral} {chars : List Char} (h : n.Spelled chars) : Spelled (number n) chars
  | text {content : Content} {chars : List Char}
      (h : Content.Spelled (.ok ([], none)) chars content) :
    Spelled (text content.close) ('"' :: (chars ++ ['"']))

/-- The characters are these tokens, each as it may be written, with blanks anywhere between. -/
inductive Spaced : List Token → List Char → Prop
  | nil {blanks : List Char} (hblanks : ∀ c ∈ blanks, isBlank c = true) : Spaced [] blanks
  | cons {t : Token} {tokens : List Token} {blanks spelling chars : List Char}
      (hblanks : ∀ c ∈ blanks, isBlank c = true) (ht : t.Spelled spelling)
      (h : Spaced tokens chars) : Spaced (t :: tokens) (blanks ++ (spelling ++ chars))

/-- The tokens that stand between values or after the last one. -/
def IsSeparator : Token → Prop
  | comma | closeBracket | closeBrace => True
  | _ => False

def IsNumber : Token → Prop
  | number _ => True
  | _ => False

/-- Every number is followed by a separator, if anything follows it. -/
def Separated (tokens : List Token) : Prop :=
  tokens.IsChain fun t next => next.IsSeparator ∨ ¬ t.IsNumber

theorem Content.Spelled.append {content middle final : Content} {chars more : List Char}
    (h : content.Spelled chars middle) (hmore : middle.Spelled more final) :
    content.Spelled (chars ++ more) final := by
  induction h with
  | done content => exact hmore
  | plain hc hquote hslash _ ih => exact .plain hc hquote hslash (ih hmore)
  | escape hc _ ih => exact .escape hc (ih hmore)
  | unit hunit _ ih => exact .unit hunit (ih hmore)

section Spaced

variable {tokens more : List Token} {chars rest blanks : List Char}

theorem Spaced.after_blanks (h : Spaced tokens chars) (hblanks : ∀ c ∈ blanks, isBlank c = true) :
    Spaced tokens (blanks ++ chars) := by
  have happend {blanks' : List Char} (h : ∀ c ∈ blanks', isBlank c = true) :
      ∀ c ∈ blanks ++ blanks', isBlank c = true := fun c hc =>
    (List.mem_append.1 hc).elim (hblanks c) (h c)
  cases h with
  | nil h => exact .nil (happend h)
  | cons h ht hrest =>
    rw [← List.append_assoc]
    exact .cons (happend h) ht hrest

theorem Spaced.append (h : Spaced tokens chars) (hmore : Spaced more rest) :
    Spaced (tokens ++ more) (chars ++ rest) := by
  induction h with
  | nil hblanks => exact hmore.after_blanks hblanks
  | cons hblanks ht _ ih =>
    rw [List.append_assoc, List.append_assoc]
    exact .cons hblanks ht ih

/-- A token without blanks around it. -/
theorem Spelled.spaced {t : Token} (h : t.Spelled chars) : Spaced [t] chars := by
  have hblanks : ∀ c ∈ ([] : List Char), isBlank c = true := by simp
  simpa using Spaced.cons hblanks h (.nil hblanks)

end Spaced

/-- Values with commas between them. -/
def joined : List (List Token) → List Token
  | [] => []
  | value :: rest => value ++ rest.flatMap (.comma :: ·)

section Separated

variable {t : Token} {tokens rest : List Token}

theorem Separated.cons (ht : ¬ t.IsNumber) (h : Separated tokens) : Separated (t :: tokens) :=
  List.IsChain.cons h fun _ _ => .inr ht

theorem Separated.append (h : Separated tokens) (ht : t.IsSeparator)
    (hrest : Separated (t :: rest)) : Separated (tokens ++ t :: rest) := by
  refine List.IsChain.append h hrest ?_
  rintro _ - _ ⟨⟩
  exact .inl ht

theorem separated_joined {values : List (List Token)} (h : ∀ v ∈ values, Separated v)
    (ht : t.IsSeparator) (hrest : Separated (t :: rest)) :
    Separated (joined values ++ t :: rest) := by
  have hmore (values : List (List Token)) (h : ∀ v ∈ values, Separated v) :
      ∃ t' rest', t'.IsSeparator ∧ Separated (t' :: rest') ∧
        values.flatMap (.comma :: ·) ++ t :: rest = t' :: rest' := by
    induction values with
    | nil => exact ⟨t, rest, ht, hrest, rfl⟩
    | cons v values ih =>
      rw [List.forall_mem_cons] at h
      obtain ⟨t', rest', ht', hsep, heq⟩ := ih h.2
      refine ⟨.comma, v ++ t' :: rest', trivial, .cons id (h.1.append ht' hsep), ?_⟩
      rw [List.flatMap_cons, List.append_assoc, heq, List.cons_append]
  cases values with
  | nil => exact hrest
  | cons v values =>
    rw [List.forall_mem_cons] at h
    obtain ⟨t', rest', ht', hsep, heq⟩ := hmore values h.2
    rw [joined, List.append_assoc, heq]
    exact h.1.append ht' hsep

end Separated

end Token

section Scanning

variable {chars rest : List Char}

theorem takeWhile_of_head {p : Char → Bool} (hchars : ∀ c ∈ chars, p c = true)
    (hrest : ∀ c ∈ rest.head?, p c = false) : (chars ++ rest).takeWhile p = chars := by
  rw [List.takeWhile_append_of_pos hchars]
  cases rest with
  | nil => simp
  | cons c rest => simp [hrest c rfl]

theorem dropWhile_of_head {p : Char → Bool} (hchars : ∀ c ∈ chars, p c = true)
    (hrest : ∀ c ∈ rest.head?, p c = false) : (chars ++ rest).dropWhile p = rest := by
  rw [List.dropWhile_append_of_pos hchars]
  cases rest with
  | nil => rfl
  | cons c rest => simp [hrest c rfl]

/-- The characters that a number goes on with. -/
def continuesNumber (c : Char) : Bool :=
  c.isDigit || c == '.' || c == 'e' || c == 'E'

/-- A number that ends here does not go on. -/
def Ends (rest : List Char) : Prop :=
  ∀ c ∈ rest.head?, continuesNumber c = false

theorem Ends.digit (h : Ends rest) : ∀ c ∈ rest.head?, c.isDigit = false := fun c hc => by
  have := h c hc
  simp only [continuesNumber, Bool.or_eq_false_iff] at this
  exact this.1.1.1

theorem Digits.singleton {c : Char} (hc : c.isDigit = true) : Digits [c] :=
  ⟨List.cons_ne_nil c [], List.forall_mem_singleton.2 hc⟩

theorem Digits.isEmpty (h : Digits chars) : chars.isEmpty = false := by
  simpa using h.1

theorem Digits.head (h : Digits chars) : ∃ c tail, chars = c :: tail ∧ c.isDigit = true := by
  cases chars with
  | nil => exact absurd rfl h.1
  | cons c tail => exact ⟨c, tail, rfl, h.2 c List.mem_cons_self⟩

/-- What follows the digits after the point is no digit and no point. -/
theorem Numeral.ExponentSpelled.head {exponent : Option Int}
    (h : ExponentSpelled exponent chars) (hrest : Ends rest) :
    ∀ c ∈ (chars ++ rest).head?, c.isDigit = false ∧ c ≠ '.' := by
  intro c hc
  cases h with
  | none =>
    have := hrest c hc
    simp only [continuesNumber, Bool.or_eq_false_iff, beq_eq_false_iff_ne] at this
    exact ⟨this.1.1.1, this.1.1.2⟩
  | _ hmark =>
    cases hc
    obtain rfl | rfl := hmark <;> decide

namespace Token

variable {n : Numeral}

theorem scanExponent_of_spelled {exponent : Option Int}
    (h : Numeral.ExponentSpelled exponent chars) (hn : n.exponent = none) (hrest : Ends rest) :
    scanExponent n (chars ++ rest) = ⟨.number { n with exponent }, rest⟩ := by
  cases h with
  | none =>
    cases rest with
    | nil => simp [scanExponent, ← hn]
    | cons c rest =>
      have hc := hrest c rfl
      simp only [continuesNumber, Bool.or_eq_false_iff, beq_eq_false_iff_ne] at hc
      simp [scanExponent, hc.1.2, hc.2, ← hn]
  | @unsigned mark digits hmark h =>
    obtain ⟨c, tail, rfl, hc⟩ := h.head
    have hplus : c ≠ '+' := by rintro rfl; cases hc
    have hminus : c ≠ '-' := by rintro rfl; cases hc
    have htake := takeWhile_of_head h.2 hrest.digit
    have hdrop := dropWhile_of_head h.2 hrest.digit
    simp only [List.cons_append] at htake hdrop
    simp only [List.cons_append, scanExponent, if_pos hmark]
    split
    · simp_all
    · simp_all
    · simp [htake, hdrop]
  | @plus mark digits hmark h =>
    simp [scanExponent, hmark, takeWhile_of_head h.2 hrest.digit,
      dropWhile_of_head h.2 hrest.digit, h.isEmpty]
  | @minus mark digits hmark h =>
    simp [scanExponent, hmark, takeWhile_of_head h.2 hrest.digit,
      dropWhile_of_head h.2 hrest.digit, h.isEmpty]

theorem scanFraction_of_spelled {fraction : Option (List Nat)} {exponent : Option Int}
    {afterMark : List Char} (hfraction : Numeral.FractionSpelled fraction chars)
    (hexponent : Numeral.ExponentSpelled exponent afterMark) (hn : n.fraction = none)
    (hn' : n.exponent = none) (hrest : Ends rest) :
    scanFraction n (chars ++ (afterMark ++ rest)) =
      ⟨.number { n with fraction, exponent }, rest⟩ := by
  have hmark := hexponent.head hrest
  cases hfraction with
  | none =>
    have hscan := scanExponent_of_spelled hexponent hn' hrest
    simp only [List.nil_append, ← hn]
    generalize afterMark ++ rest = tail at hscan hmark
    rw [scanFraction]
    · exact hscan
    · rintro tail' rfl
      exact (hmark '.' rfl).2 rfl
  | @some digits h =>
    have hdigits : ∀ c ∈ (afterMark ++ rest).head?, c.isDigit = false := fun c hc => (hmark c hc).1
    simp only [List.cons_append, scanFraction, takeWhile_of_head h.2 hdigits,
      dropWhile_of_head h.2 hdigits, h.isEmpty, Bool.false_eq_true, if_false]
    exact scanExponent_of_spelled hexponent (by exact hn') hrest

theorem scanNumber_of_spelled {negative : Bool} {fraction : Option (List Nat)}
    {exponent : Option Int} {afterPoint afterMark : List Char}
    (hwhole : Numeral.WholeSpelled chars) (hfraction : Numeral.FractionSpelled fraction afterPoint)
    (hexponent : Numeral.ExponentSpelled exponent afterMark) (hrest : Ends rest) :
    scanNumber negative (chars ++ (afterPoint ++ (afterMark ++ rest))) =
      ⟨.number { negative, whole := digitsOf chars, fraction, exponent }, rest⟩ := by
  have hnext : ∀ c ∈ (afterPoint ++ (afterMark ++ rest)).head?, c.isDigit = false := by
    cases hfraction with
    | none => exact fun c hc => (hexponent.head hrest c hc).1
    | some _ =>
      rintro c ⟨⟩
      decide
  have hscan := scanFraction_of_spelled (n := { negative, whole := digitsOf chars }) hfraction
    hexponent rfl rfl hrest
  obtain ⟨hdigits, hzero⟩ := hwhole
  simp only [scanNumber, takeWhile_of_head hdigits.2 hnext, dropWhile_of_head hdigits.2 hnext]
  split
  · exact absurd rfl hdigits.1
  · simp at hzero
  · exact hscan

theorem scanText_of_spelled {content final : Content} (h : Content.Spelled content chars final) :
    scanText content (chars ++ '"' :: rest) = ⟨.text final.close, rest⟩ := by
  induction h with
  | done content => rw [List.nil_append, scanText]
  | @plain content final c chars hc hquote hslash h ih =>
    rw [List.cons_append, scanText]
    · rw [if_neg (by omega)]
      exact ih
    all_goals simp_all
  | @escape content final letter c chars hc h ih =>
    rw [List.cons_append, List.cons_append, scanText]
    · simpa only [hc] using ih
    · rintro a b c d rest rfl
      cases hc
    · rintro rfl
      cases hc
  | @unit content final a b c d unit chars hunit h ih =>
    simp only [List.cons_append, scanText, hunit]
    exact ih

theorem isBlank_of_isDigit {c : Char} (hc : c.isDigit = true) : isBlank c = false := by
  have hne {d : Char} (hd : d.isDigit = false) : c ≠ d := by
    rintro rfl
    simp [hc] at hd
  simp [isBlank, hne (d := ' ') rfl, hne (d := '\n') rfl, hne (d := '\t') rfl, hne (d := '\r') rfl]

theorem scan_of_isDigit {c : Char} (hc : c.isDigit = true) :
    scan c rest = scanNumber false (c :: rest) := by
  unfold scan
  split
  case h_12 => rw [if_pos hc]
  all_goals cases hc

/-- A spelled token is scanned from its first character on, whatever follows it, unless a number
    goes on. -/
theorem scan_of_spelled {t : Token} (h : t.Spelled chars) (hrest : t.IsNumber → Ends rest) :
    ∃ c tail, chars = c :: tail ∧ isBlank c = false ∧ scan c (tail ++ rest) = ⟨t, rest⟩ := by
  cases h with
  | text h =>
    refine ⟨_, _, rfl, by decide, ?_⟩
    rw [List.append_assoc]
    exact scanText_of_spelled h
  | @number n chars h =>
    cases h with
    | @mk negative whole afterPoint afterMark fraction exponent hwhole hfraction hexponent =>
      have hscan (negative : Bool) : scanNumber negative _ = _ :=
        scanNumber_of_spelled hwhole hfraction hexponent (hrest trivial)
      obtain ⟨c, tail, hc, hdigit⟩ := hwhole.digits.head
      cases negative with
      | false =>
        refine ⟨c, tail ++ (afterPoint ++ afterMark), by simp [hc], isBlank_of_isDigit hdigit, ?_⟩
        rw [scan_of_isDigit hdigit]
        simpa only [hc, List.cons_append, List.append_assoc] using hscan false
      | true =>
        refine ⟨'-', whole ++ (afterPoint ++ afterMark), rfl, by decide, ?_⟩
        simpa only [scan, List.append_assoc] using hscan true
  | _ => exact ⟨_, _, rfl, by decide, rfl⟩

theorem cutFrom_blanks {blanks : List Char} (hblanks : ∀ c ∈ blanks, isBlank c = true)
    (fuel : Nat) : cutFrom (blanks.length + fuel) (blanks ++ chars) = cutFrom fuel chars := by
  induction blanks with
  | nil => simp
  | cons c blanks ih =>
    rw [List.forall_mem_cons] at hblanks
    rw [List.length_cons, List.cons_append, Nat.succ_add, cutFrom, if_pos hblanks.1]
    exact ih hblanks.2

theorem cutFrom_nil (fuel : Nat) : cutFrom fuel [] = [] := by
  cases fuel <;> rfl

/-- Blanks and the first characters of separators end numbers. -/
theorem Spaced.ends {t : Token} {tokens : List Token} (h : Spaced tokens chars)
    (hsep : Separated (t :: tokens)) (ht : t.IsNumber) : Ends chars := by
  have hblank {blanks rest : List Char} (hblanks : ∀ c ∈ blanks, isBlank c = true)
      (hrest : Ends rest) : Ends (blanks ++ rest) := by
    cases blanks with
    | nil => exact hrest
    | cons c blanks =>
      rintro c ⟨⟩
      have hc := hblanks c List.mem_cons_self
      simp only [isBlank, Bool.decide_or, Bool.or_eq_true, decide_eq_true_eq] at hc
      obtain rfl | rfl | rfl | rfl := hc <;> decide
  cases h with
  | nil hblanks =>
    have hnil : Ends [] := by simp [Ends]
    simpa using hblank hblanks hnil
  | @cons next tokens blanks spelling chars hblanks hnext h =>
    refine hblank hblanks ?_
    obtain hsep | hnot := (List.isChain_cons_cons.1 hsep).1
    · cases hnext with
      | _ => first
        | exact hsep.elim
        | (rintro c ⟨⟩; decide)
    · exact absurd ht hnot

/-- Spelled tokens are what the text is cut into. -/
theorem Spaced.cutFrom {tokens : List Token} (h : Spaced tokens chars) (hsep : Separated tokens)
    {fuel : Nat} (hfuel : chars.length ≤ fuel) : cutFrom fuel chars = tokens := by
  induction h generalizing fuel with
  | @nil blanks hblanks =>
    obtain ⟨fuel, rfl⟩ := Nat.exists_eq_add_of_le hfuel
    simpa [cutFrom_nil] using @cutFrom_blanks [] blanks hblanks fuel
  | @cons t tokens blanks spelling chars hblanks ht h ih =>
    rw [List.length_append] at hfuel
    obtain ⟨fuel, rfl⟩ := Nat.exists_eq_add_of_le (Nat.le_trans (Nat.le_add_right _ _) hfuel)
    rw [cutFrom_blanks hblanks]
    obtain ⟨c, tail, rfl, hc, hscan⟩ := scan_of_spelled ht (h.ends hsep)
    simp only [List.cons_append, List.length_cons, List.length_append] at hfuel ⊢
    obtain ⟨fuel, rfl⟩ : ∃ n, fuel = n + 1 := ⟨fuel - 1, by omega⟩
    rw [Token.cutFrom, if_neg (by simp [hc]), hscan]
    exact congrArg (t :: ·) (ih hsep.tail (by omega))

/-- Text that consists of spelled tokens is cut into them, provided that a separator stands
    between a number and whatever else would be taken for its end. -/
theorem ofText_of_spaced {tokens : List Token} {text : String} (h : Spaced tokens text.toList)
    (hsep : Separated tokens) : ofText text = tokens :=
  h.cutFrom hsep (Nat.le_of_eq (String.length_toList))

end Token

end Scanning

end Json

end NetDesc
