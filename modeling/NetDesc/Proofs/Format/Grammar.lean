import NetDesc.Proofs.Json.Rendering
import NetDesc.Session

namespace NetDesc

namespace FormatSpec

/-- The characters that flags are written with. -/
def flagChars : List Char := ['-', '+', '0']

/-- Digits that denote a size, or no digits for zero. -/
structure SizeSpelled (size : Nat) (chars : List Char) : Prop where
  digits : ∀ c ∈ chars, c.isDigit = true
  denotes : Nat.ofDigitChars 10 chars 0 = size
  limit : size ≤ 4096

/-- The part of a specification from the point on. -/
inductive PrecisionSpelled : Option Nat → List Char → Prop
  | none : PrecisionSpelled none []
  | some {size : Nat} {digits : List Char} (h : SizeSpelled size digits) :
    PrecisionSpelled (some size) ('.' :: digits)

/-- A specification: flags, the digits of a width, and those of a precision after a point. As
    many zeros as there are at the front belong to the flags. The reader is not mentioned, which
    goes through a text character by character. -/
inductive Spelled : FormatSpec → List Char → Prop
  | mk {flags width afterPoint : List Char} {size : Nat} {precision : Option Nat}
      (hflags : ∀ c ∈ flags, c ∈ flagChars) (hwidth : SizeSpelled size width)
      (hgreedy : width.head? ≠ some '0') (hprecision : PrecisionSpelled precision afterPoint) :
    Spelled {
      leftAlign := flags.contains '-'
      zeroPad := flags.contains '0'
      plusSign := flags.contains '+'
      width := size
      precision } (flags ++ (width ++ afterPoint))

section Flags

/-- The specification with what these flags set, in whatever order they come. -/
def withFlags (spec : FormatSpec) (flags : List Char) : FormatSpec where
  leftAlign := spec.leftAlign || flags.contains '-'
  zeroPad := spec.zeroPad || flags.contains '0'
  plusSign := spec.plusSign || flags.contains '+'
  width := spec.width
  precision := spec.precision

theorem withFlag?_of_mem (spec : FormatSpec) {c : Char} (hc : c ∈ flagChars) :
    spec.withFlag? c = some (spec.withFlags [c]) := by
  simp only [flagChars, List.mem_cons, List.not_mem_nil, or_false] at hc
  obtain rfl | rfl | rfl := hc <;> simp [withFlag?, withFlags]

theorem withFlag?_of_not_mem (spec : FormatSpec) {c : Char} (hc : c ∉ flagChars) :
    spec.withFlag? c = none := by
  simp only [flagChars, List.mem_cons, List.not_mem_nil, or_false, not_or] at hc
  unfold withFlag?
  split <;> simp_all

theorem withFlags_cons (spec : FormatSpec) (c : Char) (flags : List Char) :
    (spec.withFlags [c]).withFlags flags = spec.withFlags (c :: flags) := by
  simp [withFlags, Bool.or_assoc]

theorem readFlags_append {flags rest : List Char} (hflags : ∀ c ∈ flags, c ∈ flagChars)
    (hrest : ∀ c ∈ rest.head?, c ∉ flagChars) (spec : FormatSpec) :
    readFlags spec (flags ++ rest) = (spec.withFlags flags, rest) := by
  induction flags generalizing spec with
  | nil =>
    have hspec : spec.withFlags [] = spec := by simp [withFlags]
    rw [hspec]
    cases rest with
    | nil => rfl
    | cons c rest =>
      rw [List.nil_append, readFlags, withFlag?_of_not_mem spec (hrest c rfl)]
  | cons c flags ih =>
    rw [List.forall_mem_cons] at hflags
    rw [List.cons_append, readFlags, withFlag?_of_mem spec hflags.1]
    exact (ih hflags.2 _).trans (by rw [withFlags_cons])

end Flags

section Sizes

/-- How much a digit counts. -/
def digitValue (c : Char) : Nat :=
  c.toNat - '0'.toNat

theorem digitValue_lt {c : Char} (hc : c.isDigit = true) : digitValue c < 10 := by
  have hle : c.toNat ≤ 57 := (Char.isDigit_iff_toNat.1 hc).2
  have hzero : '0'.toNat = 48 := rfl
  unfold digitValue
  omega

/-- While the reader goes through digits from `size` on, it appends `digit` to `reached`. -/
inductive Appends : (size : UInt64) → List Char → (reached : UInt64) → (digit : Char) → Prop
  | here {size : UInt64} {c : Char} {rest : List Char} (hc : c.isDigit = true) :
    Appends size (c :: rest) size c
  | later {size next reached : UInt64} {c digit : Char} {rest : List Char} (hc : c.isDigit = true)
      (hnext : withDigit? size c = some next) (h : Appends next rest reached digit) :
    Appends size (c :: rest) reached digit

variable {size : UInt64} {c : Char}

/-- One more digit does not overflow a size that was accepted so far. More digits never make a
    number smaller, so a size that is too large for its beginning stays so. -/
theorem checked_append (hsize : size.toNat ≤ 4096) (hc : c.isDigit = true) :
    Word.checkedMul? size 10 = some (size * 10) ∧
      Word.checkedAdd? (size * 10) (.ofNat (digitValue c)) =
        some (size * 10 + .ofNat (digitValue c)) ∧
      (size * 10 + .ofNat (digitValue c)).toNat = 10 * size.toNat + digitValue c := by
  have hlt := digitValue_lt hc
  have hten : (10 : UInt64).toNat = 10 := rfl
  have hword : UInt64.size = 2 ^ 64 := rfl
  have hdigit : (UInt64.ofNat (digitValue c)).toNat = digitValue c :=
    UInt64.toNat_ofNat_of_lt' (by omega)
  have hmul : (size * 10).toNat = size.toNat * 10 := by
    rw [UInt64.toNat_mul, hten]
    exact Nat.mod_eq_of_lt (by omega)
  refine ⟨if_pos (by rw [hten]; omega), if_pos (by omega), ?_⟩
  rw [UInt64.toNat_add, hmul, hdigit, Nat.mod_eq_of_lt (by omega)]
  omega

theorem withDigit?_eq (hsize : size.toNat ≤ 4096) (hc : c.isDigit = true) :
    withDigit? size c =
      if 10 * size.toNat + digitValue c ≤ 4096 then
        some (size * 10 + .ofNat (digitValue c))
      else none := by
  obtain ⟨hmul, hadd, hvalue⟩ := checked_append hsize hc
  have hlimit : size * 10 + .ofNat (digitValue c) ≤ maxWidth ↔
      10 * size.toNat + digitValue c ≤ 4096 := by
    rw [UInt64.le_iff_toNat_le, hvalue]
    rfl
  unfold withDigit?
  rw [hmul]
  change (Word.checkedAdd? (size * 10) (.ofNat (digitValue c))).bind _ = _
  rw [hadd]
  simp only [Option.bind_some, hlimit]

theorem withDigit?_le {next : UInt64} (h : withDigit? size c = some next) : next.toNat ≤ 4096 := by
  simp only [withDigit?, bind, Option.bind_eq_some_iff] at h
  obtain ⟨tens, -, sum, -, h⟩ := h
  split at h
  · next hle =>
    cases h
    exact UInt64.le_iff_toNat_le.1 hle
  · cases h

/-- Whatever the reader appends a digit to has passed the limit, so the limit is what refuses a size
    and never an overflow. -/
theorem Appends.fits {chars : List Char} {reached : UInt64} {digit : Char}
    (h : Appends size chars reached digit) (hsize : size.toNat ≤ 4096) :
    reached.toNat ≤ 4096 ∧ digit.isDigit = true := by
  induction h with
  | here hc => exact ⟨hsize, hc⟩
  | later _ hnext _ ih => exact ih (withDigit?_le hnext)

/-- To compare a size with the limit after each digit is to compare it once, after the last. -/
theorem readSize?_append {digits rest : List Char} (hdigits : ∀ c ∈ digits, c.isDigit = true)
    (hrest : ∀ c ∈ rest.head?, c.isDigit = false) (hsize : size.toNat ≤ 4096) :
    (readSize? size (digits ++ rest)).map (fun (n, rest) => (n.toNat, rest)) =
      if Nat.ofDigitChars 10 digits size.toNat ≤ 4096 then
        some (Nat.ofDigitChars 10 digits size.toNat, rest)
      else none := by
  induction digits generalizing size with
  | nil =>
    rw [Nat.ofDigitChars_nil, if_pos hsize]
    cases rest with
    | nil => rfl
    | cons c rest => simp [readSize?, hrest c rfl]
  | cons c digits ih =>
    rw [List.forall_mem_cons] at hdigits
    rw [Nat.ofDigitChars_cons, List.cons_append, readSize?, if_pos hdigits.1,
      withDigit?_eq hsize hdigits.1]
    change _ = if Nat.ofDigitChars 10 digits (10 * size.toNat + digitValue c) ≤ 4096 then
      some (Nat.ofDigitChars 10 digits (10 * size.toNat + digitValue c), rest) else none
    by_cases hnext : 10 * size.toNat + digitValue c ≤ 4096
    · have hvalue := (checked_append hsize hdigits.1).2.2
      rw [if_pos hnext, ← hvalue]
      exact ih hdigits.2 (by omega)
    · -- More digits make it larger still.
      have hmore := Json.le_ofDigitChars digits (10 * size.toNat + digitValue c)
      rw [if_neg hnext, if_neg (by omega)]
      rfl

end Sizes

section Parts

variable {chars : List Char}

theorem exists_span (p : Char → Prop) [DecidablePred p] (chars : List Char) :
    ∃ xs rest, chars = xs ++ rest ∧ (∀ c ∈ xs, p c) ∧ ∀ c ∈ rest.head?, ¬ p c := by
  refine ⟨chars.takeWhile p, chars.dropWhile p, List.takeWhile_append_dropWhile.symm, ?_, ?_⟩
  · intro c hc
    exact of_decide_eq_true (List.all_eq_true.1 List.all_takeWhile c hc)
  · intro c hc
    have hnot := List.head?_dropWhile_not p chars
    rw [Option.mem_def.1 hc] at hnot
    simpa using hnot

theorem readSize?_of_spelled {size : Nat} {digits rest : List Char} (h : SizeSpelled size digits)
    (hrest : ∀ c ∈ rest.head?, c.isDigit = false) :
    ∃ n, readSize? 0 (digits ++ rest) = some (n, rest) ∧ n.toNat = size := by
  have hstart : (0 : UInt64).toNat ≤ 4096 := by decide
  have hread := readSize?_append h.digits hrest hstart
  have hzero : (0 : UInt64).toNat = 0 := rfl
  rw [hzero, h.denotes, if_pos h.limit, Option.map_eq_some_iff] at hread
  obtain ⟨⟨n, rest'⟩, hn, heq⟩ := hread
  cases heq
  exact ⟨n, hn, rfl⟩

theorem spelled_of_readSize? {n : UInt64} {rest : List Char}
    (h : readSize? 0 chars = some (n, rest)) :
    ∃ digits, chars = digits ++ rest ∧ SizeSpelled n.toNat digits ∧
      ∀ c ∈ rest.head?, c.isDigit = false := by
  obtain ⟨digits, tail, rfl, hdigits, htail⟩ := exists_span (fun c => c.isDigit = true) chars
  have htail : ∀ c ∈ tail.head?, c.isDigit = false := fun c hc => by simpa using htail c hc
  have hstart : (0 : UInt64).toNat ≤ 4096 := by decide
  have hread := readSize?_append hdigits htail hstart
  have hzero : (0 : UInt64).toNat = 0 := rfl
  rw [h, hzero] at hread
  by_cases hlimit : Nat.ofDigitChars 10 digits 0 ≤ 4096
  · rw [if_pos hlimit, Option.map_some, Option.some.injEq, Prod.mk.injEq] at hread
    obtain ⟨hvalue, rfl⟩ := hread
    exact ⟨digits, rfl, ⟨hdigits, hvalue.symm, hvalue ▸ hlimit⟩, htail⟩
  · rw [if_neg hlimit] at hread
    cases hread

theorem readPrecision?_of_spelled {precision : Option Nat} (h : PrecisionSpelled precision chars) :
    ∃ n, readPrecision? chars = some (n, []) ∧ n.map UInt64.toNat = precision := by
  cases h with
  | none => exact ⟨none, rfl, rfl⟩
  | @some size digits h =>
    have hend : ∀ c ∈ ([] : List Char).head?, c.isDigit = false := by simp
    obtain ⟨n, hn, rfl⟩ := readSize?_of_spelled h hend
    rw [List.append_nil] at hn
    refine ⟨some n, ?_, rfl⟩
    simp only [readPrecision?, hn]
    rfl

theorem spelled_of_readPrecision? {n : Option UInt64} (h : readPrecision? chars = some (n, [])) :
    PrecisionSpelled (n.map UInt64.toNat) chars := by
  unfold readPrecision? at h
  split at h
  · next rest =>
    cases hsize : readSize? 0 rest with
    | none => simp [hsize] at h
    | some p =>
      obtain ⟨size, tail⟩ := p
      simp only [hsize] at h
      cases h
      obtain ⟨digits, rfl, hdigits, -⟩ := spelled_of_readSize? hsize
      rw [List.append_nil]
      exact .some hdigits
  · cases h
    exact .none

/-- No character of a width or a precision is a flag, apart from a zero in front of a width. -/
theorem head_not_flag {width afterPoint : List Char} {size : Nat} {precision : Option Nat}
    (hwidth : SizeSpelled size width) (hgreedy : width.head? ≠ some '0')
    (hprecision : PrecisionSpelled precision afterPoint) :
    ∀ c ∈ (width ++ afterPoint).head?, c ∉ flagChars := by
  cases width with
  | nil =>
    cases hprecision with
    | none => simp
    | some h => simp [flagChars]
  | cons d width =>
    have hdigit := hwidth.digits d (by simp)
    rintro c ⟨⟩ hc
    simp only [flagChars, List.mem_cons, List.not_mem_nil, or_false] at hc
    obtain rfl | rfl | rfl := hc
    · cases hdigit
    · cases hdigit
    · exact hgreedy rfl

theorem PrecisionSpelled.head {precision : Option Nat} (h : PrecisionSpelled precision chars) :
    ∀ c ∈ chars.head?, c.isDigit = false := by
  cases h with
  | none => simp
  | some h => simp

end Parts

variable {spec : FormatSpec} {how : List Char}

/-- What is spelled like a specification is read as it. -/
theorem ofChars?_of_spelled (h : spec.Spelled how) : ofChars? how = some spec := by
  cases h with
  | @mk flags width afterPoint size precision hflags hwidth hgreedy hprecision =>
    have hread := readFlags_append hflags (head_not_flag hwidth hgreedy hprecision) {}
    obtain ⟨w, hw, hsize⟩ := readSize?_of_spelled hwidth hprecision.head
    obtain ⟨n, hn, hmap⟩ := readPrecision?_of_spelled hprecision
    simp only [ofChars?, hread, bind, hw, hn, Option.bind_some, List.isEmpty_nil, if_true, hsize,
      hmap]
    simp [withFlags]

/-- What is read as a specification is spelled like it. -/
theorem spelled_of_ofChars? (h : ofChars? how = some spec) : spec.Spelled how := by
  obtain ⟨flags, rest, rfl, hflags, hrest⟩ := exists_span (· ∈ flagChars) how
  simp only [ofChars?, readFlags_append hflags hrest, bind, Option.bind_eq_some_iff] at h
  obtain ⟨⟨w, tail⟩, hw, ⟨n, left⟩, hn, h⟩ := h
  split at h
  · next hleft =>
    cases h
    obtain rfl := List.isEmpty_iff.1 hleft
    obtain ⟨width, rfl, hwidth, -⟩ := spelled_of_readSize? hw
    have hgreedy : width.head? ≠ some '0' := by
      intro hzero
      exact hrest '0' (by simp [hzero]) (by simp [flagChars])
    have hspelled := Spelled.mk hflags hwidth hgreedy (spelled_of_readPrecision? hn)
    simpa [withFlags] using hspelled
  · cases h

theorem ofChars?_eq_some_iff : ofChars? how = some spec ↔ spec.Spelled how :=
  ⟨spelled_of_ofChars?, ofChars?_of_spelled⟩

theorem SizeSpelled.percent {size : Nat} {digits : List Char} (h : SizeSpelled size digits) :
    '%' ∉ digits := fun hmem => by cases h.digits _ hmem

theorem Spelled.percent (h : spec.Spelled how) : '%' ∉ how := by
  cases h with
  | @mk flags width afterPoint size precision hflags hwidth hgreedy hprecision =>
    have hflags : '%' ∉ flags := fun hmem => by simpa [flagChars] using hflags _ hmem
    have hpoint : '%' ∉ afterPoint := by
      cases hprecision with
      | none => simp
      | some h => simpa using h.percent
    simp [hflags, hwidth.percent, hpoint]

theorem parse_eq_ok_iff {text : String} {location : Location} :
    parse text location = .ok spec ↔ spec.Spelled text.toList := by
  unfold parse
  split
  · next hpercent =>
    have hpercent : '%' ∈ text.toList := by simpa using hpercent
    exact ⟨nofun, fun h => absurd hpercent h.percent⟩
  · cases h : ofChars? text.toList with
    | none =>
      refine ⟨nofun, fun hspelled => ?_⟩
      rw [ofChars?_of_spelled hspelled] at h
      cases h
    | some found =>
      rw [← ofChars?_eq_some_iff, h, Except.ok.injEq, Option.some.injEq]

/-- What is no specification is an invalid argument of the value that it was to lay out. -/
theorem parse_of_not_spelled {text : String} (h : ¬ ∃ spec : FormatSpec, spec.Spelled text.toList)
    (location : Location) : ∃ message, parse text location =
      .error (.invalidArgument message location) := by
  cases hparse : parse text location with
  | ok spec => exact absurd ⟨spec, parse_eq_ok_iff.1 hparse⟩ h
  | error e =>
    unfold parse at hparse
    split at hparse
    · cases hparse
      exact ⟨_, rfl⟩
    · split at hparse
      · cases hparse
      · cases hparse
        exact ⟨_, rfl⟩

/-- Every value refuses the text as a format, without anything being computed. -/
def Refused (text : String) : Prop :=
  ∀ (ev : Evaluator) (fuel : Nat) (v : Value) (s : Store), ∃ message,
    ev.formatValue fuel v text s = .error (.invalidArgument message v.location) s

theorem refused_iff {text : String} :
    Refused text ↔ ¬ ∃ spec : FormatSpec, spec.Spelled text.toList := by
  constructor
  · rintro h ⟨spec, hspec⟩
    -- A string is laid out without asking anything, so one level of calls is enough.
    obtain ⟨message, h⟩ := h {} 1 (.text "" .unknown "") {}
    rw [Evaluator.formatValue, parse_eq_ok_iff.2 hspec] at h
    cases h
  · intro h ev fuel v s
    obtain ⟨message, hparse⟩ := parse_of_not_spelled h v.location
    refine ⟨message, ?_⟩
    rw [Evaluator.formatValue, hparse]
    rfl

/-- To append the digit to the size is the same in machine words as in numbers. -/
def Exact (size : UInt64) (digit : Char) : Prop :=
  ∃ tens next : UInt64, Word.checkedMul? size 10 = some tens ∧ tens.toNat = 10 * size.toNat ∧
    Word.checkedAdd? tens (.ofNat (digitValue digit)) = some next ∧
    next.toNat = 10 * size.toNat + digitValue digit

/-- The texts that are accepted as formats are those that the grammar allows, and they mean what the
    grammar says. However long its digits are, nothing overflows when a text is read, and what is
    not accepted is refused by every value before it computes anything. -/
theorem accepted_iff_spelled (text : String) :
    (∀ spec, ofChars? text.toList = some spec ↔ spec.Spelled text.toList) ∧
    (∀ spec location, parse text location = .ok spec ↔ spec.Spelled text.toList) ∧
    (∀ chars size digit, Appends 0 chars size digit → Exact size digit) ∧
    (Refused text ↔ ¬ ∃ spec : FormatSpec, spec.Spelled text.toList) ∧
    ('%' ∈ text.toList → Refused text) := by
  refine ⟨fun _ => ofChars?_eq_some_iff, fun _ _ => parse_eq_ok_iff, ?_, refused_iff, ?_⟩
  · intro chars size digit happends
    obtain ⟨hsize, hdigit⟩ := happends.fits (Nat.zero_le 4096)
    obtain ⟨hmul, hadd, hvalue⟩ := checked_append hsize hdigit
    have hten : (10 : UInt64).toNat = 10 := rfl
    have htens : (size * 10).toNat = 10 * size.toNat := by
      rw [UInt64.toNat_mul, hten, Nat.mod_eq_of_lt (by omega), Nat.mul_comm]
    exact ⟨_, _, hmul, htens, hadd, hvalue⟩
  · intro hpercent
    exact refused_iff.2 fun ⟨_, hspec⟩ => hspec.percent hpercent

/-- Zeros at the front are flags, a point alone stands for a precision of zero, and nothing may
    follow. -/
theorem accepted_iff_spelled_point :
    ofChars? "+0-12.".toList = some {
      leftAlign := true, zeroPad := true, plusSign := true, width := 12, precision := some 0 } ∧
    '%' ∈ "5%".toList ∧ Refused "5%" := by
  have hspelled : Spelled {
      leftAlign := true, zeroPad := true, plusSign := true, width := 12, precision := some 0 }
      "+0-12.".toList := by
    have hflags : ∀ c ∈ ['+', '0', '-'], c ∈ flagChars := by simp [flagChars]
    have hwidth : SizeSpelled 12 ['1', '2'] := ⟨by simp, rfl, by omega⟩
    have hempty : SizeSpelled 0 [] := ⟨by simp, rfl, by omega⟩
    exact .mk hflags hwidth (by simp) (.some hempty)
  have hpercent : '%' ∈ "5%".toList := by decide
  obtain ⟨haccepted, -, -, -, -⟩ := accepted_iff_spelled "+0-12."
  obtain ⟨-, -, -, -, hrefused⟩ := accepted_iff_spelled "5%"
  exact ⟨(haccepted _).2 hspelled, hpercent, hrefused hpercent⟩

end FormatSpec

end NetDesc
