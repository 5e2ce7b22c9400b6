import Mathlib.Data.FinEnum

/-!
# String literals: the printer, the lexer and the unescaper

`c10::printQuotedString` writes a string between double quotes, `SharedParserData::isString` finds
the end of a literal in a text, and `parseStringLiteral` takes the quotes off and replaces the
escapes. A `char` is signed here, as it is on x86.
-/

namespace PyTorchCore.Frontend

open List

/-- The bytes of a `std::string`. -/
abbrev Text := List UInt8

section Characters

/-- A `char` as a number. -/
def signedChar (c : UInt8) : Int :=
  c.toInt8.toInt

/-- `"`, the quote of the printer. -/
abbrev doubleQuote : UInt8 := 0x22

/-- `'`. -/
abbrev singleQuote : UInt8 := 0x27

/-- The character that starts an escape. -/
abbrev backslash : UInt8 := 0x5C

/-- `'\n'`. -/
abbrev newline : UInt8 := 0x0A

/-- `'0'`. -/
abbrev zeroDigit : UInt8 := 0x30

end Characters

section Printer

def isPrint (s : UInt8) : Bool :=
  0x1F < signedChar s ∧ signedChar s < 0x7F

/-- The three digits of `printQuotedString`.  `/` and `%` round towards zero. -/
def octalDigits (c : UInt8) : Text :=
  let s := signedChar c
  let digit (k : Int) : UInt8 := zeroDigit + UInt8.ofInt k
  [digit ((s.tdiv 8).tdiv 8), digit ((s.tdiv 8).tmod 8), digit (s.tmod 8)]

/-- What `printQuotedString` writes for one character. -/
def printChar (s : UInt8) : Text :=
  match s with
  | 0x5C => [backslash, backslash]
  | 0x27 => [backslash, singleQuote]
  | 0x22 => [backslash, doubleQuote]
  | 0x07 => [backslash, 0x61]
  | 0x08 => [backslash, 0x62]
  | 0x0C => [backslash, 0x66]
  | 0x0A => [backslash, 0x6E]
  | 0x0D => [backslash, 0x72]
  | 0x09 => [backslash, 0x74]
  | 0x0B => [backslash, 0x76]
  | s => if isPrint s then [s] else backslash :: octalDigits s

def printQuotedString (str : Text) : Text :=
  doubleQuote :: (str.flatMap printChar ++ [doubleQuote])

end Printer

section Lexer

/-- `isCharCount`: the `len` characters from `start` on are all `c`. -/
def isCharCount (c : UInt8) (str : Text) (start len : Nat) : Bool :=
  start + len ≤ str.length ∧ ((str.drop start).take len).count c = len

/-- The loop of `isString` over the text from `position` on: the final value of `end`, or
nothing where a line ends inside the quotes. -/
def closingQuote (quote : UInt8) (quoteLen : Nat) : Text → Nat → Option Nat
  | [], position => some position
  | c :: rest, position =>
    if isCharCount quote (c :: rest) 0 quoteLen then some position
    else if c = newline ∧ quoteLen ≠ 3 then none
    else if c = backslash then
      match rest with
      | [] => some (position + 2)
      | _ :: rest => closingQuote quote quoteLen rest (position + 2)
    else closingQuote quote quoteLen rest (position + 1)

/-- `isString`: the length of the literal that starts at `start`. -/
def isString (str : Text) (start : Nat) : Option Nat :=
  match (str.drop start).head? with
  | none => none
  | some quote =>
    if quote ≠ doubleQuote ∧ quote ≠ singleQuote then none
    else
      let quoteLen := if isCharCount quote str start 3 then 3 else 1
      match closingQuote quote quoteLen (str.drop (start + quoteLen)) (start + quoteLen) with
      | none => none
      | some position =>
        if position < str.length then some (position - start + quoteLen) else none

end Lexer

section Unescaper

/-- `parseOctal` on the three characters behind the backslash. -/
def parseOctal (d₁ d₂ d₃ : UInt8) : Option UInt8 :=
  let isOctal (d : UInt8) : Bool := 0x30 ≤ signedChar d ∧ signedChar d ≤ 0x37
  let value (d : UInt8) : Nat := (signedChar d - 0x30).toNat
  if isOctal d₁ ∧ isOctal d₂ ∧ isOctal d₃ then
    let c := 64 * value d₁ + 8 * value d₂ + value d₃
    if 256 ≤ c then none else some (UInt8.ofNat c)
  else none

/-- The `switch` of `parseStringLiteral`: the character for an escape, or nothing where three
octal digits have to follow. -/
def escaped (d : UInt8) : Except String (Option UInt8) :=
  match d with
  | 0x5C => .ok (some 0x5C)
  | 0x27 => .ok (some 0x27)
  | 0x22 => .ok (some 0x22)
  | 0x0A => .ok (some 0x0A)
  | 0x61 => .ok (some 0x07)
  | 0x62 => .ok (some 0x08)
  | 0x66 => .ok (some 0x0C)
  | 0x6E => .ok (some 0x0A)
  | 0x76 => .ok (some 0x0B)
  | 0x74 => .ok (some 0x09)
  | 0x78 => .error "unsupported hex specifier"
  | 0x75 => .error "unsupported unicode specifier"
  | 0x55 => .error "unsupported unicode specifier"
  | _ => .ok none

/-- The loop of `parseStringLiteral` over the text from the next character on. -/
def unescape : Text → Except String Text
  | [] => .ok []
  | c :: rest =>
    if c ≠ backslash then (unescape rest).map (c :: ·)
    else
      match rest with
      | [] => .error " ill formed octal specifier"
      | d :: rest =>
        match escaped d, rest with
        | .error message, _ => .error message
        | .ok (some v), rest => (unescape rest).map (v :: ·)
        | .ok none, d₂ :: d₃ :: rest =>
          match parseOctal d d₂ d₃ with
          | some v => (unescape rest).map (v :: ·)
          | none => .error " ill formed octal specifier"
        | .ok none, _ => .error " ill formed octal specifier"

def parseStringLiteral (str : Text) : Except String Text :=
  let quoteLen := if isCharCount (str.headD 0) str 0 3 then 3 else 1
  unescape ((str.drop quoteLen).take (str.length - quoteLen * 2))

end Unescaper

section PrintedCharacters

/-- A character that neither ends nor escapes anything inside double quotes. -/
def Plain (c : UInt8) : Prop :=
  c ≠ doubleQuote ∧ c ≠ newline ∧ c ≠ backslash

instance (c : UInt8) : Decidable (Plain c) :=
  inferInstanceAs (Decidable (_ ∧ _))

/-- The characters whose print is read back: all of ASCII but the carriage return. -/
def Readable (c : UInt8) : Prop :=
  c ≠ 0x0D ∧ c < 0x80

instance (c : UInt8) : Decidable (Readable c) :=
  inferInstanceAs (Decidable (_ ∧ _))

/-- How a character can look in print: as itself, behind a backslash, by its number, or as
`\r`, which the unescaper does not know. -/
inductive PrintedAs (c : UInt8) : Text → Prop
  | itself : Plain c → Readable c → PrintedAs c [c]
  | escape {d : UInt8} :
      escaped d = .ok (some c) → Readable c → PrintedAs c [backslash, d]
  | number {d₁ d₂ d₃ : UInt8} :
      (∀ d ∈ [d₁, d₂, d₃], Plain d) → escaped d₁ = .ok none →
      parseOctal d₁ d₂ d₃ = (if c < 0x80 then some c else none) → c ≠ 0x0D →
      PrintedAs c [backslash, d₁, d₂, d₃]
  | carriageReturn : c = 0x0D → PrintedAs c [backslash, 0x72]

theorem isPrint_iff (c : UInt8) : isPrint c = true ↔ 0x20 ≤ c ∧ c < 0x7F := by
  revert c
  decide +kernel

/-- Digits of octal escapes are plain characters. -/
theorem plain_of_digit : ∀ d : UInt8, 0x28 < d ∧ d < 0x38 → Plain d ∧ escaped d = .ok none := by
  have hplain : ∀ d : UInt8, 0x28 < d ∧ d < 0x38 → Plain d := by decide +kernel
  intro d hd
  refine ⟨hplain d hd, ?_⟩
  unfold escaped
  split
  all_goals first | rfl | exact absurd hd (by decide)

theorem octalDigits_spec (c : UInt8) : ∃ d₁ d₂ d₃, octalDigits c = [d₁, d₂, d₃] ∧
      (0x28 < d₁ ∧ d₁ < 0x38) ∧ (0x28 < d₂ ∧ d₂ < 0x38) ∧ (0x28 < d₃ ∧ d₃ < 0x38) ∧
      parseOctal d₁ d₂ d₃ = (if c < 0x80 then some c else none) := by
  refine ⟨_, _, _, rfl, ?_⟩
  revert c
  decide +kernel

/-- How the printer writes each character. -/
theorem printedAs (c : UInt8) : PrintedAs c (printChar c) := by
  unfold printChar
  split
  case h_8 => exact .carriageReturn rfl
  case h_11 hslash _ hquote _ _ _ hnewline hreturn _ _ =>
    split
    case isTrue hprint =>
      have hrange := (isPrint_iff c).mp hprint
      exact .itself ⟨hquote, hnewline, hslash⟩ ⟨hreturn, UInt8.lt_trans hrange.2 (by decide)⟩
    case isFalse =>
      obtain ⟨d₁, d₂, d₃, hdigits, h₁, h₂, h₃, hoctal⟩ := octalDigits_spec c
      have hplain : ∀ d ∈ [d₁, d₂, d₃], Plain d := by
        simp [(plain_of_digit d₁ h₁).1, (plain_of_digit d₂ h₂).1, (plain_of_digit d₃ h₃).1]
      rw [hdigits]
      exact .number hplain (plain_of_digit d₁ h₁).2 hoctal hreturn
  all_goals exact .escape rfl (by decide)

end PrintedCharacters

section Lexing

@[simp] theorem backslash_ne_doubleQuote : backslash ≠ doubleQuote := by decide

@[simp] theorem backslash_ne_newline : backslash ≠ newline := by decide

/-- `isCharCount` asks for a run of one character. -/
theorem isCharCount_iff (c : UInt8) (str : Text) (len : Nat) :
    isCharCount c str 0 len = true ↔ ∃ rest, str = List.replicate len c ++ rest := by
  simp only [isCharCount, drop_zero, Nat.zero_add, decide_eq_true_eq]
  constructor
  · rintro ⟨hlen, hcount⟩
    have htake : (str.take len).length = len := length_take_of_le hlen
    have hsame : str.take len = List.replicate len c :=
      eq_replicate_iff.mpr
        ⟨htake, fun b hb => (count_eq_length.mp (hcount.trans htake.symm) b hb).symm⟩
    exact ⟨str.drop len, by rw [← hsame, take_append_drop]⟩
  · rintro ⟨rest, rfl⟩
    simp

@[simp] theorem isCharCount_one (c d : UInt8) (rest : Text) :
    isCharCount c (d :: rest) 0 1 = decide (d = c) := by
  rw [Bool.eq_iff_iff, isCharCount_iff, decide_eq_true_eq]
  constructor
  · rintro ⟨rest', h⟩
    exact (List.cons.inj h).1
  · rintro rfl
    exact ⟨rest, rfl⟩

theorem isCharCount_append (c : UInt8) (before str : Text) (len : Nat) :
    isCharCount c (before ++ str) before.length len = isCharCount c str 0 len := by
  simp [isCharCount]

theorem closingQuote_cons (quote : UInt8) (quoteLen : Nat) (c : UInt8) (rest : Text)
    (position : Nat) :
    closingQuote quote quoteLen (c :: rest) position =
      if isCharCount quote (c :: rest) 0 quoteLen then some position
      else if c = newline ∧ quoteLen ≠ 3 then none
      else if c = backslash then closingQuote quote quoteLen (rest.drop 1) (position + 2)
      else closingQuote quote quoteLen rest (position + 1) := by
  cases rest <;> rfl

theorem closingQuote_plain {c : UInt8} (h : Plain c) (rest : Text) (position : Nat) :
    closingQuote doubleQuote 1 (c :: rest) position =
      closingQuote doubleQuote 1 rest (position + 1) := by
  obtain ⟨hquote, hnewline, hslash⟩ := h
  simp [closingQuote_cons, hquote, hnewline, hslash]

theorem closingQuote_plains {cs : Text} (h : ∀ c ∈ cs, Plain c) (rest : Text) (position : Nat) :
    closingQuote doubleQuote 1 (cs ++ rest) position =
      closingQuote doubleQuote 1 rest (position + cs.length) := by
  induction cs generalizing position with
  | nil => rfl
  | cons c cs ih =>
    obtain ⟨hc, hcs⟩ := forall_mem_cons.mp h
    rw [cons_append, closingQuote_plain hc, ih hcs, length_cons]
    congr 1
    omega

theorem closingQuote_escape (d : UInt8) (rest : Text) (position : Nat) :
    closingQuote doubleQuote 1 (backslash :: d :: rest) position =
      closingQuote doubleQuote 1 rest (position + 2) := by
  rw [closingQuote_cons, if_neg (by simp), if_neg (by simp), if_pos rfl]
  rfl

theorem closingQuote_printChar (c : UInt8) (rest : Text) (position : Nat) :
    closingQuote doubleQuote 1 (printChar c ++ rest) position =
      closingQuote doubleQuote 1 rest (position + (printChar c).length) := by
  have h := printedAs c
  generalize printChar c = print at h
  cases h with
  | itself hplain _ => exact closingQuote_plain hplain rest position
  | escape _ _ => exact closingQuote_escape _ rest position
  | number hplain _ _ _ =>
    have hdigits := (forall_mem_cons.mp hplain).2
    exact (closingQuote_escape _ _ position).trans (closingQuote_plains hdigits rest _)
  | carriageReturn _ => exact closingQuote_escape _ rest position

theorem closingQuote_printed (s following : Text) (position : Nat) :
    closingQuote doubleQuote 1 (s.flatMap printChar ++ doubleQuote :: following) position =
      some (position + (s.flatMap printChar).length) := by
  induction s generalizing position with
  | nil => simp [closingQuote_cons]
  | cons c s ih =>
    rw [flatMap_cons, append_assoc, closingQuote_printChar, ih, length_append, Nat.add_assoc]

theorem head?_printChar (c : UInt8) : (printChar c).head? ≠ some doubleQuote := by
  have h := printedAs c
  generalize printChar c = print at h
  cases h with
  | itself hplain _ => simpa using hplain.1
  | escape _ _ => simp
  | number _ _ _ _ => simp
  | carriageReturn _ => simp

theorem isCharCount_three {c d : UInt8} {rest : Text}
    (h : isCharCount c (c :: d :: rest) 0 3 = true) : d = c ∧ rest.head? = some c := by
  obtain ⟨rest', h⟩ := (isCharCount_iff c _ 3).mp h
  have htail : d :: rest = c :: c :: rest' := (List.cons.inj h).2
  obtain ⟨hd, hrest⟩ := List.cons.inj htail
  exact ⟨hd, by rw [hrest]; rfl⟩

/-- A printed string starts with three quotes only if it is empty and a quote follows. -/
theorem isCharCount_printed (s following : Text) :
    isCharCount doubleQuote (printQuotedString s ++ following) 0 3 = true ↔
      s = [] ∧ following.head? = some doubleQuote := by
  constructor
  · intro h
    cases s with
    | nil => exact ⟨rfl, (isCharCount_three h).2⟩
    | cons c s =>
      exfalso
      have hhead := head?_printChar c
      cases hprint : printChar c with
      | nil =>
        have hc := printedAs c
        rw [hprint] at hc
        cases hc
      | cons d ds =>
        have htext : printQuotedString (c :: s) ++ following =
            doubleQuote :: d :: (ds ++ s.flatMap printChar ++ [doubleQuote] ++ following) := by
          simp [printQuotedString, hprint]
        rw [htext] at h
        rw [hprint, (isCharCount_three h).1] at hhead
        exact hhead rfl
  · rintro ⟨rfl, hfollowing⟩
    obtain ⟨rest, rfl⟩ := head?_eq_some_iff.mp hfollowing
    exact (isCharCount_iff _ _ 3).mpr ⟨rest, rfl⟩

/-- The lexer finds a printed string, unless its two quotes are taken for the first two of three. -/
theorem isString_printed (before s following : Text) :
    isString (before ++ (printQuotedString s ++ following)) before.length =
        some (printQuotedString s).length ↔
      ¬ (s = [] ∧ following.head? = some doubleQuote) := by
  rw [← isCharCount_printed]
  have hquote : (before ++ (printQuotedString s ++ following)).drop before.length =
      doubleQuote :: (s.flatMap printChar ++ doubleQuote :: following) := by
    simp [printQuotedString]
  have hlength : (printQuotedString s).length = (s.flatMap printChar).length + 2 := by
    simp [printQuotedString]
  simp only [isString, hquote, head?_cons, ne_eq, not_true_eq_false, false_and, if_false,
    isCharCount_append, ← drop_drop]
  by_cases hthree : isCharCount doubleQuote (printQuotedString s ++ following) 0 3 = true
  · simp only [hthree, if_true, not_true_eq_false, iff_false]
    split
    · simp
    · next position hposition =>
      obtain ⟨rfl, -⟩ := (isCharCount_printed s following).mp hthree
      split
      · rw [Option.some.injEq, hlength]
        simp
      · simp
  · simp only [hthree, if_false, not_false_eq_true, iff_true, Bool.false_eq_true]
    rw [drop_one, tail_cons, closingQuote_printed]
    simp only [hlength, length_append]
    rw [if_pos (by omega)]
    congr 1
    omega

end Lexing

section Unescaping

theorem unescape_itself {c : UInt8} (h : c ≠ backslash) (rest : Text) :
    unescape (c :: rest) = (unescape rest).map (c :: ·) := by
  conv_lhs => unfold unescape
  exact if_pos h

theorem unescape_escape {d v : UInt8} (h : escaped d = .ok (some v)) (rest : Text) :
    unescape (backslash :: d :: rest) = (unescape rest).map (v :: ·) := by
  conv_lhs => unfold unescape
  simp [h]

theorem unescape_number {d₁ : UInt8} (h : escaped d₁ = .ok none) (d₂ d₃ : UInt8) (rest : Text) :
    unescape (backslash :: d₁ :: d₂ :: d₃ :: rest) =
      match parseOctal d₁ d₂ d₃ with
      | some v => (unescape rest).map (v :: ·)
      | none => .error " ill formed octal specifier" := by
  conv_lhs => unfold unescape
  simp [h]

theorem unescape_carriageReturn (rest : Text) :
    unescape (backslash :: 0x72 :: rest) = .error " ill formed octal specifier" := by
  have hescaped : escaped 0x72 = .ok none := rfl
  match rest with
  | [] => rfl
  | [_] => rfl
  | d₂ :: d₃ :: rest =>
    have hoctal : parseOctal 0x72 d₂ d₃ = none := by
      rw [parseOctal, if_neg fun h => absurd h.1 (by decide)]
    rw [unescape_number hescaped, hoctal]

theorem map_cons_eq_ok {x : Except String Text} {c : UInt8} {s : Text} :
    x.map (c :: ·) = .ok (c :: s) ↔ x = .ok s := by
  cases x with
  | error message => simp [Except.map]
  | ok t => simp [Except.map]

/-- Reading back one printed character gives it, or fails on its escape. -/
theorem unescape_printChar (c : UInt8) (rest : Text) :
    (Readable c ∧ unescape (printChar c ++ rest) = (unescape rest).map (c :: ·)) ∨ (¬ Readable c ∧
        unescape (printChar c ++ rest) = .error " ill formed octal specifier") := by
  have h := printedAs c
  generalize printChar c = print at h
  cases h with
  | itself hplain hreadable => exact .inl ⟨hreadable, unescape_itself hplain.2.2 rest⟩
  | escape hescaped hreadable => exact .inl ⟨hreadable, unescape_escape hescaped rest⟩
  | @number d₁ d₂ d₃ _ hescaped hoctal hreturn =>
    have hunescape := unescape_number hescaped d₂ d₃ rest
    rw [hoctal] at hunescape
    by_cases hascii : c < 0x80
    · rw [if_pos hascii] at hunescape
      exact .inl ⟨⟨hreturn, hascii⟩, hunescape⟩
    · rw [if_neg hascii] at hunescape
      exact .inr ⟨fun hreadable => hascii hreadable.2, hunescape⟩
  | carriageReturn hreturn =>
    exact .inr ⟨fun hreadable => hreadable.1 hreturn, unescape_carriageReturn rest⟩

theorem unescape_printed (s : Text) :
    unescape (s.flatMap printChar) = .ok s ↔ ∀ c ∈ s, Readable c := by
  induction s with
  | nil => simp [unescape]
  | cons c s ih =>
    rw [flatMap_cons, forall_mem_cons, ← ih]
    rcases unescape_printChar c (s.flatMap printChar) with ⟨hreadable, h⟩ | ⟨hreadable, h⟩
    · rw [h, map_cons_eq_ok]
      exact (and_iff_right hreadable).symm
    · rw [h]
      exact iff_of_false (nofun) (fun hs => hreadable hs.1)

theorem parseStringLiteral_printed (s : Text) :
    parseStringLiteral (printQuotedString s) = unescape (s.flatMap printChar) := by
  have hshort : ¬ isCharCount doubleQuote (printQuotedString s) 0 3 = true := by
    have h := (isCharCount_printed s []).not.mpr (by simp)
    rwa [append_nil] at h
  have hhead : (printQuotedString s).headD 0 = doubleQuote := rfl
  rw [parseStringLiteral, hhead, if_neg hshort]
  simp [printQuotedString]

end Unescaping

section RoundTrip

/-- The printed string, at the place behind `before`, is recognised as one literal of its
length, and the text of that literal is read as the string. -/
def RoundTrips (before s following : Text) : Prop :=
  let text := before ++ (printQuotedString s ++ following)
  let length := (printQuotedString s).length
  isString text before.length = some length ∧
    parseStringLiteral ((text.drop before.length).take length) = .ok s

instance (before s following : Text) : Decidable (RoundTrips before s following) :=
  inferInstanceAs (Decidable (_ ∧ _))

/-- A string comes back if and only if it is ASCII without carriage returns, and not empty
in front of a quote. -/
theorem stringLiteral_roundTrips_iff (before s following : Text) : RoundTrips before s following ↔
      (∀ c ∈ s, c ≠ 0x0D ∧ c < 0x80) ∧ ¬ (s = [] ∧ following.head? = some doubleQuote) := by
  have htoken : ((before ++ (printQuotedString s ++ following)).drop before.length).take
      (printQuotedString s).length = printQuotedString s := by
    rw [drop_left, take_left]
  simp only [RoundTrips, htoken]
  rw [isString_printed, parseStringLiteral_printed, unescape_printed, and_comm]
  rfl

/-- A carriage return, a byte beyond ASCII, and the empty string in front of a quote. -/
theorem stringLiteral_roundTrips_broken : ¬ RoundTrips [] [0x0D] [] ∧ ¬ RoundTrips [] [0xE9] [] ∧
      ¬ RoundTrips [] [] [doubleQuote] := by
  decide

end RoundTrip

end PyTorchCore.Frontend
