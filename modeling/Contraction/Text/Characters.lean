/-!
# Characters

Three classes of Unicode characters, and what is done with them.

* Blanks are the white space characters. An expression is read with every blank left out, and a
  number or a label given on its own is read with the blanks at both ends left out.
* Decimal digits come in sets of ten, one for each of many scripts (the category Nd). A set is ten
  consecutive code points in rising order, so the code point of its zero says it all.
* Upper case letters whose lower case is an ASCII letter: those of ASCII, and the Kelvin sign. A
  name written in ASCII is met by a text in any case exactly when the text is the name after
  `lower`.
-/

namespace Contraction.Text

/-! ## Blanks -/

/-- A white space character of Unicode. The information separators U+001C to U+001F and the next
line control U+0085 count; the zero width characters U+180E, U+200B and U+FEFF do not. -/
def isBlank (c : Char) : Bool :=
  let n := c.toNat
  (0x09 ≤ n && n ≤ 0x0D) || (0x1C ≤ n && n ≤ 0x20) || n == 0x85 || n == 0xA0 || n == 0x1680 ||
    (0x2000 ≤ n && n ≤ 0x200A) || n == 0x2028 || n == 0x2029 || n == 0x202F || n == 0x205F ||
    n == 0x3000

/-- The text with every blank left out. -/
def withoutBlanks (text : String) : String :=
  String.ofList (text.toList.filter (!isBlank ·))

/-- The characters between the first and the last one that `drop` does not hold of. -/
def trimList (drop : Char → Bool) (cs : List Char) : List Char :=
  ((cs.dropWhile drop).reverse.dropWhile drop).reverse

theorem withoutBlanks_toList (text : String) :
    (withoutBlanks text).toList = text.toList.filter (!isBlank ·) := by
  simp [withoutBlanks]

theorem not_isBlank_of_mem_withoutBlanks {text : String} {c : Char}
    (h : c ∈ (withoutBlanks text).toList) : isBlank c = false := by
  rw [withoutBlanks_toList, List.mem_filter, Bool.not_eq_true'] at h
  exact h.2

/-! ## Decimal digits -/

/-- The zeros of the sets of decimal digits. -/
def digitZeros : List Nat :=
  [0x0030, 0x0660, 0x06F0, 0x07C0, 0x0966, 0x09E6, 0x0A66, 0x0AE6, 0x0B66, 0x0BE6, 0x0C66, 0x0CE6,
   0x0D66, 0x0DE6, 0x0E50, 0x0ED0, 0x0F20, 0x1040, 0x1090, 0x17E0, 0x1810, 0x1946, 0x19D0, 0x1A80,
   0x1A90, 0x1B50, 0x1BB0, 0x1C40, 0x1C50, 0xA620, 0xA8D0, 0xA900, 0xA9D0, 0xA9F0, 0xAA50, 0xABF0,
   0xFF10, 0x104A0, 0x10D30, 0x11066, 0x110F0, 0x11136, 0x111D0, 0x112F0, 0x11450, 0x114D0,
   0x11650, 0x116C0, 0x11730, 0x118E0, 0x11950, 0x11C50, 0x11D50, 0x11DA0, 0x16A60, 0x16AC0,
   0x16B50, 0x1D7CE, 0x1D7D8, 0x1D7E2, 0x1D7EC, 0x1D7F6, 0x1E140, 0x1E2F0, 0x1E950, 0x1FBF0]

/-- The value of a decimal digit of any script. -/
def digitValue? (c : Char) : Option Nat :=
  (digitZeros.find? fun first => first ≤ c.toNat && c.toNat < first + 10).map (c.toNat - ·)

theorem digitValue?_lt {c : Char} {d : Nat} (h : digitValue? c = some d) : d < 10 := by
  obtain ⟨first, found, rfl⟩ := Option.map_eq_some_iff.mp h
  have := List.find?_some found
  simp only [Bool.and_eq_true, decide_eq_true_eq] at this
  omega

def isDecimalDigit (c : Char) : Bool :=
  (digitValue? c).isSome

/-- The number of digits up to which integers are read and written. -/
def digitLimit : Nat := 4300

/-- The number that a run of decimal digits stands for in base ten. -/
def ofDigits (ds : List Nat) : Nat :=
  ds.foldl (fun n d => 10 * n + d) 0

/-- The values of the characters, when all of them are decimal digits. -/
def digitValues? (cs : List Char) : Option (List Nat) :=
  cs.mapM digitValue?

/-- The values of the digits at the front, and what follows them. -/
def leadingDigits (cs : List Char) : List Nat × List Char :=
  ((cs.takeWhile isDecimalDigit).filterMap digitValue?, cs.dropWhile isDecimalDigit)

/-! ## Lower case -/

/-- The lower case of a letter, where that is an ASCII letter. -/
def lowerChar (c : Char) : Char :=
  if c.toNat == 0x212A then 'k' else c.toLower

/-- The text with the letters in lower case whose lower case is ASCII. -/
def lower (text : String) : String :=
  text.map lowerChar

end Contraction.Text
