set_option autoImplicit false

/-!
# Text: a byte in quotes

A byte shown as the character with that code point between single quotes.  The quote, the backslash
and the usual control characters have a short escape; every other character that would not show is
written as a code point in braces, in hexadecimal without leading zeros.
-/

namespace TapeMachine.Text.Quoted

/-- The character of this byte does not show: a control character, the no-break space or the soft
hyphen. -/
def isHidden (b : UInt8) : Bool := b < 0x20 || (0x7F ≤ b && b ≤ 0xA0) || b == 0xAD

/-- The byte as hexadecimal digits, in lower case and without leading zeros. -/
def hex (b : UInt8) : List Char := Nat.toDigits 16 b.toNat

/-- The byte as it stands between the quotes. -/
def body (b : UInt8) : List Char :=
  if b = 0 then ['\\', '0']
  else if b = 9 then ['\\', 't']
  else if b = 10 then ['\\', 'n']
  else if b = 13 then ['\\', 'r']
  else if b = 39 then ['\\', '\'']
  else if b = 92 then ['\\', '\\']
  else if isHidden b then ['\\', 'u', '\x7b'] ++ hex b ++ ['\x7d']
  else [Char.ofUInt8 b]

/-- The byte in single quotes. -/
def byte (b : UInt8) : List Char := '\'' :: body b ++ ['\'']

example : byte 65 = "'A'".toList := by decide

example : byte 0xA0 = "'\\u\x7ba0\x7d'".toList := by decide

/-- No byte breaks the line it is shown on. -/
theorem newline_notMem_byte (b : UInt8) : '\n' ∉ byte b := by
  have all : ∀ n : Fin 256, '\n' ∉ byte (UInt8.ofNat n.val) := by decide +kernel
  simpa using all ⟨b.toNat, b.toNat_lt⟩

end TapeMachine.Text.Quoted
