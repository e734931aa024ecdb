/-! # Hexadecimal text

Addresses, headers and register values are printed as lowercase hexadecimal numbers without
padding: `hex` gives the digits, `hex0x` puts `0x` in front of them. -/

namespace CaptureForest

/-- The lowercase hexadecimal digits of `n` without leading zeros; zero is the one digit `0`. -/
def hex (n : Nat) : String := String.ofList (Nat.toDigits 16 n)

/-- The digits of `n` after `0x`, the form of every address and value in a description. -/
def hex0x (n : Nat) : String := "0x" ++ hex n

end CaptureForest
