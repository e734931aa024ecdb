/-! # Bytes, words and text

Captured memory and call arguments are byte strings. `Word.toBytes` and `Word.ofBytes` are the
little-endian form of a 32-bit word, `Words.toBytes` and `Words.ofBytes` those of a list of
words, and `text?` reads bytes as UTF-8. -/

namespace CaptureForest

abbrev Bytes := Array UInt8

/-- The four bytes of a word, least significant first. -/
def Word.toBytes (w : UInt32) : List UInt8 :=
  [w.toUInt8, (w >>> 8).toUInt8, (w >>> 16).toUInt8, (w >>> 24).toUInt8]

/-- The word with these four bytes, least significant first. -/
def Word.ofBytes (b₀ b₁ b₂ b₃ : UInt8) : UInt32 :=
  b₀.toUInt32 ||| b₁.toUInt32 <<< 8 ||| b₂.toUInt32 <<< 16 ||| b₃.toUInt32 <<< 24

def Words.toBytes (ws : Array UInt32) : Bytes :=
  ws.foldl (fun bytes w => bytes ++ Word.toBytes w) #[]

/-- The word that starts at byte `i`, if all four of its bytes are there. -/
def Words.at? (bytes : Bytes) (i : Nat) : Option UInt32 :=
  if h : i + 3 < bytes.size then
    some (Word.ofBytes bytes[i] bytes[i + 1] bytes[i + 2] bytes[i + 3])
  else
    none

/-- The whole words of a byte string, in order; up to three bytes at its end are left out. -/
def Words.ofBytes (bytes : Bytes) : Array UInt32 :=
  Array.ofFn fun k : Fin (bytes.size / 4) =>
    Word.ofBytes bytes[4 * k.val] bytes[4 * k.val + 1] bytes[4 * k.val + 2] bytes[4 * k.val + 3]

/-- The text that the bytes encode in UTF-8, if they do. -/
def text? (bytes : Bytes) : Option String := String.fromUTF8? ⟨bytes⟩

def textBytes (s : String) : Bytes := s.toUTF8.data

end CaptureForest
