import LeaseQueue.Text.Numeral

/-
  Tags: random words that tell apart the messages written at one index.

  Versions start again at zero when an index is written again after its queue
  was dropped, so the tag is what separates the old message from the new one.
-/

namespace LeaseQueue

/-- The token drawn when a message is written. -/
structure Tag where
  word : UInt64
  deriving DecidableEq, Repr

/-- The text of a tag: sixteen lower-case hexadecimal digits. -/
def Tag.text (t : Tag) : String := String.ofList (Numeral.fixedHex 16 t.word.toNat)

/-- Reads a tag in hexadecimal, with any number of digits. -/
def Tag.read (text : String) : Except Numeral.Fault Tag :=
  (Numeral.read 16 text.toList).map Tag.mk

end LeaseQueue
