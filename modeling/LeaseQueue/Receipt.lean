import LeaseQueue.Message
import LeaseQueue.Text.Base64

/-
  Receipts: what a consumer shows to acknowledge or revise a delivery.

  A receipt names the index, version and tag of the message it was issued for,
  and is good as long as the stored message has all three. It travels as the
  base64 form of `index:version:tag`, the first two in decimal.
-/

namespace LeaseQueue

/-- What a consumer holds of a delivery. -/
structure Receipt where
  index : UInt64
  version : UInt64
  tag : Tag
  deriving DecidableEq, Repr

namespace Receipt

/-- The three fields, in their order in the text. -/
inductive Field where
  | index
  | version
  | tag
  deriving DecidableEq, Repr

def Field.name : Field → String
  | .index => "index"
  | .version => "version"
  | .tag => "tag"

/-- Why a text is not a receipt. -/
inductive Fault where
  | base64
  | utf8
  /-- The text does not have three fields but `found`. -/
  | malformed (found : Nat)
  | field (field : Field)
  deriving DecidableEq, Repr

def Fault.message : Fault → String
  | .base64 => "invalid base64"
  | .utf8 => "invalid utf-8"
  | .malformed found => "malformed receipt: expected 3 fields, found " ++ toString found
  | .field f => "invalid " ++ f.name

def of (m : Message) : Receipt := ⟨m.index, m.version, m.tag⟩

/-- Still good for the message. -/
def fits (r : Receipt) (m : Message) : Bool :=
  r.index = m.index && r.version = m.version && r.tag = m.tag

/-- The three fields between colons. -/
def plain (r : Receipt) : String :=
  Numeral.decimal r.index ++ ":" ++ Numeral.decimal r.version ++ ":" ++ r.tag.text

def encode (r : Receipt) : String := String.ofList (Base64.encode r.plain.toUTF8.toList)

/-- The pieces between separators, at least one. -/
def pieces (separator : Char) : List Char → List (List Char)
  | [] => [[]]
  | c :: rest =>
    if c = separator then [] :: pieces separator rest
    else
      match pieces separator rest with
      | [] => [[c]]
      | piece :: more => (c :: piece) :: more

/-- Reads a field of digits in the given radix; a sign is no digit here. -/
def readField (field : Field) (radix : Nat) (text : List Char) : Except Fault UInt64 :=
  if text.all Numeral.isHexDigit then
    match Numeral.read radix text with
    | .ok n => .ok n
    | .error _ => .error (.field field)
  else .error (.field field)

/-- Reads the three fields from left to right. -/
def ofPlain (text : List Char) : Except Fault Receipt :=
  match pieces ':' text with
  | [index, version, tag] => do
    let index ← readField .index 10 index
    let version ← readField .version 10 version
    let tag ← readField .tag 16 tag
    return ⟨index, version, ⟨tag⟩⟩
  | fields => .error (.malformed fields.length)

def decode (text : String) : Except Fault Receipt :=
  match Base64.decode text.toList with
  | none => .error .base64
  | some bytes =>
    match String.fromUTF8? bytes.toByteArray with
    | none => .error .utf8
    | some plain => ofPlain plain.toList

end Receipt

end LeaseQueue
