import PartitionLog.Bytes

/-!
# Bytes shown as text

`Bytes.shown` reads bytes as UTF-8. Where they are none, the longest piece that could still have
become a character is shown as one replacement character. The bytes of a character are read one by
one; an `Unfinished` character knows which byte may come next.
-/

namespace PartitionLog.Bytes

/-- A character of which the first bytes were read. -/
structure Unfinished where
  /-- The bits read so far. -/
  value : Nat
  /-- Bytes missing after the next one. -/
  more : Nat
  /-- The range of the next byte. -/
  low : UInt8 := 0x80
  high : UInt8 := 0xBF
  deriving DecidableEq, Repr

def replacement : Char := '\ufffd'

/-- The character that a first byte starts, if it starts one of several bytes. The range of the
second byte leaves out what has a shorter form, surrogates and all above the last character. -/
def Unfinished.start? (b : UInt8) : Option Unfinished :=
  if 0xC2 ≤ b ∧ b ≤ 0xDF then some { value := b.toNat - 0xC0, more := 0 }
  else if b = 0xE0 then some { value := 0, more := 1, low := 0xA0 }
  else if b = 0xED then some { value := 0xD, more := 1, high := 0x9F }
  else if 0xE1 ≤ b ∧ b ≤ 0xEF then some { value := b.toNat - 0xE0, more := 1 }
  else if b = 0xF0 then some { value := 0, more := 2, low := 0x90 }
  else if 0xF1 ≤ b ∧ b ≤ 0xF3 then some { value := b.toNat - 0xF0, more := 2 }
  else if b = 0xF4 then some { value := 4, more := 2, high := 0x8F }
  else none

/-- The characters that end with a first byte, and the one that it starts. -/
def showFirst (b : UInt8) : List Char × Option Unfinished :=
  if b < 0x80 then ([Char.ofNat b.toNat], none)
  else match Unfinished.start? b with
    | some u => ([], some u)
    | none => ([replacement], none)

/-- The characters that end with a byte. -/
def showNext (pending : Option Unfinished) (b : UInt8) : List Char × Option Unfinished :=
  match pending with
  | none => showFirst b
  | some u =>
    if u.low ≤ b ∧ b ≤ u.high then
      let value := u.value * 64 + (b.toNat - 0x80)
      match u.more with
      | 0 => ([Char.ofNat value], none)
      | more + 1 => ([], some { value := value, more := more })
    else
      let (chars, pending) := showFirst b
      (replacement :: chars, pending)

def showFrom (pending : Option Unfinished) : Bytes → List Char
  | [] => if pending.isSome then [replacement] else []
  | b :: rest =>
    let (chars, pending) := showNext pending b
    chars ++ showFrom pending rest

def shown (bytes : Bytes) : String := String.ofList (showFrom none bytes)

end PartitionLog.Bytes
