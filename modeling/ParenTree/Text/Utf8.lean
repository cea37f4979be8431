import ParenTree.Text.Quoted

-- UTF-8. A first byte tells how many bytes follow it and in which range the next one must be, so that every character has one
-- encoding. What is not such a sequence is a fault that covers the bytes which did fit.

namespace ParenTree.Utf8

inductive Reason
  | startByte
  | continuationByte
  | endOfData
deriving DecidableEq, Repr

def Reason.text : Reason → String
  | startByte => "invalid start byte"
  | continuationByte => "invalid continuation byte"
  | endOfData => "unexpected end of data"

-- Bytes that make no character: `length` of them from `start` on, of which `first` is the first.
structure Fault where
  reason : Reason
  first : UInt8
  start : Nat
  length : Nat
deriving DecidableEq, Repr

namespace Fault

def place (f : Fault) : String :=
  if f.length = 1 then
    "byte 0x" ++ .ofList (Text.hexDigits 2 f.first.toNat) ++ " in position " ++ toString f.start
  else "bytes in position " ++ toString f.start ++ "-" ++ toString (f.start + f.length - 1)

def message (f : Fault) : String :=
  "'utf-8' codec can't decode " ++ f.place ++ ": " ++ f.reason.text

end Fault

abbrev Range := Nat × Nat

def anyTail : Range := (0x80, 0xBF)

-- What may follow a first byte of a sequence of three or four: no longer form of a shorter sequence, no surrogate, and nothing
-- behind the last code point.
def second (b : Nat) : Range :=
  if b = 0xE0 then (0xA0, 0xBF)
  else if b = 0xED then (0x80, 0x9F)
  else if b = 0xF0 then (0x90, 0xBF)
  else if b = 0xF4 then (0x80, 0x8F)
  else anyTail

def lead? (b : Nat) : Option (Nat × List Range) :=
  if b < 0x80 then some (b, [])
  else if b < 0xC2 then none
  else if b < 0xE0 then some (b - 0xC0, [anyTail])
  else if b < 0xF0 then some (b - 0xE0, [second b, anyTail])
  else if b < 0xF5 then some (b - 0xF0, [second b, anyTail, anyTail])
  else none

def fitting : List Range → List UInt8 → List UInt8
  | (low, high) :: ranges, b :: bs => if low ≤ b.toNat && b.toNat ≤ high then b :: fitting ranges bs else []
  | _, _ => []

def first (b : UInt8) (bs : List UInt8) : Except (Reason × Nat) (Char × Nat) :=
  match lead? b.toNat with
  | none => .error (.startByte, 1)
  | some (bits, ranges) =>
    let tail := fitting ranges bs
    if tail.length = ranges.length then
      .ok (.ofNat (tail.foldl (fun n b => 64 * n + b.toNat % 64) bits), tail.length)
    else if tail.length = bs.length then .error (.endOfData, 1 + tail.length)
    else .error (.continuationByte, 1 + tail.length)

def decodeFrom (start : Nat) (found : List Char) : List UInt8 → Except Fault (List Char)
  | [] => .ok found.reverse
  | b :: bs =>
    match first b bs with
    | .error (reason, length) => .error ⟨reason, b, start, length⟩
    | .ok (c, length) => decodeFrom (start + 1 + length) (c :: found) (bs.drop length)
termination_by bs => bs.length
decreasing_by simp only [List.length_drop, List.length_cons]; omega

def decode (bs : List UInt8) : Except Fault (List Char) :=
  decodeFrom 0 [] bs

end ParenTree.Utf8
