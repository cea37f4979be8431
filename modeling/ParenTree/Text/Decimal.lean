import ParenTree.Text.Blank

-- Whole numbers as people type them: blanks around, a sign, digits of any script, and single underscores between digits.

namespace ParenTree.Text

-- The zeros of all scripts of Unicode 14 that count by ten; the nine digits after each follow it in order.
def decimalZeros : List Nat :=
  [0x30, 0x660, 0x6f0, 0x7c0, 0x966, 0x9e6, 0xa66, 0xae6, 0xb66, 0xbe6,
   0xc66, 0xce6, 0xd66, 0xde6, 0xe50, 0xed0, 0xf20, 0x1040, 0x1090, 0x17e0,
   0x1810, 0x1946, 0x19d0, 0x1a80, 0x1a90, 0x1b50, 0x1bb0, 0x1c40, 0x1c50, 0xa620,
   0xa8d0, 0xa900, 0xa9d0, 0xa9f0, 0xaa50, 0xabf0, 0xff10, 0x104a0, 0x10d30, 0x11066,
   0x110f0, 0x11136, 0x111d0, 0x112f0, 0x11450, 0x114d0, 0x11650, 0x116c0, 0x11730, 0x118e0,
   0x11950, 0x11c50, 0x11d50, 0x11da0, 0x16a60, 0x16ac0, 0x16b50, 0x1d7ce, 0x1d7d8, 0x1d7e2,
   0x1d7ec, 0x1d7f6, 0x1e140, 0x1e2f0, 0x1e950, 0x1fbf0]

def digitValue? (c : Char) : Option Nat :=
  (decimalZeros.find? fun z => z ≤ c.toNat && c.toNat < z + 10).map (c.toNat - ·)

-- Blanks that may surround a number. The four separators from `0x1C` on are blanks elsewhere, but not here.
def isNumberMargin (c : Char) : Bool :=
  isBlank c && !(0x1C ≤ c.toNat && c.toNat ≤ 0x1F)

def readDigits : (last : Bool) → (count value : Nat) → List Char → Option (Nat × Nat)
  | last, count, value, [] => if last then some (count, value) else none
  | last, count, value, c :: cs =>
    if c = '_' then
      if last then readDigits false count value cs else none
    else
      match digitValue? c with
      | some d => readDigits true (count + 1) (10 * value + d) cs
      | none => none

def maxDigits : Nat := 4300

def readNatural? (cs : List Char) : Option Nat :=
  match readDigits false 0 0 cs with
  | some (count, value) => if count ≤ maxDigits then some value else none
  | none => none

def trimMargins (cs : List Char) : List Char :=
  ((cs.dropWhile isNumberMargin).reverse.dropWhile isNumberMargin).reverse

def readInteger? (s : String) : Option Int :=
  match trimMargins s.toList with
  | '-' :: cs => (readNatural? cs).map fun n => -(n : Int)
  | '+' :: cs => (readNatural? cs).map fun n => (n : Int)
  | cs => (readNatural? cs).map fun n => (n : Int)

end ParenTree.Text
