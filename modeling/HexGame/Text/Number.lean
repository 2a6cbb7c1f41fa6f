/-!
# Reading whole numbers

Digits are taken from left to right, so the first thing that is wrong decides how a text is refused.
-/
namespace HexGame
namespace Text

inductive NumberFlaw where
  | empty
  | invalidDigit
  | tooLarge
  deriving DecidableEq, Repr

def NumberFlaw.message : NumberFlaw → String
  | empty => "cannot parse integer from empty string"
  | invalidDigit => "invalid digit found in string"
  | tooLarge => "number too large to fit in target type"

/-- Takes further digits, up to the largest number there is a place for. -/
def readDigits (largest : Nat) (n : Nat) : List Char → Except NumberFlaw Nat
  | [] => .ok n
  | c :: s =>
    if c.isDigit then
      let n := 10 * n + (c.toNat - '0'.toNat)
      if largest < n then .error .tooLarge else readDigits largest n s
    else .error .invalidDigit

def readNat (largest : Nat) : List Char → Except NumberFlaw Nat
  | [] => .error .empty
  | ['+'] => .error .invalidDigit
  | '+' :: s => readDigits largest 0 s
  | s => readDigits largest 0 s

def maxWord : Nat := UInt64.size - 1

end Text
end HexGame
