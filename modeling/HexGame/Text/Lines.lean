/-!
# Lines, blanks and words

Text is taken apart as a list of characters. Blanks are the characters with the Unicode property
White_Space, and a final line end starts no further line.
-/
namespace HexGame
namespace Text

/-- The Unicode property White_Space. -/
def isBlank (c : Char) : Bool :=
  let n := c.toNat
  (9 ≤ n && n ≤ 13) || n = 0x20 || n = 0x85 || n = 0xA0 || n = 0x1680 ||
    (0x2000 ≤ n && n ≤ 0x200A) || n = 0x2028 || n = 0x2029 || n = 0x202F || n = 0x205F ||
    n = 0x3000

def trimLeft (s : List Char) : List Char := s.dropWhile isBlank

def trim (s : List Char) : List Char := (trimLeft (trimLeft s).reverse).reverse

/-- The lines of a text, given the beginning of its first line in reverse. -/
def linesFrom (started : List Char) : List Char → List (List Char)
  | [] => if started.isEmpty then [] else [started.reverse]
  | c :: s => if c = '\n' then started.reverse :: linesFrom [] s else linesFrom (c :: started) s

def lines (s : List Char) : List (List Char) := linesFrom [] s

/-- The words of a text, given the beginning of its first word in reverse. -/
def wordsFrom (started : List Char) : List Char → List (List Char)
  | [] => if started.isEmpty then [] else [started.reverse]
  | c :: s =>
    if isBlank c then
      if started.isEmpty then wordsFrom [] s else started.reverse :: wordsFrom [] s
    else wordsFrom (c :: started) s

def words (s : List Char) : List (List Char) := wordsFrom [] s

end Text
end HexGame
