/-! Blank characters and their removal. -/
namespace DiceAlgebra.Text

/-- The code points with the Unicode property White_Space. -/
def blankRanges : List (Nat × Nat) :=
  [(0x09, 0x0D), (0x20, 0x20), (0x85, 0x85), (0xA0, 0xA0), (0x1680, 0x1680), (0x2000, 0x200A),
    (0x2028, 0x2029), (0x202F, 0x202F), (0x205F, 0x205F), (0x3000, 0x3000)]

def isBlank (c : Char) : Bool :=
  blankRanges.any fun range => range.1 ≤ c.toNat && c.toNat ≤ range.2

def squeeze (text : String) : String :=
  String.ofList (text.toList.filter fun c => !isBlank c)

def trim (text : String) : String :=
  String.ofList ((text.toList.dropWhile isBlank).reverse.dropWhile isBlank).reverse

@[simp] theorem toList_squeeze (text : String) :
    (squeeze text).toList = text.toList.filter fun c => !isBlank c :=
  String.toList_ofList

theorem squeeze_squeeze (text : String) : squeeze (squeeze text) = squeeze text := by
  simp [squeeze]

end DiceAlgebra.Text
