namespace InfixCalculator.Text

/-! Blank characters: the 25 code points that Unicode gives the property White_Space. -/

/-- The runs of blank code points, each with its first and last. -/
def blankRuns : List (Nat × Nat) :=
  [(0x9, 0xd), (0x20, 0x20), (0x85, 0x85), (0xa0, 0xa0), (0x1680, 0x1680), (0x2000, 0x200a),
    (0x2028, 0x2029), (0x202f, 0x202f), (0x205f, 0x205f), (0x3000, 0x3000)]

def isBlank (c : Char) : Bool :=
  blankRuns.any fun (first, last) => decide (first ≤ c.toNat) && decide (c.toNat ≤ last)

def trim (text : List Char) : List Char :=
  ((text.dropWhile isBlank).reverse.dropWhile isBlank).reverse

/-- The characters that are not blank, each with its offset in the text. -/
def marks (text : List Char) : List (Char × Nat) :=
  text.zipIdx.filter fun (c, _) => !isBlank c

end InfixCalculator.Text
