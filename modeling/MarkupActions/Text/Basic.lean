/-!
# Text

A text is its list of characters. Scanners below take a text to be what is left to read, and report
how many characters they pass over; sizes in bytes are computed only where an answer gives an
offset.
-/

namespace MarkupActions

/-- Text as the scanners read it, one character at a time. -/
abbrev Text := List Char

/-- What holds of all characters of a text is decided by going through the text, not through all
characters. -/
instance (priority := high) decidableForallMem (p : Char → Prop) [DecidablePred p] (s : Text) :
    Decidable (∀ c ∈ s, p c) := List.decidableBAll p s

namespace Text

/-- White space: the White_Space property of Unicode. -/
def isBlank (c : Char) : Bool :=
  let n := c.val
  (0x09 ≤ n && n ≤ 0x0D) || n == 0x20 || n == 0x85 || n == 0xA0 || n == 0x1680 ||
    (0x2000 ≤ n && n ≤ 0x200A) || n == 0x2028 || n == 0x2029 || n == 0x202F || n == 0x205F ||
      n == 0x3000

/-- Space or tab: the white space that stays within a line. -/
def isSpaceOrTab (c : Char) : Bool := c == ' ' || c == '\t'

def trimStart (s : Text) : Text := s.dropWhile isBlank

def trimEnd (s : Text) : Text := (s.reverse.dropWhile isBlank).reverse

def trim (s : Text) : Text := trimEnd (trimStart s)

/-- A text less what is around it, if anything is left. -/
def trimmed? (s : Text) : Option Text :=
  let t := trim s
  if t.isEmpty then none else some t

/-- The pieces of a text between characters with the property; one more than there are such
characters. -/
def splitBy (p : Char → Bool) : Text → List Text
  | [] => [[]]
  | c :: s =>
    if p c then [] :: splitBy p s
    else match splitBy p s with
      | piece :: rest => (c :: piece) :: rest
      | [] => [[c]]

def rows (s : Text) : List Text := splitBy (· == '\n') s

/-- The words of a text: its pieces between white space, the empty ones left out. -/
def words (s : Text) : List Text := (splitBy isBlank s).filter (!·.isEmpty)

/-- A text less `t` at its end, if it ends so. -/
def beforeSuffix? (t s : Text) : Option Text :=
  (t.reverse.isPrefixOf? s.reverse).map List.reverse

def contains (t : Text) : Text → Bool
  | [] => t.isEmpty
  | c :: s => t.isPrefixOf (c :: s) || contains t s

/-- What follows the end of a line, with or without a carriage return. -/
def afterNewline? : Text → Option Text
  | '\r' :: '\n' :: s => some s
  | '\n' :: s => some s
  | _ => none

def occurrences (c : Char) (s : Text) : Nat := s.count c

def byteSize (s : Text) : Nat := s.foldr (fun c size => c.utf8Size + size) 0

/-- A text split where its first part reaches `n` bytes. -/
def splitAtByte : (n : Nat) → Text → Text × Text
  | 0, s => ([], s)
  | _ + 1, [] => ([], [])
  | n + 1, c :: s =>
    let (front, back) := splitAtByte (n + 1 - c.utf8Size) s
    (c :: front, back)

/-- The bytes of a text from the place `start` up to the place `stop`. -/
def slice (start stop : Nat) (s : Text) : Text :=
  (splitAtByte (stop - start) (splitAtByte start s).2).1

/-- A local change: at the head of a text, how many characters it takes and what it puts in their
place. -/
abbrev Patch := Text → Option (Nat × Text)

/-- Makes a local change wherever it can be made, from left to right. What it has put in is not
looked at again. -/
def patchAll (patch : Patch) : Text → Text
  | [] => []
  | c :: s =>
    match patch (c :: s) with
    | some (n, written) => written ++ patchAll patch (s.drop (n - 1))
    | none => c :: patchAll patch s
termination_by s => s.length
decreasing_by all_goals (simp only [List.length_drop, List.length_cons]; omega)

/-- Puts `new` for each occurrence of `old`. An empty `old` stands before each character and at the
end. -/
def replaceAll (old new : Text) (s : Text) : Text :=
  if old.isEmpty then s.flatMap (fun c => new ++ [c]) ++ new
  else patchAll (fun rest => if old.isPrefixOf rest then some (old.length, new) else none) s

end Text

end MarkupActions
