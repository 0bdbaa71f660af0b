namespace BoolPoly.Text

/-- Why a text is no number below the bound. -/
inductive NumberError where
  | empty
  | invalidDigit
  | tooLarge
deriving DecidableEq, Repr

def NumberError.message : NumberError → String
  | empty => "cannot parse integer from empty string"
  | invalidDigit => "invalid digit found in string"
  | tooLarge => "number too large to fit in target type"

/-- The value of an ASCII decimal digit. -/
def digitValue? (c : Char) : Option Nat := if c.isDigit then some (c.toNat - '0'.toNat) else none

/-- Reads the digits that follow a number with value `n`, from left to right. The first problem met is reported; at
one position, a character that is no digit counts before a value that has become too large. -/
def readDigits (bound n : Nat) : List Char → Except NumberError Nat
  | [] => .ok n
  | c :: cs =>
    match digitValue? c with
    | none => .error .invalidDigit
    | some d => if 10 * n + d < bound then readDigits bound (10 * n + d) cs else .error .tooLarge

/-- Reads a number below `bound` that fills the whole text; leading zeros are allowed. -/
def readNumber (bound : Nat) : List Char → Except NumberError Nat
  | [] => .error .empty
  | cs => readDigits bound 0 cs

/-- A number that is read lies below the bound. -/
theorem lt_of_readDigits {bound n m : Nat} {cs : List Char} (hn : n < bound)
    (h : readDigits bound n cs = .ok m) : m < bound := by
  induction cs generalizing n with
  | nil => exact Except.ok.inj h ▸ hn
  | cons c cs ih =>
    simp only [readDigits] at h
    split at h
    · cases h
    · split at h
      · next hlt => exact ih hlt h
      · cases h

end BoolPoly.Text
