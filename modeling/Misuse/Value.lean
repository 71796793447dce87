import Misuse.Integer
import Misuse.Text.Basic
import Misuse.Text.Pieces

/-!
# Values

What the extraction knows of the values that reach a call: constants, identities of
runtime objects, or nothing. A constant has an integer, a text and a length where it
makes sense; integers may also be spelled as text.
-/

namespace Misuse

/-- A literal of the analysed program. -/
inductive Constant where
  | int (value : Int)
  | bool (value : Bool)
  | text (value : String)
  | array (items : List Constant)
  | null
  deriving Repr, Inhabited

namespace Constant

mutual

def decEq : (a b : Constant) → Decidable (a = b)
  | .int m, .int n => if h : m = n then isTrue (h ▸ rfl) else isFalse (by simp [h])
  | .bool m, .bool n => if h : m = n then isTrue (h ▸ rfl) else isFalse (by simp [h])
  | .text m, .text n => if h : m = n then isTrue (h ▸ rfl) else isFalse (by simp [h])
  | .null, .null => isTrue rfl
  | .array xs, .array ys =>
    match decEqItems xs ys with
    | isTrue h => isTrue (h ▸ rfl)
    | isFalse h => isFalse (by simp [h])
  | .int _, .bool _ | .int _, .text _ | .int _, .array _ | .int _, .null
  | .bool _, .int _ | .bool _, .text _ | .bool _, .array _ | .bool _, .null
  | .text _, .int _ | .text _, .bool _ | .text _, .array _ | .text _, .null
  | .array _, .int _ | .array _, .bool _ | .array _, .text _ | .array _, .null
  | .null, .int _ | .null, .bool _ | .null, .text _ | .null, .array _ => isFalse nofun

def decEqItems : (xs ys : List Constant) → Decidable (xs = ys)
  | [], [] => isTrue rfl
  | x :: xs, y :: ys =>
    match decEq x y, decEqItems xs ys with
    | isTrue h, isTrue h' => isTrue (h ▸ h' ▸ rfl)
    | isFalse h, _ => isFalse (by simp [h])
    | _, isFalse h => isFalse (by simp [h])
  | [], _ :: _ | _ :: _, [] => isFalse nofun

end

instance : DecidableEq Constant := decEq

def boolText (b : Bool) : String := if b then "true" else "false"

/-- The integer a constant is or spells. -/
def asInt? : Constant → Option Int
  | .int n => some n
  | .text s => Integer.ofText? s
  | _ => none

/-- The text of a string, integer or truth value. -/
def asText? : Constant → Option String
  | .text s => some s
  | .int n => some (toString n)
  | .bool b => some (boolText b)
  | _ => none

/-- Characters of a text, items of an array. -/
def length? : Constant → Option Nat
  | .text s => some s.toList.length
  | .array items => some items.length
  | _ => none

/-- A text stands between quotes as it is, an array shows only its size. -/
def display : Constant → String
  | .int n => toString n
  | .bool b => boolText b
  | .text s => "\"" ++ s ++ "\""
  | .array items => "[" ++ toString items.length ++ " elements]"
  | .null => "null"

end Constant

inductive Content where
  | constant (value : Constant)
  /-- An object of the run, known by identity only. -/
  | object (id : String)
  | unknown
  deriving DecidableEq, Repr, Inhabited

/-- A value at a call site, with its static type if the extraction propagated one. -/
structure Value where
  content : Content
  staticType : Option String
  deriving DecidableEq, Repr, Inhabited

namespace Value

/-- The value of a query that could not be answered. -/
def unresolved : Value := ⟨.unknown, none⟩

def constant? (v : Value) : Option Constant :=
  match v.content with
  | .constant c => some c
  | _ => none

def isResolved (v : Value) : Bool :=
  match v.content with
  | .unknown => false
  | _ => true

end Value

/-! ## Cuts -/

/-- One piece of a delimited text: `AES/CBC` cut at `/` has `CBC` at index 1. -/
structure Cut where
  index : Nat
  delimiter : String
  deriving DecidableEq, Repr, Inhabited

namespace Cut

/-- The piece at the index, blanks around it dropped. -/
def piece? (cut : Cut) (text : String) : Option String :=
  ((Text.pieces cut.delimiter.toList text.toList)[cut.index]?).map fun piece =>
    String.ofList (Text.trimChars piece)

end Cut

/-- The cut, if there is one. -/
def cutText? (cut : Option Cut) (text : String) : Option String :=
  match cut with
  | some c => c.piece? text
  | none => some text

end Misuse
