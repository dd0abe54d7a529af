/-!
Interchange documents: nested arrays and objects of texts, numbers and truth values. An object
keeps its members in the order of the document, repeated keys included.
-/

namespace Fabric

/-- A document. A number with a fraction or an exponent, and negative zero, is kept as its text:
no field of an interchange form holds one. A foreign value is one that can be passed over but not
decoded: a date, a text that is no sequence of characters, or an object with such a key. -/
inductive Json
  | null
  | bool (value : Bool)
  | int (value : Int)
  | real (text : String)
  | str (text : String)
  | arr (items : List Json)
  | obj (members : List (String × Json))
  | foreign
deriving Repr, Inhabited

namespace Json

mutual

/-- How many arrays and objects stand inside each other, at most. -/
def depth : Json → Nat
  | .arr items => depthItems items + 1
  | .obj members => depthMembers members + 1
  | _ => 0

def depthItems : List Json → Nat
  | [] => 0
  | j :: js => max j.depth (depthItems js)

def depthMembers : List (String × Json) → Nat
  | [] => 0
  | (_, j) :: ms => max j.depth (depthMembers ms)

end

/-- The value of a key; the first one if it is repeated. -/
def get? (j : Json) (key : String) : Option Json :=
  match j with
  | .obj members => members.lookup key
  | _ => none

end Json

end Fabric
