/-!
JSON values. Members of objects keep their order and repetitions; a number that is written with a
point or an exponent keeps its spelling. A text may have an escape that stands for no character;
then it cannot be read, but passed over where nothing reads it.
-/
namespace AspAtlas

/-- A JSON value. -/
inductive Json where
  | null
  | bool (value : Bool)
  | int (value : Int)
  | decimal (spelling : String)
  | str (text : String)
  | arr (items : List Json)
  | obj (members : List (String × Json))
  /-- A text that stands for no characters, or an object that has such a text for a key. -/
  | garbled
deriving Repr, Inhabited, BEq

namespace Json

/-- A natural number as a value. -/
def nat (n : Nat) : Json := int n

/-- A text or null. -/
def str? : Option String → Json
  | some text => str text
  | none => null

/-- The member of an object under a key; of repeated keys the last counts. -/
def member? (key : String) : Json → Option Json
  | obj members => (members.reverse.find? fun m => m.1 == key).map Prod.snd
  | _ => none

mutual

/-- How deeply lists and objects are nested. -/
def depth : Json → Nat
  | arr items => depthItems items + 1
  | obj members => depthMembers members + 1
  | _ => 0

/-- The greatest depth of some items. -/
def depthItems : List Json → Nat
  | [] => 0
  | item :: rest => max item.depth (depthItems rest)

/-- The greatest depth of some members. -/
def depthMembers : List (String × Json) → Nat
  | [] => 0
  | (_, item) :: rest => max item.depth (depthMembers rest)

end

mutual

/-- The value with repeated keys resolved: the last member under a key counts. -/
def withoutRepeats : Json → Json
  | arr items => arr (itemsWithoutRepeats items)
  | obj members => obj (membersWithoutRepeats members)
  | other => other

/-- Items with repeated keys resolved. -/
def itemsWithoutRepeats : List Json → List Json
  | [] => []
  | item :: rest => item.withoutRepeats :: itemsWithoutRepeats rest

/-- Members with repeated keys resolved. -/
def membersWithoutRepeats : List (String × Json) → List (String × Json)
  | [] => []
  | (key, item) :: rest =>
    let rest' := membersWithoutRepeats rest
    if rest.any fun m => m.1 == key then rest' else (key, item.withoutRepeats) :: rest'

end

mutual

/-- Lays `top` over `base`: objects are combined key by key, anything else is replaced. -/
def overlay (base : Json) : Json → Json
  | obj members =>
    match base with
    | obj below => obj (overlayMembers below members)
    | _ => obj members
  | other => other

/-- Lays members over those of an object. -/
def overlayMembers (below : List (String × Json)) : List (String × Json) → List (String × Json)
  | [] => below
  | (key, item) :: rest =>
    let below :=
      if below.any fun m => m.1 == key then
        below.map fun m => if m.1 == key then (key, overlay m.2 item) else m
      else below ++ [(key, item)]
    overlayMembers below rest

end

end Json
end AspAtlas
