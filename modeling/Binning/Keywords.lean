import Binning.Error
import Binning.Text.Items

/-! Keywords given as a text such as `underflow=false, label=pt`. A consumer
takes the keywords it knows by name; `finish` refuses what is left over. -/
namespace Binning

/-- Keywords and their values, in the order of the names. -/
structure Keywords where
  entries : List (String × String) := []
  deriving DecidableEq

namespace Keywords

def insertEntry (name value : String) : List (String × String) → List (String × String)
  | [] => [(name, value)]
  | (other, old) :: rest =>
    if name < other then (name, value) :: (other, old) :: rest
    else if name = other then (name, value) :: rest
    else (other, old) :: insertEntry name value rest

def insert (k : Keywords) (name value : String) : Keywords := ⟨insertEntry name value k.entries⟩

def get? (k : Keywords) (name : String) : Option String := k.entries.lookup name

def erase (k : Keywords) (name : String) : Keywords := ⟨k.entries.filter (·.1 != name)⟩

/-- The value of a keyword, and the keywords without it. -/
def take (k : Keywords) (name : String) : Option String × Keywords := (k.get? name, k.erase name)

def parseItem? (item : List Char) : Option (String × String) :=
  (Text.cut? '=' item).map fun (name, value) =>
    (String.ofList (Text.trim name), String.ofList (Text.trim value))

def addItem (k : Keywords) (item : List Char) : Except ConfigError Keywords :=
  match parseItem? item with
  | none => throw (.keywordForm (String.ofList item))
  | some (name, value) =>
    if (k.get? name).isSome then throw (.keywordTwice name) else return k.insert name value

/-- The items of a text: what stands between commas, trimmed, unless empty. -/
def items (s : String) : List (List Char) :=
  ((Text.pieces ',' s.toList).map Text.trim).filter (!·.isEmpty)

def parse (s : String) : Except ConfigError Keywords := (items s).foldlM addItem {}

def parseBool (name raw : String) : Except ConfigError Bool :=
  if raw = "true" ∨ raw = "True" ∨ raw = "1" then return true
  else if raw = "false" ∨ raw = "False" ∨ raw = "0" then return false
  else throw (.keywordValue name raw)

/-- Take the declared flags, each with its default, and add those that are on
to a set. A flag is gone from the keywords even if its value is no boolean. -/
def takeFlags (declared : List (Flag × Bool)) (start : Options) (k : Keywords) :
    Except ConfigError Options × Keywords :=
  match declared with
  | [] => (.ok start, k)
  | (flag, default) :: rest =>
    let (raw, left) := k.take flag.name
    match raw.elim (.ok default) (parseBool flag.name) with
    | .error cause => (.error cause, left)
    | .ok on => takeFlags rest (if on then start.insert flag else start) left

def finish (k : Keywords) : Except ConfigError Unit :=
  if k.entries.isEmpty then return () else throw (.keywordsLeft (k.entries.map (·.1)))

/-- Settings that consist of the declared flags and a label, and of no other
keyword. -/
def toSettings (declared : List (Flag × Bool)) (k : Keywords) : Except ConfigError Settings := do
  let (options, left) := k.takeFlags declared .none
  let options ← options
  let (label, left) := left.take "metadata"
  left.finish
  return { options, label }

end Keywords
end Binning
