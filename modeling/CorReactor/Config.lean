import Mathlib.Data.List.Basic

set_option autoImplicit false

/-! Names of configuration variables, in the code and in YAML. -/

namespace CorReactor

/-- A name, as its characters. -/
abbrev Name := List Char

/-- The characters that `Config::Create` accepts. -/
def createChars : Name := "0123456789abcdefghijklmnopqrstuvwxyz_.".toList

/-- The characters that `ListAllMember` accepts. -/
def memberChars : Name := "abcdefghikjlmnopqrstuvwxyz._012345678".toList

/-- `name.find_first_not_of(chars) == npos`. -/
def onlyOf (chars name : Name) : Bool := name.all fun c => c ∈ chars

/-- `tolower` in the C locale. -/
def tolower (c : Char) : Char := if 'A' ≤ c ∧ c ≤ 'Z' then Char.ofNat (c.toNat + 32) else c

/-- A node as yaml-cpp hands it out. `other` is a sequence, null or an alias of these, by
the text that it is printed as. -/
inductive Yaml
  | scalar (value : Name)
  | other (printed : Name)
  | map (entries : List (Yaml × Yaml)) (printed : Name)

/-- `Scalar()`, empty for other nodes. -/
def Yaml.Scalar : Yaml → Name
  | .scalar value => value
  | .other _ | .map _ _ => []

/-- What `operator<<` prints. -/
def Yaml.printed : Yaml → Name
  | .scalar value => value
  | .other printed | .map _ printed => printed

/-- `prefix.empty() ? key : prefix + "." + key`. -/
def extend (path key : Name) : Name := if path.isEmpty then key else path ++ '.' :: key

mutual

def listAllMember (path : Name) (node : Yaml) : List (Name × Yaml) :=
  if !onlyOf memberChars path then []
  else
    (path, node) ::
      match node with
      | .map entries _ => listEntries path entries
      | .scalar _ | .other _ => []

/-- The loop over the entries of a map. -/
def listEntries (path : Name) : List (Yaml × Yaml) → List (Name × Yaml)
  | [] => []
  | (key, value) :: rest => listAllMember (extend path key.Scalar) value ++ listEntries path rest

end

/-- A variable as far as its name goes. -/
structure ConfigVarBase where
  m_name : Name
  deriving DecidableEq

/-- The constructor. -/
def ConfigVarBase.new (name : Name) : ConfigVarBase := ⟨name.map tolower⟩

/-- `s_datas`: `Create` puts a variable under the name that it is made with, and only under
names it accepts. -/
structure ConfigVarMap where
  find : Name → Option ConfigVarBase
  named : ∀ name var, find name = some var →
    var = .new name ∧ onlyOf createChars name = true

namespace Config

def LookupBase (datas : ConfigVarMap) (name : Name) : Option ConfigVarBase := datas.find name

/-- The loop body of `LoadFromYaml`: the variable whose `fromString` is called, and with what. -/
def loadOne (datas : ConfigVarMap) (i : Name × Yaml) : Option (ConfigVarBase × Name) :=
  if i.1.isEmpty then none
  else
    let key := i.1.map tolower
    (LookupBase datas key).map fun var =>
      match i.2 with
      | .scalar value => (var, value)
      | .other _ | .map _ _ => (var, i.2.printed)

/-- The calls of `fromString` that `LoadFromYaml` makes. -/
def LoadFromYaml (datas : ConfigVarMap) (root : Yaml) : List (ConfigVarBase × Name) :=
  (listAllMember [] root).filterMap (loadOne datas)

end Config

/-! ### Names and paths -/

/-- The components lead from the node to a scalar, whatever else is in the maps. -/
inductive Yaml.ScalarAt : Yaml → List Name → Name → Prop
  | here (value : Name) : Yaml.ScalarAt (.scalar value) [] value
  | there {entries : List (Yaml × Yaml)} {printed key value : Name} {node : Yaml} {path : List Name}
      (member : (.scalar key, node) ∈ entries) (deeper : node.ScalarAt path value) :
      Yaml.ScalarAt (.map entries printed) (key :: path) value

/-- The characters of a component. -/
def componentChars : Name := "0123456789abcdefghijklmnopqrstuvwxyz_".toList

/-- The name that the components spell. -/
def dotted (path : List Name) : Name := ['.'].intercalate path

end CorReactor
