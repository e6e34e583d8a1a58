import EventSchema.Draft.Basic
import EventSchema.Value.Equality

/-!
The references between the items of a finished draft: which items have attributes of an object type,
which use an attribute, and which have a profile.
-/

set_option autoImplicit false

namespace EventSchema

/-- One reference to a schema item by the class or object of key `type`. -/
structure Link where
  group : Text
  type : Text
  caption : Value
  extension : Value
  deprecated : Bool
  attributeKeys : List Text
deriving DecidableEq

namespace Link

def toFields (l : Link) : Fields :=
  let head : Fields := [("group", .text l.group), ("type", .text l.type), ("caption", l.caption)]
  let extension : Fields := if l.extension.truthy then [("extension", l.extension)] else []
  let deprecated : Fields := if l.deprecated then [("deprecated?", .bool true)] else []
  let keys : Fields :=
    if l.attributeKeys.isEmpty then []
    else [("attribute_keys", .array (l.attributeKeys.map Value.text))]
  head ++ extension ++ deprecated ++ keys

end Link

/-- Entries under keys of any kind, equal ones being one key, in the order in which they came. -/
abbrev Index (α : Type) := List (Value × α)

namespace Index

variable {α : Type}

def get? (key : Value) : Index α → Option α
  | [] => none
  | (k, v) :: rest => if k.same key then some v else get? key rest

def alter (key : Value) (change : Option α → α) : Index α → Index α
  | [] => [(key, change none)]
  | (k, v) :: rest =>
    if k.same key then (k, change (some v)) :: rest else (k, v) :: alter key change rest

end Index

structure Links where
  objects : Index (Entries Link) := []
  attributes : Entries (List Link) := []
  profiles : Index (List Link) := []

namespace Links

def linkOf (group key : Text) (item : Fields) : Link where
  group := group
  type := key
  caption := Entries.getOr "caption" item (.text "*No name*")
  extension := Entries.orNull "extension" item
  deprecated := Value.given (Entries.get? "@deprecated" item)
  attributeKeys := []

/-- One more reference to an object type by an attribute. References by one item are one. -/
def addObject (type : Value) (link : Link) (name : Text) (links : Index (Entries Link)) :
    Index (Entries Link) :=
  let group := link.group ++ ":" ++ link.type
  Index.alter type (fun known =>
    let known := known.getD []
    match Entries.get? group known with
    | some other =>
      if other.attributeKeys.contains name then known
      else Entries.put group { other with attributeKeys := other.attributeKeys ++ [name] } known
    | none => Entries.put group { link with attributeKeys := [name] } known) links

def addAttribute (link : Link) (links : Links) (entry : Text × Value) : Except Fault Links := do
  let (name, value) := entry
  let used := (Entries.get? name links.attributes).getD []
  let links := { links with attributes := Entries.put name (used ++ [link]) links.attributes }
  let field ← value.asFields
  if (Entries.orNull "type" field).equals (.text "object_t") then
    let type := Entries.orNull "object_type" field
    if type.isKey then return { links with objects := addObject type link name links.objects }
    else misused .operand
  else return links

def addProfile (link : Link) (links : Links) (profile : Value) : Except Fault Links :=
  if profile.isKey then
    .ok { links with
      profiles := Index.alter profile (fun known => known.getD [] ++ [link]) links.profiles }
  else misused .operand

def addItem (group : Text) (links : Links) (entry : Text × Fields) : Except Fault Links := do
  let (key, item) := entry
  let link := linkOf group key item
  let links ← (← Draft.attributesOf item).foldlM (addAttribute link) links
  let profiles ← (Value.orElse (Entries.get? "profiles" item) (.array [])).iterate
  profiles.foldlM (addProfile link) links

def classGroup (key : Text) : Text := if key = "base_event" then "common" else "class"

def ofItems (classes objects : Entries Fields) : Except Fault Links := do
  let links ← classes.foldlM (fun links entry => addItem (classGroup entry.1) links entry) {}
  objects.foldlM (addItem "object") links

end Links

end EventSchema
