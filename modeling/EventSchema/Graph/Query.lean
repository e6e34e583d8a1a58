import EventSchema.Graph.Basic
import EventSchema.Scope

/-!
Questions to a graph.

What is asked for by a name and an extension is looked up under its key. Where a set of items can be
narrowed to extensions, the items of the base schema stay in it.
-/

set_option autoImplicit false

namespace EventSchema.Graph

/-- Whether an item that may be of an extension belongs to the base schema or one of those selected. -/
def belongs (selected : List Value) (extension : Value) : Except Fault Bool :=
  if extension.isNull then .ok true
  else if extension.isSetMember then .ok (extension.isAmong selected)
  else misused .operand

/-- The items of the base schema and the given extensions. Null stands for all extensions. -/
def ofExtensions {α : Type} (extension : α → Value) (extensions : Value) (items : Entries α) :
    Except Fault (Entries α) := do
  if extensions.isNull then return items
  let selected ← extensions.iterate
  if !selected.all Value.isKey then misused .operand
  items.filterM fun entry => belongs selected (extension entry.2)

def classesOf (g : Graph) (extensions : Value) : Except Fault (Entries Entity) :=
  ofExtensions Entity.extension extensions g.classes

def objectsOf (g : Graph) (extensions : Value) : Except Fault (Entries Entity) :=
  ofExtensions Entity.extension extensions g.objects

def categoriesOf (g : Graph) (extensions : Value) : Except Fault (Entries Category) :=
  ofExtensions Category.extension extensions g.categories

def profilesOf (g : Graph) (extensions : Value) : Except Fault (Entries Profile) :=
  ofExtensions Profile.extension extensions g.profiles

/-- Whether an entity names the category of a key. A list names none. -/
def isOfCategory (key : Value) (e : Entity) : Bool :=
  match e.category with
  | .array _ => false
  | category => category.equals key

def classesOfCategory (g : Graph) (key extensions : Value) : Except Fault (Entries Entity) := do
  return (← g.classesOf extensions).filter fun entry => isOfCategory key entry.2

def lookup {α : Type} (items : Entries α) (name : Value) (extension : Option Value) :
    Except Fault (Option α) :=
  (Scope.qualified name extension).lookup? items

def class? (g : Graph) (name : Value) (extension : Option Value) : Except Fault (Option Entity) :=
  lookup g.classes name extension

def object? (g : Graph) (name : Value) (extension : Option Value) : Except Fault (Option Entity) :=
  lookup g.objects name extension

def category? (g : Graph) (name : Value) (extension : Option Value) :
    Except Fault (Option Category) :=
  lookup g.categories name extension

def profile? (g : Graph) (name : Value) (extension : Option Value) :
    Except Fault (Option Profile) :=
  lookup g.profiles name extension

def baseEvent (g : Graph) : Except Fault Entity :=
  match Entries.get? "base_event" g.classes with
  | some entity => .ok entity
  | none => misused .key

def classOfUid? (g : Graph) (uid : Value) : Except Fault (Option Entity) :=
  if uid.isKey then
    .ok ((Entries.values g.classes).reverse.find? fun e => !e.uid.isNull && e.uid.equals uid)
  else misused .operand

def indexed {α : Type} (key : Value) (index : Index α) : Except Fault (Option α) :=
  if key.isKey then .ok (Index.get? key index) else misused .operand

/-- The classes and objects with attributes of an object type. -/
def referencedBy (g : Graph) (key : Value) : Except Fault (List Link) := do
  return ((← indexed key g.links.objects).map Entries.values).getD []

/-- The classes and objects that use an attribute of the dictionary. -/
def attributeUsedBy (g : Graph) (name : Value) : Except Fault (List Link) := do
  return (← name.lookup? g.links.attributes).getD []

def profileUsedBy (g : Graph) (key : Value) : Except Fault (List Link) := do
  return (← indexed key g.links.profiles).getD []

end EventSchema.Graph
