import EventSchema.Value.Access
import EventSchema.Value.Sharing

/-!
Annotations of a fragment: defaults for each of its attributes.

An annotation fills the attributes that do not define its field. The same value goes into all of them,
so an object among the annotations is marked before it is filled in.
-/

set_option autoImplicit false

namespace EventSchema.Fragment

def fill (annotations : Fields) (fields : Fields) : Fields :=
  annotations.foldl (fun filled annotation => Entries.putNew annotation.1 annotation.2 filled) fields

def fillEach (annotations : Fields) (attributes : Fields) : Fields :=
  Entries.mapValues (fun
    | .object mark fields => .object mark (fill annotations fields)
    | value => value) attributes

/-- A fragment with its annotations applied to its attributes and removed. -/
def annotate (file : Option Path) (fragment : Fields) : Except Fault Fields :=
  let rest := Entries.erase "annotations" fragment
  match Entries.get? "annotations" fragment with
  | none => .ok rest
  | some annotations =>
    if annotations.truthy then
      match annotations with
      | .object _ annotations =>
        match Entries.get? "attributes" rest with
        | some (.object mark attributes) =>
          let marked := (Value.markFields (Value.boundFields fragment) annotations).1
          .ok (Entries.put "attributes" (.object mark (fillEach marked attributes)) rest)
        | _ => .ok rest
      | given => .error (.document (.annotations given file))
    else .ok rest

end EventSchema.Fragment
