import EventSchema.Fault

/-!
Extensions of a schema.
-/

set_option autoImplicit false

namespace EventSchema

/-- An extension: its identity, the folder it was found in, and what its manifest says of it. -/
structure Extension where
  name : Text
  uid : Int
  path : Path
  version : Value
  caption : Value
  description : Value
  isPlatform : Bool
deriving DecidableEq

namespace Extension

def toFields (e : Extension) : Fields :=
  [("uid", .int e.uid), ("name", .text e.name), ("platform_extension?", .bool e.isPlatform),
    ("caption", e.caption), ("description", e.description), ("version", e.version),
    ("path", .text e.path.text)]

def collision? (before : List Extension) (e : Extension) : Option IntegrityFault :=
  match before.find? fun other => other.uid = e.uid with
  | some other => some (.extensionUid e.uid e.name e.path other.name other.path)
  | none =>
    match before.find? fun other => other.name = e.name with
    | some other => some (.extensionName e.name e.path other.path)
    | none => none

def validateAfter (before : List Extension) : List Extension → Except Fault Unit
  | [] => .ok ()
  | e :: rest => match collision? before e with
    | some fault => .error (.integrity fault)
    | none => validateAfter (before ++ [e]) rest

/-- Stop unless all uids and all names differ. -/
def validate (extensions : List Extension) : Except Fault Unit := validateAfter [] extensions

end Extension

end EventSchema
