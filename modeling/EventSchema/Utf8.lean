import EventSchema.Text.Basic

/-!
Reading bytes as UTF-8, and writing texts as such bytes.

Reading stops at the first place where the bytes are not UTF-8 and says which bytes are at fault: a
byte that starts no character, the bytes of a character that the next byte does not continue, or the
bytes of a character that the end of the input cuts off.
-/

set_option autoImplicit false

namespace EventSchema.Utf8

/-- What is wrong with the bytes at fault. -/
inductive Cause where
  | startByte
  | continuationByte
  | endOfData
deriving DecidableEq, Repr

/-- The bytes at fault: the first of them, its position, and how many they are. -/
structure Fault where
  cause : Cause
  byte : UInt8
  position : Nat
  count : Nat
deriving DecidableEq, Repr

def Cause.message : Cause → Text
  | .startByte => "invalid start byte"
  | .continuationByte => "invalid continuation byte"
  | .endOfData => "unexpected end of data"

def Fault.message (f : Fault) : Text :=
  let place : Text :=
    if f.count = 1 then
      "byte 0x" ++ Text.hex 2 f.byte.toNat ++ " in position " ++ Text.ofNat f.position
    else
      "bytes in position " ++ Text.ofNat f.position ++ "-"
        ++ Text.ofNat (f.position + f.count - 1)
  "'utf-8' codec can't decode " ++ place ++ ": " ++ f.cause.message

/-- The bytes that may follow a first byte that starts two or more, as a range. -/
def second (lead : Nat) : Nat × Nat :=
  if lead = 0xe0 then (0xa0, 0xbf)
  else if lead = 0xed then (0x80, 0x9f)
  else if lead = 0xf0 then (0x90, 0xbf)
  else if lead = 0xf4 then (0x80, 0x8f)
  else (0x80, 0xbf)

/-- Whether a byte continues a character, with the range that the place allows. -/
def continues (range : Nat × Nat) (byte : UInt8) : Bool :=
  range.1 ≤ byte.toNat && byte.toNat ≤ range.2

def tail : Nat × Nat := (0x80, 0xbf)

/-- The code points of the bytes; `position` is that of the first byte given. -/
def decodeFrom (position : Nat) : List UInt8 → Except Fault (List Nat)
  | [] => .ok []
  | a :: afterA =>
    let lead := a.toNat
    let fault (cause : Cause) (count : Nat) : Except Fault (List Nat) :=
      .error ⟨cause, a, position, count⟩
    if lead < 0x80 then
      return lead :: (← decodeFrom (position + 1) afterA)
    else if lead < 0xc2 ∨ 0xf4 < lead then fault .startByte 1
    else match afterA with
      | [] => fault .endOfData 1
      | b :: afterB =>
        if !continues (second lead) b then fault .continuationByte 1
        else if lead < 0xe0 then
          return (lead % 32 * 64 + b.toNat % 64) :: (← decodeFrom (position + 2) afterB)
        else match afterB with
          | [] => fault .endOfData 2
          | c :: afterC =>
            if !continues tail c then fault .continuationByte 2
            else if lead < 0xf0 then
              return (lead % 16 * 4096 + b.toNat % 64 * 64 + c.toNat % 64)
                :: (← decodeFrom (position + 3) afterC)
            else match afterC with
              | [] => fault .endOfData 3
              | d :: afterD =>
                if !continues tail d then fault .continuationByte 3
                else
                  return (lead % 8 * 262144 + b.toNat % 64 * 4096 + c.toNat % 64 * 64
                    + d.toNat % 64) :: (← decodeFrom (position + 4) afterD)

def decode (bytes : List UInt8) : Except Fault Text := Text.mk <$> decodeFrom 0 bytes

def encodeCode (code : Nat) : List UInt8 :=
  let byte (n : Nat) : UInt8 := UInt8.ofNat n
  if code < 0x80 then [byte code]
  else if code < 0x800 then [byte (0xc0 + code / 64), byte (0x80 + code % 64)]
  else if code < 0x10000 then
    [byte (0xe0 + code / 4096), byte (0x80 + code / 64 % 64), byte (0x80 + code % 64)]
  else
    [byte (0xf0 + code / 262144), byte (0x80 + code / 4096 % 64), byte (0x80 + code / 64 % 64),
      byte (0x80 + code % 64)]

def encode (t : Text) : List UInt8 := t.codes.flatMap encodeCode

end EventSchema.Utf8
