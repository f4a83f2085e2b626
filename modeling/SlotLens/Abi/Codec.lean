import SlotLens.Abi.Type

/-!
# Codecs

The codec of a type says how its values are laid out as words. Not every type has one: a size may
not go with its name, and a name may be unknown. Inside tuples and arrays all sizes are checked
before any name is looked up.
-/

namespace SlotLens.Abi

/-- Sizes are counted in bytes. -/
inductive Codec where
  | uint (size : Nat)
  | int (size : Nat)
  | ufixed (size places : Nat)
  | fixed (size places : Nat)
  | bool
  | address
  | fixedBytes (size : Nat)
  | bytes
  | string
  | tuple (components : List Codec)
  | array (item : Codec) (length : Option Nat)
  deriving Repr

def isBitSize (n : Nat) : Bool := 8 ≤ n && n ≤ 256 && n % 8 == 0

def sizeFits (name : String) (size : Size) : Bool :=
  match name, size with
  | "string", .none | "address", .none | "bytes", .none => true
  | "int", .none | "uint", .none | "fixed", .none | "ufixed", .none => true
  | "bytes", .single n => n ≤ 32
  | "int", .single n | "uint", .single n => isBitSize n
  | "fixed", .double m n | "ufixed", .double m n => isBitSize m && 1 ≤ n && n ≤ 80
  | "hash", .single _ => true
  | name, _ =>
    !(["string", "address", "bytes", "int", "uint", "fixed", "ufixed", "hash"].contains name)

namespace Ty

mutual
def sizesFit : Ty → Bool
  | .basic name size => sizeFits name size
  | .tuple components => allSizesFit components
  | .array item _ => item.sizesFit

def allSizesFit : List Ty → Bool
  | [] => true
  | t :: rest => t.sizesFit && allSizesFit rest
end

def basicCodec (name : String) (size : Size) : Except AbiFault Codec :=
  let known (c : Codec) := if sizeFits name size then .ok c else .error .badSize
  match name, size with
  | "uint", .single n => known (.uint (n / 8))
  | "uint", _ => known (.uint 32)
  | "int", .single n => known (.int (n / 8))
  | "int", _ => known (.int 32)
  | "ufixed", .double m n => known (.ufixed (m / 8) n)
  | "ufixed", _ => known (.ufixed 16 18)
  | "fixed", .double m n => known (.fixed (m / 8) n)
  | "fixed", _ => known (.fixed 16 18)
  | "bool", _ => known .bool
  | "address", _ => known .address
  | "string", _ => known .string
  | "bytes", .none => known .bytes
  | "bytes", .single n => known (.fixedBytes n)
  | "bytes", _ => .error .badSize
  | "function", .none => .ok (.fixedBytes 24)
  | "function", _ => .error .sizedAlias
  | _, _ => .error .unknown

mutual
def innerCodec : Ty → Except AbiFault Codec
  | .basic "byte" .none => .ok (.fixedBytes 1)
  | .basic name size => basicCodec name size
  | .tuple components => (innerCodecs components).map .tuple
  | .array item length => item.innerCodec.map (.array · length)

def innerCodecs : List Ty → Except AbiFault (List Codec)
  | [] => .ok []
  | t :: rest => do
    let c ← t.innerCodec
    let cs ← innerCodecs rest
    return c :: cs
end

def codec : Ty → Except AbiFault Codec
  | .basic name size => basicCodec name size
  | t => if t.sizesFit then t.innerCodec else .error .badSize

end Ty

namespace Codec

mutual
def isDynamic : Codec → Bool
  | .bytes | .string => true
  | .tuple components => anyDynamic components
  | .array _ none => true
  | .array item (some _) => item.isDynamic
  | _ => false

def anyDynamic : List Codec → Bool
  | [] => false
  | c :: rest => c.isDynamic || anyDynamic rest
end

mutual
def headSize : Codec → Nat
  | .tuple components => if anyDynamic components then 32 else headSizes components
  | .array item (some n) => if item.isDynamic then 32 else n * item.headSize
  | _ => 32

def headSizes : List Codec → Nat
  | [] => 0
  | c :: rest => c.headSize + headSizes rest
end

def ofText (s : String) : Except AbiFault Codec := Ty.ofText s >>= Ty.codec

end Codec

end SlotLens.Abi
