import SlotLens.Fault

namespace SlotLens.Abi

inductive Size where
  | none
  | single (n : Nat)
  | double (m n : Nat)
  deriving DecidableEq, Repr

inductive Ty where
  | basic (name : String) (size : Size)
  | tuple (components : List Ty)
  | array (item : Ty) (length : Option Nat)
  deriving Repr

namespace Size

def print : Size → String
  | .none => ""
  | .single n => toString n
  | .double m n => toString m ++ "x" ++ toString n

end Size

namespace Ty

def printLength : Option Nat → String
  | none => "[]"
  | some n => "[" ++ toString n ++ "]"

mutual
def print : Ty → String
  | .basic name size => name ++ size.print
  | .tuple components => "(" ++ ",".intercalate (printAll components) ++ ")"
  | .array item length => item.print ++ printLength length

def printAll : List Ty → List String
  | [] => []
  | t :: rest => t.print :: printAll rest
end

inductive Mode where
  | start
  | name (letters : List Char)
  | size (letters : List Char) (n : Nat)
  | cross (letters : List Char) (m : Nat)
  | second (letters : List Char) (m n : Nat)
  | complete (t : Ty)
  | dimension (t : Ty) (n : Option Nat)

/-- The components read so far of each open tuple, last first, innermost tuple first. -/
structure Reading where
  stack : List (List Ty)
  mode : Mode

def digit? (c : Char) : Option Nat := if c.isDigit then some (c.toNat - 48) else none

def leading? (c : Char) : Option Nat := (digit? c).filter (· ≠ 0)

def named (letters : List Char) (size : Size) : Ty :=
  .basic (String.ofList letters.reverse) size

def close (stack : List (List Ty)) (t : Ty) (c : Char) : Option Reading :=
  if c = '[' then some ⟨stack, .dimension t none⟩
  else match stack with
    | [] => none
    | components :: outer =>
      if c = ',' then some ⟨(t :: components) :: outer, .start⟩
      else if c = ')' then some ⟨outer, .complete (.tuple (t :: components).reverse)⟩
      else none

def Reading.step (r : Reading) (c : Char) : Option Reading :=
  match r.mode with
  | .start =>
    if c = '(' then some ⟨[] :: r.stack, .start⟩
    else if c.isAlpha then some ⟨r.stack, .name [c]⟩
    else none
  | .name letters =>
    if c.isAlpha then some ⟨r.stack, .name (c :: letters)⟩
    else match leading? c with
      | some d => some ⟨r.stack, .size letters d⟩
      | none => close r.stack (named letters .none) c
  | .size letters n =>
    if c = 'x' then some ⟨r.stack, .cross letters n⟩
    else match digit? c with
      | some d => some ⟨r.stack, .size letters (10 * n + d)⟩
      | none => close r.stack (named letters (.single n)) c
  | .cross letters m => (leading? c).map fun d => ⟨r.stack, .second letters m d⟩
  | .second letters m n =>
    match digit? c with
    | some d => some ⟨r.stack, .second letters m (10 * n + d)⟩
    | none => close r.stack (named letters (.double m n)) c
  | .complete t => close r.stack t c
  | .dimension t n =>
    if c = ']' then some ⟨r.stack, .complete (.array t n)⟩
    else match n with
      | none => (leading? c).map fun d => ⟨r.stack, .dimension t (some d)⟩
      | some n => (digit? c).map fun d => ⟨r.stack, .dimension t (some (10 * n + d))⟩

def Reading.finish? (r : Reading) : Option Ty :=
  match r.stack, r.mode with
  | [], .name letters => some (named letters .none)
  | [], .size letters n => some (named letters (.single n))
  | [], .second letters m n => some (named letters (.double m n))
  | [], .complete t => some t
  | _, _ => none

def Reading.initial : Reading := ⟨[], .start⟩

def parse? (s : String) : Option Ty :=
  s.toList.foldlM Reading.step .initial >>= Reading.finish?

/-- The largest number of tuples that are open while characters are read, up to the first one that
cannot stand where it does. -/
def Reading.deepest (r : Reading) : List Char → Nat
  | [] => r.stack.length
  | c :: rest => match r.step c with
    | some next => max r.stack.length (next.deepest rest)
    | none => r.stack.length

def maxDepth : Nat := 163

def longestNumber (before : Nat) : List Char → Nat
  | [] => before
  | c :: rest =>
    if c.isDigit then longestNumber (before + 1) rest else max before (longestNumber 0 rest)

def hasEmptyTuple : List Char → Bool
  | '(' :: ')' :: _ => true
  | _ :: rest => hasEmptyTuple rest
  | [] => false

def ofText (s : String) : Except AbiFault Ty :=
  if maxDepth < Reading.initial.deepest s.toList then .error .tooDeep
  else match parse? s with
    | some t => if Numeral.maxDigits < longestNumber 0 s.toList then .error .longNumber else .ok t
    | none => .error (if hasEmptyTuple s.toList then .emptyTuple else .unparsable)

def ofValue : Value → Except AbiFault Ty
  | .text s => ofText s
  | _ => .error .notText

end Ty

end SlotLens.Abi
