import SlotLens.Value

namespace SlotLens.Json

def codeUnit (n : Nat) : List Char := '\\' :: 'u' :: Text.hexDigits 4 n

def printChar (c : Char) : List Char :=
  if c = '"' then ['\\', '"']
  else if c = '\\' then ['\\', '\\']
  else if c = '\n' then ['\\', 'n']
  else if c = '\r' then ['\\', 'r']
  else if c = '\t' then ['\\', 't']
  else if c = '\x08' then ['\\', 'b']
  else if c = '\x0c' then ['\\', 'f']
  else if 0x20 ≤ c.toNat ∧ c.toNat < 0x7f then [c]
  else codeUnit c.toNat

def printPoint (n : Nat) : List Char :=
  if n < 0x80 then printChar (Char.ofNat n)
  else if n < 0x10000 then codeUnit n
  else
    let n := n - 0x10000
    codeUnit (0xD800 + n / 0x400) ++ codeUnit (0xDC00 + n % 0x400)

def printText (s : String) : String :=
  String.ofList ('"' :: (Text.points s.toList).flatMap printPoint ++ ['"'])

def printReal : Binary64 → String
  | .nan => "NaN"
  | .infinite isNegative => if isNegative then "-Infinity" else "Infinity"
  | x => x.text

def printScalar : Value → String
  | .null => "null"
  | .bool b => if b then "true" else "false"
  | .int n => toString n
  | .real x => printReal x
  | .text s => printText s
  | v => printText v.plain

def printKey : Value → String
  | .text s => printText s
  | .bytes b => printText (Value.quotedBytes b)
  | v => printText (printScalar v)

def lineBreak (level : Nat) : String := "\n" ++ String.ofList (List.replicate (2 * level) ' ')

mutual
def printAt (level : Nat) : Value → String
  | .list [] => "[]"
  | .list items =>
    "[" ++ lineBreak (level + 1) ++
      ("," ++ lineBreak (level + 1)).intercalate (printItems (level + 1) items) ++
      lineBreak level ++ "]"
  | .object [] => "\x7b\x7d"
  | .object members =>
    "\x7b" ++ lineBreak (level + 1) ++
      ("," ++ lineBreak (level + 1)).intercalate (printMembers (level + 1) members) ++
      lineBreak level ++ "\x7d"
  | .keyed [] => "\x7b\x7d"
  | .keyed entries =>
    "\x7b" ++ lineBreak (level + 1) ++
      ("," ++ lineBreak (level + 1)).intercalate (printEntries (level + 1) entries) ++
      lineBreak level ++ "\x7d"
  | v => printScalar v

def printItems (level : Nat) : List Value → List String
  | [] => []
  | v :: rest => printAt level v :: printItems level rest

def printMembers (level : Nat) : List (String × Value) → List String
  | [] => []
  | (k, v) :: rest => (printText k ++ ": " ++ printAt level v) :: printMembers level rest

def printEntries (level : Nat) : List (Value × Value) → List String
  | [] => []
  | (k, v) :: rest => (printKey k ++ ": " ++ printAt level v) :: printEntries level rest
end

def print (v : Value) : String := printAt 0 v

mutual
def printLine : Value → String
  | .list items => "[" ++ ",".intercalate (printLineItems items) ++ "]"
  | .object members => "\x7b" ++ ",".intercalate (printLineMembers members) ++ "\x7d"
  | .keyed entries => "\x7b" ++ ",".intercalate (printLineEntries entries) ++ "\x7d"
  | v => printScalar v

def printLineItems : List Value → List String
  | [] => []
  | v :: rest => printLine v :: printLineItems rest

def printLineMembers : List (String × Value) → List String
  | [] => []
  | (k, v) :: rest => (printText k ++ ":" ++ printLine v) :: printLineMembers rest

def printLineEntries : List (Value × Value) → List String
  | [] => []
  | (k, v) :: rest => (printKey k ++ ":" ++ printLine v) :: printLineEntries rest
end

end SlotLens.Json
