import SlotLens.Value

namespace SlotLens.Json

inductive Token where
  | openObject
  | closeObject
  | openList
  | closeList
  | colon
  | comma
  | value (v : Value)
  | tooLong
  deriving Inhabited

/-- Where the reader stands. Characters read so far are kept last first; `high` is the first half of
a surrogate pair whose second half may follow. -/
inductive Mode where
  | between
  | bare (seen : List Char)
  | quoted (seen : List Char) (high : Option Nat)
  | escape (seen : List Char) (high : Option Nat)
  | code (seen : List Char) (high : Option Nat) (count value : Nat)

def isSpace (c : Char) : Bool := c == ' ' || c == '\t' || c == '\n' || c == '\r'

def isBare (c : Char) : Bool :=
  c.isAlphanum || c == '+' || c == '-' || c == '.'

def isWhole (s : List Char) : Bool :=
  match s with
  | ['0'] => true
  | c :: rest => c != '0' && (c :: rest).all Char.isDigit
  | [] => false

def isDigits (s : List Char) : Bool := !s.isEmpty && s.all Char.isDigit

def isFraction (s : List Char) : Bool :=
  let isMantissa (c : Char) : Bool := c != 'e' && c != 'E'
  let (fraction, exponent) := (s.takeWhile isMantissa, s.dropWhile isMantissa)
  (match fraction with
    | [] => !exponent.isEmpty
    | c :: digits => c == '.' && isDigits digits) &&
  (match exponent with
    | [] => true
    | _ :: '+' :: digits => isDigits digits
    | _ :: '-' :: digits => isDigits digits
    | _ :: digits => isDigits digits)

def natOf (digits : List Char) : Nat := Numeral.ofDigits 10 (digits.map fun c => c.toNat - 48)

def exponentOf : List Char → Int
  | _ :: '-' :: digits => -(natOf digits : Int)
  | _ :: '+' :: digits => natOf digits
  | _ :: digits => natOf digits
  | [] => 0

def realOf (isNegative : Bool) (whole rest : List Char) : Binary64 :=
  let isMantissa (c : Char) : Bool := c != 'e' && c != 'E'
  let fraction := (rest.takeWhile isMantissa).drop 1
  Binary64.ofDecimal isNegative (natOf (whole ++ fraction))
    (exponentOf (rest.dropWhile isMantissa) - fraction.length)

def unsignedNumber? (isNegative : Bool) (s : List Char) : Option Value :=
  let whole := s.takeWhile Char.isDigit
  let rest := s.dropWhile Char.isDigit
  if !isWhole whole then none
  else if rest.isEmpty then some (.int (if isNegative then -(natOf whole : Int) else natOf whole))
  else if isFraction rest then some (.real (realOf isNegative whole rest))
  else none

def bareValue? (s : List Char) : Option Value :=
  match String.ofList s with
  | "null" => some .null
  | "true" => some (.bool true)
  | "false" => some (.bool false)
  | "NaN" => some (.real .nan)
  | "Infinity" => some (.real (.infinite false))
  | "-Infinity" => some (.real (.infinite true))
  | _ => match s with
    | '-' :: rest => unsignedNumber? true rest
    | _ => unsignedNumber? false s

def startsFraction : List Char → Bool
  | '.' :: c :: _ => c.isDigit
  | e :: '+' :: c :: _ => (e == 'e' || e == 'E') && c.isDigit
  | e :: '-' :: c :: _ => (e == 'e' || e == 'E') && c.isDigit
  | e :: c :: _ => (e == 'e' || e == 'E') && c.isDigit
  | _ => false

def isTooLong (s : List Char) : Bool :=
  let s := match s with
    | '-' :: rest => rest
    | _ => s
  s.head? != some '0' && Numeral.maxDigits < (s.takeWhile Char.isDigit).length &&
    !startsFraction (s.dropWhile Char.isDigit)

def bareToken? (s : List Char) : Option Token :=
  if isTooLong s then some .tooLong else (bareValue? s).map .value

def punctuation? : Char → Option Token
  | '\x7b' => some .openObject
  | '\x7d' => some .closeObject
  | '[' => some .openList
  | ']' => some .closeList
  | ':' => some .colon
  | ',' => some .comma
  | _ => none

structure Step where
  tokens : List Token
  next : Option Mode

def readBetween (c : Char) : Step :=
  if isSpace c then ⟨[], some .between⟩
  else if c = '"' then ⟨[], some (.quoted [] none)⟩
  else if isBare c then ⟨[], some (.bare [c])⟩
  else match punctuation? c with
    | some t => ⟨[t], some .between⟩
    | none => ⟨[], none⟩

def pushPoint (n : Nat) (seen : List Char) : List Char := (Text.ofPoint n).reverse ++ seen

def flush (seen : List Char) (high : Option Nat) : List Char :=
  match high with
  | some n => pushPoint n seen
  | none => seen

def escaped? : Char → Option Char
  | '"' => some '"'
  | '\\' => some '\\'
  | '/' => some '/'
  | 'b' => some '\x08'
  | 'f' => some '\x0c'
  | 'n' => some '\n'
  | 'r' => some '\r'
  | 't' => some '\t'
  | _ => none

def readCode (seen : List Char) (high : Option Nat) (n : Nat) : Mode :=
  if 0xD800 ≤ n ∧ n < 0xDC00 then .quoted (flush seen high) (some n)
  else match high with
    | some h =>
      if 0xDC00 ≤ n ∧ n < 0xE000 then
        .quoted (pushPoint (0x10000 + (h - 0xD800) * 0x400 + (n - 0xDC00)) seen) none
      else .quoted (pushPoint n (flush seen high)) none
    | none => .quoted (pushPoint n seen) none

def readQuoted (seen : List Char) (high : Option Nat) (c : Char) : Step :=
  if c = '\\' then ⟨[], some (.escape seen high)⟩
  else if c = '"' then
    ⟨[.value (.text (String.ofList (flush seen high).reverse))], some .between⟩
  else if c.toNat < 0x20 then ⟨[], none⟩
  else ⟨[], some (.quoted (c :: flush seen high) none)⟩

def read : Mode → Char → Step
  | .between, c => readBetween c
  | .bare seen, c =>
    if isBare c then ⟨[], some (.bare (c :: seen))⟩
    else match bareToken? seen.reverse with
      | some t =>
        let step := readBetween c
        ⟨t :: step.tokens, step.next⟩
      | none => ⟨[], none⟩
  | .quoted seen high, c => readQuoted seen high c
  | .escape seen high, c =>
    if c = 'u' then ⟨[], some (.code seen high 0 0)⟩
    else ⟨[], (escaped? c).map fun e => .quoted (e :: flush seen high) none⟩
  | .code seen high count value, c =>
    ⟨[], (Numeral.digit? 16 c).map fun d =>
      if count = 3 then readCode seen high (value * 16 + d)
      else .code seen high (count + 1) (value * 16 + d)⟩

def finish : Mode → Option (List Token)
  | .between => some []
  | .bare seen => (bareToken? seen.reverse).map ([·])
  | _ => none

structure Tokens where
  items : List Token
  isWhole : Bool

def tokensFrom (mode : Mode) (found : Array Token) : List Char → Tokens
  | [] => match finish mode with
    | some more => ⟨found.toList ++ more, true⟩
    | none => ⟨found.toList, false⟩
  | c :: rest =>
    let step := read mode c
    let found := found ++ step.tokens.toArray
    match step.next with
    | some mode => tokensFrom mode found rest
    | none => ⟨found.toList, false⟩

def tokens (s : String) : Tokens := tokensFrom .between #[] s.toList

end SlotLens.Json
