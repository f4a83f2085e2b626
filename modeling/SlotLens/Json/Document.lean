import SlotLens.Json.Token

namespace SlotLens

inductive JsonFault where
  | malformed
  | tooLong
  | tooDeep
  deriving DecidableEq, Repr

namespace Json

inductive Frame where
  | list (items : List Value)
  | object (members : List (String × Value)) (key : String)

inductive Expected where
  | value
  | itemOrClose
  | key (members : List (String × Value))
  | keyOrClose
  | colon (members : List (String × Value)) (key : String)
  | next
  | nothing (result : Value)

structure Reading where
  expected : Expected
  stack : List Frame

def deliver (v : Value) : List Frame → Reading
  | [] => ⟨.nothing v, []⟩
  | .list items :: stack => ⟨.next, .list (v :: items) :: stack⟩
  | .object members key :: stack => ⟨.next, .object ((key, v) :: members) key :: stack⟩

def close : List Frame → Token → Option Reading
  | .list items :: stack, .closeList => some (deliver (.list items.reverse) stack)
  | .object members _ :: stack, .closeObject =>
    some (deliver (Value.ofMembers members.reverse) stack)
  | _, _ => none

def maxDepth : Nat := 990

def openInside (stack : List Frame) (r : Reading) : Except JsonFault Reading :=
  if stack.length < maxDepth then .ok r else .error .tooDeep

def start (stack : List Frame) : Token → Except JsonFault Reading
  | .value v => .ok (deliver v stack)
  | .tooLong => .error .tooLong
  | .openList => openInside stack ⟨.itemOrClose, .list [] :: stack⟩
  | .openObject => openInside stack ⟨.keyOrClose, stack⟩
  | _ => .error .malformed

def follow? (stack : List Frame) (t : Token) : Option Reading :=
  match t, stack with
  | .comma, .list items :: stack => some ⟨.value, .list items :: stack⟩
  | .comma, .object members _ :: stack => some ⟨.key members, stack⟩
  | _, _ => close stack t

def Reading.step (r : Reading) (t : Token) : Except JsonFault Reading :=
  match r.expected, t with
  | .value, _ => start r.stack t
  | .itemOrClose, .closeList => orMalformed (close r.stack t)
  | .itemOrClose, _ => start r.stack t
  | .key members, .value (.text k) => .ok ⟨.colon members k, r.stack⟩
  | .keyOrClose, .value (.text k) => .ok ⟨.colon [] k, r.stack⟩
  | .keyOrClose, .closeObject => .ok (deliver (.object []) r.stack)
  | .colon members k, .colon => .ok ⟨.value, .object members k :: r.stack⟩
  | .next, _ => orMalformed (follow? r.stack t)
  | _, _ => .error .malformed
where
  orMalformed : Option Reading → Except JsonFault Reading
    | some r => .ok r
    | none => .error .malformed

def parse (s : String) : Except JsonFault Value := do
  let found := tokens s
  let r ← found.items.foldlM Reading.step ⟨.value, []⟩
  match r.expected, found.isWhole with
  | .nothing v, true => return v
  | _, _ => throw .malformed

end Json

end SlotLens
