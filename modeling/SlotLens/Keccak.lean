namespace SlotLens.Keccak

structure Row where
  c0 : UInt64
  c1 : UInt64
  c2 : UInt64
  c3 : UInt64
  c4 : UInt64
  deriving DecidableEq, Repr

structure Lanes where
  r0 : Row
  r1 : Row
  r2 : Row
  r3 : Row
  r4 : Row
  deriving DecidableEq, Repr

def Row.xor (p q : Row) : Row :=
  ⟨p.c0 ^^^ q.c0, p.c1 ^^^ q.c1, p.c2 ^^^ q.c2, p.c3 ^^^ q.c3, p.c4 ^^^ q.c4⟩

def Row.ofList (s : List UInt64) : Row :=
  ⟨s.getD 0 0, s.getD 1 0, s.getD 2 0, s.getD 3 0, s.getD 4 0⟩

namespace Lanes

def map (f : Row → Row) (a : Lanes) : Lanes := ⟨f a.r0, f a.r1, f a.r2, f a.r3, f a.r4⟩

def xor (a b : Lanes) : Lanes :=
  ⟨a.r0.xor b.r0, a.r1.xor b.r1, a.r2.xor b.r2, a.r3.xor b.r3, a.r4.xor b.r4⟩

def ofList (s : List UInt64) : Lanes :=
  ⟨.ofList s, .ofList (s.drop 5), .ofList (s.drop 10), .ofList (s.drop 15), .ofList (s.drop 20)⟩

end Lanes

def rotate (v : UInt64) (n : UInt64) : UInt64 := (v <<< n) ||| (v >>> (64 - n))

def roundConstants : List UInt64 :=
  [0x0000000000000001, 0x0000000000008082, 0x800000000000808a, 0x8000000080008000,
   0x000000000000808b, 0x0000000080000001, 0x8000000080008081, 0x8000000000008009,
   0x000000000000008a, 0x0000000000000088, 0x0000000080008009, 0x000000008000000a,
   0x000000008000808b, 0x800000000000008b, 0x8000000000008089, 0x8000000000008003,
   0x8000000000008002, 0x8000000000000080, 0x000000000000800a, 0x800000008000000a,
   0x8000000080008081, 0x8000000000008080, 0x0000000080000001, 0x8000000080008008]

def theta (a : Lanes) : Lanes :=
  let p := (((a.r0.xor a.r1).xor a.r2).xor a.r3).xor a.r4
  a.map (·.xor
    ⟨p.c4 ^^^ rotate p.c1 1, p.c0 ^^^ rotate p.c2 1, p.c1 ^^^ rotate p.c3 1,
      p.c2 ^^^ rotate p.c4 1, p.c3 ^^^ rotate p.c0 1⟩)

def rhoPi (a : Lanes) : Lanes where
  r0 := ⟨a.r0.c0, rotate a.r1.c1 44, rotate a.r2.c2 43, rotate a.r3.c3 21, rotate a.r4.c4 14⟩
  r1 := ⟨rotate a.r0.c3 28, rotate a.r1.c4 20, rotate a.r2.c0 3, rotate a.r3.c1 45,
    rotate a.r4.c2 61⟩
  r2 := ⟨rotate a.r0.c1 1, rotate a.r1.c2 6, rotate a.r2.c3 25, rotate a.r3.c4 8,
    rotate a.r4.c0 18⟩
  r3 := ⟨rotate a.r0.c4 27, rotate a.r1.c0 36, rotate a.r2.c1 10, rotate a.r3.c2 15,
    rotate a.r4.c3 56⟩
  r4 := ⟨rotate a.r0.c2 62, rotate a.r1.c3 55, rotate a.r2.c4 39, rotate a.r3.c0 41,
    rotate a.r4.c1 2⟩

def Row.chi (p : Row) : Row :=
  ⟨p.c0 ^^^ (~~~ p.c1 &&& p.c2), p.c1 ^^^ (~~~ p.c2 &&& p.c3), p.c2 ^^^ (~~~ p.c3 &&& p.c4),
    p.c3 ^^^ (~~~ p.c4 &&& p.c0), p.c4 ^^^ (~~~ p.c0 &&& p.c1)⟩

def iota (c : UInt64) (a : Lanes) : Lanes := { a with r0 := { a.r0 with c0 := a.r0.c0 ^^^ c } }

def round (a : Lanes) (c : UInt64) : Lanes := iota c ((rhoPi (theta a)).map Row.chi)

def permute (a : Lanes) : Lanes := roundConstants.foldl round a

def rate : Nat := 136

def pad (bytes : List UInt8) : List UInt8 :=
  let free := rate - bytes.length % rate
  if free = 1 then bytes ++ [0x81] else bytes ++ 0x01 :: List.replicate (free - 2) 0 ++ [0x80]

def toLane (bytes : List UInt8) : UInt64 := bytes.foldr (fun b v => (v <<< 8) ||| b.toUInt64) 0

def ofLane (v : UInt64) : List UInt8 :=
  (List.range 8).map fun i => (v >>> (8 * i.toUInt64)).toUInt8

def toLanes : (count : Nat) → List UInt8 → List UInt64
  | 0, _ => []
  | count + 1, bytes => toLane (bytes.take 8) :: toLanes count (bytes.drop 8)

def absorb (a : Lanes) (block : List UInt8) : Lanes :=
  permute (a.xor (.ofList (toLanes 17 block)))

def blocks : (count : Nat) → List UInt8 → List (List UInt8)
  | 0, _ => []
  | count + 1, bytes => bytes.take rate :: blocks count (bytes.drop rate)

def hash (bytes : List UInt8) : List UInt8 :=
  let padded := pad bytes
  let final := (blocks (padded.length / rate) padded).foldl absorb (.ofList [])
  [final.r0.c0, final.r0.c1, final.r0.c2, final.r0.c3].flatMap ofLane

@[simp] theorem length_hash (bytes : List UInt8) : (hash bytes).length = 32 := by
  simp [hash, ofLane, List.range, List.range.loop]

end SlotLens.Keccak
