/-
The generator that belongs to a key under a seed.

Each angle of a session has a generator of its own, so that what is found for it does not depend on
what was asked for before. The bytes of the key are folded with the seed into one word by
multiplications whose two halves are combined, and that word seeds the generator.
-/
import CliffordT.Random.Generator

namespace CliffordT.KeyHash

/-- The two halves of the product of two words, combined. -/
def foldedProduct (x y : UInt64) : UInt64 :=
  let p := x.toNat * y.toNat
  UInt64.ofNat p ^^^ UInt64.ofNat (p >>> 64)

def littleEndian : List UInt8 → UInt64
  | [] => 0
  | b :: rest => b.toUInt64 + 256 * littleEndian rest

/-- The two words that a byte string is folded into. -/
structure Lanes where
  x : UInt64
  y : UInt64

def Lanes.initial : Lanes := ⟨0x243f6a8885a308d3, 0x13198a2e03707344⟩

def Lanes.xor (s : Lanes) (x y : UInt64) : Lanes := ⟨s.x ^^^ x, s.y ^^^ y⟩

def Lanes.addBlock (s : Lanes) (block : List UInt8) : Lanes :=
  let x := littleEndian (block.take 8)
  let y := littleEndian (block.drop 8)
  ⟨s.y, foldedProduct (s.x ^^^ x) (0xa4093822299f31d0 ^^^ y)⟩

/-- Folds in the full blocks of sixteen bytes at the front, and leaves the rest out. -/
def Lanes.addBlocks (s : Lanes) (bytes : List UInt8) : Lanes :=
  if _h : 16 ≤ bytes.length then (s.addBlock (bytes.take 16)).addBlocks (bytes.drop 16) else s
termination_by bytes.length
decreasing_by
  rw [List.length_drop]
  omega

/-- Folds in bytes at the front and at the end of a string, which may overlap: eight of each, or
fewer from a string shorter than that. -/
def Lanes.addEnds (s : Lanes) (bytes : List UInt8) : Lanes :=
  let n := bytes.length
  let last (k : Nat) : UInt64 := littleEndian (bytes.drop (n - k))
  let byte (i : Nat) : UInt64 := (bytes.getD i 0).toUInt64
  if 8 ≤ n then s.xor (littleEndian (bytes.take 8)) (last 8)
  else if 4 ≤ n then s.xor (littleEndian (bytes.take 4)) (last 4)
  else if 0 < n then s.xor (byte 0) ((byte (n - 1) <<< 8) ||| byte (n / 2))
  else s

/-- The hash of a byte string. Of one longer than sixteen bytes, the blocks before the last byte are
folded in, and then the last sixteen bytes once more. -/
def ofBytes (bytes : List UInt8) : UInt64 :=
  let n := bytes.length
  let s :=
    if n ≤ 16 then Lanes.initial.addEnds bytes
    else (Lanes.initial.addBlocks bytes.dropLast).addEnds (bytes.drop (n - 16))
  foldedProduct s.x s.y ^^^ UInt64.ofNat n

def factor : UInt64 := 0xf1357aea2e62a9c5

def add (hash word : UInt64) : UInt64 := (hash + word) * factor

/-- The hash of a seed and a key; the key is closed by the byte 255, which no text holds. -/
def ofKey (seed : UInt64) (key : String) : UInt64 :=
  Generator.rotateLeft (add (add (add 0 seed) (ofBytes key.toUTF8.toList)) 255) 26

def generator (seed : UInt64) (key : String) : Generator := Generator.ofSeed (ofKey seed key)

end CliffordT.KeyHash
