import TallyOwl.Lib.Bytes

/-! The checksum function of the outside crate, XXH3 with 64 bits and no seed, on
inputs of at most 64 bytes. No general result depends on it: it is what the runs
on concrete bytes are computed with. -/
namespace TallyOwl.Xxh3
open Lib

def secret : Bytes := [
  0xb8, 0xfe, 0x6c, 0x39, 0x23, 0xa4, 0x4b, 0xbe, 0x7c, 0x01, 0x81, 0x2c, 0xf7, 0x21, 0xad, 0x1c,
  0xde, 0xd4, 0x6d, 0xe9, 0x83, 0x90, 0x97, 0xdb, 0x72, 0x40, 0xa4, 0xa4, 0xb7, 0xb3, 0x67, 0x1f,
  0xcb, 0x79, 0xe6, 0x4e, 0xcc, 0xc0, 0xe5, 0x78, 0x82, 0x5a, 0xd0, 0x7d, 0xcc, 0xff, 0x72, 0x21,
  0xb8, 0x08, 0x46, 0x74, 0xf7, 0x43, 0x24, 0x8e, 0xe0, 0x35, 0x90, 0xe6, 0x81, 0x3a, 0x26, 0x4c,
  0x3c, 0x28, 0x52, 0xbb, 0x91, 0xc3, 0x00, 0xcb]

def read32 (bytes : Bytes) (start : Nat) : UInt64 := .ofNat (leNat ((bytes.drop start).take 4))

def read64 (bytes : Bytes) (start : Nat) : UInt64 := .ofNat (leNat ((bytes.drop start).take 8))

def mulFold (a b : UInt64) : UInt64 :=
  .ofNat (a.toNat * b.toNat) ^^^ .ofNat (a.toNat * b.toNat / 2 ^ 64)

def swap (x : UInt64) : UInt64 := .ofNat (leNat (leBytes 8 x.toNat).reverse)

def rotate (x left : UInt64) : UInt64 := (x <<< left) ||| (x >>> (64 - left))

def avalanche64 (h : UInt64) : UInt64 :=
  let h := (h ^^^ (h >>> 33)) * 0xC2B2AE3D27D4EB4F
  let h := (h ^^^ (h >>> 29)) * 0x165667B19E3779F9
  h ^^^ (h >>> 32)

def avalanche (h : UInt64) : UInt64 :=
  let h := (h ^^^ (h >>> 37)) * 0x165667919E3779F9
  h ^^^ (h >>> 32)

def mix (bytes : Bytes) (start key : Nat) : UInt64 :=
  mulFold (read64 bytes start ^^^ read64 secret key)
    (read64 bytes (start + 8) ^^^ read64 secret (key + 8))

def byteAt (bytes : Bytes) (i : Nat) : UInt64 := ((bytes[i]?).getD 0).toUInt64

def xxh3 (bytes : Bytes) : UInt64 :=
  let n := bytes.length
  let size := UInt64.ofNat n
  if n = 0 then avalanche64 (read64 secret 56 ^^^ read64 secret 64)
  else if n ≤ 3 then
    avalanche64 (((byteAt bytes 0 <<< 16) ||| (byteAt bytes (n / 2) <<< 24) |||
      byteAt bytes (n - 1) ||| (size <<< 8)) ^^^ (read32 secret 0 ^^^ read32 secret 4))
  else if n ≤ 8 then
    let k := (read32 bytes (n - 4) + (read32 bytes 0 <<< 32)) ^^^
      (read64 secret 8 ^^^ read64 secret 16)
    let k := (k ^^^ rotate k 49 ^^^ rotate k 24) * 0x9FB21C651E98DF25
    let k := (k ^^^ ((k >>> 35) + size)) * 0x9FB21C651E98DF25
    k ^^^ (k >>> 28)
  else if n ≤ 16 then
    let lo := read64 bytes 0 ^^^ (read64 secret 24 ^^^ read64 secret 32)
    let hi := read64 bytes (n - 8) ^^^ (read64 secret 40 ^^^ read64 secret 48)
    avalanche (size + swap lo + hi + mulFold lo hi)
  else if n ≤ 64 then
    avalanche (size * 0x9E3779B185EBCA87 +
      (if n > 32 then mix bytes 16 32 + mix bytes (n - 32) 48 else 0) +
      mix bytes 0 0 + mix bytes (n - 16) 16)
  else 0

end TallyOwl.Xxh3
