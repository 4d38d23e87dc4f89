import Mathlib.Data.List.Basic

/-! # `crypto/md5` and `encoding/hex`

`getDirectory` names a DAG's history directory after the MD5 sum of the DAG
file name, written in lower-case hex. The sum is RFC 1321's, written out so that
the names in the model are the program's names; no proof evaluates it. What the
proofs use of the directory name is only that its hex part is made of hex
digits (`hexEncodeToString_mem`).
-/

namespace Dagu.Go

/-- The table `K` of MD5: the integer parts of `2^32 * |sin (i + 1)|`. -/
def md5K : List UInt32 := [
  0xd76aa478, 0xe8c7b756, 0x242070db, 0xc1bdceee,
  0xf57c0faf, 0x4787c62a, 0xa8304613, 0xfd469501,
  0x698098d8, 0x8b44f7af, 0xffff5bb1, 0x895cd7be,
  0x6b901122, 0xfd987193, 0xa679438e, 0x49b40821,
  0xf61e2562, 0xc040b340, 0x265e5a51, 0xe9b6c7aa,
  0xd62f105d, 0x02441453, 0xd8a1e681, 0xe7d3fbc8,
  0x21e1cde6, 0xc33707d6, 0xf4d50d87, 0x455a14ed,
  0xa9e3e905, 0xfcefa3f8, 0x676f02d9, 0x8d2a4c8a,
  0xfffa3942, 0x8771f681, 0x6d9d6122, 0xfde5380c,
  0xa4beea44, 0x4bdecfa9, 0xf6bb4b60, 0xbebfbc70,
  0x289b7ec6, 0xeaa127fa, 0xd4ef3085, 0x04881d05,
  0xd9d4d039, 0xe6db99e5, 0x1fa27cf8, 0xc4ac5665,
  0xf4292244, 0x432aff97, 0xab9423a7, 0xfc93a039,
  0x655b59c3, 0x8f0ccc92, 0xffeff47d, 0x85845dd1,
  0x6fa87e4f, 0xfe2ce6e0, 0xa3014314, 0x4e0811a1,
  0xf7537e82, 0xbd3af235, 0x2ad7d2bb, 0xeb86d391]

/-- The rotation of each of MD5's four rounds, four steps a period. -/
def md5S : List UInt32 := [7, 12, 17, 22, 5, 9, 14, 20, 4, 11, 16, 23, 6, 10, 15, 21]

/-- MD5's four state words. -/
structure Md5State where
  a : UInt32
  b : UInt32
  c : UInt32
  d : UInt32

/-- The state MD5 starts from. -/
def md5Init : Md5State := ⟨0x67452301, 0xefcdab89, 0x98badcfe, 0x10325476⟩

def rotl (x n : UInt32) : UInt32 := (x <<< n) ||| (x >>> (32 - n))

/-- The little-endian 32-bit words of a block. -/
def words : List UInt8 → List UInt32
  | b0 :: b1 :: b2 :: b3 :: rest =>
      (b0.toUInt32 ||| (b1.toUInt32 <<< 8) ||| (b2.toUInt32 <<< 16) ||| (b3.toUInt32 <<< 24)) ::
        words rest
  | _ => []

/-- Step `i` of the compression of a block of words `m`. -/
def md5Step (m : List UInt32) (st : Md5State) (i : Nat) : Md5State :=
  let (f, g) :=
    if i < 16 then ((st.b &&& st.c) ||| (~~~st.b &&& st.d), i)
    else if i < 32 then ((st.d &&& st.b) ||| (~~~st.d &&& st.c), (5 * i + 1) % 16)
    else if i < 48 then (st.b ^^^ st.c ^^^ st.d, (3 * i + 5) % 16)
    else (st.c ^^^ (st.b ||| ~~~st.d), (7 * i) % 16)
  let f := f + st.a + md5K.getD i 0 + m.getD g 0
  ⟨st.d, st.b + rotl f (md5S.getD (4 * (i / 16) + i % 4) 0), st.b, st.c⟩

/-- The compression of one 64-byte block into the state. -/
def md5Block (st : Md5State) (block : List UInt8) : Md5State :=
  let r := (List.range 64).foldl (md5Step (words block)) st
  ⟨st.a + r.a, st.b + r.b, st.c + r.c, st.d + r.d⟩

/-- The message padded to whole blocks: `0x80`, zeros up to 56 modulo 64, and
the length in bits as a little-endian 64-bit number. -/
def md5Pad (msg : List UInt8) : List UInt8 :=
  msg ++ [(0x80 : UInt8)] ++ List.replicate ((119 - msg.length % 64) % 64) (0 : UInt8) ++
    (List.range 8).map fun j => UInt8.ofNat ((8 * msg.length) >>> (8 * j))

/-- The blocks of `bytes` in order, at most `fuel` of them. -/
def md5Blocks (st : Md5State) : Nat → List UInt8 → Md5State
  | 0, _ => st
  | fuel + 1, bytes => if bytes = [] then st else md5Blocks (md5Block st (bytes.take 64)) fuel (bytes.drop 64)

def le32 (x : UInt32) : List UInt8 :=
  [x.toUInt8, (x >>> 8).toUInt8, (x >>> 16).toUInt8, (x >>> 24).toUInt8]

/-- `md5.Sum`: the 16-byte digest of `data`. -/
def md5Sum (data : List UInt8) : List UInt8 :=
  let p := md5Pad data
  let r := md5Blocks md5Init p.length p
  le32 r.a ++ le32 r.b ++ le32 r.c ++ le32 r.d

/-- The digits `hex.EncodeToString` writes. -/
def hextable : List Char := "0123456789abcdef".toList

/-- `hex.EncodeToString`: two lower-case hex digits a byte, high nibble first. -/
def hexEncodeToString (src : List UInt8) : List Char :=
  src.flatMap fun v => [hextable.getD (v >>> 4).toNat '0', hextable.getD (v &&& 0x0f).toNat '0']

theorem hextable_getD_mem (k : Nat) : hextable.getD k '0' ∈ hextable := by
  rw [List.getD_eq_getElem?_getD]
  cases h : hextable[k]? with
  | none => decide
  | some c => exact List.mem_iff_getElem?.mpr ⟨k, h⟩

/-- Every character `hex.EncodeToString` writes is a hex digit. -/
theorem hexEncodeToString_mem {src : List UInt8} {c : Char} (h : c ∈ hexEncodeToString src) :
    c ∈ hextable := by
  obtain ⟨v, -, hv⟩ := List.mem_flatMap.mp h
  rcases List.mem_pair.mp hv with rfl | rfl <;> exact hextable_getD_mem _

end Dagu.Go
