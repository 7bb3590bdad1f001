import OmegaLb.GoText
import OmegaLb.Murmur3

/-! The hashes of ring.go: `murmur3_32` over the text of a virtual node,
`murmur3Finalise` over a request key. -/
namespace OmegaLb.RingHash
open GoText (Bytes ascii decimal)

def rotl (x : UInt32) (k : UInt32) : UInt32 := (x <<< k) ||| (x >>> (32 - k))

def murmur3Finalise (h : UInt32) : UInt32 :=
  let h := h ^^^ (h >>> 16)
  let h := h * 0x85ebca6b
  let h := h ^^^ (h >>> 13)
  let h := h * 0xc2b2ae35
  h ^^^ (h >>> 16)

def littleEndian (a b c d : UInt8) : UInt32 :=
  a.toUInt32 ||| (b.toUInt32 <<< 8) ||| (c.toUInt32 <<< 16) ||| (d.toUInt32 <<< 24)

def murmurBlock (h k : UInt32) : UInt32 :=
  let k := rotl (k * 0xcc9e2d51) 15 * 0x1b873593
  rotl (h ^^^ k) 13 * 5 + 0xe6546b64

def murmurBlocks : UInt32 → Bytes → UInt32 × Bytes
  | h, a :: b :: c :: d :: data => murmurBlocks (murmurBlock h (littleEndian a b c d)) data
  | h, data => (h, data)

def murmurTail (h : UInt32) (data : Bytes) : UInt32 :=
  let mix (tail : UInt32) : UInt32 := h ^^^ (rotl (tail * 0xcc9e2d51) 15 * 0x1b873593)
  match data with
  | [a, b, c] => mix ((c.toUInt32 <<< 16) ||| (b.toUInt32 <<< 8) ||| a.toUInt32)
  | [a, b] => mix ((b.toUInt32 <<< 8) ||| a.toUInt32)
  | [a] => mix a.toUInt32
  | _ => h

def murmur3_32 (data : Bytes) : UInt32 :=
  -- the source reslices `data` in its loop, so the length is that of the bytes left over
  let (h, data) := murmurBlocks 0x9747b28c data
  murmur3Finalise (murmurTail h data ^^^ UInt32.ofNat data.length)

def vnodeKey (id : UInt32) (i : Nat) : Bytes := decimal id.toNat ++ ascii ":" ++ decimal i

example : vnodeKey 12 7 = ascii "12:7" := by decide

theorem murmur3FinaliseOnto (pos : UInt32) : ∃ key, murmur3Finalise key = pos := Murmur3.fmix32Onto pos

end OmegaLb.RingHash
