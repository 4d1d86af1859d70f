import Mathlib.Data.Vector.Basic

/-! # Transport identity of a peer

A peer is known by the digest of its TLS `SubjectPublicKeyInfo`: 32 bytes, rendered as
lowercase hex wherever a person or a log reads them.
-/
namespace DigTls

abbrev Bytes := List UInt8

abbrev Octets (n : ℕ) := List.Vector UInt8 n

structure PeerId where
  bytes : Octets 32
  deriving DecidableEq

namespace PeerId

def hexDigits (b : UInt8) : List Char := [Nat.digitChar (b >>> 4).toNat, Nat.digitChar (b &&& 0x0f).toNat]

def toHex (id : PeerId) : String := String.ofList (id.bytes.toList.flatMap hexDigits)

end PeerId

end DigTls
