import UnitE.Lib.LittleEndian
import UnitE.Spec.Types

/-! The stream format of `serialize.h` that admin commands are written in: little-endian
integers, `CompactSize` lengths, and public keys with their length in front. A reader takes
the bytes left in the stream and returns what it read and the bytes after it, or `none`
where the stream throws `std::ios_base::failure`. -/

namespace UnitE

open Bytes

/-- `MAX_SIZE`, the largest length `ReadCompactSize` accepts. -/
def MAX_SIZE : Nat := 0x02000000

/-- `CDataStream::read` of `n` bytes, which throws at the end of the data. -/
def readBytes (n : Nat) (s : List UInt8) : Option (List UInt8 × List UInt8) :=
  if s.length < n then none else some (s.take n, s.drop n)

def ser_readdata8 : List UInt8 → Option (UInt8 × List UInt8)
  | [] => none
  | b :: s => some (b, s)

/-- `ser_readdata16`, `ser_readdata32` and `ser_readdata64`: `n` bytes, little-endian. -/
def ser_readdataLE (n : Nat) (s : List UInt8) : Option (Nat × List UInt8) :=
  (readBytes n s).map fun r => (ofListLE r.1, r.2)

/-- `WriteCompactSize`: one byte below 253, else a marker and 2, 4 or 8 bytes. -/
def WriteCompactSize (nSize : Nat) : List UInt8 :=
  if nSize < 253 then [UInt8.ofNat nSize]
  else if nSize ≤ 0xffff then 253 :: toListLE 2 nSize
  else if nSize ≤ 0xffffffff then 254 :: toListLE 4 nSize
  else 255 :: toListLE 8 nSize

/-- `ReadCompactSize`, which rejects a length written in more bytes than it needs and a
length above `MAX_SIZE`. -/
def ReadCompactSize (s : List UInt8) : Option (Nat × List UInt8) := do
  let (chSize, s) ← ser_readdata8 s
  let (nSizeRet, s) ←
    if chSize < 253 then pure (chSize.toNat, s)
    else if chSize = 253 then do
      let (n, s) ← ser_readdataLE 2 s
      if n < 253 then none else pure (n, s)
    else if chSize = 254 then do
      let (n, s) ← ser_readdataLE 4 s
      if n < 0x10000 then none else pure (n, s)
    else do
      let (n, s) ← ser_readdataLE 8 s
      if n < 0x100000000 then none else pure (n, s)
  if nSizeRet > MAX_SIZE then none else pure (nSizeRet, s)

namespace CPubKey

def PUBLIC_KEY_SIZE : Nat := 65

def COMPRESSED_PUBLIC_KEY_SIZE : Nat := 33

/-- `CPubKey::GetLen`: the length of a key, by its header byte. -/
def GetLen (chHeader : UInt8) : Nat :=
  if chHeader = 2 ∨ chHeader = 3 then COMPRESSED_PUBLIC_KEY_SIZE
  else if chHeader = 4 ∨ chHeader = 6 ∨ chHeader = 7 then PUBLIC_KEY_SIZE
  else 0

/-- `CPubKey::size`. A key with no bytes is the invalid key, whose header is `0xFF`. -/
def size (k : CPubKey) : Nat := GetLen (k.vch.headD 0xFF)

def IsValid (k : CPubKey) : Bool := k.size > 0

def IsCompressed (k : CPubKey) : Bool := k.size == COMPRESSED_PUBLIC_KEY_SIZE

/-- `CPubKey::Serialize`: the length, then the key's bytes. -/
def Serialize (k : CPubKey) : List UInt8 := WriteCompactSize k.size ++ k.vch.take k.size

/-- `CPubKey::Unserialize` into a new key. Its array of `PUBLIC_KEY_SIZE` bytes gets the
bytes read over what the constructor left in it: `0xFF` first (`Invalidate`), then bytes
the constructor does not set, `fresh j` at position `j`. The key is the first
`GetLen` bytes of the array. A longer key is skipped and leaves the key invalid. -/
def Unserialize (fresh : Nat → UInt8) (s : List UInt8) : Option (CPubKey × List UInt8) := do
  let (len, s) ← ReadCompactSize s
  if len ≤ PUBLIC_KEY_SIZE then
    let (bytes, s) ← readBytes len s
    let vch := bytes ++
      ((List.range PUBLIC_KEY_SIZE).drop len).map fun j => if j = 0 then 0xFF else fresh j
    pure (⟨vch.take (GetLen (vch.headD 0xFF))⟩, s)
  else
    let (_, s) ← readBytes len s
    pure (⟨[]⟩, s)

end CPubKey

/-- The loop of `Unserialize_impl` for a `std::vector<CPubKey>`: `n` keys, the `i`-th one read
into a new key whose unset bytes are `fresh i`. -/
def UnserializeKeys (fresh : Nat → Nat → UInt8) :
    Nat → Nat → List UInt8 → Option (List CPubKey × List UInt8)
  | 0, _, s => some ([], s)
  | n + 1, i, s => do
    let (key, s) ← CPubKey.Unserialize (fresh i) s
    let (keys, s) ← UnserializeKeys fresh n (i + 1) s
    pure (key :: keys, s)

/-- `Serialize` of a `std::vector<CPubKey>`: the number of keys, then the keys. -/
def SerializeKeys (keys : List CPubKey) : List UInt8 :=
  WriteCompactSize keys.length ++ keys.flatMap CPubKey.Serialize

/-- `Unserialize` of a `std::vector<CPubKey>`. -/
def UnserializeKeyVector (fresh : Nat → Nat → UInt8) (s : List UInt8) :
    Option (List CPubKey × List UInt8) := do
  let (nSize, s) ← ReadCompactSize s
  UnserializeKeys fresh nSize 0 s

end UnitE
