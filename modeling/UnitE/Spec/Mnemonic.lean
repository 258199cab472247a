import Mathlib.Data.List.Basic

/-! `key::mnemonic`: the words of a mnemonic for an entropy, and the entropy back from the
words (`mnemonic.cpp`). Strings are byte strings, as `std::string` is. A word list is the bytes
of one of the `*_txt` arrays: each word followed by a newline. `Encode` appends to the entropy
the first bits of its SHA-256, cuts entropy and checksum into 11-bit indices, and joins the
indexed words with spaces, which become ideographic spaces in Japanese. `Decode` trims and
normalises the text, looks up each word between spaces, ORs the indices back into bytes and
checks the checksum. The hash, the word lists and unilib's NFKD of UTF-8 text
(`NormaliseUnicode`) are parameters. -/

namespace UnitE.Mnemonic

inductive Language
  | ENGLISH
  | FRENCH
  | JAPANESE
  | SPANISH
  | CHINESE_S
  | CHINESE_T
  | ITALIAN
  | KOREAN
  deriving DecidableEq, Repr

/-- `Language::_to_index`. -/
def Language.toIndex : Language → Nat
  | .ENGLISH => 0
  | .FRENCH => 1
  | .JAPANESE => 2
  | .SPANISH => 3
  | .CHINESE_S => 4
  | .CHINESE_T => 5
  | .ITALIAN => 6
  | .KOREAN => 7

/-- `'\n'`, which ends each word of a word list. -/
def newline : UInt8 := 0x0A

/-- `' '`. -/
def space : UInt8 := 0x20

/-- `"　"`, the ideographic space, in UTF-8. -/
def ideographicSpace : List UInt8 := [0xE3, 0x80, 0x80]

/-- `std::isspace` in the C locale. -/
def isspace (c : UInt8) : Bool :=
  c == 0x20 || c == 0x09 || c == 0x0A || c == 0x0B || c == 0x0C || c == 0x0D

/-- `ReplaceStrInPlace`: every occurrence of `search` from the left replaced, the search going
on after the replacement. The source loops forever on an empty `search`; it is only called with
a space. -/
def ReplaceStrInPlace (search replace : List UInt8) (subject : List UInt8) : List UInt8 :=
  match subject with
  | [] => []
  | c :: rest =>
    if _hfound : search ≠ [] ∧ search <+: c :: rest then
      replace ++ ReplaceStrInPlace search replace ((c :: rest).drop search.length)
    else c :: ReplaceStrInPlace search replace rest
termination_by subject.length
decreasing_by
  · have := List.length_pos_iff.2 _hfound.1
    simp only [List.length_drop, List.length_cons]
    omega
  · simp

def LTrimWhitespace (s : List UInt8) : List UInt8 := s.dropWhile isspace

def RTrimWhitespace (s : List UInt8) : List UInt8 := (s.reverse.dropWhile isspace).reverse

def TrimWhitespace (s : List UInt8) : List UInt8 := RTrimWhitespace (LTrimWhitespace s)

/-- The first loop of `GetWord`: `pt` moves past `o` newlines, and fails where it reaches the
end of the list. -/
def skipWords : Nat → List UInt8 → Option (List UInt8)
  | 0, pt => some pt
  | _ + 1, [] => none
  | o + 1, c :: pt => if pt = [] then none else skipWords (if c = newline then o else o + 1) pt

/-- The second loop of `GetWord`: the bytes up to the next newline, and a failure without
one. -/
def readWord : List UInt8 → Option (List UInt8)
  | [] => none
  | c :: pt => if c = newline then some [] else (c :: ·) <$> readWord pt

/-- `GetWord(o, pwl, max, sWord)`: the word at index `o` of the word list `pwl` of `max`
bytes, or `none` where it returns 1. -/
def GetWord (o : Nat) (pwl : List UInt8) : Option (List UInt8) := skipWords o pwl >>= readWord

/-- The loop of `GetWordOffset`: `i` words of the list passed, `c` bytes of the current one
read, and `f` while they agree with `p`. -/
def wordOffsetLoop (p : List UInt8) : List UInt8 → Nat → Nat → Bool → Option Nat
  | [], _, _, _ => none
  | b :: pt, i, c, f =>
    if b = newline then
      if f && c == p.length then some i else wordOffsetLoop p pt (i + 1) 0 true
    else
      let f := if c ≥ p.length then false else if f && p[c]? != some b then false else f
      wordOffsetLoop p pt i (c + 1) f

/-- `GetWordOffset(p, pwl, max, o)`: the index of the first word of `pwl` that is the C string
`p`, or `none` where it returns 1. -/
def GetWordOffset (p pwl : List UInt8) : Option Nat := wordOffsetLoop p pwl 0 0 true

/-- The errors of `Encode` and `Decode`. -/
inductive MnemonicError
  | entropyOutOfRange
  | wordExtractFailed (o nLanguage : Nat)
  | wordListTooLong
  | unknownWord (p : List UInt8)
  | wordCountNotDivisible
  | checksumMismatch
  deriving DecidableEq, Repr

/-- The value `Encode` and `Decode` return with each error. -/
def MnemonicError.code : MnemonicError → Int
  | .entropyOutOfRange => 2
  | .wordExtractFailed _ _ => 3
  | .wordListTooLong => 2
  | .unknownWord _ => 3
  | .wordCountNotDivisible => 4
  | .checksumMismatch => 5

/-- The `sError` written with each error. -/
def MnemonicError.sError : MnemonicError → List UInt8
  | .entropyOutOfRange => "Entropy bytes out of range.".toUTF8.toList
  | .wordExtractFailed o nLanguage =>
    s!"Word extract failed {o}, language {nLanguage}.".toUTF8.toList
  | .wordListTooLong => "Word List too long.".toUTF8.toList
  | .unknownWord p => "Unknown word: ".toUTF8.toList ++ p
  | .wordCountNotDivisible => "No. of words must be divisible by 3.".toUTF8.toList
  | .checksumMismatch => "Checksum mismatch.".toUTF8.toList

/-- The body of the loop of `Encode` over bit offsets: the 11 bits of `vIn` from bit `i` on,
most significant first, out of the bytes `s` and `s + 1`, and `s + 2` when they reach it. -/
def EncodeWordIndex (vIn : List UInt8) (i : Nat) : Nat :=
  let s := i / 8
  let r := i % 8
  let b1 := (vIn.getD s 0).toNat
  let b2 := (vIn.getD (s + 1) 0).toNat
  let o := ((b1 <<< r) &&& 0xFF) <<< (11 - 8)
  let o :=
    if r > 5 then
      let b3 := (vIn.getD (s + 2) 0).toNat
      o ||| (b2 <<< (r - 5)) ||| (b3 >>> (8 - (r - 5)))
    else o ||| (b2 >>> ((8 - (11 - 8)) - r))
  o &&& 0x7FF

/-- The loop of `Encode` over bit offsets: an index for every 11 bits from `i` on, while `i` is
below `nBits`. -/
def wordIndices (vIn : List UInt8) (nBits : Nat) (i : Nat) : List Nat :=
  if i < nBits then EncodeWordIndex vIn i :: wordIndices vIn nBits (i + 11) else []
termination_by nBits - i

/-- One step of the loop of `Encode` that joins the words: a space first once the list is not
empty. -/
def appendWord (sWordList sWord : List UInt8) : List UInt8 :=
  (if sWordList ≠ [] then sWordList ++ [space] else sWordList) ++ sWord

/-- The body of the loop of `Encode` over the indices: the word at `o` appended, or the error
of `GetWord`. -/
def encodeWord (pwl : List UInt8) (nLanguage : Nat) (sWordList : List UInt8) (o : Nat) :
    Except MnemonicError (List UInt8) :=
  match GetWord o pwl with
  | some sWord => pure (appendWord sWordList sWord)
  | none => throw (.wordExtractFailed o nLanguage)

/-- `Encode(language, vEntropy, sWordList, sError)`, with the hash `CSHA256` and the word lists
`mnLanguages`. -/
def Encode (CSHA256 : List UInt8 → Vector UInt8 32) (mnLanguages : Language → List UInt8)
    (language : Language) (vEntropy : List UInt8) : Except MnemonicError (List UInt8) := do
  let hash := CSHA256 vEntropy
  let nCsSize := vEntropy.length / 4
  if nCsSize < 1 ∨ nCsSize > 256 then throw .entropyOutOfRange
  let ncb := nCsSize / 8 + if nCsSize % 8 ≠ 0 then 1 else 0
  let vTmp := hash.toList.take ncb ++ List.replicate (32 - ncb) 0
  let vIn := vEntropy ++ vTmp
  let nBits := vEntropy.length * 8 + nCsSize
  let vWord := wordIndices vIn nBits 0
  let pwl := mnLanguages language
  let sWordList ← vWord.foldlM (encodeWord pwl language.toIndex) []
  pure (if language = .JAPANESE then ReplaceStrInPlace [space] ideographicSpace sWordList
    else sWordList)

/-- `strtok(tmp, " ")` called until it returns null: the runs of bytes between spaces that are
not empty. -/
def strtok (s : List UInt8) : List (List UInt8) := (s.splitOn space).filter (! ·.isEmpty)

/-- The body of the loop of `Decode` over the words: the index of `p`, or the error of
`GetWordOffset`. -/
def lookupWord (pwl p : List UInt8) : Except MnemonicError Nat :=
  match GetWordOffset p pwl with
  | some ofs => pure ofs
  | none => throw (.unknownWord p)

/-- The body of the loop of `Decode` over the indices: the 11 bits of `o` or-ed into the bytes
from bit `i` on; the byte `s` always, the next one or two while they are in the vector. -/
def DecodeWordIndex (vEntropy : List UInt8) (i o : Nat) : List UInt8 :=
  let el := vEntropy.length
  let s := i / 8
  let r := i % 8
  let v := vEntropy.modify s (· ||| UInt8.ofNat ((o >>> (r + 3)) &&& 0x7FF))
  if s + 1 < el then
    if r > 5 then
      let v := v.modify (s + 1) (· ||| UInt8.ofNat ((o >>> (r - 5)) &&& 0x7FF))
      if s + 2 < el then v.modify (s + 2) (· ||| UInt8.ofNat ((o <<< (8 - (r - 5))) &&& 0x7FF))
      else v
    else v.modify (s + 1) (· ||| UInt8.ofNat ((o <<< (5 - r)) &&& 0x7FF))
  else v

/-- The loop of `Decode` over the indices, 11 bits apart. -/
def decodeLoop : List UInt8 → Nat → List Nat → List UInt8
  | vEntropy, _, [] => vEntropy
  | vEntropy, i, o :: os => decodeLoop (DecodeWordIndex vEntropy i o) (i + 11) os

/-- `Decode(language, sWordListIn, vEntropy, sError, fIgnoreChecksum)`, with the hash
`CSHA256`, unilib's NFKD `NormaliseUnicode` and the word lists `mnLanguages`. The hash has 32
bytes; a checksum of more bytes than that reads past it in the source, and is compared with the
hash's bytes only here. -/
def Decode (CSHA256 : List UInt8 → Vector UInt8 32) (NormaliseUnicode : List UInt8 → List UInt8)
    (mnLanguages : Language → List UInt8) (language : Language) (sWordListIn : List UInt8)
    (fIgnoreChecksum : Bool) : Except MnemonicError (List UInt8) := do
  let sWordList := NormaliseUnicode (TrimWhitespace sWordListIn)
  if sWordList.length ≥ 2048 then throw .wordListTooLong
  -- the copy into `tmp` by `strcpy` stops at the first NUL
  let tmp := sWordList.takeWhile (· != 0)
  let pwl := mnLanguages language
  let vWordInts ← (strtok tmp).mapM (lookupWord pwl)
  if !fIgnoreChecksum && vWordInts.length % 3 != 0 then throw .wordCountNotDivisible
  let nBits := vWordInts.length * 11
  let nBytes := nBits / 8 + (if nBits % 8 = 0 then 0 else 1)
  let vEntropy := decodeLoop (List.replicate nBytes 0) 0 vWordInts
  if fIgnoreChecksum then return vEntropy
  let nLenChecksum := nBits / 32
  let nLenEntropy := nBits - nLenChecksum
  let nBytesEntropy := nLenEntropy / 8
  let nBytesChecksum := nLenChecksum / 8 + (if nLenChecksum % 8 = 0 then 0 else 1)
  let vCS := (vEntropy.drop nBytesEntropy).take nBytesChecksum
  let vEntropy := vEntropy.take nBytesEntropy
  let hash := CSHA256 vEntropy
  let vCSTest := hash.toList.take nBytesChecksum
  let r := nLenChecksum % 8
  let vCSTest :=
    if r > 0 then
      vCSTest.modify (nBytesChecksum - 1) (· &&& UInt8.ofNat (((1 <<< r) - 1) <<< (8 - r)))
    else vCSTest
  if vCSTest ≠ vCS then throw .checksumMismatch
  return vEntropy

end UnitE.Mnemonic
