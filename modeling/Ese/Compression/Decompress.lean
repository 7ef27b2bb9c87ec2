import Mathlib.Tactic.IntervalCases
import Ese.Lib.Bits

/-!
# Decompression of column data

`CDataCompressor::ErrDecompress` takes the scheme from the header byte. The 7-bit schemes keep the
low bits of each character one behind the other, and the header says how many bits of the final byte
are used; Xpress keeps the size of the data in a word behind the header. A read outside the
compressed data, a write outside the output buffer and an `INT` that overflows are `none`. The
optional schemes are not compiled, so that their identifiers are those of no scheme.
-/

namespace Ese.Compression

/-- The errors and warnings of the compressor. -/
inductive ERR
  | JET_errSuccess | JET_wrnBufferTruncated | wrnRECCompressionScrubDetected
  | JET_errDecompressionFailed | JET_errOutOfMemory | JET_errBufferTooSmall | errRECCannotCompress
  deriving DecidableEq, Repr

/-- The codes below `JET_errSuccess`. -/
def ERR.fFailed : ERR → Bool
  | .JET_errSuccess | .JET_wrnBufferTruncated | .wrnRECCompressionScrubDetected => false
  | _ => true

/-- The scheme of ASCII data. -/
def COMPRESS_7BITASCII : Nat := 1

/-- The scheme of ASCII characters in Unicode. -/
def COMPRESS_7BITUNICODE : Nat := 2

/-- The scheme of the Xpress compression. -/
def COMPRESS_XPRESS : Nat := 3

/-- The scheme of scrubbed data. -/
def COMPRESS_SCRUB : Nat := 4

/-- The value of an `INT` expression. -/
def intT (x : Int) : Option Int := if -2147483648 ≤ x ∧ x ≤ 2147483647 then some x else none

/-- What a decompression returns: the error, the actual size, and the bytes that it writes to the
output buffer. -/
structure Decompressed where
  err : ERR
  cbDataActual : Int
  rgbData : List Byte
  deriving DecidableEq, Repr

/-- The next byte of the output buffer is written. -/
def put (cbDataMax : Nat) (rgbData : List Byte) (b : Byte) : Option (List Byte) :=
  if rgbData.length < cbDataMax then some (rgbData ++ [b]) else none

/-- The seven bits from bit `ibitCompressed` of byte `ibCompressed` on: of one byte, or of a
word. -/
def bDecompressed (pbCompressed : List Byte) (ibCompressed ibitCompressed : Nat) : Option Byte := do
  if ibitCompressed ≤ 1 then
    let bCompressed ← pbCompressed[ibCompressed]?
    return (bCompressed >>> ibitCompressed) &&& 0x7F#8
  else
    let wLow ← pbCompressed[ibCompressed]?
    let wHigh ← pbCompressed[ibCompressed + 1]?
    let wCompressed : BitVec 16 := wLow.setWidth 16 ||| (wHigh.setWidth 16 <<< 8)
    return ((wCompressed >>> ibitCompressed) &&& 0x7F#16).setWidth 8

/-- The position of the next seven bits. -/
def nextIbit (ibCompressed ibitCompressed : Nat) : Nat × Nat :=
  if 8 ≤ ibitCompressed + 7 then (ibCompressed + 1, (ibitCompressed + 7) % 8)
  else (ibCompressed, ibitCompressed + 7)

/-- The loop of the ASCII scheme, with `n` bytes left to write. -/
def asciiLoop (pbCompressed : List Byte) (cbDataMax : Nat) : Nat → Nat → Nat → List Byte →
    Option (List Byte)
  | 0, _, _, rgbData => some rgbData
  | n + 1, ibCompressed, ibitCompressed, rgbData => do
    let rgbData ← put cbDataMax rgbData (← bDecompressed pbCompressed ibCompressed ibitCompressed)
    asciiLoop pbCompressed cbDataMax n (nextIbit ibCompressed ibitCompressed).1
      (nextIbit ibCompressed ibitCompressed).2
      rgbData

/-- The loop of the Unicode scheme, with `n` bytes left to write: it may stop between a byte and the
null behind it. -/
def unicodeLoop (pbCompressed : List Byte) (cbDataMax : Nat) : Nat → Nat → Nat → List Byte →
    Option (List Byte)
  | 0, _, _, rgbData => some rgbData
  | 1, ibCompressed, ibitCompressed, rgbData => do
    put cbDataMax rgbData (← bDecompressed pbCompressed ibCompressed ibitCompressed)
  | n + 2, ibCompressed, ibitCompressed, rgbData => do
    let rgbData ← put cbDataMax rgbData (← bDecompressed pbCompressed ibCompressed ibitCompressed)
    let rgbData ← put cbDataMax rgbData 0
    unicodeLoop pbCompressed cbDataMax n (nextIbit ibCompressed ibitCompressed).1
      (nextIbit ibCompressed ibitCompressed).2 rgbData

section
variable (dataCompressed : List Byte) (fOutput : Bool) (cbDataMax : Nat)

/-- The number of characters: all bits behind the header but the unused ones of the final byte, by
seven. -/
def cchTotal (bHeader : Byte) : Option Int := do
  let cbitFinal : Int := (bHeader &&& 0x7#8).toNat + 1
  let cbit ← intT (((dataCompressed.length : Int) - 2) * 8)
  let cbitTotal ← intT (cbit + cbitFinal)
  return cbitTotal.tdiv 7

/-- The common part of the 7-bit schemes: the actual size is that of the characters, and the loop
writes what fits. -/
def decompress7Bit (cbCharacter : Int)
    (loop : List Byte → Nat → Nat → Nat → Nat → List Byte → Option (List Byte)) :
      Option Decompressed := do
  let bHeader ← dataCompressed[0]?
  let cbDataActual := (← cchTotal dataCompressed bHeader) * cbCharacter
  let err := if cbDataActual > cbDataMax then .JET_wrnBufferTruncated else .JET_errSuccess
  if cbDataMax = 0 ∨ fOutput = false then return ⟨err, cbDataActual, []⟩
  else
    let ibDataMax := min cbDataActual cbDataMax
    return ⟨err, cbDataActual, ← loop dataCompressed cbDataMax ibDataMax.toNat 1 0 []⟩

/-- `ErrDecompress7BitAscii_`. -/
def decompress7BitAscii : Option Decompressed :=
  decompress7Bit dataCompressed fOutput cbDataMax 1 asciiLoop

/-- `ErrDecompress7BitUnicode_`. -/
def decompress7BitUnicode : Option Decompressed :=
  decompress7Bit dataCompressed fOutput cbDataMax 2 unicodeLoop

/-- The decoder of the Xpress library: whether there is memory for its workspace, and what it
decodes of a block that is well formed by its sizes. It writes as many bytes as it says. -/
structure Xpress where
  fDecodeOpen : Bool
  decode : (origSize decodeSize : Nat) → List Byte → Option (List Byte)
  length_decode : ∀ origSize decodeSize comp rgb, decode origSize decodeSize comp = some rgb →
    rgb.length = decodeSize

/-- `MIN_SIZE`. -/
def MIN_SIZE : Nat := 8

/-- `BUFF_SIZE`. -/
def BUFF_SIZE : Nat := 65536

variable (xpress : Xpress)

/-- `XpressDecode`: what it returns, and the bytes that it writes. A block that is as large as the
data is taken for data that was not compressed, and is not written. -/
def xpressDecode (origSize decodeSize : Nat) (comp : List Byte) : Int × List Byte :=
  let decodeSize := min decodeSize origSize
  if comp.length = origSize ∨ decodeSize = 0 then (decodeSize, [])
  else if origSize < comp.length ∨ origSize ≤ MIN_SIZE ∨ comp.length < MIN_SIZE ∨
    BUFF_SIZE < origSize then (-1, [])
  else
    match xpress.decode origSize decodeSize comp with
    | none => (-1, [])
    | some rgb => (decodeSize, rgb)

/-- The word behind the header. -/
def pwSize : Option Nat := do
  let wLow ← dataCompressed[1]?
  let wHigh ← dataCompressed[2]?
  return (wHigh ++ wLow : BitVec 16).toNat

/-- `ErrDecompressXpress_`. -/
def decompressXpress : Option Decompressed := do
  let cbUncompressed ← pwSize dataCompressed
  let cbWanted := min cbUncompressed cbDataMax
  if fOutput = false ∨ cbDataMax = 0 then return ⟨.JET_wrnBufferTruncated, cbUncompressed, []⟩
  else if xpress.fDecodeOpen = false then return ⟨.JET_errOutOfMemory, cbUncompressed, []⟩
  else
    let decoded := xpressDecode xpress cbUncompressed cbWanted (dataCompressed.drop 3)
    let err := if decoded.1 = -1 then .JET_errDecompressionFailed
      else if cbUncompressed > cbDataMax then .JET_wrnBufferTruncated else .JET_errSuccess
    return ⟨err, cbUncompressed, decoded.2⟩

/-- `ErrDecompress`, by the scheme in the header. -/
def decompress : Option Decompressed := do
  let bHeader ← dataCompressed[0]?
  let bIdentifier := (bHeader >>> 3).toNat
  if bIdentifier = COMPRESS_7BITASCII then decompress7BitAscii dataCompressed fOutput cbDataMax
  else if bIdentifier = COMPRESS_7BITUNICODE
    then decompress7BitUnicode dataCompressed fOutput cbDataMax
  else if bIdentifier = COMPRESS_XPRESS
    then decompressXpress dataCompressed fOutput cbDataMax xpress
  else if bIdentifier = COMPRESS_SCRUB then return ⟨.wrnRECCompressionScrubDetected, 0, []⟩
  else return ⟨.JET_errDecompressionFailed, 0, []⟩

end

/-! ## The characters -/

section
variable {pbCompressed rgbData : List Byte} {cbDataMax cch i n : Nat}

/-- A byte that has room is put. -/
theorem put_eq {b : Byte} (h : rgbData.length < cbDataMax) :
    put cbDataMax rgbData b = some (rgbData ++ [b]) := if_pos h

/-- Character `i` of the compressed data. -/
def character (pbCompressed : List Byte) (i : Nat) : Byte :=
  (bDecompressed pbCompressed (1 + 7 * i / 8) (7 * i % 8)).getD 0

/-- The first characters of the compressed data. -/
def characters (pbCompressed : List Byte) (cch : Nat) : List Byte :=
  (List.range cch).map (character pbCompressed)

/-- The words of characters, as bytes. -/
def wide (l : List Byte) : List Byte := l.flatMap fun b => [b, 0]

/-- A character whose bits are all there is read from there. -/
theorem bDecompressed_eq (h : 7 * (i + 1) ≤ 8 * (pbCompressed.length - 1)) :
    bDecompressed pbCompressed (1 + 7 * i / 8) (7 * i % 8) = some (character pbCompressed i) := by
  have hlow := List.getElem?_eq_getElem (show 1 + 7 * i / 8 < pbCompressed.length by omega)
  rw [character, bDecompressed]
  split_ifs with hone
  · rw [hlow]
    rfl
  · rw [hlow, List.getElem?_eq_getElem (show 1 + 7 * i / 8 + 1 < pbCompressed.length by omega)]
    rfl

/-- The next seven bits. -/
theorem nextIbit_eq (i : Nat) :
    nextIbit (1 + 7 * i / 8) (7 * i % 8) = (1 + 7 * (i + 1) / 8, 7 * (i + 1) % 8) := by
  rw [nextIbit]
  split_ifs
  all_goals
    rw [Prod.mk.injEq]
    omega

/-- One more character. -/
theorem characters_succ (i n : Nat) :
    (List.range (n + 1)).map (fun j => character pbCompressed (i + j)) =
    character pbCompressed i :: (List.range n).map fun j => character pbCompressed (i + 1 + j) := by
  rw [List.range_succ_eq_map, List.map_cons, List.map_map, Nat.add_zero]
  congr 1
  refine List.map_congr_left fun j _ => ?_
  rw [Function.comp_apply, Nat.succ_eq_add_one, Nat.add_assoc, Nat.add_comm 1 j]

/-- The loop over the characters reads them one after the other. -/
theorem asciiLoop_spec (hlength : rgbData.length = i) (hmax : i + n ≤ cbDataMax)
    (hbits : 7 * (i + n) ≤ 8 * (pbCompressed.length - 1)) :
    asciiLoop pbCompressed cbDataMax n (1 + 7 * i / 8) (7 * i % 8) rgbData =
      some (rgbData ++ (List.range n).map fun j => character pbCompressed (i + j)) := by
  induction n generalizing i rgbData with
  | zero => rw [asciiLoop, List.range_zero, List.map_nil, List.append_nil]
  | succ n ih =>
    rw [asciiLoop, bDecompressed_eq (by omega)]
    simp only [Option.bind_eq_bind, Option.bind_some, nextIbit_eq]
    rw [put_eq (by omega), Option.bind_some, ih (by rw [List.length_append, hlength]; rfl)
      (by omega) (by omega),
      List.append_assoc, characters_succ, List.singleton_append]

/-- By induction in steps of the two bytes of a character. -/
theorem unicodeLoop_spec (hlength : rgbData.length = 2 * i) (hmax : 2 * i + n ≤ cbDataMax)
    (hbits : 7 * (i + (n + 1) / 2) ≤ 8 * (pbCompressed.length - 1)) :
    unicodeLoop pbCompressed cbDataMax n (1 + 7 * i / 8) (7 * i % 8) rgbData =
      some (rgbData ++ (wide ((List.range ((n + 1) / 2)).map fun j => character pbCompressed
        (i + j))).take n) := by
  induction n using Nat.twoStepInduction generalizing i rgbData with
  | zero => rw [unicodeLoop, List.take_zero, List.append_nil]
  | one =>
    rw [unicodeLoop, bDecompressed_eq (by omega)]
    simp only [Option.bind_eq_bind, Option.bind_some]
    rw [put_eq (by omega)]
    rfl
  | more n ih =>
    rw [unicodeLoop, bDecompressed_eq (by omega)]
    simp only [Option.bind_eq_bind, Option.bind_some, nextIbit_eq]
    rw [put_eq (by omega), Option.bind_some,
      put_eq (by rw [List.length_append, hlength, List.length_singleton]; omega),
      Option.bind_some, ih (by rw [List.length_append, List.length_append, hlength]; rfl) (by omega)
      (by omega),
      show (n + 2 + 1) / 2 = (n + 1) / 2 + 1 by
        omega, characters_succ, wide, wide, List.flatMap_cons, List.append_assoc,
      List.append_assoc]
    rfl

/-- There are as many characters as asked for. -/
theorem length_characters : (characters pbCompressed cch).length = cch := by
  rw [characters, List.length_map, List.length_range]

/-- A wide character has two bytes. -/
theorem length_wide (l : List Byte) : (wide l).length = 2 * l.length := by
  induction l with
  | nil => rfl
  | cons b l ih =>
    rw [wide, List.flatMap_cons, List.length_append, List.length_cons, ← wide, ih]
    exact Nat.add_comm 2 (2 * l.length)

/-- The first characters. -/
theorem characters_take (h : n ≤ cch) :
    (characters pbCompressed cch).take n = characters pbCompressed n := by
  rw [characters, ← List.map_take, List.take_range, Nat.min_eq_left h, characters]

/-- Wide characters in a row. -/
theorem wide_append (l l' : List Byte) : wide (l ++ l') = wide l ++ wide l' := List.flatMap_append

/-- The loop writes the first bytes of the characters. -/
theorem asciiLoop_eq (hmax : n ≤ cbDataMax) (hn : n ≤ cch)
    (hbits : 7 * cch ≤ 8 * (pbCompressed.length - 1)) :
    asciiLoop pbCompressed cbDataMax n 1 0 [] = some ((characters pbCompressed cch).take n) := by
  have hloop : asciiLoop pbCompressed cbDataMax n (1 + 7 * 0 / 8) (7 * 0 % 8) [] = _ :=
    asciiLoop_spec rfl ((Nat.zero_add n).trans_le hmax) (by omega)
  rw [characters_take hn, characters]
  simpa only [Nat.mul_zero, Nat.zero_div, Nat.add_zero, Nat.zero_mod, List.nil_append, Nat.zero_add]
    using hloop

/-- The loop writes the first bytes of the words of the characters. -/
theorem unicodeLoop_eq (hmax : n ≤ cbDataMax) (hn : n ≤ 2 * cch)
    (hbits : 7 * cch ≤ 8 * (pbCompressed.length - 1)) :
    unicodeLoop pbCompressed cbDataMax n 1 0 [] =
      some ((wide (characters pbCompressed cch)).take n) := by
  have hloop : unicodeLoop pbCompressed cbDataMax n (1 + 7 * 0 / 8) (7 * 0 % 8) [] = _ :=
    unicodeLoop_spec rfl ((Nat.zero_add n).trans_le hmax) (by omega)
  have hhalf : (n + 1) / 2 ≤ cch := by omega
  have hsplit : wide (characters pbCompressed cch) =
      wide ((characters pbCompressed cch).take ((n + 1) / 2)) ++
      wide ((characters pbCompressed cch).drop ((n + 1) / 2)) := by
    rw [← wide_append, List.take_append_drop]
  rw [hsplit, characters_take hhalf, List.take_append_of_le_length]
  · rw [characters]
    simpa only [Nat.mul_zero, Nat.zero_div, Nat.add_zero, Nat.zero_mod, List.nil_append,
      Nat.zero_add] using hloop
  · rw [length_wide, length_characters]
    omega

end

/-! ## The 7-bit schemes -/

section
variable {bHeader : Byte} {rgb : List Byte} {fOutput : Bool} {cbDataMax : Nat}

/-- The number of bits of the final byte. -/
def cbitFinal (bHeader : Byte) : Nat := (bHeader &&& 0x7#8).toNat + 1

/-- The last byte has eight bits. -/
theorem cbitFinal_le (bHeader : Byte) : cbitFinal bHeader ≤ 8 := by
  have h : (bHeader &&& 0x7#8).toNat < 8 := by
    rw [BitVec.toNat_and]
    exact Nat.and_lt_two_pow _ (show (0x7#8).toNat < 2 ^ 3 by decide)
  rw [cbitFinal]
  omega

/-- The bits behind the header fit an `INT`. -/
def BitsFit (bHeader : Byte) (rgb : List Byte) : Prop :=
  8 * rgb.length + cbitFinal bHeader ≤ 2147483647 + 8

/-- A number in the range of an INT is kept. -/
theorem intT_eq {x : Int} (h : -2147483648 ≤ x) (h' : x ≤ 2147483647) : intT x = some x :=
  if_pos ⟨h, h'⟩

/-- Where the count of the bits overflows there is none. -/
theorem cchTotal_none (h : ¬ BitsFit bHeader rgb) : cchTotal (bHeader :: rgb) bHeader = none := by
  rw [BitsFit, cbitFinal] at h
  rw [cchTotal, List.length_cons]
  by_cases hcbit : ((rgb.length + 1 : Nat) - 2 : Int) * 8 ≤ 2147483647
  · rw [intT_eq (by omega) hcbit]
    simp only [Option.bind_eq_bind, Option.bind_some]
    rw [intT, if_neg (by omega)]
    rfl
  · rw [intT, if_neg (by omega)]
    rfl

/-- The number of characters is rounded towards zero. -/
theorem cchTotal_eq (h : BitsFit bHeader rgb) :
    cchTotal (bHeader :: rgb) bHeader =
      some ((8 * (rgb.length : Int) - 8 + cbitFinal bHeader).tdiv 7) := by
  rw [BitsFit, cbitFinal] at h
  rw [cchTotal, List.length_cons, intT_eq (by omega) (by omega)]
  simp only [Option.bind_eq_bind, Option.bind_some]
  rw [intT_eq (by omega) (by omega), Option.bind_some, cbitFinal]
  congr 2
  omega

/-- Only the header, which says that a single bit of the final byte is used. -/
def HeaderOnly (bHeader : Byte) (rgb : List Byte) : Prop := rgb = [] ∧ cbitFinal bHeader = 1

/-- The number of characters that the bits are enough for. -/
def cch (bHeader : Byte) (rgb : List Byte) : Nat := (8 * rgb.length + cbitFinal bHeader - 8) / 7

/-- The characters are in the data. -/
theorem cch_le (bHeader : Byte) (rgb : List Byte) :
    7 * cch bHeader rgb ≤ 8 * ((bHeader :: rgb).length - 1) := by
  have hle := cbitFinal_le bHeader
  rw [List.length_cons, cch]
  omega

/-- Data of a header only has a count of -1. -/
theorem cchTotal_headerOnly (h : HeaderOnly bHeader rgb) :
    cchTotal (bHeader :: rgb) bHeader = some (-1) := by
  obtain ⟨rfl, hone⟩ := h
  rw [cchTotal_eq (by rw [BitsFit, hone]; decide), hone]
  rfl

/-- The number of characters. -/
theorem cchTotal_cch (h : BitsFit bHeader rgb) (hheader : ¬ HeaderOnly bHeader rgb) :
    cchTotal (bHeader :: rgb) bHeader = some (cch bHeader rgb : Int) := by
  rw [cchTotal_eq h, cch]
  congr 1
  have hle := cbitFinal_le bHeader
  rcases Nat.eq_zero_or_pos rgb.length with hzero | hpos
  · have hmore : cbitFinal bHeader ≠ 1 :=
      fun hone => hheader ⟨List.eq_nil_of_length_eq_zero hzero, hone⟩
    have hpos : 0 < cbitFinal bHeader := Nat.succ_pos _
    rw [hzero, Nat.mul_zero, Nat.zero_add]
    generalize cbitFinal bHeader = c at *
    interval_cases c <;> first | rfl | contradiction
  · rw [Int.tdiv_eq_ediv_of_nonneg (by omega)]
    omega

/-- The output of a decompression that loops over the bytes that fit. -/
theorem decompress7Bit_eq {k : Nat} {loop : List Byte → Nat → Nat → Nat → Nat → List Byte →
    Option (List Byte)} {l : List Byte}
    (h : BitsFit bHeader rgb) (hheader : ¬ HeaderOnly bHeader rgb)
    (hl : l.length = cch bHeader rgb * k)
    (hloop : ∀ n ≤ cbDataMax, n ≤ cch bHeader rgb * k →
      loop (bHeader :: rgb) cbDataMax n 1 0 [] = some (l.take n)) :
    decompress7Bit (bHeader :: rgb) fOutput cbDataMax k loop =
      some ⟨if cbDataMax < l.length then .JET_wrnBufferTruncated else .JET_errSuccess, l.length,
        if fOutput then l.take cbDataMax else []⟩ := by
  rw [decompress7Bit]
  simp only [List.getElem?_cons_zero, cchTotal_cch h hheader, Option.bind_eq_bind, Option.bind_some]
  have hactual : (cch bHeader rgb : Int) * k = (l.length : Int) := by rw [hl, Nat.cast_mul]
  have htruncated : (l.length : Int) > cbDataMax ↔ cbDataMax < l.length := by omega
  simp only [hactual, htruncated]
  by_cases hnone : cbDataMax = 0 ∨ fOutput = false
  · rw [if_pos hnone]
    congr 2
    rcases hnone with rfl | rfl
    · rw [List.take_zero, ite_self]
    · rw [if_neg Bool.false_ne_true]
  · obtain ⟨hmax, houtput⟩ := not_or.1 hnone
    rw [if_neg hnone, hloop _ (by omega) (by omega), eq_true_of_ne_false houtput, if_pos rfl]
    rw [← Nat.cast_min, Int.toNat_natCast, Nat.min_comm, ← List.take_take, List.take_length]
    rfl

/-- Data of a header only is decompressed to a negative size. -/
theorem decompress7Bit_headerOnly {k : Nat} {loop : List Byte → Nat → Nat → Nat → Nat → List Byte →
    Option (List Byte)}
    (h : HeaderOnly bHeader rgb) (hloop : loop (bHeader :: rgb) cbDataMax 0 1 0 [] = some []) :
    decompress7Bit (bHeader :: rgb) fOutput cbDataMax k loop = some ⟨.JET_errSuccess, -k, []⟩ := by
  rw [decompress7Bit]
  simp only [List.getElem?_cons_zero, cchTotal_headerOnly h, Option.bind_eq_bind, Option.bind_some]
  have hfits : ¬ -1 * (k : Int) > cbDataMax := by omega
  rw [if_neg hfits, show (min (-1 * (k : Int)) cbDataMax).toNat = 0 by omega, hloop, neg_one_mul]
  split_ifs <;> rfl

/-- Where the count of the bits overflows nothing is defined. -/
theorem decompress7Bit_none {k : Int} {loop : List Byte → Nat → Nat → Nat → Nat → List Byte →
    Option (List Byte)}
    (h : ¬ BitsFit bHeader rgb) : decompress7Bit (bHeader :: rgb) fOutput cbDataMax k loop =
      none := by
  rw [decompress7Bit]
  simp only [List.getElem?_cons_zero, cchTotal_none h, Option.bind_eq_bind, Option.bind_some,
    Option.bind_none]

/-- Decompressed ASCII data. -/
theorem decompress7BitAscii_eq (h : BitsFit bHeader rgb) (hheader : ¬ HeaderOnly bHeader rgb) :
    decompress7BitAscii (bHeader :: rgb) fOutput cbDataMax =
      some ⟨if cbDataMax < cch bHeader rgb then .JET_wrnBufferTruncated else .JET_errSuccess,
        cch bHeader rgb,
        if fOutput then (characters (bHeader :: rgb) (cch bHeader rgb)).take cbDataMax
        else []⟩ := by
  have hlength : (characters (bHeader :: rgb) (cch bHeader rgb)).length = cch bHeader rgb :=
    length_characters
  have heq : decompress7Bit (bHeader :: rgb) fOutput cbDataMax (1 : Nat) asciiLoop = _ :=
    decompress7Bit_eq h hheader
    (hlength.trans (Nat.mul_one _).symm) fun n hmax hn => asciiLoop_eq hmax
    (hn.trans_eq (Nat.mul_one _)) (cch_le bHeader rgb)
  rwa [hlength] at heq

/-- Decompressed Unicode data. -/
theorem decompress7BitUnicode_eq (h : BitsFit bHeader rgb) (hheader : ¬ HeaderOnly bHeader rgb) :
    decompress7BitUnicode (bHeader :: rgb) fOutput cbDataMax =
      some ⟨if cbDataMax < 2 * cch bHeader rgb then .JET_wrnBufferTruncated else .JET_errSuccess,
        (2 * cch bHeader rgb : Nat),
        if fOutput then (wide (characters (bHeader :: rgb) (cch bHeader rgb))).take cbDataMax
        else []⟩ := by
  have hlength : (wide (characters (bHeader :: rgb) (cch bHeader rgb))).length =
    2 * cch bHeader rgb := by
    rw [length_wide, length_characters]
  have heq : decompress7Bit (bHeader :: rgb) fOutput cbDataMax (2 : Nat) unicodeLoop = _ :=
    decompress7Bit_eq h hheader
    (hlength.trans (Nat.mul_comm _ _)) fun n hmax hn => unicodeLoop_eq hmax
    (hn.trans_eq (Nat.mul_comm _ _)) (cch_le bHeader rgb)
  rwa [hlength] at heq

end

/-! ## Safety -/

section
variable {bHeader : Byte} {rgb : List Byte} {fOutput : Bool} {cbDataMax : Nat} {xpress : Xpress}

/-- A decompression fails, or it reports the size of the data, of which it has written what fits. -/
def Decompressed.Sound (fOutput : Bool) (cbDataMax : Nat) (r : Decompressed) : Prop :=
  r.err.fFailed ∨ 0 ≤ r.cbDataActual ∧
    (r.rgbData.length : Int) = if fOutput then min r.cbDataActual cbDataMax else 0

/-- What a decompression needs of compressed data. In a 7-bit scheme the bits fit an `INT`, and a
lone header does not say that a single bit is used. In Xpress the size is there, and data that is to
be written is not as large as the block. -/
def WellFormed (bHeader : Byte) (rgb : List Byte) (fOutput : Bool) (cbDataMax : Nat)
    (xpress : Xpress) : Prop :=
  let bIdentifier := (bHeader >>> 3).toNat
  (bIdentifier = COMPRESS_7BITASCII ∨ bIdentifier = COMPRESS_7BITUNICODE → BitsFit bHeader rgb ∧
    ¬ HeaderOnly bHeader rgb) ∧
  (bIdentifier = COMPRESS_XPRESS → ∃ cb, pwSize (bHeader :: rgb) = some cb ∧
    ¬ (fOutput ∧ xpress.fDecodeOpen ∧ cbDataMax ≠ 0 ∧ cb ≠ 0 ∧ cb + 2 = rgb.length))

/-- A 7-bit scheme, from its three outcomes. -/
theorem sound7Bit_iff {m : Option Decompressed} {k : Nat} {l : List Byte} (hk : 0 < k)
    (hnone : ¬ BitsFit bHeader rgb → m = none)
    (hheader : HeaderOnly bHeader rgb → m = some ⟨.JET_errSuccess, -k, []⟩)
    (heq : BitsFit bHeader rgb → ¬ HeaderOnly bHeader rgb →
      m = some ⟨if cbDataMax < l.length then .JET_wrnBufferTruncated else .JET_errSuccess, l.length,
        if fOutput then l.take cbDataMax else []⟩) :
    (∃ r, m = some r ∧ r.Sound fOutput cbDataMax) ↔ BitsFit bHeader rgb ∧
      ¬ HeaderOnly bHeader rgb := by
  by_cases hfit : BitsFit bHeader rgb
  · by_cases honly : HeaderOnly bHeader rgb
    · refine iff_of_false ?_ fun h => h.2 honly
      rintro ⟨r, hr, hsound⟩
      obtain rfl := Option.some.inj ((hheader honly).symm.trans hr)
      rcases hsound with hfailed | ⟨hnonneg, -⟩
      · exact Bool.noConfusion hfailed
      · dsimp only at hnonneg
        omega
    · refine iff_of_true ⟨_, heq hfit honly, .inr ⟨Int.natCast_nonneg _, ?_⟩⟩ ⟨hfit, honly⟩
      dsimp only
      split_ifs
      · rw [List.length_take, Nat.cast_min, min_comm]
      · rfl
  · refine iff_of_false ?_ fun h => hfit h.1
    rintro ⟨r, hr, -⟩
    exact absurd ((hnone hfit).symm.trans hr).symm (Option.some_ne_none r)

/-- The size in the header of Xpress data has two bytes. -/
theorem pwSize_eq_some {cb : Nat} (h : pwSize (bHeader :: rgb) = some cb) : 2 ≤ rgb.length := by
  obtain ⟨wLow, -, h⟩ := Option.bind_eq_some_iff.1 h
  obtain ⟨wHigh, hHigh, -⟩ := Option.bind_eq_some_iff.1 h
  have hlt := (List.getElem?_eq_some_iff.1 hHigh).1
  rw [List.length_cons] at hlt
  omega

/-- What `XpressDecode` says of a block that is not as large as the data. -/
theorem xpressDecode_spec {origSize decodeSize : Nat} {comp : List Byte}
    (hle : decodeSize ≤ origSize)
    (hpos : 0 < decodeSize) (hcomp : comp.length ≠ origSize) :
    (xpressDecode xpress origSize decodeSize comp).1 = -1 ∨
      (xpressDecode xpress origSize decodeSize comp).2.length = decodeSize := by
  rw [xpressDecode, Nat.min_eq_left hle, if_neg (by omega)]
  split_ifs
  · exact .inl rfl
  · cases hdecode : xpress.decode origSize decodeSize comp with
    | none => exact .inl rfl
    | some rgb => exact .inr (xpress.length_decode _ _ _ _ hdecode)

/-- What `XpressDecode` says of a block that it does not write. -/
theorem xpressDecode_stored {origSize decodeSize : Nat} {comp : List Byte}
    (hle : decodeSize ≤ origSize)
    (h : comp.length = origSize ∨ decodeSize = 0) : xpressDecode xpress origSize decodeSize comp =
      ((decodeSize : Int), []) := by
  rw [xpressDecode, Nat.min_eq_left hle, if_pos h]

/-- The Xpress scheme. -/
theorem soundXpress_iff :
    (∃ r, decompressXpress (bHeader :: rgb) fOutput cbDataMax xpress = some r ∧
      r.Sound fOutput cbDataMax) ↔ ∃ cb, pwSize (bHeader :: rgb) = some cb ∧
        ¬ (fOutput ∧ xpress.fDecodeOpen ∧ cbDataMax ≠ 0 ∧ cb ≠ 0 ∧ cb + 2 = rgb.length) := by
  cases hsize : pwSize (bHeader :: rgb) with
  | none =>
    refine iff_of_false ?_ ?_
    · rintro ⟨r, hr, -⟩
      rw [decompressXpress, hsize] at hr
      exact absurd hr.symm (Option.some_ne_none r)
    · rintro ⟨cb, hcb, -⟩
      exact absurd hcb.symm (Option.some_ne_none cb)
  | some cb =>
    have hlength := pwSize_eq_some hsize
    have hdrop : ((bHeader :: rgb).drop 3).length = rgb.length - 2 := by
      rw [List.length_drop, List.length_cons]
      omega
    simp only [decompressXpress, hsize, Option.bind_eq_bind, Option.bind_some, Option.some.injEq,
      exists_eq_left']
    by_cases hnone : fOutput = false ∨ cbDataMax = 0
    · rw [if_pos hnone]
      refine iff_of_true ⟨_, rfl, .inr ⟨Int.natCast_nonneg _, ?_⟩⟩ ?_
      · dsimp only
        split_ifs with houtput
        · rcases hnone with hnone | rfl
          · exact Bool.noConfusion (houtput.symm.trans hnone)
          · exact (min_eq_right (Int.natCast_nonneg cb)).symm
        · rfl
      · rintro ⟨houtput, -, hmax, -⟩
        rcases hnone with hnone | hnone
        · exact Bool.noConfusion (houtput.symm.trans hnone)
        · exact hmax hnone
    · obtain ⟨houtput, hmax⟩ := not_or.1 hnone
      rw [if_neg hnone]
      by_cases hopen : xpress.fDecodeOpen = false
      · rw [if_pos hopen]
        refine iff_of_true ⟨_, rfl, .inl rfl⟩ ?_
        rintro ⟨-, hopen', -⟩
        exact Bool.noConfusion (hopen'.symm.trans hopen)
      · rw [if_neg hopen]
        have hopen' : xpress.fDecodeOpen = true := eq_true_of_ne_false hopen
        by_cases hstored : cb ≠ 0 ∧ cb + 2 = rgb.length
        · -- the decoder says that it has decoded what it has not written
          have hcomp : ((bHeader :: rgb).drop 3).length = cb := by omega
          rw [xpressDecode_stored (Nat.min_le_left _ _) (.inl hcomp)]
          refine iff_of_false ?_ fun h => h ⟨eq_true_of_ne_false houtput, hopen', hmax, hstored⟩
          rintro ⟨r, hr, hsound⟩
          obtain rfl := Option.some.inj hr
          rcases hsound with hfailed | ⟨-, hlength⟩
          · dsimp only at hfailed
            rw [if_neg (by omega)] at hfailed
            split_ifs at hfailed <;> exact Bool.noConfusion hfailed
          · dsimp only at hlength
            rw [if_pos (eq_true_of_ne_false houtput), List.length_nil] at hlength
            omega
        · refine iff_of_true ⟨_, rfl, ?_⟩ fun h => hstored h.2.2.2
          rcases Nat.eq_zero_or_pos (min cb cbDataMax) with hzero | hpos
          · rw [hzero, xpressDecode_stored (Nat.zero_le _) (.inr rfl)]
            refine .inr ⟨Int.natCast_nonneg _, ?_⟩
            dsimp only
            rw [if_pos (eq_true_of_ne_false houtput), List.length_nil]
            omega
          · rcases @xpressDecode_spec xpress _ _ _ (Nat.min_le_left cb cbDataMax) hpos
              (show ((bHeader :: rgb).drop 3).length ≠ cb by omega) with hfailed | hwritten
            · refine .inl ?_
              dsimp only
              rw [if_pos hfailed]
              rfl
            · refine .inr ⟨Int.natCast_nonneg _, ?_⟩
              dsimp only
              rw [hwritten, if_pos (eq_true_of_ne_false houtput), Nat.cast_min]

/-- A decompression of any bytes stays inside them and the output buffer, and fails or reports the
size of the data, of which it has written what fits, exactly if the bytes are well formed. -/
theorem decompress_sound_iff (bHeader : Byte) (rgb : List Byte) (fOutput : Bool) (cbDataMax : Nat)
    (xpress : Xpress) :
    (∃ r, decompress (bHeader :: rgb) fOutput cbDataMax xpress =
      some r ∧ r.Sound fOutput cbDataMax) ↔
      WellFormed bHeader rgb fOutput cbDataMax xpress := by
  rw [WellFormed, decompress]
  simp only [List.getElem?_cons_zero, Option.bind_eq_bind, Option.bind_some]
  by_cases hascii : (bHeader >>> 3).toNat = COMPRESS_7BITASCII
  · have hxpress : (bHeader >>> 3).toNat ≠ COMPRESS_XPRESS := by rw [hascii]; decide
    rw [if_pos hascii]
    refine (sound7Bit_iff (k := 1) (l := characters (bHeader :: rgb) (cch bHeader rgb)) Nat.one_pos
      ?_ ?_ ?_).trans
      ⟨fun h => ⟨fun _ => h, fun h' => absurd h' hxpress⟩, fun h => h.1 (.inl hascii)⟩
    · exact fun h => decompress7Bit_none h
    · exact fun h => decompress7Bit_headerOnly h rfl
    · intro h h'
      rw [length_characters]
      exact decompress7BitAscii_eq h h'
  by_cases hunicode : (bHeader >>> 3).toNat = COMPRESS_7BITUNICODE
  · have hxpress : (bHeader >>> 3).toNat ≠ COMPRESS_XPRESS := by rw [hunicode]; decide
    rw [if_neg hascii, if_pos hunicode]
    refine (sound7Bit_iff (k := 2) (l := wide (characters (bHeader :: rgb) (cch bHeader rgb)))
      Nat.two_pos ?_ ?_ ?_).trans
      ⟨fun h => ⟨fun _ => h, fun h' => absurd h' hxpress⟩, fun h => h.1 (.inr hunicode)⟩
    · exact fun h => decompress7Bit_none h
    · exact fun h => decompress7Bit_headerOnly h rfl
    · intro h h'
      rw [length_wide, length_characters]
      exact decompress7BitUnicode_eq h h'
  have hseven : ¬ ((bHeader >>> 3).toNat = COMPRESS_7BITASCII ∨
    (bHeader >>> 3).toNat = COMPRESS_7BITUNICODE) :=
    not_or.2 ⟨hascii, hunicode⟩
  rw [if_neg hascii, if_neg hunicode]
  by_cases hxpress : (bHeader >>> 3).toNat = COMPRESS_XPRESS
  · rw [if_pos hxpress]
    exact soundXpress_iff.trans ⟨fun h => ⟨fun h' => absurd h' hseven, fun _ => h⟩,
      fun h => h.2 hxpress⟩
  · rw [if_neg hxpress]
    refine iff_of_true ?_ ⟨fun h => absurd h hseven, fun h => absurd h hxpress⟩
    split_ifs
    · refine ⟨_, rfl, .inr ⟨le_rfl, ?_⟩⟩
      dsimp only
      split_ifs
      · exact (min_eq_left (Int.natCast_nonneg cbDataMax)).symm
      · rfl
    · exact ⟨_, rfl, .inl rfl⟩

/-- A lone header of the ASCII scheme reports an actual size of -1. -/
theorem decompress_negative (xpress : Xpress) :
    decompress [0x08] fOutput cbDataMax xpress = some ⟨.JET_errSuccess, -1, []⟩ := by
  have honly : HeaderOnly 0x08 [] := ⟨rfl, by decide⟩
  exact @decompress7Bit_headerOnly _ _ _ _ _ asciiLoop honly rfl

/-- A decoder without memory for its workspace. -/
def Xpress.closed : Xpress where
  fDecodeOpen := false
  decode _ _ _ := none
  length_decode _ _ _ _ h := absurd h.symm (Option.some_ne_none _)

theorem decompress_unsound : ¬ ∀ dataCompressed : List Byte, dataCompressed ≠ [] →
    ∀ fOutput cbDataMax xpress,
    ∃ r, decompress dataCompressed fOutput cbDataMax xpress =
      some r ∧ r.Sound fOutput cbDataMax := by
  intro h
  obtain ⟨r, hr, hsound⟩ := h [0x08] (List.cons_ne_nil _ _) false 0 .closed
  obtain rfl := Option.some.inj ((decompress_negative .closed).symm.trans hr)
  rcases hsound with hfailed | ⟨hnonneg, -⟩
  · exact Bool.noConfusion hfailed
  · exact absurd hnonneg (by decide)

end

end Ese.Compression
