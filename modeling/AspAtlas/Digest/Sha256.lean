/-!
The SHA-256 digest of a text, in lower-case hexadecimal.
-/
namespace AspAtlas.Sha256

/-- The round constants. -/
def constants : Array UInt32 := #[
  0x428a2f98, 0x71374491, 0xb5c0fbcf, 0xe9b5dba5, 0x3956c25b, 0x59f111f1, 0x923f82a4, 0xab1c5ed5,
  0xd807aa98, 0x12835b01, 0x243185be, 0x550c7dc3, 0x72be5d74, 0x80deb1fe, 0x9bdc06a7, 0xc19bf174,
  0xe49b69c1, 0xefbe4786, 0x0fc19dc6, 0x240ca1cc, 0x2de92c6f, 0x4a7484aa, 0x5cb0a9dc, 0x76f988da,
  0x983e5152, 0xa831c66d, 0xb00327c8, 0xbf597fc7, 0xc6e00bf3, 0xd5a79147, 0x06ca6351, 0x14292967,
  0x27b70a85, 0x2e1b2138, 0x4d2c6dfc, 0x53380d13, 0x650a7354, 0x766a0abb, 0x81c2c92e, 0x92722c85,
  0xa2bfe8a1, 0xa81a664b, 0xc24b8b70, 0xc76c51a3, 0xd192e819, 0xd6990624, 0xf40e3585, 0x106aa070,
  0x19a4c116, 0x1e376c08, 0x2748774c, 0x34b0bcb5, 0x391c0cb3, 0x4ed8aa4a, 0x5b9cca4f, 0x682e6ff3,
  0x748f82ee, 0x78a5636f, 0x84c87814, 0x8cc70208, 0x90befffa, 0xa4506ceb, 0xbef9a3f7, 0xc67178f2]

/-- The eight working words. -/
structure Words where
  a : UInt32
  b : UInt32
  c : UInt32
  d : UInt32
  e : UInt32
  f : UInt32
  g : UInt32
  h : UInt32

/-- The words before the first block. -/
def Words.initial : Words :=
  ⟨0x6a09e667, 0xbb67ae85, 0x3c6ef372, 0xa54ff53a, 0x510e527f, 0x9b05688c, 0x1f83d9ab, 0x5be0cd19⟩

/-- The words in order. -/
def Words.toList (w : Words) : List UInt32 := [w.a, w.b, w.c, w.d, w.e, w.f, w.g, w.h]

/-- The wordwise sum. -/
def Words.add (x y : Words) : Words :=
  ⟨x.a + y.a, x.b + y.b, x.c + y.c, x.d + y.d, x.e + y.e, x.f + y.f, x.g + y.g, x.h + y.h⟩

/-- Rotation to the right. -/
def rotate (x n : UInt32) : UInt32 := (x >>> n) ||| (x <<< (32 - n))

/-- The padded bytes: a one bit, zeros up to eight bytes before a block end, and the bit length. -/
def padded (bytes : ByteArray) : ByteArray :=
  let bits := 8 * bytes.size
  let zeros := (119 - bytes.size % 64) % 64
  let withMark := (List.replicate zeros (0 : UInt8)).foldl ByteArray.push (bytes.push 0x80)
  (List.range 8).foldl (fun acc i => acc.push (UInt8.ofNat (bits >>> (8 * (7 - i))))) withMark

/-- The big-endian word at a byte offset. -/
def wordAt (bytes : ByteArray) (offset : Nat) : UInt32 :=
  (List.range 4).foldl (fun w i => (w <<< 8) ||| (bytes.get! (offset + i)).toUInt32) 0

/-- The message schedule of the block at a byte offset. -/
def schedule (bytes : ByteArray) (offset : Nat) : Array UInt32 :=
  let first := (List.range 16).foldl (fun w i => w.push (wordAt bytes (offset + 4 * i))) #[]
  (List.range 48).foldl (fun w i =>
    let x := w.getD (i + 1) 0
    let y := w.getD (i + 14) 0
    let s := rotate x 7 ^^^ rotate x 18 ^^^ (x >>> 3)
    let t := rotate y 17 ^^^ rotate y 19 ^^^ (y >>> 10)
    w.push (w.getD i 0 + s + w.getD (i + 9) 0 + t)) first

/-- One round. -/
def round (w : Words) (constant scheduled : UInt32) : Words :=
  let s := rotate w.e 6 ^^^ rotate w.e 11 ^^^ rotate w.e 25
  let choose := (w.e &&& w.f) ^^^ (~~~w.e &&& w.g)
  let first := w.h + s + choose + constant + scheduled
  let t := rotate w.a 2 ^^^ rotate w.a 13 ^^^ rotate w.a 22
  let majority := (w.a &&& w.b) ^^^ (w.a &&& w.c) ^^^ (w.b &&& w.c)
  ⟨first + (t + majority), w.a, w.b, w.c, w.d + first, w.e, w.f, w.g⟩

/-- The words after the block at a byte offset. -/
def block (bytes : ByteArray) (w : Words) (offset : Nat) : Words :=
  let scheduled := schedule bytes offset
  w.add ((List.range 64).foldl
    (fun w i => round w (constants.getD i 0) (scheduled.getD i 0)) w)

/-- The digest of bytes. -/
def words (bytes : ByteArray) : Words :=
  let message := padded bytes
  (List.range (message.size / 64)).foldl (fun w i => block message w (64 * i)) Words.initial

/-- A word in eight hexadecimal digits. -/
def hexWord (w : UInt32) : String :=
  String.ofList ((List.range 8).map fun i =>
    let digit := (w.toNat >>> (4 * (7 - i))) % 16
    Char.ofNat (if digit < 10 then 48 + digit else 87 + digit))

/-- The digest of the UTF-8 bytes of a text, in hexadecimal. -/
def digest (text : String) : String := String.join ((words text.toUTF8).toList.map hexWord)

end AspAtlas.Sha256
