/-!
# Buffers — room for the characters of a text

A text is kept in a buffer of four bytes for each character.  Buffers come in fixed sizes, and from
32 KiB on in whole pages of 8 KiB; a text gets the least one that holds it.  What is left over is
filled with zeros, and may be read.
-/

namespace BytecodeVerifier.Source.Buffer

/-- The sizes in bytes of the buffers below a page multiple, in ascending order. -/
def sizes : List Nat :=
  [0, 8, 16, 24, 32, 48, 64, 80, 96, 112, 128, 144, 160, 176, 192, 208, 224, 240, 256, 288, 320,
    352, 384, 416, 448, 480, 512, 576, 640, 704, 768, 896, 1024, 1152, 1280, 1408, 1536, 1792,
    2048, 2304, 2688, 3072, 3200, 3456, 4096, 4864, 5376, 6144, 6528, 6784, 6912, 8192,
    9472, 9728, 10240, 10880, 12288, 13568, 14336, 16384, 18432, 19072, 20480, 21760, 24576,
    27264, 28672, 32768]

/-- The size in bytes of the buffer which holds so many bytes. -/
def sizeFor (bytes : Nat) : Nat :=
  match sizes.find? (bytes ≤ ·) with
  | some size => size
  | none => (bytes + 8191) / 8192 * 8192

/-- How many characters fit the buffer of a text of `length` characters. -/
def capacity (length : Nat) : Nat := sizeFor (4 * length) / 4

end BytecodeVerifier.Source.Buffer
