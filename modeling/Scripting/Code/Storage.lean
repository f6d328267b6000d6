/-!
# Storage that grows

Code is written into storage that is larger than the code. `Storage.grown` is the room of the storage
that takes the place of one that is full.
-/

namespace Scripting.Storage

def initialRoom : Nat := 64

def sizes : List Nat :=
  [8, 16, 24, 32, 48, 64, 80, 96, 112, 128, 144, 160, 176, 192, 208, 224, 240, 256, 288, 320, 352,
    384, 416, 448, 480, 512, 576, 640, 704, 768, 896, 1024, 1152, 1280, 1408, 1536, 1792, 2048,
    2304, 2688, 3072, 3200, 3456, 4096, 4864, 5120, 5376, 6144, 6528, 6784, 6912, 8192, 9472, 9728,
    10240, 10880, 12288, 13568, 14336, 16384, 18432, 19072, 20480, 21760, 24576, 27264, 28672,
    32768]

def pageSize : Nat := 8192

def sizeFor (n : Nat) : Nat :=
  (sizes.find? fun size => n ≤ size).getD ((n + pageSize - 1) / pageSize * pageSize)

/-- The room of the storage that follows one with the given room, for one byte more. It doubles below
256 bytes; from there on it grows by a share that falls to a quarter. -/
def grown (room : Nat) : Nat :=
  sizeFor (max (room + 1) (if room < 256 then 2 * room else room + (room + 768) / 4))

end Scripting.Storage
