import Feuer.Storage.SmallEntryBuffer
import Feuer.Uring.FileWrites

/-!
# The pages of a read

`DataFile::read_slice` extends a range to whole pages, reads them into one buffer, and cuts the
padding off.
-/

namespace Feuer.Uring

open Storage (payloadDiskBytes)

/-- A call of `read_slice`. -/
structure FileRead where
  offset : Nat
  length : Nat

namespace FileRead

def padding (call : FileRead) : Nat := call.offset % directIoAlignmentBytes

def bufferLength (call : FileRead) : Nat := payloadDiskBytes (call.padding + call.length)

/-- The buffer holds the padding and the range. -/
theorem le_buffer_length (call : FileRead) : call.padding + call.length ≤ call.bufferLength :=
  Storage.le_payload_disk_bytes _

end FileRead

end Feuer.Uring
