import AkKernel.Fs.Node

/-!
# The devices of files

`kernel/fs/cpiofs.c` and `kernel/fs/tmpfs.c`: what is read, written and sought through
the device of a file. The data of a file of the initrd is where the archive was loaded;
that of a file in memory is a block of the heap.
-/

set_option autoImplicit false

namespace AkKernel

open Bytes

def seekSet : Word := 0#32
def seekCur : Word := 1#32
def seekEnd : Word := 2#32

structure CpioFileDev where
  pos : Word
  length : Word
  data : Word
deriving DecidableEq, Repr

/-- `data` is the block that the pointer refers to, `none` when it was freed. -/
structure TmpFileDev where
  pos : Word
  length : Word
  data : Option (List UInt8)
deriving DecidableEq, Repr

/-- The number of bytes that a read of `nbyte` bytes copies. -/
def readCount (pos length nbyte : Word) : Word :=
  if length < pos + nbyte then length - pos else nbyte

/-- The position that a seek goes to. -/
def seekPos (pos length offset whence : Word) : Word :=
  if whence = seekSet then offset
  else if whence = seekCur then pos + offset
  else if whence = seekEnd then length - offset
  else pos

def cpiofsReadFile (mem : Word → UInt8) (file : CpioFileDev) (nbyte : Word) :
    List UInt8 × CpioFileDev :=
  let nbyte := readCount file.pos file.length nbyte
  (read mem (file.data + file.pos) nbyte.toNat, { file with pos := file.pos + nbyte })

def cpiofsSeekFile (file : CpioFileDev) (offset whence : Word) : Word × CpioFileDev :=
  let pos := seekPos file.pos file.length offset whence
  (pos, { file with pos := pos })

/-- `realloc` to `size` bytes; `fresh` is what the heap has behind the old ones. -/
def resize (block : List UInt8) (size : Nat) (fresh : Nat → UInt8) : List UInt8 :=
  (block.take size) ++ (List.range (size - block.length)).map fresh

/-- `memcpy` of the bytes into the block at `pos`. -/
def overwrite (block : List UInt8) (pos : Nat) (buf : List UInt8) : Except Fault (List UInt8) :=
  if pos + buf.length ≤ block.length then
    .ok (block.take pos ++ buf ++ block.drop (pos + buf.length))
  else .error .outOfBounds

/-- The buffer has `nbyte` bytes. -/
def tmpfsWriteFile (file : TmpFileDev) (buf : List UInt8) (fresh : Nat → UInt8) :
    Except Fault (Word × TmpFileDev) := do
  let nbyte := BitVec.ofNat 32 buf.length
  let block ← deref file.data
  let grow := file.length < file.pos + nbyte
  let block := if grow then resize block (file.pos + nbyte).toNat fresh else block
  let length := if grow then file.pos + nbyte else file.length
  let block ← overwrite block file.pos.toNat buf
  .ok (nbyte, { pos := file.pos + nbyte, length := length, data := some block })

def tmpfsReadFile (file : TmpFileDev) (nbyte : Word) : Except Fault (List UInt8 × TmpFileDev) := do
  let nbyte := readCount file.pos file.length nbyte
  let block ← deref file.data
  if file.pos.toNat + nbyte.toNat ≤ block.length then
    .ok ((block.drop file.pos.toNat).take nbyte.toNat, { file with pos := file.pos + nbyte })
  else .error .outOfBounds

def tmpfsSeekFile (file : TmpFileDev) (offset whence : Word) : Word × TmpFileDev :=
  let pos := seekPos file.pos file.length offset whence
  (pos, { file with pos := pos })

/-- Frees the data and leaves the pointer as it is. -/
def tmpfsCloseFile (file : TmpFileDev) : Except Fault TmpFileDev := do
  let _ ← deref file.data
  .ok { file with data := none }

/-- What a device pointer refers to, with the functions of its template. -/
inductive Device where
  | cpio (file : CpioFileDev)
  | tmp (file : TmpFileDev)
  | chr
deriving DecidableEq

/-- The nodes and the devices, numbered as they are allocated, and the memory that the
initrd was loaded into. -/
structure Fs where
  node : Nodes
  nnodes : Nat
  dev : DevPtr → Device
  ndev : Nat
  mem : Word → UInt8

def fsNameMax : Nat := 128

/-- A node from a template, with its name copied in. -/
def newNode (fs : Fs) (name : Option CString) (ops : NodeOps) : Except Fault (NodePtr × Fs) :=
  match name with
  | none => .error .outOfBounds
  | some name => .ok (fs.nnodes, { fs with
      node := Function.update fs.node fs.nnodes
        { name := name, ops := ops, firstChild := none, nextSibling := none }
      nnodes := fs.nnodes + 1 })

def tmpfsCreate (name : CString) (fs : Fs) : Except Fault (NodePtr × Fs) :=
  newNode fs (if name.length < fsNameMax then some name else none) .dir

/-- The new file is empty; its device and its node are linked by a number. -/
def tmpfsCreateFile (fuel : Nat) (parent : NodePtr) (name : CString) (fs : Fs) :
    Except Fault (NodePtr × Fs) := do
  let fs := { fs with
    dev := Function.update fs.dev fs.ndev (.tmp ⟨0#32, 0#32, some []⟩)
    ndev := fs.ndev + 1 }
  let (node, fs) ← newNode fs (if name.length < fsNameMax then some name else none)
    (.tmpFile (fs.ndev - 1))
  let nodes ← fsLinkChild fuel fs.node parent node
  .ok (node, { fs with node := nodes })

end AkKernel
