import AkKernel.Mem.Frame

/-!
# The boot loader's memory map

`arch/x86/boot/multibootimpl.c` and the part of `arch/x86/mem/framealloc.c` that runs while
the kernel boots. The information structure is read as words, `info a` being the one at
address `a`. A loop that never ends has no result.

`FrameBitmap` is allocated behind the structure, so what the loops write is not among what they
read as long as they stay within the structure. A write behind the bitmap goes to whatever the
heap holds there and leaves the bitmap itself as it is. The mapping of the structure (`vmmap`)
is left out.
-/

set_option autoImplicit false

namespace AkKernel

namespace FrameBitmap

/-- A word of the bitmap with the bit of frame `n` set or cleared. -/
def put (b : FrameBitmap) (used : Bool) (n : Nat) : FrameBitmap :=
  if used then b.mark n
  else
    { b with
      words := Bitmap.clearBit b.words n
      length_eq := by rw [Bitmap.clearBit, List.length_set, b.length_eq] }

/-- The number of frames that the words cover. -/
def covered (b : FrameBitmap) : Nat := b.words.length * 32

/-- Whether frame `n` is marked. -/
def used (b : FrameBitmap) (n : Nat) : Bool := Bitmap.test b.words n

end FrameBitmap

/-- What `multiboot_mmap` sets: `HardwareInfo.mem_max`, the bitmap once `frame_alloc_init` has
made it, and where the initial ramdisk is. -/
structure Boot where
  memMax : Word
  frames : Option FrameBitmap
  initrdStart : Word
  initrdEnd : Word
  initrd : Word

namespace Boot

def reset : Boot where
  memMax := 0#32
  frames := none
  initrdStart := 0#32
  initrdEnd := 0#32
  initrd := 0#32

/-- `frame_alloc_init`: everything is allocated to begin with. -/
def frameAllocInit (memMax : Word) : FrameBitmap where
  words := List.replicate (frameNo memMax / 32) 0xFFFFFFFF#32
  frameCount := frameNo memMax
  length_eq := List.length_replicate
  count_le := Nat.le_of_lt (frameNo_lt memMax)

def framePut (used : Bool) (ptr : Word) (s : Boot) : Boot :=
  { s with frames := s.frames.map fun b => b.put used (frameNo ptr) }

def frameClear : Word → Boot → Boot := framePut false
def frameSet : Word → Boot → Boot := framePut true

/-- The loop of `frame_clear_range` and `frame_set_range`, which begins anew once `i` has
passed `2 ^ 20` pages. -/
def frameLoop (frame : Word → Boot → Boot) (limit : Word) : Nat → Word → Boot → Option Boot
  | 0, _, _ => none
  | fuel + 1, i, s =>
    if i < limit then frameLoop frame limit fuel (i + pageSize) (frame i s)
    else some s

def frameClearRange (first last : Word) : Boot → Option Boot :=
  frameLoop frameClear (last + pageSize) (2 ^ 20 + 1) first

def frameSetRange (first last : Word) : Boot → Option Boot :=
  frameLoop frameSet (last + pageSize) (2 ^ 20 + 1) first

def tagTypeEnd : Word := 0#32
def tagTypeModule : Word := 3#32
def tagTypeBasicMeminfo : Word := 4#32
def tagTypeMmap : Word := 6#32
def memoryAvailable : Word := 1#32

abbrev Info := Word → Word

def tagSize (info : Info) (tag : Word) : Word := info (tag + 4#32)

/-- The tag behind the one at `tag`, at a multiple of eight bytes. -/
def nextTag (info : Info) (tag : Word) : Word :=
  tag + ((tagSize info tag + 7#32) &&& ~~~ 7#32)

/-- The first loop of `multiboot_mmap`. -/
def meminfoLoop (info : Info) : Nat → Word → Boot → Option Boot
  | 0, _, _ => none
  | fuel + 1, tag, s =>
    if info tag = tagTypeEnd then some s
    else if info tag ≠ tagTypeBasicMeminfo then meminfoLoop info fuel (nextTag info tag) s
    else
      let memMax := (info (tag + 12#32) + 1024#32) * 1024#32
      some { s with memMax, frames := some (frameAllocInit memMax) }

/-- An entry of the memory map, of whose 64-bit fields only the lower halves are used. -/
def mmapEntry (info : Info) (entry : Word) (s : Boot) : Option Boot :=
  if info (entry + 16#32) = memoryAvailable then
    frameClearRange (info entry) (info entry + info (entry + 8#32)) s
  else some s

/-- The loop over the entries of a memory map. `i` is an `int`. -/
def mmapLoop (info : Info) (tag : Word) : Nat → Word → Word → Boot → Option Boot
  | 0, _, _, _ => none
  | fuel + 1, i, entry, s =>
    if i.slt (tagSize info tag) then
      (mmapEntry info entry s).bind fun s =>
        mmapLoop info tag fuel (i + info (tag + 8#32)) (entry + info (tag + 8#32)) s
    else some s

def mmapTag (info : Info) (tag : Word) (s : Boot) : Option Boot :=
  if info tag = tagTypeMmap then mmapLoop info tag (2 ^ 32) 0#32 (tag + 16#32) s else some s

def moduleTag (info : Info) (tag : Word) (s : Boot) : Option Boot :=
  if info tag = tagTypeModule then
    let initrdStart := info (tag + 8#32)
    let initrdEnd := info (tag + 12#32)
    (frameSetRange initrdStart initrdEnd { s with initrdStart, initrdEnd }).map fun s =>
      { s with initrd := initrdStart + kZero }
  else some s

/-- The second loop of `multiboot_mmap`. -/
def tagLoop (info : Info) : Nat → Word → Boot → Option Boot
  | 0, _, _ => none
  | fuel + 1, tag, s =>
    if info tag = tagTypeEnd then some s
    else
      (mmapTag info tag s).bind fun s =>
        (moduleTag info tag s).bind fun s => tagLoop info fuel (nextTag info tag) s

/-- `multiboot_mmap`, with the structure at `mbInfo`. Tags begin at multiples of eight, so
there are at most `2 ^ 29`. -/
def multibootMmap (info : Info) (mbInfo : Word) (s : Boot) : Option Boot :=
  (meminfoLoop info (2 ^ 29 + 1) (mbInfo + 8#32) s).bind fun s =>
    tagLoop info (2 ^ 29 + 1) (mbInfo + 8#32) s

/-- What `arch_init` does with the frames, `brk` being that of the kernel task. -/
def archInit (info : Info) (mbInfo brk : Word) (s : Boot) : Option Boot :=
  (multibootMmap info mbInfo s).bind fun s => frameSetRange 0#32 (brk - kZero) s

end Boot

end AkKernel
