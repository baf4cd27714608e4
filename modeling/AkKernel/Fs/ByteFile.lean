import AkKernel.Fs.File

/-!
# A file in memory as an array of bytes

What `tmpfs_write_file`, `tmpfs_read_file` and `tmpfs_seek_file` are for: a sequence of
bytes with a position in it. The reference counts in unbounded numbers; the code follows it
as long as positions, lengths and counts are below 2^31.
-/

set_option autoImplicit false

namespace AkKernel

open Runs

/-- A call on the device of a file; `fresh` is what `realloc` finds behind the old block. -/
inductive TmpCall where
  | write (buf : List UInt8) (fresh : Nat → UInt8)
  | read (nbyte : Word)
  | seek (offset whence : Word)

/-- The return value, and the bytes put into the caller's buffer. -/
abbrev TmpReply := Int × List UInt8

def TmpCall.exec : TmpCall → TmpFileDev → Except Fault (TmpReply × TmpFileDev)
  | .write buf fresh, file => do
    let (ret, file) ← tmpfsWriteFile file buf fresh
    .ok ((ret.toInt, []), file)
  | .read nbyte, file => do
    let ret := readCount file.pos file.length nbyte
    let (buf, file) ← tmpfsReadFile file nbyte
    .ok ((ret.toInt, buf), file)
  | .seek offset whence, file =>
    let (ret, file) := tmpfsSeekFile file offset whence
    .ok ((ret.toInt, []), file)

structure ByteFile where
  bytes : List UInt8
  pos : Nat
deriving DecidableEq, Repr

namespace ByteFile

def empty : ByteFile := ⟨[], 0⟩

/-- The position that a seek from the start or from the current position goes to. -/
def target (f : ByteFile) (offset whence : Word) : Int :=
  if whence = seekSet then offset.toInt else f.pos + offset.toInt

/-- A write overlays its bytes at the position, a read returns those up to the smaller of
the count and the end. -/
def call : TmpCall → ByteFile → TmpReply × ByteFile
  | .write buf _, f =>
    ((buf.length, []),
      { bytes := f.bytes.take f.pos ++ buf ++ f.bytes.drop (f.pos + buf.length)
        pos := f.pos + buf.length })
  | .read nbyte, f =>
    let n := min nbyte.toNat (f.bytes.length - f.pos)
    ((n, (f.bytes.drop f.pos).take n), { f with pos := f.pos + n })
  | .seek offset whence, f =>
    ((f.target offset whence, []), { f with pos := (f.target offset whence).toNat })

/-- Counts, positions and lengths are below 2^31, and a seek stays in the file. -/
def Allows (f : ByteFile) : TmpCall → Prop
  | .write buf _ => f.pos + buf.length < 2 ^ 31
  | .read nbyte => nbyte.toNat < 2 ^ 31
  | .seek offset whence => (whence = seekSet ∨ whence = seekCur) ∧
      0 ≤ f.target offset whence ∧ f.target offset whence ≤ f.bytes.length

instance (f : ByteFile) (c : TmpCall) : Decidable (f.Allows c) :=
  match c with
  | .write _ _ => inferInstanceAs (Decidable (_ < _))
  | .read _ => inferInstanceAs (Decidable (_ < _))
  | .seek _ _ => inferInstanceAs (Decidable (_ ∧ _))

end ByteFile

/-- The device has the bytes of the file and stands at its position. -/
structure Represents (file : TmpFileDev) (f : ByteFile) : Prop where
  data : file.data = some f.bytes
  length : file.length.toNat = f.bytes.length
  pos : file.pos.toNat = f.pos
  inside : f.pos ≤ f.bytes.length
  small : f.bytes.length < 2 ^ 31

section Calls
variable {file : TmpFileDev} {f : ByteFile}

/-- `memcpy` at the position, into the block of the old size or into one that `realloc` made
as long as the write needs. -/
theorem overwrite_resize {block : List UInt8} {pos : Nat} (hpos : pos ≤ block.length)
    (buf : List UInt8) (fresh : Nat → UInt8) :
    overwrite (if block.length < pos + buf.length then resize block (pos + buf.length) fresh
      else block) pos buf = .ok (block.take pos ++ buf ++ block.drop (pos + buf.length)) := by
  split
  · rename_i hgrow
    have hlen : (resize block (pos + buf.length) fresh).length = pos + buf.length := by
      rw [resize, List.length_append, List.length_take, List.length_map, List.length_range]
      omega
    have htake : (resize block (pos + buf.length) fresh).take pos = block.take pos := by
      rw [resize, List.take_append_of_le_length (by rw [List.length_take]; omega), List.take_take]
      congr 1
      omega
    unfold overwrite
    rw [if_pos (by omega), htake, List.drop_of_length_le (by omega),
      List.drop_of_length_le (by omega)]
  · rename_i hfits
    unfold overwrite
    rw [if_pos (by omega)]

theorem toNat_ofNat_small {n : Nat} (h : n < 2 ^ 31) : (BitVec.ofNat 32 n).toNat = n := by
  rw [BitVec.toNat_ofNat]
  omega

theorem toInt_of_toNat {x : Word} {n : Nat} (h : x.toNat = n) (hn : n < 2 ^ 31) : x.toInt = n := by
  rw [BitVec.toInt_eq_toNat_of_lt (by omega), h]

theorem Represents.write (h : Represents file f) {buf : List UInt8}
    (hok : f.pos + buf.length < 2 ^ 31) (fresh : Nat → UInt8) :
    ∃ file', TmpCall.exec (.write buf fresh) file =
      .ok ((ByteFile.call (.write buf fresh) f).1, file') ∧
      Represents file' (ByteFile.call (.write buf fresh) f).2 := by
  have hin := h.inside
  have hsmall := h.small
  have hbuf : (BitVec.ofNat 32 buf.length).toNat = buf.length := toNat_ofNat_small (by omega)
  have hsum : (file.pos + BitVec.ofNat 32 buf.length).toNat = f.pos + buf.length := by
    rw [BitVec.toNat_add, hbuf, h.pos]
    omega
  have hgrow : file.length < file.pos + BitVec.ofNat 32 buf.length ↔
      f.bytes.length < f.pos + buf.length := by
    rw [BitVec.lt_def, hsum, h.length]
  have hover := overwrite_resize hin buf fresh
  obtain ⟨file', hrun, hpos', hlen', hdata'⟩ : ∃ file', tmpfsWriteFile file buf fresh =
      .ok (BitVec.ofNat 32 buf.length, file') ∧
      file'.pos = file.pos + BitVec.ofNat 32 buf.length ∧
      file'.length = (if file.length < file.pos + BitVec.ofNat 32 buf.length then
        file.pos + BitVec.ofNat 32 buf.length else file.length) ∧
      file'.data = some (f.bytes.take f.pos ++ buf ++ f.bytes.drop (f.pos + buf.length)) := by
    refine ⟨_, bind_eq_ok.mpr ⟨f.bytes, deref_eq_ok.mpr h.data, bind_eq_ok.mpr ⟨_, ?_, rfl⟩⟩,
      rfl, rfl, rfl⟩
    rw [h.pos, hsum]
    simp only [hgrow]
    exact hover
  have hlen : (f.bytes.take f.pos ++ buf ++ f.bytes.drop (f.pos + buf.length)).length =
      max f.bytes.length (f.pos + buf.length) := by
    rw [List.length_append, List.length_append, List.length_take, List.length_drop]
    omega
  refine ⟨file', bind_eq_ok.mpr ⟨_, hrun, ?_⟩, ?_⟩
  · change Except.ok (((BitVec.ofNat 32 buf.length).toInt, []), file') = _
    rw [toInt_of_toNat hbuf (by omega)]
    rfl
  · refine ⟨hdata', ?_, by rw [hpos']; exact hsum, ?_, ?_⟩
    · refine Eq.trans ?_ hlen.symm
      rw [hlen']
      split
      · rename_i hg
        rw [hgrow] at hg
        omega
      · rename_i hg
        rw [hgrow] at hg
        rw [h.length]
        omega
    · exact le_of_le_of_eq (Nat.le_max_right _ _) hlen.symm
    · apply lt_of_eq_of_lt hlen
      omega

theorem Represents.read (h : Represents file f) {nbyte : Word} (hok : nbyte.toNat < 2 ^ 31) :
    ∃ file', TmpCall.exec (.read nbyte) file = .ok ((ByteFile.call (.read nbyte) f).1, file') ∧
      Represents file' (ByteFile.call (.read nbyte) f).2 := by
  have hin := h.inside
  have hsmall := h.small
  have hpos := h.pos
  have hlength := h.length
  have hcount : (readCount file.pos file.length nbyte).toNat =
      min nbyte.toNat (f.bytes.length - f.pos) := by
    have hsum : (file.pos + nbyte).toNat = f.pos + nbyte.toNat := by
      rw [BitVec.toNat_add, hpos]
      omega
    unfold readCount
    split
    · rename_i hlt
      rw [BitVec.lt_def, hsum, hlength] at hlt
      rw [BitVec.toNat_sub_of_le (by rw [BitVec.le_def]; omega), hpos, hlength]
      omega
    · rename_i hge
      rw [BitVec.lt_def, hsum, hlength] at hge
      omega
  obtain ⟨file', hrun, hpos', hlen', hdata'⟩ : ∃ file', tmpfsReadFile file nbyte = .ok
      ((f.bytes.drop f.pos).take (min nbyte.toNat (f.bytes.length - f.pos)), file') ∧
      file'.pos = file.pos + readCount file.pos file.length nbyte ∧
      file'.length = file.length ∧ file'.data = file.data := by
    refine ⟨{ file with pos := file.pos + readCount file.pos file.length nbyte },
      bind_eq_ok.mpr ⟨f.bytes, deref_eq_ok.mpr h.data, ?_⟩, rfl, rfl, rfl⟩
    rw [hcount, hpos, if_pos (by omega)]
  refine ⟨file', bind_eq_ok.mpr ⟨_, hrun, ?_⟩, ?_⟩
  · change Except.ok (((readCount file.pos file.length nbyte).toInt, _), file') = _
    rw [toInt_of_toNat hcount (by omega)]
    rfl
  · refine ⟨hdata'.trans h.data, ?_, ?_, ?_, hsmall⟩
    · rw [hlen']
      exact hlength
    · change file'.pos.toNat = f.pos + min nbyte.toNat (f.bytes.length - f.pos)
      rw [hpos', BitVec.toNat_add, hcount, hpos]
      omega
    · change f.pos + min nbyte.toNat (f.bytes.length - f.pos) ≤ f.bytes.length
      omega

theorem seek_toNat {pos offset : Word} {n m : Nat} (hpos : pos.toNat = n) (hn : n < 2 ^ 31)
    (hm : m < 2 ^ 31) (hsum : (n : Int) + offset.toInt = m) : (pos + offset).toNat = m := by
  have hoff := BitVec.toInt_eq_toNat_cond offset
  have hlt := offset.isLt
  rw [BitVec.toNat_add, hpos]
  split at hoff <;> omega

theorem Represents.seek (h : Represents file f) {offset whence : Word}
    (hw : whence = seekSet ∨ whence = seekCur) (h0 : 0 ≤ f.target offset whence)
    (hle : f.target offset whence ≤ f.bytes.length) :
    ∃ file', TmpCall.exec (.seek offset whence) file =
      .ok ((ByteFile.call (.seek offset whence) f).1, file') ∧
      Represents file' (ByteFile.call (.seek offset whence) f).2 := by
  have hin := h.inside
  have hsmall := h.small
  have hpos : (seekPos file.pos file.length offset whence).toNat =
      (f.target offset whence).toNat := by
    unfold ByteFile.target at h0 hle ⊢
    unfold seekPos
    rcases hw with hw | hw
    · rw [if_pos hw] at h0 hle ⊢
      rw [if_pos hw]
      rw [← BitVec.zero_add offset]
      refine seek_toNat (n := 0) rfl (by decide) ?_ ?_
      · rw [BitVec.zero_add]
        omega
      · rw [BitVec.zero_add]
        omega
    · have hne : whence ≠ seekSet := by
        rw [hw]
        decide
      rw [if_neg hne] at h0 hle ⊢
      rw [if_neg hne, if_pos hw]
      exact seek_toNat h.pos (by omega) (by omega) (by omega)
  refine ⟨{ file with pos := seekPos file.pos file.length offset whence }, ?_, ?_⟩
  · change Except.ok (((seekPos file.pos file.length offset whence).toInt, []), _) = _
    rw [toInt_of_toNat hpos (by omega), Int.toNat_of_nonneg h0]
    rfl
  · refine ⟨h.data, h.length, hpos, ?_, hsmall⟩
    change (f.target offset whence).toNat ≤ f.bytes.length
    omega

theorem Represents.call (c : TmpCall) (file : TmpFileDev) (f : ByteFile) (h : Represents file f)
    (hok : f.Allows c) :
    ∃ file', c.exec file = .ok ((ByteFile.call c f).1, file') ∧
      Represents file' (ByteFile.call c f).2 := by
  cases c with
  | write buf fresh => exact h.write hok fresh
  | read nbyte => exact h.read hok
  | seek offset whence => exact h.seek hok.1 hok.2.1 hok.2.2

end Calls

section Created
variable {fuel : Nat} {parent child : NodePtr} {nodes nodes' : Nodes}

theorem fsLinkChild_ops (h : fsLinkChild fuel nodes parent child = .ok nodes') (n : NodePtr) :
    (nodes' n).ops = (nodes n).ops := by
  unfold fsLinkChild at h
  split at h
  · cases h
    exact setFirstChild_ops _ _ _ _
  · obtain ⟨r, -, h⟩ := bind_eq_ok.mp h
    cases r with
    | none =>
      cases h
      rw [setNextSibling_ops, setFirstChild_ops]
    | some i =>
      cases h
      rw [setNextSibling_ops, setNextSibling_ops]

theorem tmpfsCreateFile_dev {name : Bytes.CString} {fs fs' : Fs} {node : NodePtr}
    (h : tmpfsCreateFile fuel parent name fs = .ok (node, fs')) :
    (fs'.node node).ops = .tmpFile fs.ndev ∧
      fs'.dev fs.ndev = .tmp ⟨0#32, 0#32, some []⟩ := by
  obtain ⟨⟨n, fs₁⟩, hnew, hlink⟩ := bind_eq_ok.mp h
  obtain ⟨nodes, hnodes, hret⟩ := bind_eq_ok.mp hlink
  cases Except.ok.inj hret
  unfold newNode at hnew
  split at hnew
  · cases hnew
  · cases Except.ok.inj hnew
    refine ⟨?_, Function.update_self _ _ _⟩
    rw [fsLinkChild_ops hnodes]
    dsimp only
    rw [Function.update_self]
    rfl

/-- Every sequence of calls on a new file has the replies of the reference, and leaves the
position and the length of the reference. -/
theorem tmpfs_refines_byteFile (fuel : Nat) (parent : NodePtr) (name : Bytes.CString) (fs fs' : Fs)
    (node : NodePtr) (hcreate : tmpfsCreateFile fuel parent name fs = .ok (node, fs'))
    (calls : List TmpCall) (hok : Allowed ByteFile.call ByteFile.Allows calls ByteFile.empty) :
    ∃ d file, (fs'.node node).ops = .tmpFile d ∧ fs'.dev d = .tmp file ∧
      ∃ file', exec TmpCall.exec calls file =
          .ok ((replay ByteFile.call calls ByteFile.empty).1, file') ∧
        file'.pos.toNat = (replay ByteFile.call calls ByteFile.empty).2.pos ∧
        file'.length.toNat = (replay ByteFile.call calls ByteFile.empty).2.bytes.length := by
  obtain ⟨hops, hdev⟩ := tmpfsCreateFile_dev hcreate
  have hnew : Represents ⟨0#32, 0#32, some []⟩ ByteFile.empty :=
    ⟨rfl, rfl, rfl, Nat.le_refl _, by decide⟩
  obtain ⟨file', hrun, hrep⟩ := exec_refines TmpCall.exec ByteFile.call Represents.call calls _ _
    hnew hok
  exact ⟨_, _, hops, hdev, file', hrun, hrep.pos, hrep.length⟩

/-- A file is written, its middle and then its end are written again, and it is read back. -/
def editCalls : List TmpCall :=
  [.write [1, 2, 3, 4] fun _ => 0xFF, .seek 1#32 seekSet, .write [5, 6] fun _ => 0xFF,
    .seek 0#32 seekCur, .write [7, 8, 9] fun _ => 0xFF, .seek (-5#32) seekCur, .read 100#32]

/-- The directory of an empty file system. -/
def emptyDir : Fs where
  node := fun _ => ⟨[], .dir, none, none⟩
  nnodes := 1
  dev := fun _ => .chr
  ndev := 0
  mem := fun _ => 0

theorem tmpfs_refines_byteFile_edit : ∃ fs' node d file file',
    tmpfsCreateFile 1 0 [] emptyDir = .ok (node, fs') ∧ fs'.dev d = .tmp file ∧
      exec TmpCall.exec editCalls file =
        .ok ((replay ByteFile.call editCalls ByteFile.empty).1, file') ∧
      ((replay ByteFile.call editCalls ByteFile.empty).1.map Prod.snd).getLast? =
        some (5, [5, 6, 7, 8, 9]) := by
  have hcreate : ∃ r, tmpfsCreateFile 1 0 [] emptyDir = .ok r := ⟨_, rfl⟩
  obtain ⟨⟨node, fs'⟩, hcreate⟩ := hcreate
  have hok : Allowed ByteFile.call ByteFile.Allows editCalls ByteFile.empty := by
    decide
  obtain ⟨d, file, -, hdev, file', hrun, -, -⟩ :=
    tmpfs_refines_byteFile 1 0 [] emptyDir fs' node hcreate editCalls hok
  exact ⟨fs', node, d, file, file', hcreate, hdev, hrun, by decide⟩

end Created

end AkKernel
