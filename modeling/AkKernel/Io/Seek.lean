import AkKernel.Io.Positions

/-!
# Seeking and reading

`lseek` goes to any position, and `read` clamps its count by an unsigned comparison of
`pos + nbyte` with the length: past the end, at negative positions and where the sum wraps
around it copies other bytes than the file's. `lseek` from the end counts forward.
-/

set_option autoImplicit false

namespace AkKernel

open Bytes Runs

namespace Device

def Whole : Device → Prop
  | .cpio _ => True
  | .tmp file => ∃ block, file.data = some block ∧ block.length = file.length.toNat
  | .chr => False

def contents (mem : Word → UInt8) : Device → List UInt8
  | .cpio file => Bytes.read mem file.data file.length.toNat
  | .tmp file => file.data.getD []
  | .chr => []

variable {v w : Device} {mem : Word → UInt8} {nbyte : Word}

theorem Whole.regular (h : v.Whole) : v.Regular := by
  cases v with
  | cpio file => trivial
  | tmp file => trivial
  | chr => cases h

theorem Whole.contents_length (h : v.Whole) (mem : Word → UInt8) :
    (v.contents mem).length = v.length.toNat := by
  cases v with
  | cpio file => exact Bytes.read_length _ _ _
  | tmp file =>
    obtain ⟨block, hdata, hlen⟩ := h
    simp only [contents, length, hdata, Option.getD_some, hlen]
  | chr => cases h

theorem withPos_whole (p : Word) : (v.withPos p).Whole ↔ v.Whole := by
  cases v <;> exact Iff.rfl

theorem withPos_length (p : Word) : (v.withPos p).length = v.length := by
  cases v <;> rfl

theorem withPos_contents (p : Word) : (v.withPos p).contents mem = v.contents mem := by
  cases v <;> rfl

theorem withPos_withPos (p q : Word) : (v.withPos p).withPos q = v.withPos q := by
  cases v <;> rfl

theorem Whole.read_eq (h : v.Whole) (mem : Word → UInt8)
    (hin : v.pos.toNat + (readCount v.pos v.length nbyte).toNat ≤ v.length.toNat) :
    v.read mem nbyte =
      .ok (((v.contents mem).drop v.pos.toNat).take (readCount v.pos v.length nbyte).toNat,
        v.withPos (v.pos + readCount v.pos v.length nbyte)) := by
  cases v with
  | cpio file =>
    have hbytes := Bytes.read_drop_take mem file.data hin
    rw [BitVec.ofNat_toNat, BitVec.setWidth_eq] at hbytes
    change Except.ok (Bytes.read mem (file.data + file.pos) _, _) = Except.ok (_, _)
    exact congrArg (fun buf => Except.ok (buf, _)) hbytes.symm
  | tmp file =>
    obtain ⟨pos, len, data⟩ := file
    obtain ⟨block, hdata, hlen⟩ := h
    cases hdata
    have hfit : pos.toNat + (readCount pos len nbyte).toNat ≤ block.length := by
      rw [hlen]
      exact hin
    simp only [Device.read, tmpfsReadFile, deref, bind, Except.bind, if_pos hfit]
    rfl
  | chr => cases h

end Device

/-- `sys_lseek` on one descriptor, once for every offset and `whence`. -/
def lseeks (fd : Fd) : List (Word × Word) → Files → Except Fault Files
  | [], s => .ok s
  | (offset, whence) :: l, s => do
    let (_, s) ← sysLseek fd offset whence s
    lseeks fd l s

def sought (pos length : Word) (l : List (Word × Word)) : Word :=
  l.foldl (fun pos q => seekPos pos length q.1 q.2) pos

section Seeks
variable {s : Files} {fd : Fd} {r : DescrPtr} {d : DevPtr}

theorem fdDevice_setDev (s : Files) (d : DevPtr) (v : Device) (fd : Fd) :
    fdDevice (s.setDev d v) fd = fdDevice s fd := rfl

theorem setDev_setDev (s : Files) (d : DevPtr) (v w : Device) :
    (s.setDev d v).setDev d w = s.setDev d w := by
  simp only [Files.setDev, Function.update_idem]

theorem setDev_same (s : Files) (d : DevPtr) : s.setDev d (s.fs.dev d) = s := by
  simp only [Files.setDev, Function.update_eq_self]

theorem withPos_self (v : Device) : v.withPos v.pos = v := by
  cases v <;> rfl

theorem sysLseek_eq (hd : fdDevice s fd = .ok (some (r, d))) (hreg : (s.fs.dev d).Regular)
    (offset whence : Word) :
    sysLseek fd offset whence s =
      .ok (.sought r d (s.fs.dev d).pos
          (seekPos (s.fs.dev d).pos (s.fs.dev d).length offset whence),
        s.setDev d ((s.fs.dev d).withPos
          (seekPos (s.fs.dev d).pos (s.fs.dev d).length offset whence))) := by
  simp only [sysLseek, hd, bind, Except.bind, Device.seek_fst hreg, Device.seek_snd]

theorem lseeks_eq (hd : fdDevice s fd = .ok (some (r, d))) (hreg : (s.fs.dev d).Regular)
    (l : List (Word × Word)) :
    lseeks fd l s = .ok (s.setDev d ((s.fs.dev d).withPos
      (sought (s.fs.dev d).pos (s.fs.dev d).length l))) := by
  induction l generalizing s with
  | nil =>
    change Except.ok s = .ok (s.setDev d ((s.fs.dev d).withPos (s.fs.dev d).pos))
    rw [withPos_self, setDev_same]
  | cons q l ih =>
    obtain ⟨offset, whence⟩ := q
    simp only [lseeks, sysLseek_eq hd hreg, bind, Except.bind]
    have hreg' : ∀ p, ((s.setDev d ((s.fs.dev d).withPos p)).fs.dev d).Regular := by
      intro p
      rw [setDev_self]
      cases hv : s.fs.dev d <;> rw [hv] at hreg <;> exact hreg
    rw [ih (s := s.setDev d _) hd (hreg' _), setDev_self, setDev_setDev,
      Device.withPos_withPos, Device.withPos_pos hreg, Device.withPos_length]
    rfl

end Seeks

/-- `sys_read` gives at most `nbyte` bytes of the file from the position on, none at a
negative position or past the end, and moves past them. -/
def ReadsInside (s : Files) (fd : Fd) (nbyte : Word) : Prop :=
  ∃ r d buf, fdDevice s fd = .ok (some (r, d)) ∧
    sysRead fd nbyte s = .ok (.got r d (s.fs.dev d).pos buf,
      s.setDev d ((s.fs.dev d).withPos ((s.fs.dev d).pos + BitVec.ofNat 32 buf.length))) ∧
    buf.length ≤ nbyte.toNat ∧
    ((s.fs.dev d).pos.toInt < 0 ∨ (s.fs.dev d).length.toNat ≤ (s.fs.dev d).pos.toInt →
      buf.length = 0) ∧
    (0 ≤ (s.fs.dev d).pos.toInt → (s.fs.dev d).pos.toInt < (s.fs.dev d).length.toNat →
      (buf.length : Int) ≤ (s.fs.dev d).length.toNat - (s.fs.dev d).pos.toInt) ∧
    buf = (((s.fs.dev d).contents s.fs.mem).drop (s.fs.dev d).pos.toNat).take buf.length

/-- The clamp leaves a count that stays in the file. -/
def CountInside (pos length nbyte : Word) : Prop :=
  pos.toNat ≤ length.toNat ∧ pos.toNat + nbyte.toNat < 2 ^ 32 ∧
    (pos.toNat < 2 ^ 31 ∨ nbyte = 0#32 ∨ pos = length)

section Read
variable {s : Files} {fd : Fd} {r : DescrPtr} {d : DevPtr} {pos length nbyte : Word}

theorem readCount_toNat : (readCount pos length nbyte).toNat =
    if length.toNat < (pos.toNat + nbyte.toNat) % 2 ^ 32
    then (2 ^ 32 - pos.toNat + length.toNat) % 2 ^ 32 else nbyte.toNat := by
  unfold readCount
  simp only [BitVec.lt_def, BitVec.toNat_add]
  split
  · exact BitVec.toNat_sub length pos
  · rfl

theorem readCount_inside_iff :
    ((readCount pos length nbyte).toNat ≤ nbyte.toNat ∧
      (pos.toInt < 0 ∨ length.toNat ≤ pos.toInt → (readCount pos length nbyte).toNat = 0) ∧
      (0 ≤ pos.toInt → pos.toInt < length.toNat →
        ((readCount pos length nbyte).toNat : Int) ≤ length.toNat - pos.toInt)) ↔
    CountInside pos length nbyte := by
  have hsign : pos.toInt = if pos.toNat < 2 ^ 31 then (pos.toNat : Int)
      else pos.toNat - 2 ^ 32 := by
    rw [BitVec.toInt_eq_toNat_cond]
    split <;> split <;> omega
  have hlt := pos.isLt
  have hlt' := length.isLt
  have hlt'' := nbyte.isLt
  simp only [CountInside, readCount_toNat, hsign, BitVec.toNat_eq, BitVec.toNat_ofNat]
  split <;> split <;> omega

theorem CountInside.fits (h : CountInside pos length nbyte) :
    pos.toNat + (readCount pos length nbyte).toNat ≤ length.toNat := by
  obtain ⟨hle, hsum, -⟩ := h
  have hlt := length.isLt
  rw [readCount_toNat]
  split <;> omega

theorem sysRead_eq {buf : List UInt8} {v : Device} (hd : fdDevice s fd = .ok (some (r, d)))
    (hread : (s.fs.dev d).read s.fs.mem nbyte = .ok (buf, v)) :
    sysRead fd nbyte s = .ok (.got r d (s.fs.dev d).pos buf, s.setDev d v) := by
  simp only [sysRead, hd, hread, bind, Except.bind]

theorem sysRead_got {buf : List UInt8} {s' : Files} {pos : Word}
    (hd : fdDevice s fd = .ok (some (r, d)))
    (h : sysRead fd nbyte s = .ok (.got r d pos buf, s')) :
    buf.length = (readCount (s.fs.dev d).pos (s.fs.dev d).length nbyte).toNat := by
  rcases fdDevice_bind rfl (fun _ _ => rfl) h with ⟨hout, -⟩ | ⟨r', d', hd', hrest⟩
  · cases hout
  · rw [hd] at hd'
    cases hd'
    obtain ⟨⟨buf', v⟩, hread, hret⟩ := bind_eq_ok.mp hrest
    cases Except.ok.inj hret
    exact (Device.read_ok hread).2

theorem readsInside_iff (hd : fdDevice s fd = .ok (some (r, d))) (hw : (s.fs.dev d).Whole) :
    ReadsInside s fd nbyte ↔
      CountInside (s.fs.dev d).pos (s.fs.dev d).length nbyte := by
  constructor
  · rintro ⟨r', d', buf, hd', hread, hle, hzero, hin, -⟩
    rw [hd] at hd'
    cases hd'
    rw [sysRead_got hd hread] at hle hzero hin
    exact readCount_inside_iff.mp ⟨hle, hzero, hin⟩
  · intro h
    have hread := hw.read_eq s.fs.mem h.fits
    have hlen := (Device.read_ok hread).2
    obtain ⟨hle, hzero, hin⟩ := readCount_inside_iff.mpr h
    rw [← hlen] at hle hzero hin
    refine ⟨r, d, _, hd, ?_, hle, hzero, hin, ?_⟩
    · rw [sysRead_eq hd hread, hlen, BitVec.ofNat_toNat, BitVec.setWidth_eq]
    · rw [hlen]

end Read

/-- After any seeks from the start or from the position, a read of a file stays inside
exactly when the position is no larger than the length, the count does not take it to 2^32,
and it is not negative, unless nothing is asked for or it is at the end. -/
theorem sysRead_inside_iff (s : Files) (fd : Fd) (r : DescrPtr) (d : DevPtr)
    (hd : fdDevice s fd = .ok (some (r, d))) (hw : (s.fs.dev d).Whole)
    (l : List (Word × Word)) (nbyte : Word)
    (hl : ∀ q ∈ l, q.2 = seekSet ∨ q.2 = seekCur) :
    ∃ s', lseeks fd l s = .ok s' ∧
      (s'.fs.dev d).length = (s.fs.dev d).length ∧
      (s'.fs.dev d).pos = l.foldl (fun pos q => if q.2 = seekSet then q.1 else pos + q.1)
        (s.fs.dev d).pos ∧
      (ReadsInside s' fd nbyte ↔
        (s'.fs.dev d).pos.toNat ≤ (s.fs.dev d).length.toNat ∧
        (s'.fs.dev d).pos.toNat + nbyte.toNat < 2 ^ 32 ∧
        ((s'.fs.dev d).pos.toNat < 2 ^ 31 ∨ nbyte = 0#32 ∨
          (s'.fs.dev d).pos = (s.fs.dev d).length)) := by
  have hreg := hw.regular
  refine ⟨_, lseeks_eq hd hreg l, ?_, ?_, ?_⟩
  · rw [setDev_self, Device.withPos_length]
  · rw [setDev_self, Device.withPos_pos hreg]
    have hfold : ∀ p, sought p (s.fs.dev d).length l =
        l.foldl (fun pos q => if q.2 = seekSet then q.1 else pos + q.1) p := by
      clear hd hw
      induction l with
      | nil => exact fun _ => rfl
      | cons q l ih =>
        intro p
        have hq : seekPos p (s.fs.dev d).length q.1 q.2 =
            if q.2 = seekSet then q.1 else p + q.1 := by
          unfold seekPos
          rcases hl q List.mem_cons_self with hset | hcur
          · rw [if_pos hset, if_pos hset]
          · simp [hcur, seekCur, seekSet]
        exact (congrArg (fun p => sought p (s.fs.dev d).length l) hq).trans
          (ih (fun q hq => hl q (List.mem_cons_of_mem _ hq)) _)
    exact hfold _
  · have hw' : ((s.setDev d ((s.fs.dev d).withPos
        (sought (s.fs.dev d).pos (s.fs.dev d).length l))).fs.dev d).Whole := by
      rw [setDev_self, Device.withPos_whole]
      exact hw
    rw [readsInside_iff (by rw [fdDevice_setDev]; exact hd) hw', setDev_self,
      Device.withPos_length]
    rfl

/-- A file of four bytes in memory, opened as descriptor 0. -/
def fourBytes : Files :=
  let s := oneFile (.tmpFile 0) (.tmp ⟨0#32, 4#32, some [10, 11, 12, 13]⟩) fun _ => 0
  match sysOpen 4 pathA 5 (fun _ => none) s with
  | .ok (_, s) => s
  | .error _ => s

theorem fourBytes_device : fdDevice fourBytes 0#16 = .ok (some (5, 0)) := rfl

theorem fourBytes_whole : (fourBytes.fs.dev 0).Whole := by
  have hdev : fourBytes.fs.dev 0 = .tmp ⟨0#32, 4#32, some [10, 11, 12, 13]⟩ := rfl
  rw [hdev]
  exact ⟨_, rfl, rfl⟩

/-- Descriptor `fd` of a task stands for a device whose contents are in memory. -/
structure OpenWhole (s : Files) (fd : Fd) (r : DescrPtr) (d : DevPtr) : Prop where
  device : fdDevice s fd = .ok (some (r, d))
  whole : (s.fs.dev d).Whole

/-- Two bytes behind the first one. -/
theorem sysRead_inside_iff_two : ∃ s', lseeks 0#16 [(3#32, seekSet), (-2#32, seekCur)] fourBytes =
    .ok s' ∧ ReadsInside s' 0#16 2#32 := by
  have hwhence : ∀ q ∈ [((3#32 : Word), seekSet), ((-2#32 : Word), seekCur)],
      q.2 = seekSet ∨ q.2 = seekCur := by
    intro q hq
    rcases List.mem_pair.mp hq with rfl | rfl
    · exact Or.inl rfl
    · exact Or.inr rfl
  obtain ⟨s', hs, hlen, hpos, hiff⟩ := sysRead_inside_iff fourBytes 0#16 5 0 fourBytes_device
    fourBytes_whole _ 2#32 hwhence
  refine ⟨s', hs, hiff.mpr ?_⟩
  have hpos' : (s'.fs.dev 0).pos = 1#32 := by
    rw [hpos]
    decide +kernel
  rw [hpos']
  decide +kernel

/-- One byte is read from behind the end: the call copies 2^32 - 1 bytes. -/
theorem sysRead_not_inside : ∃ s', fdDevice fourBytes 0#16 = .ok (some (5, 0)) ∧
    (fourBytes.fs.dev 0).Whole ∧ lseeks 0#16 [(5#32, seekSet)] fourBytes = .ok s' ∧
    readCount (s'.fs.dev 0).pos (s'.fs.dev 0).length 1#32 = 0xFFFFFFFF#32 ∧
    ¬ ReadsInside s' 0#16 1#32 := by
  refine ⟨_, fourBytes_device, fourBytes_whole,
    lseeks_eq fourBytes_device fourBytes_whole.regular _, by decide +kernel, ?_⟩
  rw [readsInside_iff (by rw [fdDevice_setDev]; exact fourBytes_device)
    (by rw [setDev_self, Device.withPos_whole]; exact fourBytes_whole)]
  unfold CountInside
  decide +kernel

section FromEnd
variable {s : Files} {fd : Fd} {r : DescrPtr} {d : DevPtr}

/-- `lseek` to `k` bytes before the end, and a read of `n` bytes from there. -/
def ReadsTail (s : Files) (fd : Fd) (r : DescrPtr) (d : DevPtr) (k n : Word) : Prop :=
  ∃ s₁, sysLseek fd (-k) seekEnd s =
      .ok (.sought r d (s.fs.dev d).pos ((s.fs.dev d).length - k), s₁) ∧
    ∃ s₂, sysRead fd n s₁ = .ok (.got r d ((s.fs.dev d).length - k)
      ((((s.fs.dev d).contents s.fs.mem).drop ((s.fs.dev d).length.toNat - k.toNat)).take n.toNat),
      s₂)

theorem lseeks_cur (hd : fdDevice s fd = .ok (some (r, d))) (hreg : (s.fs.dev d).Regular)
    (d₁ d₂ : Word) :
    lseeks fd [(d₁, seekCur), (d₂, seekCur)] s = lseeks fd [(d₁ + d₂, seekCur)] s := by
  rw [lseeks_eq hd hreg, lseeks_eq hd hreg]
  simp [sought, seekPos, seekCur, seekSet, BitVec.add_assoc]

theorem seekPos_end (pos length k : Word) : seekPos pos length (-k) seekEnd = length + k := by
  simp [seekPos, seekEnd, seekCur, seekSet]

/-- Counting forward is counting back only over nothing or over half of the numbers. -/
theorem add_eq_sub_iff (length k : Word) :
    length + k = length - k ↔ k = 0#32 ∨ k = 0x80000000#32 := by
  have hk := k.isLt
  rw [BitVec.toNat_eq, BitVec.toNat_eq, BitVec.toNat_eq, BitVec.toNat_add, BitVec.toNat_sub,
    BitVec.toNat_ofNat, BitVec.toNat_ofNat]
  omega

/-- A read whose sum does not wrap gives what is left of the file. -/
theorem readCount_rest {pos length nbyte : Word} (hle : pos.toNat ≤ length.toNat)
    (hsum : pos.toNat + nbyte.toNat < 2 ^ 32) :
    (readCount pos length nbyte).toNat = min nbyte.toNat (length.toNat - pos.toNat) := by
  have hlt := length.isLt
  rw [readCount_toNat]
  split <;> omega

theorem readsTail_iff (hd : fdDevice s fd = .ok (some (r, d))) (hw : (s.fs.dev d).Whole)
    {k n : Word} (hk : k.toNat ≤ (s.fs.dev d).length.toNat) :
    ReadsTail s fd r d k n ↔ (k = 0#32 ∨ k = 0x80000000#32) ∧
      (s.fs.dev d).length.toNat - k.toNat + n.toNat < 2 ^ 32 := by
  have hpos : ((s.fs.dev d).length - k).toNat = (s.fs.dev d).length.toNat - k.toNat :=
    BitVec.toNat_sub_of_le hk
  have hseek := sysLseek_eq hd hw.regular (-k) seekEnd
  rw [seekPos_end] at hseek
  let s₁ := s.setDev d ((s.fs.dev d).withPos ((s.fs.dev d).length - k))
  have hd₁ : fdDevice s₁ fd = .ok (some (r, d)) := hd
  have hdev₁ : s₁.fs.dev d = (s.fs.dev d).withPos ((s.fs.dev d).length - k) := setDev_self _ _ _
  have hpos₁ : (s₁.fs.dev d).pos = (s.fs.dev d).length - k := by
    rw [hdev₁, Device.withPos_pos hw.regular]
  have hlen₁ : (s₁.fs.dev d).length = (s.fs.dev d).length := by
    rw [hdev₁, Device.withPos_length]
  constructor
  · rintro ⟨s', hs', s₂, hread⟩
    rw [hseek] at hs'
    have hback : (s.fs.dev d).length + k = (s.fs.dev d).length - k := by
      injection hs' with hpair
      injection hpair with hout _
      injection hout
    rw [hback] at hs'
    have hs₁ : s' = s₁ := (congrArg Prod.snd (Except.ok.inj hs')).symm
    rw [hs₁] at hread
    have hcount := sysRead_got hd₁ hread
    rw [hpos₁, hlen₁, List.length_take, List.length_drop, hw.contents_length, readCount_toNat,
      hpos] at hcount
    refine ⟨(add_eq_sub_iff _ _).mp hback, ?_⟩
    have hlt := (s.fs.dev d).length.isLt
    have hlt' := n.isLt
    split at hcount <;> omega
  · rintro ⟨hhalf, hsum⟩
    rw [(add_eq_sub_iff _ _).mpr hhalf] at hseek
    refine ⟨s₁, hseek, ?_⟩
    have hle : ((s.fs.dev d).length - k).toNat ≤ (s.fs.dev d).length.toNat := by
      rw [hpos]
      exact Nat.sub_le _ _
    have hrest := readCount_rest hle (hpos ▸ hsum)
    have hw₁ : (s₁.fs.dev d).Whole := by
      rw [hdev₁, Device.withPos_whole]
      exact hw
    have hin : (s₁.fs.dev d).pos.toNat + (readCount (s₁.fs.dev d).pos (s₁.fs.dev d).length n).toNat ≤
        (s₁.fs.dev d).length.toNat := by
      rw [hpos₁, hlen₁, hrest, hpos]
      omega
    have hread := sysRead_eq hd₁ (hw₁.read_eq s.fs.mem hin)
    have hbytes : ((s.fs.dev d).contents s.fs.mem).drop ((s.fs.dev d).length - k).toNat =
        (((s.fs.dev d).contents s.fs.mem).drop ((s.fs.dev d).length - k).toNat).take
          ((s.fs.dev d).length.toNat - ((s.fs.dev d).length - k).toNat) := by
      rw [List.take_of_length_le]
      rw [List.length_drop, hw.contents_length]
    rw [hpos₁, hlen₁, hrest, hdev₁, Device.withPos_contents, ← List.take_take, ← hbytes, hpos]
      at hread
    exact ⟨_, hread⟩

end FromEnd

/-- Seeking to `k` bytes before the end and reading, composing seeks from the position, and
seeking from the end in two steps: a file does all three exactly when nothing is counted
back (or 2^31, which is its own negation) and the count does not take the position to 2^32. -/
theorem sysLseek_end_iff (s : Files) (fd : Fd) (r : DescrPtr) (d : DevPtr)
    (hd : fdDevice s fd = .ok (some (r, d))) (hw : (s.fs.dev d).Whole) (k n : Word)
    (hk : k.toNat ≤ (s.fs.dev d).length.toNat) :
    (ReadsTail s fd r d k n ∧
      (∀ d₁ d₂, lseeks fd [(d₁, seekCur), (d₂, seekCur)] s = lseeks fd [(d₁ + d₂, seekCur)] s) ∧
      lseeks fd [(0#32, seekEnd), (-k, seekCur)] s = lseeks fd [(-k, seekEnd)] s) ↔
    (k = 0#32 ∨ k = 0x80000000#32) ∧
      (s.fs.dev d).length.toNat - k.toNat + n.toNat < 2 ^ 32 := by
  rw [readsTail_iff hd hw hk]
  constructor
  · exact fun h => h.1
  · intro h
    refine ⟨h, lseeks_cur hd hw.regular, ?_⟩
    rw [lseeks_eq hd hw.regular, lseeks_eq hd hw.regular]
    have hback := (add_eq_sub_iff (s.fs.dev d).length k).mpr h.1
    have hsame : sought (s.fs.dev d).pos (s.fs.dev d).length [(0#32, seekEnd), (-k, seekCur)] =
        sought (s.fs.dev d).pos (s.fs.dev d).length [(-k, seekEnd)] := by
      simp only [sought, List.foldl_cons, List.foldl_nil, seekPos_end]
      rw [hback, BitVec.sub_eq_add_neg]
      simp [seekPos, seekEnd, seekCur, seekSet]
    rw [hsame]

/-- At the end nothing is left to read. -/
theorem sysLseek_end_iff_zero : ReadsTail fourBytes 0#16 5 0 0#32 3#32 :=
  ((sysLseek_end_iff fourBytes 0#16 5 0 fourBytes_device fourBytes_whole 0#32 3#32
    (Nat.zero_le _)).mpr (by decide +kernel)).1

/-- One byte before the end of four is taken for position 5, and in two steps for 3. -/
theorem sysLseek_end_forward :
    (∃ s', sysLseek 0#16 (-1#32) seekEnd fourBytes = .ok (.sought 5 0 0#32 5#32, s')) ∧
    ¬ ReadsTail fourBytes 0#16 5 0 1#32 1#32 ∧
    lseeks 0#16 [(0#32, seekEnd), (-1#32, seekCur)] fourBytes ≠
      lseeks 0#16 [(-1#32, seekEnd)] fourBytes := by
  refine ⟨⟨_, sysLseek_eq fourBytes_device fourBytes_whole.regular _ _⟩, ?_, ?_⟩
  · rw [readsTail_iff fourBytes_device fourBytes_whole (by decide +kernel)]
    decide
  · rw [lseeks_eq fourBytes_device fourBytes_whole.regular,
      lseeks_eq fourBytes_device fourBytes_whole.regular]
    intro h
    have hdev := congrArg (fun s => (s.fs.dev 0).pos) (Except.ok.inj h)
    simp only [setDev_self, Device.withPos_pos fourBytes_whole.regular] at hdev
    revert hdev
    decide +kernel

end AkKernel
