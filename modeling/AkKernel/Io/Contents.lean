import AkKernel.Io.Files

/-!
# What a file in memory holds

`sys_close` calls the `close` of the device for every descriptor, and that of a file in
memory frees its data. Up to the first `sys_close` of a file its data holds what was
written last.
-/

set_option autoImplicit false

namespace AkKernel

open Runs

/-- A file as it should be seen: the bytes written last, `none` where nothing was
written, and the length. -/
structure Stored where
  byte : Nat → Option UInt8
  length : Nat

def Stored.write (f : Stored) (pos : Nat) (buf : List UInt8) : Stored where
  byte i := if pos ≤ i ∧ i < pos + buf.length then buf[i - pos]? else f.byte i
  length := max f.length (pos + buf.length)

def TmpFileDev.stored (file : TmpFileDev) : Stored where
  byte i := (file.data.getD [])[i]?
  length := file.length.toNat

def Stored.event (d : DevPtr) (f : Stored) (lbl : FileOp × FileOut) : Stored :=
  match lbl.2 with
  | .wrote _ e pos buf => if e = d then f.write pos.toNat buf else f
  | _ => f

/-- The file after the writes of the history. -/
def Stored.after (d : DevPtr) (f : Stored) (tr : List (FileOp × FileOut)) : Stored :=
  tr.foldl (Stored.event d) f

def FileOut.closes (d : DevPtr) : FileOut → Bool
  | .closed _ e => e == d
  | _ => false

/-- A descriptor of the device was closed before. -/
def closedBefore (d : DevPtr) (tr : List (FileOp × FileOut)) : Prop :=
  tr.any (fun lbl => lbl.2.closes d) = true

/-- The calls that use the data of a file. -/
def FileOp.usesData : FileOp → Option Fd
  | .read fd _ => some fd
  | .write fd _ _ => some fd
  | .close fd => some fd
  | _ => none

/-- No descriptor of a file in memory is read, written or closed after a `sys_close` of
one of the file's descriptors. -/
def BeforeClose (tr : List (FileOp × FileOut)) (s : Files) (lbl : FileOp × FileOut) : Prop :=
  ∀ fd r d file, lbl.1.usesData = some fd → fdDevice s fd = .ok (some (r, d)) →
    s.fs.dev d = .tmp file → ¬ closedBefore d tr

/-- The data of every file in memory is a block of the file's length. -/
def Stocked (fs : Fs) : Prop :=
  ∀ d file, fs.dev d = .tmp file → ∃ block, file.data = some block ∧
    block.length = file.length.toNat

section Block
variable {block : List UInt8} {pos : Nat} {buf : List UInt8}

theorem resize_length (size : Nat) (fresh : Nat → UInt8) :
    (resize block size fresh).length = size := by
  unfold resize
  rw [List.length_append, List.length_take, List.length_map, List.length_range]
  omega

theorem resize_getElem? {size i : Nat} (fresh : Nat → UInt8) (hi : i < block.length)
    (hs : i < size) : (resize block size fresh)[i]? = block[i]? := by
  unfold resize
  rw [List.getElem?_append_left (by rw [List.length_take]; omega), List.getElem?_take, if_pos hs]

theorem overwrite_ok {block' : List UInt8} (h : overwrite block pos buf = .ok block') :
    pos + buf.length ≤ block.length ∧ block'.length = block.length ∧
      ∀ i, block'[i]? = if pos ≤ i ∧ i < pos + buf.length then buf[i - pos]? else block[i]? := by
  unfold overwrite at h
  split at h
  · rename_i hle
    cases Except.ok.inj h
    have htake : (block.take pos).length = pos := by
      rw [List.length_take]
      omega
    refine ⟨hle, ?_, ?_⟩
    · rw [List.length_append, List.length_append, htake, List.length_drop]
      omega
    · intro i
      rw [List.append_assoc]
      by_cases hlow : i < pos
      · rw [List.getElem?_append_left (by omega), List.getElem?_take, if_pos hlow,
          if_neg (by omega)]
      rw [List.getElem?_append_right (by omega), htake]
      by_cases hmid : i < pos + buf.length
      · rw [List.getElem?_append_left (by omega), if_pos (by omega)]
      · rw [List.getElem?_append_right (by omega), List.getElem?_drop, if_neg (by omega)]
        congr 1
        omega
  · cases h

end Block

/-- The data of the file is a block of its length with the bytes of `f` in it. -/
def Keeps (file : TmpFileDev) (f : Stored) : Prop :=
  ∃ block, file.data = some block ∧ block.length = file.length.toNat ∧
    ∀ i b, f.byte i = some b → block[i]? = some b

section File
variable {file file' : TmpFileDev} {f : Stored}

theorem tmpfsWriteFile_ok {buf : List UInt8} {fresh : Nat → UInt8} {n : Word}
    (hbuf : buf.length < 2 ^ 32) (hk : Keeps file f) (hlen : file.length.toNat = f.length)
    (h : tmpfsWriteFile file buf fresh = .ok (n, file')) :
    Keeps file' (f.write file.pos.toNat buf) ∧
      file'.length.toNat = (f.write file.pos.toNat buf).length := by
  obtain ⟨block, hdata, hblock, hbytes⟩ := hk
  obtain ⟨block₀, hderef, hrest⟩ := bind_eq_ok.mp h
  rw [deref_eq_ok, hdata] at hderef
  cases hderef
  obtain ⟨block', hover, hret⟩ := bind_eq_ok.mp hrest
  cases Except.ok.inj hret
  obtain ⟨hle, hlen', hget⟩ := overwrite_ok hover
  have hn : (BitVec.ofNat 32 buf.length).toNat = buf.length := by
    rw [BitVec.toNat_ofNat, Nat.mod_eq_of_lt hbuf]
  have hsum : (file.pos + BitVec.ofNat 32 buf.length).toNat =
      (file.pos.toNat + buf.length) % 2 ^ 32 := by rw [BitVec.toNat_add, hn]
  by_cases hgrow : file.length < file.pos + BitVec.ofNat 32 buf.length
  · rw [if_pos hgrow] at hle hlen' hget
    rw [resize_length] at hle hlen'
    have hgrow' : file.length.toNat < (file.pos + BitVec.ofNat 32 buf.length).toNat := hgrow
    have hfits : (file.pos + BitVec.ofNat 32 buf.length).toNat = file.pos.toNat + buf.length := by
      omega
    have hlength : (file.pos + BitVec.ofNat 32 buf.length).toNat =
        (f.write file.pos.toNat buf).length := by
      change _ = max f.length _
      omega
    refine ⟨⟨block', rfl, ?_, ?_⟩, ?_⟩
    · dsimp only
      rw [if_pos hgrow]
      exact hlen'
    · intro i b hb
      rw [hget i]
      change (if _ then _ else f.byte i) = some b at hb
      split
      · rename_i hin
        rw [if_pos hin] at hb
        exact hb
      · rename_i hout
        rw [if_neg hout] at hb
        have hi := hbytes i b hb
        have hlt := (List.getElem?_eq_some_iff.mp hi).1
        rw [resize_getElem? fresh hlt (by omega)]
        exact hi
    · dsimp only
      rw [if_pos hgrow]
      exact hlength
  · rw [if_neg hgrow] at hle hlen' hget
    refine ⟨⟨block', rfl, ?_, ?_⟩, ?_⟩
    · dsimp only
      rw [if_neg hgrow, hlen', hblock]
    · intro i b hb
      rw [hget i]
      change (if _ then _ else f.byte i) = some b at hb
      split
      · rename_i hin
        rw [if_pos hin] at hb
        exact hb
      · rename_i hout
        rw [if_neg hout] at hb
        exact hbytes i b hb
    · dsimp only
      rw [if_neg hgrow]
      change _ = max f.length _
      omega

/-- What a read returns is in the file at the position it found. -/
theorem tmpfsReadFile_ok {nbyte : Word} {buf : List UInt8} (hk : Keeps file f)
    (h : tmpfsReadFile file nbyte = .ok (buf, file')) :
    file'.length = file.length ∧ file'.data = file.data ∧
      ∀ i b, i < buf.length → f.byte (file.pos.toNat + i) = some b → buf[i]? = some b := by
  obtain ⟨block, hdata, _, hbytes⟩ := hk
  obtain ⟨block₀, hderef, hrest⟩ := bind_eq_ok.mp h
  rw [deref_eq_ok, hdata] at hderef
  cases hderef
  split at hrest
  · cases Except.ok.inj hrest
    refine ⟨rfl, rfl, ?_⟩
    intro i b hi hb
    rw [List.length_take] at hi
    rw [List.getElem?_take, if_pos (by omega), List.getElem?_drop]
    exact hbytes _ b hb
  · cases hrest

end File

/-- The file keeps its length, and until a `sys_close` it holds what was written. -/
def Preserved (d : DevPtr) (f₀ : Stored) (tr : List (FileOp × FileOut)) (s : Files) : Prop :=
  ∃ file, s.fs.dev d = .tmp file ∧ file.length.toNat = (f₀.after d tr).length ∧
    (¬ closedBefore d tr → Keeps file (f₀.after d tr))

section Steps
variable {d : DevPtr} {f₀ : Stored} {tr : List (FileOp × FileOut)} {s s' : Files}
  {lbl : FileOp × FileOut}

theorem Stored.after_snoc (d : DevPtr) (f : Stored) (tr : List (FileOp × FileOut))
    (lbl : FileOp × FileOut) : f.after d (tr ++ [lbl]) = (f.after d tr).event d lbl := by
  unfold Stored.after
  rw [List.foldl_append]
  rfl

theorem closedBefore_snoc : closedBefore d (tr ++ [lbl]) ↔
    closedBefore d tr ∨ lbl.2.closes d = true := by
  unfold closedBefore
  rw [List.any_append, Bool.or_eq_true]
  simp

/-- A step that leaves the file's length and data alone and does not write to it. -/
theorem Preserved.same (h : Preserved d f₀ tr s) {file file' : TmpFileDev}
    (hd : s.fs.dev d = .tmp file) (hd' : s'.fs.dev d = .tmp file')
    (hlen : file'.length = file.length) (hdata : file'.data = file.data)
    (hev : (f₀.after d tr).event d lbl = f₀.after d tr) : Preserved d f₀ (tr ++ [lbl]) s' := by
  obtain ⟨file₀, hd₀, hlen₀, hkeeps⟩ := h
  rw [hd] at hd₀
  cases hd₀
  refine ⟨file', hd', ?_, ?_⟩
  · rw [Stored.after_snoc, hev, hlen]
    exact hlen₀
  · intro hnot
    rw [Stored.after_snoc, hev]
    obtain ⟨block, hblock, hsize, hbytes⟩ := hkeeps fun hc => hnot (closedBefore_snoc.mpr (.inl hc))
    refine ⟨block, ?_, ?_, hbytes⟩
    · rw [hdata, hblock]
    · rw [hsize, hlen]

theorem Preserved.other (h : Preserved d f₀ tr s) (hd : s'.fs.dev d = s.fs.dev d)
    (hev : (f₀.after d tr).event d lbl = f₀.after d tr) : Preserved d f₀ (tr ++ [lbl]) s' := by
  obtain ⟨file, hfile, _⟩ := id h
  exact h.same hfile (hd.trans hfile) rfl rfl hev

theorem Preserved.step (h : Preserved d f₀ tr s) (hok : BeforeClose tr s lbl)
    (hs : FileStep s lbl s') : Preserved d f₀ (tr ++ [lbl]) s' := by
  obtain ⟨op, out⟩ := lbl
  obtain ⟨file, hfile, hlen, hkeeps⟩ := id h
  cases hs.effect with
  | quiet ret p _ => exact h.other rfl rfl
  | opened path r behind e p _ _ => exact h.other rfl rfl
  | got fd nbyte r e buf v he hv =>
    by_cases hed : d = e
    · subst hed
      have hk := hkeeps (hok fd r d file rfl he hfile)
      rw [hfile] at hv
      obtain ⟨⟨buf', file'⟩, hread, hret⟩ := bind_eq_ok.mp hv
      cases Except.ok.inj hret
      obtain ⟨hlen', hdata', _⟩ := tmpfsReadFile_ok hk hread
      exact h.same hfile (setDev_self s d _) hlen' hdata' rfl
    · exact h.other (setDev_of_ne s v hed) rfl
  | wrote fd buf fresh r e v he hbuf hv =>
    by_cases hed : d = e
    · subst hed
      have hk := hkeeps (hok fd r d file rfl he hfile)
      rw [hfile] at hv
      obtain ⟨⟨n, file'⟩, hwrite, hret⟩ := bind_eq_ok.mp hv
      cases Except.ok.inj hret
      obtain ⟨hk', hlen'⟩ := tmpfsWriteFile_ok hbuf hk hlen hwrite
      have hev : (f₀.after d tr).event d (.write fd buf fresh, .wrote r d (s.fs.dev d).pos buf) =
          (f₀.after d tr).write file.pos.toNat buf := by
        rw [hfile]
        exact if_pos rfl
      refine ⟨file', setDev_self s d _, ?_, ?_⟩
      · rw [Stored.after_snoc, hev]
        exact hlen'
      · intro _
        rw [Stored.after_snoc, hev]
        exact hk'
    · exact h.other (setDev_of_ne s v hed) (if_neg (Ne.symm hed))
  | sought fd offset whence r e _ =>
    by_cases hed : d = e
    · subst hed
      have hseek : (s.setDev d ((s.fs.dev d).seek offset whence).2).fs.dev d =
          .tmp (tmpfsSeekFile file offset whence).2 := by
        rw [setDev_self, hfile]
        rfl
      exact h.same hfile hseek rfl rfl rfl
    · exact h.other (setDev_of_ne s _ hed) rfl
  | closed fd r e v p he hv _ _ =>
    by_cases hed : d = e
    · subst hed
      rw [hfile] at hv
      obtain ⟨file', hclose, hret⟩ := bind_eq_ok.mp hv
      cases Except.ok.inj hret
      obtain ⟨_, _, hfile'⟩ := bind_eq_ok.mp hclose
      cases Except.ok.inj hfile'
      refine ⟨_, setDev_self s d _, ?_, ?_⟩
      · rw [Stored.after_snoc]
        exact hlen
      · intro hnot
        refine absurd (closedBefore_snoc.mpr (.inr ?_)) hnot
        exact beq_self_eq_true d
    · exact h.other (setDev_of_ne s v hed) rfl

/-- A file is created empty and with its data in place. -/
theorem Stocked.tmpfsCreateFile {fs fs' : Fs} (h : Stocked fs) {fuel : Nat} {parent n : NodePtr}
    {name : Bytes.CString} (hc : tmpfsCreateFile fuel parent name fs = .ok (n, fs')) :
    Stocked fs' := by
  obtain ⟨⟨node, fs₁⟩, hnew, hlink⟩ := bind_eq_ok.mp hc
  obtain ⟨nodes, _, hret⟩ := bind_eq_ok.mp hlink
  cases Except.ok.inj hret
  have hdev : fs₁.dev = Function.update fs.dev fs.ndev (.tmp ⟨0#32, 0#32, some []⟩) := by
    unfold newNode at hnew
    split at hnew
    · cases hnew
    · cases Except.ok.inj hnew
      rfl
  intro d file hd
  change fs₁.dev d = _ at hd
  rw [hdev] at hd
  by_cases hdn : d = fs.ndev
  · subst hdn
    rw [Function.update_self] at hd
    cases hd
    exact ⟨[], rfl, rfl⟩
  · rw [Function.update_of_ne hdn] at hd
    exact h d file hd

end Steps

section Runs
variable {s₀ s : Files} {tr : List (FileOp × FileOut)}

instance (d : DevPtr) (tr : List (FileOp × FileOut)) : Decidable (closedBefore d tr) :=
  inferInstanceAs (Decidable (_ = true))

end Runs

end AkKernel
