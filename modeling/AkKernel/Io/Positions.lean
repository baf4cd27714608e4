import AkKernel.Io.Files

/-!
# The positions of descriptors

A file has one device and with it one position, which every `sys_open` of the file hands
out again. A descriptor that is used only while nobody else moved that position behaves
as if it had a position of its own.
-/

set_option autoImplicit false

namespace AkKernel

open Runs

namespace Device

def Regular : Device → Prop
  | .cpio _ => True
  | .tmp _ => True
  | .chr => False

def length : Device → Word
  | .cpio file => file.length
  | .tmp file => file.length
  | .chr => 0#32

def freed : Device → Device
  | .cpio file => .cpio file
  | .tmp file => .tmp { file with data := none }
  | .chr => .chr

def written (v : Device) (p : Word) (buf : List UInt8) (fresh : Nat → UInt8) : Device :=
  match (v.withPos p).write buf fresh with
  | .ok w => w
  | .error _ => v

end Device

/-- The same file, at any position, with its data in place or freed. -/
def SameFile (v w : Device) : Prop :=
  v = w.withPos v.pos ∨ v = (w.withPos v.pos).freed

/-- What concerns a descriptor of a file: the calls made through it, and the bytes
written to the file through any descriptor. -/
inductive Request where
  | opened
  | read (nbyte : Word)
  | wrote (own : Bool) (pos : Word) (buf : List UInt8) (fresh : Nat → UInt8)
  | sought (offset whence : Word)

def request (r : DescrPtr) (d : DevPtr) : FileOp × FileOut → Option Request
  | (.openFile _ _ _, .opened q e _) => if q = r ∧ e = d then some .opened else none
  | (.read _ nbyte, .got q e _ _) => if q = r ∧ e = d then some (.read nbyte) else none
  | (.write _ buf fresh, .wrote q e pos _) =>
    if e = d then some (.wrote (q == r) pos buf fresh) else none
  | (.lseek _ offset whence, .sought q e _ _) =>
    if q = r ∧ e = d then some (.sought offset whence) else none
  | _ => none

def requests (r : DescrPtr) (d : DevPtr) (tr : List (FileOp × FileOut)) : List Request :=
  tr.filterMap (request r d)

/-- A file as a descriptor with its own position sees it. -/
structure View where
  pos : Word
  file : Device

def View.next (v : View) : Request → View
  | .opened => { v with pos := 0#32 }
  | .read nbyte => { v with pos := v.pos + readCount v.pos v.file.length nbyte }
  | .wrote own pos buf fresh =>
    { pos := if own then v.pos + BitVec.ofNat 32 buf.length else v.pos
      file := v.file.written pos buf fresh }
  | .sought offset whence => { v with pos := seekPos v.pos v.file.length offset whence }

def View.after (file : Device) (reqs : List Request) : View :=
  reqs.foldl View.next ⟨0#32, file⟩

/-- What a descriptor with its own position gets to see: the bytes, and the position where
they are or where the call went. -/
def View.reply (v : View) (mem : Word → UInt8) : Request → List UInt8 × Word
  | .opened => ([], 0#32)
  | .read nbyte =>
    match (v.file.withPos v.pos).read mem nbyte with
    | .ok (buf, _) => (buf, v.pos)
    | .error _ => ([], 0#32)
  | .wrote own pos buf _ => (buf, if own then v.pos else pos)
  | .sought offset whence => ([], seekPos v.pos v.file.length offset whence)

/-- The bytes that a call gives, and the position where it found them or went to. -/
def FileOut.reply : FileOut → List UInt8 × Word
  | .got _ _ pos buf => (buf, pos)
  | .wrote _ _ pos buf => (buf, pos)
  | .sought _ _ _ ret => ([], ret)
  | _ => ([], 0#32)

/-- Whether the position of a descriptor's file was moved behind its back: the file was
not at its start when it was opened, or a call through another descriptor went to another
position. -/
def movedEvent (r : DescrPtr) (d : DevPtr) (moved : Bool) (lbl : FileOp × FileOut) : Bool :=
  match lbl.2 with
  | .opened q e pos => if q = r ∧ e = d then pos != 0#32 else moved
  | .got q e _ buf => if q ≠ r ∧ e = d then moved || !buf.isEmpty else moved
  | .wrote q e _ buf => if q ≠ r ∧ e = d then moved || !buf.isEmpty else moved
  | .sought q e pos ret => if e = d then (if q = r then false else moved || pos != ret) else moved
  | _ => moved

def moved (r : DescrPtr) (d : DevPtr) (tr : List (FileOp × FileOut)) : Bool :=
  tr.foldl (movedEvent r d) false

/-- The calls that start from the position of the file. -/
def FileOp.usesPos : FileOp → Option Fd
  | .read fd _ => some fd
  | .write fd _ _ => some fd
  | .lseek fd _ whence => if whence = seekSet ∨ whence = seekEnd then none else some fd
  | _ => none

/-- No call starts from the position of a file that was moved behind the descriptor's
back. -/
def Undisturbed (tr : List (FileOp × FileOut)) (s : Files) (lbl : FileOp × FileOut) : Prop :=
  ∀ fd r d, lbl.1.usesPos = some fd → fdDevice s fd = .ok (some (r, d)) →
    (s.fs.dev d).Regular → moved r d tr = false

namespace Device
variable {v w : Device} {mem : Word → UInt8} {buf : List UInt8}

theorem read_ok {nbyte : Word} (h : v.read mem nbyte = .ok (buf, w)) :
    w = v.withPos (v.pos + readCount v.pos v.length nbyte) ∧
      buf.length = (readCount v.pos v.length nbyte).toNat := by
  cases v with
  | cpio file =>
    cases Except.ok.inj h
    exact ⟨rfl, Bytes.read_length _ _ _⟩
  | tmp file =>
    obtain ⟨⟨buf', file'⟩, hread, hret⟩ := bind_eq_ok.mp h
    cases Except.ok.inj hret
    obtain ⟨block, _, hrest⟩ := bind_eq_ok.mp hread
    split at hrest
    · rename_i hfit
      cases Except.ok.inj hrest
      refine ⟨rfl, ?_⟩
      rw [List.length_take, List.length_drop]
      change min (readCount file.pos file.length nbyte).toNat _ =
        (readCount file.pos file.length nbyte).toNat
      omega
    · cases hrest
  | chr =>
    cases Except.ok.inj h
    refine ⟨rfl, ?_⟩
    change 0 = (readCount 0#32 0#32 nbyte).toNat
    unfold readCount
    split
    · rfl
    · rename_i hge
      have hle : (0#32 + nbyte).toNat ≤ 0 := BitVec.not_lt.mp hge
      rw [BitVec.zero_add] at hle
      omega

theorem write_ok {fresh : Nat → UInt8} (hreg : v.Regular) (h : v.write buf fresh = .ok w) :
    w.Regular ∧ w.pos = v.pos + BitVec.ofNat 32 buf.length := by
  cases v with
  | cpio file => cases h
  | tmp file =>
    obtain ⟨⟨n, file'⟩, hwrite, hret⟩ := bind_eq_ok.mp h
    cases Except.ok.inj hret
    obtain ⟨block, _, hrest⟩ := bind_eq_ok.mp hwrite
    obtain ⟨block', _, hret'⟩ := bind_eq_ok.mp hrest
    cases Except.ok.inj hret'
    exact ⟨trivial, rfl⟩
  | chr => cases hreg

theorem seek_snd (v : Device) (offset whence : Word) :
    (v.seek offset whence).2 = v.withPos (seekPos v.pos v.length offset whence) := by
  cases v <;> rfl

theorem seek_fst (hreg : v.Regular) (offset whence : Word) :
    (v.seek offset whence).1 = seekPos v.pos v.length offset whence := by
  cases v with
  | cpio file => rfl
  | tmp file => rfl
  | chr => cases hreg

theorem withPos_regular {p : Word} (h : (v.withPos p).Regular) : v.Regular := by
  cases v <;> exact h

theorem withPos_pos (hreg : v.Regular) (p : Word) : (v.withPos p).pos = p := by
  cases v with
  | cpio file => rfl
  | tmp file => rfl
  | chr => cases hreg

theorem close_ok (h : v.close = .ok w) : w = v.freed := by
  cases v with
  | cpio file =>
    cases Except.ok.inj h
    rfl
  | tmp file =>
    obtain ⟨file', hclose, hret⟩ := bind_eq_ok.mp h
    cases Except.ok.inj hret
    obtain ⟨_, _, hret'⟩ := bind_eq_ok.mp hclose
    cases Except.ok.inj hret'
    rfl
  | chr =>
    cases Except.ok.inj h
    rfl

end Device

section SameFile
variable {v w : Device}

theorem SameFile.refl (v : Device) : SameFile v v := by
  cases v <;> exact .inl rfl

theorem SameFile.length_eq (h : SameFile v w) : v.length = w.length := by
  have hw : ∀ p, (w.withPos p).length = w.length ∧ (w.withPos p).freed.length = w.length := by
    intro p
    cases w <;> exact ⟨rfl, rfl⟩
  rcases h with h | h
  · rw [h, (hw _).1]
  · rw [h, (hw _).2]

theorem SameFile.regular (h : SameFile v w) (hw : w.Regular) : v.Regular := by
  cases w with
  | cpio file => rcases h with h | h <;> rw [h] <;> trivial
  | tmp file => rcases h with h | h <;> rw [h] <;> trivial
  | chr => cases hw

theorem SameFile.withPos (h : SameFile v w) (p : Word) : SameFile (v.withPos p) w := by
  have hw : ∀ q, (w.withPos q).withPos p = w.withPos ((w.withPos q).withPos p).pos ∧
      (w.withPos q).freed.withPos p = (w.withPos ((w.withPos q).freed.withPos p).pos).freed := by
    intro q
    cases w <;> exact ⟨rfl, rfl⟩
  rcases h with h | h
  · rw [h]
    exact .inl (hw _).1
  · rw [h]
    exact .inr (hw _).2

theorem SameFile.freed (h : SameFile v w) : SameFile v.freed w := by
  have hw : ∀ q, (w.withPos q).freed = (w.withPos (w.withPos q).freed.pos).freed ∧
      (w.withPos q).freed.freed = (w.withPos (w.withPos q).freed.freed.pos).freed := by
    intro q
    cases w <;> exact ⟨rfl, rfl⟩
  rcases h with h | h
  · rw [h]
    exact .inr (hw _).1
  · rw [h]
    exact .inr (hw _).2

theorem SameFile.of_read (h : SameFile v w) {mem : Word → UInt8} {nbyte : Word}
    {r : List UInt8 × Device} (hr : v.read mem nbyte = .ok r) : v = w.withPos v.pos := by
  rcases h with h | h
  · exact h
  cases w with
  | cpio file => exact h
  | tmp file =>
    rw [h] at hr
    cases hr
  | chr => exact h

theorem SameFile.of_write (h : SameFile v w) {buf : List UInt8} {fresh : Nat → UInt8}
    {v' : Device} (hr : v.write buf fresh = .ok v') : w.written v.pos buf fresh = v' := by
  have hv : v = w.withPos v.pos := by
    rcases h with h | h
    · exact h
    cases w with
    | cpio file => exact h
    | tmp file =>
      rw [h] at hr
      cases hr
    | chr => exact h
  unfold Device.written
  rw [← hv, hr]

end SameFile

/-- The view of descriptor `r` on the file of device `d` after the history. -/
def viewOf (fs : Fs) (r : DescrPtr) (d : DevPtr) (tr : List (FileOp × FileOut)) : View :=
  View.after (fs.dev d) (requests r d tr)

/-- A descriptor whose position was not moved finds the one it left, and the file holds
what was written to it. -/
structure PosInv (s₀ : Files) (tr : List (FileOp × FileOut)) (s : Files) : Prop where
  mem : s.fs.mem = s₀.fs.mem
  file : ∀ r d, SameFile (s.fs.dev d) (viewOf s₀.fs r d tr).file
  pos : ∀ r v, s.proc.descr r = some v → (s.fs.dev v.dev).Regular → moved r v.dev tr = false →
    (s.fs.dev v.dev).pos = (viewOf s₀.fs r v.dev tr).pos

section Steps
variable {s₀ s s' : Files} {tr : List (FileOp × FileOut)} {lbl : FileOp × FileOut}
  {r : DescrPtr} {d : DevPtr}

theorem moved_snoc : moved r d (tr ++ [lbl]) = movedEvent r d (moved r d tr) lbl := by
  unfold moved
  rw [List.foldl_append]
  rfl

theorem viewOf_snoc_none {fs : Fs} (h : request r d lbl = none) :
    viewOf fs r d (tr ++ [lbl]) = viewOf fs r d tr := by
  unfold viewOf requests
  rw [List.filterMap_append, List.filterMap_cons, h, List.filterMap_nil, List.append_nil]

theorem viewOf_snoc_some {fs : Fs} {q : Request} (h : request r d lbl = some q) :
    viewOf fs r d (tr ++ [lbl]) = (viewOf fs r d tr).next q := by
  unfold viewOf requests View.after
  rw [List.filterMap_append, List.filterMap_cons, h, List.filterMap_nil, List.foldl_append]
  rfl

/-- Every descriptor was open before, for the same device. -/
def FewerDescrs (descr descr' : DescrPtr → Option Fdescr) : Prop :=
  ∀ r w, descr' r = some w → ∃ u, descr r = some u ∧ u.dev = w.dev

theorem SameDevs.fewer {descr descr' : DescrPtr → Option Fdescr} (h : SameDevs descr descr') :
    FewerDescrs descr descr' := by
  intro r w hw
  have hdev := h r
  rw [hw] at hdev
  exact Option.map_eq_some_iff.mp hdev.symm

/-- A step that changes one device and opens nothing. -/
theorem PosInv.device (h : PosInv s₀ tr s) {e : DevPtr} {v : Device} {p : Proc}
    (hdescr : FewerDescrs s.proc.descr p.descr)
    (hrest : ∀ r d, d ≠ e → request r d lbl = none ∧ movedEvent r d (moved r d tr) lbl = moved r d tr)
    (hfile : ∀ r, SameFile v (viewOf s₀.fs r e (tr ++ [lbl])).file)
    (hpos : ∀ r w, s.proc.descr r = some w → w.dev = e → v.Regular →
      moved r e (tr ++ [lbl]) = false → v.pos = (viewOf s₀.fs r e (tr ++ [lbl])).pos) :
    PosInv s₀ (tr ++ [lbl]) { s.setDev e v with proc := p } := by
  refine ⟨h.mem, ?_, ?_⟩
  · intro r d
    change SameFile ((s.setDev e v).fs.dev d) _
    by_cases hd : d = e
    · subst hd
      rw [setDev_self]
      exact hfile r
    · rw [setDev_of_ne s v hd, viewOf_snoc_none (hrest r d hd).1]
      exact h.file r d
  · intro r w hw hreg hmoved
    obtain ⟨u, hu, hue⟩ := hdescr r w hw
    rw [← hue] at hreg hmoved ⊢
    change ((s.setDev e v).fs.dev u.dev).Regular at hreg
    change ((s.setDev e v).fs.dev u.dev).pos = _
    by_cases hd : u.dev = e
    · rw [hd, setDev_self] at hreg ⊢
      rw [hd] at hmoved
      exact hpos r u hu hd hreg hmoved
    · rw [setDev_of_ne s v hd] at hreg ⊢
      rw [moved_snoc, (hrest r _ hd).2] at hmoved
      rw [viewOf_snoc_none (hrest r _ hd).1]
      exact h.pos r u hu hreg hmoved

theorem PosInv.device_self (h : PosInv s₀ tr s) {e : DevPtr} {v : Device}
    (hrest : ∀ r d, d ≠ e → request r d lbl = none ∧ movedEvent r d (moved r d tr) lbl = moved r d tr)
    (hfile : ∀ r, SameFile v (viewOf s₀.fs r e (tr ++ [lbl])).file)
    (hpos : ∀ r w, s.proc.descr r = some w → w.dev = e → v.Regular →
      moved r e (tr ++ [lbl]) = false → v.pos = (viewOf s₀.fs r e (tr ++ [lbl])).pos) :
    PosInv s₀ (tr ++ [lbl]) (s.setDev e v) :=
  h.device (p := s.proc) (fun _ w hw => ⟨w, hw, rfl⟩) hrest hfile hpos

/-- A step that opens nothing and changes no device. -/
theorem PosInv.still (h : PosInv s₀ tr s) {p : Proc} (hdescr : FewerDescrs s.proc.descr p.descr)
    (hreq : ∀ r d, request r d lbl = none)
    (hmoved : ∀ r d, movedEvent r d (moved r d tr) lbl = moved r d tr) :
    PosInv s₀ (tr ++ [lbl]) { s with proc := p } := by
  refine ⟨h.mem, ?_, ?_⟩
  · intro r d
    rw [viewOf_snoc_none (hreq r d)]
    exact h.file r d
  · intro r w hw hreg hm
    obtain ⟨u, hu, hue⟩ := hdescr r w hw
    rw [moved_snoc, hmoved] at hm
    rw [viewOf_snoc_none (hreq r _), ← hue]
    rw [← hue] at hreg hm
    exact h.pos r u hu hreg hm

theorem PosInv.opened (h : PosInv s₀ tr s) {path : Bytes.CString} {q : DescrPtr}
    {behind : Nat → Option DescrPtr} {e : DevPtr} {p : Proc}
    (hdescr : p.descr = Function.update s.proc.descr q (some ⟨e, 1⟩)) :
    PosInv s₀ (tr ++ [(.openFile path q behind, .opened q e (s.fs.dev e).pos)])
      { s with proc := p } := by
  have hother : ∀ r d, ¬ (q = r ∧ e = d) →
      request r d (.openFile path q behind, .opened q e (s.fs.dev e).pos) = none ∧
      movedEvent r d (moved r d tr) (.openFile path q behind, .opened q e (s.fs.dev e).pos) =
        moved r d tr := fun r d hne => ⟨if_neg hne, if_neg hne⟩
  have hown : request q e (.openFile path q behind, .opened q e (s.fs.dev e).pos) =
      some .opened := if_pos ⟨rfl, rfl⟩
  refine ⟨h.mem, ?_, ?_⟩
  · intro r d
    by_cases hqe : q = r ∧ e = d
    · obtain ⟨rfl, rfl⟩ := hqe
      rw [viewOf_snoc_some hown]
      exact h.file q e
    · rw [viewOf_snoc_none (hother r d hqe).1]
      exact h.file r d
  · intro r w hw hreg hm
    change p.descr r = some w at hw
    by_cases hr : r = q
    · subst hr
      rw [hdescr, Function.update_self] at hw
      cases hw
      rw [viewOf_snoc_some hown]
      rw [moved_snoc] at hm
      change (if r = r ∧ e = e then (s.fs.dev e).pos != 0#32 else _) = false at hm
      rw [if_pos ⟨rfl, rfl⟩] at hm
      exact bne_eq_false_iff_eq.mp hm
    · rw [hdescr, Function.update_of_ne hr] at hw
      have hne : ¬ (q = r ∧ e = w.dev) := fun hc => hr hc.1.symm
      rw [moved_snoc, (hother r _ hne).2] at hm
      rw [viewOf_snoc_none (hother r _ hne).1]
      exact h.pos r w hw hreg hm

/-- The descriptor that a call goes through is at its own position when the call starts
from there. -/
theorem PosInv.found (h : PosInv s₀ tr s) {fd : Fd} (hd : fdDevice s fd = .ok (some (r, d)))
    (hreg : (s.fs.dev d).Regular) (hm : moved r d tr = false) :
    (s.fs.dev d).pos = (viewOf s₀.fs r d tr).pos := by
  obtain ⟨_, v, hv, rfl⟩ := fdDevice_some hd
  exact h.pos r v hv hreg hm

theorem PosInv.got (h : PosInv s₀ tr s) {fd : Fd} {nbyte : Word} {q : DescrPtr} {e : DevPtr}
    {buf : List UInt8} {v : Device}
    (hok : Undisturbed tr s (.read fd nbyte, .got q e (s.fs.dev e).pos buf))
    (he : fdDevice s fd = .ok (some (q, e))) (hv : (s.fs.dev e).read s.fs.mem nbyte = .ok (buf, v)) :
    PosInv s₀ (tr ++ [(.read fd nbyte, .got q e (s.fs.dev e).pos buf)]) (s.setDev e v) := by
  obtain ⟨rfl, hlen⟩ := Device.read_ok hv
  have hown : request q e (.read fd nbyte, .got q e (s.fs.dev e).pos buf) = some (.read nbyte) :=
    if_pos ⟨rfl, rfl⟩
  have hother : ∀ r, r ≠ q → request r e (.read fd nbyte, .got q e (s.fs.dev e).pos buf) = none :=
    fun r hr => if_neg fun hc => hr hc.1.symm
  refine h.device_self ?_ ?_ ?_
  · intro r d hd
    exact ⟨if_neg fun hc => hd hc.2.symm, if_neg fun hc => hd hc.2.symm⟩
  · intro r
    by_cases hr : r = q
    · subst hr
      rw [viewOf_snoc_some hown]
      exact (h.file r e).withPos _
    · rw [viewOf_snoc_none (hother r hr)]
      exact (h.file r e).withPos _
  · intro r w hw hwe hreg hm
    have hreg' := Device.withPos_regular hreg
    rw [Device.withPos_pos hreg']
    by_cases hr : r = q
    · subst hr
      rw [viewOf_snoc_some hown, (h.file r e).length_eq, h.found he hreg' (hok fd r e rfl he hreg')]
      rfl
    · rw [moved_snoc] at hm
      change (if q ≠ r ∧ e = e then _ else _) = false at hm
      rw [if_pos ⟨Ne.symm hr, rfl⟩, Bool.or_eq_false_iff] at hm
      -- nothing was read, so the position is where it was
      have hempty : buf = [] := by simpa using hm.2
      rw [hempty, List.length_nil] at hlen
      have hzero : readCount (s.fs.dev e).pos (s.fs.dev e).length nbyte = 0#32 :=
        BitVec.eq_of_toNat_eq hlen.symm
      subst hwe
      rw [viewOf_snoc_none (hother r hr), hzero, BitVec.add_zero]
      exact h.pos r w hw hreg' hm.1

theorem PosInv.wrote (h : PosInv s₀ tr s) {fd : Fd} {q : DescrPtr} {e : DevPtr}
    {buf : List UInt8} {fresh : Nat → UInt8} {v : Device}
    (hok : Undisturbed tr s (.write fd buf fresh, .wrote q e (s.fs.dev e).pos buf))
    (he : fdDevice s fd = .ok (some (q, e))) (hv : (s.fs.dev e).write buf fresh = .ok v) :
    PosInv s₀ (tr ++ [(.write fd buf fresh, .wrote q e (s.fs.dev e).pos buf)]) (s.setDev e v) := by
  have hreq : ∀ r, request r e (.write fd buf fresh, .wrote q e (s.fs.dev e).pos buf) =
      some (.wrote (q == r) (s.fs.dev e).pos buf fresh) := fun r => if_pos rfl
  refine h.device_self ?_ ?_ ?_
  · intro r d hd
    exact ⟨if_neg (Ne.symm hd), if_neg fun hc => hd hc.2.symm⟩
  · intro r
    rw [viewOf_snoc_some (hreq r)]
    change SameFile v ((viewOf s₀.fs r e tr).file.written (s.fs.dev e).pos buf fresh)
    rw [(h.file r e).of_write hv]
    exact .refl v
  · intro r w hw hwe hreg hm
    have hreg' : (s.fs.dev e).Regular := by
      cases hdev : s.fs.dev e with
      | cpio file => trivial
      | tmp file => trivial
      | chr =>
        rw [hdev] at hv
        cases Except.ok.inj hv
        exact hreg
    rw [viewOf_snoc_some (hreq r), (Device.write_ok hreg' hv).2]
    by_cases hr : q = r
    · subst hr
      rw [h.found he hreg' (hok fd q e rfl he hreg')]
      exact (if_pos (beq_self_eq_true q)).symm
    · rw [moved_snoc] at hm
      change (if q ≠ r ∧ e = e then _ else _) = false at hm
      rw [if_pos ⟨hr, rfl⟩, Bool.or_eq_false_iff] at hm
      have hempty : buf = [] := by simpa using hm.2
      subst hwe
      rw [hempty]
      change _ + 0#32 = if (q == r) = true then _ else _
      rw [BitVec.add_zero, if_neg (by simpa using hr)]
      exact h.pos r w hw hreg' hm.1

/-- A seek that is not relative to the position goes where it would go from anywhere. -/
theorem PosInv.seekPos_eq (h : PosInv s₀ tr s) {fd : Fd} {offset whence : Word} {out : FileOut}
    (hok : Undisturbed tr s (.lseek fd offset whence, out))
    (he : fdDevice s fd = .ok (some (r, d))) (hreg : (s.fs.dev d).Regular) (length : Word) :
    seekPos (s.fs.dev d).pos length offset whence =
      seekPos (viewOf s₀.fs r d tr).pos length offset whence := by
  by_cases hset : whence = seekSet
  · simp only [seekPos, if_pos hset]
  by_cases hend : whence = seekEnd
  · subst hend
    simp [seekPos, seekSet, seekCur, seekEnd]
  have huse : (FileOp.lseek fd offset whence).usesPos = some fd :=
    if_neg fun hc => hc.elim hset hend
  rw [h.found he hreg (hok fd r d huse he hreg)]

theorem PosInv.sought (h : PosInv s₀ tr s) {fd : Fd} {offset whence : Word} {q : DescrPtr}
    {e : DevPtr} {out : FileOut}
    (hout : out = .sought q e (s.fs.dev e).pos ((s.fs.dev e).seek offset whence).1)
    (hok : Undisturbed tr s (.lseek fd offset whence, out))
    (he : fdDevice s fd = .ok (some (q, e))) :
    PosInv s₀ (tr ++ [(.lseek fd offset whence, out)])
      (s.setDev e ((s.fs.dev e).seek offset whence).2) := by
  subst hout
  have hown : request q e (.lseek fd offset whence, .sought q e (s.fs.dev e).pos
      ((s.fs.dev e).seek offset whence).1) = some (.sought offset whence) := if_pos ⟨rfl, rfl⟩
  have hother : ∀ r, r ≠ q → request r e (.lseek fd offset whence, .sought q e (s.fs.dev e).pos
      ((s.fs.dev e).seek offset whence).1) = none := fun r hr => if_neg fun hc => hr hc.1.symm
  rw [Device.seek_snd]
  refine h.device_self ?_ ?_ ?_
  · intro r d hd
    exact ⟨if_neg fun hc => hd hc.2.symm, if_neg (Ne.symm hd)⟩
  · intro r
    by_cases hr : r = q
    · subst hr
      rw [viewOf_snoc_some hown]
      exact (h.file r e).withPos _
    · rw [viewOf_snoc_none (hother r hr)]
      exact (h.file r e).withPos _
  · intro r w hw hwe hreg hm
    have hreg' := Device.withPos_regular hreg
    rw [Device.withPos_pos hreg']
    by_cases hr : r = q
    · subst hr
      rw [viewOf_snoc_some hown, (h.file r e).length_eq]
      exact h.seekPos_eq hok he hreg' _
    · rw [moved_snoc] at hm
      change (if e = e then (if q = r then _ else _) else _) = false at hm
      rw [if_pos rfl, if_neg (Ne.symm hr), Bool.or_eq_false_iff] at hm
      have hsame : (s.fs.dev e).pos = seekPos (s.fs.dev e).pos (s.fs.dev e).length offset whence := by
        have hne := bne_eq_false_iff_eq.mp hm.2
        rw [Device.seek_fst hreg'] at hne
        exact hne
      subst hwe
      rw [viewOf_snoc_none (hother r hr), ← hsame]
      exact h.pos r w hw hreg' hm.1

theorem PosInv.step (h : PosInv s₀ tr s) (hok : Undisturbed tr s lbl) (hs : FileStep s lbl s') :
    PosInv s₀ (tr ++ [lbl]) s' := by
  obtain ⟨op, out⟩ := lbl
  cases hs.effect with
  | quiet _ ret p hsame =>
    refine h.still hsame.fewer ?_ fun _ _ => rfl
    intro r d
    cases op <;> rfl
  | opened path q behind e p _ hdescr => exact h.opened hdescr
  | got fd nbyte q e buf v he hv => exact h.got hok he hv
  | wrote fd buf fresh q e v he _ hv => exact h.wrote hok he hv
  | sought fd offset whence q e he => exact h.sought rfl hok he
  | closed fd q e v p he hv hdescr hq =>
    obtain ⟨_, u, hu, hue⟩ := fdDevice_some he
    cases Device.close_ok hv
    refine h.device ?_ (fun _ _ _ => ⟨rfl, rfl⟩) ?_ ?_
    · intro r w hw
      by_cases hr : r = q
      · subst hr
        rw [hw] at hq
        rcases hq with hq | hq
        · cases hq
        · exact ⟨u, hu, hue.trans (Option.some.inj hq).symm⟩
      · exact ⟨w, (hdescr r hr).symm.trans hw, rfl⟩
    · intro r
      rw [viewOf_snoc_none rfl]
      exact (h.file r e).freed
    · intro r w hw hwe hreg hm
      rw [moved_snoc] at hm
      rw [viewOf_snoc_none rfl]
      subst hwe
      have hsame : (s.fs.dev w.dev).freed.pos = (s.fs.dev w.dev).pos ∧
          ((s.fs.dev w.dev).freed.Regular → (s.fs.dev w.dev).Regular) := by
        cases s.fs.dev w.dev <;> exact ⟨rfl, id⟩
      rw [hsame.1]
      exact h.pos r w hw (hsame.2 hreg) hm

end Steps

section Runs
variable {s₀ s s' : Files} {tr : List (FileOp × FileOut)} {lbl : FileOp × FileOut}
  {r : DescrPtr} {d : DevPtr}

theorem View.after_regular {file : Device} (h : file.Regular) (reqs : List Request) :
    (View.after file reqs).file.Regular := by
  have hnext : ∀ (v : View) (q : Request), v.file.Regular → (v.next q).file.Regular := by
    intro v q hv
    cases q with
    | opened => exact hv
    | read nbyte => exact hv
    | sought offset whence => exact hv
    | wrote own pos buf fresh =>
      change (v.file.written pos buf fresh).Regular
      have hpos : (v.file.withPos pos).Regular := by
        cases hf : v.file <;> rw [hf] at hv <;> exact hv
      unfold Device.written
      split
      · exact (Device.write_ok hpos (by assumption)).1
      · exact hv
  have hfold : ∀ (reqs : List Request) (v : View), v.file.Regular →
      (reqs.foldl View.next v).file.Regular := by
    intro reqs
    induction reqs with
    | nil => exact fun v hv => hv
    | cons q reqs ih => exact fun v hv => ih _ (hnext v q hv)
  exact hfold reqs _ h

/-- A call gives what it would give if the descriptor had its own position. -/
theorem PosInv.reply (h : PosInv s₀ tr s) (hreg : (s₀.fs.dev d).Regular)
    (hok : Undisturbed tr s lbl) (hs : FileStep s lbl s') {q : Request}
    (hq : request r d lbl = some q) :
    lbl.2.reply = (viewOf s₀.fs r d tr).reply s₀.fs.mem q := by
  obtain ⟨op, out⟩ := lbl
  have hreg' : (s.fs.dev d).Regular := (h.file r d).regular (View.after_regular hreg _)
  cases hs.effect with
  | quiet _ ret p _ => cases op <;> cases hq
  | opened path x behind e p _ _ =>
    by_cases hx : x = r ∧ e = d
    · rw [request, if_pos hx] at hq
      cases hq
      rfl
    · rw [request, if_neg hx] at hq
      cases hq
  | got fd nbyte x e buf v he hv =>
    by_cases hx : x = r ∧ e = d
    · rw [request, if_pos hx] at hq
      cases hq
      obtain ⟨rfl, rfl⟩ := hx
      have hpos := h.found he hreg' (hok fd x e rfl he hreg')
      have hfile := (h.file x e).of_read hv
      rw [hpos] at hfile
      rw [hfile, h.mem] at hv
      change (buf, (s.fs.dev e).pos) = match ((viewOf s₀.fs x e tr).file.withPos _).read _ _ with
        | .ok (buf, _) => (buf, (viewOf s₀.fs x e tr).pos)
        | .error _ => ([], 0#32)
      rw [hv, hpos]
    · rw [request, if_neg hx] at hq
      cases hq
  | wrote fd buf fresh x e v he _ hv =>
    by_cases hx : e = d
    · rw [request, if_pos hx] at hq
      cases hq
      subst hx
      change (buf, (s.fs.dev e).pos) = (buf, if (x == r) = true then _ else _)
      by_cases hr : x = r
      · subst hr
        rw [if_pos (beq_self_eq_true x), h.found he hreg' (hok fd x e rfl he hreg')]
      · rw [if_neg (by simpa using hr)]
    · rw [request, if_neg hx] at hq
      cases hq
  | sought fd offset whence x e he =>
    by_cases hx : x = r ∧ e = d
    · rw [request, if_pos hx] at hq
      cases hq
      obtain ⟨rfl, rfl⟩ := hx
      change (([] : List UInt8), ((s.fs.dev e).seek offset whence).1) =
        ([], seekPos (viewOf s₀.fs x e tr).pos (viewOf s₀.fs x e tr).file.length offset whence)
      rw [Device.seek_fst hreg', ← (h.file x e).length_eq, h.seekPos_eq hok he hreg']
    · rw [request, if_neg hx] at hq
      cases hq
  | closed fd x e v p _ _ _ _ => cases hq

end Runs

end AkKernel
