import Mathlib.Data.List.Induction
import Mathlib.Logic.Function.Basic

/-!
# The text console

`vga_console_init`, `vga_console_putc` and what they call in `arch/x86/vga_console.c`, and
`console_write` of `arch/x86/console.c`. The text buffer is the memory at `state.buffer`, in
cells of 16 bits; a cursor that has left the screen stores before it or behind it.
-/

set_option autoImplicit false

namespace AkKernel

/-- `state`, with what the functions have done to the outside: the indices they have stored
to and the values they have put to ports, oldest first. -/
structure Vga where
  buffer : Int → BitVec 16
  x : Int
  y : Int
  rows : Int
  cols : Int
  attrib : BitVec 8
  stores : List Int
  ports : List (BitVec 16 × BitVec 8)

namespace Vga

def textAddr (s : Vga) (x y : Int) : Int := y * s.cols + x

/-- `(uint16_t)((state.attrib << 8) | c)`, where `c` is a signed `char`. -/
def cellOf (attrib c : BitVec 8) : BitVec 16 := (attrib.setWidth 16 <<< 8) ||| c.signExtend 16

def store (s : Vga) (i : Int) (v : BitVec 16) : Vga :=
  { s with buffer := Function.update s.buffer i v, stores := s.stores ++ [i] }

def ioPut8 (port : BitVec 16) (v : BitVec 8) (s : Vga) : Vga :=
  { s with ports := s.ports ++ [(port, v)] }

def bufPutc (c : UInt8) (s : Vga) : Vga :=
  s.store (s.textAddr s.x s.y) (cellOf s.attrib c.toBitVec)

end Vga

open Vga

def vgaConsoleSetCursor (x y : Int) (s : Vga) : Vga :=
  let pos := s.textAddr x y
  let s := ioPut8 0x3D4 0x0F s
  let s := ioPut8 0x3D5 (BitVec.ofInt 8 pos) s
  let s := ioPut8 0x3D4 0x0E s
  ioPut8 0x3D5 (BitVec.ofInt 8 (pos / 256)) s

def vgaConsoleClear (s : Vga) : Vga :=
  (List.range (s.rows * s.cols * 2).toNat).foldl
    (fun s (i : Nat) => s.store i (cellOf s.attrib 0x20#8)) s

/-- `memmove` of `2 * n` bytes from `src` to the start of the buffer. -/
def Vga.moveDown (n : Nat) (src : Int) (s : Vga) : Vga :=
  { s with
    buffer := fun i => if 0 ≤ i ∧ i < n then s.buffer (src + i) else s.buffer i
    stores := s.stores ++ (List.range n).map Int.ofNat }

def vgaConsoleScroll (s : Vga) : Vga :=
  let s := s.moveDown (s.rows * s.cols).toNat s.cols
  { s with y := s.y - 1 }

def vgaConsoleInit (s : Vga) : Vga :=
  let s := { s with rows := 25, cols := 80 }
  let s := { s with attrib := 0x07#8 }
  let s := { s with x := 0, y := 0 }
  let s := vgaConsoleSetCursor 0xFF 0xFF s
  vgaConsoleClear s

/-- The special characters that move the cursor, and printing. -/
def Vga.put (c : UInt8) (s : Vga) : Vga :=
  if c = 0x0A then { s with x := 0, y := s.y + 1 }
  else if c = 0x08 then bufPutc 0x20 { s with x := s.x - 1 }
  else
    let s := bufPutc c s
    { s with x := s.x + 1 }

/-- The cursor brought back into its row. -/
def Vga.wrap (s : Vga) : Vga :=
  let s := if s.cols ≤ s.x then { s with x := 0, y := s.y + 1 } else s
  if s.x < 0 then { s with y := s.y - 1, x := s.cols - 1 } else s

/-- The screen scrolled if the cursor is below it, and the cursor set. -/
def Vga.settle (s : Vga) : Vga :=
  let s := if s.rows ≤ s.y then vgaConsoleScroll s else s
  vgaConsoleSetCursor s.x s.y s

def vgaConsolePutc (c : UInt8) (s : Vga) : Vga :=
  if c = 0x0D then s
  else (s.put c).wrap.settle

def vgaConsolePuts (cs : List UInt8) (s : Vga) : Vga :=
  cs.foldl (fun s c => vgaConsolePutc c s) s

/-- The number of characters written, and the console behind them. -/
def consoleWrite (cbuf : List UInt8) (s : Vga) : Nat × Vga :=
  cbuf.foldl (fun r c => (r.1 + 1, vgaConsolePutc c r.2)) (0, s)

def consoleWrites (bufs : List (List UInt8)) (s : Vga) : Vga :=
  bufs.foldl (fun s cbuf => (consoleWrite cbuf s).2) s

theorem consoleWrite_eq (cbuf : List UInt8) (s : Vga) :
    consoleWrite cbuf s = (cbuf.length, vgaConsolePuts cbuf s) := by
  induction cbuf using List.reverseRecOn with
  | nil => rfl
  | append_singleton cbuf c ih =>
    unfold consoleWrite vgaConsolePuts at ih ⊢
    rw [List.foldl_append, ih, List.foldl_append, List.length_append]
    rfl

theorem consoleWrites_eq (bufs : List (List UInt8)) (s : Vga) :
    consoleWrites bufs s = vgaConsolePuts bufs.flatten s := by
  induction bufs generalizing s with
  | nil => rfl
  | cons cbuf bufs ih =>
    have hstep : consoleWrites (cbuf :: bufs) s = consoleWrites bufs (consoleWrite cbuf s).2 := rfl
    rw [hstep, ih, consoleWrite_eq, List.flatten_cons, vgaConsolePuts, vgaConsolePuts,
      vgaConsolePuts, List.foldl_append]

theorem vgaConsolePuts_nil (s : Vga) : vgaConsolePuts [] s = s := rfl

theorem vgaConsolePuts_snoc (cs : List UInt8) (c : UInt8) (s : Vga) :
    vgaConsolePuts (cs ++ [c]) s = vgaConsolePutc c (vgaConsolePuts cs s) := by
  rw [vgaConsolePuts, List.foldl_append]
  rfl

/-- What `vga_console_init` sets once and for all. -/
structure TextMode (s : Vga) : Prop where
  rows : s.rows = 25
  cols : s.cols = 80
  attrib : s.attrib = 0x07#8

section Clearing
variable (v : BitVec 8 → BitVec 16) (n : Nat) (s : Vga)

theorem foldl_store : (List.range n).foldl (fun s (i : Nat) => s.store i (v s.attrib)) s =
    { s with
      buffer := fun i => if 0 ≤ i ∧ i < n then v s.attrib else s.buffer i
      stores := s.stores ++ (List.range n).map Int.ofNat } := by
  induction n with
  | zero =>
    have hnone : (fun i : Int => if 0 ≤ i ∧ i < (0 : Nat) then v s.attrib else s.buffer i) =
        s.buffer := by
      funext i
      exact if_neg (by omega)
    rw [hnone, List.range_zero, List.map_nil, List.append_nil]
    rfl
  | succ n ih =>
    rw [List.range_succ, List.foldl_append, ih, List.map_append, ← List.append_assoc]
    simp only [List.foldl_cons, List.foldl_nil, Vga.store]
    congr 1
    funext i
    rw [Function.update_apply]
    split
    · rename_i hi
      rw [if_pos (by omega)]
    · rename_i hi
      have hiff : (0 ≤ i ∧ i < (n : Int)) ↔ (0 ≤ i ∧ i < ((n + 1 : Nat) : Int)) := by omega
      simp only [hiff]

end Clearing

theorem TextMode.clear {s : Vga} (h : TextMode s) : vgaConsoleClear s =
    { s with
      buffer := fun i => if 0 ≤ i ∧ i < (4000 : Nat) then cellOf 0x07#8 0x20#8 else s.buffer i
      stores := s.stores ++ (List.range 4000).map Int.ofNat } := by
  have hn : (s.rows * s.cols * 2).toNat = 4000 := by
    rw [h.rows, h.cols]
    rfl
  rw [vgaConsoleClear, foldl_store fun a => cellOf a 0x20#8, hn, h.attrib]

theorem vgaConsoleInit_spec (s : Vga) : TextMode (vgaConsoleInit s) ∧
    (vgaConsoleInit s).x = 0 ∧ (vgaConsoleInit s).y = 0 ∧
    ∀ i : Nat, i < 4000 → (vgaConsoleInit s).buffer i = cellOf 0x07#8 0x20#8 := by
  unfold vgaConsoleInit
  rw [TextMode.clear ⟨rfl, rfl, rfl⟩]
  refine ⟨⟨rfl, rfl, rfl⟩, rfl, rfl, ?_⟩
  intro i hi
  dsimp only
  rw [if_pos ⟨Int.natCast_nonneg i, Int.ofNat_lt.mpr hi⟩]

section Character
variable {s : Vga} {c : UInt8}

theorem TextMode.put (h : TextMode s) : TextMode (s.put c) := by
  unfold Vga.put
  split
  · exact ⟨h.rows, h.cols, h.attrib⟩
  · split <;> exact ⟨h.rows, h.cols, h.attrib⟩

theorem TextMode.wrap (h : TextMode s) : TextMode s.wrap := by
  unfold Vga.wrap
  dsimp only
  split <;> split <;> exact ⟨h.rows, h.cols, h.attrib⟩

theorem TextMode.settle (h : TextMode s) : TextMode s.settle := by
  unfold Vga.settle
  dsimp only
  split <;> exact ⟨h.rows, h.cols, h.attrib⟩

end Character

structure OnScreen (s : Vga) : Prop where
  x_nonneg : 0 ≤ s.x
  x_lt : s.x < s.cols
  y_nonneg : 0 ≤ s.y
  y_lt : s.y < s.rows

/-- All that has been stored on the way from `s` to `t` is in the visible part of the buffer. -/
def StoredWithin (s t : Vga) : Prop :=
  ∃ made, t.stores = s.stores ++ made ∧ ∀ i ∈ made, 0 ≤ i ∧ i < t.rows * t.cols

def AtOrigin (s : Vga) : Prop := s.x = 0 ∧ s.y = 0

section Bounds
variable {s t u : Vga} {c : UInt8}

theorem StoredWithin.refl (s : Vga) : StoredWithin s s := ⟨[], by simp, by simp⟩

theorem StoredWithin.trans (ht : TextMode t) (hu : TextMode u) (h1 : StoredWithin s t)
    (h2 : StoredWithin t u) : StoredWithin s u := by
  obtain ⟨m, hm, hin⟩ := h1
  obtain ⟨n, hn, hin'⟩ := h2
  refine ⟨m ++ n, by rw [hn, hm, List.append_assoc], ?_⟩
  intro i hi
  rcases List.mem_append.mp hi with hi | hi
  · have hbound := hin i hi
    rw [ht.rows, ht.cols] at hbound
    rw [hu.rows, hu.cols]
    exact hbound
  · exact hin' i hi

/-- A character leaves the cursor at most one column beside its row or one row below the
screen, unless it is a backspace in the first cell. -/
theorem OnScreen.put (hm : TextMode s) (h : OnScreen s) (hc : c = 0x08 → ¬ AtOrigin s) :
    (-1 ≤ (s.put c).x ∧ (s.put c).x ≤ 80 ∧ 0 ≤ (s.put c).y ∧ (s.put c).y ≤ 25) ∧
      ((s.put c).x = -1 → 0 < (s.put c).y) ∧ ((s.put c).x = 80 → (s.put c).y ≤ 24) ∧
      ((s.put c).x = -1 → (s.put c).y ≤ 24) ∧ StoredWithin s (s.put c) := by
  obtain ⟨hx, hx', hy, hy'⟩ := h
  rw [hm.cols] at hx'
  rw [hm.rows] at hy'
  unfold Vga.put
  split
  · dsimp only
    exact ⟨by omega, by omega, by omega, by omega, [], by simp, by simp⟩
  split
  · rename_i hbs
    have hfirst : 0 < s.x ∨ 0 < s.y := by
      by_contra hzero
      exact hc hbs ⟨by omega, by omega⟩
    simp only [bufPutc, Vga.store, textAddr]
    refine ⟨by omega, by omega, by omega, by omega, [_], rfl, ?_⟩
    intro i hi
    rw [List.mem_singleton.mp hi, hm.rows, hm.cols]
    omega
  · simp only [bufPutc, Vga.store, textAddr]
    refine ⟨by omega, by omega, by omega, by omega, [_], rfl, ?_⟩
    intro i hi
    rw [List.mem_singleton.mp hi, hm.rows, hm.cols]
    omega

theorem wrap_inside (hx : 0 ≤ s.x) (hx' : s.x < s.cols) : s.wrap = s := by
  unfold Vga.wrap
  rw [if_neg (Int.not_le.mpr hx')]
  exact if_neg (Int.not_lt.mpr hx)

theorem wrap_right (hx : s.cols ≤ s.x) : s.wrap = { s with x := 0, y := s.y + 1 } := by
  unfold Vga.wrap
  rw [if_pos hx]
  exact if_neg (Int.lt_irrefl 0)

theorem wrap_left (hx : s.x < 0) (hc : 0 ≤ s.cols) :
    s.wrap = { s with x := s.cols - 1, y := s.y - 1 } := by
  have hright : ¬ s.cols ≤ s.x := by omega
  unfold Vga.wrap
  rw [if_neg hright]
  exact if_pos hx

theorem settle_inside (hy : s.y < s.rows) : s.settle = vgaConsoleSetCursor s.x s.y s := by
  unfold Vga.settle
  rw [if_neg (Int.not_le.mpr hy)]

theorem settle_below (hy : s.rows ≤ s.y) :
    s.settle = vgaConsoleSetCursor s.x (s.y - 1) (vgaConsoleScroll s) := by
  unfold Vga.settle
  rw [if_pos hy]
  rfl

theorem wrap_stores (s : Vga) : s.wrap.stores = s.stores := by
  unfold Vga.wrap
  dsimp only
  split <;> split <;> rfl

theorem settle_storedWithin (hm : TextMode s) : StoredWithin s s.settle := by
  unfold Vga.settle
  dsimp only
  split
  · refine ⟨_, rfl, ?_⟩
    intro i hi
    obtain ⟨k, hk, rfl⟩ := List.mem_map.mp hi
    rw [List.mem_range, hm.rows, hm.cols] at hk
    change (0 : Int) ≤ k ∧ (k : Int) < s.rows * s.cols
    rw [hm.rows, hm.cols]
    omega
  · exact ⟨[], (List.append_nil _).symm, by simp⟩

theorem TextMode.putc (h : TextMode s) : TextMode (vgaConsolePutc c s) := by
  unfold vgaConsolePutc
  split
  · exact h
  · exact h.put.wrap.settle

theorem onScreen_putc (hm : TextMode s) (h : OnScreen s) (hc : c = 0x08 → ¬ AtOrigin s) :
    OnScreen (vgaConsolePutc c s) ∧ StoredWithin s (vgaConsolePutc c s) := by
  unfold vgaConsolePutc
  split
  · exact ⟨h, .refl s⟩
  obtain ⟨⟨hx, hx', hy, hy'⟩, hback, hwrap, hback', hstored⟩ := h.put hm hc
  have hmp : TextMode (s.put c) := hm.put
  generalize s.put c = t at *
  have hw : 0 ≤ t.wrap.x ∧ t.wrap.x < 80 ∧ 0 ≤ t.wrap.y ∧ t.wrap.y ≤ 25 := by
    by_cases hleft : t.x < 0
    · rw [wrap_left hleft (by rw [hmp.cols]; decide), hmp.cols]
      dsimp only
      omega
    by_cases hright : t.cols ≤ t.x
    · rw [wrap_right hright]
      rw [hmp.cols] at hright
      dsimp only
      omega
    · rw [wrap_inside (by omega) (by omega)]
      rw [hmp.cols] at hright
      omega
  have hsw : StoredWithin t t.wrap := ⟨[], by rw [wrap_stores, List.append_nil], by simp⟩
  refine ⟨?_, hstored.trans hmp hmp.wrap.settle (hsw.trans hmp.wrap hmp.wrap.settle
    (settle_storedWithin hmp.wrap))⟩
  have hmw := hmp.wrap
  generalize t.wrap = u at *
  obtain ⟨hux, hux', huy, huy'⟩ := hw
  by_cases hlow : u.rows ≤ u.y
  · rw [settle_below hlow]
    rw [hmw.rows] at hlow
    refine ⟨hux, hmw.cols ▸ hux', ?_, ?_⟩
    · change 0 ≤ u.y - 1
      omega
    · change u.y - 1 < u.rows
      rw [hmw.rows]
      omega
  · rw [settle_inside (by omega)]
    exact ⟨hux, hmw.cols ▸ hux', huy, Int.not_le.mp hlow⟩

theorem onScreen_of_origin (hm : TextMode s) (h : AtOrigin s) : OnScreen s := by
  refine ⟨Int.le_of_eq h.1.symm, ?_, Int.le_of_eq h.2.symm, ?_⟩
  · rw [h.1, hm.cols]
    decide
  · rw [h.2, hm.rows]
    decide

theorem putc_backspace_origin (hm : TextMode s) (h : AtOrigin s) :
    (vgaConsolePutc 0x08 s).x = 79 ∧ (vgaConsolePutc 0x08 s).y = -1 ∧
      (vgaConsolePutc 0x08 s).stores = s.stores ++ [-1] := by
  obtain ⟨hx, hy⟩ := h
  have hput : s.put 0x08 = bufPutc 0x20 { s with x := -1 } := by
    unfold Vga.put
    rw [if_neg (by decide), if_pos rfl, hx]
    rfl
  have hstores : (s.put 0x08).stores = s.stores ++ [-1] := by
    rw [hput]
    change s.stores ++ [s.y * s.cols + -1] = _
    rw [hy, Int.zero_mul]
    rfl
  have hleft : (s.put 0x08).x = -1 := by rw [hput]; rfl
  have htop : (s.put 0x08).y = 0 := by rw [hput]; exact hy
  have hmp : TextMode (s.put 0x08) := hm.put
  unfold vgaConsolePutc
  rw [if_neg (by decide)]
  generalize s.put 0x08 = t at *
  rw [wrap_left (by omega) (by rw [hmp.cols]; decide), settle_inside]
  · refine ⟨?_, ?_, hstores⟩
    · change t.cols - 1 = 79
      rw [hmp.cols]
      rfl
    · change t.y - 1 = -1
      omega
  · change t.y - 1 < t.rows
    rw [hmp.rows]
    omega

end Bounds

section Screen
variable {s : Vga}

theorem TextMode.puts (h : TextMode s) (cs : List UInt8) : TextMode (vgaConsolePuts cs s) := by
  induction cs using List.reverseRecOn with
  | nil => exact h
  | append_singleton cs c ih =>
    rw [vgaConsolePuts_snoc]
    exact ih.putc

/-- After each of the characters the cursor is on the screen, and all that the characters up
to there have stored is. -/
def StaysOnScreen (s : Vga) (cs : List UInt8) : Prop :=
  ∀ done, done <+: cs → OnScreen (vgaConsolePuts done s) ∧
    StoredWithin s (vgaConsolePuts done s)

/-- No backspace is written while the cursor is in the first cell. -/
def NoBackspaceAtOrigin (s : Vga) (cs : List UInt8) : Prop :=
  ∀ done, done ++ [0x08] <+: cs → ¬ AtOrigin (vgaConsolePuts done s)

/-- Whatever is written by any number of calls after `vga_console_init`, the cursor and the
stores are on the screen all the time if and only if no backspace is written in the first
cell. -/
theorem consoleWrites_onScreen_iff (s₀ : Vga) (bufs : List (List UInt8)) :
    consoleWrites bufs (vgaConsoleInit s₀) = vgaConsolePuts bufs.flatten (vgaConsoleInit s₀) ∧
      (StaysOnScreen (vgaConsoleInit s₀) bufs.flatten ↔
        NoBackspaceAtOrigin (vgaConsoleInit s₀) bufs.flatten) := by
  obtain ⟨hm, hx, hy, -⟩ := vgaConsoleInit_spec s₀
  refine ⟨consoleWrites_eq bufs _, ?_, ?_⟩
  · intro h done hdone horigin
    have hon := (h _ hdone).1.y_nonneg
    rw [vgaConsolePuts_snoc, (putc_backspace_origin (hm.puts done) horigin).2.1] at hon
    exact absurd hon (by decide)
  · intro h done
    induction done using List.reverseRecOn with
    | nil =>
      intro _
      rw [vgaConsolePuts_nil]
      exact ⟨onScreen_of_origin hm ⟨hx, hy⟩, .refl _⟩
    | append_singleton done c ih =>
      intro hdone
      obtain ⟨hon, hin⟩ := ih ((List.prefix_append done [c]).trans hdone)
      have hc : c = 0x08 → ¬ AtOrigin (vgaConsolePuts done (vgaConsoleInit s₀)) := by
        rintro rfl
        exact h done hdone
      obtain ⟨hon', hin'⟩ := onScreen_putc (hm.puts done) hon hc
      rw [vgaConsolePuts_snoc]
      exact ⟨hon', hin.trans (hm.puts done) (hm.puts done).putc hin'⟩

/-- `state` before `vga_console_init`. -/
def Vga.zero : Vga where
  buffer := fun _ => 0
  x := 0
  y := 0
  rows := 0
  cols := 0
  attrib := 0
  stores := []
  ports := []

/-- A program writes one backspace to the empty screen. -/
theorem not_staysOnScreen_backspace :
    ¬ StaysOnScreen (vgaConsoleInit Vga.zero) [[0x08]].flatten := by
  intro h
  obtain ⟨hm, hx, hy, -⟩ := vgaConsoleInit_spec Vga.zero
  have hon := (h [0x08] (List.prefix_refl _)).1.y_nonneg
  change 0 ≤ (vgaConsolePutc 0x08 (vgaConsoleInit Vga.zero)).y at hon
  rw [(putc_backspace_origin hm ⟨hx, hy⟩).2.1] at hon
  exact absurd hon (by decide)

end Screen

end AkKernel
