import AkKernel.Foundation.TextPage
import AkKernel.Io.VgaConsole

/-!
# What the text console shows

The cells of two screens from the start of the text buffer are a window of the page on which
the characters written so far are laid out. `vga_console_scroll` copies one row from below the
visible screen; that row is behind the cursor on the page, so it is blank.
-/

set_option autoImplicit false

namespace AkKernel

open TextPage

/-- The cell of a character with the attribute of `vga_console_init`. -/
def shown (c : UInt8) : BitVec 16 := 0x07#8 ++ c.toBitVec

theorem cellOf_ascii {c : UInt8} (hc : c < 128) : Vga.cellOf 0x07#8 c.toBitVec = shown c := by
  obtain ⟨v⟩ := c
  have h : ∀ v : BitVec 8, v < 128#8 → Vga.cellOf 0x07#8 v = 0x07#8 ++ v := by decide
  exact h v hc

/-- The characters that the layout knows: those of 7 bits that move the cursor forward. -/
def Plain (c : UInt8) : Prop := c < 128 ∧ c ≠ 0x08 ∧ c ≠ 0x0D

instance (c : UInt8) : Decidable (Plain c) := inferInstanceAs (Decidable (_ ∧ _))

/-- The buffer is the window of the page from row `top`. -/
structure Shows (top : Nat) (p : Page UInt8) (s : Vga) : Prop where
  mode : TextMode s
  top_le : top ≤ p.y
  x : s.x = p.x
  y : s.y = (p.y - top : Nat)
  cells : ∀ i : Nat, i < 4000 → s.buffer i = shown (p.cell (top + i / 80) (i % 80))

section Steps
variable {top : Nat} {p : Page UInt8} {s : Vga} {c : UInt8}

theorem shows_init (s₀ : Vga) : Shows 0 (layout 80 0x20 0x0A []) (vgaConsoleInit s₀) := by
  obtain ⟨hm, hx, hy, hbuf⟩ := vgaConsoleInit_spec s₀
  refine ⟨hm, Nat.le_refl _, hx, hy, ?_⟩
  intro i hi
  rw [hbuf i hi]
  exact cellOf_ascii (by decide)

theorem put_y (p : Page UInt8) (c : UInt8) :
    (p.put 80 0x0A c).y = p.y ∨ (p.put 80 0x0A c).y = p.y + 1 ∧ (p.put 80 0x0A c).x = 0 := by
  unfold Page.put
  split
  · exact Or.inr ⟨rfl, rfl⟩
  · dsimp only
    split
    · exact Or.inl rfl
    · exact Or.inr ⟨rfl, rfl⟩

/-- The cell that a character is printed to is its place on the page. -/
theorem Shows.bufPutc (h : Shows top p s) (hx : p.x < 80) (hc : c < 128) {i : Nat}
    (hi : i < 4000) : (Vga.bufPutc c s).buffer i =
      shown (if top + i / 80 = p.y ∧ i % 80 = p.x then c
        else p.cell (top + i / 80) (i % 80)) := by
  have hsx := h.x
  have hsy := h.y
  have htop := h.top_le
  have hplace : (i : Int) = s.y * 80 + s.x ↔ top + i / 80 = p.y ∧ i % 80 = p.x := by omega
  change Function.update s.buffer (s.y * s.cols + s.x) _ _ = _
  rw [h.mode.cols, h.mode.attrib, cellOf_ascii hc, Function.update_apply]
  by_cases hat : (i : Int) = s.y * 80 + s.x
  · rw [if_pos hat, if_pos (hplace.mp hat)]
  · rw [if_neg hat, if_neg fun he => hat (hplace.mpr he)]
    exact h.cells i hi

/-- Before the screen is scrolled the window is where it was. -/
theorem Shows.put (h : Shows top p s) (hx : p.x < 80) (hc : Plain c) :
    Shows top (p.put 80 0x0A c) (s.put c).wrap := by
  have hsx := h.x
  have hsy := h.y
  have htop := h.top_le
  have hcols := h.mode.cols
  have hmode : TextMode (s.put c).wrap := h.mode.put.wrap
  by_cases hnl : c = 0x0A
  · have hput : s.put c = { s with x := 0, y := s.y + 1 } := if_pos hnl
    have hpage : p.put 80 0x0A c = { p with x := 0, y := p.y + 1 } := if_pos hnl
    have hwrap : (s.put c).wrap = { s with x := 0, y := s.y + 1 } := by
      rw [hput]
      exact wrap_inside (Int.le_refl 0) (by change 0 < s.cols; omega)
    rw [hwrap] at hmode ⊢
    rw [hpage]
    refine ⟨hmode, Nat.le_succ_of_le htop, rfl, ?_, h.cells⟩
    change s.y + 1 = (p.y + 1 - top : Nat)
    omega
  · have hput : s.put c = { Vga.bufPutc c s with x := s.x + 1 } := by
      unfold Vga.put
      rw [if_neg hnl, if_neg hc.2.1]
      rfl
    have hcells := fun i hi => h.bufPutc (c := c) (i := i) hx hc.1 hi
    rw [hput] at hmode ⊢
    unfold Page.put
    rw [if_neg hnl]
    dsimp only
    split
    · rename_i hlt
      have hin : s.x + 1 < s.cols := by omega
      have hnonneg : 0 ≤ s.x + 1 := by omega
      rw [wrap_inside hnonneg hin] at hmode ⊢
      refine ⟨hmode, htop, ?_, hsy, hcells⟩
      change s.x + 1 = ((p.x + 1 : Nat) : Int)
      omega
    · rename_i hge
      have hout : s.cols ≤ s.x + 1 := by omega
      rw [wrap_right hout] at hmode ⊢
      refine ⟨hmode, Nat.le_succ_of_le htop, rfl, ?_, hcells⟩
      change s.y + 1 = (p.y + 1 - top : Nat)
      omega

/-- A cursor below the screen moves the window down by one row. -/
theorem Shows.settle (h : Shows top p s) (hf : p.Fresh 80 0x20) (hlow : p.y ≤ top + 25)
    (hx : p.y = top + 25 → p.x = 0) :
    Shows (if p.y = top + 25 then top + 1 else top) p s.settle := by
  have hsy := h.y
  have htop := h.top_le
  have hrows := h.mode.rows
  have hmode : TextMode s.settle := h.mode.settle
  split
  · rename_i hbelow
    rw [settle_below (by omega)] at hmode ⊢
    refine ⟨hmode, by omega, h.x, ?_, ?_⟩
    · change s.y - 1 = (p.y - (top + 1) : Nat)
      omega
    · intro i hi
      change (if 0 ≤ (i : Int) ∧ (i : Int) < ((s.rows * s.cols).toNat : Nat) then
        s.buffer (s.cols + i) else s.buffer i) = _
      rw [h.mode.rows, h.mode.cols]
      split
      · rename_i hvis
        have hsrc : (80 : Int) + i = ((80 + i : Nat) : Int) := by omega
        rw [hsrc, h.cells _ (by omega)]
        congr 2 <;> omega
      · rename_i hhid
        -- the rows that stay are below the screen, where the page is blank before and after
        have hn : ((25 : Int) * 80).toNat = 2000 := rfl
        rw [hn] at hhid
        have hrow : 25 ≤ i / 80 := by omega
        have hafter : p.cell (top + 1 + i / 80) (i % 80) = 0x20 := hf.below _ _ (by omega)
        have hbefore : p.cell (top + i / 80) (i % 80) = 0x20 := by
          rcases Nat.eq_or_lt_of_le hrow with he | hlt
          · have hy : top + i / 80 = p.y := by omega
            rw [hy]
            exact hf.row _ (by rw [hx hbelow]; exact Nat.zero_le _)
          · exact hf.below _ _ (by omega)
        rw [h.cells i hi, hbefore, hafter]
  · rename_i hin
    rw [settle_inside (by omega)] at hmode ⊢
    exact ⟨hmode, htop, h.x, hsy, h.cells⟩

end Steps

section Text
variable {s : Vga}

/-- The row at the top of the screen. -/
def topRow (p : Page UInt8) : Nat := p.y - 24

theorem shows_puts (s₀ : Vga) (cs : List UInt8) (hcs : ∀ c ∈ cs, Plain c) :
    Shows (topRow (layout 80 0x20 0x0A cs)) (layout 80 0x20 0x0A cs)
      (vgaConsolePuts cs (vgaConsoleInit s₀)) := by
  induction cs using List.reverseRecOn with
  | nil =>
    rw [vgaConsolePuts_nil]
    exact shows_init s₀
  | append_singleton cs c ih =>
    have hs := ih fun d hd => hcs d (List.mem_append_left _ hd)
    have hc : Plain c := hcs c (List.mem_append_right _ (List.mem_singleton.mpr rfl))
    have hf : (layout 80 0x20 0x0A cs).Fresh 80 (0x20 : UInt8) := layout_fresh (by decide) cs
    have hput : layout 80 0x20 0x0A (cs ++ [c]) = (layout 80 0x20 0x0A cs).put 80 0x0A c := by
      rw [layout, List.foldl_append]
      rfl
    rw [hput, vgaConsolePuts_snoc, vgaConsolePutc, if_neg hc.2.2]
    generalize layout 80 (0x20 : UInt8) 0x0A cs = p at *
    have hrow := put_y p c
    have hstep := (hs.put hf.x_lt hc).settle (hf.put c) (by unfold topRow; omega)
      (by unfold topRow; omega)
    have htop : topRow (p.put 80 0x0A c) =
        if (p.put 80 0x0A c).y = topRow p + 25 then topRow p + 1 else topRow p := by
      unfold topRow
      split <;> omega
    rw [htop]
    exact hstep

/-- After any text the screen shows the 25 rows of its layout that end with the row of the
cursor or are the first ones, and the cursor is at its place among them. -/
theorem vgaConsole_shows_layout (s₀ : Vga) (cs : List UInt8)
    (hcs : ∀ c ∈ cs, c < 128 ∧ c ≠ 0x08 ∧ c ≠ 0x0D) :
    let p := layout 80 0x20 0x0A cs
    let t := vgaConsolePuts cs (vgaConsoleInit s₀)
    (∀ r q : Nat, r < 25 → q < 80 →
      t.buffer (t.textAddr q r) = 0x07#8 ++ (p.cell (p.y - 24 + r) q).toBitVec) ∧
      t.x = p.x ∧ t.y = p.y - (p.y - 24 : Nat) := by
  have hs := shows_puts s₀ cs hcs
  dsimp only
  generalize layout 80 (0x20 : UInt8) 0x0A cs = p at *
  generalize vgaConsolePuts cs (vgaConsoleInit s₀) = t at *
  have hy := hs.y
  refine ⟨?_, hs.x, ?_⟩
  · intro r q hr hq
    have hidx : t.textAddr q r = ((r * 80 + q : Nat) : Int) := by
      unfold Vga.textAddr
      rw [hs.mode.cols]
      omega
    have hdiv : (r * 80 + q) / 80 = r := by omega
    have hmod : (r * 80 + q) % 80 = q := by omega
    rw [hidx, hs.cells _ (by omega), hdiv, hmod]
    rfl
  · unfold topRow at hy
    omega

/-- The 26th row of a text is the last one of the screen. -/
theorem vgaConsole_shows_last_row :
    let t := vgaConsolePuts (List.replicate 25 0x0A ++ [0x42]) (vgaConsoleInit Vga.zero)
    t.buffer (t.textAddr 0 24) = 0x0742 ∧ t.x = 1 ∧ t.y = 24 := by
  have hplain : ∀ c ∈ List.replicate 25 (0x0A : UInt8) ++ [0x42],
      c < 128 ∧ c ≠ 0x08 ∧ c ≠ 0x0D := by
    intro c hc
    rcases List.mem_append.mp hc with hc | hc
    · rw [List.eq_of_mem_replicate hc]
      decide
    · rw [List.mem_singleton.mp hc]
      decide
  have h := vgaConsole_shows_layout Vga.zero _ hplain
  dsimp only at h ⊢
  generalize vgaConsolePuts _ _ = t at h ⊢
  obtain ⟨hcells, hx, hy⟩ := h
  exact ⟨hcells 24 0 (by decide) (by decide), hx, hy⟩

end Text

end AkKernel
