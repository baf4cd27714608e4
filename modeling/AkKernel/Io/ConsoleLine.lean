import AkKernel.Io.ConsoleRead

/-!
# The line that console_read returns

What the read buffer delivers to `console_read` is what the keyboard puts as long as it is not
overrun, and an iteration that finds a character takes one. So a newline that the keyboard has
put is delivered after as many iterations as there are characters before it.
-/

set_option autoImplicit false

namespace AkKernel

open Runs

section Delivery
variable {keys : List (List UInt8)} {chars : List UInt8} {s r r' : Console}
  {tr tr' : List ConsoleEvent}

theorem puts_append (a b : List ConsoleEvent) : puts (a ++ b) = puts a ++ puts b :=
  List.filterMap_append

theorem gets_append (a b : List ConsoleEvent) : gets (a ++ b) = gets a ++ gets b :=
  List.filterMap_append

theorem run_readOps (h : exec ConsoleOp.exec (readOps keys) r = .ok (tr, r')) :
    Run ConsoleStep r tr r' := run_of_exec ConsoleOp.exec consoleStep_of_exec h

theorem run_kbdIntr (h : kbdIntr chars r = .ok r') : Run ConsoleStep r (putEvents chars) r' := by
  have hex : exec ConsoleOp.exec (chars.map .putc) r = .ok (putEvents chars, r') := by
    have happ := exec_putc chars [] r
    rw [List.append_nil] at happ
    rw [happ, h]
    simp only [exec, bind, Except.bind, List.append_nil]
  exact run_of_exec ConsoleOp.exec consoleStep_of_exec hex

theorem puts_readOps (h : exec ConsoleOp.exec (readOps keys) r = .ok (tr, r')) :
    puts tr = keys.flatten := by
  induction keys generalizing r tr with
  | nil =>
    cases h
    rfl
  | cons chars keys ih =>
    obtain ⟨r₁, got, r₂, tr₂, -, -, hrest, rfl⟩ := exec_readOps_cons.mp h
    have hget : puts ((.getc, got) :: tr₂) = puts tr₂ := rfl
    rw [puts_append, puts_putEvents, hget, ih hrest, List.flatten_cons]

/-- Each round takes a character, as long as there is one. -/
theorem gets_length_readOps (hc : Counts tr s)
    (h : exec ConsoleOp.exec (readOps keys) s = .ok (tr', r))
    (hlt : (puts (tr ++ tr')).length < 2 ^ 31) {n : Nat} (hn : n ≤ (puts tr).length) :
    min n ((gets tr).length + keys.length) ≤ (gets (tr ++ tr')).length := by
  induction keys generalizing s tr tr' with
  | nil =>
    cases h
    rw [List.append_nil]
    exact Nat.min_le_right _ _
  | cons chars keys ih =>
    obtain ⟨r₁, got, r₂, tr₂, hk, hg, hrest, rfl⟩ := exec_readOps_cons.mp h
    have hsplit : tr ++ (putEvents chars ++ (.getc, got) :: tr₂) =
        tr ++ putEvents chars ++ [(.getc, got)] ++ tr₂ := by simp
    rw [hsplit] at hlt ⊢
    have hlt₂ := Nat.lt_of_le_of_lt (puts_length_le (List.prefix_append _ _)) hlt
    have hlt₁ := Nat.lt_of_le_of_lt (puts_length_le (List.prefix_append _ _)) hlt₂
    have hc₁ : Counts (tr ++ putEvents chars) r₁ := hc.run (run_kbdIntr hk) hlt₁
    have hc₂ : Counts (tr ++ putEvents chars ++ [(.getc, got)]) r₂ :=
      hc₁.step hlt₂ (show ConsoleStep r₁ (.getc, got) r₂ from hg)
    have hputs : puts (tr ++ putEvents chars) = puts tr ++ chars := by
      rw [puts_append, puts_putEvents]
    have hgets : gets (tr ++ putEvents chars) = gets tr := by
      rw [gets_append, gets_putEvents, List.append_nil]
    have hputs₂ : n ≤ (puts (tr ++ putEvents chars ++ [(.getc, got)])).length := by
      have hgetc : puts [(.getc, got)] = [] := rfl
      rw [puts_append, hgetc, List.append_nil, hputs, List.length_append]
      omega
    have hrest' := ih hc₂ hrest hlt hputs₂
    have hround : min n ((gets tr).length + 1) ≤
        (gets (tr ++ putEvents chars ++ [(.getc, got)])).length := by
      rw [gets_snoc, hgets, List.length_append]
      rw [hc₁.getc hlt₁, hputs, hgets, List.length_append] at hg
      split at hg
      · cases hg
        exact Nat.min_le_right _ _
      · omega
    rw [List.length_cons]
    omega

theorem exec_readOps_append {early late : List (List UInt8)}
    (h : exec ConsoleOp.exec (readOps (early ++ late)) s = .ok (tr, r)) :
    ∃ tr₁ s₁ tr₂, exec ConsoleOp.exec (readOps early) s = .ok (tr₁, s₁) ∧
      exec ConsoleOp.exec (readOps late) s₁ = .ok (tr₂, r) ∧ tr = tr₁ ++ tr₂ := by
  induction early generalizing s tr with
  | nil => exact ⟨[], s, tr, rfl, h, rfl⟩
  | cons chars early ih =>
    obtain ⟨r₁, got, r₂, tr₂, hk, hg, hrest, rfl⟩ := exec_readOps_cons.mp h
    obtain ⟨tr₃, s₁, tr₄, hearly, hlate, rfl⟩ := ih hrest
    refine ⟨_, s₁, tr₄, exec_readOps_cons.mpr ⟨r₁, got, r₂, tr₃, hk, hg, hearly, rfl⟩, hlate, ?_⟩
    simp

/-- A line that the keyboard has put is delivered by as many rounds as it is long, if the
buffer is never overrun. -/
theorem line_delivered {early late : List (List UInt8)} {line rest : List UInt8} {t : UInt8}
    (hrun : Run ConsoleStep Console.init tr s)
    (h : exec ConsoleOp.exec (readOps (early ++ late)) s = .ok (tr', r))
    (hover : NeverOverrun (tr ++ tr')) (hlt : (puts (tr ++ tr')).length < 2 ^ 31)
    (hstream : puts tr ++ early.flatten = gets tr ++ (line ++ t :: rest))
    (hlate : line.length < late.length) :
    ∃ rest', gets tr' = line ++ t :: rest' := by
  have hputs := puts_readOps h
  have hpre := gets_prefix_puts (hrun.trans (run_readOps h)) hover hlt
  rw [gets_append, puts_append, hputs, List.flatten_append, ← List.append_assoc, hstream,
    List.append_assoc, List.prefix_append_right_inj] at hpre
  obtain ⟨tr₁, s₁, tr₂, hearly, hrest, rfl⟩ := exec_readOps_append h
  rw [← List.append_assoc] at hlt
  have hlt₁ := Nat.lt_of_le_of_lt (puts_length_le (List.prefix_append _ _)) hlt
  have hc₁ : Counts (tr ++ tr₁) s₁ :=
    (counts_init.run hrun (Nat.lt_of_le_of_lt (puts_length_le (List.prefix_append _ _)) hlt₁)).run
      (run_readOps hearly) hlt₁
  have hn : (gets tr).length + (line.length + 1) ≤ (puts (tr ++ tr₁)).length := by
    rw [puts_append, puts_readOps hearly, hstream]
    simp only [List.length_append, List.length_cons]
    omega
  have hlen := gets_length_readOps hc₁ hrest hlt hn
  have htaken : line.length + 1 ≤ (gets (tr₁ ++ tr₂)).length := by
    rw [List.append_assoc, gets_append, List.length_append, gets_append, List.length_append]
      at hlen
    omega
  have hline : line ++ [t] <+: gets (tr₁ ++ tr₂) := by
    refine List.prefix_of_prefix_length_le ?_ hpre ?_
    · exact ⟨rest ++ late.flatten, by simp⟩
    · rw [List.length_append, List.length_singleton]
      exact htaken
  obtain ⟨rest', hrest'⟩ := hline
  exact ⟨rest', by rw [← hrest', List.append_assoc]; rfl⟩

end Delivery

section Line

/-- What `console_read` has done when it has returned a line: its value is the length of the
line, which the buffer starts with, the read buffer is as the calls leave it that returned the
characters up to the end of the line, and nothing is stored behind a line being edited. -/
structure ReturnsLine (typed : List UInt8) (keys : List (List UInt8)) (s : Tty) (n : Nat)
    (s' : Tty) : Prop where
  count : n = (editLine typed).length
  line : ∀ i x, (editLine typed)[i]? = some x → s'.cbuf i = x
  consumed : ∃ done tr, done <+: keys ∧
    exec ConsoleOp.exec (readOps done) s.rbuf = .ok (tr, s'.rbuf) ∧ gets tr = typed
  stored : ∃ made, s'.stores = s.stores ++ made ∧
    ∀ i ∈ made, ∃ k, k < typed.length ∧ i = (editLine (typed.take k)).length

/-- `console_read` returns the edited line as soon as the character that ends it has been
delivered; and the characters of a stream that the keyboard puts are delivered in order,
whenever it puts them, as long as the read buffer is not overrun. -/
theorem consoleRead_returns_line (count : Nat) (s : Tty) (line : List UInt8) (t : UInt8)
    (hline : ∀ ch ∈ line, ¬ Ends ch) (ht : Ends t) :
    (∀ keys tr r rest, exec ConsoleOp.exec (readOps keys) s.rbuf = .ok (tr, r) →
      gets tr = line ++ t :: rest →
      ∃ n s', consoleRead count keys s = .ok (.ret n, s') ∧
        ReturnsLine (line ++ [t]) keys s n s' ∧ editLine (line ++ [t]) = editLine line ++ [t]) ∧
    ∀ tr₀ early late tr r rest, Run ConsoleStep Console.init tr₀ s.rbuf →
      exec ConsoleOp.exec (readOps (early ++ late)) s.rbuf = .ok (tr, r) →
      NeverOverrun (tr₀ ++ tr) → (puts (tr₀ ++ tr)).length < 2 ^ 31 →
      puts tr₀ ++ early.flatten = gets tr₀ ++ (line ++ t :: rest) → line.length < late.length →
      ∃ rest', gets tr = line ++ t :: rest' := by
  refine ⟨?_, fun tr₀ early late tr r rest hrun h hover hlt hstream hlate =>
    line_delivered hrun h hover hlt hstream hlate⟩
  intro keys tr r rest hrun hgets
  obtain ⟨s', hok, hdone⟩ := consoleReadRounds_spec (editing_nil s) hrun
  have hends : ∃ ch ∈ gets tr, Ends ch := ⟨t, by rw [hgets]; simp, ht⟩
  rw [List.nil_append, loopEnd, if_pos hends] at hok
  obtain ⟨hedit, htaken, made, hst, hmade⟩ := hdone
  rw [List.nil_append] at hedit
  have hup : upToEnd (gets tr) = line ++ [t] := by rw [hgets, upToEnd_append hline ht]
  rw [hup] at hok hedit htaken hmade
  refine ⟨_, s', hok, ⟨rfl, hedit.line, htaken, made, hst, ?_⟩, editLine_snoc_of_ends line ht⟩
  intro i hi
  obtain ⟨k, hk, he⟩ := (hmade i).mp hi
  exact ⟨k, hk, he⟩

/-- A character typed and removed, and a line of one character behind it. -/
theorem consoleRead_returns_line_two : ∃ n s',
    consoleRead 80 [[0x61, 0x08], [0x62, 0x0A], [], [], [], []] Tty.init = .ok (.ret n, s') ∧
      n = 2 ∧ s'.cbuf 0 = 0x62 ∧ s'.cbuf 1 = 0x0A := by
  obtain ⟨tr, r, hex, htest⟩ := passes_iff.mp
    (by decide +kernel : passes
      (exec ConsoleOp.exec (readOps ([[0x61, 0x08], [0x62, 0x0A]] ++ [[], [], [], []]))
        Console.init) (fun tr _ => puts tr == [0x61, 0x08, 0x62, 0x0A]) = true)
  have hputs : puts tr = [0x61, 0x08, 0x62, 0x0A] := beq_iff_eq.mp htest
  have hover : NeverOverrun ([] ++ tr) := by
    intro tr' h
    have h1 := puts_length_le h
    rw [List.nil_append, hputs] at h1
    exact Nat.le_trans h1 (Nat.le_trans (by decide : 4 ≤ consRbufLen) (Nat.le_add_left _ _))
  have hline : ∀ ch ∈ [0x61, 0x08, (0x62 : UInt8)], ¬ Ends ch := by
    intro ch hch
    simp only [List.mem_cons, List.not_mem_nil, or_false] at hch
    rcases hch with rfl | rfl | rfl <;> decide
  obtain ⟨hreturns, hdelivers⟩ :=
    consoleRead_returns_line 80 Tty.init [0x61, 0x08, 0x62] 0x0A hline (by decide)
  obtain ⟨rest, hgets⟩ := hdelivers [] [[0x61, 0x08], [0x62, 0x0A]] [[], [], [], []] tr r [] .nil
    hex hover (by rw [List.nil_append, hputs]; decide) rfl (by decide)
  obtain ⟨n, s', hok, hret, -⟩ := hreturns _ tr r rest hex hgets
  exact ⟨n, s', hok, hret.count, hret.line 0 _ rfl, hret.line 1 _ rfl⟩

end Line

end AkKernel
