import AkKernel.Io.Console
import AkKernel.Io.VgaConsole

/-!
# Reading a line from the console

`console_read` of `arch/x86/console.c`. The keyboard interrupt puts characters between the
iterations of its loop; which ones is a schedule of the environment. A character is stored
behind the line and only then looked at, so that the line is always a prefix of the buffer.
-/

set_option autoImplicit false

namespace AkKernel

open Runs

/-- What `console_read` works on: the read buffer and the screen, the memory from `buf` on,
and the indices of it that have been stored to, oldest first. -/
structure Tty where
  rbuf : Console
  vga : Vga
  cbuf : Nat → UInt8
  stores : List Nat

def Tty.store (i : Nat) (v : UInt8) (s : Tty) : Tty :=
  { s with cbuf := Function.update s.cbuf i v, stores := s.stores ++ [i] }

/-- How an iteration of the loop ends: with a new `c`, or with the value returned. -/
inductive ReadStep where
  | again (c : Nat)
  | ret (n : Nat)
deriving DecidableEq, Repr

/-- One iteration of the loop. The counters of the read buffer are of type `int`, so `c` stays
far below the bound of its type. -/
def consoleReadStep (c : Nat) (s : Tty) : Except Fault (ReadStep × Tty) := do
  let (got, rbuf) ← consoleRbufGetc s.rbuf
  let s := { s with rbuf := rbuf }
  match got with
  | none => .ok (.again c, s)
  | some ch =>
    let s := s.store c ch
    if s.cbuf c = 0x08 then
      if 0 < c then
        let s := { s with vga := vgaConsolePutc (s.cbuf c) s.vga }
        let s := s.store c 0
        .ok (.again (c - 1), s)
      else .ok (.again c, s)
    else
      let s := { s with vga := vgaConsolePutc (s.cbuf c) s.vga }
      if s.cbuf c = 0x0A ∨ s.cbuf c = 0 then .ok (.ret (c + 1), s)
      else .ok (.again (c + 1), s)

/-- The calls of `console_rbuf_putc` in a keyboard interrupt. -/
def kbdIntr : List UInt8 → Console → Except Fault Console
  | [], s => .ok s
  | ch :: chars, s => do
    let s ← consoleRbufPutc ch s
    kbdIntr chars s

/-- The iterations for which the schedule says what the keyboard puts before each of them. -/
def consoleReadRounds : List (List UInt8) → Nat → Tty → Except Fault (ReadStep × Tty)
  | [], c, s => .ok (.again c, s)
  | chars :: keys, c, s => do
    let rbuf ← kbdIntr chars s.rbuf
    let (r, s) ← consoleReadStep c { s with rbuf := rbuf }
    match r with
    | .again c => consoleReadRounds keys c s
    | .ret n => .ok (.ret n, s)

/-- `console_read`; the loop does not use `count`. -/
def consoleRead (_count : Nat) (keys : List (List UInt8)) (s : Tty) :
    Except Fault (ReadStep × Tty) :=
  consoleReadRounds keys 0 s

/-- The characters that end a line. -/
def Ends (ch : UInt8) : Prop := ch = 0x0A ∨ ch = 0

instance (ch : UInt8) : Decidable (Ends ch) := inferInstanceAs (Decidable (_ ∨ _))

/-- One more character typed: a backspace removes the last character of the line. -/
def typeChar (line : List UInt8) (ch : UInt8) : List UInt8 :=
  if ch = 0x08 then line.dropLast else line ++ [ch]

/-- The line that some characters make. -/
def editLine (typed : List UInt8) : List UInt8 := typed.foldl typeChar []

def upToEnd : List UInt8 → List UInt8
  | [] => []
  | ch :: chars => if Ends ch then [ch] else ch :: upToEnd chars

/-- The calls on the read buffer that a schedule and as many iterations make. -/
def readOps (keys : List (List UInt8)) : List ConsoleOp :=
  keys.flatMap fun chars => chars.map ConsoleOp.putc ++ [.getc]

section Typing
variable {typed chars pre : List UInt8} {ch : UInt8}

theorem editLine_snoc (typed : List UInt8) (ch : UInt8) :
    editLine (typed ++ [ch]) = typeChar (editLine typed) ch := by
  rw [editLine, List.foldl_append]
  rfl

theorem editLine_backspace (hbs : ch = 0x08) :
    editLine (typed ++ [ch]) = (editLine typed).dropLast := by
  rw [editLine_snoc, typeChar, if_pos hbs]

theorem editLine_type (hbs : ch ≠ 0x08) : editLine (typed ++ [ch]) = editLine typed ++ [ch] := by
  rw [editLine_snoc, typeChar, if_neg hbs]

theorem editLine_snoc_of_ends (typed : List UInt8) (h : Ends ch) :
    editLine (typed ++ [ch]) = editLine typed ++ [ch] := by
  apply editLine_type
  rintro rfl
  exact absurd h (by decide)

theorem upToEnd_of_ends (h : Ends ch) : upToEnd (ch :: chars) = [ch] := if_pos h

theorem upToEnd_of_not_ends (h : ¬ Ends ch) :
    upToEnd (ch :: chars) = ch :: upToEnd chars := if_neg h

theorem upToEnd_append (hline : ∀ d ∈ pre, ¬ Ends d) (h : Ends ch) (rest : List UInt8) :
    upToEnd (pre ++ ch :: rest) = pre ++ [ch] := by
  induction pre with
  | nil => exact upToEnd_of_ends h
  | cons d pre ih =>
    have hd : ¬ Ends d := hline d List.mem_cons_self
    have hpre : ∀ e ∈ pre, ¬ Ends e := fun e he => hline e (List.mem_cons_of_mem d he)
    rw [List.cons_append, upToEnd_of_not_ends hd, ih hpre]
    rfl

end Typing

/-- The line typed so far is at the start of the buffer, and `c` is behind it. -/
structure Editing (typed : List UInt8) (c : Nat) (s : Tty) : Prop where
  index : c = (editLine typed).length
  line : ∀ i x, (editLine typed)[i]? = some x → s.cbuf i = x

section Iteration
variable {typed : List UInt8} {c : Nat} {s : Tty} {r : Console} {ch : UInt8}

theorem consoleReadStep_none (hget : consoleRbufGetc s.rbuf = .ok (none, r)) :
    consoleReadStep c s = .ok (.again c, { s with rbuf := r }) := by
  rw [consoleReadStep, hget]
  rfl

/-- How an iteration ends that has made the line `n` characters long. -/
def stepEnd (ch : UInt8) (n : Nat) : ReadStep := if Ends ch then .ret n else .again n

theorem consoleReadStep_get (hget : consoleRbufGetc s.rbuf = .ok (some ch, r)) :
    consoleReadStep c s =
      if ch = 0x08 then
        if 0 < c then .ok (.again (c - 1), (({ s with
          rbuf := r, vga := vgaConsolePutc ch s.vga } : Tty).store c ch).store c 0)
        else .ok (.again c, ({ s with rbuf := r } : Tty).store c ch)
      else .ok (stepEnd ch (c + 1), ({ s with
        rbuf := r, vga := vgaConsolePutc ch s.vga } : Tty).store c ch) := by
  rw [consoleReadStep, hget]
  simp only [bind, Except.bind, Tty.store, Function.update_self]
  unfold stepEnd
  by_cases hends : Ends ch
  · simp only [if_pos hends, show ch = 0x0A ∨ ch = 0 from hends, if_true]
  · simp only [if_neg hends, show ¬ (ch = 0x0A ∨ ch = 0) from hends, if_false]

theorem Editing.backspace {s' : Tty} (h : Editing typed c s) (hbs : ch = 0x08)
    (hbefore : ∀ i < c, s'.cbuf i = s.cbuf i) : Editing (typed ++ [ch]) (c - 1) s' := by
  refine ⟨?_, ?_⟩
  · rw [editLine_backspace hbs, List.length_dropLast, ← h.index]
  · rw [editLine_backspace hbs]
    intro i x hx
    rw [List.getElem?_dropLast] at hx
    split at hx
    · have hc := h.index
      rw [hbefore i (by omega)]
      exact h.line i x hx
    · cases hx

theorem Editing.type {s' : Tty} (h : Editing typed c s) (hbs : ch ≠ 0x08)
    (hbuf : s'.cbuf = Function.update s.cbuf c ch) : Editing (typed ++ [ch]) (c + 1) s' := by
  have hc := h.index
  refine ⟨?_, ?_⟩
  · rw [editLine_type hbs, List.length_append, List.length_singleton, ← hc]
  · rw [editLine_type hbs, hbuf]
    intro i x hx
    by_cases hi : i < c
    · rw [List.getElem?_append_left (hc ▸ hi)] at hx
      rw [Function.update_of_ne (Nat.ne_of_lt hi)]
      exact h.line i x hx
    · have hic : i = c := by
        have := (List.getElem?_eq_some_iff.mp hx).1
        rw [List.length_append, List.length_singleton] at this
        omega
      subst hic
      rw [hc, List.getElem?_concat_length] at hx
      cases hx
      exact Function.update_self _ _ _

/-- A character delivered is typed, and all stores are behind the line. -/
theorem consoleReadStep_some (h : Editing typed c s)
    (hget : consoleRbufGetc s.rbuf = .ok (some ch, r)) :
    ∃ s' made, consoleReadStep c s =
        .ok (stepEnd ch (editLine (typed ++ [ch])).length, s') ∧
      s'.rbuf = r ∧ s'.stores = s.stores ++ made ∧ (∀ i, i ∈ made ↔ i = c) ∧
      Editing (typed ++ [ch]) (editLine (typed ++ [ch])).length s' := by
  have hkept : ∀ (f : Nat → UInt8) (v : UInt8), ∀ i < c, Function.update f c v i = f i :=
    fun f v i hi => Function.update_of_ne (Nat.ne_of_lt hi) _ _
  rw [consoleReadStep_get hget]
  by_cases hbs : ch = 0x08
  · have hends : ¬ Ends ch := by
      rw [hbs]
      decide
    rw [if_pos hbs, stepEnd, if_neg hends]
    by_cases hpos : 0 < c
    · have hedit : Editing (typed ++ [ch]) (c - 1) ((({ s with
          rbuf := r, vga := vgaConsolePutc ch s.vga } : Tty).store c ch).store c 0) :=
        h.backspace hbs fun i hi => (hkept _ 0 i hi).trans (hkept _ ch i hi)
      rw [if_pos hpos, ← hedit.index]
      exact ⟨_, [c, c], rfl, rfl, List.append_assoc _ _ _, by simp, hedit⟩
    · have hedit : Editing (typed ++ [ch]) (c - 1) (({ s with rbuf := r } : Tty).store c ch) :=
        h.backspace hbs (hkept _ ch)
      have hzero : c - 1 = c := by omega
      rw [hzero] at hedit
      rw [if_neg hpos, ← hedit.index]
      exact ⟨_, [c], rfl, rfl, rfl, by simp, hedit⟩
  · have hedit : Editing (typed ++ [ch]) (c + 1) (({ s with
        rbuf := r, vga := vgaConsolePutc ch s.vga } : Tty).store c ch) := h.type hbs rfl
    rw [if_neg hbs, ← hedit.index]
    exact ⟨_, [c], rfl, rfl, rfl, by simp, hedit⟩

end Iteration

section Rounds
variable {keys : List (List UInt8)} {chars : List UInt8} {r r' : Console} {tr : List ConsoleEvent}

/-- The events of a keyboard interrupt. -/
def putEvents (chars : List UInt8) : List ConsoleEvent :=
  chars.map fun ch => (.putc ch, none)

@[simp] theorem puts_putEvents (chars : List UInt8) : puts (putEvents chars) = chars := by
  unfold puts putEvents
  rw [List.filterMap_map]
  exact List.filterMap_some

@[simp] theorem gets_putEvents (chars : List UInt8) : gets (putEvents chars) = [] := by
  unfold gets putEvents
  rw [List.filterMap_map]
  exact List.filterMap_eq_nil_iff.mpr fun _ _ => rfl

theorem exec_putc (chars : List UInt8) (ops : List ConsoleOp) (r : Console) :
    exec ConsoleOp.exec (chars.map .putc ++ ops) r = (do
      let r₁ ← kbdIntr chars r
      let (tr, r₂) ← exec ConsoleOp.exec ops r₁
      .ok (putEvents chars ++ tr, r₂)) := by
  induction chars generalizing r with
  | nil =>
    change exec ConsoleOp.exec ops r = _
    simp only [kbdIntr, bind, Except.bind, putEvents, List.map_nil, List.nil_append]
    cases exec ConsoleOp.exec ops r <;> rfl
  | cons ch chars ih =>
    simp only [List.map_cons, List.cons_append, exec, ConsoleOp.exec, kbdIntr, ih, bind,
      Except.bind]
    cases consoleRbufPutc ch r with
    | error e => rfl
    | ok r₁ =>
      dsimp only
      cases kbdIntr chars r₁ with
      | error e => rfl
      | ok r₂ =>
        dsimp only
        cases exec ConsoleOp.exec ops r₂ <;> rfl

theorem exec_readOps_cons : exec ConsoleOp.exec (readOps (chars :: keys)) r = .ok (tr, r') ↔
    ∃ r₁ got r₂ tr', kbdIntr chars r = .ok r₁ ∧ consoleRbufGetc r₁ = .ok (got, r₂) ∧
      exec ConsoleOp.exec (readOps keys) r₂ = .ok (tr', r') ∧
      tr = putEvents chars ++ (.getc, got) :: tr' := by
  have hops : readOps (chars :: keys) = chars.map .putc ++ (.getc :: readOps keys) := by
    rw [readOps, List.flatMap_cons, List.append_assoc]
    rfl
  rw [hops, exec_putc]
  constructor
  · intro h
    obtain ⟨r₁, hk, h⟩ := bind_eq_ok.mp h
    obtain ⟨⟨tr', u⟩, hrest, h⟩ := bind_eq_ok.mp h
    cases h
    simp only [exec, ConsoleOp.exec] at hrest
    split at hrest
    · cases hrest
    · rename_i got r₂ hg
      split at hrest
      · cases hrest
      · rename_i tr₂ u' htr
        cases hrest
        exact ⟨r₁, got, r₂, tr₂, hk, hg, htr, rfl⟩
  · rintro ⟨r₁, got, r₂, tr', hk, hg, hrest, rfl⟩
    simp only [hk, exec, ConsoleOp.exec, hg, hrest, bind, Except.bind]

theorem gets_round (chars : List UInt8) (got : Option UInt8) (tr : List ConsoleEvent) :
    gets (putEvents chars ++ (.getc, got) :: tr) = got.toList ++ gets tr := by
  have happ : ∀ a b : List ConsoleEvent, gets (a ++ b) = gets a ++ gets b :=
    fun a b => List.filterMap_append
  rw [happ, gets_putEvents, List.nil_append]
  cases got <;> rfl

end Rounds

/-- The indices that typing `chars` behind `typed` stores to. -/
def TypedAt (typed chars : List UInt8) (i : Nat) : Prop :=
  ∃ n, n < chars.length ∧ i = (editLine (typed ++ chars.take n)).length

theorem typedAt_nil (typed : List UInt8) (i : Nat) : ¬ TypedAt typed [] i := by
  rintro ⟨n, hn, -⟩
  exact absurd hn (Nat.not_lt_zero n)

theorem typedAt_cons {typed chars : List UInt8} {ch : UInt8} {i : Nat} :
    TypedAt typed (ch :: chars) i ↔
      i = (editLine typed).length ∨ TypedAt (typed ++ [ch]) chars i := by
  constructor
  · rintro ⟨n, hn, hi⟩
    cases n with
    | zero =>
      rw [List.take_zero, List.append_nil] at hi
      exact Or.inl hi
    | succ n =>
      refine Or.inr ⟨n, Nat.lt_of_succ_lt_succ hn, ?_⟩
      rw [List.append_assoc]
      exact hi
  · rintro (hi | ⟨n, hn, hi⟩)
    · refine ⟨0, Nat.zero_lt_succ _, ?_⟩
      rw [List.take_zero, List.append_nil]
      exact hi
    · refine ⟨n + 1, Nat.succ_lt_succ hn, ?_⟩
      rw [List.append_assoc] at hi
      exact hi

/-- How the loop ends when some characters are delivered to it. -/
def loopEnd (got : List UInt8) (n : Nat) : ReadStep :=
  if ∃ ch ∈ got, Ends ch then .ret n else .again n

section Loop
variable {keys : List (List UInt8)} {typed : List UInt8} {c : Nat} {s s' : Tty} {r : Console}
  {tr : List ConsoleEvent} {res : ReadStep}

/-- What the loop has done when `got` was delivered to its calls of `console_rbuf_getc` and
these are behind `typed`. -/
structure LoopDone (keys : List (List UInt8)) (typed got : List UInt8) (s s' : Tty) : Prop where
  editing : Editing (typed ++ upToEnd got) (editLine (typed ++ upToEnd got)).length s'
  taken : ∃ done tr, done <+: keys ∧
    exec ConsoleOp.exec (readOps done) s.rbuf = .ok (tr, s'.rbuf) ∧ gets tr = upToEnd got
  stored : ∃ made, s'.stores = s.stores ++ made ∧ ∀ i, i ∈ made ↔ TypedAt typed (upToEnd got) i

theorem LoopDone.start (h : Editing typed c s) : LoopDone [] typed [] s s := by
  refine ⟨?_, ⟨[], [], List.prefix_refl _, rfl, rfl⟩, [], (List.append_nil _).symm, ?_⟩
  · rw [upToEnd, List.append_nil, ← h.index]
    exact h
  · intro i
    exact ⟨fun hi => absurd hi List.not_mem_nil, fun hi => absurd hi (typedAt_nil typed i)⟩

section Round
variable {chars rest made : List UInt8} {r₁ r₂ : Console} {s₁ : Tty} {ch : UInt8} {at₁ : List Nat}
  (hk : kbdIntr chars s.rbuf = .ok r₁)

include hk

theorem LoopDone.idle (hg : consoleRbufGetc r₁ = .ok (none, r₂))
    (h : LoopDone keys typed rest { s with rbuf := r₂ } s') :
    LoopDone (chars :: keys) typed rest s s' := by
  obtain ⟨done, tr, hdone, hex, hgot⟩ := h.taken
  refine ⟨h.editing, ⟨chars :: done, _, List.cons_prefix_cons.mpr ⟨rfl, hdone⟩,
    exec_readOps_cons.mpr ⟨r₁, none, r₂, tr, hk, hg, hex, rfl⟩, ?_⟩, h.stored⟩
  rw [gets_round]
  exact hgot

variable (hg : consoleRbufGetc r₁ = .ok (some ch, r₂)) (hr : s₁.rbuf = r₂)
  (hst : s₁.stores = s.stores ++ at₁) (hat : ∀ i, i ∈ at₁ ↔ i = (editLine typed).length)

include hg hr hst hat

theorem LoopDone.ended (hends : Ends ch)
    (h : Editing (typed ++ [ch]) (editLine (typed ++ [ch])).length s₁) :
    LoopDone (chars :: keys) typed (ch :: rest) s s₁ := by
  refine ⟨?_, ⟨[chars], _, List.cons_prefix_cons.mpr ⟨rfl, List.nil_prefix⟩,
    exec_readOps_cons.mpr ⟨r₁, some ch, r₂, [], hk, hg, hr ▸ rfl, rfl⟩, ?_⟩, at₁, hst, ?_⟩
  · rw [upToEnd_of_ends hends]
    exact h
  · rw [gets_round, upToEnd_of_ends hends]
    rfl
  · intro i
    rw [upToEnd_of_ends hends, typedAt_cons, hat i]
    exact ⟨Or.inl, fun hi => hi.elim id fun hi => absurd hi (typedAt_nil _ i)⟩

theorem LoopDone.delivered (hends : ¬ Ends ch) (h : LoopDone keys (typed ++ [ch]) rest s₁ s') :
    LoopDone (chars :: keys) typed (ch :: rest) s s' := by
  obtain ⟨done, tr, hdone, hex, hgot⟩ := h.taken
  obtain ⟨at₂, hst', hat'⟩ := h.stored
  rw [hr] at hex
  refine ⟨?_, ⟨chars :: done, _, List.cons_prefix_cons.mpr ⟨rfl, hdone⟩,
    exec_readOps_cons.mpr ⟨r₁, some ch, r₂, tr, hk, hg, hex, rfl⟩, ?_⟩, at₁ ++ at₂, ?_, ?_⟩
  · have happ : typed ++ upToEnd (ch :: rest) = typed ++ [ch] ++ upToEnd rest := by
      rw [upToEnd_of_not_ends hends, List.append_assoc]
      rfl
    rw [happ]
    exact h.editing
  · rw [gets_round, hgot, upToEnd_of_not_ends hends]
    rfl
  · rw [hst', hst, List.append_assoc]
  · intro i
    rw [upToEnd_of_not_ends hends, typedAt_cons, List.mem_append, hat i, hat' i]

end Round

theorem consoleReadRounds_cons {chars : List UInt8} {r₁ : Console}
    (hk : kbdIntr chars s.rbuf = .ok r₁) : consoleReadRounds (chars :: keys) c s = (do
      let (res, s) ← consoleReadStep c { s with rbuf := r₁ }
      match res with
      | .again c => consoleReadRounds keys c s
      | .ret n => .ok (.ret n, s)) := by
  rw [consoleReadRounds, hk]
  rfl

theorem consoleReadRounds_spec (h : Editing typed c s)
    (hrun : exec ConsoleOp.exec (readOps keys) s.rbuf = .ok (tr, r)) :
    ∃ s', consoleReadRounds keys c s =
        .ok (loopEnd (gets tr) (editLine (typed ++ upToEnd (gets tr))).length, s') ∧
      LoopDone keys typed (gets tr) s s' := by
  induction keys generalizing typed c s tr with
  | nil =>
    cases hrun
    refine ⟨s, ?_, .start h⟩
    change _ = Except.ok (loopEnd [] (editLine (typed ++ [])).length, s)
    rw [List.append_nil, loopEnd, if_neg (by simp), ← h.index]
    rfl
  | cons chars keys ih =>
    obtain ⟨r₁, got, r₂, tr₂, hk, hg, hrest, rfl⟩ := exec_readOps_cons.mp hrun
    rw [gets_round, consoleReadRounds_cons hk]
    cases got with
    | none =>
      have hidle : Editing typed c { s with rbuf := r₂ } := ⟨h.index, h.line⟩
      obtain ⟨s', hok, hdone⟩ := ih hidle hrest
      have hstep : consoleReadStep c { s with rbuf := r₁ } =
          .ok (.again c, { s with rbuf := r₂ }) := consoleReadStep_none hg
      rw [hstep]
      exact ⟨s', hok, hdone.idle hk hg⟩
    | some ch =>
      have hedit₁ : Editing typed c { s with rbuf := r₁ } := ⟨h.index, h.line⟩
      obtain ⟨s₁, at₁, hstep, hr, hst, hat, hnew⟩ := consoleReadStep_some hedit₁ hg
      rw [h.index] at hat
      rw [hstep]
      change ∃ s', _ = Except.ok (loopEnd (ch :: gets tr₂)
        (editLine (typed ++ upToEnd (ch :: gets tr₂))).length, s') ∧
          LoopDone _ _ (ch :: gets tr₂) s s'
      by_cases hends : Ends ch
      · refine ⟨s₁, ?_, .ended hk hg hr hst hat hends hnew⟩
        rw [upToEnd_of_ends hends, stepEnd, if_pos hends, loopEnd,
          if_pos ⟨ch, List.mem_cons_self, hends⟩]
        rfl
      · have hrest' : exec ConsoleOp.exec (readOps keys) s₁.rbuf = .ok (tr₂, r) := by
          rw [hr]
          exact hrest
        obtain ⟨s', hok, hdone⟩ := ih hnew hrest'
        refine ⟨s', ?_, hdone.delivered hk hg hr hst hat hends⟩
        have hend : ∀ n, loopEnd (ch :: gets tr₂) n = loopEnd (gets tr₂) n := by
          intro n
          simp [loopEnd, hends]
        rw [List.append_assoc] at hok
        rw [stepEnd, if_neg hends, hend, upToEnd_of_not_ends hends]
        exact hok

end Loop

section Bounds
variable {keys : List (List UInt8)} {s : Tty} {tr : List ConsoleEvent} {r : Console}

/-- Everything is stored before the end of the caller's buffer, and no more is returned. -/
def RespectsCount (count : Nat) (keys : List (List UInt8)) (s : Tty) : Prop :=
  ∃ res s' made, consoleRead count keys s = .ok (res, s') ∧ s'.stores = s.stores ++ made ∧
    (∀ i ∈ made, i < count) ∧ ∀ n, res = .ret n → n ≤ count

/-- The line is shorter than the buffer whenever a character of it is delivered. -/
def LineFits (count : Nat) (chars : List UInt8) : Prop :=
  ∀ n, n < chars.length → (editLine (chars.take n)).length < count

instance (count : Nat) (chars : List UInt8) : Decidable (LineFits count chars) :=
  inferInstanceAs (Decidable (∀ n, n < chars.length → _))

theorem editing_nil (s : Tty) : Editing [] 0 s := ⟨rfl, fun _ _ h => nomatch h⟩

theorem upToEnd_of_mem_ends {got : List UInt8} (h : ∃ ch ∈ got, Ends ch) :
    ∃ pre ch, upToEnd got = pre ++ [ch] ∧ Ends ch := by
  induction got with
  | nil =>
    obtain ⟨ch, hch, -⟩ := h
    exact absurd hch List.not_mem_nil
  | cons d got ih =>
    by_cases hd : Ends d
    · exact ⟨[], d, upToEnd_of_ends hd, hd⟩
    · obtain ⟨ch, hch, hends⟩ := h
      have hmem : ch ∈ got := by
        rcases List.mem_cons.mp hch with rfl | hch
        · exact absurd hends hd
        · exact hch
      obtain ⟨pre, x, hpre, hx⟩ := ih ⟨ch, hmem, hends⟩
      exact ⟨d :: pre, x, by rw [upToEnd_of_not_ends hd, hpre]; rfl, hx⟩

/-- Whatever the keyboard puts and whenever it does, a call of `console_read` stores only to
the buffer of its caller and returns at most its size if and only if every character up to
the end of the line is delivered while the line is shorter than the buffer. -/
theorem consoleRead_respectsCount_iff (count : Nat) (s : Tty) (keys : List (List UInt8))
    (tr : List ConsoleEvent) (r : Console)
    (hrun : exec ConsoleOp.exec (readOps keys) s.rbuf = .ok (tr, r)) :
    RespectsCount count keys s ↔ LineFits count (upToEnd (gets tr)) := by
  obtain ⟨s', hok, ⟨-, -, made, hst, hmade⟩⟩ := consoleReadRounds_spec (editing_nil s) hrun
  rw [List.nil_append] at hok
  constructor
  · rintro ⟨res, s₁, made₁, hok₁, hst₁, hin, -⟩ n hn
    rw [consoleRead, hok] at hok₁
    cases hok₁
    rw [hst] at hst₁
    obtain rfl : made = made₁ := List.append_cancel_left hst₁
    exact hin _ ((hmade _).mpr ⟨n, hn, rfl⟩)
  · intro hfits
    refine ⟨_, s', made, hok, hst, ?_, ?_⟩
    · intro i hi
      obtain ⟨n, hn, rfl⟩ := (hmade i).mp hi
      exact hfits n hn
    · intro n hn
      rw [loopEnd] at hn
      split at hn
      · rename_i hends
        cases hn
        obtain ⟨pre, ch, hpre, hch⟩ := upToEnd_of_mem_ends hends
        rw [hpre] at hfits ⊢
        have hlt := hfits pre.length (by simp)
        rw [List.take_left] at hlt
        rw [editLine_snoc_of_ends pre hch, List.length_append]
        exact hlt
      · cases hn

/-- A console on which nothing has been typed yet. -/
def Tty.init : Tty where
  rbuf := Console.init
  vga := vgaConsoleInit Vga.zero
  cbuf := fun _ => 0
  stores := []

/-- A key and the newline behind it fill a buffer of two characters. -/
theorem consoleRead_respectsCount_two : RespectsCount 2 [[0x61], [0x0A]] Tty.init := by
  obtain ⟨tr, r, hrun, htest⟩ := passes_iff.mp
    (by decide +kernel : passes (exec ConsoleOp.exec (readOps [[0x61], [0x0A]]) Console.init)
      (fun tr _ => gets tr == [0x61, 0x0A]) = true)
  refine (consoleRead_respectsCount_iff 2 Tty.init _ tr r hrun).mpr ?_
  rw [beq_iff_eq.mp htest]
  decide

/-- The same line read into a buffer of one character. -/
theorem not_respectsCount_one : ¬ RespectsCount 1 [[0x61], [0x0A]] Tty.init := by
  obtain ⟨tr, r, hrun, htest⟩ := passes_iff.mp
    (by decide +kernel : passes (exec ConsoleOp.exec (readOps [[0x61], [0x0A]]) Console.init)
      (fun tr _ => gets tr == [0x61, 0x0A]) = true)
  have hgets : gets tr = [0x61, 0x0A] := beq_iff_eq.mp htest
  obtain ⟨s', hok, -⟩ := consoleReadRounds_spec (editing_nil Tty.init) hrun
  rintro ⟨res, s₁, made, hok₁, -, -, hret⟩
  rw [consoleRead, hok, hgets] at hok₁
  cases hok₁
  exact absurd (hret 2 rfl) (by decide)

end Bounds

end AkKernel
