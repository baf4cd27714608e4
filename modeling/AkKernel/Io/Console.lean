import AkKernel.Fault
import AkKernel.Foundation.Circular
import AkKernel.Foundation.Runs

/-!
# The read buffer of the console

`console_rbuf_putc` and `console_rbuf_getc` of `arch/x86/console.c`. The keyboard interrupt
puts characters and readers take them; the two counters run freely and are reduced modulo
the length of the buffer at each access.
-/

set_option autoImplicit false

namespace AkKernel

open Runs Circular

def consRbufLen : Nat := 256

/-- `ConsoleReadBuf`, `RBufRead` and `RBufWrite`. The counters are of type `int`. -/
structure Console where
  consoleReadBuf : Nat → UInt8
  rbufRead : Word
  rbufWrite : Word

def Console.init : Console where
  consoleReadBuf := fun _ => 0
  rbufRead := 0#32
  rbufWrite := 0#32

/-- The index `counter % CONS_RBUF_LEN`; the remainder of a negative counter is negative or zero. -/
def rbufIndex (counter : Word) : Except Fault Nat :=
  let i := counter.toInt.tmod consRbufLen
  if 0 ≤ i then .ok i.toNat else .error .outOfBounds

def consoleRbufPutc (c : UInt8) (s : Console) : Except Fault Console := do
  let i ← rbufIndex s.rbufWrite
  .ok { s with
    consoleReadBuf := Function.update s.consoleReadBuf i c
    rbufWrite := s.rbufWrite + 1#32 }

/-- `none` is the return value 0. -/
def consoleRbufGetc (s : Console) : Except Fault (Option UInt8 × Console) :=
  if s.rbufRead.slt s.rbufWrite then do
    let i ← rbufIndex s.rbufRead
    .ok (some (s.consoleReadBuf i), { s with rbufRead := s.rbufRead + 1#32 })
  else .ok (none, s)

inductive ConsoleOp where
  | putc (c : UInt8)
  | getc
deriving DecidableEq, Repr

def ConsoleOp.exec : ConsoleOp → Console → Except Fault (Option UInt8 × Console)
  | .putc c, s => do
    let s ← consoleRbufPutc c s
    .ok (none, s)
  | .getc, s => consoleRbufGetc s

abbrev ConsoleEvent := ConsoleOp × Option UInt8

def ConsoleStep (s : Console) (lbl : ConsoleEvent) (s' : Console) : Prop :=
  lbl.1.exec s = .ok (lbl.2, s')

theorem consoleStep_of_exec (op : ConsoleOp) (s : Console) (out : Option UInt8) (s' : Console)
    (h : op.exec s = .ok (out, s')) : ConsoleStep s (op, out) s' := h

def ConsoleEvent.put : ConsoleEvent → Option UInt8
  | (.putc c, _) => some c
  | (.getc, _) => none

def ConsoleEvent.got : ConsoleEvent → Option UInt8
  | (.putc _, _) => none
  | (.getc, out) => out

/-- The characters put in a history, oldest first. -/
def puts (tr : List ConsoleEvent) : List UInt8 := tr.filterMap ConsoleEvent.put

def gets (tr : List ConsoleEvent) : List UInt8 := tr.filterMap ConsoleEvent.got

section History
variable {tr tr' : List ConsoleEvent} {lbl : ConsoleEvent}

theorem puts_snoc (tr : List ConsoleEvent) (lbl : ConsoleEvent) :
    puts (tr ++ [lbl]) = puts tr ++ lbl.put.toList := by
  rw [puts, List.filterMap_append]
  cases h : lbl.put <;> simp [puts, h]

theorem gets_snoc (tr : List ConsoleEvent) (lbl : ConsoleEvent) :
    gets (tr ++ [lbl]) = gets tr ++ lbl.got.toList := by
  rw [gets, List.filterMap_append]
  cases h : lbl.got <;> simp [gets, h]

theorem puts_length_le (h : tr' <+: tr) : (puts tr').length ≤ (puts tr).length :=
  (List.IsPrefix.filterMap _ h).length_le

end History

/-- The counters count what was put and returned, and the last characters put are in
their places. -/
structure Counts (tr : List ConsoleEvent) (s : Console) : Prop where
  write : s.rbufWrite.toNat = (puts tr).length
  read : s.rbufRead.toNat = (gets tr).length
  le : (gets tr).length ≤ (puts tr).length
  holds : Holds consRbufLen s.consoleReadBuf (puts tr)

section Counters
variable {tr : List ConsoleEvent} {s s' : Console}

theorem rbufIndex_eq {counter : Word} (h : counter.toNat < 2 ^ 31) :
    rbufIndex counter = .ok (counter.toNat % consRbufLen) := by
  have hint : counter.toInt = counter.toNat := BitVec.toInt_eq_toNat_of_lt (by omega)
  unfold rbufIndex
  dsimp only
  rw [hint, ← Int.ofNat_tmod, if_pos (Int.natCast_nonneg _), Int.toNat_natCast]

theorem succ_toNat {counter : Word} (h : counter.toNat < 2 ^ 31) :
    (counter + 1#32).toNat = counter.toNat + 1 := by
  rw [BitVec.toNat_add]
  change (counter.toNat + 1) % 2 ^ 32 = _
  omega

theorem Counts.putc (h : Counts tr s) (hlt : (puts tr).length < 2 ^ 31) (c : UInt8) :
    consoleRbufPutc c s = .ok { s with
      consoleReadBuf := Function.update s.consoleReadBuf ((puts tr).length % consRbufLen) c
      rbufWrite := s.rbufWrite + 1#32 } := by
  unfold consoleRbufPutc
  rw [rbufIndex_eq (h.write ▸ hlt), h.write]
  rfl

/-- A character is returned exactly when one is unread; it is the one that was put last
into the slot of the read counter. -/
theorem Counts.getc (h : Counts tr s) (hlt : (puts tr).length < 2 ^ 31) :
    consoleRbufGetc s =
      if (gets tr).length < (puts tr).length then
        .ok (some (s.consoleReadBuf ((gets tr).length % consRbufLen)),
          { s with rbufRead := s.rbufRead + 1#32 })
      else .ok (none, s) := by
  have hle := h.le
  have hr : s.rbufRead.toInt = (gets tr).length := by
    rw [← h.read]
    exact BitVec.toInt_eq_toNat_of_lt (by have := h.read; omega)
  have hw : s.rbufWrite.toInt = (puts tr).length := by
    rw [← h.write]
    exact BitVec.toInt_eq_toNat_of_lt (by have := h.write; omega)
  have hcmp : s.rbufRead.slt s.rbufWrite = decide ((gets tr).length < (puts tr).length) := by
    rw [BitVec.slt_eq_decide, hr, hw]
    simp
  unfold consoleRbufGetc
  rw [hcmp, rbufIndex_eq (by have := h.read; omega), h.read]
  by_cases hread : (gets tr).length < (puts tr).length
  · simp [hread]
    rfl
  · simp [hread]

theorem counts_init : Counts [] Console.init := ⟨rfl, rfl, Nat.le_refl _, holds_nil _⟩

theorem Counts.step {lbl : ConsoleEvent} (h : Counts tr s)
    (hlt : (puts (tr ++ [lbl])).length < 2 ^ 31) (hs : ConsoleStep s lbl s') :
    Counts (tr ++ [lbl]) s' := by
  obtain ⟨op, out⟩ := lbl
  have hlt' : (puts tr).length < 2 ^ 31 :=
    Nat.lt_of_le_of_lt (puts_length_le (List.prefix_append _ _)) hlt
  have hle := h.le
  cases op with
  | putc c =>
    obtain ⟨s₁, hput, hret⟩ := bind_eq_ok.mp hs
    rw [h.putc hlt'] at hput
    cases hput
    cases hret
    have hputs : puts (tr ++ [(.putc c, none)]) = puts tr ++ [c] := puts_snoc tr _
    have hgets : gets (tr ++ [(.putc c, none)]) = gets tr := by
      rw [gets_snoc]
      exact List.append_nil _
    refine ⟨?_, ?_, ?_, ?_⟩
    · rw [hputs, List.length_append, List.length_singleton]
      exact (succ_toNat (h.write ▸ hlt')).trans (congrArg (· + 1) h.write)
    · rw [hgets]
      exact h.read
    · rw [hputs, hgets, List.length_append]
      omega
    · rw [hputs]
      exact h.holds.push c
  | getc =>
    have hputs : puts (tr ++ [(.getc, out)]) = puts tr := by
      rw [puts_snoc]
      exact List.append_nil _
    have hgets : gets (tr ++ [(.getc, out)]) = gets tr ++ out.toList := gets_snoc tr _
    have hget : consoleRbufGetc s = .ok (out, s') := hs
    rw [h.getc hlt'] at hget
    split at hget
    · rename_i hread
      cases hget
      refine ⟨?_, ?_, ?_, ?_⟩
      · rw [hputs]
        exact h.write
      · rw [hgets, Option.toList_some, List.length_append, List.length_singleton]
        exact (succ_toNat (by have := h.read; omega)).trans (congrArg (· + 1) h.read)
      · rw [hputs, hgets, Option.toList_some, List.length_append, List.length_singleton]
        omega
      · rw [hputs]
        exact h.holds
    · cases hget
      rw [Option.toList_none, List.append_nil] at hgets
      refine ⟨?_, ?_, ?_, ?_⟩
      · rw [hputs]
        exact h.write
      · rw [hgets]
        exact h.read
      · rw [hputs, hgets]
        exact hle
      · rw [hputs]
        exact h.holds

end Counters

section Fifo
variable {tr : List ConsoleEvent} {s s' : Console}

theorem Counts.got {c : UInt8} (h : Counts tr s) (hlt : (puts tr).length < 2 ^ 31)
    (hget : consoleRbufGetc s = .ok (some c, s')) :
    (gets tr).length < (puts tr).length ∧
      (puts tr)[latest consRbufLen (puts tr).length (gets tr).length]? = some c := by
  rw [h.getc hlt] at hget
  split at hget
  · rename_i hread
    cases hget
    exact ⟨hread, h.holds.read (by decide) hread⟩
  · cases hget

theorem prefix_snoc {α : Type} {l m : List α} {x : α} (h : l <+: m) (hx : m[l.length]? = some x) :
    l ++ [x] <+: m := by
  obtain ⟨t, rfl⟩ := h
  rw [List.getElem?_append_right (Nat.le_refl _), Nat.sub_self] at hx
  cases t with
  | nil => cases hx
  | cons y t =>
    cases hx
    exact ⟨t, by rw [List.append_assoc]; rfl⟩

/-- No more characters are unread than the buffer has places, at any time of the history. -/
def NeverOverrun (tr : List ConsoleEvent) : Prop :=
  ∀ tr', tr' <+: tr → (puts tr').length ≤ (gets tr').length + consRbufLen

theorem fifo_step {lbl : ConsoleEvent} (h : Counts tr s) (hp : gets tr <+: puts tr)
    (hover : NeverOverrun tr) (hlt : (puts tr).length < 2 ^ 31) (hs : ConsoleStep s lbl s') :
    gets (tr ++ [lbl]) <+: puts (tr ++ [lbl]) := by
  obtain ⟨op, out⟩ := lbl
  rw [puts_snoc, gets_snoc]
  cases op with
  | putc c =>
    change gets tr ++ [] <+: puts tr ++ [c]
    rw [List.append_nil]
    exact hp.trans (List.prefix_append _ _)
  | getc =>
    change gets tr ++ out.toList <+: puts tr ++ []
    rw [List.append_nil]
    cases out with
    | none =>
      rw [Option.toList_none, List.append_nil]
      exact hp
    | some c =>
      obtain ⟨hread, hc⟩ := h.got hlt hs
      have hnear := hover tr (List.prefix_refl _)
      rw [latest_eq hread hnear] at hc
      exact prefix_snoc hp hc

theorem Counts.run {tr' : List ConsoleEvent} (h : Counts tr s) (hrun : Run ConsoleStep s tr' s')
    (hlt : (puts (tr ++ tr')).length < 2 ^ 31) : Counts (tr ++ tr') s' := by
  induction hrun with
  | nil =>
    rw [List.append_nil]
    exact h
  | snoc hrun hstep ih =>
    rw [← List.append_assoc] at hlt ⊢
    exact (ih (Nat.lt_of_le_of_lt (puts_length_le (List.prefix_append _ _)) hlt)).step hlt hstep

theorem gets_prefix_puts (hrun : Run ConsoleStep Console.init tr s) (hover : NeverOverrun tr)
    (hlt : (puts tr).length < 2 ^ 31) : gets tr <+: puts tr := by
  induction hrun with
  | nil => exact List.prefix_refl _
  | snoc hrun hstep ih =>
    have hpre : ∀ (tr : List ConsoleEvent) l, tr <+: tr ++ [l] :=
      fun tr l => List.prefix_append tr [l]
    have hlt' := Nat.lt_of_le_of_lt (puts_length_le (hpre _ _)) hlt
    have hover' : NeverOverrun _ := fun tr' h => hover tr' (h.trans (hpre _ _))
    exact fifo_step (counts_init.run hrun hlt') (ih hover' hlt') hover' hlt' hstep

/-- As long as no more characters are unread than the buffer has places, the characters
returned are those put, in the same order, and `console_rbuf_getc` fails exactly when all
of them have been returned. -/
theorem consoleRbuf_fifo (tr : List ConsoleEvent) (s : Console)
    (hrun : Run ConsoleStep Console.init tr s) (hover : NeverOverrun tr)
    (hlt : (puts tr).length < 2 ^ 31) :
    gets tr <+: puts tr ∧ (∀ c, ∃ s', consoleRbufPutc c s = .ok s') ∧
      ∃ out s', consoleRbufGetc s = .ok (out, s') ∧ (out = none ↔ gets tr = puts tr) := by
  have hc : Counts tr s := counts_init.run hrun hlt
  have hp := gets_prefix_puts hrun hover hlt
  refine ⟨hp, fun c => ⟨_, hc.putc hlt c⟩, ?_⟩
  rw [hc.getc hlt]
  split
  · rename_i hread
    refine ⟨_, _, rfl, ?_⟩
    constructor
    · intro h
      cases h
    · intro h
      rw [h] at hread
      exact absurd hread (Nat.lt_irrefl _)
  · rename_i hread
    refine ⟨_, _, rfl, ?_⟩
    have hall : gets tr = puts tr := hp.eq_of_length_le (by omega)
    exact ⟨fun _ => hall, fun _ => rfl⟩

/-- Three characters pass through the buffer, and the fourth `console_rbuf_getc` fails. -/
theorem consoleRbuf_fifo_three : ∃ tr s, gets tr = [65, 66, 67] ∧ puts tr = [65, 66, 67] ∧
    gets tr <+: puts tr ∧
    ∃ out s', consoleRbufGetc s = .ok (out, s') ∧ (out = none ↔ gets tr = puts tr) := by
  obtain ⟨tr, s, hrun, htest⟩ := exists_run ConsoleOp.exec consoleStep_of_exec
    [.putc 65, .putc 66, .getc, .putc 67, .getc, .getc, .getc] Console.init
    (fun tr _ => gets tr == [65, 66, 67] && puts tr == [65, 66, 67] && tr.length == 7)
    (by decide +kernel)
  rw [Bool.and_eq_true, Bool.and_eq_true, beq_iff_eq, beq_iff_eq, beq_iff_eq] at htest
  obtain ⟨⟨hgets, hputs⟩, hlen⟩ := htest
  have hover : NeverOverrun tr := by
    intro tr' h
    have h1 := puts_length_le h
    rw [hputs] at h1
    exact Nat.le_trans h1 (Nat.le_trans (by decide : 3 ≤ consRbufLen) (Nat.le_add_left _ _))
  obtain ⟨hp, -, hget⟩ := consoleRbuf_fifo tr s hrun hover (by rw [hputs]; decide)
  exact ⟨tr, s, hgets, hputs, hp, hget⟩

end Fifo

section Overrun

/-- The last call that moved a counter was a `console_rbuf_getc`. -/
def tookLast (tr : List ConsoleEvent) : Bool :=
  tr.foldl (fun b lbl =>
    match lbl with
    | (.putc _, _) => false
    | (.getc, some _) => true
    | (.getc, none) => b) false

/-- No `console_rbuf_getc` finds the buffer filled a whole number of times right behind
another one, and the write counter does not overflow. -/
def InStep (tr : List ConsoleEvent) (s : Console) (lbl : ConsoleEvent) : Prop :=
  match lbl.1 with
  | .putc _ => s.rbufWrite.toNat + 1 < 2 ^ 31
  | .getc => tookLast tr = true → (s.rbufWrite - s.rbufRead).toNat % consRbufLen = 0 →
      s.rbufWrite = s.rbufRead

instance (tr : List ConsoleEvent) (s : Console) (lbl : ConsoleEvent) :
    Decidable (InStep tr s lbl) :=
  match lbl with
  | (.putc _, _) => inferInstanceAs (Decidable (_ < _))
  | (.getc, _) => inferInstanceAs (Decidable (_ → _))

/-- What was returned is in order among the first `k` characters put, and the next
character of the reader's slot is not among them. -/
structure Ordered (tr : List ConsoleEvent) (k : Nat) : Prop where
  sub : (gets tr).Sublist ((puts tr).take k)
  le : k ≤ (puts tr).length
  slot : k % consRbufLen = (gets tr).length % consRbufLen
  behind : tookLast tr = false → k < (puts tr).length ∨ k = 0

variable {tr : List ConsoleEvent} {s s' : Console} {k : Nat}

theorem tookLast_getc (tr : List ConsoleEvent) (out : Option UInt8) :
    tookLast (tr ++ [(.getc, out)]) = (out.isSome || tookLast tr) := by
  rw [tookLast, List.foldl_append]
  cases out <;> rfl

theorem Ordered.putc (h : Ordered tr k) (c : UInt8) (out : Option UInt8) :
    Ordered (tr ++ [(.putc c, out)]) k := by
  have hle := h.le
  have hputs : puts (tr ++ [(.putc c, out)]) = puts tr ++ [c] := puts_snoc tr _
  have hgets : gets (tr ++ [(.putc c, out)]) = gets tr := by
    rw [gets_snoc]
    exact List.append_nil _
  refine ⟨?_, ?_, ?_, ?_⟩
  · rw [hputs, hgets, List.take_append_of_le_length hle]
    exact h.sub
  · rw [hputs, List.length_append]
    omega
  · rw [hgets]
    exact h.slot
  · intro _
    rw [hputs, List.length_append, List.length_singleton]
    exact Or.inl (by omega)

/-- The character returned was put at or behind `k`. -/
theorem Ordered.getc {c : UInt8} (h : Ordered tr k) (hread : (gets tr).length < (puts tr).length)
    (hk : k < (puts tr).length ∨ k = 0)
    (hc : (puts tr)[latest consRbufLen (puts tr).length (gets tr).length]? = some c) :
    Ordered (tr ++ [(.getc, some c)])
      (latest consRbufLen (puts tr).length (gets tr).length + 1) := by
  have hlt := latest_lt (n := consRbufLen) hread
  have hle : k ≤ latest consRbufLen (puts tr).length (gets tr).length := by
    rcases hk with hk | hk
    · exact le_latest (by decide) h.slot hk
    · omega
  have hputs : puts (tr ++ [(.getc, some c)]) = puts tr := by
    rw [puts_snoc]
    exact List.append_nil _
  have hgets : gets (tr ++ [(.getc, some c)]) = gets tr ++ [c] := gets_snoc tr _
  refine ⟨?_, ?_, ?_, ?_⟩
  · rw [hputs, hgets, List.take_add_one, hc]
    exact (h.sub.trans (List.take_sublist_take_left hle)).append (List.Sublist.refl _)
  · rw [hputs]
    exact hlt
  · rw [hgets, List.length_append, List.length_singleton, Nat.add_mod, latest_mod, ← Nat.add_mod]
  · intro hlast
    rw [tookLast_getc] at hlast
    cases hlast

theorem Ordered.step {lbl : ConsoleEvent} (hc : Counts tr s) (h : Ordered tr k)
    (hok : InStep tr s lbl) (hlt : (puts tr).length < 2 ^ 31) (hs : ConsoleStep s lbl s') :
    ∃ k', Ordered (tr ++ [lbl]) k' := by
  obtain ⟨op, out⟩ := lbl
  cases op with
  | putc c => exact ⟨k, h.putc c out⟩
  | getc =>
    cases out with
    | none =>
      have hputs : puts (tr ++ [(.getc, none)]) = puts tr := by
        rw [puts_snoc]
        exact List.append_nil _
      have hgets : gets (tr ++ [(.getc, none)]) = gets tr := by
        rw [gets_snoc]
        exact List.append_nil _
      refine ⟨k, ?_⟩
      constructor
      · rw [hputs, hgets]
        exact h.sub
      · rw [hputs]
        exact h.le
      · rw [hgets]
        exact h.slot
      · rw [hputs, tookLast_getc]
        exact h.behind
    | some c =>
      obtain ⟨hread, hget⟩ := hc.got hlt hs
      refine ⟨_, h.getc hread ?_ hget⟩
      cases hlast : tookLast tr with
      | false => exact h.behind hlast
      | true =>
        -- `k` is the number of characters put only if these fill the buffer a whole
        -- number of times behind the reader
        left
        have hsub : (s.rbufWrite - s.rbufRead).toNat = (puts tr).length - (gets tr).length := by
          rw [BitVec.toNat_sub_of_le, hc.write, hc.read]
          rw [BitVec.le_def, hc.write, hc.read]
          exact hc.le
        have hle := h.le
        by_contra hge
        have hk : k = (puts tr).length := by omega
        have hslot := h.slot
        rw [hk] at hslot
        have hzero := hok hlast (by rw [hsub]; exact Nat.sub_mod_eq_zero_of_mod_eq hslot)
        have := congrArg BitVec.toNat hzero
        rw [hc.write, hc.read] at this
        omega

/-- In every run in which no `console_rbuf_getc` finds the buffer filled a whole number of
times right behind another one, the characters returned are among those put, in order. -/
theorem consoleRbuf_ordered (tr : List ConsoleEvent) (s : Console)
    (hrun : RunWhen ConsoleStep InStep Console.init tr s) :
    (gets tr).Sublist (puts tr) := by
  have hinv : (puts tr).length < 2 ^ 31 ∧ Counts tr s ∧ ∃ k, Ordered tr k := by
    refine RunWhen.invariant (I := fun tr s => (puts tr).length < 2 ^ 31 ∧ Counts tr s ∧
      ∃ k, Ordered tr k) ⟨by decide, counts_init, 0, ?_⟩ ?_ hrun
    · exact ⟨List.Sublist.refl _, Nat.le_refl _, rfl, fun _ => Or.inr rfl⟩
    · intro tr t lbl u hI hok hs
      obtain ⟨hlt, hc, k, ho⟩ := hI
      have hlt' : (puts (tr ++ [lbl])).length < 2 ^ 31 := by
        obtain ⟨op, out⟩ := lbl
        rw [puts_snoc, List.length_append]
        cases op with
        | putc c =>
          have hbound : t.rbufWrite.toNat + 1 < 2 ^ 31 := hok
          rw [hc.write] at hbound
          exact hbound
        | getc => exact hlt
      exact ⟨hlt', hc.step hlt' hs, ho.step hc hok hlt hs⟩
  obtain ⟨-, -, k, ho⟩ := hinv
  exact ho.sub.trans (List.take_sublist _ _)

def ConsoleOp.tryInStep (tr : List ConsoleEvent) (op : ConsoleOp) (s : Console) :
    Except Fault (Option UInt8 × Console) :=
  if InStep tr s (op, none) then op.exec s else .error .diverges

theorem inStep_of_try (tr : List ConsoleEvent) (op : ConsoleOp) (s : Console) (out : Option UInt8)
    (s' : Console) (h : op.tryInStep tr s = .ok (out, s')) :
    InStep tr s (op, out) ∧ ConsoleStep s (op, out) s' := by
  unfold ConsoleOp.tryInStep at h
  split at h
  · rename_i hok
    exact ⟨hok, h⟩
  · cases h

/-- A character is put into the full buffer and the reader finds it in the place of the
first one. -/
theorem consoleRbuf_ordered_full : ∃ tr s, RunWhen ConsoleStep InStep Console.init tr s ∧
    (puts tr).length = 257 ∧ gets tr = [67] ∧ (gets tr).Sublist (puts tr) := by
  obtain ⟨tr, s, hrun, htest⟩ := exists_runWhen inStep_of_try
    (.putc 65 :: List.replicate 255 (.putc 66) ++ [.putc 67, .getc]) Console.init
    (fun tr _ => (puts tr).length == 257 && gets tr == [67]) (by decide +kernel)
  rw [Bool.and_eq_true, beq_iff_eq, beq_iff_eq] at htest
  exact ⟨tr, s, hrun, htest.1, htest.2, consoleRbuf_ordered tr s hrun⟩

/-- The reader goes on behind that character: the next one it finds was put before it. -/
theorem consoleRbuf_reorders : ∃ tr s, Run ConsoleStep Console.init tr s ∧
    (puts tr).length = 257 ∧ gets tr = [67, 66] ∧ ¬ (gets tr).Sublist (puts tr) := by
  obtain ⟨tr, s, hrun, htest⟩ := exists_run ConsoleOp.exec consoleStep_of_exec
    (.putc 65 :: List.replicate 255 (.putc 66) ++ [.putc 67, .getc, .getc]) Console.init
    (fun tr _ => (puts tr).length == 257 && gets tr == [67, 66] &&
      !decide ((gets tr).Sublist (puts tr))) (by decide +kernel)
  rw [Bool.and_eq_true, Bool.and_eq_true, beq_iff_eq, beq_iff_eq, Bool.not_eq_true',
    decide_eq_false_iff_not] at htest
  exact ⟨tr, s, hrun, htest.1.1, htest.1.2, htest.2⟩

end Overrun

end AkKernel
