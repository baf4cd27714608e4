import AkKernel.Kernel.Replies

/-!
# Descriptor numbers

`fd_alloc` searches from `fdnext` for an empty slot before it compares `fdnext` with the
capacity, and `fd_close` leaves `fdnext` where it is. `fd_dupfd` searches from the number it
is given, without an end, and keeps the number that it found to itself.
-/

set_option autoImplicit false

namespace AkKernel

open Logs Runs

/-- An index into a descriptor table, and the slots that the table has there and then. -/
structure SlotAccess where
  index : Nat
  slots : Nat
deriving DecidableEq, Repr

def SlotAccess.InTable (a : SlotAccess) : Prop := a.index < a.slots

/-- A function with the slots that it reads or writes. -/
abbrev OnSlots := Logged SlotAccess Fault

namespace OnSlots

def fdAllocLoop (t : Task) (behind : Nat → Option DescrPtr) : Nat → Fd → OnSlots Fd
  | 0, _ => .lift (.error .diverges)
  | fuel + 1, fdnext => do
    match ← .touch ⟨fdnext.toNat, t.fdtbl.length⟩
        (.ok ((t.fdtbl[fdnext.toNat]?).getD (behind fdnext.toNat))) with
    | some _ => fdAllocLoop t behind fuel (fdnext + 1#16)
    | none => pure fdnext

def fdAlloc (p : Proc) (behind : Nat → Option DescrPtr) (a : Allocator) : OnSlots (Fd × Proc) := do
  let fdnext ← fdAllocLoop p.cur behind (2 ^ 16) p.cur.fdnext
  let t ← .lift (fdGrow { p.cur with fdnext := fdnext })
  let p ← .lift (if fdnext < p.cur.fdcap then .ok p else a.realloc p)
  pure (fdnext, p.setTask p.currentTask t)

def fdOpen (p : Proc) (dev : DevPtr) (descr : DescrPtr) (behind : Nat → Option DescrPtr)
    (a : Allocator) : OnSlots (Fd × Proc) := do
  let (fd, p) ← fdAlloc p behind a
  let p := a.call p
  let p := { p with descr := Function.update p.descr descr (some ⟨dev, 1⟩) }
  let p ← .touch ⟨fd.toNat, p.cur.fdtbl.length⟩ (fdSetSlot p fd (some descr))
  pure (fd, p)

end OnSlots

section Erase
variable (p : Proc) (behind : Nat → Option DescrPtr)

theorem res_fdAllocLoop (t : Task) (fuel : Nat) :
    ∀ i, (OnSlots.fdAllocLoop t behind fuel i).res = fdAllocLoop t behind fuel i := by
  induction fuel with
  | zero => exact fun _ => rfl
  | succ fuel ih =>
    intro i
    rw [OnSlots.fdAllocLoop, fdAllocLoop, Logged.res_bind]
    cases hslot : (t.fdtbl[i.toNat]?).getD (behind i.toNat) with
    | none => rfl
    | some d => exact ih _

theorem res_fdAlloc (a : Allocator) : (OnSlots.fdAlloc p behind a).res = fdAlloc p behind a := by
  apply Logged.res_bind_of (res_fdAllocLoop behind p.cur (2 ^ 16) _)
  intro fdnext
  exact Logged.res_bind_of rfl fun _ => Logged.res_bind_of rfl fun _ => rfl

theorem res_fdOpen (dev : DevPtr) (descr : DescrPtr) (a : Allocator) :
    (OnSlots.fdOpen p dev descr behind a).res = fdOpen p dev descr behind a := by
  apply Logged.res_bind_of (res_fdAlloc p behind a)
  intro r
  exact Logged.res_bind_of rfl fun _ => rfl

end Erase

def Task.InUse (t : Task) (i : Nat) : Prop := ∃ d, t.fdtbl[i]? = some (some d)

def Task.openCount (t : Task) : Nat := t.fdtbl.countP Option.isSome

section Search
variable {t : Task} {behind : Nat → Option DescrPtr}

theorem next_toNat {i : Fd} {n : Nat} (h : i.toNat < n) (hn : n < 2 ^ 16) :
    (i + 1#16).toNat = i.toNat + 1 := by
  rw [BitVec.toNat_add, BitVec.toNat_ofNat, Nat.mod_eq_of_lt (by omega)]

/-- With an empty slot at or behind `i` the search finds the first one, and stays in the
table. -/
theorem fdAllocLoop_finds (behind : Nat → Option DescrPtr) (hlen : t.fdtbl.length < 2 ^ 16)
    {fuel : Nat} :
    ∀ {i : Fd}, (∃ j, i.toNat ≤ j ∧ t.fdtbl[j]? = some none) → t.fdtbl.length < i.toNat + fuel →
      ∃ fd, fdAllocLoop t behind fuel i = .ok fd ∧ t.fdtbl[fd.toNat]? = some none ∧
        (∀ k, i.toNat ≤ k → k < fd.toNat → t.InUse k) ∧
        (OnSlots.fdAllocLoop t behind fuel i).Only SlotAccess.InTable := by
  induction fuel with
  | zero =>
    rintro i ⟨j, hij, hj⟩ hfuel
    have hlt := (List.getElem?_eq_some_iff.mp hj).1
    omega
  | succ fuel ih =>
    rintro i ⟨j, hij, hj⟩ hfuel
    have hlt := (List.getElem?_eq_some_iff.mp hj).1
    obtain ⟨slot, hslot⟩ : ∃ slot, t.fdtbl[i.toNat]? = some slot :=
      ⟨_, List.getElem?_eq_getElem (by omega)⟩
    have hin : SlotAccess.InTable ⟨i.toNat, t.fdtbl.length⟩ :=
      (List.getElem?_eq_some_iff.mp hslot).1
    rw [fdAllocLoop, OnSlots.fdAllocLoop, hslot]
    cases slot with
    | none =>
      refine ⟨i, rfl, hslot, fun k h1 h2 => absurd h2 (Nat.not_lt.mpr h1), ?_⟩
      exact Logged.only_bind.mpr ⟨(Logged.only_touch _ _).mpr hin, by
        intro a ha
        cases ha
        exact Logged.only_pure _⟩
    | some d =>
      have hne : j ≠ i.toNat := by
        rintro rfl
        rw [hslot] at hj
        cases hj
      have hnext := next_toNat (i := i) (Nat.lt_of_le_of_lt hij hlt) hlen
      have hfree : ∃ j, (i + 1#16).toNat ≤ j ∧ t.fdtbl[j]? = some none := ⟨j, by omega, hj⟩
      obtain ⟨fd, hfd, hnull, hused, honly⟩ := ih hfree (by omega)
      refine ⟨fd, hfd, hnull, ?_, ?_⟩
      · intro k h1 h2
        by_cases hk : k = i.toNat
        · subst hk
          exact ⟨d, hslot⟩
        · exact hused k (by omega) h2
      · exact Logged.only_bind.mpr ⟨(Logged.only_touch _ _).mpr hin, by
          intro a ha
          cases ha
          exact honly⟩

/-- A search that stays in the table has found an empty slot there. -/
theorem fdAllocLoop_only (hlen : t.fdtbl.length < 2 ^ 16) {fuel : Nat} :
    ∀ {i : Fd}, (OnSlots.fdAllocLoop t behind fuel i).Only SlotAccess.InTable →
      t.fdtbl.length < i.toNat + fuel → 0 < fuel →
      ∃ j, i.toNat ≤ j ∧ t.fdtbl[j]? = some none := by
  induction fuel with
  | zero => exact fun _ _ h => absurd h (Nat.lt_irrefl 0)
  | succ fuel ih =>
    intro i honly hfuel _
    rw [OnSlots.fdAllocLoop, Logged.only_bind, Logged.only_touch] at honly
    obtain ⟨hin, hrest⟩ := honly
    change i.toNat < t.fdtbl.length at hin
    obtain ⟨slot, hslot⟩ : ∃ slot, t.fdtbl[i.toNat]? = some slot :=
      ⟨_, List.getElem?_eq_getElem hin⟩
    cases slot with
    | none => exact ⟨i.toNat, Nat.le_refl _, hslot⟩
    | some d =>
      have hnext := next_toNat hin hlen
      have honly' := hrest (some d) (by rw [hslot]; rfl)
      obtain ⟨j, hj, hfree⟩ := ih honly' (by omega) (by omega)
      exact ⟨j, by omega, hfree⟩

/-- When memory behind the table is zero, the search does not go below its start. -/
theorem fdAllocLoop_ge (hlen : t.fdtbl.length < 2 ^ 16) {fuel : Nat} :
    ∀ {i fd : Fd}, fdAllocLoop t (fun _ => none) fuel i = .ok fd → i.toNat ≤ fd.toNat := by
  induction fuel with
  | zero =>
    intro i fd h
    cases h
  | succ fuel ih =>
    intro i fd h
    rw [fdAllocLoop] at h
    split at h
    · rename_i d hslot
      have hin : i.toNat < t.fdtbl.length := by
        by_contra hge
        rw [List.getElem?_eq_none (by omega)] at hslot
        cases hslot
      have hnext := next_toNat hin hlen
      have hle := ih h
      omega
    · cases Except.ok.inj h
      exact Nat.le_refl _

end Search

/-- `fd_open` uses tables only, and puts a descriptor of the device, with one reference, into a
slot of the caller that was empty; the caller's other slots keep what they have, new ones are
empty, the other tasks keep theirs, and the caller's capacity is the number of its slots. -/
def OpensSafely (p : Proc) (dev : DevPtr) (descr : DescrPtr) (behind : Nat → Option DescrPtr)
    (a : Allocator) : Prop :=
  (OnSlots.fdOpen p dev descr behind a).Only SlotAccess.InTable ∧
  ∃ fd p', fdOpen p dev descr behind a = .ok (fd, p') ∧
    ¬ p.cur.InUse fd.toNat ∧
    (p'.task p.currentTask).fdtbl[fd.toNat]? = some (some descr) ∧
    p'.descr = Function.update p.descr descr (some ⟨dev, 1⟩) ∧
    (∀ i, i ≠ fd.toNat → i < p.cur.fdtbl.length →
      (p'.task p.currentTask).fdtbl[i]? = p.cur.fdtbl[i]?) ∧
    (∀ i, i ≠ fd.toNat → p.cur.fdtbl.length ≤ i → ¬ (p'.task p.currentTask).InUse i) ∧
    (∀ t, t ≠ p.currentTask → p'.task t = p.task t) ∧
    (p'.task p.currentTask).fdtbl.length = (p'.task p.currentTask).fdcap.toNat

section Open
variable {p p' : Proc} {dev : DevPtr} {descr : DescrPtr} {behind : Nat → Option DescrPtr}

theorem Sized.cur_length (h : Sized p) : p.cur.fdtbl.length = p.cur.fdcap.toNat :=
  h.cap _ h.current

theorem Sized.cur_lt (h : Sized p) : p.cur.fdtbl.length < 2 ^ 16 := by
  rw [h.cur_length]
  exact p.cur.fdcap.isLt

theorem Sized.fuel (h : Sized p) : p.cur.fdtbl.length < p.cur.fdnext.toNat + 2 ^ 16 :=
  Nat.lt_of_lt_of_le h.cur_lt (Nat.le_add_left _ _)

theorem fdAlloc_in_table (h : Sized p) (a : Allocator) {fd : Fd}
    (hloop : fdAllocLoop p.cur behind (2 ^ 16) p.cur.fdnext = .ok fd)
    (hin : fd.toNat < p.cur.fdtbl.length) :
    fdAlloc p behind a = .ok (fd, p.setTask p.currentTask { p.cur with fdnext := fd }) := by
  have hcap : fd < p.cur.fdcap := by
    rw [BitVec.lt_def, ← h.cur_length]
    exact hin
  have hgrow : fdGrow { p.cur with fdnext := fd } = .ok { p.cur with fdnext := fd } := if_pos hcap
  simp only [fdAlloc, hloop, hgrow, if_pos hcap, bind, Except.bind]

theorem fdOpen_in_table (h : Sized p) (dev : DevPtr) (descr : DescrPtr) {fd : Fd}
    (hloop : fdAllocLoop p.cur behind (2 ^ 16) p.cur.fdnext = .ok fd)
    (hin : fd.toNat < p.cur.fdtbl.length) :
    fdOpen p dev descr behind = .ok (fd,
      { p.setTask p.currentTask { p.cur with
          fdnext := fd
          fdtbl := p.cur.fdtbl.set fd.toNat (some descr) } with
        descr := Function.update p.descr descr (some ⟨dev, 1⟩) }) := by
  refine fdOpen_ok.mpr ⟨_, fdAlloc_in_table h .home hloop hin, fdSetSlot_ok.mpr ⟨?_, ?_⟩⟩
  · change fd.toNat < (p.setTask p.currentTask _).cur.fdtbl.length
    rw [setTask_cur]
    exact hin
  · simp [Proc.setTask, Proc.cur, Allocator.home]

theorem fdOpen_wrapped_in_table (h : Sized p) (dev : DevPtr) (descr : DescrPtr) {fd : Fd}
    (moves : Bool) (hh : HomeAlloc p)
    (hloop : fdAllocLoop p.cur behind (2 ^ 16) p.cur.fdnext = .ok fd)
    (hin : fd.toNat < p.cur.fdtbl.length) :
    ∃ u, fdOpen p dev descr behind (.wrapped moves) = .ok (fd,
      Proc.withUser { p.setTask p.currentTask { p.cur with
          fdnext := fd
          fdtbl := p.cur.fdtbl.set fd.toNat (some descr) } with
        descr := Function.update p.descr descr (some ⟨dev, 1⟩) } u) := by
  obtain ⟨u, hcall⟩ : ∃ u, allocated (p.setTask p.currentTask { p.cur with fdnext := fd }) =
      (p.setTask p.currentTask { p.cur with fdnext := fd }).withUser u := ⟨_, allocated_of_home hh⟩
  refine ⟨u, fdOpen_ok.mpr ⟨_, fdAlloc_in_table h (.wrapped moves) hloop hin, ?_⟩⟩
  simp only [Allocator.wrapped, hcall]
  refine fdSetSlot_ok.mpr ⟨?_, ?_⟩
  · change fd.toNat < (p.setTask p.currentTask _).cur.fdtbl.length
    rw [setTask_cur]
    exact hin
  · simp [Proc.setTask, Proc.cur, Proc.withUser]

/-- Where the allocator brings in another task, the caller's slot stays empty. -/
theorem not_home_fdOpen (h : Seated p) {moves : Bool} {fd : Fd} (hh : ¬ HomeAlloc p)
    (hloop : fdAllocLoop p.cur behind (2 ^ 16) p.cur.fdnext = .ok fd)
    (hin : fd.toNat < p.cur.fdtbl.length)
    (ho : fdOpen p dev descr behind (.wrapped moves) = .ok (fd, p')) :
    (p'.task p.currentTask).fdtbl = p.cur.fdtbl := by
  obtain ⟨hk, u, hu⟩ := not_homeAlloc_iff.mp hh
  have hne : p.currentTask ≠ u := by
    rw [hk]
    exact (h.stored u hu).2.symm
  obtain ⟨q, ha, hset⟩ := fdOpen_ok.mp ho
  rw [fdAlloc_in_table h.toSized _ hloop hin] at ha
  cases Except.ok.inj ha
  have hcall : allocated (p.setTask p.currentTask { p.cur with fdnext := fd }) = _ :=
    allocated_of_stored hk hu
  simp only [Allocator.wrapped, hcall] at hset
  rw [(fdSetSlot_ok.mp hset).2]
  simp [Proc.setTask, hne]

theorem opensSafely_iff (h : Seated p) {moves : Bool} :
    OpensSafely p dev descr behind (.wrapped moves) ↔ HomeAlloc p ∧
      ∃ i, p.cur.fdnext.toNat ≤ i ∧ i < p.cur.fdcap.toNat ∧ p.cur.fdtbl[i]? = some none := by
  have hsized := h.toSized
  have hfuel := hsized.fuel
  constructor
  · rintro ⟨honly, fd, p', hopen, hfree, hslot, -⟩
    rw [OnSlots.fdOpen, Logged.only_bind, OnSlots.fdAlloc, Logged.only_bind] at honly
    obtain ⟨i, hi, hnull⟩ := fdAllocLoop_only hsized.cur_lt honly.1.1 hfuel (Nat.two_pow_pos 16)
    refine ⟨?_, i, hi, hsized.cur_length ▸ (List.getElem?_eq_some_iff.mp hnull).1, hnull⟩
    by_contra hh
    obtain ⟨fd', hloop, hnull', -, -⟩ :=
      fdAllocLoop_finds behind hsized.cur_lt ⟨i, hi, hnull⟩ hfuel
    have hin := (List.getElem?_eq_some_iff.mp hnull').1
    obtain ⟨q, ha, -⟩ := fdOpen_ok.mp hopen
    rw [fdAlloc_in_table hsized _ hloop hin] at ha
    cases Except.ok.inj ha
    rw [not_home_fdOpen h hh hloop hin hopen, hnull'] at hslot
    cases hslot
  · rintro ⟨hh, i, hi, -, hnull⟩
    obtain ⟨fd, hloop, hnull, -, honly⟩ :=
      fdAllocLoop_finds behind hsized.cur_lt ⟨i, hi, hnull⟩ hfuel
    have hin := (List.getElem?_eq_some_iff.mp hnull).1
    have halloc := fdAlloc_in_table hsized (.wrapped moves) hloop hin
    obtain ⟨u, hopen⟩ := fdOpen_wrapped_in_table hsized dev descr moves hh hloop hin
    have hcall : allocated (p.setTask p.currentTask { p.cur with fdnext := fd }) = _ :=
      allocated_of_home hh
    refine ⟨?_, fd, _, hopen, ?_, ?_, rfl, ?_, ?_, ?_, ?_⟩
    · rw [← res_fdAlloc] at halloc
      rw [OnSlots.fdOpen, Logged.only_bind_ok halloc, OnSlots.fdAlloc, Logged.only_bind]
      refine ⟨⟨honly, ?_⟩, ?_⟩
      · intro fdnext _
        refine Logged.only_bind.mpr ⟨Logged.only_lift _, fun _ _ => ?_⟩
        exact Logged.only_bind.mpr ⟨Logged.only_lift _, fun _ _ => Logged.only_pure _⟩
      · refine Logged.only_bind.mpr ⟨(Logged.only_touch _ _).mpr ?_, fun _ _ => Logged.only_pure _⟩
        change fd.toNat < (allocated (p.setTask p.currentTask _)).cur.fdtbl.length
        rw [hcall]
        change fd.toNat < (p.setTask p.currentTask _).cur.fdtbl.length
        rw [setTask_cur]
        exact hin
    · rintro ⟨d, hd⟩
      rw [hnull] at hd
      cases hd
    · change (Function.update p.task p.currentTask _ p.currentTask).fdtbl[fd.toNat]? = _
      rw [Function.update_self]
      exact List.getElem?_set_self hin
    · intro k hk _
      change (Function.update p.task p.currentTask _ p.currentTask).fdtbl[k]? = _
      rw [Function.update_self]
      exact List.getElem?_set_ne (Ne.symm hk)
    · rintro k - hk ⟨d, hd⟩
      change (Function.update p.task p.currentTask _ p.currentTask).fdtbl[k]? = _ at hd
      rw [Function.update_self] at hd
      have hlt := (List.getElem?_eq_some_iff.mp hd).1
      rw [List.length_set] at hlt
      omega
    · intro t ht
      simp [Proc.setTask, Proc.withUser, ht]
    · change (Function.update p.task p.currentTask _ p.currentTask).fdtbl.length =
        (Function.update p.task p.currentTask _ p.currentTask).fdcap.toNat
      rw [Function.update_self, List.length_set]
      exact hsized.cur_length

end Open

section Runs
variable {p p' : Proc} {tr : List (FdOp × Int)} {kernEnd pgd : Word}

theorem run_sized (hrun : Run FdStep (bootProc kernEnd pgd) tr p) : Sized p :=
  Run.invariant (I := fun _ p => Sized p) (bootProc_refs kernEnd pgd).sized
    (fun _ _ _ _ h hs => h.step hs) hrun

theorem run_seated (hrun : Run WrapFdStep (bootProc kernEnd pgd) tr p) : Seated p := by
  have hboot : UserStored (bootProc kernEnd pgd) := fun _ hu => nomatch hu
  exact Run.invariant (I := fun _ p => Seated p) ⟨(bootProc_refs kernEnd pgd).sized, hboot⟩
    (fun _ _ _ _ h hs => h.step hs) hrun

end Runs

/-- After any calls on descriptors, `fd_open` is safe exactly when the allocator returns to its
caller and a slot of the table is empty at or behind `fdnext`. -/
theorem fdOpen_safe_iff (kernEnd pgd : Word) (tr : List (FdOp × Int)) (p : Proc)
    (hrun : Run WrapFdStep (bootProc kernEnd pgd) tr p) (dev : DevPtr) (descr : DescrPtr)
    (behind : Nat → Option DescrPtr) (moves : Bool) :
    OpensSafely p dev descr behind (.wrapped moves) ↔ HomeAlloc p ∧
      ∃ i, p.cur.fdnext.toNat ≤ i ∧ i < p.cur.fdcap.toNat ∧ p.cur.fdtbl[i]? = some none :=
  opensSafely_iff (run_seated hrun)

/-- A device is opened and closed, and the task forks: the clone opens another one. -/
theorem fdOpen_safe_iff_clone : ∃ tr p, Run WrapFdStep (bootProc 0 0) tr p ∧
    p.currentTask = 1 ∧ OpensSafely p 9 6 (fun _ => none) (.wrapped true) := by
  obtain ⟨tr, p, hrun, htest⟩ := exists_run FdOp.tryWrapped wrapFdStep_of_tryWrapped
    [.openDev 8 5 fun _ => none, .close 0, .fork 0, .enter 1] (bootProc 0 0)
    (fun _ p => p.currentTask == 1 && p.cur.fdnext == 0 && p.cur.fdcap == 16 &&
      p.cur.fdtbl[0]? == some none) (by decide +kernel)
  simp only [Bool.and_eq_true, beq_iff_eq] at htest
  obtain ⟨⟨⟨htask, hnext⟩, hcap⟩, hfree⟩ := htest
  have hhome : HomeAlloc p := .inl (by rw [htask]; decide)
  refine ⟨tr, p, hrun, htask,
    (fdOpen_safe_iff 0 0 tr p hrun 9 6 _ true).mpr ⟨hhome, 0, ?_, ?_, hfree⟩⟩
  · rw [hnext]
    decide
  · rw [hcap]
    decide

/-- Sixteen devices are opened, numbers 0 to 15: the next `fd_open` reads behind the table,
whatever it finds there. -/
theorem fdOpen_unsafe : ∃ tr p, Run WrapFdStep (bootProc 0 0) tr p ∧ p.cur.openCount = 16 ∧
    ∀ dev descr behind moves,
      ¬ (OnSlots.fdOpen p dev descr behind (.wrapped moves)).Only SlotAccess.InTable := by
  obtain ⟨tr, p, hrun, htest⟩ := exists_run FdOp.tryWrapped wrapFdStep_of_tryWrapped
    ((List.range 16).map fun i => .openDev 8 i fun _ => none) (bootProc 0 0)
    (fun _ p => p.cur.openCount == 16 && p.cur.fdtbl.length == 16 &&
      (List.range 16).all fun i => (p.cur.fdtbl[i]?).join.isSome) (by decide +kernel)
  simp only [Bool.and_eq_true, beq_iff_eq, List.all_eq_true, List.mem_range] at htest
  obtain ⟨⟨hcount, hlen⟩, hall⟩ := htest
  refine ⟨tr, p, hrun, hcount, ?_⟩
  intro dev descr behind moves honly
  rw [OnSlots.fdOpen, Logged.only_bind, OnSlots.fdAlloc, Logged.only_bind] at honly
  obtain ⟨i, -, hfree⟩ := fdAllocLoop_only (run_seated hrun).toSized.cur_lt honly.1.1
    (by rw [hlen]; omega) (Nat.two_pow_pos 16)
  have hi := (List.getElem?_eq_some_iff.mp hfree).1
  have hused := hall i (hlen ▸ hi)
  rw [hfree] at hused
  cases hused

/-- `fd_open` returns the lowest number that is not in use, whatever is behind the table;
then at least one descriptor more than that number is open. -/
def LowestFirst (p : Proc) : Prop :=
  ∀ dev descr behind, ∃ fd p', fdOpen p dev descr behind = .ok (fd, p') ∧
    ¬ p.cur.InUse fd.toNat ∧ (∀ i < fd.toNat, p.cur.InUse i) ∧ fd.toNat < p'.cur.openCount

section Lowest
variable {p p' : Proc} {t : Task} {tr : List (FdOp × Int)} {kernEnd pgd : Word}

theorem openCount_ge {n : Nat} (h : ∀ i < n, t.InUse i) : n ≤ t.openCount := by
  have hlen : n ≤ t.fdtbl.length := by
    cases n with
    | zero => exact Nat.zero_le _
    | succ n =>
      obtain ⟨d, hd⟩ := h n (Nat.lt_succ_self n)
      exact (List.getElem?_eq_some_iff.mp hd).1
  have htake : (t.fdtbl.take n).countP Option.isSome = n := by
    rw [List.countP_eq_length.mpr, List.length_take, Nat.min_eq_left hlen]
    intro slot hslot
    obtain ⟨i, hi, hget⟩ := List.mem_iff_getElem.mp hslot
    rw [List.length_take] at hi
    obtain ⟨d, hd⟩ := h i (by omega)
    rw [List.getElem_take] at hget
    rw [List.getElem?_eq_getElem (by omega), hget] at hd
    rw [Option.some.inj hd]
    rfl
  have hsplit : t.openCount =
      (t.fdtbl.take n).countP Option.isSome + (t.fdtbl.drop n).countP Option.isSome := by
    rw [← List.countP_append, List.take_append_drop]
    rfl
  omega

theorem exists_free (h : t.openCount < t.fdtbl.length) : ∃ i : Nat, t.fdtbl[i]? = some none := by
  by_contra hnone
  have hall : ∀ slot ∈ t.fdtbl, Option.isSome slot = true := by
    intro slot hslot
    cases slot with
    | none => exact absurd (List.mem_iff_getElem?.mp hslot) hnone
    | some d => rfl
  have hcount : t.openCount = t.fdtbl.length := List.countP_eq_length.mpr hall
  omega

theorem fdGrow_length {v : Task} (h : fdGrow t = .ok v) : t.fdtbl.length ≤ v.fdtbl.length := by
  unfold fdGrow at h
  split at h
  · cases Except.ok.inj h
    exact Nat.le_refl _
  split at h
  · cases h
  · cases Except.ok.inj h
    simp

/-- Every task has at least the slots that `fdio_tbl_init` made. -/
def Roomy (p : Proc) : Prop := ∀ t < p.ntasks, 16 ≤ (p.task t).fdtbl.length

theorem Roomy.setTask (h : Roomy p) (descr : DescrPtr → Option Fdescr) {v : Task}
    (hv : 16 ≤ v.fdtbl.length) : Roomy { p.setTask p.currentTask v with descr := descr } := by
  intro t ht
  by_cases htc : t = p.currentTask
  · subst htc
    simpa [Proc.setTask] using hv
  · simpa [Proc.setTask, htc] using h t ht

theorem Roomy.fdSetSlot (h : Roomy p) (hcur : p.currentTask < p.ntasks) {fd : Fd}
    {slot : Option DescrPtr} (hs : fdSetSlot p fd slot = .ok p') : Roomy p' := by
  rw [(fdSetSlot_ok.mp hs).2]
  apply h.setTask p.descr
  rw [List.length_set]
  exact h _ hcur

theorem Roomy.forked (h : Roomy p) (hsized : Sized p) (pgd : Word)
    (list : LinkedRing.Links TaskPtr) (descr : DescrPtr → Option Fdescr) :
    Roomy (forked p pgd list descr) := by
  intro t ht
  have hlen := h _ hsized.current
  rcases Nat.lt_succ_iff_lt_or_eq.mp ht with hlt | he
  · have hne : t ≠ p.ntasks := Nat.ne_of_lt hlt
    by_cases htc : t = p.currentTask
    · subst htc
      simpa [AkKernel.forked, hne, Proc.cur] using hlen
    · simpa [AkKernel.forked, hne, htc] using h t hlt
  · subst he
    have hcap := hsized.cur_length
    simp only [AkKernel.forked, Function.update_self, cloneOf]
    rw [List.length_take, hcap, Nat.min_self, ← hcap]
    exact hlen

theorem Roomy.step (h : Roomy p) (hsized : Sized p) {lbl : FdOp × Int} (hs : FdStep p lbl p') :
    Roomy p' := by
  cases hs.effect with
  | same => exact h
  | enter e _ =>
    intro t ht
    have hn : (taskEnter p e).ntasks = p.ntasks := by rw [taskEnter_eq]
    rw [hn] at ht
    rw [(taskEnter_fdtbl p e t).1]
    exact h t ht
  | alloc q _ fd behind descr slot ha hset =>
    obtain ⟨v, -, hv, rfl⟩ := fdAlloc_home_ok ha
    have hlen := fdGrow_length hv
    exact (h.setTask _ ((h _ hsized.current).trans hlen)).fdSetSlot hsized.current hset
  | slot q _ fd descr slot hq hset =>
    have hqd : q = { p with descr := descr } := hq.elim id id
    subst hqd
    exact Roomy.fdSetSlot (p := { p with descr := descr }) h hsized.current hset
  | fork pgd list descr => exact h.forked hsized pgd list descr

theorem run_roomy (hrun : Run FdStep (bootProc kernEnd pgd) tr p) : Roomy p := by
  have hboot : Roomy (bootProc kernEnd pgd) := by
    intro t ht
    have h0 : t = kernelTask := Nat.lt_one_iff.mp ht
    rw [h0]
    exact Nat.le_refl 16
  have hinv := Run.invariant (I := fun _ p => Sized p ∧ Roomy p)
    ⟨(bootProc_refs kernEnd pgd).sized, hboot⟩
    (fun _ _ _ _ h hs => ⟨h.1.step hs, h.2.step h.1 hs⟩) hrun
  exact hinv.2

end Lowest

/-- After any calls on descriptors that leave at most 15 open in the running task,
`fd_open` gives the lowest number exactly when all numbers below `fdnext`, which the last
`fd_open` gave, are in use. -/
theorem fdOpen_lowest_iff (kernEnd pgd : Word) (tr : List (FdOp × Int)) (p : Proc)
    (hrun : Run FdStep (bootProc kernEnd pgd) tr p) (hfew : p.cur.openCount ≤ 15) :
    LowestFirst p ↔ ∀ i < p.cur.fdnext.toNat, p.cur.InUse i := by
  have hsized := run_sized hrun
  have hlen := hsized.cur_lt
  have hroom : 16 ≤ p.cur.fdtbl.length := run_roomy hrun _ hsized.current
  constructor
  · intro h i hi
    obtain ⟨fd, p', hopen, -, hbelow, -⟩ := h 0 0 fun _ => none
    obtain ⟨q, halloc, -⟩ := fdOpen_ok.mp hopen
    obtain ⟨v, hloop, -, -⟩ := fdAlloc_home_ok halloc
    exact hbelow i (Nat.lt_of_lt_of_le hi (fdAllocLoop_ge hlen hloop))
  · intro hused dev descr behind
    obtain ⟨j, hj⟩ : ∃ j, p.cur.fdtbl[j]? = some none := exists_free (by omega)
    have hle : p.cur.fdnext.toNat ≤ j := by
      by_contra hlt
      obtain ⟨d, hd⟩ := hused j (by omega)
      rw [hj] at hd
      cases hd
    obtain ⟨fd, hloop, hnull, hskip, -⟩ :=
      fdAllocLoop_finds behind hlen ⟨j, hle, hj⟩ hsized.fuel
    have hin := (List.getElem?_eq_some_iff.mp hnull).1
    have hbelow : ∀ i < fd.toNat, p.cur.InUse i := by
      intro i hi
      by_cases hnext : i < p.cur.fdnext.toNat
      · exact hused i hnext
      · exact hskip i (by omega) hi
    refine ⟨fd, _, fdOpen_in_table hsized dev descr hloop hin, ?_, hbelow, ?_⟩
    · rintro ⟨d, hd⟩
      rw [hnull] at hd
      cases hd
    · change fd.toNat < (p.setTask p.currentTask _).cur.openCount
      rw [setTask_cur]
      apply openCount_ge (n := fd.toNat + 1)
      intro i hi
      by_cases hfd : i = fd.toNat
      · subst hfd
        exact ⟨descr, List.getElem?_set_self hin⟩
      · obtain ⟨d, hd⟩ := hbelow i (by omega)
        refine ⟨d, ?_⟩
        rw [List.getElem?_set_ne (Ne.symm hfd)]
        exact hd

/-- Two devices are opened and the second is closed: its number is given again. -/
theorem fdOpen_lowest_iff_two : ∃ tr p, Run FdStep (bootProc 0 0) tr p ∧ LowestFirst p := by
  obtain ⟨tr, p, hrun, htest⟩ := exists_run FdOp.tryExec fdStep_of_tryExec
    [.openDev 8 5 fun _ => none, .openDev 9 6 fun _ => none, .close 1] (bootProc 0 0)
    (fun _ p => p.cur.openCount == 1 && p.cur.fdnext == 1 && p.cur.fdtbl[0]? == some (some 5))
    (by decide +kernel)
  simp only [Bool.and_eq_true, beq_iff_eq] at htest
  obtain ⟨⟨hcount, hnext⟩, hslot⟩ := htest
  refine ⟨tr, p, hrun, (fdOpen_lowest_iff 0 0 tr p hrun (by omega)).mpr ?_⟩
  intro i hi
  rw [hnext] at hi
  have h0 : i = 0 := Nat.lt_one_iff.mp hi
  exact ⟨5, h0 ▸ hslot⟩

/-- Descriptors 0 and 1 are opened and 0 is closed: the next one is number 2, though only
two are open then. -/
theorem fdOpen_not_lowest : ∃ tr p p', Run FdStep (bootProc 0 0) tr p ∧
    tr.map Prod.snd = [0, 1, 0] ∧ ¬ p.cur.InUse 0 ∧
    FdStep p (.openDev 8 7 fun _ => none, 2) p' ∧ p'.cur.openCount = 2 := by
  obtain ⟨tr, p, hrun, htest⟩ := exists_run FdOp.tryExec fdStep_of_tryExec
    [.openDev 8 5 fun _ => none, .openDev 9 6 fun _ => none, .close 0] (bootProc 0 0)
    (fun tr p => tr.map Prod.snd == [0, 1, 0] && p.cur.fdtbl[0]? == some none &&
      passes ((FdOp.openDev 8 7 fun _ => none).tryExec p) fun r p' =>
        r == 2 && p'.cur.openCount == 2) (by decide +kernel)
  simp only [Bool.and_eq_true, beq_iff_eq] at htest
  obtain ⟨⟨hrets, hfree⟩, hpass⟩ := htest
  obtain ⟨r, p', hopen, hout⟩ := passes_iff.mp hpass
  simp only [Bool.and_eq_true, beq_iff_eq] at hout
  obtain ⟨rfl, hcount⟩ := hout
  refine ⟨tr, p, p', hrun, hrets, ?_, fdStep_of_tryExec _ _ _ _ hopen, hcount⟩
  rintro ⟨d, hd⟩
  rw [hfree] at hd
  cases hd

/-- `fcntl(src, F_DUPFD, arg)` returns the lowest number from `arg` on that is not in use and
makes its slot, in a table that may have grown, refer to what the slot of `src` refers to;
where `src` is not open it fails and changes nothing. -/
def Duplicates (s : Files) (src : Fd) (arg : Word) : Prop :=
  match s.proc.cur.fdtbl[src.toNat]? with
  | some (some d) => ∃ n s', Reply.sysFcntl src fDupfd arg s = .ok (.done n, s') ∧
      arg.toNat ≤ n.toNat ∧ ¬ s.proc.cur.InUse n.toNat ∧
      (∀ i, arg.toNat ≤ i → i < n.toNat → s.proc.cur.InUse i) ∧
      s'.proc.cur.fdtbl[n.toNat]? = some (some d) ∧
      (∀ i, i ≠ n.toNat → (s'.proc.cur.InUse i ↔ s.proc.cur.InUse i)) ∧
      (∀ i, i ≠ n.toNat → i < s.proc.cur.fdtbl.length →
        s'.proc.cur.fdtbl[i]? = s.proc.cur.fdtbl[i]?) ∧
      ∀ t, t ≠ s.proc.currentTask → s'.proc.task t = s.proc.task t
  | _ => ∃ errno, Reply.sysFcntl src fDupfd arg s = .ok (.failed (-1#32) errno, s)

section Duplicate
variable {s : Files} {src : Fd} {arg : Word} {d : DescrPtr}

/-- The number that `fd_dupfd` found does not come back. -/
theorem sysFcntl_dup_done {n : Word} {s' : Files}
    (h : Reply.sysFcntl src fDupfd arg s = .ok (.done n, s')) : n = 0#32 := by
  unfold Reply.sysFcntl at h
  rw [if_pos rfl] at h
  obtain ⟨⟨r, p⟩, _, hret⟩ := bind_eq_ok.mp h
  dsimp only at hret
  split at hret
  · cases hret
  · cases Except.ok.inj hret
    rfl

theorem sysFcntl_dup_closed (h : s.proc.cur.fdtbl[src.toNat]? = some none) :
    Reply.sysFcntl src fDupfd arg s = .ok (.failed (-1#32) (some .ebadf), s) := by
  have hdup : fdDupfd s.proc src (arg.setWidth 16) = .ok (-1, s.proc) := by
    simp only [fdDupfd, fdLookup_ok.mpr h, bind, Except.bind]
  simp only [Reply.sysFcntl, hdup, bind, Except.bind, if_true]

/-- The search for a number from 0 on ends at once when slot 0 is empty. -/
theorem sysFcntl_dup_zero (hsrc : s.proc.cur.fdtbl[src.toNat]? = some (some d))
    (hzero : s.proc.cur.fdtbl[0]? = some none) :
    Reply.sysFcntl src fDupfd 0#32 s = .ok (.done 0#32, { s with
      proc := s.proc.setTask s.proc.currentTask { s.proc.cur with
        fdtbl := s.proc.cur.fdtbl.set 0 (some d) } }) := by
  have hloop : fdDupfdLoop s.proc (2 ^ 16) 0#16 = .ok 0#16 := by
    change fdDupfdLoop s.proc (65535 + 1) 0#16 = .ok 0#16
    rw [fdDupfdLoop, fdLookup_ok.mpr hzero]
    rfl
  have hset : fdSetSlot s.proc 0#16 (some d) = .ok (s.proc.setTask s.proc.currentTask
      { s.proc.cur with fdtbl := s.proc.cur.fdtbl.set 0 (some d) }) :=
    if_pos (List.getElem?_eq_some_iff.mp hzero).1
  have hdup : fdDupfd s.proc src 0#16 = .ok (0, s.proc.setTask s.proc.currentTask
      { s.proc.cur with fdtbl := s.proc.cur.fdtbl.set 0 (some d) }) := by
    simp only [fdDupfd, fdLookup_ok.mpr hsrc, hloop, hset, bind, Except.bind]
  have hsame : (0#32 : Word).setWidth 16 = 0#16 := rfl
  simp only [Reply.sysFcntl, hsame, hdup, bind, Except.bind, if_true]
  rfl

end Duplicate

/-- For every table, descriptor and number: `F_DUPFD` does what it is for exactly when the
descriptor's slot is empty, or it is open, the number is 0 and slot 0 is empty. -/
theorem sysFcntl_dupfd_iff (s : Files) (src : Fd) (arg : Word) :
    Duplicates s src arg ↔ s.proc.cur.fdtbl[src.toNat]? = some none ∨
      (s.proc.cur.InUse src.toNat ∧ arg = 0#32 ∧ s.proc.cur.fdtbl[0]? = some none) := by
  unfold Duplicates
  match hsrc : s.proc.cur.fdtbl[src.toNat]? with
  | none =>
    have herr : ∀ reply, Reply.sysFcntl src fDupfd arg s ≠ .ok reply := by
      intro reply h
      obtain ⟨_, hdup, _⟩ := bind_eq_ok.mp h
      obtain ⟨slot, hslot, _⟩ := bind_eq_ok.mp hdup
      rw [fdLookup_ok, hsrc] at hslot
      cases hslot
    constructor
    · rintro ⟨errno, h⟩
      exact absurd h (herr _)
    · rintro (h | ⟨⟨d, hd⟩, -⟩)
      · cases h
      · rw [hsrc] at hd
        cases hd
  | some none => exact ⟨fun _ => Or.inl rfl, fun _ => ⟨_, sysFcntl_dup_closed hsrc⟩⟩
  | some (some d) =>
    dsimp only
    constructor
    · rintro ⟨n, s', hcall, hle, hnew, -, hslot, -, -, -⟩
      have hn := sysFcntl_dup_done hcall
      subst hn
      have harg : arg = 0#32 := BitVec.eq_of_toNat_eq (Nat.le_zero.mp hle)
      refine Or.inr ⟨⟨d, hsrc⟩, harg, ?_⟩
      have hlen := (List.getElem?_eq_some_iff.mp hsrc).1
      cases hzero : s.proc.cur.fdtbl[0]? with
      | none =>
        rw [List.getElem?_eq_none_iff] at hzero
        omega
      | some slot =>
        cases slot with
        | none => rfl
        | some e => exact absurd ⟨e, hzero⟩ hnew
    · rintro (h | ⟨-, rfl, hzero⟩)
      · cases h
      · have hlen := (List.getElem?_eq_some_iff.mp hzero).1
        have hcur : ∀ i : Nat, i ≠ 0 → (s.proc.setTask s.proc.currentTask { s.proc.cur with
            fdtbl := s.proc.cur.fdtbl.set 0 (some d) }).cur.fdtbl[i]? =
              s.proc.cur.fdtbl[i]? := by
          intro i hi
          rw [setTask_cur]
          exact List.getElem?_set_ne (Ne.symm hi)
        refine ⟨_, _, sysFcntl_dup_zero hsrc hzero, Nat.le_refl 0, ?_, ?_, ?_, ?_, ?_, ?_⟩
        · rintro ⟨e, he⟩
          rw [show (0#32 : Word).toNat = 0 from rfl, hzero] at he
          cases he
        · intro i _ hi
          exact absurd hi (Nat.not_lt_zero i)
        · dsimp only
          rw [setTask_cur]
          exact List.getElem?_set_self hlen
        · intro i hi
          simp only [Task.InUse, hcur i hi]
        · intro i hi _
          exact hcur i hi
        · intro t ht
          simp [Proc.setTask, ht]

/-- With descriptor 0 open, `F_DUPFD` from 10 on returns 0, and slot 10 has the copy. -/
theorem sysFcntl_dupfd_zero : ∃ s : Files, s.proc.cur.fdtbl[0]? = some (some 5) ∧
    (∃ s', Reply.sysFcntl 0#16 fDupfd 10#32 s = .ok (.done 0#32, s') ∧
      s'.proc.cur.fdtbl[10]? = some (some 5)) ∧
    ¬ Duplicates s 0#16 10#32 := by
  let p : Proc := (bootProc 0 0).setTask kernelTask { (bootProc 0 0).cur with
    fdtbl := (bootProc 0 0).cur.fdtbl.set 0 (some 5) }
  let s : Files := { oneFile .dir .chr fun _ => 0 with proc := p }
  have hslot : s.proc.cur.fdtbl[0]? = some (some 5) := by decide +kernel
  have hcall : passes (Reply.sysFcntl 0#16 fDupfd 10#32 s) (fun r s' =>
      r == .done 0#32 && s'.proc.cur.fdtbl[10]? == some (some 5)) = true := by decide +kernel
  obtain ⟨r, s', hr, hout⟩ := passes_iff.mp hcall
  simp only [Bool.and_eq_true, beq_iff_eq] at hout
  obtain ⟨rfl, hcopy⟩ := hout
  refine ⟨s, hslot, ⟨s', hr, hcopy⟩, ?_⟩
  intro h
  unfold Duplicates at h
  rw [show (0#16 : Fd).toNat = 0 from rfl, hslot] at h
  obtain ⟨n, s₁, hn, hle, -⟩ := h
  rw [sysFcntl_dup_done hn] at hle
  revert hle
  decide

end AkKernel
