import AkKernel.Kernel.Mappings

/-!
# Page faults in the kernel's range

The handler copies the page of `KernelTask` into the directory of `UserTask`. The
access is retried under the directory in CR3, which may be another one.
-/

set_option autoImplicit false

namespace AkKernel

open Programs Runs

/-- The present entry that ends the walk for `addr` under directory `d`. -/
def entryAt (c : Phys) (d : Nat) (addr : Word) : Option Word :=
  let e := c.mem d (addrPde addr)
  if ¬ Present e then none
  else if Extended e then some e
  else
    let p := c.mem (frameNo e) (addrPte addr)
    if Present p then some p else none

/-- An access in the kernel's range faults although `KernelTask` has the page. -/
structure KernelFault (s : Kern) (a : Word) : Prop where
  range : pgIsKernel a = true
  mapped : translate s.mem.1 (frameNo (s.proc.task kernelTask).pgd) a ≠ none
  faults : translate s.mem.1 (frameNo s.proc.cr3) a = none

/-- The directory in CR3 has the page that `KernelTask` has, and no task has any other
page changed. -/
structure Resolved (s s' : Kern) (a : Word) : Prop where
  mapped : ∃ e, entryAt s'.mem.1 (frameNo s'.proc.cr3) a = some e ∧
    entryAt s'.mem.1 (frameNo (s'.proc.task kernelTask).pgd) a = some e
  others : ∀ t, t < s.proc.ntasks → ∀ b, pgAddr b ≠ pgAddr a →
    translate s'.mem.1 (frameNo (s'.proc.task t).pgd) b =
      translate s.mem.1 (frameNo (s.proc.task t).pgd) b

/-- What is written for slot `i` of directory `u` is seen under directory `d`: they are
the same, with a frame left for a table if it has none, or they share the table. -/
def SeenUnder (c : Phys) (d u i : Nat) : Prop :=
  (u = d ∧ (c.mem d i = nilPgEnt → c.free.Nonempty)) ∨
    (c.mem u i ≠ nilPgEnt ∧ c.mem d i ≠ nilPgEnt ∧ frameNo (c.mem u i) = frameNo (c.mem d i))

section Walk
variable {c c' : Phys} {ds : Set Nat} {d k u : Nat} {a e : Word} {cur : Task}

theorem entryAt_ne_none (h : entryAt c d a = some e) : translate c d a ≠ none := by
  unfold entryAt at h
  unfold translate
  dsimp only at h ⊢
  split at h
  · cases h
  rename_i hp
  rw [if_neg hp]
  split at h
  · rename_i hx
    rw [if_pos hx]
    exact Option.some_ne_none _
  rename_i hx
  rw [if_neg hx]
  split at h
  · rename_i hpp
    rw [if_pos hpp]
    exact Option.some_ne_none _
  · cases h

theorem entryAt_table (hp : Present (c.mem d (addrPde a))) (hx : ¬ Extended (c.mem d (addrPde a)))
    (he : c.mem (frameNo (c.mem d (addrPde a))) (addrPte a) = e) (hpe : Present e) :
    entryAt c d a = some e := by
  unfold entryAt
  dsimp only
  rw [if_neg (not_not.mpr hp), if_neg hx, he, if_pos hpe]

theorem translate_extended (hp : Present (c.mem d (addrPde a)))
    (hx : Extended (c.mem d (addrPde a))) : translate c d a ≠ none := by
  unfold translate
  dsimp only
  rw [if_neg (not_not.mpr hp), if_pos hx]
  exact Option.some_ne_none _

/-- The page of directory `k` that a fault under directory `d` is about. There is no
4 MB entry on the way to it, as all directories have those in common. -/
theorem fault_page (h : Mapped c ds) (hk : k ∈ ds) (hd : d ∈ ds) (hmapped : translate c k a ≠ none)
    (hfaults : translate c d a = none) :
    Present (c.mem k (addrPde a)) ∧ ¬ Extended (c.mem k (addrPde a)) ∧
      Present (c.mem (frameNo (c.mem k (addrPde a))) (addrPte a)) := by
  have hp : Present (c.mem k (addrPde a)) := by
    by_contra hp
    exact hmapped (if_pos hp)
  have hx : ¬ Extended (c.mem k (addrPde a)) := by
    intro hx
    have hsame := (h.wide k hk _ (addrPde_lt a) hx).2 d hd
    rw [← hsame] at hp hx
    exact translate_extended hp hx hfaults
  refine ⟨hp, hx, ?_⟩
  by_contra hpe
  apply hmapped
  unfold translate
  dsimp only
  rw [if_neg (not_not.mpr hp), if_neg hx, if_neg hpe]

/-- The directory that faults has no 4 MB entry there, and not the table of `k`. -/
theorem fault_table (h : Mapped c ds) (hk : k ∈ ds) (hd : d ∈ ds)
    (hmapped : translate c k a ≠ none) (hfaults : translate c d a = none) :
    ¬ Extended (c.mem d (addrPde a)) ∧ (c.mem d (addrPde a) ≠ nilPgEnt →
      frameNo (c.mem k (addrPde a)) ≠ frameNo (c.mem d (addrPde a))) := by
  obtain ⟨-, hxk, hpe⟩ := fault_page h hk hd hmapped hfaults
  have hx : ¬ Extended (c.mem d (addrPde a)) := by
    intro hx
    rw [(h.wide d hd _ (addrPde_lt a) hx).2 k hk] at hxk
    exact hxk hx
  refine ⟨hx, ?_⟩
  intro hne heq
  rw [heq] at hpe
  have hp := h.present d hd _ (addrPde_lt a) hne
  exact entryAt_ne_none (entryAt_table hp hx rfl hpe) hfaults

/-- An edit for `a` in another table, or with the same entry, leaves the page of `k`. -/
theorem fault_kernel_kept (h : Mapped c ds) (hk : k ∈ ds) (hu : u ∈ ds)
    (hp : Present (c.mem k (addrPde a))) (hx : ¬ Extended (c.mem k (addrPde a)))
    (hpe : Present (c.mem (frameNo (c.mem k (addrPde a))) (addrPte a)))
    (hed : Edited (baseFlags cur) u (addrPde a) (addrPte a) e c c')
    (hsame : c.mem u (addrPde a) ≠ nilPgEnt →
      frameNo (c.mem k (addrPde a)) = frameNo (c.mem u (addrPde a)) →
      c.mem (frameNo (c.mem k (addrPde a))) (addrPte a) = e) :
    entryAt c' k a = some (c.mem (frameNo (c.mem k (addrPde a))) (addrPte a)) := by
  have hslot : c'.mem k (addrPde a) = c.mem k (addrPde a) := by
    rcases h.edited_slot (k := addrPde a) hu (addrPde_lt a) hed hk with ⟨hku, -, hnil, -⟩ | hs
    · rw [hku, hnil] at hp
      exact absurd hp not_present_nil
    · exact hs
  have hpage := h.edited_table hu hed (addrPte a) hk (addrPde_lt a) hp.ne_nil
    (fun hne heq _ => hsame hne heq)
  apply entryAt_table
  · rw [hslot]
    exact hp
  · rw [hslot]
    exact hx
  · rw [hslot]
    exact hpage
  · exact hpe

theorem fault_entry (h : Mapped c ds) (hd : d ∈ ds) (hx : ¬ Extended (c.mem d (addrPde a)))
    (hed : Edited (baseFlags cur) d (addrPde a) (addrPte a) e c c') (he : Present e) :
    entryAt c' d a = some e := by
  obtain ⟨hp, hx', hpage⟩ := h.edited_page hd (addrPde_lt a) hed
  exact entryAt_table hp (fun hext => hx (hx' hext)) hpage he

/-- A copy to `u` is seen under `d` exactly if the two are so connected. -/
theorem copy_seen (h : Mapped c ds) (hk : k ∈ ds) (hd : d ∈ ds) (hu : u ∈ ds)
    (hmapped : translate c k a ≠ none) (hfaults : translate c d a = none)
    (hed : Edited (baseFlags cur) u (addrPde a) (addrPte a)
      (c.mem (frameNo (c.mem k (addrPde a))) (addrPte a)) c c') :
    entryAt c' d a = some (c.mem (frameNo (c.mem k (addrPde a))) (addrPte a)) ↔
      SeenUnder c d u (addrPde a) := by
  obtain ⟨-, -, hpe⟩ := fault_page h hk hd hmapped hfaults
  obtain ⟨hxd, -⟩ := fault_table h hk hd hmapped hfaults
  have hpa := addrPde_lt a
  constructor
  · intro hseen
    by_contra hnot
    by_cases hud : u = d
    · -- the directory is the one, so no frame is left for the table it needs
      have hnil : c.mem d (addrPde a) = nilPgEnt ∧ ¬ c.free.Nonempty := by
        by_contra hn
        apply hnot
        left
        refine ⟨hud, ?_⟩
        intro hnil
        by_contra hfree
        exact hn ⟨hnil, hfree⟩
      obtain ⟨c₁, hen, -⟩ := hed
      cases hen with
      | old hne =>
        rw [hud] at hne
        exact hne hnil.1
      | new n _ hn => exact hnil.2 ⟨n, hn⟩
    · have hsame := h.translate_other hu hpa hed hd (Ne.symm hud)
        (fun hne hne' heq => hnot (Or.inr ⟨hne, hne', heq.symm⟩)) a
      apply entryAt_ne_none hseen
      rw [hsame]
      exact hfaults
  · intro hcond
    rcases hcond with ⟨hud, -⟩ | ⟨hne, hne', heq⟩
    · rw [hud] at hed
      exact fault_entry h hd hxd hed hpe
    · have hslot : c'.mem d (addrPde a) = c.mem d (addrPde a) := by
        rcases h.edited_slot (k := addrPde a) hu hpa hed hd with ⟨-, -, hnil, -⟩ | hs
        · exact absurd hnil hne
        · exact hs
      have hslotu : c'.mem u (addrPde a) = c.mem u (addrPde a) := by
        rcases h.edited_slot (k := addrPde a) hu hpa hed hu with ⟨-, -, hnil, -⟩ | hs
        · exact absurd hnil hne
        · exact hs
      obtain ⟨-, -, hpage⟩ := h.edited_page hu hpa hed
      apply entryAt_table
      · rw [hslot]
        exact h.present d hd _ hpa hne'
      · rw [hslot]
        exact hxd
      · rw [hslot, ← heq, ← hslotu]
        exact hpage
      · exact hpe

end Walk

section Handler
variable {s s' : Kern} {a : Word}

/-- Before any task but `KernelTask` called the allocator, the handler treats the page as
one of the running task: it panics, or the page gets a frame that was free. -/
theorem KernelFault.not_resolved (hf : KernelFault s a) (h : MapInv s)
    (hu : s.proc.userTask = none) (he : KEffect s (.fault a) s') : ¬ Resolved s s' a := by
  intro hres
  have hk := h.runner.kernel_mem
  have hd := h.runner.cr3_mem
  have hdest : faultDest s.proc a = none := by simp [faultDest, hu]
  obtain ⟨hpk, hxk, hpe⟩ := fault_page h.mapped hk hd hf.mapped hf.faults
  obtain ⟨hxd, hsep⟩ := fault_table h.mapped hk hd hf.mapped hf.faults
  cases he with
  | copy _ dest addr c' hop _ =>
    simp only [KOp.copies, hdest, Option.map_none] at hop
    cases hop
  | call _ m fuel r c' p' hop hrun hsame =>
    have hm : m = .fault a := by
      simp only [KOp.memOp, hdest, if_true] at hop
      exact (Option.some.inj hop).symm
    rw [hm] at hrun
    obtain ⟨⟨⟩, c₁, h1, h2⟩ := bind_ok.mp hrun
    obtain ⟨-, hc⟩ := pure_ok.mp h2
    obtain ⟨b, c₂, h3, h4⟩ := bind_ok.mp h1
    rw [pgIsReserved_ok h3] at h4
    split at h4
    · obtain ⟨n, hn, hed⟩ := pgAlloc_step h.init h4
      rw [← h.noCallYet hu] at hed
      have hmark := h.mapped.mark hn
      obtain ⟨e, hcr3, hkern⟩ := hres.mapped
      dsimp only at hcr3 hkern
      rw [hsame.cr3, hc, fault_entry hmark hd hxd hed (present_entry _ n)] at hcr3
      rw [hsame.pgd, hc, fault_kernel_kept hmark hk hd hpk hxk hpe hed
        (fun hne heq => absurd heq (hsep hne))] at hkern
      have heq : s.mem.1.mem (frameNo (s.mem.1.mem (frameNo (s.proc.task kernelTask).pgd)
          (addrPde a))) (addrPte a) = pageEntry (frameAddr n) (baseFlags s.proc.cur) :=
        Option.some.inj (hkern.trans hcr3.symm)
      apply h.mapped.pageUsed _ hk _ (addrPde_lt a) hpk.ne_nil hxk _ (addrPte_lt a) hpe
      rw [heq, frameNo_entry hn]
      exact hn
    · cases h4

theorem KernelFault.dest (hf : KernelFault s a) {u : TaskPtr} (hu : s.proc.userTask = some u) :
    faultDest s.proc a = some (s.proc.task u).pgd := by
  simp [faultDest, hf.range, hu]

theorem KernelFault.copy_resolved (hf : KernelFault s a) (h : MapInv s) {u : TaskPtr}
    (hu : s.proc.userTask = some u) (he : KEffect s (.fault a) s') :
    Resolved s s' a ↔ SeenUnder s.mem.1 (frameNo s.proc.cr3) (frameNo (s.proc.task u).pgd)
      (addrPde a) := by
  have hk := h.runner.kernel_mem
  have hd := h.runner.cr3_mem
  have hud : frameNo (s.proc.task u).pgd ∈ dirs s.proc := ⟨u, h.runner.user u hu, rfl⟩
  obtain ⟨hpk, hxk, hpe⟩ := fault_page h.mapped hk hd hf.mapped hf.faults
  cases he with
  | call _ m fuel r c' p' hop _ _ =>
    simp only [KOp.memOp, hf.dest hu] at hop
    cases hop
  | copy _ dest addr c' hop hrun =>
    have hargs : dest = (s.proc.task u).pgd ∧ addr = a := by
      simp only [KOp.copies, hf.dest hu, Option.map_some] at hop
      cases hop
      exact ⟨rfl, rfl⟩
    rw [hargs.1, hargs.2] at hrun
    obtain ⟨-, -, hed⟩ := pgCopyMapping_ok h.init (h.mapped.dirUsed _ hk) hrun
    have hkern := fault_kernel_kept h.mapped hk hud hpk hxk hpe hed (fun _ _ => rfl)
    have hseen := copy_seen h.mapped hk hd hud hf.mapped hf.faults hed
    constructor
    · intro hres
      obtain ⟨e, hcr3, hke⟩ := hres.mapped
      dsimp only at hcr3 hke
      rw [hkern] at hke
      apply hseen.mp
      rw [hcr3, ← hke]
    · intro hcond
      refine ⟨⟨_, hseen.mpr hcond, hkern⟩, ?_⟩
      intro t ht b hb
      apply h.mapped.translate_page hud (addrPde_lt a) hed ⟨t, ht, rfl⟩
      intro hpde hpte
      exact hb (pgAddr_eq_of_slots hpde hpte)

theorem KernelFault.returns (hf : KernelFault s a) (h : MapInv s) {u : TaskPtr}
    (hu : s.proc.userTask = some u)
    (hseen : SeenUnder s.mem.1 (frameNo s.proc.cr3) (frameNo (s.proc.task u).pgd) (addrPde a)) :
    ∃ s', pgFault a s = .ok ((), s') := by
  obtain ⟨hpk, -, hpe⟩ := fault_page h.mapped h.runner.kernel_mem h.runner.cr3_mem hf.mapped hf.faults
  have hfree : s.mem.1.mem (frameNo (s.proc.task u).pgd) (addrPde a) = nilPgEnt →
      s.mem.1.free.Nonempty := by
    intro hnil
    rcases hseen with ⟨heq, hfree⟩ | ⟨hne, -, -⟩
    · rw [heq] at hnil
      exact hfree hnil
    · exact absurd hnil hne
  obtain ⟨c', hrun⟩ := pgCopyMapping_ends s.proc.cur h.init hpk.ne_nil hpe.ne_nil hfree
  have hlift := (pgCopyMapping_lifts (k := 4) s.proc.cur (s.proc.task u).pgd
    (s.proc.task kernelTask).pgd a).run h.tmp hrun
  unfold pgFault pgFaultHandler onMem
  simp only [hu, Option.map_some, if_pos hf.range, hlift]
  exact ⟨_, rfl⟩

end Handler

/-- In every state of a run from boot, the handler resolves a fault in the kernel's range
exactly when `UserTask` is set and what it writes for `UserTask` is seen under CR3. -/
theorem pgFault_resolves_iff (s₀ : Kern) (h₀ : Booted s₀) (tr : List (KOp × Unit)) (s : Kern)
    (hrun : Run KStep s₀ tr s) (a : Word) (hf : KernelFault s a) :
    (∃ s', pgFault a s = .ok ((), s') ∧ Resolved s s' a) ↔
      ∃ u, s.proc.userTask = some u ∧
        SeenUnder s.mem.1 (frameNo s.proc.cr3) (frameNo (s.proc.task u).pgd) (addrPde a) := by
  have hinv := run_mapInv h₀.mapInv hrun
  constructor
  · intro hres
    obtain ⟨s', hok, hres⟩ := hres
    have he := pgFault_effect hinv.tmp hok
    cases hu : s.proc.userTask with
    | none => exact absurd hres (hf.not_resolved hinv hu he)
    | some u => exact ⟨u, rfl, (hf.copy_resolved hinv hu he).mp hres⟩
  · intro hcond
    obtain ⟨u, hu, hseen⟩ := hcond
    obtain ⟨s', hok⟩ := hf.returns hinv hu hseen
    exact ⟨s', hok, (hf.copy_resolved hinv hu (pgFault_effect hinv.tmp hok)).mpr hseen⟩

/-- The test for a fault in the kernel's range. -/
def faultTest (s : Kern) (a : Word) : Bool :=
  pgIsKernel a && (translate s.mem.1 (frameNo (s.proc.task kernelTask).pgd) a).isSome &&
    (translate s.mem.1 (frameNo s.proc.cr3) a).isNone

theorem kernelFault_of_test {s : Kern} {a : Word} (h : faultTest s a = true) : KernelFault s a := by
  unfold faultTest at h
  rw [Bool.and_eq_true, Bool.and_eq_true, Option.isSome_iff_ne_none, Option.isNone_iff_eq_none] at h
  exact ⟨h.1.1, h.1.2, h.2⟩

/-- The heap of `KernelTask` grows after its child was forked. The child allocates, and
the fault it takes there is resolved. -/
theorem pgFault_resolves_for_child : ∃ tr s s', Run KStep bootKern tr s ∧
    KernelFault s 0xC0400000#32 ∧ pgFault 0xC0400000#32 s = .ok ((), s') ∧
    Resolved s s' 0xC0400000#32 := by
  obtain ⟨tr, s, hrun, htest⟩ := exists_run (KOp.tryExec 2) (kStep_of_tryExec 2)
    [.fork, .brk 0xC0400000#32, .enter 1, .enterKernel] bootKern
    (fun _ s => s.proc.userTask == some 1 && (s.proc.task 1).pgd == s.proc.cr3 &&
      1055 ∈ s.mem.1.free && faultTest s 0xC0400000#32)
    (by decide +kernel)
  rw [Bool.and_eq_true, Bool.and_eq_true, Bool.and_eq_true, beq_iff_eq, beq_iff_eq,
    decide_eq_true_iff] at htest
  obtain ⟨⟨⟨hu, hpgd⟩, hfree⟩, hfault⟩ := htest
  have hf := kernelFault_of_test hfault
  have hseen : SeenUnder s.mem.1 (frameNo s.proc.cr3) (frameNo (s.proc.task 1).pgd)
      (addrPde 0xC0400000#32) := Or.inl ⟨by rw [hpgd], fun _ => ⟨1055, hfree⟩⟩
  obtain ⟨s', hok, hres⟩ := (pgFault_resolves_iff bootKern bootKern_booted tr s hrun
    0xC0400000#32 hf).mpr ⟨1, hu, hseen⟩
  exact ⟨tr, s, s', hrun, hf, hok, hres⟩

/-- With two children, one of which allocated last: the fault of the other is taken for
one of the first, and the page is missing still. -/
theorem pgFault_misses_cr3 : ∃ tr s s', Booted bootKern ∧ Run KStep bootKern tr s ∧
    KernelFault s 0xC0400000#32 ∧ pgFault 0xC0400000#32 s = .ok ((), s') ∧
    translate s'.mem.1 (frameNo s'.proc.cr3) 0xC0400000#32 = none := by
  obtain ⟨tr, s, hrun, htest⟩ := exists_run (KOp.tryExec 2) (kStep_of_tryExec 2)
    [.fork, .fork, .brk 0xC0400000#32, .enter 1, .enterKernel, .leaveKernel, .enter 2] bootKern
    (fun _ s => faultTest s 0xC0400000#32 &&
      passes (pgFault 0xC0400000#32 s) fun _ s' =>
        (translate s'.mem.1 (frameNo s'.proc.cr3) 0xC0400000#32).isNone) (by decide +kernel)
  rw [Bool.and_eq_true, passes_iff] at htest
  obtain ⟨hfault, r, s', hok, hnone⟩ := htest
  rw [Option.isNone_iff_eq_none] at hnone
  exact ⟨tr, s, s', bootKern_booted, hrun, kernelFault_of_test hfault, hok, hnone⟩

end AkKernel
