import AkKernel.Kernel.Mappings

/-!
# User mappings are private

Whether a clone shares a table with its original is decided by `PAGE_LINK` in the
directory entry, which the table got from the task that mapped the first page in its
4 MB. As long as `KernelTask` is never that task below `KZERO`, the tables there belong
to one directory each.
-/

set_option autoImplicit false

namespace AkKernel

open Programs Runs

/-- The tables below `KZERO` are copied by a clone, and no two directories share one. -/
structure Apart (c : Phys) (ds : Set Nat) : Prop where
  low : ∀ d ∈ ds, ∀ i, i < 768 → c.mem d i ≠ nilPgEnt →
    ¬ Linked (c.mem d i) ∧ ¬ Extended (c.mem d i)
  own : ∀ d ∈ ds, ∀ d' ∈ ds, ∀ i, i < 768 → c.mem d i ≠ nilPgEnt → c.mem d' i ≠ nilPgEnt →
    frameNo (c.mem d i) = frameNo (c.mem d' i) → d = d'

section Apart
variable {c c' : Phys} {ds : Set Nat} {d i j n : Nat} {e : Word} {cur : Task}

theorem Apart.edited (h : Apart c ds) (hm : Mapped c ds) (hd : d ∈ ds) (hi : i < 1024)
    (hnew : cur.pid = kernelPid → i < 768 → c.mem d i ≠ nilPgEnt)
    (hed : Edited (baseFlags cur) d i j e c c') : Apart c' ds := by
  have hslot : ∀ d' ∈ ds, ∀ k, _ := fun d' hd' k =>
    hm.edited_slot (k := k) hd hi hed hd'
  have hlt : ∀ k, k < 768 → k < 1024 := fun k hk => Nat.lt_trans hk (by decide)
  refine ⟨?_, ?_⟩
  · intro d' hd' k hk hne
    rcases hslot d' hd' k with ⟨-, hki, hnil, m, -, hs⟩ | hs
    · rw [hs, linked_entry]
      refine ⟨?_, not_extended_entry cur m⟩
      intro hpid
      exact hnew hpid (hki ▸ hk) hnil
    · rw [hs] at hne ⊢
      exact h.low d' hd' k hk hne
  · intro d₁ hd₁ d₂ hd₂ k hk hne₁ hne₂ heq
    rcases hslot d₁ hd₁ k with ⟨h₁, -, -, m, hmf, hs₁⟩ | hs₁
    · rcases hslot d₂ hd₂ k with ⟨h₂, -, -, -, -, -⟩ | hs₂
      · exact h₁.trans h₂.symm
      · rw [hs₂] at hne₂
        rw [hs₁, hs₂, frameNo_entry hmf] at heq
        exact absurd (heq ▸ hmf) (hm.tableUsed d₂ hd₂ k (hlt k hk) hne₂)
    · rw [hs₁] at hne₁ heq
      rcases hslot d₂ hd₂ k with ⟨-, -, -, m, hmf, hs₂⟩ | hs₂
      · rw [hs₂, frameNo_entry hmf] at heq
        exact absurd (heq.symm ▸ hmf) (hm.tableUsed d₁ hd₁ k (hlt k hk) hne₁)
      · rw [hs₂] at hne₂ heq
        exact h.own d₁ hd₁ d₂ hd₂ k hk hne₁ hne₂ heq

/-- Below `KZERO` a clone gets tables of its own. -/
theorem Apart.clone (h : Apart c ds) (hm : Mapped c ds) {nd : Nat} (hd : d ∈ ds)
    (hinv : DirInv c d nd 1024 c') : Apart c' (insert nd ds) := by
  have hlt : ∀ k, k < 768 → k < 1024 := fun k hk => Nat.lt_trans hk (by decide)
  have hold : ∀ x ∈ ds, c'.mem x = c.mem x := fun x hx => hinv.grows.kept x (hm.dirUsed x hx)
  have hnew : ∀ k, k < 768 → c'.mem nd k ≠ nilPgEnt →
      TblCloned c c' (c.mem d k) (c'.mem nd k) ∧ PrivateTable (c.mem d k) := by
    intro k hk hne
    have hs := hinv.slots k (hlt k hk)
    have hp : PrivateTable (c.mem d k) := by
      by_contra hp
      rw [hs.shared hp] at hne
      obtain ⟨hl, hx⟩ := h.low d hd k hk hne
      exact hp ⟨⟨hm.present d hd k (hlt k hk) hne, hl⟩, hx⟩
    exact ⟨hs.table hp, hp⟩
  refine ⟨?_, ?_⟩
  · intro x hx k hk hne
    rcases Set.mem_insert_iff.mp hx with hx | hx
    · rw [hx] at hne ⊢
      obtain ⟨hcl, hp⟩ := hnew k hk hne
      rw [linked_congr hcl.flags, extended_congr hcl.flags]
      exact ⟨hp.1.2, hp.2⟩
    · rw [hold x hx] at hne ⊢
      exact h.low x hx k hk hne
  · intro x hx y hy k hk hne₁ hne₂ heq
    rcases Set.mem_insert_iff.mp hx with hx | hx
    · rcases Set.mem_insert_iff.mp hy with hy | hy
      · exact hx.trans hy.symm
      · rw [hx] at hne₁ heq
        rw [hold y hy] at hne₂ heq
        obtain ⟨hcl, -⟩ := hnew k hk hne₁
        exact absurd (heq ▸ hcl.fresh) (hm.tableUsed y hy k (hlt k hk) hne₂)
    · rw [hold x hx] at hne₁ heq
      rcases Set.mem_insert_iff.mp hy with hy | hy
      · rw [hy] at hne₂ heq
        obtain ⟨hcl, -⟩ := hnew k hk hne₂
        exact absurd (heq.symm ▸ hcl.fresh) (hm.tableUsed x hx k (hlt k hk) hne₁)
      · rw [hold y hy] at hne₂ heq
        exact h.own x hx y hy k hk hne₁ hne₂ heq

theorem BootDir.apart (h : BootDir c d) : Apart c {d} := by
  refine ⟨?_, ?_⟩
  · rintro x rfl i hi hne
    rcases h.cases (by omega) hne with ⟨-, n, he⟩ | ⟨h768, -⟩ | ⟨hgt, -⟩
    · rw [he, linked_flags (by decide), extended_flags (by decide)]
      decide
    · omega
    · omega
  · rintro x rfl y rfl i hi _ _ _
    rfl

/-- The call makes no table below `KZERO` for `KernelTask`, and copies pages of the
kernel's range only. -/
def KOp.Tidy (s : Kern) (op : KOp) : Prop :=
  (∀ m v, op.memOp s.proc = some m → m.Touches s.proc.cur s.mem.1 v →
    s.proc.cur.pid = kernelPid → v < kZero →
    s.mem.1.mem (frameNo s.proc.cur.pgd) (addrPde v) ≠ nilPgEnt) ∧
    ∀ dest addr, op.copies s.proc = some (dest, addr) → kZero ≤ addr

def TidyStep (s : Kern) (lbl : KOp × Unit) (s' : Kern) : Prop :=
  lbl.1.Tidy s ∧ KStep s lbl s'

/-- What a call keeps from the state `c₀` it is made in. -/
structure TidyInv (ds : Set Nat) (d : Nat) (c₀ c : Phys) : Prop where
  init : c.frameAllocInitialized = true
  mapped : Mapped c ds
  apart : Apart c ds
  slots : ∀ i, i < 1024 → c₀.mem d i ≠ nilPgEnt → c.mem d i ≠ nilPgEnt

theorem Apart.mark (h : Apart c ds) (n : Nat) : Apart (c.mark n) ds := ⟨h.low, h.own⟩

theorem TidyInv.edited {c₀ : Phys} (h : TidyInv ds d c₀ c) (hd : d ∈ ds) (hi : i < 1024)
    (hV : cur.pid = kernelPid → i < 768 → c₀.mem d i ≠ nilPgEnt)
    (he : Present e → frameNo e ∉ c.free) (hed : Edited (baseFlags cur) d i j e c c') :
    TidyInv ds d c₀ c' := by
  refine ⟨hed.init.trans h.init, h.mapped.edited hd hi he hed, ?_, ?_⟩
  · apply h.apart.edited h.mapped hd hi ?_ hed
    intro hpid hlow
    exact h.slots i hi (hV hpid hlow)
  · intro k hk hne
    rcases h.mapped.edited_slot (k := k) hd hi hed hd with ⟨-, -, -, m, -, hs⟩ | hs
    · rw [hs]
      exact (present_entry cur m).ne_nil
    · rw [hs]
      exact h.slots k hk hne

theorem TidyInv.mark {c₀ : Phys} (h : TidyInv ds d c₀ c) (hn : n ∈ c.free) :
    TidyInv ds d c₀ (c.mark n) :=
  ⟨h.init, h.mapped.mark hn, h.apart.mark n, h.slots⟩

theorem TidyInv.keeper {c₀ : Phys} (hd : frameNo cur.pgd ∈ ds) :
    Keeper cur (fun v => cur.pid = kernelPid → v < kZero →
      c₀.mem (frameNo cur.pgd) (addrPde v) ≠ nilPgEnt) (TidyInv ds (frameNo cur.pgd) c₀) := by
  refine ⟨fun c h => h.init, ?_, ?_, ?_⟩
  · intro c v c' hV h hstep
    obtain ⟨n, hn, hed⟩ := hstep
    refine (h.mark hn).edited hd (addrPde_lt v) ?_ (fun _ => taken_entry hn cur) hed
    intro hpid hlow
    exact hV hpid (addrPde_lt_iff.mp hlow)
  · intro c v c' hV h hstep
    obtain ⟨e, he, hed⟩ := hstep
    refine h.edited hd (addrPde_lt v) ?_ (fun hp => absurd hp he) hed
    intro hpid hlow
    exact hV hpid (addrPde_lt_iff.mp hlow)
  · intro c v c' w _ h hstep hw
    exact h.mapped.added_allocated hd hstep hw

/-- The other directories translate as in `c₀`. -/
structure OthersInv (ds : Set Nat) (d : Nat) (c₀ c : Phys) : Prop extends TidyInv ds d c₀ c where
  others : ∀ d' ∈ ds, d' ≠ d → ∀ a, translate c d' a = translate c₀ d' a

theorem OthersInv.edited {c₀ : Phys} (h : OthersInv ds d c₀ c) (hd : d ∈ ds) (hi : i < 768)
    (hpid : cur.pid ≠ kernelPid) (he : Present e → frameNo e ∉ c.free)
    (hed : Edited (baseFlags cur) d i j e c c') : OthersInv ds d c₀ c' := by
  have hi' : i < 1024 := Nat.lt_trans hi (by decide)
  refine ⟨h.toTidyInv.edited hd hi' (fun hp => absurd hp hpid) he hed, ?_⟩
  intro d' hd' hne a
  rw [← h.others d' hd' hne a]
  apply h.mapped.translate_other hd hi' hed hd' hne
  intro hs hs' heq
  exact hne (h.apart.own d' hd' d hd i hi hs' hs heq)

theorem OthersInv.keeper {c₀ : Phys} (hd : frameNo cur.pgd ∈ ds) (hpid : cur.pid ≠ kernelPid) :
    Keeper cur (fun v => v < kZero) (OthersInv ds (frameNo cur.pgd) c₀) := by
  refine ⟨fun c h => h.init, ?_, ?_, ?_⟩
  · intro c v c' hV h hstep
    obtain ⟨n, hn, hed⟩ := hstep
    have hmark : OthersInv ds (frameNo cur.pgd) c₀ (c.mark n) :=
      ⟨h.toTidyInv.mark hn, h.others⟩
    exact hmark.edited hd (addrPde_lt_iff.mpr hV) hpid (fun _ => taken_entry hn cur) hed
  · intro c v c' hV h hstep
    obtain ⟨e, he, hed⟩ := hstep
    exact h.edited hd (addrPde_lt_iff.mpr hV) hpid (fun hp => absurd hp he) hed
  · intro c v c' w _ h hstep hw
    exact h.mapped.added_allocated hd hstep hw

end Apart

/-- Between steps: the tables below `KZERO` are apart, and so are the directories. -/
structure UserInv (s : Kern) : Prop where
  map : MapInv s
  apart : Apart s.mem.1 (dirs s.proc)
  distinct : ∀ t u, t < s.proc.ntasks → u < s.proc.ntasks →
    frameNo (s.proc.task t).pgd = frameNo (s.proc.task u).pgd → t = u

section Runs
variable {s s' : Kern} {op : KOp}

theorem SameDirs.distinct {p p' : Proc} (h : SameDirs p p')
    (hp : ∀ t u, t < p.ntasks → u < p.ntasks →
      frameNo (p.task t).pgd = frameNo (p.task u).pgd → t = u) :
    ∀ t u, t < p'.ntasks → u < p'.ntasks →
      frameNo (p'.task t).pgd = frameNo (p'.task u).pgd → t = u := by
  intro t u ht hu
  rw [h.ntasks] at ht hu
  rw [h.pgd, h.pgd]
  exact hp t u ht hu

/-- A step that changes no page keeps the directories apart. -/
theorem UserInv.sameDirs (h : UserInv s) {p' : Proc} (hm : MapInv { s with proc := p' })
    (hs : SameDirs s.proc p') : UserInv { s with proc := p' } := by
  refine ⟨hm, ?_, hs.distinct h.distinct⟩
  rw [hs.dirs_eq]
  exact h.apart

theorem UserInv.fork_distinct (h : UserInv s) {pgd : Word} {clone : TaskPtr} {p' : Proc}
    (hfork : taskFork pgd s.proc = .ok (clone, p')) (hfresh : frameNo pgd ∈ s.mem.1.free) :
    ∀ t u, t < p'.ntasks → u < p'.ntasks →
      frameNo (p'.task t).pgd = frameNo (p'.task u).pgd → t = u := by
  obtain ⟨list, descr, -, -, -, hp'⟩ := taskFork_cases hfork
  obtain ⟨hn, -⟩ := taskFork_runner hfork
  have hnew : (p'.task s.proc.ntasks).pgd = pgd := by
    rw [hp', forked_new]
  have hold : ∀ t, t < s.proc.ntasks → frameNo (p'.task t).pgd ≠ frameNo pgd := by
    intro t ht heq
    rw [(taskFork_old hfork ht).1] at heq
    exact h.map.mapped.dirUsed _ ⟨t, ht, rfl⟩ (heq ▸ hfresh)
  intro t u ht hu heq
  rw [hn] at ht hu
  rcases Nat.lt_succ_iff_lt_or_eq.mp ht with hlt | he
  · rcases Nat.lt_succ_iff_lt_or_eq.mp hu with hlt' | he'
    · rw [(taskFork_old hfork hlt).1, (taskFork_old hfork hlt').1] at heq
      exact h.distinct t u hlt hlt' heq
    · rw [he', hnew] at heq
      exact absurd heq (hold t hlt)
  · rcases Nat.lt_succ_iff_lt_or_eq.mp hu with hlt' | he'
    · rw [he, hnew] at heq
      exact absurd heq.symm (hold u hlt')
    · exact he.trans he'.symm

theorem UserInv.tidyInv (h : UserInv s) :
    TidyInv (dirs s.proc) (frameNo s.proc.cur.pgd) s.mem.1 s.mem.1 :=
  ⟨h.map.init, h.map.mapped, h.apart, fun _ _ hne => hne⟩

theorem UserInv.effect (h : UserInv s) (ht : op.Tidy s) (he : KEffect s op s') : UserInv s' := by
  have hmap := h.map.effect he
  cases he with
  | enter task _ => exact h.sameDirs hmap (sameDirs_taskEnter s.proc task)
  | enterKernel => exact h.sameDirs hmap (sameDirs_enterKernel s.proc)
  | leaveKernel => exact h.sameDirs hmap (sameDirs_leaveKernel s.proc)
  | fork pgd c' clone p' hclone hfork =>
    have hd := h.map.runner.cr3_mem
    have hinv := pgCloneDir_effect h.map.init (h.map.mapped.used hd) hclone
    refine ⟨hmap, ?_, h.fork_distinct hfork hinv.fresh⟩
    rw [taskFork_dirs hfork]
    exact h.apart.clone h.map.mapped hd hinv
  | call _ m fuel r c' p' hop hrun hsame =>
    have hk := (TidyInv.keeper h.map.runner.cur_mem).run (fun v hv => ht.1 m v hop hv)
      h.tidyInv hrun
    refine ⟨hmap, ?_, hsame.toSameDirs.distinct h.distinct⟩
    rw [hsame.dirs_eq]
    exact hk.apart
  | copy _ dest addr c' hop hrun =>
    obtain ⟨-, -, hed⟩ := pgCopyMapping_ok h.map.init
      (h.map.mapped.dirUsed _ h.map.runner.kernel_mem) hrun
    refine ⟨hmap, ?_, h.distinct⟩
    apply h.apart.edited h.map.mapped (h.map.runner.copies_mem hop) (addrPde_lt addr) ?_ hed
    intro _ hlow
    exact absurd (addrPde_lt_iff.mp hlow) (BitVec.not_lt.mpr (ht.2 dest addr hop))

theorem UserInv.step (h : UserInv s) {lbl : KOp × Unit} (hs : TidyStep s lbl s') : UserInv s' := by
  obtain ⟨ht, -, fuel, hex⟩ := hs
  exact h.effect ht (KOp.exec_effect h.map.tmp hex)

theorem Booted.userInv (h : Booted s) : UserInv s := by
  refine ⟨h.mapInv, ?_, ?_⟩
  · rw [h.dirs_eq]
    exact h.dir.apart
  · obtain ⟨kernEnd, pgd, hp⟩ := h.proc
    have hn : s.proc.ntasks = 1 := by
      rw [hp]
      rfl
    intro t u ht hu _
    rw [hn, Nat.lt_one_iff] at ht hu
    rw [ht, hu]

theorem UserInv.call (h : UserInv s) {m : MemOp} (hop : op.memOp s.proc = some m)
    (hpid : s.proc.cur.pid ≠ kernelPid) (hlow : ∀ v, m.Touches s.proc.cur s.mem.1 v → v < kZero)
    (he : KEffect s op s') {t : TaskPtr} (ht : t < s.proc.ntasks) (hne : t ≠ s.proc.currentTask)
    (a : Word) : translate s'.mem.1 (frameNo (s'.proc.task t).pgd) a =
      translate s.mem.1 (frameNo (s.proc.task t).pgd) a := by
  cases he with
  | call _ m' fuel r c' p' hop' hrun hsame =>
    have hm : m' = m := Option.some.inj (hop'.symm.trans hop)
    rw [hm] at hrun
    have hk := (OthersInv.keeper h.map.runner.cur_mem hpid).run hlow
      ⟨h.tidyInv, fun _ _ _ _ => rfl⟩ hrun
    rw [hsame.pgd]
    refine hk.others _ ⟨t, ht, rfl⟩ ?_ a
    intro heq
    exact hne (h.distinct t _ ht h.map.runner.current heq)
  | copy _ dest addr c' hc _ =>
    cases op with
    | fault a' =>
      simp only [KOp.copies, Option.map_eq_some_iff] at hc
      obtain ⟨pgd, hpgd, -⟩ := hc
      simp only [KOp.memOp, hpgd] at hop
      cases hop
    | copy _ _ => cases hop
    | _ => cases hc
  | _ => cases hop

end Runs

/-- In every run from boot in which `KernelTask` makes no table below `KZERO`, what another
task maps below `KZERO` changes no other task's translations. -/
theorem userMaps_private (s₀ : Kern) (h₀ : Booted s₀) (tr : List (KOp × Unit)) (s : Kern)
    (hrun : Run TidyStep s₀ tr s) (op : KOp) (s' : Kern) (hstep : TidyStep s (op, ()) s')
    (m : MemOp) (hop : op.memOp s.proc = some m) (hpid : s.proc.cur.pid ≠ kernelPid)
    (hlow : ∀ v, m.Touches s.proc.cur s.mem.1 v → v < kZero) (t : TaskPtr)
    (ht : t < s.proc.ntasks) (hne : t ≠ s.proc.currentTask) (a : Word) :
    translate s'.mem.1 (frameNo (s'.proc.task t).pgd) a =
      translate s.mem.1 (frameNo (s.proc.task t).pgd) a := by
  have hinv : UserInv s := Run.invariant (I := fun _ s => UserInv s) h₀.userInv
    (fun _ _ _ _ hi hs => hi.step hs) hrun
  obtain ⟨-, -, fuel, hex⟩ := hstep
  exact hinv.call hop hpid hlow (KOp.exec_effect hinv.map.tmp hex) ht hne a

/-- The executable form of a tidy step in which `KernelTask` maps nothing. -/
def KOp.tryTidy (fuel : Nat) (op : KOp) (s : Kern) : Except Fault (Unit × Kern) :=
  if (op.memOp s.proc = none ∨ s.proc.cur.pid ≠ kernelPid) ∧ op.copies s.proc = none then
    op.tryExec fuel s
  else .error .diverges

theorem tidyStep_of_tryTidy (fuel : Nat) (op : KOp) (s : Kern) (r : Unit) (s' : Kern)
    (h : op.tryTidy fuel s = .ok (r, s')) : TidyStep s (op, r) s' := by
  unfold KOp.tryTidy at h
  split at h
  · rename_i hb
    refine ⟨⟨?_, ?_⟩, kStep_of_tryExec fuel op s r s' h⟩
    · intro m v hm _ hpid
      rcases hb.1 with hnone | hne
      · rw [hnone] at hm
        cases hm
      · exact absurd hpid hne
    · intro dest addr hc
      rw [hb.2] at hc
      cases hc
  · cases h

/-- The first child maps a page, and `KernelTask` does not see it. -/
theorem userMaps_private_of_child : ∃ tr s s', Run TidyStep bootKern tr s ∧
    TidyStep s (.alloc 0x2000#32, ()) s' ∧ s.proc.currentTask = 1 ∧
    translate s'.mem.1 (frameNo (s'.proc.task kernelTask).pgd) 0x2000#32 =
      translate s.mem.1 (frameNo (s.proc.task kernelTask).pgd) 0x2000#32 := by
  obtain ⟨tr, s, hrun, htest⟩ := exists_run (KOp.tryTidy 1) (tidyStep_of_tryTidy 1)
    [.fork, .enter 1] bootKern
    (fun _ s => s.proc.currentTask == 1 && s.proc.cur.pid != kernelPid && 0 < s.proc.ntasks &&
      passes (KOp.tryTidy 1 (.alloc 0x2000#32) s) fun _ _ => true) (by decide +kernel)
  rw [Bool.and_eq_true, Bool.and_eq_true, Bool.and_eq_true, beq_iff_eq, bne_iff_ne,
    decide_eq_true_iff, passes_iff] at htest
  obtain ⟨⟨⟨hcur, hpid⟩, hn⟩, r, s', hex, -⟩ := htest
  have hstep := tidyStep_of_tryTidy 1 _ _ _ _ hex
  refine ⟨tr, s, s', hrun, hstep, hcur, ?_⟩
  have hne : kernelTask ≠ s.proc.currentTask := by
    rw [hcur]
    decide
  apply userMaps_private bootKern bootKern_booted tr s hrun (.alloc 0x2000#32) s' hstep
    (.alloc 0x2000#32) rfl hpid _ kernelTask hn hne
  intro v hv
  rw [hv]
  decide

/-- `KernelTask` maps a page below `KZERO` and forks; what the child then maps in the
same 4 MB appears in the directory of `KernelTask`. -/
theorem userMaps_shared_table : ∃ tr s s', Booted bootKern ∧ Run KStep bootKern tr s ∧
    KStep s (.alloc 0x2000#32, ()) s' ∧ s.proc.cur.pid ≠ kernelPid ∧
    kernelTask < s.proc.ntasks ∧ kernelTask ≠ s.proc.currentTask ∧
    translate s'.mem.1 (frameNo (s'.proc.task kernelTask).pgd) 0x2000#32 ≠
      translate s.mem.1 (frameNo (s.proc.task kernelTask).pgd) 0x2000#32 := by
  obtain ⟨tr, s, hrun, htest⟩ := exists_run (KOp.tryExec 1) (kStep_of_tryExec 1)
    [.alloc 0x1000#32, .fork, .enter 1] bootKern
    (fun _ s => s.proc.currentTask == 1 && s.proc.cur.pid != kernelPid && 0 < s.proc.ntasks &&
      passes (KOp.tryExec 1 (.alloc 0x2000#32) s) fun _ s' =>
        translate s'.mem.1 (frameNo (s'.proc.task kernelTask).pgd) 0x2000#32 !=
          translate s.mem.1 (frameNo (s.proc.task kernelTask).pgd) 0x2000#32) (by decide +kernel)
  rw [Bool.and_eq_true, Bool.and_eq_true, Bool.and_eq_true, beq_iff_eq, bne_iff_ne,
    decide_eq_true_iff, passes_iff] at htest
  obtain ⟨⟨⟨hcur, hpid⟩, hn⟩, r, s', hex, hdiff⟩ := htest
  rw [bne_iff_ne] at hdiff
  refine ⟨tr, s, s', bootKern_booted, hrun, kStep_of_tryExec 1 _ _ _ _ hex, hpid, hn, ?_, hdiff⟩
  rw [hcur]
  decide

end AkKernel
