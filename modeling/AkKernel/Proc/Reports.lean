import AkKernel.Proc.Wait

/-!
# Each exit is returned once

In a run in which every exit finds the parent asleep in `sys_wait4` with no signal
pending, the two fields of the parent are a queue of length one that is never
written twice: what `sys_wait4` returns is right, nothing is returned twice, and
no exit is overwritten. A parent that has quit sleeps nowhere, so its children do not
exit in such a run.
-/

set_option autoImplicit false

namespace AkKernel

open LinkedRing Runs

/-- A step that, if it is an exit, finds the parent asleep in `sys_wait4` and, if it is a fork,
allocates where the allocator returns to the running task. -/
def HeardStep (p : Proc) (lbl : Op × Option Report) (p' : Proc) : Prop :=
  WrapStep p lbl p' ∧ (lbl.1.isExit → missedBy p = ∅) ∧ (lbl.1.isFork → HomeAlloc p)

/-- The fields of a parent that is about to return hold an exit not yet returned. -/
def HoldsExit (tr : List (Op × Option Report)) (p : Proc) (t : TaskPtr) : Prop :=
  ∃ c, ExitedChild p t c ∧
    (⟨t, (p.task t).sigchldpid, (p.task t).sigchldexit⟩ : Report) = reportOf p t c ∧
    ∀ r ∈ reports tr, r.pid ≠ (p.task c).pid

/-- What the fields of all tasks and the reports made so far say about each other. -/
structure Ledger (tr : List (Op × Option Report)) (p : Proc) : Prop where
  clear : ∀ t, t < p.ntasks → (p.task t).state ≠ .taskQuit → p.ctx t ≠ .wait4 →
    (p.task t).sigpend = 0#32
  holds : ∀ t, t < p.ntasks → p.ctx t = .wait4 → ¬ Waiting p t → HoldsExit tr p t
  sound : ∀ r ∈ reports tr, r.parent < p.ntasks ∧
    ∃ c, ExitedChild p r.parent c ∧ r = reportOf p r.parent c
  once : ((reports tr).map Report.pid).Nodup

section Frame
variable {p p' : Proc} {tr : List (Op × Option Report)} {t e : TaskPtr} {list : Links TaskPtr}

theorem HoldsExit.of_sameExits (h : HoldsExit tr p t) (hs : SameExits p p')
    (hpid : (p'.task t).sigchldpid = (p.task t).sigchldpid)
    (hexit : (p'.task t).sigchldexit = (p.task t).sigchldexit) : HoldsExit tr p' t := by
  obtain ⟨c, hc, hr, hfresh⟩ := h
  refine ⟨c, hs.exitedChild.mpr hc, ?_, ?_⟩
  · rw [hs.reportOf_eq, hpid, hexit]
    exact hr
  · rw [hs.pid]
    exact hfresh

theorem schedule_sigpend (v : Task) (c : Ctx) :
    (schedule v c).sigpend = if c = .forked then v.sigpend else 0#32 := by
  unfold schedule resume
  by_cases hs : v.state = .taskSigWait
  · by_cases hc : c = .forked
    · simp [hs, hc]
    · by_cases hp : v.sigpend = 0#32
      · simp [hs, hc, hp]
      · simp [hs, hc, hp]
  · by_cases hc : c = .forked
    · simp [hs, hc]
    · by_cases hp : v.sigpend = 0#32
      · simp [hs, hc, hp]
      · simp [hs, hc, hp]

theorem Eligible.not_waiting (h : Eligible (p.task e)) : ¬ Waiting p e := by
  intro hw
  rcases h with h | h
  · rw [hw.2.1] at h
    cases h
  · exact h.2.1 hw.2.2

theorem ExitedChild.ne_current {c : TaskPtr} (hc : ExitedChild p t c)
    (hq : p.cur.state ≠ .taskQuit) : c ≠ p.currentTask := by
  intro he
  rw [he] at hc
  exact hq hc.2.2

end Frame

namespace Ledger
variable {p p' : Proc} {l : List TaskPtr} {tr : List (Op × Option Report)} {t e : TaskPtr}
variable {list : Links TaskPtr}

theorem of_sameExits (h : Ledger tr p) (hs : SameExits p p')
    (hclear : ∀ t, t < p.ntasks → (p.task t).state ≠ .taskQuit → p'.ctx t ≠ .wait4 →
      (p'.task t).sigpend = 0#32)
    (hholds : ∀ t, t < p.ntasks → p'.ctx t = .wait4 → ¬ Waiting p' t → HoldsExit tr p' t) :
    Ledger tr p' := by
  refine ⟨?_, ?_, ?_, h.once⟩
  · intro t ht hq hc
    rw [hs.ntasks] at ht
    exact hclear t ht (fun h => hq ((hs.quit t).mpr h)) hc
  · intro t ht hc hw
    rw [hs.ntasks] at ht
    exact hholds t ht hc hw
  · intro r hr
    obtain ⟨hlt, c, hc, he⟩ := h.sound r hr
    rw [hs.ntasks]
    exact ⟨hlt, c, hs.exitedChild.mpr hc, by rw [hs.reportOf_eq]; exact he⟩

theorem resumeCtx_eq_wait4 {c : Ctx} : resumeCtx c = .wait4 ↔ c = .wait4 := by
  cases c <;> decide

theorem switchTo (h : Ledger tr p) (hel : Eligible (p.task e)) :
    Ledger tr (switchTo p e list) := by
  apply h.of_sameExits sameExits_switchTo
  · intro t ht hq hc
    by_cases hte : t = e
    · subst hte
      simp only [AkKernel.switchTo, Function.update_self, ne_eq, resumeCtx_eq_wait4] at hc ⊢
      rw [schedule_sigpend]
      split
      · exact h.clear t ht hq hc
      · rfl
    · simp only [AkKernel.switchTo, Function.update_of_ne hte] at hc ⊢
      exact h.clear t ht hq hc
  · intro t ht hc hw
    have hsame : HoldsExit tr p t := by
      by_cases hte : t = e
      · subst hte
        simp only [AkKernel.switchTo, Function.update_self, resumeCtx_eq_wait4] at hc
        exact h.holds t ht hc hel.not_waiting
      · simp only [Waiting, AkKernel.switchTo, Function.update_of_ne hte] at hc hw
        exact h.holds t ht hc hw
    exact hsame.of_sameExits sameExits_switchTo
      (update_proj p.task Task.sigchldpid (schedule_sigchldpid _ _) t)
      (update_proj p.task Task.sigchldexit (schedule_sigchldexit _ _) t)

/-- The caller of `sys_wait4` has nothing pending, so it sleeps. -/
theorem sleepWait4 (h : Ledger tr p) (hcur : p.currentTask < p.ntasks)
    (hu : p.ctx p.currentTask = .user) (hq : p.cur.state ≠ .taskQuit) :
    Ledger tr (sleepWait4 p) := by
  have hpend : p.cur.sigpend = 0#32 := h.clear _ hcur hq (by rw [hu]; decide)
  apply h.of_sameExits (sameExits_sleepWait4 hq)
  · intro t ht hst hc
    by_cases htc : t = p.currentTask
    · subst htc
      simp [AkKernel.sleepWait4] at hc
    · simp only [AkKernel.sleepWait4, Function.update_of_ne htc] at hc ⊢
      exact h.clear t ht hst hc
  · intro t ht hc hw
    by_cases htc : t = p.currentTask
    · subst htc
      exact absurd (by simp [Waiting, AkKernel.sleepWait4, hpend]) hw
    · simp only [Waiting, AkKernel.sleepWait4, Function.update_of_ne htc] at hc hw
      have hsame : (AkKernel.sleepWait4 p).task t = p.task t := Function.update_of_ne htc _ _
      exact (h.holds t ht hc hw).of_sameExits (sameExits_sleepWait4 hq) (by rw [hsame])
        (by rw [hsame])

theorem sleepSuspend (h : Ledger tr p) (hu : p.ctx p.currentTask = .user)
    (hq : p.cur.state ≠ .taskQuit) : Ledger tr (sleepSuspend p) := by
  apply h.of_sameExits (sameExits_sleepSuspend hq)
  · intro t ht hst hc
    have hpend := update_proj p.task Task.sigpend (e := p.currentTask)
      (v := { p.cur with state := .taskSigWait }) rfl t
    refine Eq.trans hpend (h.clear t ht hst ?_)
    by_cases htc : t = p.currentTask
    · rw [htc, hu]
      decide
    · simp only [AkKernel.sleepSuspend, Function.update_of_ne htc] at hc
      exact hc
  · intro t ht hc hw
    have htc : t ≠ p.currentTask := by
      intro htc
      subst htc
      simp [AkKernel.sleepSuspend] at hc
    simp only [Waiting, AkKernel.sleepSuspend, Function.update_of_ne htc] at hc hw
    have hsame : (AkKernel.sleepSuspend p).task t = p.task t := Function.update_of_ne htc _ _
    exact (h.holds t ht hc hw).of_sameExits (sameExits_sleepSuspend hq) (by rw [hsame])
      (by rw [hsame])

theorem return_user (h : Ledger tr p)
    (hpend : p.cur.state ≠ .taskQuit → p.cur.sigpend = 0#32) :
    Ledger tr (p.setCtx p.currentTask .user) := by
  apply h.of_sameExits (sameExits_setCtx p.currentTask .user)
  · intro t ht hst hc
    by_cases htc : t = p.currentTask
    · subst htc
      exact hpend hst
    · simp only [Proc.setCtx, Function.update_of_ne htc] at hc ⊢
      exact h.clear t ht hst hc
  · intro t ht hc hw
    have htc : t ≠ p.currentTask := by
      intro htc
      subst htc
      simp [Proc.setCtx] at hc
    simp only [Waiting, Proc.setCtx, Function.update_of_ne htc] at hc hw
    exact h.holds t ht hc hw

/-- The report that is added is of an exit that no report was made of, and the
other parents hold exits of other children. -/
theorem report {r : Report} {op : Op} (h : Ledger tr p) (hi : TableInv p l)
    (hr : r.parent < p.ntasks) (hh : ∃ c, ExitedChild p r.parent c ∧ r = reportOf p r.parent c ∧
      ∀ r' ∈ reports tr, r'.pid ≠ (p.task c).pid)
    (hdone : p.ctx r.parent ≠ .wait4) : Ledger (tr ++ [(op, some r)]) p := by
  obtain ⟨c, hc, hrc, hfresh⟩ := hh
  have hrpid : r.pid = (p.task c).pid := by rw [hrc]; rfl
  refine ⟨h.clear, ?_, ?_, ?_⟩
  · intro t ht hctx hw
    obtain ⟨d, hd, hrec, hdf⟩ := h.holds t ht hctx hw
    refine ⟨d, hd, hrec, ?_⟩
    intro r' hr'
    rw [reports_snoc_some, List.mem_append, List.mem_singleton] at hr'
    rcases hr' with hr' | hr'
    · exact hdf r' hr'
    · rw [hr', hrpid]
      intro heq
      have hcd : c = d := hi.pid_inj hc.1 hd.1 heq
      have hpar : r.parent = t := by
        apply hi.pid_inj hr ht
        rw [← hc.2.1, ← hd.2.1, hcd]
      exact hdone (hpar ▸ hctx)
  · intro r' hr'
    rw [reports_snoc_some, List.mem_append, List.mem_singleton] at hr'
    rcases hr' with hr' | hr'
    · exact h.sound r' hr'
    · rw [hr']
      exact ⟨hr, c, hc, hrc⟩
  · rw [reports_snoc_some, List.map_append, List.map_singleton, List.nodup_append]
    refine ⟨h.once, by simp, ?_⟩
    intro a ha b hb
    obtain ⟨r', hr', rfl⟩ := List.mem_map.mp ha
    rw [List.mem_singleton.mp hb, hrpid]
    exact hfresh r' hr'

theorem exitedChild_exited {status : Word} {parent : Option TaskPtr} {c : TaskPtr}
    (hc : ExitedChild p t c) :
    ExitedChild { p with task := exited p p.currentTask status parent } t c := by
  refine ⟨hc.1, ?_, ?_⟩
  · simp only [exited_proj p status parent Task.pid (fun _ _ => rfl) (fun _ _ _ => rfl),
      exited_proj p status parent Task.ppid (fun _ _ => rfl) (fun _ _ _ => rfl)]
    exact hc.2.1
  · change (exited p p.currentTask status parent c).state = _
    rw [exited_state, hc.2.2, ite_self]

theorem reportOf_exited {status : Word} {parent : Option TaskPtr} {c : TaskPtr}
    (hc : c ≠ p.currentTask) :
    reportOf { p with task := exited p p.currentTask status parent } t c = reportOf p t c := by
  simp only [reportOf, exited_proj p status parent Task.pid (fun _ _ => rfl) (fun _ _ _ => rfl),
    exited_exitcode, if_neg hc]

/-- The parent that is told of the exit holds it, and no report was made of it before. -/
theorem holds_told {status : Word} (h : Ledger tr p) (hi : TableInv p l)
    (hq : p.cur.state ≠ .taskQuit) (hpt : some t = ringFind p l p.cur.ppid)
    (htc : t ≠ p.currentTask) :
    HoldsExit tr { p with task := exited p p.currentTask status (some t) } t := by
  have hpid := exited_proj p status (some t) Task.pid (fun _ _ => rfl) (fun _ _ _ => rfl)
    p.currentTask
  have hppid := exited_proj p status (some t) Task.ppid (fun _ _ => rfl) (fun _ _ _ => rfl)
    p.currentTask
  have hpp : (p.task t).pid = p.cur.ppid := (hi.ringFind_eq_some.mp hpt.symm).2
  refine ⟨p.currentTask, ⟨hi.current_lt, ?_, ?_⟩, ?_, ?_⟩
  · simp only [hpid, hppid]
    exact hpp.symm
  · change (exited p p.currentTask status (some t) p.currentTask).state = _
    rw [exited_state, if_pos rfl]
  · simp only [reportOf, hpid, exited_exitcode, if_true]
    rw [exited_parent htc]
    rfl
  · intro r hr
    obtain ⟨-, c, hcc, hrc⟩ := h.sound r hr
    simp only [hpid]
    intro heq
    rw [hrc] at heq
    exact hcc.ne_current hq (hi.pid_inj hcc.1 hi.current_lt heq)

theorem exit {status : Word} {parent : Option TaskPtr} (h : Ledger tr p) (hi : TableInv p l)
    (hu : p.ctx p.currentTask = .user) (hq : p.cur.state ≠ .taskQuit)
    (hpar : parent = ringFind p l p.cur.ppid) (hm : missedBy p = ∅) :
    Ledger tr { p with task := exited p p.currentTask status parent } where
  clear := by
    intro t ht hst hc
    change (exited p p.currentTask status parent t).state ≠ _ at hst
    change (exited p p.currentTask status parent t).sigpend = _
    have htc : t ≠ p.currentTask := by
      intro htc
      rw [exited_state, if_pos htc] at hst
      exact hst rfl
    have hnp : parent ≠ some t := by
      intro hpt
      rw [hpar, hi.ringFind_eq_some] at hpt
      have hwait : Waiting p t := by
        apply waiting_of_not_missed (hi.made t hpt.1) hpt.2
        rw [hm]
        exact Finset.notMem_empty t
      exact hc hwait.1
    rw [exited_other p status htc hnp] at hst ⊢
    exact h.clear t ht hst hc
  holds := by
    intro t ht hc hw
    have htc : t ≠ p.currentTask := by
      intro htc
      change p.ctx t = .wait4 at hc
      rw [htc, hu] at hc
      cases hc
    by_cases hpt : parent = some t
    · rw [hpt]
      exact h.holds_told hi hq (hpt.symm.trans hpar) htc
    · have hsame := exited_other p status htc hpt
      simp only [Waiting, hsame] at hc hw
      obtain ⟨c, hcc, hrec, hfresh⟩ := h.holds t ht hc hw
      have hquit : c ≠ p.currentTask := hcc.ne_current hq
      refine ⟨c, exitedChild_exited hcc, ?_, ?_⟩
      · rw [reportOf_exited hquit]
        simp only [hsame]
        exact hrec
      · simp only [exited_proj p status parent Task.pid (fun _ _ => rfl) (fun _ _ _ => rfl)]
        exact hfresh
  sound := by
    intro r hr
    obtain ⟨hlt, c, hc, hrc⟩ := h.sound r hr
    have hquit : c ≠ p.currentTask := hc.ne_current hq
    refine ⟨hlt, c, exitedChild_exited hc, ?_⟩
    rw [reportOf_exited hquit]
    exact hrc
  once := h.once

theorem fork {pgd : Word} {descr : DescrPtr → Option Fdescr} (h : Ledger tr p)
    (hcur : p.currentTask < p.ntasks) (hu : p.ctx p.currentTask = .user)
    (hq : p.cur.state ≠ .taskQuit) : Ledger tr (forked p pgd list descr) := by
  have hold {γ : Type} (g : Task → γ) (hg : ∀ (v : Task) (n : Int), g { v with childcount := n } = g v)
      {s : TaskPtr} (hs : s < p.ntasks) : g ((forked p pgd list descr).task s) = g (p.task s) :=
    forked_proj p pgd list descr g hg hs
  have hctx : ∀ t, t < p.ntasks → (forked p pgd list descr).ctx t = p.ctx t := by
    intro t ht
    exact Function.update_of_ne (Nat.ne_of_lt ht) _ _
  have hkeep : ∀ t c, t < p.ntasks → ExitedChild p t c →
      ExitedChild (forked p pgd list descr) t c := by
    intro t c ht hc
    refine ⟨Nat.lt_succ_of_lt hc.1, ?_, ?_⟩
    · rw [hold Task.ppid (fun _ _ => rfl) hc.1, hold Task.pid (fun _ _ => rfl) ht]
      exact hc.2.1
    · rw [hold Task.state (fun _ _ => rfl) hc.1]
      exact hc.2.2
  have hrep : ∀ t c, c < p.ntasks → reportOf (forked p pgd list descr) t c = reportOf p t c := by
    intro t c hc
    unfold reportOf
    rw [hold Task.pid (fun _ _ => rfl) hc, hold Task.exitcode (fun _ _ => rfl) hc]
  refine ⟨?_, ?_, ?_, h.once⟩
  · intro t ht hst hc
    rcases Nat.lt_succ_iff_lt_or_eq.mp ht with hlt | he
    · rw [hold Task.state (fun _ _ => rfl) hlt] at hst
      rw [hctx t hlt] at hc
      rw [hold Task.sigpend (fun _ _ => rfl) hlt]
      exact h.clear t hlt hst hc
    · rw [he, forked_new]
      exact h.clear _ hcur hq (by rw [hu]; decide)
  · intro t ht hc hw
    rcases Nat.lt_succ_iff_lt_or_eq.mp ht with hlt | he
    · unfold Waiting at hw
      rw [hctx t hlt, hold Task.state (fun _ _ => rfl) hlt,
        hold Task.sigpend (fun _ _ => rfl) hlt] at hw
      rw [hctx t hlt] at hc
      obtain ⟨c, hcc, hrec, hfresh⟩ := h.holds t hlt hc hw
      refine ⟨c, hkeep t c hlt hcc, ?_, ?_⟩
      · rw [hrep t c hcc.1, hold Task.sigchldpid (fun _ _ => rfl) hlt,
          hold Task.sigchldexit (fun _ _ => rfl) hlt]
        exact hrec
      · rw [hold Task.pid (fun _ _ => rfl) hcc.1]
        exact hfresh
    · rw [he] at hc
      simp [forked] at hc
  · intro r hr
    obtain ⟨hlt, c, hc, hrc⟩ := h.sound r hr
    exact ⟨Nat.lt_succ_of_lt hlt, c, hkeep _ c hlt hc, by rw [hrep _ c hc.1]; exact hrc⟩

end Ledger

structure ReportsInv (tr : List (Op × Option Report)) (p : Proc) : Prop where
  ntasks : p.ntasks = 1 + forks tr
  table : ∃ l, TableInv p l
  told : ∀ t, t < p.ntasks → Told tr p t
  running : p.cur.state ≠ .taskSigWait
  taken : p.cur.state ≠ .taskQuit → p.cur.sigpend = 0#32
  ledger : Ledger tr p

section Run
variable {p p' : Proc} {l : List TaskPtr} {tr : List (Op × Option Report)}
variable {lbl : Op × Option Report}

theorem Ledger.of_quiet {op : Op} (h : Ledger tr p) : Ledger (tr ++ [(op, none)]) p := by
  have hr := reports_snoc_none tr op
  refine ⟨h.clear, ?_, by rw [hr]; exact h.sound, by rw [hr]; exact h.once⟩
  intro t ht hc hw
  obtain ⟨c, hcc, hrec, hfresh⟩ := h.holds t ht hc hw
  exact ⟨c, hcc, hrec, by rw [hr]; exact hfresh⟩

/-- A task that was just entered is awake and has no signal pending. -/
theorem switchTo_running {q : Proc} {e : TaskPtr} (list : Links TaskPtr) (h : Ledger tr q)
    (he : e < q.ntasks) (hel : Eligible (q.task e)) :
    (switchTo q e list).cur.state ≠ .taskSigWait ∧ (switchTo q e list).cur.sigpend = 0#32 := by
  have hcur : (switchTo q e list).cur = schedule (q.task e) (q.ctx e) := by
    simp [switchTo, Proc.cur]
  rw [hcur]
  refine ⟨schedule_awake _ _, ?_⟩
  rw [schedule_sigpend]
  split
  · rename_i hc
    exact h.clear e he hel.not_quit (by rw [hc]; decide)
  · rfl

theorem Ledger.wait4Return (h : Ledger tr p) (hi : TableInv p l)
    (hc : p.ctx p.currentTask = .wait4) (hrun : p.cur.state ≠ .taskSigWait)
    (hpend : p.cur.state ≠ .taskQuit → p.cur.sigpend = 0#32) :
    Ledger (tr ++ [(.wait4Return, some ⟨p.currentTask, p.cur.sigchldpid, p.cur.sigchldexit⟩)])
      (p.setCtx p.currentTask .user) := by
  have hh := h.holds _ hi.current_lt hc (fun hw => hrun hw.2.1)
  refine (h.return_user hpend).report (hi.setCtx p.currentTask .user) hi.current_lt hh ?_
  simp [Proc.setCtx]

theorem Ledger.step (h : ReportsInv tr p) (hi : TableInv p l) (he : Effect p l lbl p')
    (hm : lbl.1.isExit → missedBy p = ∅) :
    Ledger (tr ++ [lbl]) p' ∧ p'.cur.state ≠ .taskSigWait ∧
      (p'.cur.state ≠ .taskQuit → p'.cur.sigpend = 0#32) := by
  have hled := h.ledger
  have hcur := hi.current_lt
  have hlt {q : Proc} {e : TaskPtr} (hq : TableInv q l) (hel : Eligible (q.task e)) :
      e < q.ntasks := hq.made e (hq.live e hel)
  cases he with
  | fork pgd list descr hu hq _ _ =>
    refine ⟨(hled.fork hcur hu hq).of_quiet, ?_, ?_⟩
    · change ((forked p pgd list descr).task p.currentTask).state ≠ _
      rw [forked_proj p pgd list descr Task.state (fun _ _ => rfl) hcur]
      exact h.running
    · intro _
      change ((forked p pgd list descr).task p.currentTask).sigpend = _
      rw [forked_proj p pgd list descr Task.sigpend (fun _ _ => rfl) hcur]
      exact h.taken hq
  | exit status parent hu hq hpar =>
    have hst : (exited p p.currentTask status parent p.currentTask).state = .taskQuit := by
      rw [exited_state, if_pos rfl]
    refine ⟨(hled.exit hi hu hq hpar (hm rfl)).of_quiet, ?_, ?_⟩
    · change (exited p p.currentTask status parent p.currentTask).state ≠ _
      rw [hst]
      decide
    · intro hq'
      exact absurd hst hq'
  | early _ => exact ⟨hled.of_quiet, h.running, h.taken⟩
  | wait4 _ e list hu hq _ hel _ =>
    have hs := hled.sleepWait4 hcur hu hq
    have hrun := switchTo_running list hs (hlt (hi.sleepWait4 hq) hel) hel
    exact ⟨(hs.switchTo hel).of_quiet, hrun.1, fun _ => hrun.2⟩
  | wait4Return hc =>
    exact ⟨hled.wait4Return hi hc h.running h.taken, h.running, h.taken⟩
  | sigsuspend e list hu hq hel _ =>
    have hs := hled.sleepSuspend hu hq
    have hrun := switchTo_running list hs (hlt (hi.sleepSuspend hq) hel) hel
    exact ⟨(hs.switchTo hel).of_quiet, hrun.1, fun _ => hrun.2⟩
  | sigsuspendReturn _ => exact ⟨(hled.return_user h.taken).of_quiet, h.running, h.taken⟩
  | yield e list hel _ =>
    have hrun := switchTo_running list hled (hlt hi hel) hel
    exact ⟨(hled.switchTo hel).of_quiet, hrun.1, fun _ => hrun.2⟩

theorem WrapStep.home (hs : WrapStep p lbl p') (hh : lbl.1.isFork → HomeAlloc p) :
    ∃ u q, Step p lbl q ∧ p' = q.withUser u := by
  obtain ⟨op, r⟩ := lbl
  obtain ⟨hen, fuel, hex⟩ := hs
  cases op with
  | fork pgd =>
    obtain ⟨⟨c, q⟩, hf, hret⟩ := bind_eq_ok.mp hex
    cases Except.ok.inj hret
    obtain ⟨u, q₀, hf₀, hp'⟩ := taskFork_home (hh rfl) hf
    exact ⟨u, q₀, ⟨hen, fuel, bind_eq_ok.mpr ⟨_, hf₀, rfl⟩⟩, hp'⟩
  | exit _ | wait4 _ | wait4Return | sigsuspend | sigsuspendReturn | yield =>
    exact ⟨p'.userTask, p', ⟨hen, fuel, hex⟩, rfl⟩

theorem ReportsInv.withUser (h : ReportsInv tr p) (u : Option TaskPtr) :
    ReportsInv tr (p.withUser u) := by
  obtain ⟨l, hi⟩ := h.table
  have hled := h.ledger
  exact ⟨h.ntasks, ⟨l, hi.bound, hi.ring, hi.made, hi.linked, hi.blank, hi.nextPid, hi.pid, hi.ppid,
    hi.children⟩, h.told, h.running, h.taken, hled.clear, hled.holds, hled.sound, hled.once⟩

theorem ReportsInv.heard (h : ReportsInv tr p) (hstep : Step p lbl p')
    (hm : lbl.1.isExit → missedBy p = ∅) (hf : forks (tr ++ [lbl]) < 2 ^ 31) :
    ReportsInv (tr ++ [lbl]) p' := by
  obtain ⟨l, hi⟩ := h.table
  have he := hi.effect hstep
  rw [forks_snoc] at hf
  have hb : lbl.1.isFork → p.ntasks < 2 ^ 31 := by
    intro hfork
    rw [if_pos hfork] at hf
    have := h.ntasks
    omega
  obtain ⟨hn, htable⟩ := hi.step he hb
  obtain ⟨hled, hrun, htaken⟩ := Ledger.step h hi he hm
  refine ⟨?_, htable, ?_, hrun, htaken, hled⟩
  · rw [hn, h.ntasks, forks_snoc]
    omega
  · intro t ht
    refine Told.step hi hb he ht ?_ (h.told t)
    intro hx
    rw [hm hx]
    exact Finset.notMem_empty t

theorem ReportsInv.step (h : ReportsInv tr p) (hstep : HeardStep p lbl p')
    (hf : forks (tr ++ [lbl]) < 2 ^ 31) : ReportsInv (tr ++ [lbl]) p' := by
  obtain ⟨u, q, hq, rfl⟩ := hstep.1.home hstep.2.2
  exact (h.heard hq hstep.2.1 hf).withUser u

theorem bootProc_ledger (kernEnd pgd : Word) : Ledger [] (bootProc kernEnd pgd) := by
  have h0 : ∀ t : TaskPtr, t < 1 → t = kernelTask := fun t ht => Nat.lt_one_iff.mp ht
  refine ⟨?_, ?_, ?_, List.nodup_nil⟩
  · intro t ht _ _
    rw [h0 t ht]
    rfl
  · intro t ht hc
    rw [h0 t ht] at hc
    cases hc
  · intro r hr
    cases hr

theorem run_reports {kernEnd pgd : Word} (hrun : Run HeardStep (bootProc kernEnd pgd) tr p)
    (hf : forks tr < 2 ^ 31) : ReportsInv tr p := by
  refine Run.invariant (I := fun tr p => forks tr < 2 ^ 31 → ReportsInv tr p) ?_ ?_ hrun hf
  · intro _
    have hst : (bootProc kernEnd pgd).cur.state = .taskReady := rfl
    exact ⟨rfl, ⟨[], bootProc_table kernEnd pgd⟩, fun t _ => bootProc_told kernEnd pgd t,
      by rw [hst]; decide, fun _ => rfl, bootProc_ledger kernEnd pgd⟩
  · intro tr p lbl p' ih hstep hlt
    have hle : forks tr < 2 ^ 31 := by
      rw [forks_snoc] at hlt
      omega
    exact (ih hle).step hstep hlt

/-- In a run whose exits all find the parent asleep in `sys_wait4` and whose forks all allocate
where the allocator returns to the running task: what was returned is the pid and status of an
exited child of the caller, no child was returned twice, and every exited child was returned or
is what the call that its parent is in is going to return. -/
theorem wait4_reports_once (kernEnd pgd : Word) (tr : List (Op × Option Report)) (p : Proc)
    (hrun : Run HeardStep (bootProc kernEnd pgd) tr p) (hf : forks tr < 2 ^ 31) :
    (∀ r ∈ reports tr, ∃ c, ExitedChild p r.parent c ∧ r = reportOf p r.parent c) ∧
      ((reports tr).map Report.pid).Nodup ∧
      ∀ t c, t < p.ntasks → ExitedChild p t c →
        reportOf p t c ∈ reports tr ∨ Recorded p t c := by
  have hinv := run_reports hrun hf
  refine ⟨?_, hinv.ledger.once, ?_⟩
  · intro r hr
    exact (hinv.ledger.sound r hr).2
  · intro t c ht hc
    exact hinv.told t ht c hc

/-- The executable form of a step whose exit is heard. -/
def tryHeard (fuel : Nat) (op : Op) (p : Proc) : Except Fault (Option Report × Proc) :=
  if (op.isExit = true → missedBy p = ∅) ∧ (op.isFork = true → HomeAlloc p)
  then op.tryWrapped fuel p else .error .diverges

theorem heard_of_tryHeard (fuel : Nat) (op : Op) (p : Proc) (r : Option Report) (p' : Proc)
    (h : tryHeard fuel op p = .ok (r, p')) : HeardStep p (op, r) p' := by
  unfold tryHeard at h
  split at h
  · rename_i hm
    exact ⟨wrapStep_of_tryWrapped fuel op p r p' h, hm⟩
  · cases h

/-- Two children quit one after the other, each while its parent sleeps. -/
theorem wait4_reports_once_of_two : ∃ tr p, Run HeardStep (bootProc 0 0) tr p ∧
    reports tr = [⟨0, 1, 7⟩, ⟨0, 2, 8⟩] ∧ ((reports tr).map Report.pid).Nodup := by
  obtain ⟨tr, p, hrun, htest⟩ := exists_run (tryHeard 5) (heard_of_tryHeard 5)
    [.fork 0, .wait4 0, .exit 7, .yield, .wait4Return,
      .fork 0, .wait4 0, .exit 8, .yield, .wait4Return]
    (bootProc 0 0) (fun tr _ => reports tr == [⟨0, 1, 7⟩, ⟨0, 2, 8⟩] && forks tr == 2)
    (by decide +kernel)
  simp only [Bool.and_eq_true, beq_iff_eq] at htest
  exact ⟨tr, p, hrun, htest.1, (wait4_reports_once 0 0 tr p hrun (by rw [htest.2]; decide)).2.1⟩

/-- Two children quit while their parent is preempted: the second overwrites what the
first left, which no call of `sys_wait4` returned. -/
theorem wait4_loses_report : ∃ tr p, Run WrapStep (bootProc 0 0) tr p ∧ ∃ t c, t < p.ntasks ∧
    ExitedChild p t c ∧ reportOf p t c ∉ reports tr ∧ (p.task t).sigchldpid ≠ (p.task c).pid := by
  obtain ⟨tr, p, hrun, htest⟩ := exists_run (Op.tryWrapped 5) (wrapStep_of_tryWrapped 5)
    [.fork 0, .fork 0, .yield, .yield, .exit 7, .yield, .yield, .exit 8] (bootProc 0 0)
    (fun tr p => reports tr == [] && decide (0 < p.ntasks) &&
      decide (ExitedChild p 0 1 ∧ (p.task 0).sigchldpid ≠ (p.task 1).pid)) (by decide +kernel)
  simp only [Bool.and_eq_true, beq_iff_eq, decide_eq_true_eq] at htest
  obtain ⟨⟨hrep, hlt⟩, hc, hne⟩ := htest
  refine ⟨tr, p, hrun, 0, 1, hlt, hc, ?_, hne⟩
  rw [hrep]
  exact List.not_mem_nil

end Run

end AkKernel
