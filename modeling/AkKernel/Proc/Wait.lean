import AkKernel.Proc.TaskTable

/-!
# What sys_wait4 tells a parent

`task_exit` leaves the pid and the status of the exiting task in two fields of its
parent and raises `SIGCHLD`; `task_enter` takes the signal whoever the parent is
waiting for. So an exit reaches the parent only when it finds it asleep in
`sys_wait4` with no signal pending: an earlier one is dropped on the next switch to
the parent, and a second one overwrites the first.
-/

set_option autoImplicit false

namespace AkKernel

open LinkedRing Runs

/-- `t` sleeps in `sys_wait4` and no signal is pending for it. -/
def Waiting (p : Proc) (t : TaskPtr) : Prop :=
  p.ctx t = .wait4 ∧ (p.task t).state = .taskSigWait ∧ (p.task t).sigpend = 0#32

instance (p : Proc) (t : TaskPtr) : Decidable (Waiting p t) := inferInstanceAs (Decidable (_ ∧ _))

/-- `c` is a child of `t` that has called `sys_exit`. -/
def ExitedChild (p : Proc) (t c : TaskPtr) : Prop :=
  c < p.ntasks ∧ (p.task c).ppid = (p.task t).pid ∧ (p.task c).state = .taskQuit

instance (p : Proc) (t c : TaskPtr) : Decidable (ExitedChild p t c) :=
  inferInstanceAs (Decidable (_ ∧ _))

def reports (tr : List (Op × Option Report)) : List Report := tr.filterMap Prod.snd

def reportOf (p : Proc) (t c : TaskPtr) : Report := ⟨t, (p.task c).pid, (p.task c).exitcode⟩

/-- The exit of `c` is what the call of `sys_wait4` that `t` is in will return. -/
def Recorded (p : Proc) (t c : TaskPtr) : Prop :=
  p.ctx t = .wait4 ∧ ¬ Waiting p t ∧
    (⟨t, (p.task t).sigchldpid, (p.task t).sigchldexit⟩ : Report) = reportOf p t c

/-- Every child of `t` that has exited was returned to it, or is about to be. -/
def Told (tr : List (Op × Option Report)) (p : Proc) (t : TaskPtr) : Prop :=
  ∀ c, ExitedChild p t c → reportOf p t c ∈ reports tr ∨ Recorded p t c

/-- The tasks that the exit of `CurrentTask` should be told to and that are not
asleep in `sys_wait4` with no signal pending. -/
def missedBy (p : Proc) : Finset TaskPtr :=
  (Finset.range p.ntasks).filter fun q => (p.task q).pid = p.cur.ppid ∧ ¬ Waiting p q

def Op.isExit : Op → Bool
  | .exit _ => true
  | _ => false

section Frame
variable {p p' : Proc} {tr : List (Op × Option Report)} {lbl : Op × Option Report} {t : TaskPtr}

theorem reports_snoc_none (tr : List (Op × Option Report)) (op : Op) :
    reports (tr ++ [(op, none)]) = reports tr := by
  simp [reports]

theorem reports_snoc_some (op : Op) (r : Report) :
    reports (tr ++ [(op, some r)]) = reports tr ++ [r] := by
  simp [reports]

theorem Told.reported (h : Told tr p t) (hc : p.ctx t ≠ .wait4 ∨ Waiting p t) {c : TaskPtr}
    (he : ExitedChild p t c) : reportOf p t c ∈ reports tr := by
  rcases h c he with h | h
  · exact h
  · rcases hc with hc | hc
    · exact absurd h.1 hc
    · exact absurd hc h.2.1

/-- The exits that a step leaves alone, and the reports it keeps. -/
structure SameExits (p p' : Proc) : Prop where
  ntasks : p'.ntasks = p.ntasks
  pid : ∀ t, (p'.task t).pid = (p.task t).pid
  ppid : ∀ t, (p'.task t).ppid = (p.task t).ppid
  exitcode : ∀ t, (p'.task t).exitcode = (p.task t).exitcode
  quit : ∀ t, (p'.task t).state = .taskQuit ↔ (p.task t).state = .taskQuit

theorem SameExits.refl (p : Proc) : SameExits p p :=
  ⟨rfl, fun _ => rfl, fun _ => rfl, fun _ => rfl, fun _ => Iff.rfl⟩

theorem SameExits.trans {q : Proc} (h : SameExits p q) (h' : SameExits q p') : SameExits p p' :=
  ⟨h'.ntasks.trans h.ntasks, fun t => (h'.pid t).trans (h.pid t),
    fun t => (h'.ppid t).trans (h.ppid t), fun t => (h'.exitcode t).trans (h.exitcode t),
    fun t => (h'.quit t).trans (h.quit t)⟩

theorem SameExits.exitedChild (h : SameExits p p') {c : TaskPtr} :
    ExitedChild p' t c ↔ ExitedChild p t c := by
  unfold ExitedChild
  rw [h.ntasks, h.ppid, h.pid, h.quit]

theorem SameExits.reportOf_eq (h : SameExits p p') (c : TaskPtr) :
    reportOf p' t c = reportOf p t c := by
  unfold reportOf
  rw [h.pid, h.exitcode]

/-- A step that leaves the exits alone keeps `Told` for a task that was told
everything, and for one whose record stays. -/
theorem Told.of_sameExits (h : Told tr p t) (hs : SameExits p p')
    (hk : (∀ c, ExitedChild p t c → reportOf p t c ∈ reports tr) ∨
      ∀ c, Recorded p t c → Recorded p' t c) : Told tr p' t := by
  intro c he
  have he' := hs.exitedChild.mp he
  rw [hs.reportOf_eq]
  rcases hk with hk | hk
  · exact Or.inl (hk c he')
  · exact (h c he').imp_right (hk c)

end Frame

section Quiet
variable {p : Proc} {tr : List (Op × Option Report)} {t e : TaskPtr} {list : Links TaskPtr}

theorem schedule_exitcode (v : Task) (c : Ctx) : (schedule v c).exitcode = v.exitcode := by
  unfold schedule resume; split <;> split <;> rfl

theorem schedule_sigchldpid (v : Task) (c : Ctx) : (schedule v c).sigchldpid = v.sigchldpid := by
  unfold schedule resume; split <;> split <;> rfl

theorem schedule_sigchldexit (v : Task) (c : Ctx) :
    (schedule v c).sigchldexit = v.sigchldexit := by
  unfold schedule resume; split <;> split <;> rfl

theorem schedule_awake (v : Task) (c : Ctx) : (schedule v c).state ≠ .taskSigWait := by
  rw [schedule_state]
  split
  · decide
  · assumption

theorem sameExits_switchTo : SameExits p (switchTo p e list) :=
  ⟨rfl, update_proj p.task Task.pid (schedule_pid _ _),
    update_proj p.task Task.ppid (schedule_ppid _ _),
    update_proj p.task Task.exitcode (schedule_exitcode _ _),
    fun t => Iff.of_eq (update_proj p.task (fun v => v.state = .taskQuit)
      (propext (schedule_quit _ _)) t)⟩

theorem sameExits_setCtx (x : TaskPtr) (c : Ctx) : SameExits p (p.setCtx x c) :=
  ⟨rfl, fun _ => rfl, fun _ => rfl, fun _ => rfl, fun _ => Iff.rfl⟩

theorem quit_update {v : Task} (hq : p.cur.state ≠ .taskQuit) (hv : v.state ≠ .taskQuit) :
    ∀ t, (Function.update p.task p.currentTask v t).state = .taskQuit ↔
      (p.task t).state = .taskQuit := by
  intro t
  by_cases ht : t = p.currentTask
  · rw [ht, Function.update_self]
    exact ⟨fun h => absurd h hv, fun h => absurd h hq⟩
  · rw [Function.update_of_ne ht]

theorem sameExits_sleepWait4 (hq : p.cur.state ≠ .taskQuit) : SameExits p (sleepWait4 p) :=
  ⟨rfl, update_proj p.task Task.pid rfl, update_proj p.task Task.ppid rfl,
    update_proj p.task Task.exitcode rfl, quit_update hq (by simp)⟩

theorem sameExits_sleepSuspend (hq : p.cur.state ≠ .taskQuit) : SameExits p (sleepSuspend p) :=
  ⟨rfl, update_proj p.task Task.pid rfl, update_proj p.task Task.ppid rfl,
    update_proj p.task Task.exitcode rfl, quit_update hq (by simp)⟩

theorem recorded_switchTo {c : TaskPtr} (h : Recorded p t c) :
    Recorded (switchTo p e list) t c := by
  obtain ⟨hctx, hw, hr⟩ := h
  have hrep : reportOf (switchTo p e list) t c = reportOf p t c :=
    sameExits_switchTo.reportOf_eq c
  by_cases ht : t = e
  · subst ht
    have hc : (switchTo p t list).ctx t = .wait4 := by
      simp [switchTo, resumeCtx, hctx]
    have hs : (switchTo p t list).task t = schedule (p.task t) (p.ctx t) := by
      simp [switchTo]
    refine ⟨hc, ?_, ?_⟩
    · intro h
      have h1 := h.2.1
      rw [hs] at h1
      exact schedule_awake _ _ h1
    · rw [hrep, hs, schedule_sigchldpid, schedule_sigchldexit]
      exact hr
  · have hc : (switchTo p e list).ctx t = p.ctx t := by
      simp [switchTo, ht]
    have hs : (switchTo p e list).task t = p.task t := by
      simp [switchTo, ht]
    refine ⟨by rw [hc]; exact hctx, ?_, by rw [hrep, hs]; exact hr⟩
    unfold Waiting
    rw [hc, hs]
    exact hw

theorem Told.switchTo (h : Told tr p t) : Told tr (switchTo p e list) t :=
  h.of_sameExits sameExits_switchTo (Or.inr fun _ => recorded_switchTo)

/-- A change of the running task from its own code keeps `Told`: it is in no call of
`sys_wait4`, so it was told everything. -/
theorem Told.of_user {p' : Proc} (h : Told tr p t) (hu : p.ctx p.currentTask = .user)
    (hs : SameExits p p') (htask : ∀ s, s ≠ p.currentTask → p'.task s = p.task s)
    (hctx : ∀ s, s ≠ p.currentTask → p'.ctx s = p.ctx s) : Told tr p' t := by
  apply h.of_sameExits hs
  by_cases ht : t = p.currentTask
  · left
    intro c he
    exact h.reported (Or.inl (by rw [ht, hu]; decide)) he
  · right
    intro c hr
    unfold Recorded Waiting at hr ⊢
    rw [hs.reportOf_eq, htask t ht, hctx t ht]
    exact hr

theorem Told.sleepWait4 (h : Told tr p t) (hu : p.ctx p.currentTask = .user)
    (hq : p.cur.state ≠ .taskQuit) : Told tr (sleepWait4 p) t := by
  apply h.of_user hu (sameExits_sleepWait4 hq)
  · intro s hs
    exact Function.update_of_ne hs _ _
  · intro s hs
    exact Function.update_of_ne hs _ _

theorem Told.sleepSuspend (h : Told tr p t) (hu : p.ctx p.currentTask = .user)
    (hq : p.cur.state ≠ .taskQuit) : Told tr (sleepSuspend p) t := by
  apply h.of_user hu (sameExits_sleepSuspend hq)
  · intro s hs
    exact Function.update_of_ne hs _ _
  · intro s hs
    exact Function.update_of_ne hs _ _

theorem Told.wait4Return (h : Told tr p t) :
    Told (tr ++ [(.wait4Return, some ⟨p.currentTask, p.cur.sigchldpid, p.cur.sigchldexit⟩)])
      (p.setCtx p.currentTask .user) t := by
  intro c he
  have hs := sameExits_setCtx (p := p) p.currentTask .user
  rw [hs.reportOf_eq, reports_snoc_some, List.mem_append, List.mem_singleton]
  rcases h c (hs.exitedChild.mp he) with hr | hr
  · exact Or.inl (Or.inl hr)
  · by_cases ht : t = p.currentTask
    · left
      right
      rw [← hr.2.2, ht]
      rfl
    · right
      have hc : (p.setCtx p.currentTask .user).ctx t = p.ctx t := Function.update_of_ne ht _ _
      unfold Recorded Waiting at hr ⊢
      rw [hs.reportOf_eq, hc]
      exact hr

theorem Told.sigsuspendReturn (h : Told tr p t) (hc : p.ctx p.currentTask = .sigsuspend) :
    Told tr (p.setCtx p.currentTask .user) t := by
  apply h.of_sameExits (sameExits_setCtx p.currentTask .user)
  right
  intro c hr
  have ht : t ≠ p.currentTask := by
    intro ht
    rw [Recorded, ht, hc] at hr
    exact absurd hr.1 (by decide)
  have hctx : (p.setCtx p.currentTask .user).ctx t = p.ctx t := Function.update_of_ne ht _ _
  unfold Recorded Waiting at hr ⊢
  rw [hctx]
  exact hr

end Quiet

section Exits
variable {p p' : Proc} {l : List TaskPtr} {tr : List (Op × Option Report)}
variable {lbl : Op × Option Report} {t : TaskPtr} {status : Word} {parent : Option TaskPtr}

theorem exited_exitcode (x t : TaskPtr) : (exited p x status parent t).exitcode =
    if t = x then status else (p.task t).exitcode := by
  have h1 : (Function.update p.task x (quitOf (p.task x) status) t).exitcode =
      if t = x then status else (p.task t).exitcode := by
    by_cases ht : t = x
    · subst ht
      simp [quitOf]
    · simp [ht]
  cases parent with
  | none => exact h1
  | some q =>
    let task := Function.update p.task x (quitOf (p.task x) status)
    have h2 : (exited p x status (some q) t).exitcode = (task t).exitcode :=
      update_proj task Task.exitcode (v := notified (task q) (p.task x).pid status) rfl t
    exact h2.trans h1

theorem exited_other (p : Proc) (status : Word) {x : TaskPtr} (hx : t ≠ x)
    (hq : parent ≠ some t) : exited p x status parent t = p.task t := by
  cases parent with
  | none => exact Function.update_of_ne hx _ _
  | some q =>
    have ht : t ≠ q := fun h => hq (by rw [h])
    simp only [exited, Function.update_of_ne ht, Function.update_of_ne hx]

theorem exited_parent {x : TaskPtr} (hx : t ≠ x) :
    exited p x status (some t) t = notified (p.task t) (p.task x).pid status := by
  simp only [exited, Function.update_self, Function.update_of_ne hx]

/-- A parent that the exit does not miss is found by `task_get`. -/
theorem TableInv.parent_of_waiting (hi : TableInv p l) (hpar : parent = ringFind p l p.cur.ppid)
    (ht : t < p.ntasks) (hpid : (p.task t).pid = p.cur.ppid) (hw : Waiting p t) :
    parent = some t := by
  rw [hpar, hi.ringFind_eq_some]
  refine ⟨hi.linked t ht ?_, hpid⟩
  rw [hw.2.1]
  decide

theorem waiting_of_not_missed (ht : t < p.ntasks) (hpid : (p.task t).pid = p.cur.ppid)
    (hm : t ∉ missedBy p) : Waiting p t := by
  by_contra hw
  exact hm (Finset.mem_filter.mpr ⟨Finset.mem_range.mpr ht, hpid, hw⟩)

theorem Told.exit (h : Told tr p t) (hi : TableInv p l) (hu : p.ctx p.currentTask = .user)
    (hpar : parent = ringFind p l p.cur.ppid) (ht : t < p.ntasks) (hm : t ∉ missedBy p) :
    Told tr { p with task := exited p p.currentTask status parent } t := by
  have hpid := exited_proj p status parent Task.pid (fun _ _ => rfl) (fun _ _ _ => rfl)
    p.currentTask
  have hppid := exited_proj p status parent Task.ppid (fun _ _ => rfl) (fun _ _ _ => rfl)
    p.currentTask
  have hne : p.ctx t = .wait4 → t ≠ p.currentTask := by
    intro hc he
    rw [he, hu] at hc
    exact absurd hc (by decide)
  intro c hc
  obtain ⟨hcn, hcp, hcq⟩ := hc
  simp only [hppid, hpid] at hcp
  by_cases hcc : c = p.currentTask
  · subst hcc
    have hw := waiting_of_not_missed ht hcp.symm hm
    have hq := hi.parent_of_waiting hpar ht hcp.symm hw
    right
    refine ⟨hw.1, ?_, ?_⟩
    · intro hw'
      have h1 := hw'.2.2
      rw [hq] at h1
      change (exited p p.currentTask status (some t) t).sigpend = 0#32 at h1
      rw [exited_parent (hne hw.1)] at h1
      exact absurd h1 (by simp [notified, sigChld])
    · unfold reportOf
      simp only [hpid, exited_exitcode, if_true]
      rw [hq, exited_parent (hne hw.1)]
      rfl
  · have hec : ExitedChild p t c := by
      refine ⟨hcn, hcp, ?_⟩
      change (exited p p.currentTask status parent c).state = _ at hcq
      rw [exited_state, if_neg hcc] at hcq
      exact hcq
    have hrep : reportOf { p with task := exited p p.currentTask status parent } t c =
        reportOf p t c := by
      unfold reportOf
      simp only [hpid, exited_exitcode, if_neg hcc]
    rw [hrep]
    rcases h c hec with hr | hr
    · exact Or.inl hr
    · right
      have hq : parent ≠ some t := by
        intro hq
        rw [hpar, hi.ringFind_eq_some] at hq
        exact hr.2.1 (waiting_of_not_missed ht hq.2 hm)
      have hsame := exited_other p status (hne hr.1) hq
      unfold Recorded Waiting at hr ⊢
      rw [hrep]
      simp only [hsame]
      exact hr

/-- No exit of a child can have happened before the task was made. -/
theorem Told.fork (h : t < p.ntasks → Told tr p t) (hi : TableInv p l)
    (hb : p.ntasks < 2 ^ 31) {pgd : Word} {list : Links TaskPtr}
    {descr : DescrPtr → Option Fdescr} (ht : t < p.ntasks + 1) : Told tr (forked p pgd list descr) t := by
  have hold {γ : Type} (g : Task → γ) (hg : ∀ (v : Task) (n : Int), g { v with childcount := n } = g v)
      {s : TaskPtr} (hs : s < p.ntasks) : g ((forked p pgd list descr).task s) = g (p.task s) :=
    forked_proj p pgd list descr g hg hs
  intro c hc
  obtain ⟨hcn, hcp, hcq⟩ := hc
  have hcn' : c < p.ntasks := by
    rcases Nat.lt_succ_iff_lt_or_eq.mp hcn with hlt | he
    · exact hlt
    · rw [he, forked_new] at hcq
      exact absurd hcq (by simp [cloneOf])
  rw [hold Task.ppid (fun _ _ => rfl) hcn'] at hcp
  rw [hold Task.state (fun _ _ => rfl) hcn'] at hcq
  have ht' : t < p.ntasks := by
    rcases Nat.lt_succ_iff_lt_or_eq.mp ht with hlt | he
    · exact hlt
    · obtain ⟨m, hm, hme⟩ := hi.ppid c hcn'
      rw [he, forked_new, hme] at hcp
      have h2 : BitVec.ofNat 32 m = BitVec.ofNat 32 p.ntasks := hcp.trans hi.nextPid
      have := ofNat_inj (by omega) (by omega) h2
      omega
  rw [hold Task.pid (fun _ _ => rfl) ht'] at hcp
  have hrep : reportOf (forked p pgd list descr) t c = reportOf p t c := by
    unfold reportOf
    rw [hold Task.pid (fun _ _ => rfl) hcn', hold Task.exitcode (fun _ _ => rfl) hcn']
  rw [hrep]
  rcases h ht' c ⟨hcn', hcp, hcq⟩ with hr | hr
  · exact Or.inl hr
  · right
    have hctx : (forked p pgd list descr).ctx t = p.ctx t :=
      Function.update_of_ne (Nat.ne_of_lt ht') _ _
    unfold Recorded Waiting at hr ⊢
    rw [hrep, hctx, hold Task.state (fun _ _ => rfl) ht', hold Task.sigpend (fun _ _ => rfl) ht',
      hold Task.sigchldpid (fun _ _ => rfl) ht', hold Task.sigchldexit (fun _ _ => rfl) ht']
    exact hr

/-- A step keeps `Told` for every task whose child it does not lose. -/
theorem Told.step (hi : TableInv p l) (hb : lbl.1.isFork → p.ntasks < 2 ^ 31)
    (he : Effect p l lbl p') (ht : t < p'.ntasks) (hm : lbl.1.isExit → t ∉ missedBy p)
    (h : t < p.ntasks → Told tr p t) : Told (tr ++ [lbl]) p' t := by
  cases he with
  | fork pgd list descr _ _ _ _ =>
    intro c
    rw [reports_snoc_none]
    exact Told.fork h hi (hb rfl) ht c
  | exit status parent hu _ hpar =>
    intro c
    rw [reports_snoc_none]
    exact (h ht).exit hi hu hpar ht (hm rfl) c
  | early options =>
    intro c
    rw [reports_snoc_none]
    exact h ht c
  | wait4 options e list hu hq _ _ _ =>
    intro c
    rw [reports_snoc_none]
    exact ((h ht).sleepWait4 hu hq).switchTo c
  | wait4Return _ => exact (h ht).wait4Return
  | sigsuspend e list hu hq _ _ =>
    intro c
    rw [reports_snoc_none]
    exact ((h ht).sleepSuspend hu hq).switchTo c
  | sigsuspendReturn hc =>
    intro c
    rw [reports_snoc_none]
    exact (h ht).sigsuspendReturn hc c
  | yield e list _ _ =>
    intro c
    rw [reports_snoc_none]
    exact (h ht).switchTo c

end Exits

section LostWakeup
variable {p p' : Proc} {l : List TaskPtr} {tr : List (Op × Option Report)}
variable {lbl : Op × Option Report} {t : TaskPtr}

/-- `t` sleeps in `sys_wait4`, no signal is pending for it, and its child `c` has
exited without an earlier `sys_wait4` of `t` returning it. -/
def LostWakeup (tr : List (Op × Option Report)) (p : Proc) (t c : TaskPtr) : Prop :=
  (p.task t).state = .taskSigWait ∧ (p.task t).sigwait = sigChld ∧ (p.task t).sigpend = 0#32 ∧
    ExitedChild p t c ∧ ∀ r ∈ reports tr, ¬ (r.parent = t ∧ r.pid = (p.task c).pid)

/-- The running task is awake, and a task waits for `SIGCHLD` only while it sleeps
in `sys_wait4`. -/
structure SleepInv (p : Proc) : Prop where
  running : p.cur.state ≠ .taskSigWait
  sigwait : ∀ t, (p.task t).state ≠ .taskQuit → (p.task t).sigwait = sigChld →
    p.ctx t = .wait4 ∧ (p.task t).state = .taskSigWait

/-- The tasks together with those that missed the exit of a child. -/
structure Watched where
  proc : Proc
  missed : Finset TaskPtr

def WatchedStep (s : Watched) (lbl : Op × Option Report) (s' : Watched) : Prop :=
  Step s.proc lbl s'.proc ∧
    s'.missed = if lbl.1.isExit then s.missed ∪ missedBy s.proc else s.missed

/-- The step does not put a task to sleep in `sys_wait4` once it missed an exit. -/
def Watched.Careful (s : Watched) : Op → Prop
  | .wait4 options => wait4Early s.proc.cur options = true ∨ s.proc.currentTask ∉ s.missed
  | _ => True

instance (s : Watched) (op : Op) : Decidable (s.Careful op) :=
  match op with
  | .wait4 _ => inferInstanceAs (Decidable (_ ∨ _))
  | .fork _ | .exit _ | .wait4Return | .sigsuspend | .sigsuspendReturn | .yield => .isTrue trivial

def CarefulStep (s : Watched) (lbl : Op × Option Report) (s' : Watched) : Prop :=
  WatchedStep s lbl s' ∧ s.Careful lbl.1

/-- A task that missed an exit does not sleep for another one. -/
def MissedAwake (p : Proc) (missed : Finset TaskPtr) : Prop :=
  ∀ t ∈ missed, t < p.ntasks ∧ ¬ ((p.task t).state = .taskSigWait ∧
    (p.task t).sigwait = sigChld ∧ (p.task t).sigpend = 0#32)

theorem SleepInv.sigwait_user (h : SleepInv p) (hq : (p.task t).state ≠ .taskQuit)
    (hu : p.ctx t ≠ .wait4) : (p.task t).sigwait ≠ sigChld := by
  intro hs
  exact hu (h.sigwait t hq hs).1

theorem schedule_sigwait {v : Task} {c : Ctx} (hel : Eligible v) (hc : c ≠ .forked)
    (hs : v.state = .taskSigWait) : (schedule v c).sigwait ≠ sigChld := by
  rcases hel with hr | ⟨-, hpend, hw⟩
  · rw [hs] at hr
    cases hr
  · simp only [schedule, hs, if_true, resume, hc, hpend, or_self, if_false]
    split
    · decide
    · rename_i hne
      rcases hw with hw | hw
      · exact absurd hw.symm hne
      · rw [hw]
        decide

theorem schedule_sigwait_of_ne {v : Task} {c : Ctx} (h : v.sigwait ≠ sigChld) :
    (schedule v c).sigwait ≠ sigChld := by
  unfold schedule resume
  split
  · split
    · exact h
    · dsimp only
      split
      · decide
      · exact h
  · split
    · exact h
    · dsimp only
      split
      · decide
      · exact h

theorem SleepInv.switchTo {e : TaskPtr} {list : Links TaskPtr}
    (h : ∀ t, (p.task t).state ≠ .taskQuit → (p.task t).sigwait = sigChld →
      p.ctx t = .wait4 ∧ (p.task t).state = .taskSigWait)
    (hel : Eligible (p.task e)) : SleepInv (switchTo p e list) := by
  have hself : (AkKernel.switchTo p e list).task e = schedule (p.task e) (p.ctx e) := by
    simp [AkKernel.switchTo]
  refine ⟨?_, ?_⟩
  · change ((AkKernel.switchTo p e list).task e).state ≠ _
    rw [hself]
    exact schedule_awake _ _
  · intro t hq hs
    by_cases ht : t = e
    · subst ht
      rw [hself] at hs
      by_cases hold : (p.task t).sigwait = sigChld
      · obtain ⟨hc, hst⟩ := h t hel.not_quit hold
        exact absurd hs (schedule_sigwait hel (by rw [hc]; decide) hst)
      · exact absurd hs (schedule_sigwait_of_ne hold)
    · have hc : (AkKernel.switchTo p e list).ctx t = p.ctx t := by
        simp [AkKernel.switchTo, ht]
      have hs' : (AkKernel.switchTo p e list).task t = p.task t := by
        simp [AkKernel.switchTo, ht]
      rw [hs'] at hq hs ⊢
      rw [hc]
      exact h t hq hs

/-- The task that runs is not the one that sleeps. -/
theorem SleepInv.woken (h : SleepInv p) : SleepInv (p.setCtx p.currentTask .user) := by
  refine ⟨h.running, ?_⟩
  intro t hst hs
  have ht : t ≠ p.currentTask := by
    intro ht
    subst ht
    exact h.running (h.sigwait _ hst hs).2
  have hctx : (p.setCtx p.currentTask .user).ctx t = p.ctx t := Function.update_of_ne ht _ _
  rw [hctx]
  exact h.sigwait t hst hs

theorem SleepInv.fork {pgd : Word} {list : Links TaskPtr} {descr : DescrPtr → Option Fdescr}
    (h : SleepInv p) (hi : TableInv p l) (hu : p.ctx p.currentTask = .user)
    (hq : p.cur.state ≠ .taskQuit) : SleepInv (forked p pgd list descr) := by
  have hcur : ((forked p pgd list descr).task p.currentTask).state = p.cur.state :=
    forked_proj p pgd list descr Task.state (fun _ _ => rfl) hi.current_lt
  refine ⟨?_, ?_⟩
  · change ((forked p pgd list descr).task p.currentTask).state ≠ _
    rw [hcur]
    exact h.running
  · intro t hst hs
    by_cases ht : t = p.ntasks
    · rw [ht, forked_new] at hs
      exact absurd hs (h.sigwait_user hq (by rw [hu]; decide))
    · have hctx : (forked p pgd list descr).ctx t = p.ctx t := Function.update_of_ne ht _ _
      have hproj {γ : Type} (g : Task → γ) (hg : ∀ (v : Task) (n : Int),
          g { v with childcount := n } = g v) :
          g ((forked p pgd list descr).task t) = g (p.task t) := by
        have hold : (forked p pgd list descr).task t = Function.update p.task p.currentTask
            { p.cur with childcount := p.cur.childcount + 1 } t := Function.update_of_ne ht _ _
        rw [hold]
        exact update_proj p.task g (hg _ _) t
      rw [hproj Task.state (fun _ _ => rfl)] at hst ⊢
      rw [hproj Task.sigwait (fun _ _ => rfl)] at hs
      rw [hctx]
      exact h.sigwait t hst hs

theorem SleepInv.exit {status : Word} {parent : Option TaskPtr} (h : SleepInv p) :
    SleepInv { p with task := exited p p.currentTask status parent } := by
  refine ⟨?_, ?_⟩
  · change (exited p p.currentTask status parent p.currentTask).state ≠ _
    rw [exited_state, if_pos rfl]
    decide
  · intro t hst hs
    change (exited p p.currentTask status parent t).state ≠ _ at hst
    change (exited p p.currentTask status parent t).sigwait = _ at hs
    change _ ∧ (exited p p.currentTask status parent t).state = _
    rw [exited_proj p status parent Task.sigwait (fun _ _ => rfl) (fun _ _ _ => rfl)] at hs
    rw [exited_state] at hst ⊢
    by_cases ht : t = p.currentTask
    · rw [if_pos ht] at hst
      exact absurd rfl hst
    · rw [if_neg ht] at hst ⊢
      exact h.sigwait t hst hs

theorem SleepInv.step (h : SleepInv p) (hi : TableInv p l) (he : Effect p l lbl p') :
    SleepInv p' := by
  cases he with
  | fork pgd list descr hu hq _ _ => exact h.fork hi hu hq
  | exit status parent _ _ _ => exact h.exit
  | early _ => exact h
  | wait4 _ e list hu hq _ hel _ =>
    apply SleepInv.switchTo _ hel
    intro t hst hs
    by_cases ht : t = p.currentTask
    · subst ht
      simp [sleepWait4]
    · simp only [sleepWait4, Function.update_of_ne ht] at hst hs ⊢
      exact h.sigwait t hst hs
  | wait4Return hc => exact h.woken
  | sigsuspend e list hu hq hel _ =>
    apply SleepInv.switchTo _ hel
    intro t hst hs
    by_cases ht : t = p.currentTask
    · subst ht
      simp only [sleepSuspend, Function.update_self] at hs
      exact absurd hs (h.sigwait_user hq (by rw [hu]; decide))
    · simp only [sleepSuspend, Function.update_of_ne ht] at hst hs ⊢
      exact h.sigwait t hst hs
  | sigsuspendReturn hc => exact h.woken
  | yield e list hel _ => exact SleepInv.switchTo h.sigwait hel

theorem MissedAwake.switchTo {missed : Finset TaskPtr} {e : TaskPtr} {list : Links TaskPtr}
    (h : MissedAwake p missed) : MissedAwake (switchTo p e list) missed := by
  intro t hm
  refine ⟨(h t hm).1, ?_⟩
  by_cases ht : t = e
  · subst ht
    intro hs
    have h1 := hs.1
    simp only [AkKernel.switchTo, Function.update_self] at h1
    exact schedule_awake _ _ h1
  · have hs : (AkKernel.switchTo p e list).task t = p.task t := by
      simp [AkKernel.switchTo, ht]
    rw [hs]
    exact (h t hm).2

theorem MissedAwake.exit {missed : Finset TaskPtr} {status : Word} {parent : Option TaskPtr}
    (h : MissedAwake p missed) (hi : TableInv p l) (hpar : parent = ringFind p l p.cur.ppid) :
    MissedAwake { p with task := exited p p.currentTask status parent }
      (missed ∪ missedBy p) := by
  intro t hm
  have hlt : t < p.ntasks := by
    rcases Finset.mem_union.mp hm with hm | hm
    · exact (h t hm).1
    · exact Finset.mem_range.mp (Finset.mem_filter.mp hm).1
  refine ⟨hlt, ?_⟩
  change ¬ ((exited p p.currentTask status parent t).state = _ ∧
    (exited p p.currentTask status parent t).sigwait = _ ∧
    (exited p p.currentTask status parent t).sigpend = _)
  by_cases ht : t = p.currentTask
  · rw [exited_state, if_pos ht]
    exact fun hs => absurd hs.1 (by decide)
  · by_cases hq : parent = some t
    · rw [hq, exited_parent ht]
      exact fun hs => absurd hs.2.2 (by simp [notified, sigChld])
    · rw [exited_other p status ht hq]
      rcases Finset.mem_union.mp hm with hm | hm
      · exact (h t hm).2
      · intro hs
        apply hq
        rw [hpar, hi.ringFind_eq_some]
        refine ⟨hi.linked t hlt ?_, (Finset.mem_filter.mp hm).2.1⟩
        rw [hs.1]
        decide

theorem MissedAwake.step {missed : Finset TaskPtr} (h : MissedAwake p missed) (hs : SleepInv p)
    (hi : TableInv p l) (he : Effect p l lbl p') (hc : Watched.Careful ⟨p, missed⟩ lbl.1) :
    MissedAwake p' (if lbl.1.isExit then missed ∪ missedBy p else missed) := by
  cases he with
  | fork pgd list descr _ _ _ _ =>
    intro t hm
    obtain ⟨hlt, ht⟩ := h t hm
    refine ⟨Nat.lt_succ_of_lt hlt, ?_⟩
    rw [forked_proj p pgd list descr Task.state (fun _ _ => rfl) hlt,
      forked_proj p pgd list descr Task.sigwait (fun _ _ => rfl) hlt,
      forked_proj p pgd list descr Task.sigpend (fun _ _ => rfl) hlt]
    exact ht
  | exit status parent _ _ hpar => exact h.exit hi hpar
  | early _ => exact h
  | wait4 options e list _ _ hearly _ _ =>
    have hcur : p.currentTask ∉ missed := by
      rcases hc with hc | hc
      · exact absurd hc (by rw [hearly]; decide)
      · exact hc
    apply MissedAwake.switchTo (p := sleepWait4 p)
    intro t hm
    have ht : t ≠ p.currentTask := fun ht => hcur (ht ▸ hm)
    simp only [sleepWait4, Function.update_of_ne ht]
    exact h t hm
  | wait4Return _ => exact h
  | sigsuspend e list hu hq _ _ =>
    apply MissedAwake.switchTo (p := sleepSuspend p)
    intro t hm
    by_cases ht : t = p.currentTask
    · subst ht
      refine ⟨hi.current_lt, ?_⟩
      simp only [sleepSuspend, Function.update_self]
      exact fun hw => hs.sigwait_user hq (by rw [hu]; decide) hw.2.1
    · simp only [sleepSuspend, Function.update_of_ne ht]
      exact h t hm
  | sigsuspendReturn _ => exact h
  | yield e list _ _ => exact h.switchTo

/-- What holds of a run whose steps are careful. -/
structure WatchInv (tr : List (Op × Option Report)) (s : Watched) : Prop where
  ntasks : s.proc.ntasks = 1 + forks tr
  table : ∃ l, TableInv s.proc l
  sleep : SleepInv s.proc
  missed : MissedAwake s.proc s.missed
  told : ∀ t, t < s.proc.ntasks → t ∉ s.missed → Told tr s.proc t

theorem bootProc_sleep (kernEnd pgd : Word) : SleepInv (bootProc kernEnd pgd) := by
  have hsig : ∀ t : TaskPtr, ((bootProc kernEnd pgd).task t).sigwait = 0#32 := by
    intro t
    by_cases ht : t = kernelTask
    · rw [ht]
      rfl
    · simp [bootProc, schedInit, fdioTblInit, Proc.setTask, ht, zeroTask]
  have hrun : (bootProc kernEnd pgd).cur.state = .taskReady := rfl
  refine ⟨by rw [hrun]; decide, ?_⟩
  intro t _ hs
  rw [hsig] at hs
  exact absurd hs (by decide)

theorem bootProc_told (kernEnd pgd : Word) (t : TaskPtr) :
    Told [] (bootProc kernEnd pgd) t := by
  intro c hc
  have hc0 : c = kernelTask := Nat.lt_one_iff.mp hc.1
  have hq := hc.2.2
  rw [hc0] at hq
  exact absurd hq (by simp [bootProc, schedInit, fdioTblInit, Proc.setTask, kernelTaskInit,
    Proc.cur])

theorem WatchInv.step {s s' : Watched} (h : WatchInv tr s) (hstep : CarefulStep s lbl s')
    (hf : forks (tr ++ [lbl]) < 2 ^ 31) : WatchInv (tr ++ [lbl]) s' := by
  obtain ⟨⟨hst, hmissed⟩, hcare⟩ := hstep
  obtain ⟨l, hi⟩ := h.table
  have he := hi.effect hst
  rw [forks_snoc] at hf
  have hb : lbl.1.isFork → s.proc.ntasks < 2 ^ 31 := by
    intro hfork
    rw [if_pos hfork] at hf
    have := h.ntasks
    omega
  obtain ⟨hn, htable⟩ := hi.step he hb
  refine ⟨?_, htable, h.sleep.step hi he, ?_, ?_⟩
  · rw [hn, h.ntasks, forks_snoc]
    omega
  · rw [hmissed]
    exact h.missed.step h.sleep hi he hcare
  · intro t ht hm
    rw [hmissed] at hm
    refine Told.step hi hb he ht ?_ ?_
    · intro hx hm'
      rw [if_pos hx] at hm
      exact hm (Finset.mem_union_right _ hm')
    · intro hlt
      apply h.told t hlt
      intro hm'
      apply hm
      split
      · exact Finset.mem_union_left _ hm'
      · exact hm'

theorem run_watch {kernEnd pgd : Word} {s : Watched}
    (hrun : Run CarefulStep ⟨bootProc kernEnd pgd, ∅⟩ tr s) (hf : forks tr < 2 ^ 31) :
    WatchInv tr s := by
  refine Run.invariant (I := fun tr s => forks tr < 2 ^ 31 → WatchInv tr s) ?_ ?_ hrun hf
  · intro _
    exact ⟨rfl, ⟨[], bootProc_table kernEnd pgd⟩, bootProc_sleep kernEnd pgd,
      fun t ht => absurd ht (Finset.notMem_empty t), fun t _ _ => bootProc_told kernEnd pgd t⟩
  · intro tr s lbl s' ih hstep hlt
    have hle : forks tr < 2 ^ 31 := by
      rw [forks_snoc] at hlt
      omega
    exact (ih hle).step hstep hlt

/-- No wakeup is lost in a run in which no task goes to sleep in `sys_wait4` after it
missed the exit of a child. -/
theorem wait4_no_lost_wakeup (kernEnd pgd : Word) (tr : List (Op × Option Report)) (s : Watched)
    (hrun : Run CarefulStep ⟨bootProc kernEnd pgd, ∅⟩ tr s) (hf : forks tr < 2 ^ 31) :
    ∀ t c, t < s.proc.ntasks → ¬ LostWakeup tr s.proc t c := by
  intro t c ht hlost
  obtain ⟨hs, hw, hp, hc, hr⟩ := hlost
  have hinv := run_watch hrun hf
  by_cases hm : t ∈ s.missed
  · exact (hinv.missed t hm).2 ⟨hs, hw, hp⟩
  · have hctx := (hinv.sleep.sigwait t (by rw [hs]; decide) hw).1
    have hrep := (hinv.told t ht hm).reported (Or.inr ⟨hctx, hs, hp⟩) hc
    exact hr _ hrep ⟨rfl, rfl⟩

/-- The executable form of a careful step. -/
def Watched.tryExec (fuel : Nat) (op : Op) (s : Watched) :
    Except Fault (Option Report × Watched) :=
  match op.tryExec fuel s.proc with
  | .error e => .error e
  | .ok (r, p) =>
    if s.Careful op then .ok (r, ⟨p, if op.isExit then s.missed ∪ missedBy s.proc else s.missed⟩)
    else .error .diverges

theorem careful_of_tryExec (fuel : Nat) (op : Op) (s : Watched) (r : Option Report) (s' : Watched)
    (h : s.tryExec fuel op = .ok (r, s')) : CarefulStep s (op, r) s' := by
  unfold Watched.tryExec at h
  split at h
  · cases h
  · rename_i r' q hq
    split at h
    · rename_i hc
      cases Except.ok.inj h
      exact ⟨⟨step_of_tryExec fuel op s.proc r q hq, rfl⟩, hc⟩
    · cases h

/-- The parent sleeps in `sys_wait4` when its child quits, and is told. -/
theorem wait4_no_lost_wakeup_of_waiting : ∃ tr s, Run CarefulStep ⟨bootProc 0 0, ∅⟩ tr s ∧
    reports tr = [⟨0, 1, 7⟩] ∧ ∀ t c, t < s.proc.ntasks → ¬ LostWakeup tr s.proc t c := by
  obtain ⟨tr, s, hrun, htest⟩ := exists_run (fun op s => Watched.tryExec 4 op s)
    (careful_of_tryExec 4) [.fork 0, .wait4 0, .exit 7, .yield, .wait4Return, .wait4 1]
    ⟨bootProc 0 0, ∅⟩ (fun tr _ => reports tr == [⟨0, 1, 7⟩] && forks tr == 1) (by decide +kernel)
  simp only [Bool.and_eq_true, beq_iff_eq] at htest
  exact ⟨tr, s, hrun, htest.1, wait4_no_lost_wakeup 0 0 tr s hrun (by rw [htest.2]; decide)⟩

/-- Two children are forked; the first quits, the parent is preempted back in, which
takes the signal, and only then calls `sys_wait4`. It sleeps with the second child
running and nothing pending. -/
theorem wait4_loses_wakeup : ∃ tr p t c, Run Step (bootProc 0 0) tr p ∧ t < p.ntasks ∧
    LostWakeup tr p t c := by
  obtain ⟨tr, p, hrun, htest⟩ := exists_run (Op.tryExec 4) (step_of_tryExec 4)
    [.fork 0, .fork 0, .yield, .yield, .exit 7, .yield, .wait4 0] (bootProc 0 0)
    (fun tr p => reports tr == [] && decide (0 < p.ntasks) &&
      decide ((p.task 0).state = .taskSigWait ∧ (p.task 0).sigwait = sigChld ∧
        (p.task 0).sigpend = 0#32 ∧ ExitedChild p 0 1)) (by decide +kernel)
  simp only [Bool.and_eq_true, beq_iff_eq, decide_eq_true_eq] at htest
  obtain ⟨⟨hrep, hlt⟩, hs, hw, hp, hc⟩ := htest
  refine ⟨tr, p, 0, 1, hrun, hlt, hs, hw, hp, hc, ?_⟩
  rw [hrep]
  intro r hr
  cases hr

end LostWakeup

end AkKernel
