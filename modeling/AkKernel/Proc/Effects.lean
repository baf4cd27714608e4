import AkKernel.Proc.System

/-!
# What a step of the task system can do

Each operation is inverted once, from a ring that holds every task that can run,
into the fields it changes (`Effect`). The invariants of the task table and of
`wait4` are read off from there and do not open the operations again.
-/

set_option autoImplicit false

namespace AkKernel

open LinkedRing Runs

section Get
variable {p : Proc} {c : TaskPtr} {pid : Word}

theorem taskGetLoop_find (hc : c = p.currentTask) (rest : List TaskPtr) :
    ∀ (kept : List TaskPtr) (cursor : TaskPtr) (fuel : Nat),
      Path p.list c (kept ++ rest) c → (p.list cursor).next = (rest ++ [c]).head? →
      (∀ t ∈ rest, (p.task t).pid ≠ p.cur.pid) → rest.length < fuel →
      taskGetLoop p pid fuel cursor = .ok ((rest ++ [c]).find? fun t => (p.task t).pid = pid) := by
  induction rest with
  | nil =>
    intro kept cursor fuel _ hn _ hf
    obtain ⟨fuel, rfl⟩ : ∃ k, fuel = k + 1 := ⟨fuel - 1, by simp at hf; omega⟩
    have hn' : (p.list cursor).next = some c := by simpa using hn
    rw [taskGetLoop]
    subst hc
    by_cases hp : (p.task p.currentTask).pid = pid
    · simp [hn', deref, bind, Except.bind, hp]
    · simp [hn', deref, bind, Except.bind, hp, Proc.cur]
  | cons x rest ih =>
    intro kept cursor fuel hpath hn hne hf
    obtain ⟨fuel, rfl⟩ : ∃ k, fuel = k + 1 := ⟨fuel - 1, by simp at hf; omega⟩
    have hn' : (p.list cursor).next = some x := by simpa using hn
    have hx := hne x List.mem_cons_self
    have hnext : (p.list x).next = (rest ++ [c]).head? := path_next (path_append.mp hpath).2
    rw [taskGetLoop]
    by_cases hp : (p.task x).pid = pid
    · simp [hn', deref, bind, Except.bind, hp]
    · have h1 := ih (kept ++ [x]) x fuel (by simpa using hpath) hnext
        (fun t ht => hne t (List.mem_cons_of_mem x ht)) (by simp at hf; omega)
      simp only [hn', deref, bind, Except.bind, hp, if_false, hx, ne_eq, not_false_eq_true,
        if_true, h1, List.cons_append, List.find?_cons, decide_false]

theorem taskGetLoop_mono {fuel : Nat} :
    ∀ {cursor : TaskPtr} {r : Option TaskPtr} {fuel' : Nat},
      taskGetLoop p pid fuel cursor = .ok r → fuel ≤ fuel' →
      taskGetLoop p pid fuel' cursor = .ok r := by
  induction fuel with
  | zero =>
    intro cursor r fuel' h
    cases h
  | succ fuel ih =>
    intro cursor r fuel' h hle
    obtain ⟨k, rfl⟩ : ∃ k, fuel' = k + 1 := ⟨fuel' - 1, by omega⟩
    rw [taskGetLoop] at h ⊢
    obtain ⟨n, hn, h⟩ := bind_eq_ok.mp h
    refine bind_eq_ok.mpr ⟨n, hn, ?_⟩
    split at h
    · rw [if_pos (by assumption)]
      exact h
    · rw [if_neg (by assumption)]
      split at h
      · rw [if_pos (by assumption)]
        exact ih h (by omega)
      · rw [if_neg (by assumption)]
        exact h

end Get

def PidsDistinct (p : Proc) (l : List TaskPtr) : Prop :=
  ((p.currentTask :: l).map fun t => (p.task t).pid).Nodup

theorem taskGet_eq_find {p : Proc} {l : List TaskPtr} (hr : Ring p.list p.currentTask l)
    (hd : PidsDistinct p l) (pid : Word) (fuel : Nat) (hf : l.length < fuel) :
    taskGet fuel p pid =
      .ok ((l ++ [p.currentTask]).find? fun t => (p.task t).pid = pid) := by
  refine taskGetLoop_find rfl l [] p.currentTask fuel hr.path (path_next hr.path) ?_ hf
  intro t ht he
  have hn := (List.nodup_cons.mp hd).1
  exact hn (List.mem_map.mpr ⟨t, ht, he⟩)

theorem taskGet_ok {p : Proc} {l : List TaskPtr} (hr : Ring p.list p.currentTask l)
    (hd : PidsDistinct p l) {pid : Word} {fuel : Nat} {r : Option TaskPtr}
    (h : taskGet fuel p pid = .ok r) :
    r = (l ++ [p.currentTask]).find? fun t => (p.task t).pid = pid := by
  have h1 : taskGet (fuel + l.length + 1) p pid = .ok r := taskGetLoop_mono h (by omega)
  rw [taskGet_eq_find hr hd pid _ (by omega)] at h1
  cases h1
  rfl

section Inversion
variable {p p' : Proc}

/-- A task as `task_enter` resumes it, from the context it was saved in. -/
def resume (t : Task) (c : Ctx) : Task :=
  if c = .forked ∨ t.sigpend = 0#32 then t
  else { t with sigwait := if t.sigwait = t.sigpend then 0#32 else t.sigwait, sigpend := 0#32 }

def resumeCtx (c : Ctx) : Ctx := if c = .forked then .user else c

theorem taskEnter_eq (p : Proc) (e : TaskPtr) :
    taskEnter p e = { p with
      task := Function.update p.task e (resume (p.task e) (p.ctx e))
      ctx := Function.update p.ctx e (resumeCtx (p.ctx e))
      currentTask := e
      cr3 := (p.task e).pgd } := by
  unfold taskEnter resume resumeCtx
  by_cases hc : p.ctx e = .forked
  · simp [hc, Proc.setCtx]
  · by_cases hs : (p.task e).sigpend = 0#32
    · simp [hc, hs, taskSignalExec]
    · by_cases hw : (p.task e).sigwait = (p.task e).sigpend
      · simp [hc, hs, hw, taskSignalExec, Proc.setTask]
      · simp [hc, hs, hw, taskSignalExec, Proc.setTask]

/-- A task as the scheduler wakes and resumes it. -/
def schedule (t : Task) (c : Ctx) : Task :=
  resume (if t.state = .taskSigWait then { t with state := .taskReady } else t) c

/-- Everything a yield can do. -/
theorem kernSchedYield_cases {l : List TaskPtr} {fuel : Nat}
    (hring : Ring p.list p.currentTask l)
    (hlive : ∀ t, Eligible (p.task t) → t ∈ p.currentTask :: l)
    (h : kernSchedYield fuel p = .ok p') :
    ∃ e list l', Eligible (p.task e) ∧ Ring list e l' ∧
      (∀ t ∈ e :: l', t ∈ p.currentTask :: l) ∧
      (∀ t ∈ p.currentTask :: l, (p.task t).state ≠ .taskQuit ∨ t = p.currentTask → t ∈ e :: l') ∧
      p' = { p with
        task := Function.update p.task e (schedule (p.task e) (p.ctx e))
        ctx := Function.update p.ctx e (resumeCtx (p.ctx e))
        list := list
        currentTask := e
        cr3 := (p.task e).pgd } := by
  obtain ⟨r, hloop, h⟩ := bind_eq_ok.mp h
  have hr := schedLoop_eligible hloop
  obtain ⟨e, q, pre, post, hfirst, hsplit, -, hel, hq, list, hw⟩ :=
    schedLoop_first hring ⟨r.1, hlive _ hr, hr⟩
  have hreq : r = (e, q) := by
    have h1 := schedLoop_mono hloop (Nat.le_add_right fuel (l.length + 1))
    rw [hfirst _ (by omega)] at h1
    cases h1
    rfl
  subst hreq
  have hqlist : q.list = list := by rw [hw, wake_list]
  rw [hqlist] at hq
  have hsub : ∀ t ∈ p.currentTask :: stay p pre l, t ∈ p.currentTask :: l := by
    intro t ht
    rcases List.mem_cons.mp ht with rfl | ht
    · exact List.mem_cons_self
    · exact List.mem_cons_of_mem _ (List.mem_filter.mp ht).1
  have hkeep : ∀ t ∈ p.currentTask :: l, (p.task t).state ≠ .taskQuit ∨ t = p.currentTask →
      t ∈ p.currentTask :: stay p pre l := by
    intro t ht hs
    rcases List.mem_cons.mp ht with rfl | ht
    · exact List.mem_cons_self
    · rcases hs with hs | rfl
      · exact List.mem_cons_of_mem _ (List.mem_filter.mpr ⟨ht, by simp [hs]⟩)
      · exact List.mem_cons_self
  have he : e ∈ p.currentTask :: stay p pre l := hkeep e (hlive e hel) (Or.inl hel.not_quit)
  obtain ⟨l', hring', hperm⟩ := hq.rotate_mem he
  refine ⟨e, list, l', hel, hring', ?_, ?_, ?_⟩
  · intro t ht
    exact hsub t (hperm.mem_iff.mp ht)
  · intro t ht hs
    exact hperm.mem_iff.mpr (hkeep t ht hs)
  · have h' : p' = taskEnter q e := by
      cases h
      rfl
    rw [h', taskEnter_eq, hw]
    unfold wake schedule
    by_cases hs : (p.task e).state = .taskSigWait
    · simp [hs, Proc.setTask]
    · simp [hs]

/-- The state `task_fork` leaves, apart from the links and the descriptors. -/
def forked (p : Proc) (pgd : Word) (list : Links TaskPtr) (descr : DescrPtr → Option Fdescr) :
    Proc :=
  { p with
    task := Function.update
      (Function.update p.task p.currentTask { p.cur with childcount := p.cur.childcount + 1 })
      p.ntasks { cloneOf p.cur p.nextPid with pgd := pgd }
    list := list
    ctx := Function.update p.ctx p.ntasks .forked
    ntasks := p.ntasks + 1
    nextPid := p.nextPid + 1#32
    descr := descr }

theorem taskFork_cases {pgd : Word} {c : TaskPtr} (h : taskFork pgd p = .ok (c, p')) :
    ∃ list descr, c = p.ntasks ∧ listInsertAfter p.list p.currentTask p.ntasks = .ok list ∧
      cloneFds p.descr p.cur (cloneOf p.cur p.nextPid) = .ok descr ∧
      p' = forked p pgd list descr := by
  obtain ⟨⟨c', q⟩, hclone, hrest⟩ := bind_eq_ok.mp h
  obtain ⟨q', hins, hset⟩ := bind_eq_ok.mp hrest
  obtain ⟨list, hlist, hq'⟩ := bind_eq_ok.mp hins
  obtain ⟨descr, hfds, hq⟩ := bind_eq_ok.mp hclone
  cases Except.ok.inj hq
  cases Except.ok.inj hq'
  cases Except.ok.inj hset
  refine ⟨list, descr, rfl, hlist, hfds, ?_⟩
  simp [forked, Proc.setTask, Proc.setCtx]

theorem taskFork_ok {pgd : Word} {list : Links TaskPtr} {descr : DescrPtr → Option Fdescr}
    (hlist : listInsertAfter p.list p.currentTask p.ntasks = .ok list)
    (hfds : cloneFds p.descr p.cur (cloneOf p.cur p.nextPid) = .ok descr) :
    taskFork pgd p = .ok (p.ntasks, forked p pgd list descr) := by
  have hclone : taskClone p = .ok (p.ntasks, _) := bind_eq_ok.mpr ⟨descr, hfds, rfl⟩
  refine bind_eq_ok.mpr ⟨_, hclone, bind_eq_ok.mpr ⟨_, bind_eq_ok.mpr ⟨list, hlist, rfl⟩, ?_⟩⟩
  simp [forked, Proc.setTask, Proc.setCtx]

theorem taskFork_withUser {u : Option TaskPtr} {pgd : Word} {c : TaskPtr}
    (h : taskFork pgd (p.withUser u) = .ok (c, p')) :
    ∃ q, taskFork pgd p = .ok (c, q) ∧ p' = q.withUser u := by
  obtain ⟨list, descr, rfl, hlist, hfds, hp'⟩ := taskFork_cases h
  exact ⟨_, taskFork_ok hlist hfds, hp'⟩

/-- A fork whose allocation returns to the running task is one with an allocator that leaves
`CurrentTask` alone, but for `UserTask`. -/
theorem taskFork_home {pgd : Word} {c : TaskPtr} (hh : HomeAlloc p)
    (h : taskFork pgd p allocated = .ok (c, p')) :
    ∃ u q, taskFork pgd p = .ok (c, q) ∧ p' = q.withUser u := by
  change taskFork pgd (allocated p) = _ at h
  rw [allocated_of_home hh] at h
  exact ⟨_, taskFork_withUser h⟩

/-- The exiting task, and its parent as `task_exit` leaves it. -/
def quitOf (t : Task) (status : Word) : Task :=
  { t with state := .taskQuit, exitcode := status, sigpend := sigTerm }

def notified (parent : Task) (pid status : Word) : Task :=
  { parent with
    sigchldpid := pid
    sigchldexit := status
    sigpend := sigChld
    childcount := parent.childcount - 1 }

theorem quitTask_eq (p : Proc) (t : TaskPtr) (status : Word) :
    quitTask p t status =
      { p with task := Function.update p.task t (quitOf (p.task t) status) } := by
  simp [quitTask, taskSignalRaise, Proc.setTask, quitOf]

theorem reportExit_eq (p : Proc) (t q : TaskPtr) :
    reportExit p t q = { p with
      task := Function.update p.task q
        (notified (p.task q) (p.task t).pid (p.task t).exitcode) } := by
  simp [reportExit, taskSignalRaise, Proc.setTask, notified]

/-- The tasks after `task_exit` of `t`, with the parent that `task_get` found. -/
def exited (p : Proc) (t : TaskPtr) (status : Word) (parent : Option TaskPtr) : TaskPtr → Task :=
  let task := Function.update p.task t (quitOf (p.task t) status)
  match parent with
  | none => task
  | some q => Function.update task q (notified (task q) (p.task t).pid status)

theorem taskExit_cases {fuel : Nat} {t : TaskPtr} {status : Word} {l : List TaskPtr}
    (hring : Ring p.list p.currentTask l) (hd : PidsDistinct p l)
    (h : taskExit fuel p t status = .ok p') :
    ∃ parent, parent = (l ++ [p.currentTask]).find? (fun s => (p.task s).pid = (p.task t).ppid) ∧
      p' = { p with task := exited p t status parent } := by
  unfold taskExit at h
  obtain ⟨r, hget, hp'⟩ := bind_eq_ok.mp h
  have hpid : ∀ s, ((quitTask p t status).task s).pid = (p.task s).pid := by
    intro s
    rw [quitTask_eq]
    by_cases hs : s = t
    · subst hs
      simp [quitOf]
    · simp [hs]
  have hppid : ((quitTask p t status).task t).ppid = (p.task t).ppid := by
    rw [quitTask_eq]
    simp [quitOf]
  have hring' : Ring (quitTask p t status).list (quitTask p t status).currentTask l := hring
  have hd' : PidsDistinct (quitTask p t status) l := by
    simp only [PidsDistinct, hpid]
    exact hd
  have hr := taskGet_ok hring' hd' hget
  simp only [hpid, hppid] at hr
  refine ⟨r, hr, ?_⟩
  cases r with
  | none =>
    cases Except.ok.inj hp'
    exact quitTask_eq p t status
  | some q =>
    cases Except.ok.inj hp'
    rw [reportExit_eq, quitTask_eq]
    simp [exited, quitOf]

end Inversion

/-- `CurrentTask` asleep in `sys_wait4`, before the scheduler runs. -/
def sleepWait4 (p : Proc) : Proc :=
  { p with
    task := Function.update p.task p.currentTask
      { p.cur with sigwait := sigChld, state := .taskSigWait }
    ctx := Function.update p.ctx p.currentTask .wait4 }

def sleepSuspend (p : Proc) : Proc :=
  { p with
    task := Function.update p.task p.currentTask { p.cur with state := .taskSigWait }
    ctx := Function.update p.ctx p.currentTask .sigsuspend }

/-- The processor handed to `e`, with the links the scheduler leaves. -/
def switchTo (p : Proc) (e : TaskPtr) (list : Links TaskPtr) : Proc :=
  { p with
    task := Function.update p.task e (schedule (p.task e) (p.ctx e))
    ctx := Function.update p.ctx e (resumeCtx (p.ctx e))
    list := list
    currentTask := e
    cr3 := (p.task e).pgd }

/-- The links `list` hold a ring with `e` in it, made from the ring of `p` by
dropping some tasks that have quit. -/
def Shrinks (p : Proc) (l : List TaskPtr) (e : TaskPtr) (list : Links TaskPtr) : Prop :=
  ∃ l', Ring list e l' ∧ (∀ t ∈ e :: l', t ∈ p.currentTask :: l) ∧
    ∀ t ∈ p.currentTask :: l, (p.task t).state ≠ .taskQuit → t ∈ e :: l'

/-- All a step can do, with the ring of tasks read from `CurrentTask` as `l`. -/
inductive Effect (p : Proc) (l : List TaskPtr) : Op × Option Report → Proc → Prop where
  | fork (pgd : Word) (list : Links TaskPtr) (descr : DescrPtr → Option Fdescr) :
      p.ctx p.currentTask = .user → p.cur.state ≠ .taskQuit →
      listInsertAfter p.list p.currentTask p.ntasks = .ok list →
      cloneFds p.descr p.cur (cloneOf p.cur p.nextPid) = .ok descr →
      Effect p l (.fork pgd, none) (forked p pgd list descr)
  | exit (status : Word) (parent : Option TaskPtr) :
      p.ctx p.currentTask = .user → p.cur.state ≠ .taskQuit →
      parent = (l ++ [p.currentTask]).find? (fun s => (p.task s).pid = p.cur.ppid) →
      Effect p l (.exit status, none) { p with task := exited p p.currentTask status parent }
  | early (options : Word) : Effect p l (.wait4 options, none) p
  | wait4 (options : Word) (e : TaskPtr) (list : Links TaskPtr) :
      p.ctx p.currentTask = .user → p.cur.state ≠ .taskQuit → wait4Early p.cur options = false →
      Eligible ((sleepWait4 p).task e) → Shrinks (sleepWait4 p) l e list →
      Effect p l (.wait4 options, none) (switchTo (sleepWait4 p) e list)
  | wait4Return : p.ctx p.currentTask = .wait4 →
      Effect p l (.wait4Return, some ⟨p.currentTask, p.cur.sigchldpid, p.cur.sigchldexit⟩)
        (p.setCtx p.currentTask .user)
  | sigsuspend (e : TaskPtr) (list : Links TaskPtr) :
      p.ctx p.currentTask = .user → p.cur.state ≠ .taskQuit →
      Eligible ((sleepSuspend p).task e) → Shrinks (sleepSuspend p) l e list →
      Effect p l (.sigsuspend, none) (switchTo (sleepSuspend p) e list)
  | sigsuspendReturn : p.ctx p.currentTask = .sigsuspend →
      Effect p l (.sigsuspendReturn, none) (p.setCtx p.currentTask .user)
  | yield (e : TaskPtr) (list : Links TaskPtr) :
      Eligible (p.task e) → Shrinks p l e list → Effect p l (.yield, none) (switchTo p e list)

section Effects
variable {p p' : Proc} {l : List TaskPtr}

theorem kernSchedYield_effect {fuel : Nat} (hring : Ring p.list p.currentTask l)
    (hlive : ∀ t, Eligible (p.task t) → t ∈ p.currentTask :: l)
    (h : kernSchedYield fuel p = .ok p') :
    ∃ e list, Eligible (p.task e) ∧ Shrinks p l e list ∧ p' = switchTo p e list := by
  obtain ⟨e, list, l', hel, hr, hsub, hkeep, hp'⟩ := kernSchedYield_cases hring hlive h
  refine ⟨e, list, hel, ⟨l', hr, hsub, ?_⟩, hp'⟩
  intro t ht hs
  exact hkeep t ht (Or.inl hs)

/-- Putting `CurrentTask` to sleep makes no other task eligible. -/
theorem live_update {v : Task} (hlive : ∀ t, Eligible (p.task t) → t ∈ p.currentTask :: l) :
    ∀ t, Eligible (Function.update p.task p.currentTask v t) → t ∈ p.currentTask :: l := by
  intro t ht
  by_cases hc : t = p.currentTask
  · subst hc
    exact List.mem_cons_self
  · rw [Function.update_of_ne hc] at ht
    exact hlive t ht

theorem step_effect {lbl : Op × Option Report} (hring : Ring p.list p.currentTask l)
    (hlive : ∀ t, Eligible (p.task t) → t ∈ p.currentTask :: l) (hd : PidsDistinct p l)
    (h : Step p lbl p') : Effect p l lbl p' := by
  obtain ⟨op, r⟩ := lbl
  obtain ⟨hen, fuel, hex⟩ := h
  cases op with
  | fork pgd =>
    obtain ⟨⟨c, q⟩, hf, hq⟩ := bind_eq_ok.mp hex
    cases Except.ok.inj hq
    obtain ⟨list, descr, -, hlist, hfds, hp'⟩ := taskFork_cases hf
    rw [hp']
    exact .fork pgd list descr hen.1 hen.2 hlist hfds
  | exit status =>
    obtain ⟨q, hf, hq⟩ := bind_eq_ok.mp hex
    cases Except.ok.inj hq
    obtain ⟨parent, hpar, hp'⟩ := taskExit_cases hring hd hf
    rw [hp']
    exact .exit status parent hen.1 hen.2 hpar
  | wait4 options =>
    obtain ⟨q, hf, hq⟩ := bind_eq_ok.mp hex
    cases Except.ok.inj hq
    unfold sysWait4 at hf
    split at hf
    · cases Except.ok.inj hf
      exact .early options
    · rename_i hearly
      have hs : kernSchedYield fuel (sleepWait4 p) = .ok p' := by
        simpa [taskSigwait, sleepWait4, Proc.setTask, Proc.setCtx] using hf
      obtain ⟨e, list, hel, hsh, hp'⟩ :=
        kernSchedYield_effect (p := sleepWait4 p) hring (live_update hlive) hs
      rw [hp']
      exact .wait4 options e list hen.1 hen.2 (Bool.eq_false_iff.mpr hearly) hel hsh
  | wait4Return =>
    cases Except.ok.inj hex
    exact .wait4Return hen
  | sigsuspend =>
    obtain ⟨q, hf, hq⟩ := bind_eq_ok.mp hex
    cases Except.ok.inj hq
    have hs : kernSchedYield fuel (sleepSuspend p) = .ok p' := by
      simpa [taskSigwait, sleepSuspend, Proc.setTask, Proc.setCtx, Proc.cur] using hf
    obtain ⟨e, list, hel, hsh, hp'⟩ :=
      kernSchedYield_effect (p := sleepSuspend p) hring (live_update hlive) hs
    rw [hp']
    exact .sigsuspend e list hen.1 hen.2 hel hsh
  | sigsuspendReturn =>
    cases Except.ok.inj hex
    exact .sigsuspendReturn hen
  | yield =>
    obtain ⟨q, hf, hq⟩ := bind_eq_ok.mp hex
    cases Except.ok.inj hq
    obtain ⟨e, list, hel, hsh, hp'⟩ := kernSchedYield_effect hring hlive hf
    rw [hp']
    exact .yield e list hel hsh

end Effects

end AkKernel
