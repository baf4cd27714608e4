import AkKernel.Kernel.Replies

/-!
# Process groups

Runs of `sys_fork` and `sys_setpgid` by any tasks, between which tasks exit, wait and are
scheduled. What the calls and their results say about the group of each process is compared
with what `sys_getpgid` and `sys_ioctl` report.
-/

set_option autoImplicit false

namespace AkKernel

open LinkedRing Runs

/-- `TIOCGPGRP` of `asm/ioctls.h`. -/
def tiocgpgrp : Word := 0x540F#32

/-- `sys_ioctl`: what it stores at its last argument. It returns 0 for every command. -/
def sysIoctl (cmd : Word) (p : Proc) : Option Word :=
  if cmd = tiocgpgrp then some p.cur.pgid else none

inductive GroupOp where
  | fork (pgd : Word)
  | setpgid (pid pgid : Word)
  | task (op : Op)
deriving DecidableEq, Repr

/-- The process that makes a call, and how the call ends. -/
structure Outcome where
  caller : Word
  reply : Reply
deriving DecidableEq, Repr

namespace GroupOp

def isFork : GroupOp → Bool
  | .fork _ => true
  | _ => false

def Enabled (p : Proc) : GroupOp → Prop
  | .fork pgd => (Op.fork pgd).Enabled p
  | .setpgid _ _ => p.ctx p.currentTask = .user ∧ p.cur.state ≠ .taskQuit
  | .task op => op.isFork = false ∧ op.Enabled p

instance (p : Proc) (op : GroupOp) : Decidable (op.Enabled p) :=
  match op with
  | .fork pgd => inferInstanceAs (Decidable ((Op.fork pgd).Enabled p))
  | .setpgid _ _ | .task _ => inferInstanceAs (Decidable (_ ∧ _))

def exec (fuel : Nat) : GroupOp → Files → Except Fault (Outcome × Files)
  | .fork pgd, s => do
    let (clone, p) ← taskFork pgd s.proc
    .ok (⟨s.proc.cur.pid, .done (p.task clone).pid⟩, { s with proc := p })
  | .setpgid pid pgid, s => do
    let (r, s') ← Reply.sysSetpgid fuel pid pgid s
    .ok (⟨s.proc.cur.pid, r⟩, s')
  | .task op, s => do
    let (_, p) ← op.exec fuel s.proc
    .ok (⟨s.proc.cur.pid, .left⟩, { s with proc := p })

def tryExec (fuel : Nat) (op : GroupOp) (s : Files) : Except Fault (Outcome × Files) :=
  if op.Enabled s.proc then op.exec fuel s else .error .diverges

end GroupOp

abbrev GroupEvent := GroupOp × Outcome

def GroupStep (s : Files) (lbl : GroupEvent) (s' : Files) : Prop :=
  lbl.1.Enabled s.proc ∧ ∃ fuel, lbl.1.exec fuel s = .ok (lbl.2, s')

theorem groupStep_of_tryExec (fuel : Nat) (op : GroupOp) (s : Files) (out : Outcome) (s' : Files)
    (h : op.tryExec fuel s = .ok (out, s')) : GroupStep s (op, out) s' := by
  unfold GroupOp.tryExec at h
  split at h
  · exact ⟨by assumption, fuel, h⟩
  · cases h

/-- What an event says about the groups: a child gets the group of its parent, and a
successful `setpgid` gives the process named, 0 being the caller, the group named, 0 being
its own pid. -/
def assign (group : Word → Word) : GroupEvent → Word → Word
  | (.fork _, ⟨parent, .done child⟩) => Function.update group child (group parent)
  | (.setpgid pid pgid, ⟨caller, .done _⟩) =>
    let pid := if pid = 0#32 then caller else pid
    Function.update group pid (if pgid = 0#32 then pid else pgid)
  | _ => group

/-- The group of each process after a history; `KernelTask` starts in group 1. -/
def groupOf (tr : List GroupEvent) : Word → Word := tr.foldl assign fun _ => 1#32

def forkCount (tr : List GroupEvent) : Nat := tr.countP fun l => l.1.isFork

section Keeps
variable {p p' : Proc} {l : List TaskPtr} {lbl : Op × Option Report}

@[simp] theorem schedule_pgid (t : Task) (c : Ctx) : (schedule t c).pgid = t.pgid := by
  unfold schedule resume; split <;> split <;> rfl

theorem switchTo_pgid (p : Proc) (e : TaskPtr) (list : Links TaskPtr) (t : TaskPtr) :
    ((switchTo p e list).task t).pgid = (p.task t).pgid :=
  update_proj p.task Task.pgid (schedule_pgid _ _) t

theorem Effect.pgid_stays (h : Effect p l lbl p') (hop : lbl.1.isFork = false) (t : TaskPtr) :
    (p'.task t).pgid = (p.task t).pgid := by
  cases h with
  | fork pgd list descr _ _ _ _ => cases hop
  | exit status parent _ _ _ =>
    exact exited_proj p status parent Task.pgid (fun _ _ => rfl) (fun _ _ _ => rfl) _ t
  | early _ => rfl
  | wait4 _ e list _ _ _ _ _ =>
    rw [switchTo_pgid]
    refine update_proj p.task Task.pgid ?_ t
    rfl
  | wait4Return _ => rfl
  | sigsuspend e list _ _ _ _ =>
    rw [switchTo_pgid]
    refine update_proj p.task Task.pgid ?_ t
    rfl
  | sigsuspendReturn _ => rfl
  | yield e list _ _ => exact switchTo_pgid p e list t

theorem TableInv.setPgid (hi : TableInv p l) {t : TaskPtr} (ht : t < p.ntasks) (pgid : Word) :
    TableInv (p.setTask t { p.task t with pgid := pgid }) l := by
  refine hi.transport rfl rfl ?_ ?_ ?_ ?_ ?_ hi.ring (fun t ht => ht) (fun t ht _ => ht)
  · exact update_proj _ Task.pid rfl
  · exact update_proj _ Task.ppid rfl
  · exact update_proj _ Task.childcount rfl
  · intro u
    refine Iff.of_eq (update_proj p.task (fun v => v.state = .taskQuit) ?_ u)
    rfl
  · intro u hu
    have hne : u ≠ t := by
      rintro rfl
      exact Nat.not_lt.mpr hu ht
    exact Function.update_of_ne hne _ _

theorem TableInv.taskGet_some (hi : TableInv p l) {fuel : Nat} {pid : Word} {t : TaskPtr}
    (h : taskGet fuel p pid = .ok (some t)) : t < p.ntasks ∧ (p.task t).pid = pid := by
  have hfind := taskGet_ok hi.ring hi.pidsDistinct h
  obtain ⟨hmem, hpid⟩ := hi.ringFind_eq_some.mp hfind.symm
  exact ⟨hi.made t hmem, hpid⟩

end Keeps

/-- The task table is in order, and each task has the group that the history says. -/
structure GroupInv (tr : List GroupEvent) (p : Proc) (l : List TaskPtr) : Prop where
  table : TableInv p l
  pgid : ∀ t, t < p.ntasks → (p.task t).pgid = groupOf tr (p.task t).pid

section Run
variable {tr : List GroupEvent} {s s' : Files} {l : List TaskPtr} {lbl : GroupEvent}

theorem groupOf_snoc (tr : List GroupEvent) (lbl : GroupEvent) :
    groupOf (tr ++ [lbl]) = assign (groupOf tr) lbl := by
  rw [groupOf, List.foldl_append]
  rfl

theorem forkCount_snoc (tr : List GroupEvent) (lbl : GroupEvent) :
    forkCount (tr ++ [lbl]) = forkCount tr + if lbl.1.isFork then 1 else 0 := by
  simp [forkCount, List.countP_append, List.countP_singleton]

theorem GroupInv.fork (h : GroupInv tr s.proc l) {pgd : Word} {clone : TaskPtr} {p' : Proc}
    (hb : s.proc.ntasks < 2 ^ 31) (hf : taskFork pgd s.proc = .ok (clone, p')) :
    p'.ntasks = s.proc.ntasks + 1 ∧ ∃ l', GroupInv
      (tr ++ [(.fork pgd, ⟨s.proc.cur.pid, .done (p'.task clone).pid⟩)]) p' l' := by
  obtain ⟨list, descr, rfl, hlist, -, rfl⟩ := taskFork_cases hf
  have ht : TableInv (forked s.proc pgd list descr) (s.proc.ntasks :: l) :=
    h.table.fork hb hlist
  refine ⟨rfl, _, ht, ?_⟩
  rw [groupOf_snoc, assign]
  intro t htlt
  by_cases hnew : t = s.proc.ntasks
  · rw [hnew, Function.update_self, forked_new]
    exact h.pgid _ h.table.current_lt
  · have hold : t < s.proc.ntasks := Nat.lt_of_le_of_ne (Nat.le_of_lt_succ htlt) hnew
    have hne : ((forked s.proc pgd list descr).task t).pid ≠
        ((forked s.proc pgd list descr).task s.proc.ntasks).pid :=
      fun he => hnew (ht.pid_inj htlt (Nat.lt_succ_self _) he)
    rw [Function.update_of_ne hne, forked_proj _ _ _ _ Task.pgid (fun _ _ => rfl) hold,
      forked_proj _ _ _ _ Task.pid (fun _ _ => rfl) hold]
    exact h.pgid t hold

theorem GroupInv.setpgid (h : GroupInv tr s.proc l) {pid pgid : Word} {fuel : Nat} {r : Reply}
    (hs : Reply.sysSetpgid fuel pid pgid s = .ok (r, s')) :
    s'.proc.ntasks = s.proc.ntasks ∧
      GroupInv (tr ++ [(.setpgid pid pgid, ⟨s.proc.cur.pid, r⟩)]) s'.proc l := by
  obtain ⟨found, hfound, hrest⟩ := bind_eq_ok.mp hs
  cases found with
  | none =>
    cases hrest
    refine ⟨rfl, h.table, ?_⟩
    rw [groupOf_snoc]
    exact h.pgid
  | some t =>
    cases hrest
    obtain ⟨htlt, htpid⟩ := h.table.taskGet_some hfound
    refine ⟨rfl, h.table.setPgid htlt _, ?_⟩
    rw [groupOf_snoc]
    change ∀ u, _ → _ = Function.update (groupOf tr) (Reply.pidOf s.proc pid) _ _
    intro u hu
    by_cases hut : u = t
    · subst hut
      simp [Proc.setTask, htpid, Reply.pidOf]
    · have hne : (s.proc.task u).pid ≠ Reply.pidOf s.proc pid := by
        rw [← htpid]
        exact fun he => hut (h.table.pid_inj hu htlt he)
      simp only [Proc.setTask, Function.update_of_ne hut, Function.update_of_ne hne]
      exact h.pgid u hu

theorem GroupInv.task (h : GroupInv tr s.proc l) {op : Op} {rep : Option Report} {p' : Proc}
    {out : Outcome} (hop : op.isFork = false) (hs : Step s.proc (op, rep) p') :
    p'.ntasks = s.proc.ntasks ∧ ∃ l', GroupInv (tr ++ [(.task op, out)]) p' l' := by
  have heff := h.table.effect hs
  obtain ⟨hn, l', ht⟩ := h.table.step heff (fun hf => by rw [hop] at hf; cases hf)
  rw [if_neg (by rw [hop]; decide), Nat.add_zero] at hn
  refine ⟨hn, l', ht, ?_⟩
  rw [groupOf_snoc]
  change ∀ t, _ → _ = groupOf tr _
  intro t htlt
  have hold : t < s.proc.ntasks := hn ▸ htlt
  rw [heff.pgid_stays hop, ht.pid t htlt, ← h.table.pid t hold]
  exact h.pgid t hold

theorem GroupInv.step (h : GroupInv tr s.proc l) (hs : GroupStep s lbl s')
    (hb : lbl.1.isFork → s.proc.ntasks < 2 ^ 31) :
    s'.proc.ntasks = s.proc.ntasks + (if lbl.1.isFork then 1 else 0) ∧
      ∃ l', GroupInv (tr ++ [lbl]) s'.proc l' := by
  obtain ⟨op, out⟩ := lbl
  obtain ⟨hen, fuel, hex⟩ := hs
  cases op with
  | fork pgd =>
    obtain ⟨⟨clone, p'⟩, hf, hret⟩ := bind_eq_ok.mp hex
    cases hret
    exact h.fork (hb rfl) hf
  | setpgid pid pgid =>
    obtain ⟨⟨r, u⟩, hset, hret⟩ := bind_eq_ok.mp hex
    cases hret
    obtain ⟨hn, hinv⟩ := h.setpgid hset
    exact ⟨hn, l, hinv⟩
  | task op =>
    obtain ⟨⟨rep, p'⟩, hop, hret⟩ := bind_eq_ok.mp hex
    cases hret
    exact h.task hen.1 ⟨hen.2, fuel, hop⟩

variable {kernEnd pgd : Word} {fs : Fs} {root : NodePtr}

theorem groupInv_boot (kernEnd pgd : Word) : GroupInv [] (bootProc kernEnd pgd) [] := by
  refine ⟨bootProc_table kernEnd pgd, ?_⟩
  intro t ht
  have hzero : t = kernelTask := Nat.lt_one_iff.mp ht
  rw [hzero]
  rfl

theorem groupInv_run (hrun : Run GroupStep ⟨bootProc kernEnd pgd, fs, root⟩ tr s)
    (hf : forkCount tr < 2 ^ 31) : ∃ l, GroupInv tr s.proc l := by
  have hall : forkCount tr < 2 ^ 31 → s.proc.ntasks = 1 + forkCount tr ∧
      ∃ l, GroupInv tr s.proc l := by
    refine Run.invariant (I := fun tr s => forkCount tr < 2 ^ 31 →
      s.proc.ntasks = 1 + forkCount tr ∧ ∃ l, GroupInv tr s.proc l) ?_ ?_ hrun
    · intro _
      exact ⟨rfl, [], groupInv_boot kernEnd pgd⟩
    · intro tr q lbl u ih hstep hlt
      rw [forkCount_snoc] at hlt ⊢
      obtain ⟨hn, l, hi⟩ := ih (by omega)
      have hb : lbl.1.isFork → q.proc.ntasks < 2 ^ 31 := by
        intro h
        rw [if_pos h] at hlt
        omega
      obtain ⟨hn', hi'⟩ := hi.step hstep hb
      exact ⟨by omega, hi'⟩
  exact (hall hf).2

end Run

section Reports
variable {s : Files} {l : List TaskPtr} {t : TaskPtr} {pid : Word}

/-- `sys_getpgid` of the task's pid, and of 0 and `sys_getpgrp` when the task itself calls
them, and `sys_ioctl` of `TIOCGPGRP` then, report the group. -/
structure GroupReported (s : Files) (t : TaskPtr) (group : Word) : Prop where
  getpgid : ∃ n, ∀ fuel, n < fuel →
    Reply.sysGetpgid fuel (s.proc.task t).pid s = .ok (.done group, s)
  self : t = s.proc.currentTask → ∃ n, ∀ fuel, n < fuel →
    Reply.sysGetpgid fuel 0#32 s = .ok (.done group, s)
  ioctl : t = s.proc.currentTask → sysIoctl tiocgpgrp s.proc = some group

theorem TableInv.sysGetpgid (hi : TableInv s.proc l) (ht : t ∈ s.proc.currentTask :: l)
    (hpid : Reply.pidOf s.proc pid = (s.proc.task t).pid) {fuel : Nat} (hfuel : l.length < fuel) :
    Reply.sysGetpgid fuel pid s = .ok (.done (Reply.pidOf s.proc pid), s) := by
  have hfind : ringFind s.proc l (Reply.pidOf s.proc pid) = some t :=
    hi.ringFind_eq_some.mpr ⟨ht, hpid.symm⟩
  have hget : taskGet fuel s.proc (Reply.pidOf s.proc pid) = .ok (some t) := by
    rw [taskGet_eq_find hi.ring hi.pidsDistinct _ _ hfuel]
    exact congrArg Except.ok hfind
  unfold Reply.sysGetpgid
  rw [hget, hpid]
  rfl

theorem TableInv.sysGetpgid_member (hi : TableInv s.proc l) (ht : t ∈ s.proc.currentTask :: l)
    {fuel : Nat} (hfuel : l.length < fuel) : Reply.sysGetpgid fuel (s.proc.task t).pid s =
      .ok (.done (Reply.pidOf s.proc (s.proc.task t).pid), s) := by
  by_cases hzero : (s.proc.task t).pid = 0#32
  · exact hi.sysGetpgid List.mem_cons_self (if_pos hzero) hfuel
  · exact hi.sysGetpgid ht (if_neg hzero) hfuel

theorem pidOf_self (p : Proc) : Reply.pidOf p p.cur.pid = Reply.pidOf p 0#32 := by
  unfold Reply.pidOf
  rw [if_pos rfl]
  split <;> rfl

/-- The three calls agree on the group of a task exactly if that is the pid which
`sys_getpgid` is asked about. -/
theorem TableInv.groupReported_iff (hi : TableInv s.proc l) (ht : t ∈ s.proc.currentTask :: l)
    {group : Word} (hgroup : (s.proc.task t).pgid = group) :
    GroupReported s t group ↔ Reply.pidOf s.proc (s.proc.task t).pid = group := by
  constructor
  · rintro ⟨⟨n, hn⟩, -, -⟩
    have hlt : n < n + l.length + 1 := by omega
    have hlen : l.length < n + l.length + 1 := by omega
    have heq := (hn _ hlt).symm.trans (hi.sysGetpgid_member ht hlen)
    cases heq
    rfl
  · intro he
    refine ⟨⟨l.length, fun fuel hfuel => he ▸ hi.sysGetpgid_member ht hfuel⟩, ?_, ?_⟩
    · rintro rfl
      have hself : Reply.pidOf s.proc 0#32 = group := he ▸ (pidOf_self s.proc).symm
      exact ⟨l.length, fun fuel hfuel =>
        hself ▸ hi.sysGetpgid List.mem_cons_self (if_pos rfl) hfuel⟩
    · rintro rfl
      rw [← hgroup]
      rfl

/-- After every run, for every task of the ring: `sys_getpgid`, `sys_getpgrp` and `sys_ioctl`
report the group that the history gives the task if and only if that group is the task's
own pid, or the caller's where `sys_getpgid` takes the pid 0 of `KernelTask` for the caller.
`sys_ioctl` reports it in any case. -/
theorem getpgid_reports_iff (kernEnd pgd : Word) (fs : Fs) (root : NodePtr)
    (tr : List GroupEvent) (s : Files)
    (hrun : Run GroupStep ⟨bootProc kernEnd pgd, fs, root⟩ tr s) (hf : forkCount tr < 2 ^ 31) :
    ∃ l, Ring s.proc.list s.proc.currentTask l ∧ ∀ t ∈ s.proc.currentTask :: l,
      (GroupReported s t (groupOf tr (s.proc.task t).pid) ↔
        Reply.pidOf s.proc (s.proc.task t).pid = groupOf tr (s.proc.task t).pid) ∧
      (t = s.proc.currentTask →
        sysIoctl tiocgpgrp s.proc = some (groupOf tr (s.proc.task t).pid)) := by
  obtain ⟨l, hi⟩ := groupInv_run hrun hf
  refine ⟨l, hi.table.ring, ?_⟩
  intro t ht
  have hgroup := hi.pgid t (hi.table.made t ht)
  refine ⟨hi.table.groupReported_iff ht hgroup, ?_⟩
  rintro rfl
  exact congrArg some hgroup

/-- A child makes itself the leader of a group of its own. -/
theorem getpgid_reports_leader : ∃ tr s,
    Run GroupStep { oneFile .dir .chr (fun _ => 0) with proc := bootProc 0 0 } tr s ∧
      groupOf tr 2#32 = 2#32 ∧ GroupReported s 2 2#32 := by
  obtain ⟨tr, s, hrun, htest⟩ := exists_run (GroupOp.tryExec 4) (groupStep_of_tryExec 4)
    [.fork 0, .task .yield, .fork 0, .task .yield, .setpgid 0 0]
    { oneFile .dir .chr (fun _ => 0) with proc := bootProc 0 0 }
    (fun tr s => forkCount tr == 2 && groupOf tr 2#32 == 2#32 &&
      (s.proc.task 2).pid == 2#32 && s.proc.currentTask == 2) (by decide +kernel)
  simp only [Bool.and_eq_true, beq_iff_eq] at htest
  obtain ⟨⟨⟨hforks, hgroup⟩, hpid⟩, hcur⟩ := htest
  obtain ⟨l, -, hall⟩ := getpgid_reports_iff 0 0 _ _ tr s hrun (by rw [hforks]; decide)
  have hreport := (hall 2 (hcur ▸ List.mem_cons_self)).1
  rw [hpid, hgroup] at hreport
  exact ⟨tr, s, hrun, hgroup, hreport.mpr (if_neg (by decide))⟩

/-- The first program forks a child, which is in its group. -/
theorem not_groupReported_child : ∃ tr s t,
    Run GroupStep { oneFile .dir .chr (fun _ => 0) with proc := bootProc 0 0 } tr s ∧
      (∃ l, Ring s.proc.list s.proc.currentTask l ∧ t ∈ s.proc.currentTask :: l) ∧
      groupOf tr (s.proc.task t).pid = 1#32 ∧
      ¬ GroupReported s t (groupOf tr (s.proc.task t).pid) := by
  obtain ⟨tr, s, hrun, htest⟩ := exists_run (GroupOp.tryExec 4) (groupStep_of_tryExec 4)
    [.fork 0, .task .yield, .fork 0] { oneFile .dir .chr (fun _ => 0) with proc := bootProc 0 0 }
    (fun tr s => forkCount tr == 2 && groupOf tr 2#32 == 1#32 && (s.proc.task 2).pid == 2#32 &&
      s.proc.ntasks == 3 && (s.proc.task 2).state == .taskReady) (by decide +kernel)
  simp only [Bool.and_eq_true, beq_iff_eq] at htest
  obtain ⟨⟨⟨⟨hforks, hgroup⟩, hpid⟩, hn⟩, hstate⟩ := htest
  obtain ⟨l, hi⟩ := groupInv_run hrun (by rw [hforks]; decide)
  have hmem : 2 ∈ s.proc.currentTask :: l :=
    hi.table.linked 2 (by omega) (by rw [hstate]; decide)
  refine ⟨tr, s, 2, hrun, ⟨l, hi.table.ring, hmem⟩, by rw [hpid]; exact hgroup, ?_⟩
  have hasked : Reply.pidOf s.proc 2#32 = 2#32 := if_neg (by decide)
  rw [hi.table.groupReported_iff hmem (hi.pgid 2 (by omega)), hpid, hgroup, hasked]
  decide

end Reports

end AkKernel
