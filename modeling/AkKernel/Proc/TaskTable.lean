import AkKernel.Proc.Effects
import Mathlib.Data.Finset.Card

/-!
# The task table over whole runs

The ring holds `CurrentTask` and every task that has not quit, pids number the
tasks in the order they were made, and the child counts are right.
-/

set_option autoImplicit false

namespace AkKernel

open LinkedRing Runs

/-- The tasks that still count as children of `t`. -/
def liveChildren (p : Proc) (t : TaskPtr) : Finset TaskPtr :=
  (Finset.range p.ntasks).filter fun s =>
    s ≠ t ∧ (p.task s).state ≠ .taskQuit ∧ (p.task s).ppid = (p.task t).pid

structure TableInv (p : Proc) (l : List TaskPtr) : Prop where
  bound : p.ntasks ≤ 2 ^ 31
  ring : Ring p.list p.currentTask l
  made : ∀ t ∈ p.currentTask :: l, t < p.ntasks
  linked : ∀ t, t < p.ntasks → (p.task t).state ≠ .taskQuit → t ∈ p.currentTask :: l
  blank : ∀ t, p.ntasks ≤ t → ¬ Eligible (p.task t)
  nextPid : p.nextPid = BitVec.ofNat 32 p.ntasks
  pid : ∀ t, t < p.ntasks → (p.task t).pid = BitVec.ofNat 32 t
  ppid : ∀ t, t < p.ntasks → ∃ s, s < p.ntasks ∧ (p.task t).ppid = BitVec.ofNat 32 s
  children : ∀ t, t < p.ntasks → (p.task t).state ≠ .taskQuit →
    (p.task t).childcount = (liveChildren p t).card

theorem ofNat_inj {s t : Nat} (hs : s ≤ 2 ^ 31) (ht : t ≤ 2 ^ 31)
    (h : BitVec.ofNat 32 s = BitVec.ofNat 32 t) : s = t := by
  have h1 := congrArg BitVec.toNat h
  simp only [BitVec.toNat_ofNat] at h1
  omega

namespace TableInv
variable {p p' : Proc} {l : List TaskPtr}

theorem pid_inj (hi : TableInv p l) {s t : Nat} (hs : s < p.ntasks) (ht : t < p.ntasks)
    (h : (p.task s).pid = (p.task t).pid) : s = t := by
  have hb := hi.bound
  rw [hi.pid s hs, hi.pid t ht] at h
  exact ofNat_inj (by omega) (by omega) h

theorem live (hi : TableInv p l) : ∀ t, Eligible (p.task t) → t ∈ p.currentTask :: l := by
  intro t ht
  by_cases hb : t < p.ntasks
  · exact hi.linked t hb ht.not_quit
  · exact absurd ht (hi.blank t (Nat.not_lt.mp hb))

theorem pidsDistinct (hi : TableInv p l) : PidsDistinct p l := by
  apply List.Nodup.map_on _ hi.ring.nodup
  intro s hs t ht h
  exact hi.pid_inj (hi.made s hs) (hi.made t ht) h

theorem current_lt (hi : TableInv p l) : p.currentTask < p.ntasks :=
  hi.made _ List.mem_cons_self

theorem effect (hi : TableInv p l) {lbl : Op × Option Report} (h : Step p lbl p') :
    Effect p l lbl p' := step_effect hi.ring hi.live hi.pidsDistinct h

/-- A change that keeps pids, parents, child counts and who has quit, and moves the
ring no further than dropping tasks that have quit, keeps the invariant. -/
theorem transport (hi : TableInv p l) {q : Proc} {l' : List TaskPtr}
    (hn : q.ntasks = p.ntasks) (hnext : q.nextPid = p.nextPid)
    (hpid : ∀ t, (q.task t).pid = (p.task t).pid)
    (hppid : ∀ t, (q.task t).ppid = (p.task t).ppid)
    (hcc : ∀ t, (q.task t).childcount = (p.task t).childcount)
    (hquit : ∀ t, (q.task t).state = .taskQuit ↔ (p.task t).state = .taskQuit)
    (hblank : ∀ t, p.ntasks ≤ t → q.task t = p.task t)
    (hr : Ring q.list q.currentTask l')
    (hsub : ∀ t ∈ q.currentTask :: l', t ∈ p.currentTask :: l)
    (hkeep : ∀ t ∈ p.currentTask :: l, (p.task t).state ≠ .taskQuit → t ∈ q.currentTask :: l') :
    TableInv q l' := by
  have hch (t : TaskPtr) : liveChildren q t = liveChildren p t := by
    simp only [liveChildren, hn, hpid, hppid, ne_eq, hquit]
  refine ⟨by rw [hn]; exact hi.bound, hr, ?_, ?_, ?_, by rw [hnext, hn]; exact hi.nextPid,
    ?_, ?_, ?_⟩
  · intro t ht
    rw [hn]
    exact hi.made t (hsub t ht)
  · intro t ht hs
    rw [hn] at ht
    have hs' : (p.task t).state ≠ .taskQuit := fun h => hs ((hquit t).mpr h)
    exact hkeep t (hi.linked t ht hs') hs'
  · intro t ht
    rw [hn] at ht
    rw [hblank t ht]
    exact hi.blank t ht
  · intro t ht
    rw [hn] at ht
    rw [hpid]
    exact hi.pid t ht
  · intro t ht
    rw [hn] at ht ⊢
    rw [hppid]
    exact hi.ppid t ht
  · intro t ht hs
    rw [hn] at ht
    rw [hcc, hch]
    exact hi.children t ht (fun h => hs ((hquit t).mpr h))

end TableInv

section Switch

/-- Changing one entry of a table keeps every projection that the new value keeps. -/
theorem update_proj {α β γ : Type} [DecidableEq α] (f : α → β) (g : β → γ) {e : α} {v : β}
    (h : g v = g (f e)) (t : α) : g (Function.update f e v t) = g (f t) := by
  by_cases ht : t = e
  · subst ht
    simpa using h
  · rw [Function.update_of_ne ht]

variable (t : Task) (c : Ctx)

@[simp] theorem schedule_pid : (schedule t c).pid = t.pid := by
  unfold schedule resume; split <;> split <;> rfl

@[simp] theorem schedule_ppid : (schedule t c).ppid = t.ppid := by
  unfold schedule resume; split <;> split <;> rfl

@[simp] theorem schedule_childcount : (schedule t c).childcount = t.childcount := by
  unfold schedule resume; split <;> split <;> rfl

theorem schedule_state :
    (schedule t c).state = if t.state = .taskSigWait then .taskReady else t.state := by
  unfold schedule resume; split <;> split <;> rfl

theorem schedule_quit : (schedule t c).state = .taskQuit ↔ t.state = .taskQuit := by
  rw [schedule_state]
  split
  · rename_i h
    simp [h]
  · rfl

end Switch

namespace TableInv
variable {p p' : Proc} {l : List TaskPtr}

theorem switch (hi : TableInv p l) {e : TaskPtr} {list : Links TaskPtr}
    (hel : Eligible (p.task e)) (hs : Shrinks p l e list) :
    ∃ l', TableInv (switchTo p e list) l' := by
  obtain ⟨l', hr, hsub, hkeep⟩ := hs
  refine ⟨l', hi.transport rfl rfl ?_ ?_ ?_ ?_ ?_ hr hsub hkeep⟩
  · exact update_proj _ Task.pid (schedule_pid _ _)
  · exact update_proj _ Task.ppid (schedule_ppid _ _)
  · exact update_proj _ Task.childcount (schedule_childcount _ _)
  · intro t
    exact Iff.of_eq (update_proj p.task (fun v => v.state = .taskQuit)
      (propext (schedule_quit _ _)) t)
  · intro t ht
    have hne : t ≠ e := by
      intro h
      subst h
      exact hi.blank t ht hel
    exact Function.update_of_ne hne _ _

/-- Giving `CurrentTask` another state than quit, while it has not quit, or another signal to
wait for, does not concern the table. -/
theorem update_current (hi : TableInv p l) {v : Task} {ctx : TaskPtr → Ctx}
    (hpid : v.pid = p.cur.pid) (hppid : v.ppid = p.cur.ppid)
    (hcc : v.childcount = p.cur.childcount) (hq : v.state = .taskQuit ↔ p.cur.state = .taskQuit) :
    TableInv { p with task := Function.update p.task p.currentTask v, ctx := ctx } l := by
  refine hi.transport rfl rfl ?_ ?_ ?_ ?_ ?_ hi.ring (fun t ht => ht) (fun t ht _ => ht)
  · exact update_proj _ Task.pid hpid
  · exact update_proj _ Task.ppid hppid
  · exact update_proj _ Task.childcount hcc
  · intro t
    exact Iff.of_eq (update_proj p.task (fun v => v.state = .taskQuit) (propext hq) t)
  · intro t ht
    have hne : t ≠ p.currentTask := fun h => absurd (h ▸ hi.current_lt) (Nat.not_lt.mpr ht)
    exact Function.update_of_ne hne _ _

theorem setCtx (hi : TableInv p l) (t : TaskPtr) (c : Ctx) : TableInv (p.setCtx t c) l :=
  ⟨hi.bound, hi.ring, hi.made, hi.linked, hi.blank, hi.nextPid, hi.pid, hi.ppid, hi.children⟩

theorem sleepWait4 (hi : TableInv p l) (hq : p.cur.state ≠ .taskQuit) :
    TableInv (sleepWait4 p) l :=
  hi.update_current rfl rfl rfl (iff_of_false (fun h => TState.noConfusion h) hq)

theorem sleepSuspend (hi : TableInv p l) (hq : p.cur.state ≠ .taskQuit) :
    TableInv (sleepSuspend p) l :=
  hi.update_current rfl rfl rfl (iff_of_false (fun h => TState.noConfusion h) hq)

end TableInv

section Fork
variable {p : Proc} {l : List TaskPtr} {pgd : Word} {list : Links TaskPtr}
  {descr : DescrPtr → Option Fdescr}

theorem forked_new : (forked p pgd list descr).task p.ntasks =
    { cloneOf p.cur p.nextPid with pgd := pgd } := by simp [forked]

theorem forked_old {t : TaskPtr} (ht : t < p.ntasks) :
    (forked p pgd list descr).task t = if t = p.currentTask then
      { p.cur with childcount := p.cur.childcount + 1 } else p.task t := by
  have hne : t ≠ p.ntasks := Nat.ne_of_lt ht
  by_cases hc : t = p.currentTask
  · subst hc
    simp [forked, hne]
  · simp [forked, hne, hc]

variable (p pgd list descr) in
/-- Of the tasks that were there before, a fork changes only the caller's child count. -/
theorem forked_proj {γ : Type} (g : Task → γ)
    (hg : ∀ (v : Task) n, g { v with childcount := n } = g v) {t : TaskPtr} (ht : t < p.ntasks) :
    g ((forked p pgd list descr).task t) = g (p.task t) := by
  rw [forked_old ht]
  split
  · rename_i h
    rw [hg, h]
    rfl
  · rfl

theorem liveChildren_forked (hi : TableInv p l) {t : TaskPtr} (ht : t < p.ntasks) :
    liveChildren (forked p pgd list descr) t =
      if t = p.currentTask then insert p.ntasks (liveChildren p t) else liveChildren p t := by
  ext s
  have hcur := hi.current_lt
  have hn : (forked p pgd list descr).ntasks = p.ntasks + 1 := rfl
  have hpid := forked_proj p pgd list descr Task.pid (fun _ _ => rfl) ht
  by_cases hs : s < p.ntasks
  · have h1 := forked_proj p pgd list descr Task.state (fun _ _ => rfl) hs
    have h2 := forked_proj p pgd list descr Task.ppid (fun _ _ => rfl) hs
    have hsn : s ≠ p.ntasks := Nat.ne_of_lt hs
    have hmem : s ∈ liveChildren (forked p pgd list descr) t ↔ s ∈ liveChildren p t := by
      simp only [liveChildren, Finset.mem_filter, Finset.mem_range, hn, h1, h2, hpid, hs,
        Nat.lt_succ_of_lt hs]
    rw [hmem]
    split <;> simp [hsn]
  · by_cases hsn : s = p.ntasks
    · subst hsn
      have hst : p.ntasks ≠ t := Nat.ne_of_gt ht
      have hold : p.ntasks ∉ liveChildren p t := by simp [liveChildren]
      have hsame : p.cur.pid = (p.task t).pid ↔ t = p.currentTask := by
        constructor
        · intro h
          exact (hi.pid_inj hcur ht h).symm
        · intro h
          rw [h]
          rfl
      have hmem : p.ntasks ∈ liveChildren (forked p pgd list descr) t ↔ t = p.currentTask := by
        simp only [liveChildren, Finset.mem_filter, Finset.mem_range, hn, forked_new, hpid]
        simp [cloneOf, hst, hsame]
      rw [hmem]
      split <;> simp_all
    · have hlt : ¬ s < p.ntasks + 1 := by
        intro h
        rcases Nat.lt_succ_iff_lt_or_eq.mp h with h | h
        · exact hs h
        · exact hsn h
      split <;> simp [liveChildren, hn, hlt, hs, hsn]

theorem liveChildren_new (hi : TableInv p l) (hb : p.ntasks < 2 ^ 31) :
    liveChildren (forked p pgd list descr) p.ntasks = ∅ := by
  apply Finset.filter_false_of_mem
  intro s hs
  rw [Finset.mem_range] at hs
  rcases Nat.lt_succ_iff_lt_or_eq.mp hs with hs | hs
  · obtain ⟨m, hm, he⟩ := hi.ppid s hs
    intro h
    have h1 := h.2.2
    rw [forked_proj p pgd list descr Task.ppid (fun _ _ => rfl) hs, forked_new, he] at h1
    have h2 : BitVec.ofNat 32 m = BitVec.ofNat 32 p.ntasks := h1.trans hi.nextPid
    have := ofNat_inj (by omega) (by omega) h2
    omega
  · intro h
    exact h.1 hs

theorem childcount_forked (hi : TableInv p l) {t : TaskPtr} (ht : t < p.ntasks)
    (hs : (p.task t).state ≠ .taskQuit) :
    ((forked p pgd list descr).task t).childcount =
      (liveChildren (forked p pgd list descr) t).card := by
  have hold : p.ntasks ∉ liveChildren p t := by simp [liveChildren]
  have hc := hi.children t ht hs
  rw [liveChildren_forked hi ht, forked_old ht]
  by_cases htc : t = p.currentTask
  · rw [if_pos htc, if_pos htc, Finset.card_insert_of_notMem hold]
    subst htc
    change p.cur.childcount + 1 = _
    change p.cur.childcount = _ at hc
    rw [hc]
    push_cast
    rfl
  · rw [if_neg htc, if_neg htc]
    exact hc

theorem TableInv.fork (hi : TableInv p l) (hb : p.ntasks < 2 ^ 31)
    (hlist : listInsertAfter p.list p.currentTask p.ntasks = .ok list) :
    TableInv (forked p pgd list descr) (p.ntasks :: l) where
  bound := hb
  ring := by
    have hfresh : p.ntasks ∉ p.currentTask :: l := fun h => Nat.lt_irrefl _ (hi.made _ h)
    obtain ⟨h, hh, hr⟩ := listInsertAfter_ring hi.ring hfresh
    rw [hlist] at hh
    cases Except.ok.inj hh
    exact hr
  made := by
    intro t ht
    have ht' : t ∈ p.currentTask :: l ∨ t = p.ntasks := by
      simp only [List.mem_cons] at ht ⊢
      tauto
    rcases ht' with ht' | ht'
    · exact Nat.lt_succ_of_lt (hi.made t ht')
    · rw [ht']
      exact Nat.lt_succ_self _
  linked := by
    intro t ht hs
    rcases Nat.lt_succ_iff_lt_or_eq.mp ht with ht | ht
    · rw [forked_proj p pgd list descr Task.state (fun _ _ => rfl) ht] at hs
      have := hi.linked t ht hs
      simp only [List.mem_cons] at this ⊢
      tauto
    · simp [ht]
  blank := by
    intro t ht
    have hle : p.ntasks < t := ht
    have hcur := hi.current_lt
    have h1 : t ≠ p.ntasks := Nat.ne_of_gt hle
    have h2 : t ≠ p.currentTask := Nat.ne_of_gt (Nat.lt_trans hcur hle)
    have h3 : (forked p pgd list descr).task t = p.task t := by simp [forked, h1, h2]
    rw [h3]
    exact hi.blank t (Nat.le_of_lt hle)
  nextPid := by
    change p.nextPid + 1#32 = BitVec.ofNat 32 (p.ntasks + 1)
    rw [hi.nextPid, BitVec.ofNat_add]
  pid := by
    intro t ht
    rcases Nat.lt_succ_iff_lt_or_eq.mp ht with ht | ht
    · rw [forked_proj p pgd list descr Task.pid (fun _ _ => rfl) ht]
      exact hi.pid t ht
    · rw [ht, forked_new]
      exact hi.nextPid
  ppid := by
    intro t ht
    rcases Nat.lt_succ_iff_lt_or_eq.mp ht with ht | ht
    · obtain ⟨s, hs, he⟩ := hi.ppid t ht
      refine ⟨s, Nat.lt_succ_of_lt hs, ?_⟩
      rw [forked_proj p pgd list descr Task.ppid (fun _ _ => rfl) ht]
      exact he
    · refine ⟨p.currentTask, Nat.lt_succ_of_lt hi.current_lt, ?_⟩
      rw [ht, forked_new]
      exact hi.pid _ hi.current_lt
  children := by
    intro t ht hs
    rcases Nat.lt_succ_iff_lt_or_eq.mp ht with ht | ht
    · rw [forked_proj p pgd list descr Task.state (fun _ _ => rfl) ht] at hs
      exact childcount_forked hi ht hs
    · rw [ht, liveChildren_new hi hb, forked_new]
      rfl

end Fork

section Exit
variable {p : Proc} {l : List TaskPtr} {status : Word} {parent : Option TaskPtr}

/-- The task of the ring with a given pid, as `task_get` finds it. -/
def ringFind (p : Proc) (l : List TaskPtr) (pid : Word) : Option TaskPtr :=
  (l ++ [p.currentTask]).find? fun s => (p.task s).pid = pid

theorem TableInv.ringFind_eq_some (hi : TableInv p l) {pid : Word} {t : TaskPtr} :
    ringFind p l pid = some t ↔ t ∈ p.currentTask :: l ∧ (p.task t).pid = pid := by
  have hmem (s : TaskPtr) : s ∈ l ++ [p.currentTask] ↔ s ∈ p.currentTask :: l := by
    simp [or_comm]
  constructor
  · intro h
    have h1 := List.find?_some h
    exact ⟨(hmem t).mp (List.mem_of_find?_eq_some h), by simpa using h1⟩
  · intro h
    cases hf : ringFind p l pid with
    | none =>
      have h1 := List.find?_eq_none.mp hf t ((hmem t).mpr h.1)
      simp [h.2] at h1
    | some s =>
      have h1 := List.find?_some hf
      have h2 : s ∈ p.currentTask :: l := (hmem s).mp (List.mem_of_find?_eq_some hf)
      have h3 : (p.task s).pid = (p.task t).pid := by
        rw [h.2]
        simpa using h1
      rw [hi.pid_inj (hi.made s h2) (hi.made t h.1) h3]

variable (p status parent) in
theorem exited_proj {γ : Type} (g : Task → γ)
    (hq : ∀ (v : Task) s, g (quitOf v s) = g v) (hn : ∀ (v : Task) a s, g (notified v a s) = g v)
    (x t : TaskPtr) : g (exited p x status parent t) = g (p.task t) := by
  have h1 := update_proj p.task g (hq (p.task x) status) t
  cases parent with
  | none => exact h1
  | some q => exact (update_proj _ g (hn _ _ _) t).trans h1

theorem exited_state (x t : TaskPtr) : (exited p x status parent t).state =
    if t = x then .taskQuit else (p.task t).state := by
  have h1 : (Function.update p.task x (quitOf (p.task x) status) t).state =
      if t = x then .taskQuit else (p.task t).state := by
    by_cases ht : t = x
    · subst ht
      simp [quitOf]
    · simp [ht]
  cases parent with
  | none => exact h1
  | some q =>
    let task := Function.update p.task x (quitOf (p.task x) status)
    have h2 : (exited p x status (some q) t).state = (task t).state :=
      update_proj task Task.state (v := notified (task q) (p.task x).pid status) rfl t
    exact h2.trans h1

theorem exited_childcount (x t : TaskPtr) : (exited p x status parent t).childcount =
    if parent = some t then (p.task t).childcount - 1 else (p.task t).childcount := by
  have h1 (s : TaskPtr) : (Function.update p.task x (quitOf (p.task x) status) s).childcount =
      (p.task s).childcount :=
    update_proj p.task Task.childcount (v := quitOf (p.task x) status) rfl s
  cases parent with
  | none => exact h1 t
  | some q =>
    by_cases ht : t = q
    · subst ht
      simp only [exited, Function.update_self, notified, h1, if_true]
    · have hq : (some q : Option TaskPtr) ≠ some t := fun h => ht (Option.some.inj h).symm
      simp only [exited, Function.update_of_ne ht, h1, if_neg hq]

theorem liveChildren_exited (t : TaskPtr) :
    liveChildren { p with task := exited p p.currentTask status parent } t =
      (liveChildren p t).erase p.currentTask := by
  have hpid := exited_proj p status parent Task.pid (fun _ _ => rfl) (fun _ _ _ => rfl)
    p.currentTask
  have hppid := exited_proj p status parent Task.ppid (fun _ _ => rfl) (fun _ _ _ => rfl)
    p.currentTask
  ext s
  simp only [liveChildren, Finset.mem_filter, Finset.mem_erase, hpid, hppid, exited_state]
  by_cases hsc : s = p.currentTask
  · simp [hsc]
  · simp [hsc]

theorem TableInv.parent_iff (hi : TableInv p l) (hq : p.cur.state ≠ .taskQuit)
    (hpar : parent = ringFind p l p.cur.ppid) {t : TaskPtr} (ht : t < p.ntasks)
    (hst : (p.task t).state ≠ .taskQuit) (hne : t ≠ p.currentTask) :
    parent = some t ↔ p.currentTask ∈ liveChildren p t := by
  rw [hpar, hi.ringFind_eq_some]
  simp only [liveChildren, Finset.mem_filter, Finset.mem_range]
  constructor
  · intro h
    exact ⟨hi.current_lt, Ne.symm hne, hq, h.2.symm⟩
  · intro h
    exact ⟨hi.linked t ht hst, h.2.2.2.symm⟩

theorem exited_blank (hi : TableInv p l) (hpar : parent = ringFind p l p.cur.ppid) {t : TaskPtr}
    (ht : p.ntasks ≤ t) : exited p p.currentTask status parent t = p.task t := by
  have hne : t ≠ p.currentTask := fun h => absurd (h ▸ hi.current_lt) (Nat.not_lt.mpr ht)
  have hnp : ∀ q, parent = some q → t ≠ q := by
    intro q hpq h
    rw [hpar, hi.ringFind_eq_some] at hpq
    exact absurd (h ▸ hi.made q hpq.1) (Nat.not_lt.mpr ht)
  cases parent with
  | none => simp [exited, hne]
  | some q => simp [exited, hne, hnp q rfl]

theorem TableInv.exit (hi : TableInv p l) (hq : p.cur.state ≠ .taskQuit)
    (hpar : parent = ringFind p l p.cur.ppid) :
    TableInv { p with task := exited p p.currentTask status parent } l where
  bound := hi.bound
  ring := hi.ring
  made := hi.made
  linked := by
    intro t ht hs
    apply hi.linked t ht
    intro h
    change (exited p p.currentTask status parent t).state ≠ _ at hs
    rw [exited_state, h] at hs
    simp at hs
  blank := by
    intro t ht hel
    change Eligible (exited p p.currentTask status parent t) at hel
    rw [exited_blank hi hpar ht] at hel
    exact hi.blank t ht hel
  nextPid := hi.nextPid
  pid := by
    intro t ht
    exact (exited_proj p status parent Task.pid (fun _ _ => rfl) (fun _ _ _ => rfl)
      p.currentTask t).trans (hi.pid t ht)
  ppid := by
    intro t ht
    obtain ⟨s, hs, he⟩ := hi.ppid t ht
    exact ⟨s, hs, (exited_proj p status parent Task.ppid (fun _ _ => rfl) (fun _ _ _ => rfl)
      p.currentTask t).trans he⟩
  children := by
    intro t ht hs
    change (exited p p.currentTask status parent t).state ≠ _ at hs
    have hne : t ≠ p.currentTask := by
      intro h
      rw [exited_state, if_pos h] at hs
      exact hs rfl
    have hst : (p.task t).state ≠ .taskQuit := by
      rw [exited_state, if_neg hne] at hs
      exact hs
    have hparent := hi.parent_iff hq hpar ht hst hne
    change (exited p p.currentTask status parent t).childcount = _
    rw [liveChildren_exited, exited_childcount, hi.children t ht hst]
    by_cases hm : p.currentTask ∈ liveChildren p t
    · have hpos : 0 < (liveChildren p t).card := Finset.card_pos.mpr ⟨_, hm⟩
      rw [if_pos (hparent.mpr hm), Finset.card_erase_of_mem hm]
      omega
    · rw [if_neg (fun h => hm (hparent.mp h)), Finset.erase_eq_of_notMem hm]

end Exit

section Run
variable {p p' : Proc} {l : List TaskPtr} {lbl : Op × Option Report}

def Op.isFork : Op → Bool
  | .fork _ => true
  | _ => false

/-- The number of forks of a run. -/
def forks (tr : List (Op × Option Report)) : Nat := tr.countP fun l => l.1.isFork

theorem forks_snoc {tr : List (Op × Option Report)} :
    forks (tr ++ [lbl]) = forks tr + if lbl.1.isFork then 1 else 0 := by
  simp [forks, List.countP_append, List.countP_singleton]

theorem TableInv.step (hi : TableInv p l) (h : Effect p l lbl p')
    (hb : lbl.1.isFork → p.ntasks < 2 ^ 31) :
    p'.ntasks = p.ntasks + (if lbl.1.isFork then 1 else 0) ∧ ∃ l', TableInv p' l' := by
  cases h with
  | fork pgd list descr _ _ hlist _ => exact ⟨rfl, _, hi.fork (hb rfl) hlist⟩
  | exit status parent _ hq hpar => exact ⟨rfl, l, hi.exit hq hpar⟩
  | early options => exact ⟨rfl, l, hi⟩
  | wait4 options e list _ hq _ hel hs => exact ⟨rfl, (hi.sleepWait4 hq).switch hel hs⟩
  | wait4Return _ => exact ⟨rfl, l, hi.setCtx _ _⟩
  | sigsuspend e list _ hq hel hs => exact ⟨rfl, (hi.sleepSuspend hq).switch hel hs⟩
  | sigsuspendReturn _ => exact ⟨rfl, l, hi.setCtx _ _⟩
  | yield e list hel hs => exact ⟨rfl, hi.switch hel hs⟩

theorem switchTo_quit {e t : TaskPtr} {list : Links TaskPtr}
    (h : (p.task t).state = .taskQuit) : ((switchTo p e list).task t).state = .taskQuit :=
  (update_proj p.task (fun v => v.state = .taskQuit) (propext (schedule_quit _ _)) t).mpr h

theorem Effect.quit_stays (h : Effect p l lbl p') {t : TaskPtr} (ht : t < p.ntasks)
    (hq : (p.task t).state = .taskQuit) : (p'.task t).state = .taskQuit := by
  have awake {v : Task} (hc : p.cur.state ≠ .taskQuit) :
      (Function.update p.task p.currentTask v t).state = .taskQuit := by
    have hne : t ≠ p.currentTask := by
      intro h
      rw [h] at hq
      exact hc hq
    rw [Function.update_of_ne hne]
    exact hq
  cases h with
  | fork pgd list descr _ _ _ _ => rw [forked_proj p pgd list descr Task.state (fun _ _ => rfl) ht, hq]
  | exit status parent _ _ _ =>
    change (exited p p.currentTask status parent t).state = _
    rw [exited_state, hq]
    split <;> rfl
  | early _ => exact hq
  | wait4 _ e list _ hc _ _ _ => exact switchTo_quit (p := sleepWait4 p) (awake hc)
  | wait4Return _ => exact hq
  | sigsuspend e list _ hc _ _ => exact switchTo_quit (p := sleepSuspend p) (awake hc)
  | sigsuspendReturn _ => exact hq
  | yield e list _ _ => exact switchTo_quit hq

theorem bootProc_table (kernEnd pgd : Word) : TableInv (bootProc kernEnd pgd) [] := by
  have hother : ∀ t : Nat, 1 ≤ t → (bootProc kernEnd pgd).task t = zeroTask := by
    intro t ht
    have hne : t ≠ kernelTask := Nat.ne_of_gt ht
    simp [bootProc, schedInit, fdioTblInit, Proc.setTask, hne]
  have hzero : ∀ t : Nat, t < 1 → t = kernelTask := fun t ht => Nat.lt_one_iff.mp ht
  refine ⟨(by decide : 1 ≤ 2 ^ 31), ⟨⟨by simp [bootProc, schedInit, fdioTblInit, Proc.setTask],
    by simp [bootProc, schedInit, fdioTblInit, Proc.setTask]⟩, by simp⟩, ?_, ?_, ?_, rfl, ?_, ?_, ?_⟩
  · intro t ht
    rw [List.mem_singleton.mp ht]
    exact Nat.zero_lt_one
  · intro t ht _
    rw [hzero t ht]
    exact List.mem_cons_self
  · intro t ht hel
    rw [hother t ht] at hel
    revert hel
    decide
  · intro t ht
    rw [hzero t ht]
    rfl
  · intro t ht
    exact ⟨0, Nat.zero_lt_one, by rw [hzero t ht]; rfl⟩
  · intro t ht _
    have hempty : liveChildren (bootProc kernEnd pgd) t = ∅ := by
      apply Finset.filter_false_of_mem
      intro s hs h
      exact h.1 ((hzero s (Finset.mem_range.mp hs)).trans (hzero t ht).symm)
    rw [hempty, hzero t ht]
    rfl

theorem run_table {kernEnd pgd : Word} {tr : List (Op × Option Report)}
    (hrun : Run Step (bootProc kernEnd pgd) tr p) (hf : forks tr < 2 ^ 31) :
    ∃ l, TableInv p l := by
  have hall : forks tr < 2 ^ 31 → p.ntasks = 1 + forks tr ∧ ∃ l, TableInv p l := by
    refine Run.invariant (I := fun tr p => forks tr < 2 ^ 31 →
      p.ntasks = 1 + forks tr ∧ ∃ l, TableInv p l) ?_ ?_ hrun
    · intro _
      exact ⟨rfl, [], bootProc_table kernEnd pgd⟩
    · intro tr q lbl u ih hstep hlt
      rw [forks_snoc] at hlt ⊢
      obtain ⟨hn, l, hi⟩ := ih (by omega)
      have hb : lbl.1.isFork → q.ntasks < 2 ^ 31 := by
        intro h
        rw [if_pos h] at hlt
        omega
      obtain ⟨hn', hi'⟩ := hi.step (hi.effect hstep) hb
      exact ⟨by omega, hi'⟩
  exact (hall hf).2

/-- The task table over whole runs: the list is a ring with `CurrentTask` and every
task that has not quit in it, pids are distinct, `task_get` is a lookup in the
ring, no task leaves the state quit, and the child counts are right. -/
theorem taskTable_over_runs (kernEnd pgd : Word) (tr : List (Op × Option Report)) (p : Proc)
    (hrun : Run Step (bootProc kernEnd pgd) tr p) (hf : forks tr < 2 ^ 31) :
    (∃ l, Ring p.list p.currentTask l ∧
      (∀ t, t < p.ntasks → (p.task t).state ≠ .taskQuit → t ∈ p.currentTask :: l) ∧
      ((p.currentTask :: l).map fun t => (p.task t).pid).Nodup ∧
      ∀ pid, ∃ r, (∀ fuel, l.length < fuel → taskGet fuel p pid = .ok r) ∧
        ∀ t, r = some t ↔ t ∈ p.currentTask :: l ∧ (p.task t).pid = pid) ∧
    (∀ lbl p', Step p lbl p' → ∀ t, t < p.ntasks → (p.task t).state = .taskQuit →
      (p'.task t).state = .taskQuit) ∧
    (∀ t, t < p.ntasks → (p.task t).state ≠ .taskQuit →
      (p.task t).childcount = (liveChildren p t).card) := by
  obtain ⟨l, hi⟩ := run_table hrun hf
  refine ⟨⟨l, hi.ring, hi.linked, hi.pidsDistinct, ?_⟩, ?_, hi.children⟩
  · intro pid
    refine ⟨ringFind p l pid, ?_, fun t => hi.ringFind_eq_some⟩
    intro fuel hfuel
    exact taskGet_eq_find hi.ring hi.pidsDistinct pid fuel hfuel
  · intro lbl p' hstep t ht hq
    exact (hi.effect hstep).quit_stays ht hq

/-- A child is forked, entered and quits, and its parent runs again. -/
theorem taskTable_over_runs_fork_exit :
    ∃ tr p, Run Step (bootProc 0 0) tr p ∧ p.ntasks = 2 ∧
      ∃ l, Ring p.list p.currentTask l ∧ ((p.currentTask :: l).map fun t => (p.task t).pid).Nodup := by
  obtain ⟨tr, p, hrun, htest⟩ := exists_run (Op.tryExec 4) (step_of_tryExec 4)
    [.fork 0, .yield, .exit 1, .yield] (bootProc 0 0)
    (fun tr p => p.ntasks == 2 && forks tr == 1) (by decide +kernel)
  simp only [Bool.and_eq_true, beq_iff_eq] at htest
  obtain ⟨⟨l, hr, -, hd, -⟩, -⟩ := taskTable_over_runs 0 0 tr p hrun (by rw [htest.2]; decide)
  exact ⟨tr, p, hrun, htest.1, l, hr, hd⟩

end Run

end AkKernel
