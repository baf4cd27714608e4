import AkKernel.Proc.Task

/-!
# The scheduler

`kern_sched_yield` of `kernel/proc/sched.c` walks the ring of tasks from
`CurrentTask`, unlinks the tasks that have quit on the way and enters the first one
that can run. The specification `Pick` says which task that is, in terms of the
ring read as a list.
-/

set_option autoImplicit false

namespace AkKernel

open LinkedRing Runs

/-- The second test of the loop: the task sleeps and the signal it waits for is pending. -/
def Wakes (t : Task) : Prop :=
  t.state = .taskSigWait ∧ t.sigpend ≠ 0#32 ∧ (t.sigpend = t.sigwait ∨ t.sigwait = 0#32)

instance (t : Task) : Decidable (Wakes t) := inferInstanceAs (Decidable (_ ∧ _))

def Eligible (t : Task) : Prop := t.state = .taskReady ∨ Wakes t

instance (t : Task) : Decidable (Eligible t) := inferInstanceAs (Decidable (_ ∨ _))

/-- The first test of the loop: a task that has quit is taken out of the ring, and
its own forward link restored so that the walk can go on from it. -/
def unlinkQuit (p : Proc) (task : TaskPtr) : Except Fault Proc :=
  if (p.task task).state = .taskQuit then do
    let realNext := (p.list task).next
    let list ← listRemove p.list task
    .ok { p with list := setNext list task realNext }
  else .ok p

/-- The `do` loop of `kern_sched_yield`; `nextTask` is the loop variable. -/
def schedLoop : Nat → Proc → TaskPtr → Except Fault (TaskPtr × Proc)
  | 0, _, _ => .error .diverges
  | fuel + 1, p, nextTask => do
    let nextTask ← deref (p.list nextTask).next
    let p ← unlinkQuit p nextTask
    if Wakes (p.task nextTask) then
      .ok (nextTask, p.setTask nextTask { p.task nextTask with state := .taskReady })
    else if (p.task nextTask).state ≠ .taskReady then schedLoop fuel p nextTask
    else .ok (nextTask, p)

def kernSchedYield (fuel : Nat) (p : Proc) : Except Fault Proc := do
  let (nextTask, p) ← schedLoop fuel p p.currentTask
  .ok (taskEnter p nextTask)

def schedInit (p : Proc) : Proc :=
  let list := setNext p.list kernelTask (some kernelTask)
  { p with list := setPrev list kernelTask (some kernelTask) }

theorem Eligible.not_quit {t : Task} (h : Eligible t) : t.state ≠ .taskQuit := by
  rcases h with h | h
  · rw [h]; decide
  · rw [h.1]; decide

/-- Waking the chosen task, the only change of a task field before `task_enter`. -/
def wake (p : Proc) (t : TaskPtr) : Proc :=
  if (p.task t).state = .taskSigWait then
    p.setTask t { p.task t with state := .taskReady }
  else p

@[simp] theorem wake_list (p : Proc) (t : TaskPtr) : (wake p t).list = p.list := by
  unfold wake Proc.setTask; split <;> rfl

/-- The members of a walked stretch of the ring that stay in it. -/
def survivors (p : Proc) (l : List TaskPtr) : List TaskPtr :=
  l.filter fun t => (p.task t).state ≠ .taskQuit

/-- What the loop does from a point of the ring: it reads the ring from `c`, has
kept `kept`, and has `rest` and then `c` itself still to visit. -/
structure Pick (p : Proc) (c : TaskPtr) (kept rest : List TaskPtr) (e : TaskPtr)
    (p' : Proc) : Prop where
  eligible : Eligible (p.task e)
  others : ∃ h, p' = wake { p with list := h } e
  ring : (∃ pre post, rest = pre ++ e :: post ∧ (∀ t ∈ pre, ¬ Eligible (p.task t)) ∧
      Ring p'.list c (kept ++ (survivors p pre ++ e :: post))) ∨
    (e = c ∧ (∀ t ∈ rest, ¬ Eligible (p.task t)) ∧ Ring p'.list c (kept ++ survivors p rest))

theorem Pick.skip {p p' : Proc} {c x e : TaskPtr} {kept rest : List TaskPtr}
    (hx : ¬ Eligible (p.task x)) (hq : (p.task x).state ≠ .taskQuit)
    (h : Pick p c (kept ++ [x]) rest e p') : Pick p c kept (x :: rest) e p' := by
  refine ⟨h.eligible, h.others, ?_⟩
  have hs (l : List TaskPtr) : survivors p (x :: l) = x :: survivors p l := by
    simp [survivors, hq]
  rcases h.ring with ⟨pre, post, rfl, hpre, hr⟩ | ⟨rfl, hrest, hr⟩
  · refine Or.inl ⟨x :: pre, post, rfl, ?_, ?_⟩
    · intro t ht
      rcases List.mem_cons.mp ht with rfl | ht
      · exact hx
      · exact hpre t ht
    · rw [hs]
      simpa using hr
  · refine Or.inr ⟨rfl, ?_, ?_⟩
    · intro t ht
      rcases List.mem_cons.mp ht with rfl | ht
      · exact hx
      · exact hrest t ht
    · rw [hs]
      simpa using hr

theorem Pick.unlink {p p' : Proc} {c x e : TaskPtr} {kept rest : List TaskPtr}
    {h : Links TaskPtr} (hq : (p.task x).state = .taskQuit)
    (hp : Pick { p with list := h } c kept rest e p') : Pick p c kept (x :: rest) e p' := by
  have hx : ¬ Eligible (p.task x) := fun he => he.not_quit hq
  have hs (l : List TaskPtr) : survivors p (x :: l) = survivors p l := by
    simp [survivors, hq]
  refine ⟨hp.eligible, hp.others, ?_⟩
  rcases hp.ring with ⟨pre, post, rfl, hpre, hr⟩ | ⟨rfl, hrest, hr⟩
  · refine Or.inl ⟨x :: pre, post, rfl, ?_, ?_⟩
    · intro t ht
      rcases List.mem_cons.mp ht with rfl | ht
      · exact hx
      · exact hpre t ht
    · rw [hs]
      exact hr
  · refine Or.inr ⟨rfl, ?_, ?_⟩
    · intro t ht
      rcases List.mem_cons.mp ht with rfl | ht
      · exact hx
      · exact hrest t ht
    · rw [hs]
      exact hr

theorem schedLoop_found {p : Proc} {cursor e : TaskPtr} (fuel : Nat)
    (hn : (p.list cursor).next = some e) (he : Eligible (p.task e)) :
    schedLoop (fuel + 1) p cursor = .ok (e, wake p e) := by
  have hq := he.not_quit
  rw [schedLoop]
  simp only [hn, deref, bind, Except.bind, unlinkQuit, hq, if_false]
  rcases he with hr | hw
  · have hnw : ¬ Wakes (p.task e) := by
      intro h
      have hs := h.1
      rw [hr] at hs
      exact absurd hs (by decide)
    simp [hnw, hr, wake]
  · simp [hw, wake, hw.1]

theorem schedLoop_skip {p : Proc} {cursor x : TaskPtr} (fuel : Nat)
    (hn : (p.list cursor).next = some x) (hx : ¬ Eligible (p.task x))
    (hq : (p.task x).state ≠ .taskQuit) :
    schedLoop (fuel + 1) p cursor = schedLoop fuel p x := by
  have hw : ¬ Wakes (p.task x) := fun h => hx (Or.inr h)
  have hr : (p.task x).state ≠ .taskReady := fun h => hx (Or.inl h)
  rw [schedLoop]
  simp [hn, deref, bind, Except.bind, unlinkQuit, hq, hw, hr]

theorem schedLoop_unlink {p : Proc} {cursor x : TaskPtr} {h : Links TaskPtr} (fuel : Nat)
    (hn : (p.list cursor).next = some x) (hq : (p.task x).state = .taskQuit)
    (hrem : listRemove p.list x = .ok h) :
    schedLoop (fuel + 1) p cursor =
      schedLoop fuel { p with list := setNext h x (p.list x).next } x := by
  have hw : ¬ Wakes (p.task x) := by
    intro hw
    have hs := hw.1
    rw [hq] at hs
    exact absurd hs (by decide)
  rw [schedLoop]
  simp [hn, deref, bind, Except.bind, unlinkQuit, hq, hw, hrem]

theorem schedLoop_pick {c : TaskPtr} (rest : List TaskPtr) :
    ∀ (p : Proc) (kept : List TaskPtr) (cursor : TaskPtr) (fuel : Nat),
      Ring p.list c (kept ++ rest) → (p.list cursor).next = (rest ++ [c]).head? →
      (∃ e ∈ rest ++ [c], Eligible (p.task e)) → rest.length < fuel →
      ∃ e p', schedLoop fuel p cursor = .ok (e, p') ∧ Pick p c kept rest e p' := by
  induction rest with
  | nil =>
    intro p kept cursor fuel hr hn hel hf
    obtain ⟨fuel, rfl⟩ : ∃ k, fuel = k + 1 := ⟨fuel - 1, by simp at hf; omega⟩
    obtain ⟨e, he, hel⟩ := hel
    have hec : e = c := by simpa using he
    subst hec
    refine ⟨e, wake p e, schedLoop_found fuel (by simpa using hn) hel, hel, ⟨p.list, rfl⟩, ?_⟩
    exact Or.inr ⟨rfl, by simp, by simpa [survivors] using hr⟩
  | cons x rest ih =>
    intro p kept cursor fuel hr hn hel hf
    obtain ⟨fuel, rfl⟩ : ∃ k, fuel = k + 1 := ⟨fuel - 1, by simp at hf; omega⟩
    simp only [List.length_cons, Nat.add_lt_add_iff_right] at hf
    simp only [List.cons_append, List.head?_cons] at hn
    have hxnext : (p.list x).next = (rest ++ [c]).head? :=
      path_next (path_append.mp hr.path).2
    by_cases hx : Eligible (p.task x)
    · refine ⟨x, wake p x, schedLoop_found fuel hn hx, hx, ⟨p.list, rfl⟩, ?_⟩
      exact Or.inl ⟨[], rest, rfl, by simp, by simpa [survivors] using hr⟩
    · have hel' : ∃ e ∈ rest ++ [c], Eligible (p.task e) := by
        obtain ⟨e, he, hee⟩ := hel
        rcases List.mem_cons.mp he with rfl | he
        · exact absurd hee hx
        · exact ⟨e, he, hee⟩
      by_cases hq : (p.task x).state = .taskQuit
      · obtain ⟨h, hrem, hring⟩ := listRemove_ring hr
        have hxout : x ∉ c :: (kept ++ rest) := by
          have hnd := (hr.rotate).nodup
          simp only [List.nodup_cons, List.mem_append, List.mem_cons, not_or] at hnd ⊢
          exact ⟨hnd.1.2.1, hnd.1.2.2, hnd.1.1⟩
        obtain ⟨e, p', hloop, hpick⟩ := ih { p with list := setNext h x (p.list x).next } kept x
          fuel (hring.setNext_of_not_mem hxout) (by simpa using hxnext) hel' hf
        exact ⟨e, p', by rw [schedLoop_unlink fuel hn hq hrem]; exact hloop, hpick.unlink hq⟩
      · obtain ⟨e, p', hloop, hpick⟩ := ih p (kept ++ [x]) x fuel (by simpa using hr) hxnext hel' hf
        exact ⟨e, p', by rw [schedLoop_skip fuel hn hx hq]; exact hloop, hpick.skip hx hq⟩

/-- The members that the walk leaves in the ring, when it passed `pre`. -/
def stay (p : Proc) (pre l : List TaskPtr) : List TaskPtr :=
  l.filter fun t => t ∉ pre ∨ (p.task t).state ≠ .taskQuit

theorem Pick.split {p p' : Proc} {c e : TaskPtr} {l : List TaskPtr} (hnd : l.Nodup)
    (h : Pick p c [] l e p') :
    ∃ pre post, l ++ [c] = pre ++ e :: post ∧ (∀ t ∈ pre, ¬ Eligible (p.task t)) ∧
      Ring p'.list c (stay p pre l) := by
  have hpass (m : List TaskPtr) : stay p m m = survivors p m := by
    apply List.filter_congr
    intro t ht
    simp [ht]
  rcases h.ring with ⟨pre, post, rfl, hpre, hr⟩ | ⟨rfl, hall, hr⟩
  · refine ⟨pre, post ++ [c], by simp, hpre, ?_⟩
    have hstay : stay p pre (e :: post) = e :: post := by
      apply List.filter_eq_self.mpr
      intro t ht
      have : t ∉ pre := fun hm => List.disjoint_of_nodup_append hnd hm ht
      simp [this]
    have hsplit : stay p pre (pre ++ e :: post) = survivors p pre ++ e :: post := by
      rw [← hpass pre, ← hstay]
      simp only [stay, List.filter_append, List.filter_filter, Bool.and_self]
    rw [hsplit]
    simpa using hr
  · exact ⟨l, [], rfl, hall, by rw [hpass]; simpa using hr⟩

theorem schedLoop_mono {fuel : Nat} :
    ∀ {p : Proc} {cursor : TaskPtr} {r : TaskPtr × Proc} {fuel' : Nat},
      schedLoop fuel p cursor = .ok r → fuel ≤ fuel' → schedLoop fuel' p cursor = .ok r := by
  induction fuel with
  | zero =>
    intro p cursor r fuel' h
    cases h
  | succ fuel ih =>
    intro p cursor r fuel' h hle
    obtain ⟨k, rfl⟩ : ∃ k, fuel' = k + 1 := ⟨fuel' - 1, by omega⟩
    rw [schedLoop] at h ⊢
    obtain ⟨n, hn, h⟩ := bind_eq_ok.mp h
    obtain ⟨q, hq, h⟩ := bind_eq_ok.mp h
    refine bind_eq_ok.mpr ⟨n, hn, bind_eq_ok.mpr ⟨q, hq, ?_⟩⟩
    split at h
    · rw [if_pos (by assumption)]
      exact h
    · rw [if_neg (by assumption)]
      split at h
      · rw [if_pos (by assumption)]
        exact ih h (by omega)
      · rw [if_neg (by assumption)]
        exact h

theorem wake_eq (p : Proc) (e : TaskPtr) :
    wake p e = { p with
      task := fun t => if t = e ∧ (p.task e).state = .taskSigWait then
        { p.task t with state := .taskReady } else p.task t } := by
  unfold wake
  split
  · rename_i hs
    simp only [Proc.setTask, hs, and_true]
    congr 1
    funext t
    by_cases ht : t = e
    · subst ht
      simp
    · simp [ht]
  · rename_i hs
    simp [hs]

/-- From a ring that holds a task that can run, the loop ends, however much fuel it has
beyond one pass. -/
theorem schedLoop_ends {p : Proc} {l : List TaskPtr} (hring : Ring p.list p.currentTask l)
    (hel : ∃ e ∈ p.currentTask :: l, Eligible (p.task e)) :
    ∃ e p', (∀ fuel, l.length < fuel → schedLoop fuel p p.currentTask = .ok (e, p')) ∧
      Pick p p.currentTask [] l e p' := by
  have hel' : ∃ e ∈ l ++ [p.currentTask], Eligible (p.task e) := by
    obtain ⟨e, he, hee⟩ := hel
    refine ⟨e, ?_, hee⟩
    simp only [List.mem_cons, List.mem_append, List.not_mem_nil, or_false] at he ⊢
    exact he.symm
  obtain ⟨e, p', hloop, hpick⟩ := schedLoop_pick l p [] p.currentTask (l.length + 1) hring
    (path_next hring.path) hel' (by omega)
  refine ⟨e, p', ?_, hpick⟩
  intro fuel hf
  exact schedLoop_mono hloop hf

/-- The loop ends at the first task behind `CurrentTask` that can run. -/
theorem schedLoop_first {p : Proc} {l : List TaskPtr} (hring : Ring p.list p.currentTask l)
    (hel : ∃ e ∈ p.currentTask :: l, Eligible (p.task e)) :
    ∃ e p' pre post, (∀ fuel, l.length < fuel → schedLoop fuel p p.currentTask = .ok (e, p')) ∧
      l ++ [p.currentTask] = pre ++ e :: post ∧ (∀ t ∈ pre, ¬ Eligible (p.task t)) ∧
      Eligible (p.task e) ∧ Ring p'.list p.currentTask (stay p pre l) ∧
      ∃ h, p' = wake { p with list := h } e := by
  obtain ⟨e, p', hloop, hpick⟩ := schedLoop_ends hring hel
  obtain ⟨pre, post, hsplit, hpre, hr⟩ := hpick.split (List.nodup_cons.mp hring.nodup).2
  exact ⟨e, p', pre, post, hloop, hsplit, hpre, hpick.eligible, hr, hpick.others⟩

/-- From a ring that holds a task that can run, the loop ends and enters the first
such task behind `CurrentTask`; the tasks it unlinks are the quit ones among those
it passed, and before `task_enter` no task field changes but the state of the
chosen task, if that was asleep. -/
theorem kernSchedYield_enters_first (p : Proc) (l : List TaskPtr)
    (hring : Ring p.list p.currentTask l)
    (hel : ∃ e ∈ p.currentTask :: l, Eligible (p.task e)) :
    ∃ e p' pre post,
      (∀ fuel, l.length < fuel → schedLoop fuel p p.currentTask = .ok (e, p') ∧
        kernSchedYield fuel p = .ok (taskEnter p' e)) ∧
      l ++ [p.currentTask] = pre ++ e :: post ∧
      (∀ t ∈ pre, ¬ Eligible (p.task t)) ∧ Eligible (p.task e) ∧
      (p.task e).state ≠ .taskQuit ∧
      Ring p'.list p.currentTask (stay p pre l) ∧
      p' = { p with
        list := p'.list
        task := fun t => if t = e ∧ (p.task e).state = .taskSigWait then
          { p.task t with state := .taskReady } else p.task t } := by
  obtain ⟨e, p', pre, post, hloop, hsplit, hpre, hee, hr, h, hw⟩ := schedLoop_first hring hel
  refine ⟨e, p', pre, post, ?_, hsplit, hpre, hee, hee.not_quit, hr, ?_⟩
  · intro fuel hf
    exact ⟨hloop fuel hf, bind_eq_ok.mpr ⟨(e, p'), hloop fuel hf, rfl⟩⟩
  · rw [hw, wake_eq]

/-- `CurrentTask` asleep, a task that has quit behind it, and behind that one that is ready. -/
def threeTasks : Proc where
  task := fun t =>
    { zeroTask with
      state := if t = 0 then .taskSigWait else if t = 1 then .taskQuit else .taskReady }
  list := fun t =>
    if t = 0 then ⟨some 1, some 2⟩ else if t = 1 then ⟨some 2, some 0⟩ else ⟨some 0, some 1⟩
  ctx := fun _ => .user
  ntasks := 3
  currentTask := 0
  userTask := none
  nextPid := 3#32
  cr3 := 0#32
  descr := fun _ => none

theorem kernSchedYield_enters_first_of_three :
    ∃ e p', (∀ fuel, 2 < fuel → schedLoop fuel threeTasks 0 = .ok (e, p')) ∧
      Eligible (threeTasks.task e) ∧ Ring p'.list 0 [2] := by
  have hring : Ring threeTasks.list 0 [1, 2] :=
    ⟨⟨⟨rfl, rfl⟩, ⟨rfl, rfl⟩, ⟨rfl, rfl⟩⟩, by decide⟩
  obtain ⟨e, p', pre, post, hloop, hsplit, hpre, hel, -, hr, -⟩ :=
    kernSchedYield_enters_first threeTasks [1, 2] hring ⟨2, by decide, by decide⟩
  refine ⟨e, p', fun fuel hf => (hloop fuel hf).1, hel, ?_⟩
  have he : ∀ t ∈ [1, 2] ++ [0], Eligible (threeTasks.task t) → t = 2 := by decide
  have h2 : e = 2 := he e (by rw [show [1, 2] ++ [0] = pre ++ e :: post from hsplit]; simp) hel
  subst h2
  have hpre1 : pre = [1] := by
    cases pre with
    | nil => exact absurd (List.cons.inj hsplit).1 (by decide)
    | cons a pre =>
      obtain ⟨ha, hrest⟩ := List.cons.inj hsplit
      cases pre with
      | nil => rw [← ha]
      | cons b pre =>
        obtain ⟨hb, -⟩ := List.cons.inj hrest
        have hb2 : ¬ Eligible (threeTasks.task b) := hpre b (by simp)
        rw [← hb] at hb2
        exact absurd (by decide) hb2
  rw [hpre1] at hr
  exact hr

theorem unlinkQuit_task {p p' : Proc} {t : TaskPtr} (h : unlinkQuit p t = .ok p') :
    p'.task = p.task := by
  unfold unlinkQuit at h
  split at h
  · obtain ⟨list, -, h⟩ := bind_eq_ok.mp h
    cases h
    rfl
  · cases h
    rfl

theorem schedLoop_eligible {fuel : Nat} :
    ∀ {p : Proc} {cursor : TaskPtr} {r : TaskPtr × Proc},
      schedLoop fuel p cursor = .ok r → Eligible (p.task r.1) := by
  induction fuel with
  | zero =>
    intro p cursor r h
    cases h
  | succ fuel ih =>
    intro p cursor r h
    rw [schedLoop] at h
    obtain ⟨n, -, h⟩ := bind_eq_ok.mp h
    obtain ⟨q, hq, h⟩ := bind_eq_ok.mp h
    rw [← unlinkQuit_task hq]
    split at h
    · cases h
      exact Or.inr (by assumption)
    · split at h
      · exact ih h
      · rename_i hs
        cases h
        exact Or.inl (not_not.mp hs)

end AkKernel
