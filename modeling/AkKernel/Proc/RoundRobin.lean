import AkKernel.Proc.Sched

/-!
# Rounds of the scheduler

One call of `kern_sched_yield` after the other, with nothing in between that changes which
tasks can run. The ring is read from the task that runs: the part up to the task the round
began with is still to be walked, the part behind it is what the round has left of the ring.
-/

set_option autoImplicit false

namespace AkKernel

open LinkedRing Runs

def isReady (p : Proc) (t : TaskPtr) : Bool := (p.task t).state = .taskReady

/-- `m` calls of `kern_sched_yield`, with the tasks they enter. -/
def yields (fuel : Nat) : Nat → Proc → Except Fault (List TaskPtr × Proc)
  | 0, p => .ok ([], p)
  | m + 1, p => do
    let p ← kernSchedYield fuel p
    let (entered, q) ← yields fuel m p
    .ok (p.currentTask :: entered, q)

/-- Of the tasks in the list only those that are ready can run. -/
def OnlyReady (p : Proc) (l : List TaskPtr) : Prop :=
  ∀ t ∈ l, Eligible (p.task t) → isReady p t = true

/-- Entering a ready task leaves every task as able to run as it was. -/
structure SameStates (p p' : Proc) : Prop where
  state : ∀ t, (p'.task t).state = (p.task t).state
  asleep : ∀ t, isReady p t = false → p'.task t = p.task t

namespace SameStates
variable {p p' : Proc} {l : List TaskPtr}

theorem isReady_eq (h : SameStates p p') : isReady p' = isReady p := by
  funext t
  unfold isReady
  rw [h.state t]

theorem onlyReady (h : SameStates p p') (ho : OnlyReady p l) : OnlyReady p' l := by
  intro t ht he
  rw [h.isReady_eq]
  cases hr : isReady p t with
  | true => rfl
  | false =>
    rw [h.asleep t hr] at he
    exact hr.symm.trans (ho t ht he)

theorem survivors_eq (h : SameStates p p') (l : List TaskPtr) : survivors p' l = survivors p l := by
  unfold survivors
  congr 1
  funext t
  rw [h.state t]

end SameStates

theorem isReady_eligible {p : Proc} {t : TaskPtr} (h : isReady p t = true) : Eligible (p.task t) :=
  Or.inl (of_decide_eq_true h)

/-- `task_enter` of a ready task changes its pending signal at most. -/
theorem sameStates_taskEnter {p p' : Proc} {e : TaskPtr} {h : Links TaskPtr}
    (hr : isReady p e = true) (hp : p' = wake { p with list := h } e) :
    SameStates p (taskEnter p' e) ∧ (taskEnter p' e).list = h ∧
      (taskEnter p' e).currentTask = e := by
  have hstate : (p.task e).state = .taskReady := of_decide_eq_true hr
  have hw : p' = { p with list := h } := by
    rw [hp]
    unfold wake
    rw [if_neg (by rw [hstate]; decide)]
  subst hw
  have hne : ∀ t, isReady p t = false → t ≠ e := by
    rintro t ht rfl
    rw [hr] at ht
    cases ht
  unfold taskEnter
  dsimp only
  split
  · exact ⟨⟨fun _ => rfl, fun _ _ => rfl⟩, rfl, rfl⟩
  · unfold taskSignalExec
    dsimp only
    split
    · refine ⟨⟨?_, ?_⟩, rfl, rfl⟩
      · intro t
        by_cases ht : t = e
        · subst ht
          change (Function.update p.task t _ t).state = _
          rw [Function.update_self]
          split <;> rfl
        · change (Function.update p.task e _ t).state = _
          rw [Function.update_of_ne ht]
      · intro t ht
        exact Function.update_of_ne (hne t ht) _ _
    · exact ⟨⟨fun _ => rfl, fun _ _ => rfl⟩, rfl, rfl⟩

section Yield
variable {p : Proc} {l : List TaskPtr}

/-- The ring from the task `e` that a yield went to has no member that was not in it before. -/
theorem OnlyReady.turn {pre post : List TaskPtr} {e : TaskPtr} (ho : OnlyReady p (pre ++ e :: post))
    (hcur : isReady p p.currentTask = true) :
    OnlyReady p (post ++ p.currentTask :: survivors p pre) := by
  intro t ht he
  by_cases htc : t = p.currentTask
  · rw [htc]
    exact hcur
  · apply ho t _ he
    simp only [List.mem_append, List.mem_cons, survivors, List.mem_filter] at ht ⊢
    rcases ht with ht | ht | ht
    · exact Or.inr (Or.inr ht)
    · exact absurd ht htc
    · exact Or.inl ht.1

theorem turn_length_le (p : Proc) (pre post : List TaskPtr) (e : TaskPtr) :
    (post ++ p.currentTask :: survivors p pre).length ≤ (pre ++ e :: post).length := by
  have hle : (survivors p pre).length ≤ pre.length := List.length_filter_le _ _
  simp only [List.length_append, List.length_cons]
  omega

theorem kernSchedYield_of_loop {e : TaskPtr} {p' : Proc} {n : Nat}
    (h : ∀ fuel, n < fuel → schedLoop fuel p p.currentTask = .ok (e, p')) :
    ∀ fuel, n < fuel → kernSchedYield fuel p = .ok (taskEnter p' e) := by
  intro fuel hf
  exact bind_eq_ok.mpr ⟨(e, p'), h fuel hf, rfl⟩

/-- One yield goes to the next ready task of the ring, or back to `CurrentTask` when no other
task is ready; the tasks that have quit are gone from the part it walked. -/
theorem kernSchedYield_ready (hring : Ring p.list p.currentTask l)
    (hcur : isReady p p.currentTask = true) (ho : OnlyReady p l) :
    ∃ p', (∀ fuel, l.length < fuel → kernSchedYield fuel p = .ok p') ∧ SameStates p p' ∧
      ((∃ pre e post, l = pre ++ e :: post ∧ pre.filter (isReady p) = [] ∧ isReady p e = true ∧
          p'.currentTask = e ∧ Ring p'.list e (post ++ p.currentTask :: survivors p pre)) ∨
        (l.filter (isReady p) = [] ∧ p'.currentTask = p.currentTask ∧
          Ring p'.list p.currentTask (survivors p l))) := by
  obtain ⟨e, p', hloop, hpick⟩ := schedLoop_ends hring
    ⟨p.currentTask, List.mem_cons_self, isReady_eligible hcur⟩
  have hnone : ∀ m : List TaskPtr, (∀ t ∈ m, ¬ Eligible (p.task t)) →
      m.filter (isReady p) = [] := by
    intro m hm
    apply List.filter_eq_nil_iff.mpr
    intro t ht hr
    exact hm t ht (isReady_eligible hr)
  obtain ⟨h, hp'⟩ := hpick.others
  have hlist : p'.list = h := by
    rw [hp', wake_list]
  refine ⟨taskEnter p' e, kernSchedYield_of_loop hloop, ?_⟩
  rcases hpick.ring with ⟨pre, post, hl, hpre, hr⟩ | ⟨he, hall, hr⟩
  · have hready : isReady p e = true := ho e (by rw [hl]; simp) hpick.eligible
    obtain ⟨hsame, hlist', hcur'⟩ := sameStates_taskEnter hready hp'
    refine ⟨hsame, Or.inl ⟨pre, e, post, hl, hnone pre hpre, hready, hcur', ?_⟩⟩
    rw [hlist', ← hlist]
    exact hr.rotate
  · have hready : isReady p e = true := by
      rw [he]
      exact hcur
    obtain ⟨hsame, hlist', hcur'⟩ := sameStates_taskEnter hready hp'
    refine ⟨hsame, Or.inr ⟨hnone l hall, hcur'.trans he, ?_⟩⟩
    rw [hlist', ← hlist]
    exact hr

end Yield

section Round

/-- The ready tasks of the ring behind `CurrentTask`, in ring order, and `CurrentTask`. -/
def readyRound (p : Proc) (l : List TaskPtr) : List TaskPtr :=
  l.filter (isReady p) ++ [p.currentTask]

theorem yields_succ {fuel m : Nat} {p p₁ q : Proc} {entered : List TaskPtr}
    (h : kernSchedYield fuel p = .ok p₁) (hm : yields fuel m p₁ = .ok (entered, q)) :
    yields fuel (m + 1) p = .ok (p₁.currentTask :: entered, q) := by
  unfold yields
  exact bind_eq_ok.mpr ⟨p₁, h, bind_eq_ok.mpr ⟨_, hm, rfl⟩⟩

theorem firstReady_unique {f : TaskPtr → Bool} {a c : List TaskPtr} {b d : List TaskPtr}
    {x y : TaskPtr} (h : a ++ x :: b = c ++ y :: d) (ha : a.filter f = []) (hx : f x = true)
    (hc : c.filter f = []) (hy : f y = true) : a = c ∧ x = y ∧ b = d := by
  induction a generalizing c with
  | nil =>
    cases c with
    | nil =>
      obtain ⟨hxy, hbd⟩ := List.cons.inj h
      exact ⟨rfl, hxy, hbd⟩
    | cons z c =>
      obtain ⟨rfl, -⟩ := List.cons.inj h
      rw [List.filter_cons_of_pos hx] at hc
      cases hc
  | cons w a ih =>
    cases c with
    | nil =>
      obtain ⟨rfl, -⟩ := List.cons.inj h
      rw [List.filter_cons_of_pos hy] at ha
      cases ha
    | cons z c =>
      obtain ⟨rfl, htail⟩ := List.cons.inj h
      have hw : ¬ f w = true := by
        intro hw
        rw [List.filter_cons_of_pos hw] at ha
        cases ha
      rw [List.filter_cons_of_neg hw] at ha hc
      obtain ⟨rfl, hxy, hbd⟩ := ih htail ha hc
      exact ⟨rfl, hxy, hbd⟩

theorem survivors_append (p : Proc) (pre post : List TaskPtr) {e : TaskPtr}
    (he : isReady p e = true) :
    survivors p (pre ++ e :: post) = survivors p pre ++ e :: survivors p post := by
  have hstate : (p.task e).state = .taskReady := of_decide_eq_true he
  simp [survivors, hstate]

/-- The rest of a round: `s` is the task it began with, and `rest` is not walked yet. -/
theorem yields_rest {s : TaskPtr} {n : Nat} :
    ∀ (k : Nat) (p : Proc) (rest done : List TaskPtr), (rest.filter (isReady p)).length = k →
      Ring p.list p.currentTask (rest ++ s :: done) → (rest ++ s :: done).length ≤ n →
      isReady p p.currentTask = true → isReady p s = true → OnlyReady p (rest ++ s :: done) →
      ∃ q, (∀ fuel, n < fuel → yields fuel (k + 1) p = .ok (rest.filter (isReady p) ++ [s], q)) ∧
        q.currentTask = s ∧
        Ring q.list s (done ++ p.currentTask :: survivors p rest) := by
  -- by the number of ready tasks in front of `s`: one yield goes to the first of them
  intro k
  induction k with
  | zero =>
    intro p rest done hk hring hn hcur hs ho
    have hrest : rest.filter (isReady p) = [] := List.length_eq_zero_iff.mp hk
    obtain ⟨p₁, hyield, -, hpre | hnone⟩ := kernSchedYield_ready hring hcur ho
    · obtain ⟨pre, e, post, hl, hpre, he, hcur₁, hring₁⟩ := hpre
      obtain ⟨rfl, rfl, rfl⟩ := firstReady_unique hl hrest hs hpre he
      refine ⟨p₁, ?_, hcur₁, hring₁⟩
      intro fuel hf
      rw [hrest, ← hcur₁]
      exact yields_succ (hyield fuel (by omega)) rfl
    · have hmem : s ∈ (rest ++ s :: done).filter (isReady p) :=
        List.mem_filter.mpr ⟨by simp, hs⟩
      rw [hnone.1] at hmem
      cases hmem
  | succ k ih =>
    intro p rest done hk hring hn hcur hs ho
    obtain ⟨e, es, hfilter⟩ := List.exists_cons_of_length_eq_add_one hk
    obtain ⟨pre, post, hrest, hpre, he, hes⟩ := List.filter_eq_cons_iff.mp hfilter
    have hpre0 : pre.filter (isReady p) = [] := List.filter_eq_nil_iff.mpr hpre
    subst hrest
    obtain ⟨p₁, hyield, hsame, hnext | hnone⟩ := kernSchedYield_ready hring hcur ho
    · obtain ⟨pre', e', post', hl, hpre', he', hcur₁, hring₁⟩ := hnext
      rw [List.append_assoc, List.cons_append] at hl
      obtain ⟨rfl, rfl, rfl⟩ := firstReady_unique hl hpre0 he hpre' he'
      rw [List.append_assoc, List.cons_append] at hring₁ hn ho hyield
      have ho₁ := hsame.onlyReady (ho.turn hcur)
      have hlen := Nat.le_trans (turn_length_le p pre (post ++ s :: done) e) hn
      rw [List.append_assoc, List.cons_append] at ho₁ hlen
      rw [← hcur₁] at hring₁
      obtain ⟨q, hq, hqcur, hqring⟩ := ih p₁ post (done ++ p.currentTask :: survivors p pre)
        (by
          rw [hsame.isReady_eq, hes]
          rw [hfilter] at hk
          exact Nat.succ.inj hk)
        hring₁ hlen (by rw [hsame.isReady_eq, hcur₁]; exact he)
        (by rw [hsame.isReady_eq]; exact hs) ho₁
      refine ⟨q, ?_, hqcur, ?_⟩
      · intro fuel hf
        rw [hfilter, ← hcur₁, List.cons_append]
        apply yields_succ (hyield fuel (by omega))
        rw [hq fuel hf, hsame.isReady_eq, hes]
      · rw [survivors_append p pre post he]
        rw [hsame.survivors_eq, hcur₁, List.append_assoc, List.cons_append] at hqring
        exact hqring
    · have hmem : e ∈ (pre ++ e :: post ++ s :: done).filter (isReady p) :=
        List.mem_filter.mpr ⟨by simp, he⟩
      rw [hnone.1] at hmem
      cases hmem

/-- From a ring in which `CurrentTask` is ready and no task that waits for a signal has it
pending, as many yields as there are ready tasks enter each of them once, in ring order, and
end where they began. Every task that has quit is gone from the ring then. -/
theorem kernSchedYield_round_robin (p : Proc) (l : List TaskPtr)
    (hring : Ring p.list p.currentTask l) (hcur : (p.task p.currentTask).state = .taskReady)
    (hothers : ∀ t ∈ l, ¬ Wakes (p.task t)) :
    ∃ q, (∀ fuel, l.length < fuel →
        yields fuel (readyRound p l).length p = .ok (readyRound p l, q)) ∧
      (readyRound p l).Nodup ∧ q.currentTask = p.currentTask ∧
      Ring q.list p.currentTask (survivors p l) := by
  have hready : isReady p p.currentTask = true := decide_eq_true hcur
  have ho : OnlyReady p l := by
    intro t ht he
    rcases he with he | he
    · exact decide_eq_true he
    · exact absurd he (hothers t ht)
  have hnodup : (readyRound p l).Nodup := by
    obtain ⟨hnot, hl⟩ := List.nodup_cons.mp hring.nodup
    unfold readyRound
    rw [List.nodup_append_comm]
    refine List.nodup_cons.mpr ⟨?_, hl.filter _⟩
    intro hmem
    exact hnot (List.mem_filter.mp hmem).1
  obtain ⟨p₁, hyield, hsame, hnext | hnone⟩ := kernSchedYield_ready hring hready ho
  · obtain ⟨pre, e, post, rfl, hpre, he, hcur₁, hring₁⟩ := hnext
    have hround : readyRound p (pre ++ e :: post) =
        e :: (post.filter (isReady p) ++ [p.currentTask]) := by
      unfold readyRound
      rw [List.filter_append, hpre, List.nil_append, List.filter_cons_of_pos he]
      rfl
    rw [← hcur₁] at hring₁
    obtain ⟨q, hq, hqcur, hqring⟩ := yields_rest _ p₁ post (survivors p pre) rfl hring₁
      (turn_length_le p pre post e) (by rw [hsame.isReady_eq, hcur₁]; exact he)
      (by rw [hsame.isReady_eq]; exact hready) (hsame.onlyReady (ho.turn hready))
    refine ⟨q, ?_, hnodup, hqcur, ?_⟩
    · intro fuel hf
      rw [hround, List.length_cons, List.length_append, List.length_singleton, ← hcur₁]
      apply yields_succ (hyield fuel hf)
      have := hq fuel hf
      rw [hsame.isReady_eq] at this
      exact this
    · rw [survivors_append p pre post he]
      rw [hsame.survivors_eq, hcur₁] at hqring
      exact hqring
  · obtain ⟨hnone, hcur₁, hring₁⟩ := hnone
    refine ⟨p₁, ?_, hnodup, hcur₁, hring₁⟩
    intro fuel hf
    have hround : readyRound p l = [p.currentTask] := by
      unfold readyRound
      rw [hnone]
      rfl
    rw [hround, ← hcur₁]
    exact yields_succ (hyield fuel hf) rfl

/-- Behind the ready task 0 the ring has a task that has quit, a ready one, one that waits
for a signal, and another ready one. -/
def fiveTasks : Proc where
  task := fun t =>
    { zeroTask with
      state := if t = 1 then .taskQuit else if t = 3 then .taskSigWait else .taskReady }
  list := fun t =>
    if t = 0 then ⟨some 1, some 4⟩ else if t = 4 then ⟨some 0, some 3⟩
    else ⟨some (t + 1), some (t - 1)⟩
  ctx := fun _ => .user
  ntasks := 5
  currentTask := 0
  userTask := none
  nextPid := 5#32
  cr3 := 0#32
  descr := fun _ => none

theorem kernSchedYield_round_robin_of_five :
    ∃ q, (∀ fuel, 4 < fuel → yields fuel 3 fiveTasks = .ok ([2, 4, 0], q)) ∧
      Ring q.list 0 [2, 3, 4] := by
  have hring : Ring fiveTasks.list 0 [1, 2, 3, 4] :=
    ⟨⟨⟨rfl, rfl⟩, ⟨rfl, rfl⟩, ⟨rfl, rfl⟩, ⟨rfl, rfl⟩, ⟨rfl, rfl⟩⟩, by decide⟩
  obtain ⟨q, hq, -, -, hr⟩ :=
    kernSchedYield_round_robin fiveTasks [1, 2, 3, 4] hring rfl (by decide)
  exact ⟨q, hq, hr⟩

end Round

end AkKernel
