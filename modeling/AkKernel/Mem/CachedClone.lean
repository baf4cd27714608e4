import AkKernel.Mem.CachedOps

/-!
# Cloning behind a translation buffer

`pg_clone_dir` writes to frames that were free, which no walk reads.
-/

set_option autoImplicit false

namespace AkKernel

open Programs Tlb

section Fresh
variable {c₀ c : Phys} {d n : Nat}

theorem Fresh.used (h : Fresh c d) : d ∉ c.free := fun hd => (h d hd).dir rfl

/-- Frames that were free are not read later either: the directory is as it was. -/
theorem Fresh.unread (h : Fresh c₀ d) (hg : Grows c₀ c) (hn : n ∈ c₀.free) : Unread c d n := by
  refine ⟨(h n hn).dir, ?_⟩
  intro i hi
  rw [hg.kept d h.used]
  exact (h n hn).table i hi

theorem Fresh.grows (h : Fresh c₀ d) (hg : Grows c₀ c) : Fresh c d :=
  fun _ hn => h.unread hg (hg.free hn)

theorem private_iff_pdeFlags {e : Word} : Private e ↔
    ¬ pdeFlags e &&& pagePresent = 0#32 ∧ ¬ pdeFlags e &&& pageLink ≠ 0#32 := by
  have h1 : pdeFlags e &&& pagePresent = e &&& pagePresent := by
    rw [pdeFlags, BitVec.and_assoc]
    rfl
  have h2 : pdeFlags e &&& pageLink = e &&& pageLink := by
    rw [pdeFlags, BitVec.and_assoc]
    rfl
  rw [h1, h2]
  exact Iff.rfl

theorem pgClonePage_grows {c' : Phys} {e e' : Word} (hinit : c.frameAllocInitialized = true)
    (h : Direct.pgClonePage e c = .ok (e', c')) : Grows c c' := by
  rcases pgClonePage_ok hinit h with ⟨-, -, hc⟩ | ⟨-, n, hn, -, hc⟩
  · rw [hc]
    exact Grows.refl c
  · rw [hc]
    exact ((Grows.refl c).mark hn).setFrame hn _

theorem pgCloneTbl_grows {c' : Phys} {e e' : Word} (hinit : c.frameAllocInitialized = true)
    (hu : Private e → TblUsed c (frameNo e)) (h : Direct.pgCloneTbl e c = .ok (e', c')) :
    Grows c c' := by
  rcases pgCloneTbl_ok hinit hu h with ⟨-, -, hc⟩ | ⟨-, n, -, -, hinv⟩
  · rw [hc]
    exact Grows.refl c
  · exact hinv.grows

end Fresh

namespace Cached

variable {d k n : Nat} {ms : List (Word × Nat)} {c : Phys} {e : Word}

theorem tracks_upTo {m : Nat → CachedM Unit} {a : Nat → PhysM Unit} {I : Nat → Phys → Prop}
    (h0 : I 0 c) (hI : ∀ i t u, i < n → I i t → a i t = .ok ((), u) → I (i + 1) u)
    (h : ∀ i t, i < n → I i t → Tracks d ms k ∅ ∅ t (m i) (a i)) :
    Tracks d ms k ∅ ∅ c (upTo m n) (upTo a n) := by
  induction n with
  | zero => exact tracks_pure ()
  | succ n ih =>
    have hn := ih (fun i t u hi => hI i t u (by omega)) fun i t hi => h i t (by omega)
    apply hn.bind
    intro _ t ht
    apply h n t (by omega)
    exact upTo_keeps h0 (fun i t u hi => hI i t u (by omega)) ht

theorem tracks_mapped_pair_pure {addr addr' : Word} {m : Word → Word → CachedM Unit}
    {a : PhysM Unit} {α : Type} (x : α)
    (h : ∀ p p', Tracks d ((p', frameNo addr') :: (p, frameNo addr) :: ms) k ∅ ∅ c (m p p') a) :
    Tracks d ms (k + 2) ∅ ∅ c (do
      let p ← pgTmpMap d addr
      let p' ← pgTmpMap d addr'
      m p p'
      pgTmpUnmap d p
      pgTmpUnmap d p'
      pure x) (do a; pure x) := by
  have hx := (tracks_mapped_pair h).bind fun _ _ _ => tracks_pure x
  simpa only [bind_assoc, pure_bind] using hx

theorem tracks_frameCopy {src dest : Word} (h : Unread c d (frameNo dest)) :
    Tracks d ms (k + 2) ∅ ∅ c (frameCopy d src dest)
      (copyFrame (frameNo dest) (frameNo src)) := by
  have heq : frameCopy d src dest = (do
      let p ← pgTmpMap d src
      let p' ← pgTmpMap d dest
      let x ← copyPage d p' p
      pgTmpUnmap d p
      pgTmpUnmap d p'
      pure x) := by
    simp only [frameCopy, bind_pure_unit]
  rw [heq]
  refine tracks_mapped_pair fun p p' => ?_
  exact tracks_copyPage List.mem_cons_self (List.mem_cons_of_mem _ List.mem_cons_self)
    fun u => h.translate _

theorem tracks_pgClonePage (hinit : c.frameAllocInitialized = true) (hfresh : Fresh c d) :
    Tracks d ms (k + 2) ∅ ∅ c (pgClonePage d e) (Direct.pgClonePage e) := by
  have heq : pgClonePage d e = (
      if pteFlags e &&& pagePresent = 0#32 then pure e
      else if pteFlags e &&& pageLink ≠ 0#32 then pure e
      else do
        let f ← (do let f ← phys d frameAlloc; phys d (frameSet f); pure f)
        frameCopy d (pteAddr e) f
        pure (pageEntry f (pteFlags e))) := by
    simp only [pgClonePage, bind_assoc, pure_bind]
  rw [heq]
  unfold Direct.pgClonePage
  refine Tracks.ite (fun _ => tracks_pure e) fun _ => ?_
  refine Tracks.ite (fun _ => tracks_pure e) fun _ => ?_
  apply (tracks_frameTake hinit).bind
  intro f c₁ hf
  exact (tracks_frameCopy (hfresh.frameTake hinit hf)).bind fun _ _ _ => tracks_pure _

theorem tracks_pgClonePage4m (h : ¬ Private e) :
    Tracks d ms k ∅ ∅ c (pgClonePage4m d e) (Direct.pgClonePage4m e) := by
  have hpure : pgClonePage4m d e = pure e := by
    unfold pgClonePage4m
    dsimp only
    split
    · rfl
    · split
      · rfl
      · exact absurd (private_iff_pdeFlags.mpr ⟨by assumption, by assumption⟩) h
  have hdirect : Direct.pgClonePage4m e = pure e := by
    unfold Direct.pgClonePage4m
    dsimp only
    split
    · rfl
    · split
      · rfl
      · exact absurd (private_iff_pdeFlags.mpr ⟨by assumption, by assumption⟩) h
  rw [hpure, hdirect]
  exact tracks_pure e

theorem tracks_pgCloneTbl (hinit : c.frameAllocInitialized = true) (hfresh : Fresh c d)
    (hu : Private e → TblUsed c (frameNo e)) :
    Tracks d ms (k + 4) ∅ ∅ c (pgCloneTbl d e) (Direct.pgCloneTbl e) := by
  unfold pgCloneTbl Direct.pgCloneTbl
  refine Tracks.ite (fun _ => tracks_pure e) fun h1 => ?_
  refine Tracks.ite (fun _ => tracks_pure e) fun h2 => ?_
  have hp : Private e := private_iff_flags'.mpr ⟨h1, h2⟩
  apply (tracks_pgDirNew hinit hfresh).bind
  intro f c₁ hf
  obtain ⟨n, hn, hfn, hc₁⟩ := pgDirNew_ok hinit hf
  have hframe : frameNo f = n := by rw [hfn, frameNo_frameAddr (FrameBitmap.free_lt hn)]
  have hslots (p p' : Word) : Tracks d
      ((p', frameNo f) :: (p, frameNo (pteAddr e)) :: ms) (k + 2) ∅ ∅ c₁
      (upTo (fun i => do
        let x ← load d p i
        if x ≠ nilPgEnt then
          let x' ← pgClonePage d x
          store d p' i x') 1024)
      (upTo (Direct.cloneSlot (frameNo (pteAddr e)) (frameNo f)) 1024) := by
    rw [frameNo_pteAddr, hframe]
    apply tracks_upTo (I := TblInv c (frameNo e) n)
    · rw [hc₁]
      exact TblInv.start hn _
    · intro i t u hi hinv hrun
      exact hinv.round (hu hp) hi hinit hrun
    · intro i t hi hinv
      apply (tracks_load (List.mem_cons_of_mem _ List.mem_cons_self) i).bind
      intro x t' hx
      cases hx
      refine Tracks.ite (fun _ => ?_) fun _ => tracks_pure ()
      apply (tracks_pgClonePage (hinv.grows.init.trans hinit) (hfresh.grows hinv.grows)).bind
      intro x' t' hx'
      have hg : Grows c t' := hinv.grows.trans (pgClonePage_grows (hinv.grows.init.trans hinit) hx')
      exact tracks_store List.mem_cons_self i x' fun u _ => (hfresh.unread hg hn).translate _
  exact tracks_mapped_pair_pure (pageEntry f (pteFlags e)) hslots

theorem tracks_pgCloneDir {dirframe : Word} (hinit : c.frameAllocInitialized = true)
    (hfresh : Fresh c d) (hu : DirUsed c (frameNo dirframe)) :
    Tracks d ms (k + 6) ∅ ∅ c (pgCloneDir d dirframe) (Direct.pgCloneDir dirframe) := by
  apply (tracks_pgDirNew hinit hfresh).bind
  intro f c₁ hf
  obtain ⟨n, hn, hfn, hc₁⟩ := pgDirNew_ok hinit hf
  have hframe : frameNo f = n := by rw [hfn, frameNo_frameAddr (FrameBitmap.free_lt hn)]
  have hslots (p p' : Word) : Tracks d
      ((p', frameNo f) :: (p, frameNo dirframe) :: ms) (k + 4) ∅ ∅ c₁
      (upTo (fun i => do
        let x ← load d p i
        if x ≠ nilPgEnt then
          if x &&& pageExtended ≠ 0#32 then
            let x' ← pgClonePage4m d x
            store d p' i x'
          else
            let x' ← pgCloneTbl d x
            store d p' i x') 1024)
      (upTo (Direct.cloneDirSlot (frameNo dirframe) (frameNo f)) 1024) := by
    rw [hframe]
    apply tracks_upTo (I := DirInv c (frameNo dirframe) n)
    · rw [hc₁]
      exact DirInv.start hn _
    · intro i t u hi hinv hrun
      exact hinv.round hu hi hinit hrun
    · intro i t hi hinv
      apply (tracks_load (List.mem_cons_of_mem _ List.mem_cons_self) i).bind
      intro x t' hx
      have hslot : x = c.mem (frameNo dirframe) i ∧ t' = t := by
        cases hx
        rw [hinv.grows.kept _ hu.dir]
        exact ⟨rfl, rfl⟩
      obtain ⟨rfl, rfl⟩ := hslot
      have hstore : ∀ x' u, Grows c u → Tracks d
          ((p', n) :: (p, frameNo dirframe) :: ms) (k + 4) ∅ ∅ u (store d p' i x')
          (writeWord n i x') := fun x' u hg =>
        tracks_store List.mem_cons_self i x' fun v _ => (hfresh.unread hg hn).translate _
      refine Tracks.ite (fun _ => Tracks.ite (fun hx => ?_) fun hx => ?_) fun _ => tracks_pure ()
      · have hp := hu.not_private hi hx
        apply (tracks_pgClonePage4m hp).bind
        intro x' u hx'
        rw [pgClonePage4m_shared hp] at hx'
        cases hx'
        exact hstore _ _ hinv.grows
      · have hinit' := hinv.grows.init.trans hinit
        have hused : Private (c.mem (frameNo dirframe) i) →
            TblUsed t' (frameNo (c.mem (frameNo dirframe) i)) := fun hp => hinv.used hu hi ⟨hp, hx⟩
        apply (tracks_pgCloneTbl hinit' (hfresh.grows hinv.grows) hused).bind
        intro x' u hx'
        exact hstore x' u (hinv.grows.trans (pgCloneTbl_grows hinit' hused hx'))
  exact tracks_mapped_pair_pure f hslots

end Cached

end AkKernel
