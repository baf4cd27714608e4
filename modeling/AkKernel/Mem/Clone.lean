import AkKernel.Mem.Direct

/-!
# Cloning an address space

`arch/x86/mem/mmu_clone_dir.c`, with the two functions of `framealloc.c` that only
4 MB pages need, and the same functions without the temporary mappings.
-/

set_option autoImplicit false

namespace AkKernel

open Programs

/-- The loop of `frame_alloc_4m`: it restarts at `i = 1`, because the `i = 0` of its
body is followed by the increment. -/
def frameAlloc4mLoop (b : FrameBitmap) : Nat → Nat → Nat → Except Fault Nat
  | 0, _, _ => .error .diverges
  | fuel + 1, i, f0 =>
    if i < 32 ∧ f0 < b.frameCount / 32 then
      match b.words[f0 + i]? with
      | none => .error .outOfBounds
      | some x =>
        if x ≠ 0#32 then frameAlloc4mLoop b fuel 1 (f0 + 1)
        else frameAlloc4mLoop b fuel (i + 1) f0
    else .ok f0

def frameAlloc4m : PhysM Word := fun c =>
  match frameAlloc4mLoop c.bitmap (33 * (c.bitmap.frameCount + 1)) 0 0 with
  | .error e => .error e
  | .ok f0 => .ok (BitVec.ofNat 32 (f0 * 32 * 4096), c)

def frameSetRange (start limit : Word) : PhysM Unit :=
  forPages frameSet 2048 start (limit + pageSize)

def frameCopy (src dest : Word) : MemM Unit := do
  let vsrc ← pgTmpMap src
  let vdest ← pgTmpMap dest
  copyPage vdest vsrc
  pgTmpUnmap vsrc
  pgTmpUnmap vdest

def pgClonePage4m (page : Word) : MemM Word := do
  let flags := pdeFlags page
  let pgframe := pdeAddr page
  if flags &&& pagePresent = 0#32 then pure page
  else if flags &&& pageLink ≠ 0#32 then pure page
  else
    let newpgframe ← onFst frameAlloc4m
    let limit := newpgframe + BitVec.ofNat 32 (1024 * 4096)
    onFst (frameSetRange newpgframe limit)
    upTo (fun i => do
      let offset := BitVec.ofNat 32 (i * 4096)
      frameCopy (pgframe + offset) (newpgframe + offset)) 1024
    pure (pageEntry newpgframe flags)

def pgClonePage (page : Word) : MemM Word := do
  let flags := pteFlags page
  let pgframe := pteAddr page
  if flags &&& pagePresent = 0#32 then pure page
  else if flags &&& pageLink ≠ 0#32 then pure page
  else
    let newpgframe ← onFst frameAlloc
    onFst (frameSet newpgframe)
    frameCopy pgframe newpgframe
    pure (pageEntry newpgframe flags)

def pgCloneTbl (tblent : Word) : MemM Word := do
  let flags := pteFlags tblent
  let tblframe := pteAddr tblent
  if flags &&& pageLink ≠ 0#32 then pure tblent
  else if flags &&& pagePresent = 0#32 then pure tblent
  else
    let newtblframe ← pgDirNew
    let tbl ← pgTmpMap tblframe
    let newtbl ← pgTmpMap newtblframe
    upTo (fun i => do
      let e ← load tbl i
      if e ≠ nilPgEnt then
        let e' ← pgClonePage e
        store newtbl i e') 1024
    pgTmpUnmap tbl
    pgTmpUnmap newtbl
    pure (pageEntry newtblframe flags)

def pgCloneDir (dirframe : Word) : MemM Word := do
  let newdirframe ← pgDirNew
  let dir ← pgTmpMap dirframe
  let newdir ← pgTmpMap newdirframe
  upTo (fun i => do
    let e ← load dir i
    if e ≠ nilPgEnt then
      if e &&& pageExtended ≠ 0#32 then
        let e' ← pgClonePage4m e
        store newdir i e'
      else
        let e' ← pgCloneTbl e
        store newdir i e') 1024
  pgTmpUnmap dir
  pgTmpUnmap newdir
  pure newdirframe

namespace Direct

def pgClonePage4m (page : Word) : PhysM Word := do
  let flags := pdeFlags page
  let pgframe := pdeAddr page
  if flags &&& pagePresent = 0#32 then pure page
  else if flags &&& pageLink ≠ 0#32 then pure page
  else
    let newpgframe ← frameAlloc4m
    let limit := newpgframe + BitVec.ofNat 32 (1024 * 4096)
    frameSetRange newpgframe limit
    upTo (fun i => do
      let offset := BitVec.ofNat 32 (i * 4096)
      copyFrame (frameNo (newpgframe + offset)) (frameNo (pgframe + offset))) 1024
    pure (pageEntry newpgframe flags)

def pgClonePage (page : Word) : PhysM Word := do
  if pteFlags page &&& pagePresent = 0#32 then pure page
  else if pteFlags page &&& pageLink ≠ 0#32 then pure page
  else
    let newpgframe ← frameTake
    copyFrame (frameNo newpgframe) (frameNo (pteAddr page))
    pure (pageEntry newpgframe (pteFlags page))

/-- One round of the loop over a table. -/
def cloneSlot (tbl newtbl i : Nat) : PhysM Unit := do
  let e ← readWord tbl i
  if e ≠ nilPgEnt then
    let e' ← pgClonePage e
    writeWord newtbl i e'

def pgCloneTbl (tblent : Word) : PhysM Word := do
  if pteFlags tblent &&& pageLink ≠ 0#32 then pure tblent
  else if pteFlags tblent &&& pagePresent = 0#32 then pure tblent
  else
    let newtblframe ← pgDirNew
    upTo (cloneSlot (frameNo (pteAddr tblent)) (frameNo newtblframe)) 1024
    pure (pageEntry newtblframe (pteFlags tblent))

/-- One round of the loop over the directory. -/
def cloneDirSlot (dir newdir i : Nat) : PhysM Unit := do
  let e ← readWord dir i
  if e ≠ nilPgEnt then
    if e &&& pageExtended ≠ 0#32 then
      let e' ← pgClonePage4m e
      writeWord newdir i e'
    else
      let e' ← pgCloneTbl e
      writeWord newdir i e'

def pgCloneDir (dirframe : Word) : PhysM Word := do
  let newdirframe ← pgDirNew
  upTo (cloneDirSlot (frameNo dirframe) (frameNo newdirframe)) 1024
  pure newdirframe

end Direct

section Lifting
variable {ms : List (Word × Nat)} {k : Nat}

theorem lifts_mapped_pair {α : Type} (addr addr' : Word) {m : Word → Word → MemM α} {a : PhysM α}
    (h : ∀ p p', Lifts (Ready ((p', frameNo addr') :: (p, frameNo addr) :: ms) k) (m p p') a) :
    Lifts (Ready ms (k + 2)) (do
      let p ← pgTmpMap addr
      let p' ← pgTmpMap addr'
      let x ← m p p'
      pgTmpUnmap p
      pgTmpUnmap p'
      pure x) a := by
  have hb := Lifts.bracket (m := fun p : Word × Word => m p.1 p.2)
    (brackets_pgTmpMap_pair addr addr') fun p => h p.1 p.2
  simpa only [bind_assoc, pure_bind] using hb

theorem frameCopy_lifts (src dest : Word) :
    Lifts (Ready ms (k + 2)) (frameCopy src dest) (copyFrame (frameNo dest) (frameNo src)) := by
  have hcopy : ∀ p p', Lifts (Ready ((p', frameNo dest) :: (p, frameNo src) :: ms) k)
      (copyPage p' p) (copyFrame (frameNo dest) (frameNo src)) := fun p p' =>
    lifts_copyPage List.mem_cons_self (List.mem_cons_of_mem _ List.mem_cons_self)
  exact lifts_mapped_pair src dest hcopy

theorem pgClonePage4m_lifts (page : Word) :
    Lifts (Ready ms (k + 2)) (pgClonePage4m page) (Direct.pgClonePage4m page) := by
  unfold pgClonePage4m Direct.pgClonePage4m
  dsimp only
  split
  · exact lifts_pure page
  split
  · exact lifts_pure page
  apply (lifts_onFst frameAlloc4m).bind
  intro f
  apply (lifts_onFst (frameSetRange f _)).bind
  intro _
  refine (Lifts.upTo (fun i => ?_) 1024).bind fun _ => lifts_pure _
  exact frameCopy_lifts _ _

theorem pgClonePage_lifts (page : Word) :
    Lifts (Ready ms (k + 2)) (pgClonePage page) (Direct.pgClonePage page) := by
  unfold pgClonePage Direct.pgClonePage
  dsimp only
  split
  · exact lifts_pure page
  split
  · exact lifts_pure page
  have h := (lifts_frameTake : Lifts (Ready ms (k + 2)) _ _).bind fun f =>
    (frameCopy_lifts (pteAddr page) f).bind fun _ => lifts_pure (pageEntry f (pteFlags page))
  simpa only [bind_assoc, pure_bind] using h

theorem pgCloneTbl_lifts (tblent : Word) :
    Lifts (Ready ms (k + 4)) (pgCloneTbl tblent) (Direct.pgCloneTbl tblent) := by
  unfold pgCloneTbl Direct.pgCloneTbl
  dsimp only
  split
  · exact lifts_pure tblent
  split
  · exact lifts_pure tblent
  apply pgDirNew_lifts.bind
  intro f
  have hslot (p p' : Word) : Lifts
      (Ready ((p', frameNo f) :: (p, frameNo (pteAddr tblent)) :: ms) (k + 2))
      (upTo (fun i => do
        let e ← load p i
        if e ≠ nilPgEnt then
          let e' ← pgClonePage e
          store p' i e') 1024)
      (upTo (Direct.cloneSlot (frameNo (pteAddr tblent)) (frameNo f)) 1024) := by
    refine Lifts.upTo (fun i => ?_) 1024
    apply (lifts_load (List.mem_cons_of_mem _ List.mem_cons_self) i).bind
    intro e
    refine Lifts.ite ?_ (lifts_pure ())
    exact (pgClonePage_lifts e).bind fun e' => lifts_store List.mem_cons_self i e'
  have h := (lifts_mapped_pair _ _ hslot).bind fun _ => lifts_pure (pageEntry f (pteFlags tblent))
  simpa only [bind_assoc, pure_bind] using h

theorem pgCloneDir_lifts (dirframe : Word) :
    Lifts (Ready ms (k + 6)) (pgCloneDir dirframe) (Direct.pgCloneDir dirframe) := by
  apply pgDirNew_lifts.bind
  intro f
  have hslot (p p' : Word) : Lifts
      (Ready ((p', frameNo f) :: (p, frameNo dirframe) :: ms) (k + 4))
      (upTo (fun i => do
        let e ← load p i
        if e ≠ nilPgEnt then
          if e &&& pageExtended ≠ 0#32 then
            let e' ← pgClonePage4m e
            store p' i e'
          else
            let e' ← pgCloneTbl e
            store p' i e') 1024)
      (upTo (Direct.cloneDirSlot (frameNo dirframe) (frameNo f)) 1024) := by
    refine Lifts.upTo (fun i => ?_) 1024
    apply (lifts_load (List.mem_cons_of_mem _ List.mem_cons_self) i).bind
    intro e
    refine Lifts.ite (Lifts.ite ?_ ?_) (lifts_pure ())
    · exact (pgClonePage4m_lifts e).bind fun e' => lifts_store List.mem_cons_self i e'
    · exact (pgCloneTbl_lifts e).bind fun e' => lifts_store List.mem_cons_self i e'
  have h := (lifts_mapped_pair _ _ hslot).bind fun _ => lifts_pure f
  simpa only [bind_assoc, pure_bind] using h

end Lifting

end AkKernel
