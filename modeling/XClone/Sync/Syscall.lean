import XClone.User.Options
import XClone.Sync.Operations
import XClone.Sync.Contracts

/-! # The system call `xclone2` and the address limit

`file_open` raises the address limit of the task to that of the kernel and leaves it there. All other
helpers put back what they found, so a limit that was raised once stays raised until the return.
-/
namespace XClone
open Effects Prog

/-- The operations of the module over the kernel, under the key of the proc entry. A request without a
file name is a read through a null pointer. -/
def kernelOperations (P : Platform) (fuel : ℕ) (encKey : Ptr) : Operations (OptionT KProg) where
  processunlink param := OptionT.mk (param.fname.elim die (processunlink P fuel))
  processcompress fname := OptionT.lift (fname.elim die (processcompress P))
  processencryption fname := OptionT.lift (fname.elim die (processencryption P · encKey))
  processEncComp fname := OptionT.lift (fname.elim die (processEncComp P · encKey))
  oops := OptionT.lift die

/-- The system call for a named file; `none` when the round budget of the plain move ran out. -/
def syscall (P : Platform) (fuel : ℕ) (encKey : Ptr) (flag : BitVec 64) (fname : Path) (b1 : BitVec 32) :
    KProg (Option ℤ) :=
  (xclone2 (kernelOperations P fuel encKey) flag (some ⟨some fname,b1⟩)).run

section Equations
variable (P : Platform) (fuel : ℕ) (encKey : Ptr) (fname : Path) (b1 : BitVec 32)

theorem syscall_move : syscall P fuel encKey 4081 fname b1 = processunlink P fuel fname := rfl

/-- The results of the other three operations are dropped. -/
theorem run_lift_dropped (p : KProg ℤ) :
    (OptionT.lift p >>= fun _ => (pure 0 : OptionT KProg ℤ)).run = p >>= fun _ => pure (some 0) := by
  simp

theorem syscall_compress : syscall P fuel encKey 4083 fname b1 = processcompress P fname >>= fun _ => pure (some 0) :=
  run_lift_dropped _

theorem syscall_encrypt : syscall P fuel encKey 4085 fname b1 =
    processencryption P fname encKey >>= fun _ => pure (some 0) :=
  run_lift_dropped _

theorem syscall_encComp : syscall P fuel encKey 4087 fname b1 = processEncComp P fname encKey >>= fun _ => pure (some 0) :=
  run_lift_dropped _

theorem syscall_other {flag : BitVec 64} (h : flag ≠ 4081 ∧ flag ≠ 4083 ∧ flag ≠ 4085 ∧ flag ≠ 4087) :
    syscall P fuel encKey flag fname b1 = pure (some 0) := by
  unfold syscall xclone2
  simp only [if_neg h.1, if_neg h.2.1, if_neg h.2.2.1, if_neg h.2.2.2]
  rfl

end Equations

/-! ## What the calls do to the limit -/

/-- The limit is only ever set to that of the kernel, if that is what is found. -/
def KeepsKernel {α : Type} (p : KProg α) : Prop :=
  Meets (fun c => ∀ seg, c = .setFs seg → seg = .kernelDs)
    (fun c (r : Answer c) => ∀ h : c = .getFs, (h ▸ r : Answer .getFs) = .kernelDs) (fun _ => True) p

theorem handle_addrLimit (P : Platform) (c : Call) (t : Task) (fs : Fs) (h : ∀ seg, c ≠ .setFs seg) :
    (Kernel.handle P c (t,fs)).2.1.addrLimit = t.addrLimit := by
  cases c with
  | setFs seg => exact absurd rfl (h seg)
  | kmalloc size =>
    simp only [Kernel.handle, Task.kmalloc]
    split <;> rfl
  | _ =>
    simp only [Kernel.handle]
    repeat' split
    all_goals rfl

section Keeps
variable {α β : Type}

theorem KeepsKernel.run (P : Platform) {p : KProg α} (hp : KeepsKernel p) {s : Kernel} (hs : s.1.addrLimit = .kernelDs) :
    (p.run (Kernel.handle P) s).2.1.addrLimit = .kernelDs := by
  refine hp.run_preserves (I := fun s : Kernel => s.1.addrLimit = .kernelDs) ?_ ?_ hs
  · rintro c ⟨t,fs⟩ r - hlimit hr rfl
    simp only [handle_getFs, Option.some.injEq] at hr
    exact hr.symm.trans hlimit
  · rintro c ⟨t,fs⟩ hset hlimit
    by_cases hc : ∃ seg, c = .setFs seg
    · obtain ⟨seg,rfl⟩ := hc
      exact hset seg rfl
    · exact (handle_addrLimit P c t fs (fun seg h => hc ⟨seg,h⟩)).trans hlimit

theorem KeepsKernel.pure (a : α) : KeepsKernel (Pure.pure a) := trivial

theorem KeepsKernel.bind {p : KProg α} {f : α → KProg β} (hp : KeepsKernel p) (hf : ∀ a, KeepsKernel (f a)) :
    KeepsKernel (p >>= f) := Meets.bind hp (fun a _ => hf a)

theorem KeepsKernel.call {c : Call} (h : ∀ seg, c ≠ .setFs seg) : KeepsKernel (kcall c) :=
  Meets.perform (fun seg hc => absurd hc (h seg)) (fun _ _ => trivial)

end Keeps

theorem KeepsKernel.kfree (p : Ptr) : ∀ seg, Call.kfree p = .setFs seg → seg = .kernelDs := fun _ h => by cases h

/-- All operations are built from calls that keep the limit of the kernel. -/
theorem keepsKernel_contract (key : Ptr) : KeyContract (fun c => ∀ seg, c = .setFs seg → seg = .kernelDs)
    (fun c (r : Answer c) => ∀ h : c = .getFs, (h ▸ r : Answer .getFs) = .kernelDs) key where
  plain := by
    rintro c hplain seg rfl
    exact hplain.elim
  raise := fun _ h => (Call.setFs.inj h).symm
  restore := by
    rintro seg hseg _ ⟨rfl⟩
    exact hseg rfl
  release := fun _ _ _ => KeepsKernel.kfree _
  releaseNull := KeepsKernel.kfree none
  unlink := fun _ _ h => by cases h
  cipher := fun _ _ _ _ h => by cases h
  freeKey := KeepsKernel.kfree key

/-! ## Programs that open a file -/

/-- A run that comes to its end leaves the limit at that of the kernel. -/
def Raises {α : Type} (P : Platform) (p : KProg α) : Prop :=
  ∀ s, (p.run (Kernel.handle P) s).1 ≠ none → (p.run (Kernel.handle P) s).2.1.addrLimit = .kernelDs

section Raising
variable {α β : Type} {P : Platform}

theorem Raises.fileOpen {f : Except ℤ File → KProg α} (hf : ∀ r, KeepsKernel (f r)) (path : Path) (create : Bool) :
    Raises P (fileOpen path create >>= f) := by
  rintro ⟨t,fs⟩ -
  exact KeepsKernel.run P ((KeepsKernel.call (c := .filpOpen path create) (by simp)).bind hf)
    (s := (t.limit .kernelDs,fs)) rfl

theorem Raises.after {p : KProg α} {f : α → KProg β} (hf : ∀ a, Raises P (f a)) : Raises P (p >>= f) := by
  intro s hs
  rw [run_bind] at hs ⊢
  rcases hp : p.run (Kernel.handle P) s with ⟨_ | a,s'⟩
  · rw [hp] at hs
    exact absurd rfl hs
  · rw [hp] at hs
    exact hf a s' hs

theorem Raises.die : Raises P (die : KProg α) := fun s hs => absurd (by rcases s with ⟨t,fs⟩; rfl) hs

end Raising

theorem raises_processencryption (P : Platform) (fname : Path) (key : Ptr) : Raises P (processencryption P fname key) := by
  refine Raises.fileOpen (fun r => ?_) _ _
  cases r with
  | error e => exact KeepsKernel.pure _
  | ok fRead =>
    refine ((keepsKernel_contract none).pathBuffers _).bind (fun b => ?_)
    cases b with
    | false => exact KeepsKernel.pure _
    | true =>
      refine (KeepsKernel.call (by simp)).bind (fun _ => (KeepsKernel.call (by simp)).bind (fun r => ?_))
      cases r with
      | none => exact (keepsKernel_contract none).die
      | some b =>
        refine (KeepsKernel.call (by simp)).bind (fun _ => ((keepsKernel_contract none).fileOpen _ _).bind (fun r => ?_))
        cases r with
        | error e => exact KeepsKernel.pure _
        | ok fWrite => exact (keepsKernel_contract key).encryptAndUnlink _ (KeepsKernel.kfree _) ((keepsKernel_contract key).unlink _) _

/-! ## Programs that allocate first -/

section Allocating
variable {P : Platform} {α : Type} {t : Task} {fs : Fs}

/-- The limit after a program that raises it if its path buffers are allocated. -/
theorem limit_pathBuffers {q : KProg α} (hq : Raises P q) (a : α) {n : ℕ}
    (hret : ((pathBuffers n >>= fun b => if b then q else pure a).run (Kernel.handle P) (t,fs)).1 ≠ none) :
    ((pathBuffers n >>= fun b => if b then q else pure a).run (Kernel.handle P) (t,fs)).2.1.addrLimit =
      if t.faults.Grants n then .kernelDs else t.addrLimit := by
  obtain ⟨b,t',hruns,hb,-,-,hlimit⟩ := pathBuffers_runs P n t fs
  rw [run_bind_some hruns.run] at hret ⊢
  by_cases h : b = true
  · rw [if_pos (hb.mp h), h]
    rw [h] at hret
    exact hq (t',fs) hret
  · rw [if_neg (fun hall => h (hb.mpr hall)), Bool.eq_false_iff.mpr h]
    exact hlimit

theorem raises_moveOpened (fuel : ℕ) (fname : Path) (b₁ b₂ : Buf) : Raises P (fileOpen fname false >>= fun r => match r with
    | .error _ => do
      freeBuffers [b₁,b₂]
      return some (-EPERM)
    | .ok infile => moveOpened P fuel infile b₁ b₂) := by
  refine Raises.fileOpen (fun r => ?_) _ _
  cases r with
  | error e => exact (Contract.freeBuffers (fun _ _ => KeepsKernel.kfree _)).bind (fun _ => KeepsKernel.pure _)
  | ok infile => exact (keepsKernel_contract none).moveOpened _ _ _ (KeepsKernel.kfree _) (KeepsKernel.kfree _)

/-- The plain move allocates two buffers before it opens the file. -/
theorem limit_processunlink (fuel : ℕ) (fname : Path)
    (hret : ((processunlink P fuel fname).run (Kernel.handle P) (t,fs)).1 ≠ none) :
    ((processunlink P fuel fname).run (Kernel.handle P) (t,fs)).2.1.addrLimit =
      if t.faults.Grants 2 then .kernelDs else t.addrLimit := by
  obtain ⟨r₁,t₁,h₁,a₁⟩ := kmalloc_spec P PAGE_SIZE t fs
  obtain ⟨r₂,t₂,h₂,a₂⟩ := kmalloc_spec P PAGE_SIZE t₁ fs
  have hlimit : t₂.addrLimit = t.addrLimit := a₂.addrLimit.trans a₁.addrLimit
  have hzero : t.faults.allocs.headD false = t.faults.allocs.getD 0 false := headD_of_drop List.drop_zero.symm false
  have hone : t₁.faults.allocs.headD false = t.faults.allocs.getD 1 false := by
    rw [a₁.faults]
    exact headD_of_drop List.drop_one.symm false
  have hall : t.faults.Grants 2 ↔ r₁ ≠ none ∧ r₂ ≠ none := by
    unfold Faults.Grants
    rw [Nat.forall_lt_succ_right, Nat.forall_lt_succ_right, ← hzero, ← hone, Ne, a₁.fails, Ne, a₂.fails]
    simp
  have hopen := raises_moveOpened (P := P) fuel fname
  unfold processunlink at hret ⊢
  rw [run_bind_some ((run_perform _ _ _).trans h₁), run_bind_some ((run_perform _ _ _).trans h₂)] at hret ⊢
  rcases r₁ with _ | b₁
  · rw [if_neg (fun h => (hall.mp h).1 rfl)]
    exact hlimit
  · rcases r₂ with _ | b₂
    · rw [if_neg (fun h => (hall.mp h).2 rfl)]
      exact hlimit
    · rw [if_pos (hall.mpr ⟨Option.some_ne_none _,Option.some_ne_none _⟩)]
      exact hopen b₁ b₂ (t₂,fs) hret

/-- The common beginning of the operations with compression allocates three buffers before it opens the file. -/
theorem limit_openNamed {fname : Path} {k : ℕ → Buf → File → KProg ℤ} (hk : ∀ getTime b f, KeepsKernel (k getTime b f))
    (hret : ((openNamed fname k).run (Kernel.handle P) (t,fs)).1 ≠ none) :
    ((openNamed fname k).run (Kernel.handle P) (t,fs)).2.1.addrLimit = if t.faults.Grants 3 then .kernelDs else t.addrLimit := by
  refine limit_pathBuffers (Raises.after (fun getTime => Raises.after (fun r => ?_))) (-ENOMEM) hret
  cases r with
  | none => exact Raises.die
  | some b =>
    refine Raises.fileOpen (fun r => ?_) _ _
    cases r with
    | error e => exact KeepsKernel.pure _
    | ok fRead => exact hk getTime b fRead

theorem limit_processcompress (fname : Path) (hret : ((processcompress P fname).run (Kernel.handle P) (t,fs)).1 ≠ none) :
    ((processcompress P fname).run (Kernel.handle P) (t,fs)).2.1.addrLimit =
      if t.faults.Grants 3 then .kernelDs else t.addrLimit := by
  rw [processcompress_eq] at hret ⊢
  refine limit_openNamed (fun getTime b fRead => ?_) hret
  refine (KeepsKernel.call (by simp)).bind (fun _ => ((keepsKernel_contract none).fileOpen _ _).bind (fun r => ?_))
  cases r with
  | error e => exact KeepsKernel.pure _
  | ok fWrite =>
    exact ((keepsKernel_contract none).compressFileXclone _ _).bind (fun _ => ((keepsKernel_contract none).fileClose _).bind (fun _ =>
      (KeepsKernel.call (by simp)).bind (fun _ => ((keepsKernel_contract none).fileClose _).bind (fun _ =>
        (KeepsKernel.call (by simp)).bind (fun _ => KeepsKernel.pure _)))))

theorem limit_processEncComp (fname : Path) (key : Ptr)
    (hret : ((processEncComp P fname key).run (Kernel.handle P) (t,fs)).1 ≠ none) :
    ((processEncComp P fname key).run (Kernel.handle P) (t,fs)).2.1.addrLimit =
      if t.faults.Grants 3 then .kernelDs else t.addrLimit := by
  rw [processEncComp_eq] at hret ⊢
  refine limit_openNamed (fun getTime b fRead => ?_) hret
  refine ((keepsKernel_contract none).fileOpen _ _).bind (fun r => ?_)
  cases r with
  | error e => exact KeepsKernel.pure _
  | ok fTemp =>
    exact ((keepsKernel_contract none).compressFileXclone _ _).bind (fun _ => ((keepsKernel_contract none).fileClose _).bind (fun _ =>
      (KeepsKernel.call (by simp)).bind (fun _ => ((keepsKernel_contract none).fileClose _).bind (fun _ =>
        (keepsKernel_contract key).encryptTemp (KeepsKernel.kfree _) _ (fun f _ => (keepsKernel_contract key).unlink f)))))

end Allocating

/-! ## The system call -/

/-- Whether a request under this word comes to open a file. -/
def Opens (flag : BitVec 64) (f : Faults) : Prop :=
  (flag = 4081 ∧ f.Grants 2) ∨ (flag = 4083 ∧ f.Grants 3) ∨ flag = 4085 ∨ (flag = 4087 ∧ f.Grants 3)

theorem run_dropped (P : Platform) {α β : Type} (p : KProg α) (b : β) (s : Kernel) :
    (p >>= fun _ => pure b).run (Kernel.handle P) s = ((p.run (Kernel.handle P) s).1.map (fun _ => b),(p.run (Kernel.handle P) s).2) := by
  rw [run_bind]
  rcases p.run (Kernel.handle P) s with ⟨_ | a,s'⟩ <;> rfl

/-- A system call that returns leaves the limit of the kernel if it opened a file, and the limit
it found if it did not. -/
theorem syscall_addrLimit (P : Platform) (fuel : ℕ) (encKey : Ptr) (flag : BitVec 64) (fname : Path) (b1 : BitVec 32)
    (t : Task) (fs : Fs) {r : Option ℤ} {s : Kernel}
    (hret : (syscall P fuel encKey flag fname b1).run (Kernel.handle P) (t,fs) = (some r,s)) :
    (Opens flag t.faults → s.1.addrLimit = .kernelDs) ∧ (¬ Opens flag t.faults → s.1.addrLimit = t.addrLimit) := by
  have hsplit : ∀ {α : Type} {p : KProg α} {s' : Kernel} {b : Option ℤ}, (p >>= fun _ => pure (some 0)).run (Kernel.handle P) (t,fs) = (some b,s') →
      (p.run (Kernel.handle P) (t,fs)).1 ≠ none ∧ s' = (p.run (Kernel.handle P) (t,fs)).2 := by
    intro α p s' b h
    rw [run_dropped, Prod.mk.injEq] at h
    refine ⟨fun hnone => ?_,h.2.symm⟩
    rw [hnone] at h
    cases h.1
  by_cases h1 : flag = 4081
  · subst h1
    rw [syscall_move] at hret
    have hlimit := limit_processunlink (P := P) (t := t) fuel fname (by rw [hret]; exact Option.some_ne_none r)
    rw [hret] at hlimit
    have hopens : Opens 4081 t.faults ↔ t.faults.Grants 2 := by simp [Opens]
    rw [hopens, hlimit]
    exact ⟨fun h => if_pos h,fun h => if_neg h⟩
  by_cases h2 : flag = 4083
  · subst h2
    rw [syscall_compress] at hret
    obtain ⟨hne,rfl⟩ := hsplit hret
    have hlimit := limit_processcompress fname hne
    have hopens : Opens 4083 t.faults ↔ t.faults.Grants 3 := by simp [Opens]
    rw [hopens, hlimit]
    exact ⟨fun h => if_pos h,fun h => if_neg h⟩
  by_cases h3 : flag = 4085
  · subst h3
    rw [syscall_encrypt] at hret
    obtain ⟨hne,rfl⟩ := hsplit hret
    have hopens : Opens 4085 t.faults := by simp [Opens]
    exact ⟨fun _ => raises_processencryption P fname encKey _ hne,fun h => absurd hopens h⟩
  by_cases h4 : flag = 4087
  · subst h4
    rw [syscall_encComp] at hret
    obtain ⟨hne,rfl⟩ := hsplit hret
    have hlimit := limit_processEncComp fname encKey hne
    have hopens : Opens 4087 t.faults ↔ t.faults.Grants 3 := by simp [Opens]
    rw [hopens, hlimit]
    exact ⟨fun h => if_pos h,fun h => if_neg h⟩
  · rw [syscall_other P fuel encKey fname b1 ⟨h1,h2,h3,h4⟩] at hret
    cases hret
    have hopens : ¬ Opens flag t.faults := by
      rintro (h | h | h | h)
      · exact h1 h.1
      · exact h2 h.1
      · exact h3 h
      · exact h4 h.1
    exact ⟨fun h => absurd h hopens,fun _ => rfl⟩

/-- The limit is what it was on entry exactly when it was that of the kernel or no file is opened. -/
theorem syscall_restores_iff (P : Platform) (fuel : ℕ) (encKey : Ptr) (flag : BitVec 64) (fname : Path) (b1 : BitVec 32)
    (t : Task) (fs : Fs) {r : Option ℤ} {s : Kernel}
    (hret : (syscall P fuel encKey flag fname b1).run (Kernel.handle P) (t,fs) = (some r,s)) :
    s.1.addrLimit = t.addrLimit ↔ t.addrLimit = .kernelDs ∨ ¬ Opens flag t.faults := by
  obtain ⟨hopens,hkeeps⟩ := syscall_addrLimit P fuel encKey flag fname b1 t fs hret
  by_cases h : Opens flag t.faults
  · rw [hopens h]
    exact ⟨fun hl => .inl hl.symm,fun hl => (hl.resolve_right (not_not_intro h)).symm⟩
  · exact iff_of_true (hkeeps h) (.inr h)

/-- An encryption request for a file that is not there. -/
theorem syscall_leaves_kernelDs :
    ∃ s, (syscall .bare 1 none 4085 ['a'] 4085).run (Kernel.handle .bare) (Task.fresh ['/'] 0 {},Fs.ofList []) =
        (some (some 0),s) ∧ s.1.addrLimit ≠ (Task.fresh ['/'] 0 {}).addrLimit :=
  ⟨_,rfl,by decide⟩

/-- A plain move that gets no buffer. -/
theorem syscall_restores_nomem :
    ((syscall .bare 1 none 4081 ['a'] 4081).run (Kernel.handle .bare)
        (Task.fresh ['/'] 0 { allocs := [true] },Fs.ofList [])).2.1.addrLimit =
        (Task.fresh ['/'] 0 { allocs := [true] }).addrLimit ↔
      (Task.fresh ['/'] 0 { allocs := [true] }).addrLimit = .kernelDs ∨
        ¬ Opens 4081 (Task.fresh ['/'] 0 { allocs := [true] }).faults :=
  syscall_restores_iff .bare 1 none 4081 ['a'] 4081 (Task.fresh ['/'] 0 { allocs := [true] }) (Fs.ofList [])
    (r := some (-ENOMEM)) rfl

end XClone
