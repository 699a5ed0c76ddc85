import XClone.Sync.Contracts
import Mathlib.Data.List.Nodup

/-! # What a request acquires and releases

The log of a request keeps its allocations and releases, its opens and closes. The plain
move releases all it acquired, except when only one of its two first buffers is there; the
other operations never release the first of their path buffers.
-/
namespace XClone
open Effects Prog

inductive Resource where
  | alloc (a : ℕ)
  | free (a : ℕ)
  | opened (f : File)
  | closed (f : File)
deriving DecidableEq, Repr

def Call.resources : (c : Call) → Answer c → List Resource
  | .kmalloc _, some b => [.alloc b.addr]
  | .kfree (some a), _ => [.free a]
  | .filpOpen _ _, .ok f => [.opened f]
  | .filpClose f, _ => [.closed f]
  | _, _ => []

abbrev resourcesOf {α : Type} (P : Platform) (p : KProg α) (s : Kernel) : List Resource :=
  p.log Call.resources (Kernel.handle P) s

/-- Each file was closed as often as it was opened, and each allocated buffer freed once. -/
structure Balanced (log : List Resource) : Prop where
  files : ∀ f, log.count (.closed f) = log.count (.opened f)
  buffers : ∀ a, .alloc a ∈ log → log.count (.free a) = 1

theorem balanced_nil : Balanced [] := ⟨fun _ => rfl,by simp⟩

/-! ## Buffers that are never released -/

/-- Whatever is allocated lies elsewhere. -/
def Elsewhere (a : ℕ) : (c : Call) → Answer c → Prop
  | .kmalloc _, some b => b.addr ≠ a
  | _, _ => True

/-- A program that spares the buffer. -/
abbrev Spares {α : Type} (a : ℕ) (p : KProg α) : Prop := Obeys (fun c => c ≠ .kfree (some a)) (Elsewhere a) p

theorem spares_contract {a : ℕ} {key : Ptr} (hkey : key ≠ some a) :
    KeyContract (fun c => c ≠ .kfree (some a)) (Elsewhere a) key where
  plain := by
    rintro c hplain rfl
    exact hplain
  raise := by simp
  restore := by simp
  release := by
    rintro size b hb ⟨rfl⟩
    exact hb rfl
  releaseNull := by simp
  unlink := by simp
  cipher := by simp
  freeKey := by
    rintro ⟨rfl⟩
    exact hkey rfl

theorem Heap.free_next (h : Heap) (p : Ptr) : (h.free p).next = h.next := by
  cases p with
  | none => rfl
  | some a =>
    rw [Heap.free]
    split <;> rfl

/-- Addresses are handed out in order. -/
theorem handle_next (P : Platform) (c : Call) (s : Kernel) : s.1.heap.next ≤ (Kernel.handle P c s).2.1.heap.next := by
  obtain ⟨t,fs⟩ := s
  cases c with
  | kmalloc size =>
    simp only [Kernel.handle, Task.kmalloc]
    split
    · exact le_rfl
    · exact Nat.le_succ _
  | kfree p => exact (t.heap.free_next p).ge
  | _ =>
    simp only [Kernel.handle]
    repeat' split
    all_goals exact le_rfl

theorem handle_elsewhere {P : Platform} {c : Call} {s : Kernel} {r : Answer c} {a : ℕ} (ha : a < s.1.heap.next)
    (hr : (Kernel.handle P c s).1 = some r) : Elsewhere a c r := by
  obtain ⟨t,fs⟩ := s
  have hnext : ∀ (t' : Task) bytes, a < t'.heap.next → ∀ b, (t'.kmalloc bytes).1 = some b → b.addr ≠ a := by
    intro t' bytes ha b hb
    rw [Task.kmalloc] at hb
    split at hb
    · cases hb
    · cases hb
      exact ha.ne'
  cases c with
  | kmalloc size =>
    cases r with
    | none => trivial
    | some b => exact hnext t.dig _ ha b (Option.some.inj hr)
  | _ => trivial

theorem mem_resources_free {c : Call} {r : Answer c} {a : ℕ} (h : .free a ∈ c.resources r) : c = .kfree (some a) := by
  cases c with
  | kfree p =>
    cases p with
    | none => cases h
    | some b =>
      obtain ⟨rfl⟩ := List.mem_singleton.mp h
      rfl
  | kmalloc size => cases r <;> simp [Call.resources] at h
  | filpOpen fname create => cases r <;> simp [Call.resources] at h
  | filpClose f => simp [Call.resources] at h
  | _ => cases h

theorem Spares.count_free {α : Type} {P : Platform} {a : ℕ} {p : KProg α} (hp : Spares a p) {s : Kernel}
    (ha : a < s.1.heap.next) : (resourcesOf P p s).count (.free a) = 0 := by
  rw [List.count_eq_zero]
  intro hmem
  refine hp.log_spec (I := fun s : Kernel => a < s.1.heap.next) (W := fun e => e ≠ .free a) ?_ ?_ ?_ ha _ hmem rfl
  · exact fun c s r _ hs hr => handle_elsewhere hs hr
  · exact fun c s _ hs => hs.trans_le (handle_next P c s)
  · rintro c r hc _ _ he rfl
    exact hc (mem_resources_free he)

section Leaks
variable (P : Platform) {α : Type} {t : Task} {fs : Fs} {key : Ptr}

/-- A path buffer that is got, in front of a program that spares it. -/
theorem pathBuffers_leaks {n : ℕ} {k : Bool → KProg α} (hk : Spares t.heap.next (pathBuffers (n+1) >>= k))
    (h : t.faults.allocs.headD false = false) :
    .alloc t.heap.next ∈ resourcesOf P (pathBuffers (n+1) >>= k) (t,fs) ∧
      (resourcesOf P (pathBuffers (n+1) >>= k) (t,fs)).count (.free t.heap.next) = 0 := by
  have hmalloc : Kernel.handle P (.kmalloc PATH_MAX) (t,fs) = _ := handle_kmalloc P PATH_MAX h
  have hrest : Spares t.heap.next (pathBuffers n >>= k) := hk.2 (some ⟨t.heap.next + 1,[]⟩) (Nat.succ_ne_self _)
  have hfree := hrest.count_free (P := P) (s := ((t.dig.spend .popAlloc).given (leftover (t.garbage.headD []) PATH_MAX),fs))
    (Nat.lt_succ_self _)
  have hlog : resourcesOf P (pathBuffers (n+1) >>= k) (t,fs) = .alloc t.heap.next ::
      resourcesOf P (pathBuffers n >>= k) ((t.dig.spend .popAlloc).given (leftover (t.garbage.headD []) PATH_MAX),fs) := by
    change Prog.log _ _ (.call (Call.kmalloc PATH_MAX) _) _ = _
    rw [Prog.log, hmalloc]
    rfl
  rw [hlog]
  exact ⟨List.mem_cons_self,(List.count_cons_of_ne (by simp)).trans hfree⟩

theorem not_balanced_of_leak {log : List Resource} {a : ℕ} (h : .alloc a ∈ log ∧ log.count (.free a) = 0) :
    ¬ Balanced log := by
  intro hb
  have hone := hb.buffers a h.1
  rw [h.2] at hone
  cases hone

/-- Without its first path buffer an operation does nothing. -/
theorem pathBuffers_refused {n : ℕ} {k : Bool → KProg α} (h : t.faults.allocs.headD false = true) :
    resourcesOf P (pathBuffers (n+1) >>= k) (t,fs) = resourcesOf P (k false) (t.dig.spend .popAlloc,fs) := by
  have hmalloc : Kernel.handle P (.kmalloc PATH_MAX) (t,fs) = _ := handle_kmalloc_fails P PATH_MAX h
  change Prog.log _ _ (.call (Call.kmalloc PATH_MAX) _) _ = _
  rw [Prog.log, hmalloc]
  rfl

/-- The key lies where it was allocated earlier. -/
def Earlier (key : Ptr) (t : Task) : Prop := ∀ a, key = some a → a < t.heap.next

theorem Earlier.ne {key : Ptr} {t : Task} (h : Earlier key t) : key ≠ some t.heap.next :=
  fun he => lt_irrefl _ (h _ he)

theorem processcompress_balanced_iff (fname : Path) :
    Balanced (resourcesOf P (processcompress P fname) (t,fs)) ↔ t.faults.allocs.getD 0 false = true := by
  have hnone : (none : Ptr) ≠ some t.heap.next := by simp
  rw [← headD_of_drop List.drop_zero.symm false]
  cases h : t.faults.allocs.headD false with
  | false =>
    refine iff_of_false ?_ Bool.false_ne_true
    exact not_balanced_of_leak (pathBuffers_leaks P ((spares_contract hnone).processcompress P fname) h)
  | true =>
    refine iff_of_true ?_ rfl
    have hlog : resourcesOf P (processcompress P fname) (t,fs) = [] := pathBuffers_refused P h
    rw [hlog]
    exact balanced_nil

theorem processEncComp_balanced_iff (fname : Path) (hkey : Earlier key t) :
    Balanced (resourcesOf P (processEncComp P fname key) (t,fs)) ↔ t.faults.allocs.getD 0 false = true := by
  rw [← headD_of_drop List.drop_zero.symm false]
  cases h : t.faults.allocs.headD false with
  | false =>
    refine iff_of_false ?_ Bool.false_ne_true
    exact not_balanced_of_leak (pathBuffers_leaks P ((spares_contract hkey.ne).processEncComp P fname) h)
  | true =>
    refine iff_of_true ?_ rfl
    have hlog : resourcesOf P (processEncComp P fname key) (t,fs) = [] := pathBuffers_refused P h
    rw [hlog]
    exact balanced_nil

/-! ## Opens -/

theorem fileOpen_opens {path : Path} {create : Bool} {i : ℕ} {s : Slot} (h : t.faults.opens.headD none = none)
    (hs : fs.reach P (resolve t.cwd path) create = some (i,s)) :
    ∃ t' fs', Does Call.resources (Kernel.handle P) (fileOpen path create) (t,fs) [.opened ⟨resolve t.cwd path,i⟩]
      (some (.ok ⟨resolve t.cwd path,i⟩)) (t',fs') ∧ t'.heap = t.heap ∧ t'.faults.allocs = t.faults.allocs := by
  have hopen := handle_filpOpen P (t := t.limit .kernelDs) h hs
  exact ⟨_,_,(Does.call (handle_getFs P t fs)).bind ((Does.call (handle_setFs P t fs .kernelDs)).bind (Does.call hopen)),
    rfl,rfl⟩

theorem fileOpen_refused {path : Path} {create : Bool}
    (h : t.faults.opens.headD none ≠ none ∨ fs.reach P (resolve t.cwd path) create = none) :
    ∃ e t' fs', Does Call.resources (Kernel.handle P) (fileOpen path create) (t,fs) [] (some (.error e)) (t',fs') := by
  obtain ⟨e,hopen⟩ := handle_filpOpen_fails P (t := t.limit .kernelDs) h
  exact ⟨_,_,_,(Does.call (handle_getFs P t fs)).bind ((Does.call (handle_setFs P t fs .kernelDs)).bind (Does.call hopen))⟩

/-- A file that was opened is left open, or the first path buffer is. -/
theorem opened_unbalanced {path : Path} {create : Bool} {k : Except ℤ File → KProg α} {f : File} {n : ℕ} {q : Bool → KProg α}
    {a : α} (hk : k (.ok f) = pathBuffers (n+1) >>= q) (hq : q false = pure a) {t' : Task} {fs' : Fs}
    (hopen : Does Call.resources (Kernel.handle P) (fileOpen path create) (t,fs) [.opened f] (some (.ok f)) (t',fs'))
    (hspares : Spares t'.heap.next (fileOpen path create >>= k)) :
    ¬ Balanced (resourcesOf P (fileOpen path create >>= k) (t,fs)) := by
  have hrest : Spares t'.heap.next (k (.ok f)) :=
    ((hspares.2 Seg.userDs trivial).2 () trivial).2 (Except.ok f) trivial
  have hlog : resourcesOf P (fileOpen path create >>= k) (t,fs) = .opened f :: resourcesOf P (k (.ok f)) (t',fs') :=
    (hopen.bind (Does.of_run_log (k (.ok f)) (t',fs'))).log
  rw [hlog, hk]
  rw [hk] at hrest
  cases h : t'.faults.allocs.headD false with
  | false =>
    obtain ⟨hmem,hfree⟩ : _ ∧ (resourcesOf P (pathBuffers (n+1) >>= q) (t',fs')).count _ = 0 := pathBuffers_leaks P hrest h
    exact not_balanced_of_leak ⟨List.mem_cons_of_mem _ hmem,(List.count_cons_of_ne (by simp)).trans hfree⟩
  | true =>
    rw [pathBuffers_refused P h, hq]
    intro hb
    have hfiles := hb.files f
    simp [resourcesOf, Prog.log, Pure.pure] at hfiles

theorem processencryption_balanced_iff (fname : Path) (hkey : Earlier key t) :
    Balanced (resourcesOf P (processencryption P fname key) (t,fs)) ↔
      t.faults.opens.getD 0 none ≠ none ∨ fs.entry (resolve t.cwd fname) = none := by
  rw [← headD_of_drop List.drop_zero.symm none]
  by_cases hmiss : t.faults.opens.headD none ≠ none ∨ fs.entry (resolve t.cwd fname) = none
  · refine iff_of_true ?_ hmiss
    obtain ⟨e,t',fs',hopen⟩ := fileOpen_refused P (hmiss.imp_right (Fs.reach_missing P))
    have hall : Does Call.resources (Kernel.handle P) (processencryption P fname key) (t,fs) [] (some (-EPERM)) (t',fs') :=
      hopen.bind (Does.pure _ _)
    have hlog : resourcesOf P (processencryption P fname key) (t,fs) = [] := hall.log
    rw [hlog]
    exact balanced_nil
  · refine iff_of_false ?_ hmiss
    obtain ⟨hnone,hthere⟩ := not_or.mp hmiss
    obtain ⟨past,c,hslot⟩ := Slot.exists_of_now_ne_none hthere
    obtain ⟨t',fs',hopen,hheap,hallocs⟩ := fileOpen_opens P (not_not.mp hnone) (Fs.reach_found P hslot false)
    have hspares : Spares t'.heap.next (processencryption P fname key) := by
      rw [hheap]
      exact (spares_contract hkey.ne).processencryption P fname
    exact opened_unbalanced P rfl rfl hopen hspares

/-! ## The plain move -/

variable (t fs) in
theorem freeBuffers_uses (bufs : List Buf) : ∃ t', Does Call.resources (Kernel.handle P) (freeBuffers bufs) (t,fs)
    (bufs.map (fun b => .free b.addr)) (some ()) (t',fs) := by
  induction bufs generalizing t with
  | nil => exact ⟨t,Does.pure _ _⟩
  | cons b bs ih =>
    obtain ⟨t',hrest⟩ := ih (t.freed (some b.addr))
    exact ⟨t',(Does.call (handle_kfree P t fs (some b.addr))).bind hrest⟩

theorem silent_contract : TransferContract (fun c => ∀ r, c.resources r = []) (fun _ _ => True) where
  transfer := by
    rintro c hc
    cases c with
    | getFs => exact fun _ => rfl
    | vfsRead f pos len => exact fun _ => rfl
    | vfsReadNull f pos len => exact fun _ => rfl
    | vfsWrite f pos buf len => exact fun _ => rfl
    | vfsWriteNull f pos len => exact fun _ => rfl
    | _ => exact hc.elim
  raise := fun _ => rfl
  restore := fun _ _ _ => rfl

theorem copyLoop_uses_nothing (infile trashbinfile : File) (fuel : ℕ) (pagesread total : ℤ) (s : Kernel) :
    resourcesOf P (copyLoop infile trashbinfile fuel pagesread total) s = [] := by
  rw [List.eq_nil_iff_forall_not_mem]
  refine (silent_contract.copyLoop infile trashbinfile fuel pagesread total).log_spec (I := fun _ => True)
    (W := fun _ => False) (fun _ _ _ _ _ _ => trivial) (fun _ _ _ _ => trivial) ?_ trivial
  intro c r hc _ e he
  rw [hc r] at he
  cases he

/-- An unlink is always answered. -/
theorem handle_vfsUnlink_answer (f : File) (s : Kernel) : ∃ err s', Kernel.handle P (.vfsUnlink f) s = (some err,s') := by
  obtain ⟨t,fs⟩ := s
  simp only [Kernel.handle]
  cases t.faults.unlinks.headD none with
  | some e => exact ⟨_,_,rfl⟩
  | none => cases (fs f.path).unlink f.inode <;> exact ⟨_,_,rfl⟩

/-- The two ways out of the copy loop. -/
theorem copyAndUnlink_uses (fuel : ℕ) (infile trashbinfile : File) (b₁ b₂ b₃ : Buf) {s : Kernel} {r : ℤ}
    (hret : ((copyAndUnlink fuel infile trashbinfile b₁ b₂ b₃).run (Kernel.handle P) s).1 = some (some r)) :
    resourcesOf P (copyAndUnlink fuel infile trashbinfile b₁ b₂ b₃) s =
        [.closed trashbinfile,.closed infile,.free b₁.addr,.free b₂.addr,.free b₃.addr] ∨
      resourcesOf P (copyAndUnlink fuel infile trashbinfile b₁ b₂ b₃) s =
        [.closed infile,.closed trashbinfile,.free b₃.addr,.free b₁.addr,.free b₂.addr] := by
  have hnil := copyLoop_uses_nothing P infile trashbinfile fuel 0 0 s
  rcases hloop : (copyLoop infile trashbinfile fuel 0 0).run (Kernel.handle P) s with ⟨_ | exit,t',fs'⟩
  · rw [copyAndUnlink, run_bind_none hloop] at hret
    cases hret
  have hdone : Does Call.resources (Kernel.handle P) (copyLoop infile trashbinfile fuel 0 0) s [] (some exit) (t',fs') :=
    ⟨hloop,hnil⟩
  cases exit with
  | running =>
    rw [copyAndUnlink, run_bind_some hloop] at hret
    cases hret
  | readFailed =>
    left
    obtain ⟨t₁,hfree⟩ := freeBuffers_uses P ((t'.closing trashbinfile).closing infile) fs' [b₁,b₂,b₃]
    exact (hdone.bind ((Does.call (handle_filpClose P t' fs' trashbinfile)).bind
      ((Does.call (handle_filpClose P _ fs' infile)).bind (hfree.bind (Does.pure (some (0 : ℤ)) _))))).log
  | finished =>
    right
    obtain ⟨err,⟨t₁,fs₁⟩,hunlink⟩ := handle_vfsUnlink_answer P infile (t'.closing infile,fs')
    obtain ⟨t₂,hfree⟩ := freeBuffers_uses P (t₁.closing trashbinfile) fs₁ [b₃,b₁,b₂]
    exact (hdone.bind ((Does.call (handle_filpClose P t' fs' infile)).bind ((Does.call hunlink).bind
      ((Does.call (handle_filpClose P t₁ fs₁ trashbinfile)).bind (hfree.bind (Does.pure (some err) _)))))).log

/-- A log in which every open is closed and all buffers, at different addresses, are freed. -/
theorem balanced_of_counts {log : List Resource} {addrs : List ℕ} (hd : addrs.Nodup)
    (hfiles : ∀ f, log.count (.closed f) = log.count (.opened f)) (halloc : ∀ a, .alloc a ∈ log → a ∈ addrs)
    (hfree : ∀ a, log.count (.free a) = addrs.count a) : Balanced log :=
  ⟨hfiles,fun a ha => (hfree a).trans (List.nodup_iff_count_eq_one.mp hd a (halloc a ha))⟩

/-- What follows the open of the original: each way out closes and frees in an order of its own. -/
theorem moveOpened_uses (fuel : ℕ) (infile : File) (b₁ b₂ : Buf) {r : ℤ}
    (hret : ((moveOpened P fuel infile b₁ b₂).run (Kernel.handle P) (t,fs)).1 = some (some r)) :
    let log := resourcesOf P (moveOpened P fuel infile b₁ b₂) (t,fs)
    let a₁ := b₁.addr; let a₂ := b₂.addr; let a₃ := t.heap.next
    log = [.closed infile,.free a₁,.free a₂] ∨
    log = [.alloc a₃,.closed infile,.free a₁,.free a₂,.free a₃] ∨
    ∃ trashbinfile, log = [.alloc a₃,.opened trashbinfile,.closed trashbinfile,.closed infile,.free a₁,.free a₂,.free a₃] ∨
      log = [.alloc a₃,.opened trashbinfile,.closed infile,.closed trashbinfile,.free a₃,.free a₁,.free a₂] := by
  obtain ⟨size,hsize⟩ : ∃ size, 4 + 9 + (dName infile).length + 26 = size := ⟨_,rfl⟩
  cases h : t.faults.allocs.headD false with
  | true =>
    have hmalloc : Kernel.handle P (.kmalloc size) (t,fs) = _ := handle_kmalloc_fails P size h
    obtain ⟨t',hfree⟩ := freeBuffers_uses P ((t.dig.spend .popAlloc).closing infile) fs [b₁,b₂]
    left
    rw [moveOpened, hsize]
    exact ((Does.call hmalloc).bind ((Does.call (handle_filpClose P _ fs infile)).bind
      (hfree.bind (Does.pure (some (0 : ℤ)) _)))).log
  | false =>
    right
    have hmalloc : Kernel.handle P (.kmalloc size) (t,fs) = _ := handle_kmalloc P size h
    obtain ⟨b₃,hb₃⟩ : ∃ b₃, (⟨t.heap.next,leftover (t.garbage.headD []) size⟩ : Buf) = b₃ := ⟨_,rfl⟩
    have haddr : t.heap.next = b₃.addr := by rw [← hb₃]
    obtain ⟨t₃,ht₃⟩ : ∃ t₃, (t.dig.spend .popAlloc).given (leftover (t.garbage.headD []) size) = t₃ := ⟨_,rfl⟩
    rw [hb₃, ht₃] at hmalloc
    rw [haddr]
    have htime : Does Call.resources (Kernel.handle P) (kcall .doGettimeofday) (t₃,fs) [] (some t₃.now) (t₃,fs) :=
      Does.call (handle_doGettimeofday P t₃ fs)
    cases hd : P.dPathNull infile.path with
    | none =>
      have hdead : Does Call.resources (Kernel.handle P) (dPath P infile none) (t₃,fs) [] none (t₃,fs) := by
        rw [dPath, hd]
        exact (Does.dead (handle_oops P t₃ fs)).bind_dead
      have hrun : Does Call.resources (Kernel.handle P) (moveOpened P fuel infile b₁ b₂) (t,fs) ([.alloc b₃.addr] ++ ([] ++ []))
          none (t₃,fs) := by
        rw [moveOpened, hsize]
        exact (Does.call hmalloc).bind (htime.bind hdead.bind_dead)
      rw [hrun.run] at hret
      cases hret
    | some path =>
    have hpath : Does Call.resources (Kernel.handle P) (dPath P infile none) (t₃,fs) [] (some path) (t₃,fs) := by
      rw [dPath, hd]
      exact Does.pure _ _
    by_cases hmiss : t₃.faults.opens.headD none ≠ none ∨
        fs.reach P (resolve t₃.cwd (trashName P [] t₃.now path [])) true = none
    · obtain ⟨e,t',fs',hopen⟩ := fileOpen_refused P hmiss
      obtain ⟨t₁,hfree⟩ := freeBuffers_uses P (t'.closing infile) fs' [b₁,b₂,b₃]
      left
      rw [moveOpened, hsize]
      exact ((Does.call hmalloc).bind (htime.bind (hpath.bind (hopen.bind ((Does.call (handle_filpClose P _ fs' infile)).bind
        (hfree.bind (Does.pure (some (-EPERM)) _))))))).log
    · obtain ⟨hnone,hthere⟩ := not_or.mp hmiss
      obtain ⟨⟨i,slot⟩,hslot⟩ := Option.ne_none_iff_exists'.mp hthere
      obtain ⟨t',fs',hopen,-,-⟩ := fileOpen_opens P (not_not.mp hnone) hslot
      obtain ⟨trashbinfile,htrash⟩ : ∃ f, (⟨resolve t₃.cwd (trashName P [] t₃.now path []),i⟩ : File) = f := ⟨_,rfl⟩
      rw [htrash] at hopen
      right
      refine ⟨trashbinfile,?_⟩
      obtain ⟨⟨a,s⟩,hout⟩ : ∃ out, (copyAndUnlink fuel infile trashbinfile b₁ b₂ b₃).run (Kernel.handle P) (t',fs') = out :=
        ⟨_,rfl⟩
      have hrun : Does Call.resources (Kernel.handle P) (moveOpened P fuel infile b₁ b₂) (t,fs) ([.alloc b₃.addr] ++ ([] ++ ([] ++
          ([.opened trashbinfile] ++ resourcesOf P (copyAndUnlink fuel infile trashbinfile b₁ b₂ b₃) (t',fs'))))) a s := by
        rw [moveOpened, hsize]
        exact (Does.call hmalloc).bind (htime.bind (hpath.bind (hopen.bind ⟨hout,rfl⟩)))
      rw [hrun.run] at hret
      have hlog : resourcesOf P (moveOpened P fuel infile b₁ b₂) (t,fs) = _ := hrun.log
      have hret : ((copyAndUnlink fuel infile trashbinfile b₁ b₂ b₃).run (Kernel.handle P) (t',fs')).1 = some (some r) := by
        rw [hout]
        exact hret
      rw [hlog]
      exact (copyAndUnlink_uses P fuel infile trashbinfile b₁ b₂ b₃ hret).imp
        (fun hout => by rw [hout]; rfl) (fun hout => by rw [hout]; rfl)

/-- From the name of the trash entry on, all that is held is released. -/
theorem moveOpened_balanced (fuel : ℕ) (infile : File) {b₁ b₂ : Buf} {r : ℤ} (hne : b₁.addr ≠ b₂.addr)
    (h₁ : b₁.addr < t.heap.next) (h₂ : b₂.addr < t.heap.next)
    (hret : ((moveOpened P fuel infile b₁ b₂).run (Kernel.handle P) (t,fs)).1 = some (some r)) :
    Balanced ([.alloc b₁.addr,.alloc b₂.addr,.opened infile] ++ resourcesOf P (moveOpened P fuel infile b₁ b₂) (t,fs)) := by
  have hd : [b₁.addr,b₂.addr,t.heap.next].Nodup := by simp [hne, h₁.ne, h₂.ne]
  have hd' : [b₁.addr,b₂.addr].Nodup := by simp [hne]
  rcases moveOpened_uses P fuel infile b₁ b₂ hret with hlog | hlog | ⟨trashbinfile,hlog | hlog⟩
  · rw [hlog]
    refine balanced_of_counts hd' ?_ ?_ ?_
    · simp [List.count_cons]
    · simp
    · simp [List.count_cons]
  · rw [hlog]
    refine balanced_of_counts hd ?_ ?_ ?_
    · simp [List.count_cons]
    · simp
    · simp [List.count_cons]
  · rw [hlog]
    refine balanced_of_counts hd ?_ ?_ ?_
    · simp [List.count_cons, Nat.add_comm]
    · simp
    · simp [List.count_cons]
  · rw [hlog]
    refine balanced_of_counts hd ?_ ?_ ?_
    · simp [List.count_cons]
    · simp
    · intro a
      simp only [List.cons_append, List.nil_append, List.count_cons, List.count_nil]
      simp
      omega

/-- The plain move, when it returns. -/
theorem processunlink_balanced_iff (fuel : ℕ) (fname : Path) {r : ℤ}
    (hret : ((processunlink P fuel fname).run (Kernel.handle P) (t,fs)).1 = some (some r)) :
    Balanced (resourcesOf P (processunlink P fuel fname) (t,fs)) ↔
      t.faults.allocs.getD 0 false = t.faults.allocs.getD 1 false := by
  rw [← headD_of_drop List.drop_zero.symm false]
  have hone : ∀ t' : Task, t'.faults.allocs = t.faults.allocs.tail → t'.faults.allocs.headD false = t.faults.allocs.getD 1 false :=
    fun t' ht' => by
      rw [ht']
      exact headD_of_drop List.drop_one.symm false
  have hnot : ∀ a, ¬ Balanced [.alloc a] := fun a => not_balanced_of_leak (a := a) (by simp)
  cases h : t.faults.allocs.headD false with
  | true =>
    have hfirst : Kernel.handle P (.kmalloc PAGE_SIZE) (t,fs) = _ := handle_kmalloc_fails P PAGE_SIZE h
    rw [← hone (t.dig.spend .popAlloc) rfl]
    cases h' : (t.dig.spend .popAlloc).faults.allocs.headD false with
    | true =>
      have hsecond : Kernel.handle P (.kmalloc PAGE_SIZE) (t.dig.spend .popAlloc,fs) = _ := handle_kmalloc_fails P PAGE_SIZE h'
      have hlog : resourcesOf P (processunlink P fuel fname) (t,fs) = [] :=
        ((Does.call hfirst).bind ((Does.call hsecond).bind (Does.pure (some (-ENOMEM)) _))).log
      rw [hlog]
      exact iff_of_true balanced_nil rfl
    | false =>
      have hsecond : Kernel.handle P (.kmalloc PAGE_SIZE) (t.dig.spend .popAlloc,fs) = _ := handle_kmalloc P PAGE_SIZE h'
      have hlog : resourcesOf P (processunlink P fuel fname) (t,fs) = [.alloc (t.dig.spend .popAlloc).heap.next] :=
        ((Does.call hfirst).bind ((Does.call hsecond).bind (Does.pure (some (-ENOMEM)) _))).log
      rw [hlog]
      exact iff_of_false (hnot _) (by simp)
  | false =>
    have hfirst : Kernel.handle P (.kmalloc PAGE_SIZE) (t,fs) = _ := handle_kmalloc P PAGE_SIZE h
    obtain ⟨t₁,ht₁⟩ : ∃ t₁, (t.dig.spend .popAlloc).given (leftover (t.garbage.headD []) PAGE_SIZE) = t₁ := ⟨_,rfl⟩
    have hnext₁ : t₁.heap.next = t.heap.next + 1 := by rw [← ht₁]; rfl
    have hallocs₁ : t₁.faults.allocs = t.faults.allocs.tail := by rw [← ht₁]; rfl
    rw [ht₁] at hfirst
    rw [← hone t₁ hallocs₁]
    cases h' : t₁.faults.allocs.headD false with
    | true =>
      have hsecond : Kernel.handle P (.kmalloc PAGE_SIZE) (t₁,fs) = _ := handle_kmalloc_fails P PAGE_SIZE h'
      have hlog : resourcesOf P (processunlink P fuel fname) (t,fs) = [.alloc t.heap.next] :=
        ((Does.call hfirst).bind ((Does.call hsecond).bind (Does.pure (some (-ENOMEM)) _))).log
      rw [hlog]
      exact iff_of_false (hnot _) (by simp)
    | false =>
      have hsecond : Kernel.handle P (.kmalloc PAGE_SIZE) (t₁,fs) = _ := handle_kmalloc P PAGE_SIZE h'
      refine iff_of_true ?_ rfl
      obtain ⟨t₂,ht₂⟩ : ∃ t₂, (t₁.dig.spend .popAlloc).given (leftover (t₁.garbage.headD []) PAGE_SIZE) = t₂ := ⟨_,rfl⟩
      have hnext₂ : t₂.heap.next = t₁.heap.next + 1 := by rw [← ht₂]; rfl
      obtain ⟨b₁,hb₁⟩ : ∃ b₁, (⟨t.heap.next,leftover (t.garbage.headD []) PAGE_SIZE⟩ : Buf) = b₁ := ⟨_,rfl⟩
      obtain ⟨b₂,hb₂⟩ : ∃ b₂, (⟨t₁.heap.next,leftover (t₁.garbage.headD []) PAGE_SIZE⟩ : Buf) = b₂ := ⟨_,rfl⟩
      have ha₁ : b₁.addr = t.heap.next := by rw [← hb₁]
      have ha₂ : b₂.addr = t₁.heap.next := by rw [← hb₂]
      rw [hb₁] at hfirst
      rw [ht₂, hb₂] at hsecond
      by_cases hmiss : t₂.faults.opens.headD none ≠ none ∨ fs.reach P (resolve t₂.cwd fname) false = none
      · obtain ⟨e,t',fs',hopen⟩ := fileOpen_refused P hmiss
        obtain ⟨t₃,hfree⟩ := freeBuffers_uses P t' fs' [b₁,b₂]
        have hlog : resourcesOf P (processunlink P fuel fname) (t,fs) = [.alloc b₁.addr,.alloc b₂.addr,.free b₁.addr,.free b₂.addr] :=
          ((Does.call hfirst).bind ((Does.call hsecond).bind (hopen.bind (hfree.bind (Does.pure (some (-EPERM)) _))))).log
        rw [hlog]
        have hd : [b₁.addr,b₂.addr].Nodup := by simp [ha₁, ha₂, hnext₁]
        refine balanced_of_counts hd ?_ ?_ ?_
        · simp
        · simp
        · simp [List.count_cons]
      · obtain ⟨hnone,hthere⟩ := not_or.mp hmiss
        obtain ⟨⟨i,slot⟩,hslot⟩ := Option.ne_none_iff_exists'.mp hthere
        obtain ⟨t',fs',hopen,hheap,-⟩ := fileOpen_opens P (not_not.mp hnone) hslot
        obtain ⟨infile,hin⟩ : ∃ f, (⟨resolve t₂.cwd fname,i⟩ : File) = f := ⟨_,rfl⟩
        rw [hin] at hopen
        obtain ⟨⟨a,s⟩,hout⟩ : ∃ out, (moveOpened P fuel infile b₁ b₂).run (Kernel.handle P) (t',fs') = out := ⟨_,rfl⟩
        have hrun : Does Call.resources (Kernel.handle P) (processunlink P fuel fname) (t,fs) ([.alloc b₁.addr] ++
            ([.alloc b₂.addr] ++ ([.opened infile] ++ resourcesOf P (moveOpened P fuel infile b₁ b₂) (t',fs')))) a s :=
          (Does.call hfirst).bind ((Does.call hsecond).bind (hopen.bind ⟨hout,rfl⟩))
        rw [hrun.run] at hret
        have hlog : resourcesOf P (processunlink P fuel fname) (t,fs) = _ := hrun.log
        have hret : ((moveOpened P fuel infile b₁ b₂).run (Kernel.handle P) (t',fs')).1 = some (some r) := by
          rw [hout]
          exact hret
        rw [hlog]
        exact moveOpened_balanced P fuel _ (by omega) (by rw [hheap]; omega) (by rw [hheap]; omega) hret

end Leaks

/-- When a request has released all that it acquired: the plain move, when it returns, if both of its first buffers
are there or neither is; the others only if they stop before their first path buffer with nothing open. -/
theorem resources_balanced_iff (P : Platform) (fuel : ℕ) (fname : Path) {key : Ptr} {t : Task} (fs : Fs) (hkey : Earlier key t) :
    (∀ r, ((processunlink P fuel fname).run (Kernel.handle P) (t,fs)).1 = some (some r) →
      (Balanced (resourcesOf P (processunlink P fuel fname) (t,fs)) ↔
        t.faults.allocs.getD 0 false = t.faults.allocs.getD 1 false)) ∧
    (Balanced (resourcesOf P (processencryption P fname key) (t,fs)) ↔
      t.faults.opens.getD 0 none ≠ none ∨ fs.entry (resolve t.cwd fname) = none) ∧
    (Balanced (resourcesOf P (processcompress P fname) (t,fs)) ↔ t.faults.allocs.getD 0 false = true) ∧
    (Balanced (resourcesOf P (processEncComp P fname key) (t,fs)) ↔ t.faults.allocs.getD 0 false = true) := by
  refine ⟨?_,?_,?_,?_⟩
  · intro r hret
    exact processunlink_balanced_iff P fuel fname hret
  · exact processencryption_balanced_iff P fname hkey
  · exact processcompress_balanced_iff P fname
  · exact processEncComp_balanced_iff P fname hkey

/-- A plain move without memory for its name returns and has released all it acquired. -/
theorem resources_balanced_nameless :
    let s : Kernel := ((Task.fresh ['/'] 0 { allocs := [false,false,true] }).withKey [107,0],Fs.ofList [(['/','a'],[7])])
    Balanced (resourcesOf .bare (processunlink .bare 2 ['/','a']) s) ∧
      ¬ Balanced (resourcesOf .bare (processencryption .bare ['/','a'] (some 0)) s) := by
  intro s
  have hkey : Earlier (some 0) ((Task.fresh ['/'] 0 { allocs := [false,false,true] }).withKey [107,0]) := by
    rintro a ⟨rfl⟩
    decide
  obtain ⟨hmove,hencrypt,-,-⟩ := resources_balanced_iff .bare 2 ['/','a'] (Fs.ofList [(['/','a'],[7])]) hkey
  refine ⟨(hmove 0 (by decide +kernel)).mpr rfl,fun h => ?_⟩
  have hmiss := hencrypt.mp h
  revert hmiss
  decide

/-- A fault-free request with compression returns, and its first path buffer was never released. -/
theorem processcompress_unbalanced :
    let s : Kernel := (Task.fresh ['/'] 0 {},Fs.ofList [(['/','a'],[7])])
    ((processcompress .bare ['/','a']).run (Kernel.handle .bare) s).1 = some 0 ∧
      ¬ Balanced (resourcesOf .bare (processcompress .bare ['/','a']) s) := by
  refine ⟨by decide +kernel,fun h => ?_⟩
  have hfree := h.buffers 0 (by decide +kernel)
  revert hfree
  decide +kernel

end XClone
