import XClone.Library.Archive
import XClone.Sync.Footprints

/-! # What a request does when nothing fails

Each operation takes the original out of its directory and leaves a form of it under its entry name:
the first 2^31 bytes of it for a plain move, the frames of `compress_file`, the blocks of
`clone_encryption`, or the blocks of the frames.
-/
namespace XClone
open Effects Prog

/-! ## Fault-free runs -/

section Quiet
variable (P : Platform) {t : Task} {fs : Fs} {α : Type}

/-- Nothing that fails, nothing that will. -/
theorem handle_faultless (c : Call) (fs : Fs) (h : t.faults = {}) : (Kernel.handle P c (t,fs)).2.1.faults = {} := by
  cases c with
  | kmalloc size =>
    obtain ⟨r,t',hcall,ha⟩ := kmalloc_spec P size t fs
    rw [hcall, ha.faults, h]
    rfl
  | _ =>
    simp only [Kernel.handle]
    repeat' split
    all_goals
      first
        | exact h
        | (simp only [Task.spend_faults, Task.opening_faults, h]
           rfl)

theorem run_faultless (p : KProg α) (fs : Fs) (h : t.faults = {}) : (p.run (Kernel.handle P) (t,fs)).2.1.faults = {} := by
  induction p generalizing t fs with
  | ret a => exact h
  | call c k ih =>
    have hstep := handle_faultless P c fs h
    simp only [Prog.run]
    rcases hcall : Kernel.handle P c (t,fs) with ⟨_ | r, t', fs'⟩
    · rw [hcall] at hstep
      exact hstep
    · rw [hcall] at hstep
      exact ih r fs' hstep

theorem runs_faultless {p : KProg α} {es : List Event} {a : Option α} {s : Kernel} (hp : Runs P p (t,fs) es a s)
    (h : t.faults = {}) : s.1.faults = {} := by
  have hrun := run_faultless P p fs h
  rw [hp.run] at hrun
  exact hrun

/-- All path buffers are granted. -/
theorem Faults.grants_none (n : ℕ) : Faults.Grants {} n := fun i _ => by simp

end Quiet

/-! ## Directories -/

/-- The names of a disk with what they link to. -/
theorem Fs.entry_update (fs : Fs) (path : Path) (s : Slot) :
    Fs.entry (Function.update fs path s) = Function.update fs.entry path s.now := by
  funext q
  by_cases h : q = path
  · subst h
    simp [Fs.entry]
  · simp [Fs.entry, h]

/-- A disk with one file holds nothing else. -/
theorem Fs.entry_ofList_of_ne {path q : Path} {c : List Byte} (h : q ≠ path) : (Fs.ofList [(path,c)]).entry q = none := by
  have hlookup : List.lookup q [(path,c)] = none := by
    rw [List.lookup_eq_none_iff]
    simp [h]
  rw [Fs.entry, Fs.ofList, hlookup]
  rfl

theorem Slot.of_entry {fs : Fs} {path : Path} {c : List Byte} (h : fs.entry path = some c) : ∃ past, fs path = ⟨past,some c⟩ :=
  ⟨(fs path).past,by rw [← h]; rfl⟩

/-- Nothing has the name yet, and it can be created: its directory is there. -/
structure Awaited (P : Platform) (fs : Fs) (path : Path) : Prop where
  free : fs.entry path = none
  directory : P.directory (parent path) = true

theorem Awaited.reach {P : Platform} {fs : Fs} {path : Path} (h : Awaited P fs path) : fs.reach P path true ≠ none := by
  rw [Fs.reach, h.directory, Bool.and_self, Slot.openInode_create]
  exact Option.some_ne_none _

/-- Whether a name can be opened for writing is decided by what it links to. -/
theorem Fs.reach_congr (P : Platform) {fs fs' : Fs} {path : Path} (h : fs'.entry path = fs.entry path)
    (hreach : fs.reach P path true ≠ none) : fs'.reach P path true ≠ none := by
  cases hd : P.directory (parent path) with
  | true =>
    rw [Fs.reach, hd, Bool.and_self, Slot.openInode_create]
    exact Option.some_ne_none _
  | false =>
    have hthere : fs'.entry path ≠ none := by
      rw [h]
      intro hnone
      apply hreach
      rw [Fs.reach, hd]
      exact Slot.openInode_missing hnone
    obtain ⟨c,hc⟩ := Option.ne_none_iff_exists'.mp hthere
    obtain ⟨past,hslot⟩ := Slot.of_entry hc
    rw [Fs.reach_found P hslot]
    exact Option.some_ne_none _

/-- A file behind a write of `z` at its beginning: creating an entry does not truncate what it finds. -/
def Fs.overwritten (fs : Fs) (path : Path) (z : List Byte) : List Byte := Bytes.overlay 0 ((fs.entry path).getD []) 0 z

theorem Awaited.overwritten {P : Platform} {fs : Fs} {path : Path} (h : Awaited P fs path) (z : List Byte) :
    fs.overwritten path z = z := by
  rw [Fs.overwritten, h.free]
  exact Bytes.overlay_start 0 z

/-- A file that was stored in full and then unlinked was moved. -/
theorem entry_shifted {fs fs' : Fs} {source target : Path} (past : List (List Byte)) {z : List Byte} (hz : fs'.entry target = some z)
    (hframe : ∀ path, path ≠ target → fs' path = fs path) (hne : source ≠ target) :
    Fs.entry (Function.update fs' source ⟨past,none⟩) = Archive.shifted fs.entry source target z := by
  rw [Fs.entry_update]
  funext path
  by_cases ht : path = target
  · subst ht
    rw [Function.update_of_ne (Ne.symm hne), hz, Archive.shifted, Function.update_self]
  · rw [Archive.shifted, Function.update_of_ne ht]
    by_cases hs : path = source
    · subst hs
      simp
    · simp only [Function.update_of_ne hs, Fs.entry, hframe path ht]

/-! ## The loops -/

section Loops
variable (P : Platform) {t : Task} {fs : Fs} {fRead fWrite : File} {past pastWrite : List (List Byte)} {c old K : List Byte}
  {key : Ptr}

/-- The last round of a copy without faults: at the end of the file, or where the position leaves the range of an `int`. -/
theorem Stops.quiet {k : ℕ} (hK : Stops [] [] c k) : copied [] [] c k = min c.length 2147483648 ∧ 0 ≤ readResult [] c k := by
  have hread : ∀ i, readResult [] c i = (min 4096 (c.length - 4096*i) : ℕ) := fun i => rfl
  have hin : 4096*k ≤ c.length := by
    rcases k with _ | k
    · exact Nat.zero_le _
    · exact (hK.1 k (Nat.lt_succ_self k)).bounds.1
  have hbound : 4096*k ≤ 2147483648 := hK.bound le_rfl
  refine ⟨?_,by rw [hread]; omega⟩
  by_cases hlt : 4096*k < 2147483648
  · have hwrite : writeResult [] [] c k = (min 4096 (c.length - 4096*k) : ℕ) := by
      rw [writeResult, if_pos (show PAGE_SIZE*k < 2147483648 from hlt), hread, Int.toNat_natCast]
      rfl
    have hshort : min 4096 (c.length - 4096*k) ≠ 4096 := by
      intro hfull
      apply hK.2
      rw [FullRound, hread, hwrite, hfull]
      exact ⟨rfl,rfl⟩
    rw [copied, hwrite, Int.toNat_natCast]
    simp only [PAGE_SIZE]
    omega
  · have hwrite : writeResult [] [] c k = einval := if_neg (show ¬ PAGE_SIZE*k < 2147483648 from hlt)
    have hnone : einval.toNat = 0 := rfl
    rw [copied, hwrite, hnone]
    simp only [PAGE_SIZE]
    omega

/-- The whole copy. -/
theorem copyLoop_quiet (hT : Transfer fRead fWrite past c old fs) (ht : t.faults = {}) {fuel : ℕ} (hfuel : c.length < fuel) :
    ∃ es t' fs', Runs P (copyLoop fRead fWrite fuel 0 0) (t,fs) es (some .finished) (t',fs') ∧
      fs'.entry fWrite.path = some (Bytes.overlay 0 old 0 (c.take 2147483648)) ∧
      ∀ path, path ≠ fWrite.path → fs' path = fs path := by
  obtain ⟨k,hK,hin⟩ := exists_stops [] [] c
  obtain ⟨hcopied,hread⟩ := hK.quiet
  have hstart : Copying fRead fWrite past c old (PAGE_SIZE*0) fs := ⟨hT,Nat.zero_le _⟩
  obtain ⟨t',fs',hrun,hcopy⟩ := copyLoop_run P hK (Nat.zero_le k) hstart (by rw [ht]; rfl) (by rw [ht]; rfl) fuel
  have hk : ¬ 0 + fuel ≤ k := by
    simp only [PAGE_SIZE] at hin
    omega
  rw [if_neg hk, if_neg hread.not_gt] at hrun
  have hloop : Runs P (copyLoop fRead fWrite fuel 0 0) (t,fs) _ _ _ := Does.of_run_log _ _
  have hwithin : Within (fun _ => True) (fun path => path = fWrite.path) t.cwd t.now (copyLoop fRead fWrite fuel 0 0) :=
    within_copyLoop (S := fun _ => True) (T := fun path => path = fWrite.path) trivial ⟨trivial,rfl⟩ _ _ _
  have hframe : ∀ path, path ≠ fWrite.path → _ := fun path h => hwithin.run_unchanged P fs h
  have hzero : (copyLoop fRead fWrite fuel 0 0).run (Kernel.handle P) (t,fs) = (some .finished,t',fs') := hrun
  rw [hzero] at hloop hframe
  refine ⟨_,t',fs',hloop,?_,hframe⟩
  have htarget := (hcopy (by omega)).transfer.entry
  rw [hcopied] at htarget
  have htake : c.take (min c.length 2147483648) = c.take 2147483648 := by rw [min_comm, ← List.take_eq_take_min]
  have hlen : (c.take 2147483648).length = min c.length 2147483648 := by rw [List.length_take, min_comm]
  rw [htake, ← hlen] at htarget
  rw [htarget, Bytes.overlay_of_le _ _ (Nat.zero_le _), List.take_zero, List.nil_append, Nat.zero_add]

/-- What is written depends on the pages and the stack of a task only. -/
theorem encodedFile_congr {t t' : Task} (hp : ∀ j, t.found j PAGE_SIZE = t'.found j PAGE_SIZE) (hs : leftover t.stack 4 = leftover t'.stack 4)
    (c : List Byte) : encodedFile P t c = encodedFile P t' c := by
  simp only [encodedFile, hp, hs]

/-- The whole of `compress_file`. -/
theorem compressFileXclone_quiet (hT : Transfer fRead fWrite past c old fs) (ht : t.faults = {}) :
    ∃ es err t' fs' k, Runs P (compressFileXclone fRead fWrite) (t,fs) es (some err) (t',fs') ∧ t'.faults = {} ∧
      Becomes t k t' ∧ fs'.entry fWrite.path = some (Bytes.overlay 0 old 0 (encodedFile P t.dig c)) ∧
      ∀ path, path ≠ fWrite.path → fs' path = fs path := by
  obtain ⟨n,hn⟩ : ∃ n, (CInt.toInt c.length).toNat = n := ⟨_,rfl⟩
  obtain ⟨a,⟨t',fs'⟩,hruns,-,hends⟩ := compressFileXclone_log P t hT hn
  obtain ⟨err,t'',fs'',hrun,hT'⟩ := compressFileXclone_run P hT ht
  have hsame := hruns.run.symm.trans hrun
  simp only [Prod.mk.injEq] at hsame
  obtain ⟨rfl,rfl,rfl⟩ := hsame
  obtain ⟨-,⟨k,hbec⟩,-,hframe⟩ := hends (Option.some_ne_none err)
  exact ⟨_,err,t',fs',k,hruns,runs_faultless P hruns ht,hbec,hT'.entry,hframe⟩

end Loops

/-! ## The operations one by one -/

/-- The blocks of a whole file. -/
def encryptedForm (P : Platform) (K c : List Byte) : List Byte := (Bytes.chunks 4080 c).flatMap (encryptChunk P K)

section Operations
variable (P : Platform) {t : Task} {fs : Fs} {fRead fWrite : File} {past pastWrite : List (List Byte)} {c old K : List Byte}
  {key : Ptr} {fname : Path}

/-- A fault-free unlink. -/
theorem vfsUnlink_quiet (hslot : fs fRead.path = ⟨past,some c⟩) (hinode : fRead.inode = past.length) (ht : t.faults = {}) :
    Kernel.handle P (.vfsUnlink fRead) (t,fs) =
      (some 0,t.spend .popUnlink,Function.update fs fRead.path ⟨past ++ [c],none⟩) := by
  rw [handle_vfsUnlink P hslot hinode, ht]
  rfl

variable (fWrite key) in
/-- The end of an encryption. -/
theorem removeOriginal_quiet (buf : Buf) (hslot : fs fRead.path = ⟨past,some c⟩) (hinode : fRead.inode = past.length)
    (ht : t.faults = {}) :
    ∃ es t', Runs P (do
        fileClose fRead
        let err ← kcall (.vfsUnlink fRead)
        fileClose fWrite
        kcall (.kfree (some buf.addr))
        kcall (.kfree key)
        return err) (t,fs) es (some 0) (t',Function.update fs fRead.path ⟨past ++ [c],none⟩) := by
  have hunlink := vfsUnlink_quiet P (t := t.closing fRead) hslot hinode ht
  exact ⟨_,_,(fileClose_runs P fRead t fs).bind ((Does.call hunlink).bind ((fileClose_runs P fWrite _ _).bind
    ((Does.call (handle_kfree P _ _ _)).bind ((Does.call (handle_kfree P _ _ _)).bind (Does.pure _ _)))))⟩

/-- The encryption of an open file and its unlink. -/
theorem encryptAndUnlink_quiet (buf : Buf) (hT : Transfer fRead fWrite pastWrite c old fs) (hslot : fs fRead.path = ⟨past,some c⟩)
    (hinode : fRead.inode = past.length) (hkey : t.keyIs key K) (ht : t.faults = {}) (hc : c.length ≤ 2139095040) :
    ∃ es t', Runs P (encryptAndUnlink fRead fWrite key buf (CInt.toInt c.length)) (t,fs) es (some 0)
      (t',Function.update (Function.update fs fWrite.path ⟨pastWrite,some (Bytes.overlay 0 old 0 (encryptedForm P K c))⟩)
        fRead.path ⟨past ++ [c],none⟩) := by
  obtain ⟨a,t₁,halloc,hfaults₁,-,hbec₁⟩ := kmalloc_ok P (t := t) fs (by rw [ht]; rfl) (8 * K.length)
  obtain ⟨t₂,ht₂⟩ : ∃ t₂, t₁.spend .popXattr = t₂ := ⟨_,rfl⟩
  have hquiet : t₂.faults = {} := by
    rw [← ht₂, Task.spend_faults, hfaults₁, ht]
    rfl
  have hio : FullIO t₂ := by
    constructor
    all_goals
      rw [hquiet]
    exact fun b hb => by cases hb
  have hkey₂ : t₂.keyIs key K := by
    rw [← ht₂]
    exact hbec₁.keyIs hkey
  obtain ⟨hstored,hends⟩ := encryptFile_run (P := P) hT hio hkey₂ hc
  have hend := hends (by rw [hquiet])
  obtain ⟨hfs,-,-⟩ := hstored hend
  have hloop : Runs P (encryptFile fRead fWrite key (CInt.toInt c.length)) (t₂,fs) _ _ _ := Does.of_run_log _ _
  obtain ⟨⟨b,t₃,fs₃⟩,hrun⟩ : ∃ e, (encryptFile fRead fWrite key (CInt.toInt c.length)).run (Kernel.handle P) (t₂,fs) = e := ⟨_,rfl⟩
  rw [hrun] at hend hfs hloop
  subst hend hfs
  have hquiet₃ : t₃.faults = {} := runs_faultless P hloop hquiet
  have hslot₃ : Function.update fs fWrite.path (⟨pastWrite,some (Bytes.overlay 0 old 0 (encryptedForm P K c))⟩ : Slot) fRead.path =
      ⟨past,some c⟩ := (Function.update_of_ne hT.apart _ _).trans hslot
  obtain ⟨es,t₄,hrest⟩ := removeOriginal_quiet P fWrite key buf hslot₃ hinode hquiet₃
  subst ht₂
  exact ⟨_,_,(Does.call (handle_readString P fs hkey)).bind ((Does.call halloc).bind
    ((Does.call (handle_vfsSetxattr P t₁ fs fWrite K)).bind (hloop.bind hrest)))⟩

/-- A run that returns `a` and leaves `d` for a directory. -/
def Leaves {α : Type} (P : Platform) (p : KProg α) (t : Task) (fs : Fs) (a : α) (d : Archive.Directory Path (List Byte)) : Prop :=
  ∃ es t' fs', Runs P p (t,fs) es (some a) (t',fs') ∧ fs'.entry = d

/-- A file that is there is opened. -/
theorem fileOpen_quiet (ht : t.faults = {}) (hslot : fs (resolve t.cwd fname) = ⟨past,some c⟩) :
    ∃ es t', Runs P (fileOpen fname false) (t,fs) es (some (.ok ⟨resolve t.cwd fname,past.length⟩)) (t',fs) ∧
      t'.faults = {} ∧ Becomes t 0 t' := by
  have hopen := fileOpen_runs P (t := t) (by rw [ht]; rfl) (Fs.reach_found P hslot false)
  rw [← hslot, Function.update_eq_self] at hopen
  exact ⟨_,_,hopen,runs_faultless P hopen ht,opening_becomes t _⟩

/-- A second file is created beside an open one. -/
theorem openTarget_quiet (name : Path) (ht : t.faults = {}) (hslot : fs fRead.path = ⟨past,some c⟩)
    (hinode : fRead.inode = past.length) (hne : fRead.path ≠ resolve t.cwd name)
    (hreach : fs.reach P (resolve t.cwd name) true ≠ none) :
    ∃ es f pastWrite t' fs', Runs P (fileOpen name true) (t,fs) es (some (.ok f)) (t',fs') ∧ f.path = resolve t.cwd name ∧
      Transfer fRead f pastWrite c ((fs.entry (resolve t.cwd name)).getD []) fs' ∧ fs' fRead.path = ⟨past,some c⟩ ∧ t'.faults = {} ∧ Becomes t 0 t' ∧
      ∀ path, path ≠ resolve t.cwd name → fs' path = fs path := by
  obtain ⟨f,pastWrite,t',fs',hopen,hpath,hT,hslot',-,hbec,hframe⟩ := openTarget_runs P fRead name (t := t) (by rw [ht]; rfl)
    hreach hslot hinode hne
  exact ⟨_,f,pastWrite,t',fs',hopen,hpath,hT,hslot',runs_faultless P hopen ht,hbec,hframe⟩

theorem processencryption_moves (ht : t.faults = {}) (hc : fs.entry (resolve t.cwd fname) = some c)
    (hreach : fs.reach P (resolve t.cwd (encName P t fname)) true ≠ none) (hkey : t.keyIs key K)
    (hsize : c.length ≤ 2139095040) :
    Leaves P (processencryption P fname key) t fs 0 (Archive.shifted fs.entry (resolve t.cwd fname)
      (resolve t.cwd (encName P t fname)) (fs.overwritten (resolve t.cwd (encName P t fname)) (encryptedForm P K c))) := by
  obtain ⟨past,hslot⟩ := Slot.of_entry hc
  have hne : resolve t.cwd fname ≠ resolve t.cwd (encName P t fname) := (resolve_trashName_ne (by decide) P _ _ _ _).symm
  have hstart : EncryptionStarts P t fs fname := by
    refine ⟨?_,?_,?_,hreach⟩
    · rw [ht]
      rfl
    · rw [ht]
      exact Faults.grants_none 4
    · rw [ht]
      rfl
  obtain ⟨t₁,fs₁,fWrite,buf,pastWrite,hT,hslot₁,hwrite,hfaults,hbec,hframe,hruns⟩ := processencryption_opens P key hstart hslot
  have ht₁ : t₁.faults = {} := by
    rw [hfaults, ht]
    rfl
  obtain ⟨es,t₂,hrest⟩ := encryptAndUnlink_quiet P buf hT hslot₁ rfl (hbec.keyIs hkey) ht₁ hsize
  refine ⟨_,_,_,hruns _ _ _ hrest,entry_shifted (past ++ [c]) ?_ ?_ hne⟩
  · rw [← hwrite]
    exact Fs.entry_of_eq rfl
  · intro path hpath
    rw [Function.update_of_ne (hwrite ▸ hpath), hframe path hpath]

/-- The copy of an open file and its unlink. -/
theorem copyAndUnlink_quiet (tempbuf1 tempbuf2 buf : Buf) (hT : Transfer fRead fWrite pastWrite c old fs)
    (hslot : fs fRead.path = ⟨past,some c⟩) (hinode : fRead.inode = past.length) (ht : t.faults = {}) {fuel : ℕ}
    (hfuel : c.length < fuel) :
    ∃ es t' fs', Runs P (copyAndUnlink fuel fRead fWrite tempbuf1 tempbuf2 buf) (t,fs) es (some (some 0))
        (t',Function.update fs' fRead.path ⟨past ++ [c],none⟩) ∧
      Fs.entry fs' fWrite.path = some (Bytes.overlay 0 old 0 (c.take 2147483648)) ∧ ∀ path, path ≠ fWrite.path → fs' path = fs path := by
  obtain ⟨es,t₁,fs₁,hcopy,hstored,hframe⟩ := copyLoop_quiet P hT ht hfuel
  have ht₁ : t₁.faults = {} := runs_faultless P hcopy ht
  have hslot₁ : fs₁ fRead.path = ⟨past,some c⟩ := (hframe _ hT.apart).trans hslot
  have hunlink := vfsUnlink_quiet P (t := t₁.closing fRead) hslot₁ hinode ht₁
  exact ⟨_,_,fs₁,hcopy.bind ((fileClose_runs P fRead t₁ fs₁).bind ((Does.call hunlink).bind ((fileClose_runs P fWrite _ _).bind
    ((freeBuffers_runs P _ _ _).bind (Does.pure _ _))))),hstored,hframe⟩

/-- A plain move under a `d_path` that bears `NULL`. -/
theorem processunlink_moves {fuel : ℕ} (hdpath : P.dPathNull (resolve t.cwd fname) = some (resolve t.cwd fname)) (ht : t.faults = {})
    (hc : fs.entry (resolve t.cwd fname) = some c) (hreach : fs.reach P (resolve t.cwd (moveName P t fname)) true ≠ none)
    (hfuel : c.length < fuel) :
    Leaves P (processunlink P fuel fname) t fs (some 0) (Archive.shifted fs.entry (resolve t.cwd fname)
      (resolve t.cwd (moveName P t fname)) (fs.overwritten (resolve t.cwd (moveName P t fname)) (c.take 2147483648))) := by
  obtain ⟨past,hslot⟩ := Slot.of_entry hc
  obtain ⟨a₁,t₁,hfirst,q₁⟩ := kmalloc_quiet P ht PAGE_SIZE fs
  obtain ⟨a₂,t₂,hsecond,q₂⟩ := kmalloc_quiet P q₁.faults PAGE_SIZE fs
  have hcwd : resolve t₂.cwd fname = resolve t.cwd fname := by rw [(q₁.trans q₂).cwd]
  rw [← hcwd] at hslot
  obtain ⟨es₃,t₃,hopen,ht₃,hbec₃⟩ := fileOpen_quiet P q₂.faults hslot
  obtain ⟨infile,hf⟩ : ∃ f, (⟨resolve t₂.cwd fname,past.length⟩ : File) = f := ⟨_,rfl⟩
  have hread : infile.path = resolve t.cwd fname := by rw [← hf, hcwd]
  have hinode : infile.inode = past.length := by rw [← hf]
  rw [hf] at hopen
  rw [hcwd, ← hread] at hslot
  obtain ⟨a₄,t₄,hname,q₄⟩ := kmalloc_quiet P ht₃ (4 + 9 + (dName infile).length + 26) fs
  have helapsed := (((q₁.trans q₂).toElapsed).trans hbec₃.toElapsed).trans q₄.toElapsed
  have hpath : resolve t₄.cwd (moveName P t fname) = resolve t.cwd (moveName P t fname) := by rw [helapsed.cwd]
  have hne : infile.path ≠ resolve t.cwd (moveName P t fname) := by
    rw [hread]
    exact (resolve_trashName_ne (by decide) P _ _ _ _).symm
  obtain ⟨es₅,trashbinfile,pastWrite,t₅,fs₅,hcreate,hwrite,hT,hslot₅,ht₅,-,hframe₅⟩ := openTarget_quiet P (moveName P t fname)
    q₄.faults hslot hinode (hpath.symm ▸ hne) (hpath.symm ▸ hreach)
  rw [hpath] at hwrite hframe₅ hT
  obtain ⟨es₆,t₆,fs₆,hcopy,hstored,hframe₆⟩ := copyAndUnlink_quiet P ⟨a₁,t.found 0 PAGE_SIZE⟩ ⟨a₂,t₁.found 0 PAGE_SIZE⟩
    ⟨a₄,t₃.found 0 (4 + 9 + (dName infile).length + 26)⟩ hT hslot₅ hinode ht₅ hfuel
  have hbare : dPath P infile none = pure infile.path := by rw [dPath, hread, hdpath]
  have hnamed : moveName P t fname = trashName P [] t.now infile.path [] := by rw [moveName, hread]
  rw [hnamed] at hcreate
  obtain ⟨es₇,hopened⟩ : ∃ es, Runs P (moveOpened P fuel infile ⟨a₁,t.found 0 PAGE_SIZE⟩ ⟨a₂,t₁.found 0 PAGE_SIZE⟩) (t₃,fs) es
      (some (some 0)) (t₆,Function.update fs₆ infile.path ⟨past ++ [c],none⟩) := by
    refine ⟨[] ++ ([] ++ ([] ++ (es₅ ++ es₆))),(Does.call hname).bind ((Does.call (handle_doGettimeofday P t₄ fs)).bind ?_)⟩
    rw [hbare, helapsed.now]
    exact (Does.pure _ _).bind (hcreate.bind hcopy)
  rw [← hread]
  refine ⟨_,_,_,(Does.call hfirst).bind ((Does.call hsecond).bind (hopen.bind hopened)),?_⟩
  refine entry_shifted _ (hwrite ▸ hstored) ?_ hne
  intro path hpath
  exact (hframe₆ path (hwrite ▸ hpath)).trans (hframe₅ path hpath)

/-- The task as it comes to the first page of `compress_file`: three path buffers, the name, and the allocation of four bytes
lie behind it. -/
def Task.atPages (t : Task) : Task := { t with garbage := t.garbage.drop 5 }

theorem Task.found_atPages (t : Task) (j size : ℕ) : t.atPages.found j size = t.found (5+j) size := by
  simp [atPages, found, List.getD_eq_getElem?_getD]

theorem Becomes.encodedFile {t' : Task} (h : Becomes t 4 t') (c : List Byte) : encodedFile P t'.dig c = encodedFile P t.atPages c := by
  have hg : t'.dig.garbage = t.atPages.garbage := by
    rw [Task.dig_garbage, h.garbage, ← List.drop_one, List.drop_drop]
    rfl
  apply encodedFile_congr
  · intro j
    rw [Task.found, hg, Task.found]
  · exact congrArg (leftover · 4) h.stack

/-- The beginning of both compressions. -/
theorem openNamed_quiet (ht : t.faults = {}) (hslot : fs (resolve t.cwd fname) = ⟨past,some c⟩) :
    ∃ t' buf, buf.bytes = t.found 3 PATH_MAX ∧ t'.faults = {} ∧ Becomes t 4 t' ∧
      ∀ {k : ℕ → Buf → File → KProg ℤ} {es a s}, Runs P (k t.now buf ⟨resolve t.cwd fname,past.length⟩) (t',fs) es a s →
        Runs P (openNamed fname k) (t,fs) (.opened fname false true :: es) a s := by
  have hstart : NamedOpen t fs fname := by
    refine ⟨?_,?_,?_⟩
    · rw [ht]
      exact Faults.grants_none 4
    · rw [ht]
      rfl
    · rw [Fs.entry, hslot]
      exact Option.some_ne_none c
  obtain ⟨t',buf,hbytes,hfaults,hbec,hruns⟩ := openNamed_runs P hstart hslot
  refine ⟨t',buf,hbytes,?_,hbec,hruns⟩
  rw [hfaults, ht]
  rfl

/-- The compression of an open file into a second one and its unlink; `before` is the disk before the second one was opened. -/
theorem compressAndUnlink_quiet {before : Fs} (hT : Transfer fRead fWrite pastWrite c old fs)
    (hbefore : ∀ path, path ≠ fWrite.path → fs path = before path) (hslot : fs fRead.path = ⟨past,some c⟩)
    (hinode : fRead.inode = past.length) (ht : t.faults = {}) :
    ∃ es t' fs' k, t'.faults = {} ∧ Becomes t k t' ∧
      Fs.entry fs' = Archive.shifted before.entry fRead.path fWrite.path (Bytes.overlay 0 old 0 (encodedFile P t.dig c)) ∧
      ∀ {rest : KProg ℤ} {es' a s}, Runs P rest (t',fs') es' a s →
        Runs P (compressFileXclone fRead fWrite >>= fun _ => fileClose fRead >>= fun _ => kcall (.vfsUnlink fRead) >>= fun _ =>
          fileClose fWrite >>= fun _ => rest) (t,fs) (es ++ es') a s := by
  obtain ⟨es,err,t₁,fs₁,k,hcompress,ht₁,hbec,hstored,hframe⟩ := compressFileXclone_quiet P hT ht
  have hslot₁ : fs₁ fRead.path = ⟨past,some c⟩ := (hframe _ hT.apart).trans hslot
  have hunlink := vfsUnlink_quiet P (t := t₁.closing fRead) hslot₁ hinode ht₁
  refine ⟨es ++ [.unlink fRead 0],((t₁.closing fRead).spend .popUnlink).closing fWrite,
    Function.update fs₁ fRead.path ⟨past ++ [c],none⟩,k + 0,?_,hbec.trans (Becomes.of_eq rfl rfl rfl rfl rfl),
    entry_shifted _ hstored (fun path hpath => (hframe path hpath).trans (hbefore path hpath)) hT.apart,fun hrest => ?_⟩
  · change t₁.faults.popUnlink = {}
    rw [ht₁]
    rfl
  · rw [List.append_assoc]
    exact hcompress.bind ((fileClose_runs P fRead t₁ fs₁).bind ((Does.call hunlink).bind ((fileClose_runs P fWrite _ _).bind hrest)))

theorem processcompress_moves (ht : t.faults = {}) (hc : fs.entry (resolve t.cwd fname) = some c)
    (hreach : fs.reach P (resolve t.cwd (cmpName P t fname)) true ≠ none) :
    Leaves P (processcompress P fname) t fs 0 (Archive.shifted fs.entry (resolve t.cwd fname) (resolve t.cwd (cmpName P t fname))
      (fs.overwritten (resolve t.cwd (cmpName P t fname)) (encodedFile P t.atPages c))) := by
  obtain ⟨past,hslot⟩ := Slot.of_entry hc
  obtain ⟨t₁,buf,hbytes,ht₁,hbec₁,hruns⟩ := openNamed_quiet P ht hslot
  obtain ⟨fRead,hf⟩ : ∃ f, (⟨resolve t.cwd fname,past.length⟩ : File) = f := ⟨_,rfl⟩
  have hread : fRead.path = resolve t.cwd fname := by rw [← hf]
  have hinode : fRead.inode = past.length := by rw [← hf]
  have hpath : resolve t₁.cwd (cmpName P t fname) = resolve t.cwd (cmpName P t fname) := by rw [hbec₁.cwd]
  have hne : fRead.path ≠ resolve t.cwd (cmpName P t fname) := by
    rw [hread]
    exact (resolve_trashName_ne (by decide) P _ _ _ _).symm
  rw [hf] at hruns
  rw [← hread] at hslot
  obtain ⟨es₂,fWrite,pastWrite,t₂,fs₂,hcreate,hwrite,hT,hslot₂,ht₂,hbec₂,hframe₂⟩ := openTarget_quiet P (cmpName P t fname) ht₁
    hslot hinode (hpath.symm ▸ hne) (hpath.symm ▸ hreach)
  rw [← hwrite] at hframe₂
  rw [hpath] at hwrite hT
  obtain ⟨es₃,t₃,fs₃,k,-,-,hshift,hend⟩ := compressAndUnlink_quiet P hT hframe₂ hslot₂ hinode ht₂
  rw [(hbec₁.trans hbec₂).encodedFile, hread, hwrite] at hshift
  have hnamed : trashName P (staleTail buf.bytes) t.now fRead.path cmpSuffix = cmpName P t fname := by
    rw [hread]
    exact cmpName_of P hbytes
  rw [← hnamed] at hcreate
  rw [processcompress_eq]
  refine ⟨_,_,fs₃,hruns ((Does.call (handle_iSizeRead P t₁ fs fRead)).bind (hcreate.bind
    (hend ((Does.call (handle_kfree P _ _ (some buf.addr))).bind (Does.pure 0 _))))),hshift⟩

/-- The second half of `process_enc_comp`. -/
theorem encryptTemp_moves (buf : Buf) (name : Path) (ht : t.faults = {}) (hc : fs.entry (resolve t.cwd tempTxt) = some c)
    (hne : resolve t.cwd tempTxt ≠ resolve t.cwd name) (hreach : fs.reach P (resolve t.cwd name) true ≠ none)
    (hkey : t.keyIs key K) (hsize : c.length ≤ 2139095040) :
    Leaves P (encryptTemp buf name key) t fs 0 (Archive.shifted fs.entry (resolve t.cwd tempTxt) (resolve t.cwd name)
      (fs.overwritten (resolve t.cwd name) (encryptedForm P K c))) := by
  obtain ⟨past,hslot⟩ := Slot.of_entry hc
  obtain ⟨es₁,t₁,hopen,ht₁,hbec₁⟩ := fileOpen_quiet P ht hslot
  obtain ⟨fRead,hf⟩ : ∃ f, (⟨resolve t.cwd tempTxt,past.length⟩ : File) = f := ⟨_,rfl⟩
  have hread : fRead.path = resolve t.cwd tempTxt := by rw [← hf]
  have hinode : fRead.inode = past.length := by rw [← hf]
  rw [hf] at hopen
  rw [← hread] at hslot hne
  have hpath : resolve t₁.cwd name = resolve t.cwd name := by rw [hbec₁.cwd]
  obtain ⟨es₂,fWrite,pastWrite,t₂,fs₂,hcreate,hwrite,hT,hslot₂,ht₂,hbec₂,hframe⟩ := openTarget_quiet P name ht₁ hslot hinode
    (hpath.symm ▸ hne) (hpath.symm ▸ hreach)
  rw [hpath] at hwrite hframe hT
  obtain ⟨es₃,t₃,hrest⟩ := encryptAndUnlink_quiet P buf hT hslot₂ hinode ((hbec₁.trans hbec₂).keyIs hkey) ht₂ hsize
  have hsized := handle_iSizeRead P t₂ fs₂ fRead
  rw [hT.source] at hsized
  rw [← hread]
  refine ⟨_,_,_,hopen.bind (hcreate.bind ((Does.call hsized).bind hrest)),?_⟩
  refine entry_shifted (past ++ [c]) ?_ ?_ hne
  · rw [← hwrite]
    exact Fs.entry_of_eq rfl
  · intro path hpath
    rw [Function.update_of_ne (hwrite ▸ hpath), hframe path hpath]

theorem tempTxt_ne_trashName (cwd cwd' : Path) {suffix : Path} (hsuffix : '/' ∉ suffix) (stale : List Char) (getTime : ℕ)
    (path : Path) : resolve cwd tempTxt ≠ resolve cwd' (trashName P stale getTime path suffix) := by
  intro h
  obtain ⟨front,hfront⟩ := resolve_trashName P hsuffix stale getTime path cwd'
  exact not_suffix_tempTxt P hsuffix getTime path cwd ⟨front,(h.trans hfront).symm⟩

variable (t c) in
/-- Few bytes are left of a file by `compress_file`, whatever its size. -/
theorem length_encodedFile_small : (encodedFile P t c).length ≤ 2139095040 := by
  have hle := length_encodedFile_le P (t := t) c
  have hchunks := Bytes.length_chunks (show 0 < 4080 by omega) (c.take (CInt.toInt c.length).toNat)
  have hint := (toInt_le c.length).2
  rw [List.length_take] at hchunks
  omega

/-- The two moves of `process_enc_comp`. -/
theorem processEncComp_moves (ht : t.faults = {}) (hc : fs.entry (resolve t.cwd fname) = some c)
    (hne : resolve t.cwd fname ≠ resolve t.cwd tempTxt) (htemp : fs.reach P (resolve t.cwd tempTxt) true ≠ none)
    (hreach : fs.reach P (resolve t.cwd (encCompName P t fname)) true ≠ none) (hkey : t.keyIs key K) {z : List Byte}
    (hz : fs.overwritten (resolve t.cwd tempTxt) (encodedFile P t.atPages c) = z) (hsize : z.length ≤ 2139095040) :
    Leaves P (processEncComp P fname key) t fs 0 (Archive.shifted
      (Archive.shifted fs.entry (resolve t.cwd fname) (resolve t.cwd tempTxt) z)
      (resolve t.cwd tempTxt) (resolve t.cwd (encCompName P t fname))
      (fs.overwritten (resolve t.cwd (encCompName P t fname)) (encryptedForm P K z))) := by
  obtain ⟨past,hslot⟩ := Slot.of_entry hc
  obtain ⟨t₁,buf,hbytes,ht₁,hbec₁,hruns⟩ := openNamed_quiet P ht hslot
  obtain ⟨fRead,hf⟩ : ∃ f, (⟨resolve t.cwd fname,past.length⟩ : File) = f := ⟨_,rfl⟩
  have hread : fRead.path = resolve t.cwd fname := by rw [← hf]
  have hinode : fRead.inode = past.length := by rw [← hf]
  have hcwd₁ : resolve t₁.cwd tempTxt = resolve t.cwd tempTxt := by rw [hbec₁.cwd]
  rw [hf] at hruns
  rw [← hread] at hslot hne
  obtain ⟨es₂,fTemp,pastTemp,t₂,fs₂,hcreate,hwrite,hT,hslot₂,ht₂,hbec₂,hframe₂⟩ := openTarget_quiet P tempTxt ht₁
    hslot hinode (hcwd₁.symm ▸ hne) (hcwd₁.symm ▸ htemp)
  rw [← hwrite] at hframe₂
  rw [hcwd₁] at hwrite hT
  -- the first half is a move to `temp.txt`
  obtain ⟨es₃,t₃,fs₃,k,ht₃,hbec₃,hhalf,hend⟩ := compressAndUnlink_quiet P hT hframe₂ hslot₂ hinode ht₂
  rw [(hbec₁.trans hbec₂).encodedFile, hwrite, ← Fs.overwritten, hz] at hhalf
  have hbec := (hbec₁.trans hbec₂).trans hbec₃
  have hcwd : resolve t₃.cwd tempTxt = resolve t.cwd tempTxt := by rw [hbec.cwd]
  have hpath : resolve t₃.cwd (encCompName P t fname) = resolve t.cwd (encCompName P t fname) := by rw [hbec.cwd]
  have hscratch : resolve t.cwd tempTxt ≠ resolve t.cwd (encCompName P t fname) :=
    tempTxt_ne_trashName P _ _ (by decide) _ _ _
  have hleaves : resolve t.cwd (encCompName P t fname) ≠ fRead.path := by
    rw [hread]
    exact resolve_trashName_ne (by decide) P _ _ _ _
  have hfilled : fs₃.entry (resolve t₃.cwd tempTxt) = some z := by
    rw [hcwd, hhalf]
    exact Function.update_self _ _ _
  have hthere : fs₃.entry (resolve t.cwd (encCompName P t fname)) = fs.entry (resolve t.cwd (encCompName P t fname)) := by
    rw [hhalf, Archive.shifted, Function.update_of_ne hscratch.symm, Function.update_of_ne hleaves]
  have hstill : fs₃.reach P (resolve t₃.cwd (encCompName P t fname)) true ≠ none := by
    rw [hpath]
    exact Fs.reach_congr P hthere hreach
  obtain ⟨es₄,t₄,fs₄,hrest,hsecond⟩ := encryptTemp_moves P buf (encCompName P t fname) ht₃ hfilled
    (by rw [hcwd, hpath]; exact hscratch) hstill (hbec.keyIs hkey) hsize
  have hnamed : trashName P (staleTail buf.bytes) t.now fRead.path (encSuffix ++ cmpSuffix) = encCompName P t fname := by
    rw [hbytes, hread]
    rfl
  rw [← hnamed] at hrest
  rw [processEncComp_eq, ← hread]
  refine ⟨_,_,_,hruns (hcreate.bind (hend hrest)),?_⟩
  rw [hsecond, hhalf, hcwd, hpath, Fs.overwritten, hthere, ← Fs.overwritten]

/-! ### Files that are not there -/

theorem fileOpen_missing (ht : t.faults = {}) (hc : fs.entry (resolve t.cwd fname) = none) :
    ∃ es e t', Runs P (fileOpen fname false) (t,fs) es (some (.error e)) (t',fs) ∧ t'.faults = {} := by
  obtain ⟨e,hopen⟩ := fileOpen_fails P fname false (t := t) (.inr (Fs.reach_missing P hc))
  exact ⟨_,e,_,hopen,runs_faultless P hopen ht⟩

theorem processunlink_missing (fuel : ℕ) (ht : t.faults = {}) (hc : fs.entry (resolve t.cwd fname) = none) :
    ∃ es t', Runs P (processunlink P fuel fname) (t,fs) es (some (some (-EPERM))) (t',fs) := by
  obtain ⟨a₁,t₁,hfirst,q₁⟩ := kmalloc_quiet P ht PAGE_SIZE fs
  obtain ⟨a₂,t₂,hsecond,q₂⟩ := kmalloc_quiet P q₁.faults PAGE_SIZE fs
  have hmiss : fs.entry (resolve t₂.cwd fname) = none := by rw [(q₁.trans q₂).cwd, hc]
  obtain ⟨es₃,e,t₃,hopen,-⟩ := fileOpen_missing P q₂.faults hmiss
  exact ⟨_,_,(Does.call hfirst).bind ((Does.call hsecond).bind (hopen.bind ((freeBuffers_runs P _ _ _).bind (Does.pure _ _))))⟩

theorem processencryption_missing (key : Ptr) (ht : t.faults = {}) (hc : fs.entry (resolve t.cwd fname) = none) :
    ∃ es t', Runs P (processencryption P fname key) (t,fs) es (some (-EPERM)) (t',fs) := by
  obtain ⟨es,e,t',hopen,-⟩ := fileOpen_missing P ht hc
  exact ⟨_,_,hopen.bind (Does.pure _ _)⟩

theorem openNamed_missing (k : ℕ → Buf → File → KProg ℤ) (ht : t.faults = {}) (hc : fs.entry (resolve t.cwd fname) = none) :
    ∃ es t', Runs P (openNamed fname k) (t,fs) es (some (-EPERM)) (t',fs) := by
  obtain ⟨b,t₁,hbufs,hgrants,hfaults,hbec₁,-⟩ := pathBuffers_runs P 3 t fs
  obtain rfl := hgrants.mpr (by rw [ht]; exact Faults.grants_none 3)
  have ht₁ : t₁.faults = {} := runs_faultless P hbufs ht
  obtain ⟨a,t₂,hname,q₂⟩ := kmalloc_quiet P ht₁ PATH_MAX fs
  have hcwd : t₂.cwd = t.cwd := q₂.cwd.trans (hbec₁ rfl).cwd
  have hmiss : fs.entry (resolve t₂.cwd fname) = none := by rw [hcwd, hc]
  obtain ⟨es₃,e,t₃,hopen,-⟩ := fileOpen_missing P q₂.faults hmiss
  exact ⟨_,_,hbufs.bind ((Does.call (handle_doGettimeofday P t₁ fs)).bind ((Does.call hname).bind (hopen.bind (Does.pure _ _))))⟩

end Operations

/-! ## The two stages together -/

/-- The disk when a run has come to its end. -/
def diskAfter {α : Type} (P : Platform) (p : KProg α) (t : Task) (fs : Fs) : Fs := (p.run (Kernel.handle P) (t,fs)).2.2

/-- Nothing will fail, the file is there with these bytes, and the name of its entry is free. -/
structure Prepared (P : Platform) (t : Task) (fs : Fs) (fname name : Path) (c : List Byte) : Prop where
  faultless : t.faults = {}
  file : fs.entry (resolve t.cwd fname) = some c
  entry : Awaited P fs (resolve t.cwd name)

theorem Leaves.diskAfter {α : Type} {P : Platform} {p : KProg α} {t : Task} {fs : Fs} {a : α}
    {d : Archive.Directory Path (List Byte)} (h : Leaves P p t fs a d) : (diskAfter P p t fs).entry = d := by
  obtain ⟨es,t',fs',hruns,hd⟩ := h
  rw [XClone.diskAfter, hruns.run, hd]

/-- A compression to a free name. -/
theorem Prepared.compressed {P : Platform} {t : Task} {fs : Fs} {fname : Path} {c : List Byte}
    (h : Prepared P t fs fname (cmpName P t fname) c) : (diskAfter P (processcompress P fname) t fs).entry =
      Archive.shifted fs.entry (resolve t.cwd fname) (resolve t.cwd (cmpName P t fname)) (encodedFile P t.atPages c) := by
  rw [(processcompress_moves P h.faultless h.file h.entry.reach).diskAfter, h.entry.overwritten]

/-- An encryption to a free name. -/
theorem Prepared.encrypted {P : Platform} {t : Task} {fs : Fs} {fname : Path} {key : Ptr} {c K : List Byte}
    (h : Prepared P t fs fname (encName P t fname) c) (hkey : t.keyIs key K) (hsize : c.length ≤ 2139095040) :
    (diskAfter P (processencryption P fname key) t fs).entry =
      Archive.shifted fs.entry (resolve t.cwd fname) (resolve t.cwd (encName P t fname)) (encryptedForm P K c) := by
  rw [(processencryption_moves P h.faultless h.file h.entry.reach hkey hsize).diskAfter, h.entry.overwritten]

/-- Both stages to free names. -/
theorem Prepared.both {P : Platform} {t : Task} {fs : Fs} {fname : Path} {key : Ptr} {c K : List Byte}
    (h : Prepared P t fs fname (encCompName P t fname) c) (htemp : Awaited P fs (resolve t.cwd tempTxt)) (hkey : t.keyIs key K) :
    (diskAfter P (processEncComp P fname key) t fs).entry = Archive.shifted fs.entry (resolve t.cwd fname)
      (resolve t.cwd (encCompName P t fname)) (encryptedForm P K (encodedFile P t.atPages c)) := by
  have hne : resolve t.cwd fname ≠ resolve t.cwd tempTxt := by
    intro heq
    have hfree := htemp.free
    rw [← heq, h.file] at hfree
    cases hfree
  rw [(processEncComp_moves P h.faultless h.file hne htemp.reach h.entry.reach hkey (htemp.overwritten _)
    (length_encodedFile_small P t.atPages c)).diskAfter, h.entry.overwritten]
  exact Archive.shifted_shifted htemp.free hne (tempTxt_ne_trashName P _ _ (by decide) _ _ _) _ _

/-- What `process_enc_comp` leaves is what `processencryption` leaves of a file with the bytes that `processcompress` leaves,
out of the same pages and under the same key. The original is gone, and so is `temp.txt`; no other name has changed. -/
theorem encComp_composes (P : Platform) {t t₁ t₂ : Task} {fs fs₁ fs₂ : Fs} {fname fname₁ fname₂ : Path} {key key₂ : Ptr}
    {c z K : List Byte} (h : Prepared P t fs fname (encCompName P t fname) c)
    (htemp : Awaited P fs (resolve t.cwd tempTxt)) (hkey : t.keyIs key K)
    (h₁ : Prepared P t₁ fs₁ fname₁ (cmpName P t₁ fname₁) c)
    (hpages : ∀ j, t₁.found (5+j) PAGE_SIZE = t.found (5+j) PAGE_SIZE) (hstack : leftover t₁.stack 4 = leftover t.stack 4)
    (hz : (diskAfter P (processcompress P fname₁) t₁ fs₁).entry (resolve t₁.cwd (cmpName P t₁ fname₁)) = some z)
    (h₂ : Prepared P t₂ fs₂ fname₂ (encName P t₂ fname₂) z) (hkey₂ : t₂.keyIs key₂ K) :
    let done := diskAfter P (processEncComp P fname key) t fs
    (∃ e, done.entry (resolve t.cwd (encCompName P t fname)) = some e ∧
      (diskAfter P (processencryption P fname₂ key₂) t₂ fs₂).entry (resolve t₂.cwd (encName P t₂ fname₂)) = some e) ∧
    done.entry (resolve t.cwd fname) = none ∧ done.entry (resolve t.cwd tempTxt) = none ∧
    ∀ path, path ≠ resolve t.cwd (encCompName P t fname) → path ≠ resolve t.cwd fname → done.entry path = fs.entry path := by
  intro done
  have hdone : done.entry = Archive.shifted fs.entry (resolve t.cwd fname) (resolve t.cwd (encCompName P t fname))
      (encryptedForm P K (encodedFile P t.atPages c)) := h.both htemp hkey
  have hcompressed : z = encodedFile P t.atPages c := by
    rw [h₁.compressed, Archive.shifted, Function.update_self] at hz
    rw [← Option.some.inj hz]
    apply encodedFile_congr
    · intro j
      rw [Task.found_atPages, Task.found_atPages, hpages]
    · exact hstack
  have hsmall : z.length ≤ 2139095040 := hcompressed ▸ length_encodedFile_small P t.atPages c
  have hencrypted := h₂.encrypted hkey₂ hsmall
  have hleaves : resolve t.cwd fname ≠ resolve t.cwd (encCompName P t fname) := (resolve_trashName_ne (by decide) P _ _ _ _).symm
  have hscratch : resolve t.cwd tempTxt ≠ resolve t.cwd (encCompName P t fname) :=
    tempTxt_ne_trashName P _ _ (by decide) _ _ _
  have hother : resolve t.cwd tempTxt ≠ resolve t.cwd fname := by
    intro heq
    have hfree := htemp.free
    rw [heq, h.file] at hfree
    cases hfree
  rw [hdone, hencrypted, ← hcompressed]
  refine ⟨⟨encryptedForm P K z,Function.update_self _ _ _,Function.update_self _ _ _⟩,?_,?_,?_⟩
  · rw [Archive.shifted, Function.update_of_ne hleaves, Function.update_self]
  · rw [Archive.shifted, Function.update_of_ne hscratch, Function.update_of_ne hother, htemp.free]
  · intro path hpath hsource
    rw [Archive.shifted, Function.update_of_ne hpath, Function.update_of_ne hsource]

/-- Both ways for `/a` of two chunks, the second with the entry of the compression itself. -/
theorem encComp_composes_chunks :
    let t := (Task.fresh ['/'] 0 {}).withKey [107,0]
    let fs := Fs.ofList [(['/','a'],List.replicate 4081 7)]
    let name := cmpName .bare t ['/','a']
    let done := diskAfter .bare (processEncComp .bare ['/','a'] (some 0)) t fs
    (∃ e, done.entry (resolve ['/'] (encCompName .bare t ['/','a'])) = some e ∧
      (diskAfter .bare (processencryption .bare name (some 0)) t
        (diskAfter .bare (processcompress .bare ['/','a']) t fs)).entry (resolve ['/'] (encName .bare t name)) = some e) ∧
    done.entry ['/','a'] = none ∧ done.entry (resolve ['/'] tempTxt) = none ∧
    ∀ path, path ≠ resolve ['/'] (encCompName .bare t ['/','a']) → path ≠ ['/','a'] → done.entry path = fs.entry path := by
  intro t fs name done
  have hnames : resolve ['/'] name ≠ ['/','a'] ∧ resolve ['/'] (encCompName .bare t ['/','a']) ≠ ['/','a'] ∧
      resolve ['/'] (encName .bare t name) ≠ ['/','a'] ∧ resolve ['/'] (encName .bare t name) ≠ resolve ['/'] name := by
    decide +kernel
  have hempty : ∀ path, path ≠ ['/','a'] → fs.entry path = none := fun path => Fs.entry_ofList_of_ne
  have hfirst : Prepared .bare t fs ['/','a'] name (List.replicate 4081 7) := ⟨rfl,rfl,hempty _ hnames.1,rfl⟩
  have hcompressed := hfirst.compressed
  have hstored : (diskAfter .bare (processcompress .bare ['/','a']) t fs).entry (resolve ['/'] name) =
      some (encodedFile .bare t.atPages (List.replicate 4081 7)) := by
    rw [hcompressed]
    exact Function.update_self _ _ _
  have hsecond : Awaited .bare (diskAfter .bare (processcompress .bare ['/','a']) t fs) (resolve ['/'] (encName .bare t name)) := by
    refine ⟨?_,rfl⟩
    rw [hcompressed]
    refine (Function.update_of_ne hnames.2.2.2 _ _).trans ((Function.update_of_ne hnames.2.2.1 _ _).trans ?_)
    exact hempty _ hnames.2.2.1
  exact encComp_composes .bare ⟨rfl,rfl,hempty _ hnames.2.1,rfl⟩ ⟨hempty _ (by decide),rfl⟩ rfl hfirst (fun _ => rfl) rfl
    hstored ⟨rfl,hstored,hsecond⟩ rfl

/-! ## The system call -/

def Operation.encrypts : Operation → Bool
  | .encrypt => true
  | .encComp => true
  | _ => false

namespace Request

/-- The key as the cipher reads it. -/
def keyString (q : Request) : List Byte := ((q.encKey.bind q.task.heap.live).map cString).getD []

/-- Where the entry comes to lie; the buffer of its name is the fourth allocation of an operation that does not clear it. -/
def entryPath (P : Platform) (q : Request) (op : Operation) : Path :=
  resolve q.task.cwd (NameRequest.name P ⟨op,q.task.found 3 PATH_MAX,q.task.now,q.original⟩)

/-- What is stored of a file. -/
def form (P : Platform) (q : Request) (op : Operation) (c : List Byte) : List Byte :=
  match op with
  | .move => c.take 2147483648
  | .compress => encodedFile P q.task.atPages c
  | .encrypt => encryptedForm P q.keyString c
  | .encComp => encryptedForm P q.keyString (encodedFile P q.task.atPages c)

/-- What `process_enc_comp` finds of its scratch file when it encrypts it. -/
def scratch (P : Platform) (q : Request) (fs : Fs) (c : List Byte) : List Byte :=
  fs.overwritten (resolve q.task.cwd tempTxt) (encodedFile P q.task.atPages c)

/-- What is in the entry behind the call, whatever was there before. -/
def stored (P : Platform) (q : Request) (op : Operation) (fs : Fs) (c : List Byte) : List Byte :=
  fs.overwritten (q.entryPath P op) (match op with
    | .move => c.take 2147483648
    | .compress => encodedFile P q.task.atPages c
    | .encrypt => encryptedForm P q.keyString c
    | .encComp => encryptedForm P q.keyString (q.scratch P fs c))

/-- The directory behind the call. -/
def directory (P : Platform) (q : Request) (op : Operation) (fs : Fs) (c : List Byte) : Archive.Directory Path (List Byte) :=
  if op = .encComp then Archive.shifted
    (Archive.shifted fs.entry q.original (resolve q.task.cwd tempTxt) (q.scratch P fs c))
    (resolve q.task.cwd tempTxt) (q.entryPath P op) (q.stored P op fs c)
  else Archive.shifted fs.entry q.original (q.entryPath P op) (q.stored P op fs c)

/-- No call fails: the key is there where it is used, `d_path` bears its `NULL` where it is given one, the entry and the
scratch file are there or can be created, and what is read is not too large for the counters or the budget of rounds. -/
structure Proceeds (P : Platform) (fuel : ℕ) (q : Request) (op : Operation) (fs : Fs) (c : List Byte) : Prop where
  word : q.flag = op.word
  faultless : q.task.faults = {}
  key : op.encrypts = true → (q.encKey.bind q.task.heap.live).isSome
  path : op = .move → P.dPathNull q.original = some q.original
  entry : fs.reach P (q.entryPath P op) true ≠ none
  scratch : op = .encComp → q.original ≠ resolve q.task.cwd tempTxt ∧ fs.reach P (resolve q.task.cwd tempTxt) true ≠ none ∧
    (q.scratch P fs c).length ≤ 2139095040
  small : (op = .move → c.length < fuel) ∧ (op = .encrypt → c.length ≤ 2139095040)

/-- No call fails, and neither the entry nor a scratch file is there yet. -/
structure Sound (P : Platform) (fuel : ℕ) (q : Request) (op : Operation) (fs : Fs) : Prop where
  word : q.flag = op.word
  faultless : q.task.faults = {}
  key : op.encrypts = true → (q.encKey.bind q.task.heap.live).isSome
  path : op = .move → P.dPathNull q.original = some q.original
  entry : Awaited P fs (q.entryPath P op)
  scratch : op = .encComp → Awaited P fs (resolve q.task.cwd tempTxt)
  small : ∀ c, fs.entry q.original = some c → (op = .move → c.length < fuel) ∧ (op = .encrypt → c.length ≤ 2139095040)

section Free
variable {P : Platform} {fuel : ℕ} {q : Request} {op : Operation} {fs : Fs} {c : List Byte}

theorem Sound.scratch_eq (hq : q.Sound P fuel op fs) (h : op = .encComp) : q.scratch P fs c = encodedFile P q.task.atPages c := by
  rw [Request.scratch, (hq.scratch h).overwritten]

theorem Sound.stored_eq (hq : q.Sound P fuel op fs) : q.stored P op fs c = q.form P op c := by
  unfold stored
  rw [hq.entry.overwritten]
  cases op with
  | encComp => exact congrArg (encryptedForm P q.keyString) (hq.scratch_eq rfl)
  | _ => rfl

theorem Sound.original_ne (hq : q.Sound P fuel op fs) (hc : fs.entry q.original = some c) (h : op = .encComp) :
    q.original ≠ resolve q.task.cwd tempTxt := by
  intro heq
  have hfree := (hq.scratch h).free
  rw [← heq, hc] at hfree
  cases hfree

theorem Sound.proceeds (hq : q.Sound P fuel op fs) (hc : fs.entry q.original = some c) : q.Proceeds P fuel op fs c where
  word := hq.word
  faultless := hq.faultless
  key := hq.key
  path := hq.path
  entry := hq.entry.reach
  scratch h := ⟨hq.original_ne hc h,(hq.scratch h).reach,hq.scratch_eq h ▸ length_encodedFile_small P q.task.atPages c⟩
  small := hq.small c hc

/-- Through a free scratch file the original is moved to its entry, and nothing else happens. -/
theorem Sound.directory_eq (hq : q.Sound P fuel op fs) (hc : fs.entry q.original = some c) :
    q.directory P op fs c = Archive.shifted fs.entry q.original (q.entryPath P op) (q.form P op c) := by
  rw [directory, hq.stored_eq]
  split
  next h =>
    subst h
    have hsuffix : '/' ∉ encSuffix ++ cmpSuffix := by decide
    exact Archive.shifted_shifted (hq.scratch rfl).free (hq.original_ne hc rfl) (tempTxt_ne_trashName P _ _ hsuffix _ _ _) _ _
  next => rfl

end Free

theorem keyIs_keyString {q : Request} (h : (q.encKey.bind q.task.heap.live).isSome) : q.task.keyIs q.encKey q.keyString := by
  obtain ⟨bytes,hb⟩ := Option.isSome_iff_exists.mp h
  simp [Task.keyIs, keyString, hb]

end Request

section Calls
variable (P : Platform) {fuel : ℕ} {q : Request} {op : Operation} {fs : Fs} {c : List Byte}

/-- The disk after the call. -/
def Request.after (P : Platform) (fuel : ℕ) (q : Request) (fs : Fs) : Fs := (q.alone P fuel fs).2.2

/-- The results of three operations are dropped by the call. -/
theorem Leaves.dropped {p : KProg ℤ} {t : Task} {a : ℤ} {d : Archive.Directory Path (List Byte)} (h : Leaves P p t fs a d) :
    Leaves P (p >>= fun _ => pure (some (0 : ℤ))) t fs (some 0) d := by
  obtain ⟨es,t',fs',hruns,hfs⟩ := h
  exact ⟨_,t',fs',hruns.bind (Does.pure _ _),hfs⟩

/-- The file is moved by the operation of the word. -/
theorem Request.Proceeds.leaves (hq : q.Proceeds P fuel op fs c) (hc : fs.entry q.original = some c) :
    Leaves P (q.program P fuel) q.task fs (some 0) (q.directory P op fs c) := by
  obtain ⟨hfuel,hsize⟩ := hq.small
  have hreach := hq.entry
  have hkey := fun h => Request.keyIs_keyString (hq.key h)
  rw [Request.program, hq.word]
  cases op with
  | move =>
    rw [Operation.word, syscall_move]
    exact processunlink_moves P (hq.path rfl) hq.faultless hc hreach (hfuel rfl)
  | compress =>
    rw [Operation.word, syscall_compress]
    exact (processcompress_moves P hq.faultless hc hreach).dropped
  | encrypt =>
    rw [Operation.word, syscall_encrypt]
    exact (processencryption_moves P hq.faultless hc hreach (hkey rfl) (hsize rfl)).dropped
  | encComp =>
    obtain ⟨hne,htemp,hsmall⟩ := hq.scratch rfl
    rw [Operation.word, syscall_encComp]
    exact (processEncComp_moves P hq.faultless hc hne htemp hreach (hkey rfl) rfl hsmall).dropped

/-- A call in which nothing fails returns zero, and has moved the file under the name of its entry, in the form of its operation.
No other name has changed. -/
theorem request_moves (hq : q.Sound P fuel op fs) (hc : fs.entry q.original = some c) :
    ∃ t' fs', q.alone P fuel fs = (some (some 0),t',fs') ∧
      fs'.entry = Archive.shifted fs.entry q.original (q.entryPath P op) (q.form P op c) := by
  obtain ⟨es,t',fs',hruns,hfs⟩ := (hq.proceeds hc).leaves P hc
  exact ⟨t',fs',hruns.run,hfs.trans (hq.directory_eq hc)⟩

theorem Request.Proceeds.after_entry (hq : q.Proceeds P fuel op fs c) (hc : fs.entry q.original = some c) :
    (q.after P fuel fs).entry = q.directory P op fs c := by
  obtain ⟨es,t',fs',hruns,hfs⟩ := hq.leaves P hc
  rw [Request.after, Request.alone, hruns.run, hfs]

theorem Request.Sound.after_entry (hq : q.Sound P fuel op fs) (hc : fs.entry q.original = some c) :
    (q.after P fuel fs).entry = Archive.shifted fs.entry q.original (q.entryPath P op) (q.form P op c) := by
  rw [(hq.proceeds hc).after_entry P hc, hq.directory_eq hc]

/-- Where there is no file, nothing happens to the disk. -/
theorem Request.after_missing (op : Operation) (hword : q.flag = op.word) (ht : q.task.faults = {})
    (hc : fs.entry q.original = none) : q.after P fuel fs = fs := by
  obtain ⟨es,a,t',hruns⟩ : ∃ es a t', Runs P (q.program P fuel) (q.task,fs) es (some a) (t',fs) := by
    rw [Request.program, hword]
    cases op with
    | move =>
      rw [Operation.word, syscall_move]
      obtain ⟨es,t',hruns⟩ := processunlink_missing P fuel ht hc
      exact ⟨es,_,t',hruns⟩
    | compress =>
      rw [Operation.word, syscall_compress]
      obtain ⟨es,t',hruns⟩ := openNamed_missing P _ ht hc
      exact ⟨_,_,t',Does.bind hruns (Does.pure _ _)⟩
    | encrypt =>
      rw [Operation.word, syscall_encrypt]
      obtain ⟨es,t',hruns⟩ := processencryption_missing P q.encKey ht hc
      exact ⟨_,_,t',Does.bind hruns (Does.pure _ _)⟩
    | encComp =>
      rw [Operation.word, syscall_encComp]
      obtain ⟨es,t',hruns⟩ := openNamed_missing P _ ht hc
      exact ⟨_,_,t',Does.bind hruns (Does.pure _ _)⟩
  rw [Request.after, Request.alone, hruns.run]

end Calls

/-- The one byte of `/a` through both stages. -/
theorem request_moves_encComp :
    let q : Request := ⟨4087,['/','a'],4087,some 0,(Task.fresh ['/'] 0 {}).withKey [107,0]⟩
    ∃ t' fs', q.alone .bare 1 oneByte = (some (some 0),t',fs') ∧
      fs'.entry = Archive.shifted oneByte.entry ['/','a'] (q.entryPath .bare .encComp) (q.form .bare .encComp [7]) := by
  intro q
  have hsound : q.Sound .bare 1 .encComp oneByte := by
    refine ⟨rfl,rfl,(fun _ => rfl),(fun h => by cases h),⟨by decide +kernel,rfl⟩,(fun _ => ⟨by decide +kernel,rfl⟩),?_⟩
    intro c _
    exact ⟨(fun h => by cases h),(fun h => by cases h)⟩
  exact request_moves .bare hsound rfl

end XClone
