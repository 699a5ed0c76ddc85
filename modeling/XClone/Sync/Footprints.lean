import XClone.Library.Footprint
import XClone.Sync.Syscall
import XClone.Sync.ShortReads
import XClone.Sync.Names

/-! # The files a request comes to

A request opens its original, a trash entry that carries the time and the path of the original,
and with both compression and encryption `temp.txt`. Whatever fails, it comes to no other file.
-/
namespace XClone
open Effects Prog

/-- The calls on files stay within `S`, and change files of `T` only. -/
def CallWithin (S T : Path → Prop) (cwd : Path) : Call → Prop
  | .filpOpen name create => S (resolve cwd name) ∧ (create = true → T (resolve cwd name))
  | .iSizeRead f => S f.path
  | .vfsRead f _ _ => S f.path
  | .vfsReadNull f _ _ => S f.path
  | .vfsWrite f _ _ _ => S f.path ∧ T f.path
  | .vfsUnlink f => S f.path ∧ T f.path
  | _ => True

/-- What a task of this directory and time is answered. -/
def AnswersFrom (cwd : Path) (now : ℕ) : (c : Call) → Answer c → Prop
  | .filpOpen name _, r => ∀ f, r = .ok f → f.path = resolve cwd name
  | .doGettimeofday, getTime => getTime = now
  | _, _ => True

/-- A program that stays within `S` and changes files of `T` only. -/
abbrev Within {α : Type} (S T : Path → Prop) (cwd : Path) (now : ℕ) (p : KProg α) : Prop :=
  Obeys (CallWithin S T cwd) (AnswersFrom cwd now) p

section Handler
variable (P : Platform)

theorem handle_surroundings (c : Call) (t : Task) (fs : Fs) :
    (Kernel.handle P c (t,fs)).2.1.cwd = t.cwd ∧ (Kernel.handle P c (t,fs)).2.1.now = t.now := by
  cases c with
  | kmalloc size =>
    obtain ⟨r,t',hcall,ha⟩ := kmalloc_spec P size t fs
    rw [hcall]
    exact ⟨ha.cwd,ha.now⟩
  | _ =>
    refine ⟨?_,?_⟩
    all_goals
      simp only [Kernel.handle]
      repeat' split
    all_goals rfl

theorem handle_answersFrom (c : Call) (t : Task) (fs : Fs) (r : Answer c) (hr : (Kernel.handle P c (t,fs)).1 = some r) :
    AnswersFrom t.cwd t.now c r := by
  cases c with
  | filpOpen name create =>
    rintro f rfl
    simp only [Kernel.handle] at hr
    split at hr
    · cases hr
    · split at hr
      · cases hr
      · cases hr
        rfl
  | doGettimeofday => exact (Option.some.inj hr).symm
  | _ => trivial

/-- The contract keeps a task within the set. -/
theorem within_confines {S T : Path → Prop} (cwd : Path) (now : ℕ) :
    (sharing P).Confines (CallWithin S T cwd) (AnswersFrom cwd now) (fun t => t.cwd = cwd ∧ t.now = now) S where
  answers := by
    rintro c t fs r - ⟨rfl,rfl⟩ hr
    exact handle_answersFrom P c t fs r hr
  keeps := by
    rintro c t fs - ⟨rfl,rfl⟩
    exact handle_surroundings P c t fs
  within := by
    rintro c t path hc ⟨rfl,-⟩ hpath
    cases c with
    | filpOpen name create => exact Option.some.inj hpath ▸ hc.1
    | iSizeRead f => exact Option.some.inj hpath ▸ hc
    | vfsRead f pos len => exact Option.some.inj hpath ▸ hc
    | vfsReadNull f pos len => exact Option.some.inj hpath ▸ hc
    | vfsWrite f pos buf len => exact Option.some.inj hpath ▸ hc.1
    | vfsUnlink f => exact Option.some.inj hpath ▸ hc.1
    | _ => cases hpath

/-- An open that creates nothing, and a read, leave every file as it is. -/
theorem handle_unchanged {S T : Path → Prop} {c : Call} {t : Task} (fs : Fs) (hc : CallWithin S T t.cwd c) {path : Path}
    (hpath : ¬ T path) : (Kernel.handle P c (t,fs)).2.2 path = fs path := by
  cases c with
  | filpOpen name create =>
    cases create with
    | true =>
      refine handle_frame P _ t fs (fun h => hpath ?_)
      rw [← Option.some.inj h]
      exact hc.2 rfl
    | false =>
      simp only [Kernel.handle]
      split
      · rfl
      · split
        · rfl
        · rename_i s hs
          have hsame : s = fs (resolve t.cwd name) := by
            unfold Slot.openInode at hs
            split at hs
            · exact (congrArg Prod.snd (Option.some.inj hs)).symm
            · cases hs
          rw [hsame, Function.update_eq_self]
  | vfsWrite f pos buf len =>
    refine handle_frame P _ t fs (fun h => hpath ?_)
    rw [← Option.some.inj h]
    exact hc.2
  | vfsUnlink f =>
    refine handle_frame P _ t fs (fun h => hpath ?_)
    rw [← Option.some.inj h]
    exact hc.2
  | _ =>
    simp only [Kernel.handle]
    repeat' split
    all_goals rfl

/-- A run changes files of `T` only. -/
theorem Within.run_unchanged {α : Type} {S T : Path → Prop} {p : KProg α} {t : Task} (fs : Fs)
    (hp : Within S T t.cwd t.now p) {path : Path} (hpath : ¬ T path) : (p.run (Kernel.handle P) (t,fs)).2.2 path = fs path := by
  have hkeeps := hp.run_preserves (h := Kernel.handle P)
    (I := fun s => (s.1.cwd = t.cwd ∧ s.1.now = t.now) ∧ s.2 path = fs path) ?_ ?_ (s := (t,fs)) ⟨⟨rfl,rfl⟩,rfl⟩
  · exact hkeeps.2
  · rintro c ⟨t',fs'⟩ r - ⟨⟨hcwd,hnow⟩,-⟩ hr
    rw [← hcwd, ← hnow]
    exact handle_answersFrom P c t' fs' r hr
  · rintro c ⟨t',fs'⟩ hc ⟨⟨hcwd,hnow⟩,hfs⟩
    obtain ⟨hcwd',hnow'⟩ := handle_surroundings P c t' fs'
    refine ⟨⟨hcwd'.trans hcwd,hnow'.trans hnow⟩,?_⟩
    exact (handle_unchanged P fs' (hcwd ▸ hc) hpath).trans hfs

end Handler

/-! ## The helpers -/

section Helpers
variable {S T : Path → Prop} {cwd : Path} {now : ℕ}

theorem within_fileOpen {path : Path} {create : Bool} (h : S (resolve cwd path)) (hT : create = true → T (resolve cwd path)) :
    Meets (CallWithin S T cwd) (AnswersFrom cwd now) (fun r => ∀ f, r = .ok f → f.path = resolve cwd path)
      (fileOpen path create) :=
  Meets.bind (Obeys.call trivial) (fun _ _ => Meets.bind (Obeys.call trivial) (fun _ _ =>
    Meets.perform ⟨h,hT⟩ (fun _ hr => hr)))

theorem within_fileRead {f : File} (h : S f.path) (offset len : ℤ) : Within S T cwd now (fileRead f offset len) :=
  (Obeys.call trivial).bind (fun _ => (Obeys.call trivial).bind (fun _ => (Obeys.call h).bind (fun _ =>
    (Obeys.call trivial).bind (fun _ => Obeys.pure _))))

theorem within_fileWrite {f : File} (h : S f.path ∧ T f.path) (offset : ℤ) (buf : List Byte) (len : ℤ) :
    Within S T cwd now (fileWrite f offset buf len) :=
  (Obeys.call trivial).bind (fun _ => (Obeys.call trivial).bind (fun _ => (Obeys.call h).bind (fun _ =>
    (Obeys.call trivial).bind (fun _ => Obeys.pure _))))

theorem within_fileReadInto {f : File} (h : S f.path) (buff : Option Buf) (offset len : ℤ) :
    Within S T cwd now (fileReadInto f buff offset len) := by
  refine (Obeys.call trivial).bind (fun _ => (Obeys.call trivial).bind (fun _ => Meets.bind (Q := fun _ => True) ?_ (fun _ _ =>
    (Obeys.call trivial).bind (fun _ => Obeys.pure _))))
  cases buff with
  | none => exact (Obeys.call h).bind (fun _ => Obeys.pure _)
  | some b => exact (Obeys.call h).bind (fun _ => Obeys.pure _)

/-- A write through `NULL` changes nothing. -/
theorem within_vfsWriteFrom {f : File} (h : S f.path ∧ T f.path) (pos : ℤ) (contents : Option (List Byte)) (len : ℤ) :
    Within S T cwd now (vfsWriteFrom f pos contents len) := by
  cases contents with
  | none => exact Obeys.call trivial
  | some bytes => exact Obeys.call h

theorem within_fileWriteFrom {f : File} (h : S f.path ∧ T f.path) (offset : ℤ) (contents : Option (List Byte)) (len : ℤ) :
    Within S T cwd now (fileWriteFrom f offset contents len) :=
  (Obeys.call trivial).bind (fun _ => (Obeys.call trivial).bind (fun _ => (within_vfsWriteFrom h _ _ _).bind (fun _ =>
    (Obeys.call trivial).bind (fun _ => Obeys.pure _))))

theorem within_freeBuffers (bufs : List Buf) : Within S T cwd now (freeBuffers bufs) :=
  Contract.freeBuffers (fun _ _ => trivial)

theorem within_freePages (buff3 buff4 : Option Buf) : Within S T cwd now (freePages buff3 buff4) :=
  Contract.freePages trivial trivial

theorem within_die {α : Type} : Within S T cwd now (die : KProg α) := (Obeys.call trivial).bind (fun e => nomatch e)

theorem within_storeOutput (buff : Option Buf) (out : List Byte) : Within S T cwd now (storeOutput buff out) := by
  cases buff with
  | some b => exact Obeys.pure _
  | none =>
    rw [storeOutput]
    split
    · exact Obeys.pure _
    · exact within_die

theorem within_pathBuffers (n : ℕ) : Within S T cwd now (pathBuffers n) := by
  induction n with
  | zero => exact Obeys.pure _
  | succ n ih =>
    refine (Obeys.call trivial).bind (fun r => ?_)
    cases r with
    | none => exact Obeys.pure _
    | some b => exact ih

section Loops
variable {fRead fWrite : File} (hr : S fRead.path) (hw : S fWrite.path ∧ T fWrite.path)
include hr hw

theorem within_copyLoop (fuel : ℕ) (pagesread totalBytesWritten : ℤ) :
    Within S T cwd now (copyLoop fRead fWrite fuel pagesread totalBytesWritten) := by
  induction fuel generalizing pagesread totalBytesWritten with
  | zero => exact Obeys.pure _
  | succ fuel ih =>
    refine (within_fileRead hr _ _).bind (fun r => ?_)
    by_cases hneg : r.1 < 0
    · simp only [if_pos hneg]
      exact Obeys.pure _
    · simp only [if_neg hneg]
      refine (within_fileWrite hw _ _ _).bind (fun w => ?_)
      split
      · exact ih _ _
      · exact Obeys.pure _

omit hr hw in
theorem within_compressBuffer (inBuf : List Byte) (inLen : ℤ) (outBuf : Option Buf) (outLen : Option ℤ) :
    Within S T cwd now (compressBuffer inBuf inLen outBuf outLen) := by
  refine (Obeys.call trivial).bind (fun tfm => ?_)
  by_cases htfm : tfm < 0
  · simp only [if_pos htfm]
    exact within_die
  · simp only [if_neg htfm]
    refine (Obeys.call trivial).bind (fun x => ?_)
    split
    · exact Obeys.pure _
    · exact (within_storeOutput _ _).bind (fun _ => Obeys.pure _)

theorem within_compressRound (buff3 buff4 : Option Buf) (outLen : Option ℤ) (tei : List Byte) (tempSize pos wpos : ℤ) :
    Within S T cwd now (compressRound fRead fWrite buff3 buff4 outLen tei tempSize pos wpos) := by
  refine (within_fileReadInto hr _ _ _).bind (fun r => (within_compressBuffer _ _ _ _).bind (fun x => ?_))
  by_cases hneg : x.1 < 0
  · simp only [if_pos hneg]
    exact (within_freePages _ _).bind (fun _ => Obeys.pure _)
  · simp only [if_neg hneg]
    exact (Obeys.call trivial).bind (fun _ => (Obeys.call trivial).bind (fun _ => (Obeys.call hw).bind (fun _ =>
      (within_vfsWriteFrom hw _ _ _).bind (fun _ => (Obeys.call trivial).bind (fun _ => (within_freePages _ _).bind (fun _ =>
        Obeys.pure _))))))

theorem within_compressLoop (outLen : Option ℤ) (rounds : ℕ) (err : ℤ) (tei : List Byte) (fsize pos wpos : ℤ) :
    Within S T cwd now (compressLoop fRead fWrite outLen rounds err tei fsize pos wpos) := by
  induction rounds generalizing err tei fsize pos wpos with
  | zero => exact Obeys.pure _
  | succ rounds ih =>
    rw [compressLoop]
    split
    · refine (Obeys.call trivial).bind (fun b₃ => (Obeys.call trivial).bind (fun b₄ => ?_))
      refine (within_compressRound hr hw _ _ _ _ _ _ _).bind (fun r => ?_)
      cases r with
      | error e => exact Obeys.pure _
      | ok r => exact ih _ _ _ _ _
    · exact Obeys.pure _

theorem within_compressFileXclone : Within S T cwd now (compressFileXclone fRead fWrite) :=
  (Obeys.call trivial).bind (fun _ => (Obeys.call trivial).bind (fun _ => (Obeys.call hr).bind (fun _ =>
    within_compressLoop hr hw _ _ _ _ _ _ _)))

omit hr hw in
theorem within_cloneEncryption (keyBytes : List Byte) (dst : Option Buf) (src : List Byte) (srcLen : ℕ) :
    Within S T cwd now (cloneEncryption keyBytes dst src srcLen) := by
  refine (Obeys.call trivial).bind (fun tfm => ?_)
  by_cases hneg : tfm < 0
  · rw [if_pos hneg]
    exact Obeys.pure _
  · rw [if_neg hneg]
    exact (Obeys.call trivial).bind (fun _ => (Obeys.call trivial).bind (fun _ => (within_storeOutput _ _).bind (fun _ =>
      Obeys.pure _)))

theorem within_encryptRound (key : Ptr) (buff3 buff4 : Option Buf) (tempSize pos wpos : ℤ) :
    Within S T cwd now (encryptRound fRead fWrite key buff3 buff4 tempSize pos wpos) := by
  refine (within_fileReadInto hr _ _ _).bind (fun r => (Obeys.call trivial).bind (fun _ =>
    (within_cloneEncryption _ _ _ _).bind (fun x => ?_)))
  by_cases hneg : x.1 < 0
  · simp only [if_pos hneg]
    exact (within_freePages _ _).bind (fun _ => Obeys.pure _)
  · simp only [if_neg hneg]
    exact (within_fileWriteFrom hw _ _ _).bind (fun _ => (within_freePages _ _).bind (fun _ => Obeys.pure _))

theorem within_encryptLoop (key : Ptr) (rounds : ℕ) (fsize pos wpos : ℤ) :
    Within S T cwd now (encryptLoop fRead fWrite key rounds fsize pos wpos) := by
  induction rounds generalizing fsize pos wpos with
  | zero => exact Obeys.pure _
  | succ rounds ih =>
    rw [encryptLoop]
    split
    · refine (Obeys.call trivial).bind (fun b₃ => (Obeys.call trivial).bind (fun b₄ => ?_))
      refine (within_encryptRound hr hw _ _ _ _ _ _).bind (fun r => ?_)
      cases r with
      | error e => exact (Obeys.call trivial).bind (fun _ => Obeys.pure _)
      | ok r => exact ih _ _ _
    · exact Obeys.pure _

/-- The loop and the end of an encryption. -/
theorem within_encrypted (hT : T fRead.path) (key : Ptr) (b : Buf) (fsize : ℤ) :
    Within S T cwd now (encryptFile fRead fWrite key fsize >>= fun r => match r with
      | some err => return err
      | none => do
        fileClose fRead
        let err ← kcall (.vfsUnlink fRead)
        fileClose fWrite
        kcall (.kfree (some b.addr))
        kcall (.kfree key)
        return err) := by
  refine (within_encryptLoop hr hw _ _ _ _ _).bind (fun r => ?_)
  cases r with
  | some err => exact Obeys.pure _
  | none =>
    exact (Obeys.call trivial).bind (fun _ => (Obeys.call ⟨hr,hT⟩).bind (fun _ => (Obeys.call trivial).bind (fun _ =>
      (Obeys.call trivial).bind (fun _ => (Obeys.call trivial).bind (fun _ => Obeys.pure _)))))

end Loops

end Helpers

/-! ## The names of entries -/

/-- The last component of the name of an entry. -/
def entryText (P : Platform) (now : ℕ) (original suffix : Path) : Path := timeStamp P now ++ strreplace original ++ suffix

section Names
variable (P : Platform) {x y : Path}

theorem slash_notMem_entryText (now : ℕ) (original : Path) (hx : '/' ∉ x) : '/' ∉ entryText P now original x := by
  simp [entryText, slash_notMem_timeStamp, slash_notMem_strreplace, hx]

/-- Whatever an uncleared buffer puts into the middle of a name, its last component is the same. -/
theorem resolve_trashName (hx : '/' ∉ x) (stale : List Char) (now : ℕ) (original cwd : Path) :
    ∃ front, resolve cwd (trashName P stale now original x) = front ++ '/' :: entryText P now original x := by
  have hname : trashName P stale now original x = (usr ++ stale ++ trashbin) ++ '/' :: entryText P now original x := by
    simp [trashName, entryText]
  have hmem : '_' ∈ entryText P now original x := by
    rw [entryText, timeStamp_eq]
    simp
  rw [hname]
  exact resolve_component (slash_notMem_entryText P now original hx) hmem (by decide) cwd _

/-- `temp.txt` is no name of the trashbin. -/
theorem not_suffix_tempTxt (hx : '/' ∉ x) (now : ℕ) (original cwd : Path) :
    ¬ ('/' :: entryText P now original x) <:+ resolve cwd tempTxt := by
  rintro ⟨front,hfront⟩
  obtain ⟨dirs,hdirs⟩ := resolve_eq_absolute cwd tempTxt
  obtain ⟨front',hfront'⟩ := absolute_cons tempTxt dirs
  have hslash : '/' ∉ tempTxt := by decide
  rw [hdirs, walk_component hslash, List.nil_append, enter_of_mem (show 't' ∈ tempTxt by decide) (by decide),
    hfront'] at hfront
  have htext := (Digits.append_cons_inj_last (slash_notMem_entryText P now original hx) hslash hfront).2
  have hmem : '_' ∈ tempTxt := by
    rw [← htext, entryText, timeStamp_eq]
    simp
  exact absurd hmem (by decide)

theorem entryText_of_resolve (hx : '/' ∉ x) (hy : '/' ∉ y) {stale stale' : List Char} {s t : ℕ} {p q cwd cwd' : Path}
    (h : resolve cwd (trashName P stale s p x) = resolve cwd' (trashName P stale' t q y)) :
    entryText P s p x = entryText P t q y := by
  obtain ⟨front,hfront⟩ := resolve_trashName P hx stale s p cwd
  obtain ⟨front',hfront'⟩ := resolve_trashName P hy stale' t q cwd'
  rw [hfront, hfront'] at h
  exact (Digits.append_cons_inj_last (slash_notMem_entryText P s p hx) (slash_notMem_entryText P t q hy) h).2

end Names

/-! ## The operations -/

/-- The files of a request: its original, the entries of its name, and `temp.txt` where it is used. -/
def Reaches (P : Platform) (cwd : Path) (now : ℕ) (op : Operation) (fname path : Path) : Prop :=
  path = resolve cwd fname ∨ (∃ stale, path = resolve cwd (trashName P stale now (resolve cwd fname) op.suffix)) ∨
    (op = .encComp ∧ path = resolve cwd tempTxt)

section Operations
variable {P : Platform} {S : Path → Prop} {cwd : Path} {now : ℕ} {fname : Path}

theorem within_dPath (hpath : ∀ path path', P.dPathNull path = some path' → path' = path) {T : Path → Prop} (f : File)
    (size : Option ℕ) : Meets (CallWithin S T cwd) (AnswersFrom cwd now) (fun path => path = f.path) (dPath P f size) := by
  cases size with
  | some n => exact rfl
  | none =>
    cases hd : P.dPathNull f.path with
    | none =>
      rw [dPath, hd]
      exact Meets.bind (Obeys.call trivial) (fun e => e.elim)
    | some path =>
      rw [dPath, hd]
      exact hpath _ _ hd

theorem within_time {α : Type} {T : Path → Prop} {f : ℕ → KProg α} (hf : Within S T cwd now (f now)) :
    Within S T cwd now (kcall .doGettimeofday >>= f) := by
  refine Meets.bind (Q := fun getTime => getTime = now) (Meets.perform trivial (fun _ h => h)) ?_
  rintro _ rfl
  exact hf

/-- An original that is opened, and what is done with it. -/
theorem within_original {α : Type} {create : Bool} {name : Path} {f : Except ℤ File → KProg α} (hS : S (resolve cwd name))
    (hf : ∀ r, (∀ g, r = .ok g → g.path = resolve cwd name) → Within S S cwd now (f r)) :
    Within S S cwd now (fileOpen name create >>= f) := Meets.bind (within_fileOpen hS (fun _ => hS)) hf

theorem within_processunlink (hpath : ∀ path path', P.dPathNull path = some path' → path' = path) (fuel : ℕ) (h : ∀ path, Reaches P cwd now .move fname path → S path) :
    Within S S cwd now (processunlink P fuel fname) := by
  have hsource : S (resolve cwd fname) := h _ (.inl rfl)
  refine (Obeys.call trivial).bind (fun b₁ => (Obeys.call trivial).bind (fun b₂ => ?_))
  rcases b₁ with _ | b₁
  · exact Obeys.pure _
  rcases b₂ with _ | b₂
  · exact Obeys.pure _
  refine within_original hsource (fun r hr => ?_)
  cases r with
  | error e => exact (within_freeBuffers _).bind (fun _ => Obeys.pure _)
  | ok infile =>
    have hplace := hr infile rfl
    have hin : S infile.path := hplace ▸ hsource
    have hname : S (resolve cwd (trashName P [] now infile.path [])) :=
      h _ (.inr (.inl ⟨[],by rw [hplace]; rfl⟩))
    refine (Obeys.call trivial).bind (fun b₃ => ?_)
    cases b₃ with
    | none => exact (Obeys.call trivial).bind (fun _ => (within_freeBuffers _).bind (fun _ => Obeys.pure _))
    | some b₃ =>
      refine within_time (Meets.bind (within_dPath hpath infile none) ?_)
      rintro _ rfl
      refine within_original hname (fun r hr => ?_)
      cases r with
      | error e => exact (Obeys.call trivial).bind (fun _ => (within_freeBuffers _).bind (fun _ => Obeys.pure _))
      | ok trashbinfile =>
        have hout : S trashbinfile.path := hr trashbinfile rfl ▸ hname
        refine (within_copyLoop hin ⟨hout,hout⟩ _ _ _).bind (fun exit => ?_)
        cases exit with
        | running => exact Obeys.pure _
        | readFailed =>
          exact (Obeys.call trivial).bind (fun _ => (Obeys.call trivial).bind (fun _ => (within_freeBuffers _).bind (fun _ =>
            Obeys.pure _)))
        | finished =>
          exact (Obeys.call trivial).bind (fun _ => (Obeys.call ⟨hin,hin⟩).bind (fun _ => (Obeys.call trivial).bind (fun _ =>
            (within_freeBuffers _).bind (fun _ => Obeys.pure _))))

theorem within_processencryption (key : Ptr) (h : ∀ path, Reaches P cwd now .encrypt fname path → S path) :
    Within S S cwd now (processencryption P fname key) := by
  have hsource : S (resolve cwd fname) := h _ (.inl rfl)
  refine within_original hsource (fun r hr => ?_)
  cases r with
  | error e => exact Obeys.pure _
  | ok fRead =>
    have hpath := hr fRead rfl
    have hin : S fRead.path := hpath ▸ hsource
    refine (within_pathBuffers _).bind (fun granted => ?_)
    cases granted with
    | false => exact Obeys.pure _
    | true =>
      refine within_time ((Obeys.call trivial).bind (fun b => ?_))
      cases b with
      | none => exact within_die
      | some b =>
        have hname : S (resolve cwd (trashName P (staleTail b.bytes) now fRead.path encSuffix)) :=
          h _ (.inr (.inl ⟨_,by rw [hpath]; rfl⟩))
        refine (Obeys.call hin).bind (fun _ => within_original hname (fun r hr => ?_))
        cases r with
        | error e => exact Obeys.pure _
        | ok fWrite =>
          have hout : S fWrite.path := hr fWrite rfl ▸ hname
          exact (Obeys.call trivial).bind (fun _ => (Obeys.call trivial).bind (fun _ => (Obeys.call trivial).bind (fun _ =>
            within_encrypted hin ⟨hout,hout⟩ hin _ _ _)))

/-- The common beginning of both compressions. -/
theorem within_openNamed {k : ℕ → Buf → File → KProg ℤ} (hS : S (resolve cwd fname))
    (hk : ∀ b f, f.path = resolve cwd fname → Within S S cwd now (k now b f)) : Within S S cwd now (openNamed fname k) := by
  refine (within_pathBuffers _).bind (fun granted => ?_)
  cases granted with
  | false => exact Obeys.pure _
  | true =>
    refine within_time ((Obeys.call trivial).bind (fun b => ?_))
    cases b with
    | none => exact within_die
    | some b =>
      refine within_original hS (fun r hr => ?_)
      cases r with
      | error e => exact Obeys.pure _
      | ok fRead => exact hk b fRead (hr fRead rfl)

theorem within_processcompress (h : ∀ path, Reaches P cwd now .compress fname path → S path) :
    Within S S cwd now (processcompress P fname) := by
  have hsource : S (resolve cwd fname) := h _ (.inl rfl)
  rw [processcompress_eq]
  refine within_openNamed hsource (fun b fRead hpath => ?_)
  have hin : S fRead.path := hpath ▸ hsource
  have hname : S (resolve cwd (trashName P (staleTail b.bytes) now fRead.path cmpSuffix)) :=
    h _ (.inr (.inl ⟨_,by rw [hpath]; rfl⟩))
  refine (Obeys.call hin).bind (fun _ => within_original hname (fun r hr => ?_))
  cases r with
  | error e => exact Obeys.pure _
  | ok fWrite =>
    have hout : S fWrite.path := hr fWrite rfl ▸ hname
    exact (within_compressFileXclone hin ⟨hout,hout⟩).bind (fun _ => (Obeys.call trivial).bind (fun _ =>
      (Obeys.call ⟨hin,hin⟩).bind (fun _ => (Obeys.call trivial).bind (fun _ => (Obeys.call trivial).bind (fun _ =>
        Obeys.pure _)))))

theorem within_processEncComp (key : Ptr) (h : ∀ path, Reaches P cwd now .encComp fname path → S path) :
    Within S S cwd now (processEncComp P fname key) := by
  have hsource : S (resolve cwd fname) := h _ (.inl rfl)
  have htemp : S (resolve cwd tempTxt) := h _ (.inr (.inr ⟨rfl,rfl⟩))
  rw [processEncComp_eq]
  refine within_openNamed hsource (fun b fRead hpath => within_original htemp (fun r hr => ?_))
  have hin : S fRead.path := hpath ▸ hsource
  have hname : S (resolve cwd (trashName P (staleTail b.bytes) now fRead.path (encSuffix ++ cmpSuffix))) :=
    h _ (.inr (.inl ⟨_,by rw [hpath]; rfl⟩))
  cases r with
  | error e => exact Obeys.pure _
  | ok fTemp =>
    have hscratch : S fTemp.path := hr fTemp rfl ▸ htemp
    refine (within_compressFileXclone hin ⟨hscratch,hscratch⟩).bind (fun _ => (Obeys.call trivial).bind (fun _ =>
      (Obeys.call ⟨hin,hin⟩).bind (fun _ => (Obeys.call trivial).bind (fun _ => within_original htemp (fun r hr => ?_)))))
    cases r with
    | error e => exact Obeys.pure _
    | ok fAgain =>
      have hagain : S fAgain.path := hr fAgain rfl ▸ htemp
      refine within_original hname (fun r hr => (Obeys.call hagain).bind (fun _ => (Obeys.call trivial).bind (fun _ =>
        (Obeys.call trivial).bind (fun _ => ?_))))
      cases r with
      | error e => exact within_die
      | ok fWrite =>
        have hout : S fWrite.path := hr fWrite rfl ▸ hname
        exact (Obeys.call trivial).bind (fun _ => within_encrypted hagain ⟨hout,hout⟩ hagain _ _ _)

end Operations

/-! ## The system call -/

/-- The flag word of an operation. -/
def Operation.word : Operation → BitVec 64
  | .move => 4081
  | .compress => 4083
  | .encrypt => 4085
  | .encComp => 4087

/-- One call of `xclone2`: what it is given, and the task it is made in. -/
structure Request where
  flag : BitVec 64
  fname : Path
  b1 : BitVec 32
  encKey : Ptr
  task : Task

namespace Request

/-- The path of the original. -/
def original (q : Request) : Path := resolve q.task.cwd q.fname

def program (P : Platform) (fuel : ℕ) (q : Request) : KProg (Option ℤ) := syscall P fuel q.encKey q.flag q.fname q.b1

/-- The files of the call; other words than the four come to none. -/
def ReachesFile (P : Platform) (q : Request) (path : Path) : Prop :=
  ∃ op : Operation, q.flag = op.word ∧ Reaches P q.task.cwd q.task.now op q.fname path

theorem within_program {P : Platform} (hpath : ∀ path path', P.dPathNull path = some path' → path' = path) (fuel : ℕ)
    (q : Request) : Within (q.ReachesFile P) (q.ReachesFile P) q.task.cwd q.task.now (q.program P fuel) := by
  rw [program]
  by_cases h1 : q.flag = 4081
  · have hw : Within (q.ReachesFile P) (q.ReachesFile P) q.task.cwd q.task.now (processunlink P fuel q.fname) :=
      within_processunlink hpath fuel (fun path h => ⟨.move,h1,h⟩)
    rw [h1, syscall_move]
    exact hw
  by_cases h2 : q.flag = 4083
  · have hw : Within (q.ReachesFile P) (q.ReachesFile P) q.task.cwd q.task.now (processcompress P q.fname) :=
      within_processcompress (fun path h => ⟨.compress,h2,h⟩)
    rw [h2, syscall_compress]
    exact hw.bind (fun _ => Obeys.pure _)
  by_cases h3 : q.flag = 4085
  · have hw : Within (q.ReachesFile P) (q.ReachesFile P) q.task.cwd q.task.now (processencryption P q.fname q.encKey) :=
      within_processencryption q.encKey (fun path h => ⟨.encrypt,h3,h⟩)
    rw [h3, syscall_encrypt]
    exact hw.bind (fun _ => Obeys.pure _)
  by_cases h4 : q.flag = 4087
  · have hw : Within (q.ReachesFile P) (q.ReachesFile P) q.task.cwd q.task.now (processEncComp P q.fname q.encKey) :=
      within_processEncComp q.encKey (fun path h => ⟨.encComp,h4,h⟩)
    rw [h4, syscall_encComp]
    exact hw.bind (fun _ => Obeys.pure _)
  · rw [syscall_other P fuel q.encKey q.fname q.b1 ⟨h1,h2,h3,h4⟩]
    exact Obeys.pure _

/-- What becomes of a request, and of the disk, when it runs on its own. -/
def alone (P : Platform) (fuel : ℕ) (q : Request) (fs : Fs) : Option (Option ℤ) × Kernel :=
  (q.program P fuel).run (Kernel.handle P) (q.task,fs)

end Request

/-- Under any faults, and whatever the buffers held, a system call leaves every file as it was but its original, the entries
of its name, and `temp.txt` when it compresses and encrypts. -/
theorem syscall_unchanged (P : Platform) (hpath : ∀ path path', P.dPathNull path = some path' → path' = path) (fuel : ℕ)
    (q : Request) (fs : Fs) {path : Path} (h : ¬ q.ReachesFile P path) : (q.alone P fuel fs).2.2 path = fs path :=
  Within.run_unchanged P fs (q.within_program hpath fuel) h

/-- An encryption of `/a` that comes to its end, beside `/t`. -/
theorem syscall_unchanged_encrypt :
    let q : Request := ⟨4085,['/','a'],4085,some 0,(Task.fresh ['/'] 0 {}).withKey [107,0]⟩
    (q.alone .bare 1 twoBytes).1 = some (some 0) ∧ (q.alone .bare 1 twoBytes).2.2 ['/','t'] = .holding [] := by
  intro q
  refine ⟨by decide +kernel,syscall_unchanged .bare (fun _ _ h => by cases h) 1 q twoBytes ?_⟩
  rintro ⟨op,hop,h | ⟨stale,h⟩ | ⟨rfl,-⟩⟩
  · exact absurd h (by decide)
  · obtain ⟨front,hfront⟩ := resolve_trashName .bare (slash_notMem_suffix op) stale 0 ['/','a'] ['/']
    have hlast : ['/','t'] = front ++ '/' :: entryText .bare 0 ['/','a'] op.suffix := h.trans hfront
    have hlen := congrArg List.length hlast
    have hstamp : (timeStamp .bare 0).length = 17 := by decide
    simp only [entryText, List.length_append, List.length_cons, List.length_nil, hstamp] at hlen
    omega
  · exact absurd hop (by decide)

/-! ## Requests whose files do not meet -/

/-- A request with the files it starts from: its operation, its task's directory and time, its argument. -/
structure Target where
  op : Operation
  cwd : Path
  now : ℕ
  fname : Path

namespace Target
variable (P : Platform)

def original (a : Target) : Path := resolve a.cwd a.fname

/-- The scratch file of the working directory. -/
def scratch (a : Target) : Path := resolve a.cwd tempTxt

/-- The last component of the entry. -/
def entry (a : Target) : Path := entryText P a.now a.original a.op.suffix

def Comes (a : Target) (path : Path) : Prop := Reaches P a.cwd a.now a.op a.fname path

/-- One original, entries that are called alike, an original that is called like an entry of the other, or a scratch file that
is the original or the scratch file of the other. -/
def Clash (a b : Target) : Prop :=
  a.original = b.original ∨ a.entry P = b.entry P ∨ ('/' :: b.entry P) <:+ a.original ∨ ('/' :: a.entry P) <:+ b.original ∨
  (a.op = .encComp ∧ a.scratch = b.original) ∨ (b.op = .encComp ∧ a.original = b.scratch) ∨
  (a.op = .encComp ∧ b.op = .encComp ∧ a.scratch = b.scratch)

instance (a b : Target) : Decidable (Clash P a b) := inferInstanceAs (Decidable (_ ∨ _))

variable {P} {a b : Target}

theorem Comes.suffix {path : Path} (h : ∃ stale, path = resolve a.cwd (trashName P stale a.now a.original a.op.suffix)) :
    ('/' :: a.entry P) <:+ path := by
  obtain ⟨stale,rfl⟩ := h
  obtain ⟨front,hfront⟩ := resolve_trashName P (slash_notMem_suffix a.op) stale a.now a.original a.cwd
  exact ⟨front,hfront.symm⟩

/-- A scratch file is never called like an entry. -/
theorem not_suffix_scratch (a b : Target) : ¬ ('/' :: a.entry P) <:+ b.scratch :=
  not_suffix_tempTxt P (slash_notMem_suffix a.op) a.now a.original b.cwd

/-- Requests that do not clash come to no file in common. -/
theorem Clash.of_comes {path : Path} (hp : a.Comes P path) (hq : b.Comes P path) : Clash P a b := by
  rcases hp with rfl | hp | ⟨hop,rfl⟩
  · rcases hq with hq | hq | ⟨hop',hq⟩
    · exact .inl hq
    · exact .inr (.inr (.inl (Comes.suffix hq)))
    · exact .inr (.inr (.inr (.inr (.inr (.inl ⟨hop',hq⟩)))))
  · rcases hq with rfl | ⟨stale',hq⟩ | ⟨-,rfl⟩
    · exact .inr (.inr (.inr (.inl (Comes.suffix hp))))
    · obtain ⟨stale,rfl⟩ := hp
      exact .inr (.inl (entryText_of_resolve P (slash_notMem_suffix a.op) (slash_notMem_suffix b.op) hq))
    · exact absurd (Comes.suffix hp) (not_suffix_scratch a b)
  · rcases hq with hq | hq | ⟨hop',hq⟩
    · exact .inr (.inr (.inr (.inr (.inl ⟨hop,hq⟩))))
    · exact absurd (Comes.suffix hq) (not_suffix_scratch b a)
    · exact .inr (.inr (.inr (.inr (.inr (.inr ⟨hop,hop',hq⟩)))))

end Target

theorem Operation.word_injective : Function.Injective Operation.word := by
  intro op op' h
  cases op <;> cases op' <;> first | rfl | exact absurd h (by decide)

/-- The call as a request of one of the four operations. -/
def Request.target (q : Request) (op : Operation) : Target := ⟨op,q.task.cwd,q.task.now,q.fname⟩

theorem Request.disjoint {P : Platform} {q q' : Request} (op op' : Operation) (hq : q.flag = op.word) (hq' : q'.flag = op'.word)
    (hclash : ¬ Target.Clash P (q.target op) (q'.target op')) {path : Path} (hp : q.ReachesFile P path) :
    ¬ q'.ReachesFile P path := by
  rintro ⟨o',ho',hp'⟩
  obtain ⟨o,ho,hp⟩ := hp
  obtain rfl := Operation.word_injective (hq.symm.trans ho)
  obtain rfl := Operation.word_injective (hq'.symm.trans ho')
  exact hclash (Target.Clash.of_comes hp hp')

/-! ## Any number of system calls at once -/

/-- The word asks for an encryption, alone or behind a compression. -/
def Request.UsesKey (q : Request) : Prop := q.flag = 4085 ∨ q.flag = 4087

/-- System calls that may be made at once. Each has its own memory, but `enc_key` is one pointer for all of them and every
encryption frees what it leads to, so one of them uses it at most. -/
structure Batch (ι : Type) where
  requests : ι → Request
  oneKey : ∀ i j, (requests i).UsesKey → (requests j).UsesKey → i = j

/-- The requests before their first step. -/
def Batch.pending {ι : Type} (P : Platform) (fuel : ℕ) (b : Batch ι) (fs : Fs) :
    Sharing.Clients ι Call Answer Task Path Slot (Option ℤ) :=
  ⟨fun i => ⟨some ((b.requests i).program P fuel),(b.requests i).task⟩,fs⟩

/-- No file is used by two of the requests. -/
def Batch.Disjoint {ι : Type} (P : Platform) (b : Batch ι) : Prop :=
  ∀ i j, i ≠ j → ∀ path, (b.requests i).ReachesFile P path → ¬ (b.requests j).ReachesFile P path

section Together
variable {ι : Type} {P : Platform} (hpath : ∀ path path', P.dPathNull path = some path' → path' = path) (fuel : ℕ)
  (b : Batch ι) (fs : Fs)
include hpath

/-- Each request stays within its files. -/
theorem pending_confined (i : ι) :
    (sharing P).Confined ((b.requests i).ReachesFile P) ((b.pending P fuel fs).threads i) := by
  refine ⟨_,_,_,within_confines P (T := (b.requests i).ReachesFile P) (b.requests i).task.cwd (b.requests i).task.now,⟨rfl,rfl⟩,?_⟩
  rintro p ⟨rfl⟩
  exact (b.requests i).within_program hpath fuel

end Together

/-- Requests whose files do not meet do not notice each other: under every schedule of their calls, each one that has come
to its end returned, and left in its files, what it does on its own, and all other files are untouched. -/
theorem requests_isolated {ι : Type} [DecidableEq ι] (P : Platform)
    (hpath : ∀ path path', P.dPathNull path = some path' → path' = path) (fuel : ℕ) (b : Batch ι) (fs : Fs)
    (hdisj : b.Disjoint P) (w : List ι) :
    (∀ i, Sharing.Thread.Finished (((sharing P).schedule w (b.pending P fuel fs)).threads i) →
      ((sharing P).schedule w (b.pending P fuel fs)).threads i =
        ⟨((b.requests i).alone P fuel fs).1.map .ret,((b.requests i).alone P fuel fs).2.1⟩ ∧
      ∀ path, (b.requests i).ReachesFile P path →
        ((sharing P).schedule w (b.pending P fuel fs)).store path = ((b.requests i).alone P fuel fs).2.2 path) ∧
    ∀ path, (∀ i, ¬ (b.requests i).ReachesFile P path) → ((sharing P).schedule w (b.pending P fuel fs)).store path = fs path := by
  have hconf := pending_confined hpath fuel b fs
  refine ⟨fun i hend => ?_,(Sharing.schedule_isolated hdisj hconf w).2⟩
  obtain ⟨hthread,hstore⟩ := Sharing.schedule_finished hdisj hconf hend
  exact ⟨hthread,hstore⟩

/-- A compression of `/a` and an encryption of `/b` at once. -/
def compressAndEncrypt : Batch Bool where
  requests b := if b then ⟨4085,['/','b'],0,some 0,(Task.fresh ['/'] 0 {}).withKey [107,0]⟩
    else ⟨4083,['/','a'],0,none,Task.fresh ['/'] 0 {}⟩
  oneKey := by
    intro i j hi hj
    cases i <;> cases j <;> simp [Request.UsesKey] at hi hj ⊢

/-- Turn by turn, until both have come to their end. -/
theorem requests_isolated_turns :
    let w := (List.replicate 60 [true,false]).flatten
    let s := (sharing .bare).schedule w (compressAndEncrypt.pending .bare 1 twoFiles)
    (∀ i, Sharing.Thread.Finished (s.threads i)) ∧
    ∀ i, s.threads i = ⟨((compressAndEncrypt.requests i).alone .bare 1 twoFiles).1.map .ret,
        ((compressAndEncrypt.requests i).alone .bare 1 twoFiles).2.1⟩ ∧
      ∀ path, (compressAndEncrypt.requests i).ReachesFile .bare path →
        s.store path = ((compressAndEncrypt.requests i).alone .bare 1 twoFiles).2.2 path := by
  intro w s
  have hdone : ∀ i, Sharing.Thread.Finished (s.threads i) := by
    intro i
    cases i
    · decide +kernel
    · decide +kernel
  have hclash : ∀ path, (compressAndEncrypt.requests false).ReachesFile .bare path →
      ¬ (compressAndEncrypt.requests true).ReachesFile .bare path := by
    intro path h
    exact Request.disjoint .compress .encrypt rfl rfl (by decide) h
  have hdisj : compressAndEncrypt.Disjoint .bare := by
    intro i j hij path hi hj
    cases i <;> cases j
    · exact hij rfl
    · exact hclash path hi hj
    · exact hclash path hj hi
    · exact hij rfl
  have hisolated := (requests_isolated .bare (fun _ _ h => by cases h) 1 compressAndEncrypt twoFiles hdisj w).1
  exact ⟨hdone,fun i => hisolated i (hdone i)⟩

end XClone
