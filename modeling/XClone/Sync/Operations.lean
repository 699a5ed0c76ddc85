import XClone.Sync.CompressionLog
import XClone.Sync.Completion
import XClone.Sync.EncComp

/-! # The operations with compression under any faults

`processcompress` and `process_enc_comp` begin alike: three path buffers, the time, the
buffer of the name, the open of the original. Whatever follows is run with what they found.
-/
namespace XClone
open Effects Prog

/-- The common beginning, in front of what is done with the time, the name buffer and the original. -/
def openNamed (fname : Path) (k : ℕ → Buf → File → KProg ℤ) : KProg ℤ := do
  if ← pathBuffers 3 then
    let getTime ← kcall .doGettimeofday
    match ← kcall (.kmalloc PATH_MAX) with
    | none => die
    | some trashbinfolderFilename =>
      match ← fileOpen fname false with
      | .error _ => return -EPERM
      | .ok fRead => k getTime trashbinfolderFilename fRead
  else return -ENOMEM

theorem processcompress_eq (P : Platform) (fname : Path) :
    processcompress P fname = openNamed fname (fun getTime buf fRead => do
      let _fsize ← kcall (.iSizeRead fRead)
      match ← fileOpen (trashName P (staleTail buf.bytes) getTime fRead.path cmpSuffix) true with
      | .error e => return -e
      | .ok fWrite =>
        let _zipErr ← compressFileXclone fRead fWrite
        fileClose fRead
        let _err ← kcall (.vfsUnlink fRead)
        fileClose fWrite
        kcall (.kfree (some buf.addr))
        return 0) := rfl

theorem processEncComp_eq (P : Platform) (fname : Path) (key : Ptr) :
    processEncComp P fname key = openNamed fname (fun getTime buf fRead => do
      match ← fileOpen tempTxt true with
      | .error e => return -e
      | .ok fTemp =>
        let _zipErr ← compressFileXclone fRead fTemp
        fileClose fRead
        let _err ← kcall (.vfsUnlink fRead)
        fileClose fTemp
        encryptTemp buf (trashName P (staleTail buf.bytes) getTime fRead.path (encSuffix ++ cmpSuffix)) key) := rfl

/-- The common beginning comes to its end. -/
structure NamedOpen (t : Task) (fs : Fs) (fname : Path) : Prop where
  buffers : t.faults.Grants 4
  opens : t.faults.opens.getD 0 none = none
  found : fs.entry (resolve t.cwd fname) ≠ none

section Beginning
variable (P : Platform) {t : Task} {fs : Fs} {past : List (List Byte)} {c : List Byte} {fname : Path}

theorem openNamed_runs (hstart : NamedOpen t fs fname) (hslot : fs (resolve t.cwd fname) = ⟨past,some c⟩) :
    ∃ t' buf, buf.bytes = t.found 3 PATH_MAX ∧
      t'.faults = { t.faults with allocs := t.faults.allocs.drop 4, opens := t.faults.opens.tail } ∧ Becomes t 4 t' ∧
      ∀ {k : ℕ → Buf → File → KProg ℤ} {es a s}, Runs P (k t.now buf ⟨resolve t.cwd fname,past.length⟩) (t',fs) es a s →
        Runs P (openNamed fname k) (t,fs) (.opened fname false true :: es) a s := by
  obtain ⟨b,t₁,hbufs,hgrants,hfaults₁,hbec₁,-⟩ := pathBuffers_runs P 3 t fs
  obtain rfl := hgrants.mpr (fun i hi => hstart.buffers i (by omega))
  have hbec₁ := hbec₁ rfl
  have hallocs₁ : t₁.faults.allocs = t.faults.allocs.drop 3 := by rw [hfaults₁ rfl]; rfl
  have hname : t₁.faults.allocs.headD false = false := (headD_of_drop hallocs₁ false).trans (hstart.buffers 3 (by omega))
  obtain ⟨a,t₂,hmalloc,hfaults₂,-,hbec₂⟩ := kmalloc_ok P fs hname PATH_MAX
  have hbytes : t₁.found 0 PATH_MAX = t.found 3 PATH_MAX := hbec₁.found 0 PATH_MAX
  have hbec : Becomes t 4 t₂ := hbec₁.trans hbec₂
  have hopens₂ : t₂.faults.opens = t.faults.opens := by rw [hfaults₂, Faults.popAlloc, hfaults₁ rfl]; rfl
  have hfirst : t₂.faults.opens.headD none = none := by
    rw [hopens₂]
    exact (headD_of_drop List.drop_zero.symm none).trans hstart.opens
  have hfound : fs.reach P (resolve t₂.cwd fname) false = some (past.length,⟨past,some c⟩) := by
    rw [hbec.cwd, Fs.reach_found P hslot]
  have hopen := fileOpen_runs P hfirst hfound
  rw [hbec.cwd, ← hslot, Function.update_eq_self] at hopen
  obtain ⟨f,hf⟩ : ∃ f, (⟨resolve t.cwd fname,past.length⟩ : File) = f := ⟨_,rfl⟩
  rw [hf] at hopen ⊢
  refine ⟨((t₂.limit .kernelDs).spend .popOpen).opening f,⟨a,t₁.found 0 PATH_MAX⟩,hbytes,?_,
    hbec.trans (opening_becomes t₂ f),?_⟩
  · change t₂.faults.popOpen = _
    rw [hfaults₂, hfaults₁ rfl]
    simp [Faults.popOpen, Faults.popAlloc, Faults.dropAllocs]
  · intro k es a' s hrest
    rw [← hbec₁.now] at hrest
    change Runs P _ _ ([] ++ ([] ++ ([] ++ ([.opened fname false true] ++ es)))) a' s
    exact hbufs.bind ((Does.call (handle_doGettimeofday P t₁ fs)).bind ((Does.call hmalloc).bind (hopen.bind hrest)))

/-- Where the beginning stops, only opens are seen. -/
theorem openNamed_idle (k : ℕ → Buf → File → KProg ℤ) (h : ¬ NamedOpen t fs fname) :
    ∃ es a s, Runs P (openNamed fname k) (t,fs) es a s ∧ ∀ e ∈ es, ∃ name create found, e = .opened name create found := by
  obtain ⟨b,t₁,hbufs,hgrants,hfaults₁,hbec₁,-⟩ := pathBuffers_runs P 3 t fs
  cases b with
  | false => exact ⟨_,_,_,hbufs.bind (Does.pure _ _),by simp⟩
  | true =>
    obtain ⟨r,t₂,hmalloc,ha⟩ := kmalloc_spec P PATH_MAX t₁ fs
    have htime : Runs P (kcall .doGettimeofday) (t₁,fs) [] (some t₁.now) (t₁,fs) :=
      Does.call (handle_doGettimeofday P t₁ fs)
    cases r with
    | none =>
      exact ⟨_,_,_,hbufs.bind (htime.bind ((Does.call hmalloc).bind (Does.dead (handle_oops P t₂ fs)).bind_dead)),
        by simp [Call.events]⟩
    | some buf =>
      have hallocs₁ : t₁.faults.allocs = t.faults.allocs.drop 3 := by rw [hfaults₁ rfl]; rfl
      have hname : t.faults.allocs.getD 3 false = false := by
        rw [← headD_of_drop hallocs₁ false]
        exact Bool.eq_false_iff.mpr (fun hb => absurd (ha.fails.mpr hb) (Option.some_ne_none _))
      have hopens₂ : t₂.faults.opens = t.faults.opens := by rw [ha.faults, Faults.popAlloc, hfaults₁ rfl]; rfl
      have hcwd : t₂.cwd = t.cwd := ha.cwd.trans (hbec₁ rfl).cwd
      by_cases hmiss : t₂.faults.opens.headD none ≠ none ∨ fs.reach P (resolve t₂.cwd fname) false = none
      · obtain ⟨e,hopen⟩ := fileOpen_fails P fname false hmiss
        exact ⟨_,_,_,hbufs.bind (htime.bind ((Does.call hmalloc).bind (hopen.bind (Does.pure _ _)))),by simp [Call.events]⟩
      · obtain ⟨hopens,hthere⟩ := not_or.mp hmiss
        refine absurd ⟨?_,?_,?_⟩ h
        · intro i hi
          rcases Nat.lt_or_ge i 3 with hlt | hge
          · exact hgrants.mp rfl i hlt
          · obtain rfl : i = 3 := by omega
            exact hname
        · rw [← headD_of_drop List.drop_zero.symm none, ← hopens₂]
          exact not_not.mp hopens
        · intro hnone
          rw [hcwd] at hthere
          exact hthere (Fs.reach_missing P hnone)

end Beginning

/-! ## Compression into a second file, and the unlink behind it -/

/-- The loop of `compress_file` is reached, with a second file under the name `target`. -/
structure CompressionStarts (P : Platform) (t : Task) (fs : Fs) (fname target : Path) : Prop extends NamedOpen t fs fname where
  creates : t.faults.opens.getD 1 none = none
  reaches : fs.reach P (resolve t.cwd target) true ≠ none

/-- The name of the trash entry of a request that starts in this state; the name buffer is its fourth allocation. -/
def cmpName (P : Platform) (t : Task) (fname : Path) : Path :=
  trashName P (staleTail (t.found 3 PATH_MAX)) t.now (resolve t.cwd fname) cmpSuffix

/-- What the calls before the loop leave of the faults. -/
def Faults.atCompression (f : Faults) : Faults := { f with allocs := f.allocs.drop 5, opens := f.opens.tail.tail }

section Second
variable (P : Platform) {t : Task} {fs : Fs} {fRead fWrite : File} {past pastWrite : List (List Byte)} {c o : List Byte}

variable (fRead) in
/-- A second file, created or found, beside the one that is read. -/
theorem openTarget_runs (name : Path) (h : t.faults.opens.headD none = none)
    (hreach : fs.reach P (resolve t.cwd name) true ≠ none) (hslot : fs fRead.path = ⟨past,some c⟩)
    (hinode : fRead.inode = past.length) (hne : fRead.path ≠ resolve t.cwd name) :
    ∃ f pastWrite t' fs', Runs P (fileOpen name true) (t,fs) [.opened name true true] (some (.ok f)) (t',fs') ∧
      f.path = resolve t.cwd name ∧ Transfer fRead f pastWrite c ((fs.entry (resolve t.cwd name)).getD []) fs' ∧
      fs' fRead.path = ⟨past,some c⟩ ∧ t'.faults = t.faults.popOpen ∧ Becomes t 0 t' ∧
      ∀ path, path ≠ resolve t.cwd name → fs' path = fs path := by
  have hcreate := fileOpen_runs P h (Fs.reach_create P hreach)
  have hcontent : fs.content fRead = c := by rw [Fs.content, hslot, hinode, Slot.content_linked]
  refine ⟨⟨resolve t.cwd name,(fs (resolve t.cwd name)).past.length⟩,(fs (resolve t.cwd name)).past,
    ((t.limit .kernelDs).spend .popOpen).opening ⟨resolve t.cwd name,(fs (resolve t.cwd name)).past.length⟩,_,hcreate,rfl,?_,?_,rfl,
    opening_becomes t _,?_⟩
  · exact ⟨(Fs.content_update_of_ne hne _).trans hcontent,Function.update_self _ _ _,rfl,hne⟩
  · rw [Function.update_of_ne hne, hslot]
  · intro path hpath
    exact Function.update_of_ne hpath _ _

/-- What comes behind the unlink of the original runs with what the compression left. -/
theorem compressAndUnlink_runs {α : Type} (rest : KProg α) (hT : Transfer fRead fWrite pastWrite c o fs)
    (hslot : fs fRead.path = ⟨past,some c⟩) (hinode : fRead.inode = past.length) {n : ℕ} (hn : (CInt.toInt c.length).toNat = n)
    (hlive : ¬ CompressDies P (t.faults.allocs.headD false) c n (fun j => t.found (1+j) 4096) t.faults.popAlloc n 0) :
    ∃ t' fs' k, Becomes t k t' ∧ t'.faults.opens = t.faults.opens ∧ (∃ out, Transfer fRead fWrite pastWrite c out fs') ∧
      (∀ path, path ≠ fWrite.path → fs' path = fs path) ∧
      ∀ {es a s}, Runs P rest ((t'.closing fRead).spend .popUnlink,
          if t.faults.unlinks.headD none = none then Function.update fs' fRead.path ⟨past ++ [c],none⟩ else fs') es a s →
        Runs P (compressFileXclone fRead fWrite >>= fun _ => fileClose fRead >>= fun _ => kcall (.vfsUnlink fRead) >>= fun _ => rest)
          (t,fs) (compressLog P (t.faults.allocs.headD false) fRead fWrite c n (fun j => t.found (1+j) 4096) t.faults.popAlloc
            n 0 0 ++ .unlink fRead (t.faults.unlinks.headD none).code :: es) a s := by
  obtain ⟨a,⟨t',fs'⟩,hloop,hdies,hends⟩ := compressFileXclone_log P t hT hn
  have ha : a ≠ none := fun h => hlive (hdies.mp h)
  obtain ⟨b,rfl⟩ := Option.ne_none_iff_exists'.mp ha
  obtain ⟨hkeeps,⟨k,hbec⟩,htransfer,hframe⟩ := hends ha
  have hslot' : fs' fRead.path = ⟨past,some c⟩ := (hframe _ hT.apart).trans hslot
  have hunlink := handle_vfsUnlink P (t := t'.closing fRead) hslot' hinode
  have hcode : (t'.closing fRead).faults.unlinks = t.faults.unlinks := hkeeps.unlinks
  rw [hcode] at hunlink
  refine ⟨t',fs',k,hbec,hkeeps.opens,htransfer,hframe,fun hrest => ?_⟩
  exact hloop.bind ((fileClose_runs P fRead t' fs').bind ((Does.call hunlink).bind hrest))

/-- A compression that dies is the last that is seen. -/
theorem compressAndUnlink_dies {α : Type} (rest : KProg α) (hT : Transfer fRead fWrite pastWrite c o fs) {n : ℕ}
    (hn : (CInt.toInt c.length).toNat = n)
    (hdead : CompressDies P (t.faults.allocs.headD false) c n (fun j => t.found (1+j) 4096) t.faults.popAlloc n 0) :
    ∃ s, Runs P (compressFileXclone fRead fWrite >>= fun _ => fileClose fRead >>= fun _ => kcall (.vfsUnlink fRead) >>= fun _ => rest)
      (t,fs) (compressLog P (t.faults.allocs.headD false) fRead fWrite c n (fun j => t.found (1+j) 4096) t.faults.popAlloc
        n 0 0) none s := by
  obtain ⟨a,s,hloop,hdies,-⟩ := compressFileXclone_log P t hT hn
  obtain rfl := hdies.mpr hdead
  exact ⟨s,hloop.bind_dead⟩

end Second

/-! ## The two operations -/

/-- The compression of `n` bytes in an operation ends in a chunk that is as `Q` says; the capacity of the compressor
is the fifth allocation of the operation. -/
def CompressionEnds (Q : ChunkEnd → Prop) (P : Platform) (t : Task) (c : List Byte) (n : ℕ) : Prop :=
  CompressEnds Q P (t.faults.allocs.getD 4 false) c n (fun j => t.found (5+j) 4096) t.faults.atCompression n 0

instance (Q : ChunkEnd → Prop) [DecidablePred Q] (P : Platform) (t : Task) (c : List Byte) (n : ℕ) :
    Decidable (CompressionEnds Q P t c n) := CompressEnds.decidable Q P _ c n _ _ n 0

/-- It kills its caller. -/
abbrev CompressionDies := CompressionEnds ChunkEnd.Dies

/-- What is seen of it. -/
def compressionLog (P : Platform) (t : Task) (fRead fWrite : File) (c : List Byte) (n : ℕ) : List Event :=
  compressLog P (t.faults.allocs.getD 4 false) fRead fWrite c n (fun j => t.found (5+j) 4096) t.faults.atCompression n 0 0

section Whole
variable (P : Platform) {t : Task} {fs : Fs} {past : List (List Byte)} {c : List Byte} {fname : Path}

theorem encCompName_eq : encCompName P t fname =
    trashName P (staleTail (t.found 3 PATH_MAX)) t.now (resolve t.cwd fname) (encSuffix ++ cmpSuffix) := rfl

theorem cmpName_of {bytes : List Byte} (h : bytes = t.found 3 PATH_MAX) :
    trashName P (staleTail bytes) t.now (resolve t.cwd fname) cmpSuffix = cmpName P t fname := by
  rw [h, cmpName]

theorem second_open {t' : Task} (h : t'.faults = { t.faults with allocs := t.faults.allocs.drop 4, opens := t.faults.opens.tail }) :
    t'.faults.opens.headD none = t.faults.opens.getD 1 none := by
  rw [h]
  exact headD_of_drop List.drop_one.symm none

/-- A task that has come to the compression: both files are open, and four allocations are used up. -/
structure AtCompression (t t' : Task) : Prop where
  faults : t'.faults = { t.faults with allocs := t.faults.allocs.drop 4, opens := t.faults.opens.tail.tail }
  becomes : Becomes t 4 t'

theorem AtCompression.of_opens {t₁ t₂ : Task}
    (h₁ : t₁.faults = { t.faults with allocs := t.faults.allocs.drop 4, opens := t.faults.opens.tail }) (b₁ : Becomes t 4 t₁)
    (h₂ : t₂.faults = t₁.faults.popOpen) (b₂ : Becomes t₁ 0 t₂) : AtCompression t t₂ where
  faults := by rw [h₂, h₁]; rfl
  becomes := b₁.trans b₂

theorem AtCompression.popAlloc {t' : Task} (h : AtCompression t t') : t'.faults.popAlloc = t.faults.atCompression := by
  rw [h.faults]
  simp [Faults.popAlloc, Faults.atCompression]

theorem AtCompression.noRoom {t' : Task} (h : AtCompression t t') :
    t'.faults.allocs.headD false = t.faults.allocs.getD 4 false := by
  rw [h.faults]
  exact headD_of_drop rfl false

theorem AtCompression.pages {t' : Task} (h : AtCompression t t') :
    (fun j => t'.found (1+j) 4096) = fun j => t.found (5+j) 4096 := by
  funext j
  rw [h.becomes.found, ← Nat.add_assoc]

theorem AtCompression.dies_iff {t' : Task} (h : AtCompression t t') (c : List Byte) (n : ℕ) :
    CompressDies P (t'.faults.allocs.headD false) c n (fun j => t'.found (1+j) 4096) t'.faults.popAlloc n 0 ↔
      CompressionDies P t c n := by
  rw [h.noRoom, h.pages, h.popAlloc]
  exact Iff.rfl

theorem AtCompression.log {t' : Task} (h : AtCompression t t') (fRead fWrite : File) (c : List Byte) (n : ℕ) :
    compressLog P (t'.faults.allocs.headD false) fRead fWrite c n (fun j => t'.found (1+j) 4096) t'.faults.popAlloc n 0 0 =
      compressionLog P t fRead fWrite c n := by
  rw [h.noRoom, h.pages, h.popAlloc, compressionLog]

/-- The log of `processcompress` from its opens to its unlink. -/
theorem processcompress_log (hstart : CompressionStarts P t fs fname (cmpName P t fname))
    (hslot : fs (resolve t.cwd fname) = ⟨past,some c⟩) {n : ℕ} (hn : (CInt.toInt c.length).toNat = n) :
    ∃ fWrite a s, fWrite.path = resolve t.cwd (cmpName P t fname) ∧
      Runs P (processcompress P fname) (t,fs) ([.opened fname false true,.opened (cmpName P t fname) true true] ++
        (compressionLog P t ⟨resolve t.cwd fname,past.length⟩ fWrite c n ++
          if CompressionDies P t c n then []
          else [.unlink ⟨resolve t.cwd fname,past.length⟩ (t.faults.unlinks.headD none).code])) a s ∧
      (¬ CompressionDies P t c n → a = some 0) := by
  obtain ⟨t₁,buf,hbytes,hfaults₁,hbec₁,hruns⟩ := openNamed_runs P hstart.toNamedOpen hslot
  have hcreate : t₁.faults.opens.headD none = none := (second_open hfaults₁).trans hstart.creates
  have hreach : fs.reach P (resolve t₁.cwd (cmpName P t fname)) true ≠ none := by
    rw [hbec₁.cwd]
    exact hstart.reaches
  have hne : resolve t.cwd fname ≠ resolve t₁.cwd (cmpName P t fname) :=
    (resolve_trashName_ne (by decide) P _ _ _ _).symm
  obtain ⟨fWrite,pastWrite,t₂,fs₂,hopen,hfile,hT,hslot₂,hfaults₂,hbec₂,-⟩ := openTarget_runs P (t := t₁)
    ⟨resolve t.cwd fname,past.length⟩ (cmpName P t fname) hcreate hreach hslot rfl hne
  have hat := AtCompression.of_opens hfaults₁ hbec₁ hfaults₂ hbec₂
  have hdies := hat.dies_iff P c n
  have hunlinks : t₂.faults.unlinks = t.faults.unlinks := by rw [hat.faults]
  refine ⟨fWrite,?_⟩
  rw [hbec₁.cwd] at hfile
  rw [processcompress_eq]
  by_cases hdead : CompressionDies P t c n
  · obtain ⟨s,hcompress⟩ := compressAndUnlink_dies P (fileClose fWrite >>= fun _ => kcall (.kfree (some buf.addr)) >>= fun _ =>
      (pure 0 : KProg ℤ)) (t := t₂) hT hn (hdies.mpr hdead)
    rw [hat.log P] at hcompress
    refine ⟨none,s,hfile,?_,fun h => absurd hdead h⟩
    rw [if_pos hdead, List.append_nil]
    refine hruns ?_
    rw [hbytes]
    exact (Does.call (handle_iSizeRead P t₁ fs _)).bind (hopen.bind hcompress)
  · obtain ⟨t₃,fs₃,k,hbec₃,hopens₃,-,-,hrest⟩ := compressAndUnlink_runs P (fileClose fWrite >>= fun _ =>
      kcall (.kfree (some buf.addr)) >>= fun _ => (pure 0 : KProg ℤ)) (t := t₂) hT hslot₂ rfl hn
      (fun h => hdead (hdies.mp h))
    obtain ⟨s,hend⟩ : ∃ s, Runs P _ (t₂,fs₂) _ (some 0) s :=
      ⟨_,hrest ((fileClose_runs P fWrite _ _).bind ((Does.call (handle_kfree P _ _ (some buf.addr))).bind (Does.pure 0 _)))⟩
    rw [hat.log P, hunlinks] at hend
    refine ⟨some 0,s,hfile,?_,fun _ => rfl⟩
    rw [if_neg hdead]
    refine hruns ?_
    rw [hbytes]
    exact (Does.call (handle_iSizeRead P t₁ fs _)).bind (hopen.bind hend)

/-- Only opens are seen of a compression that does not start. -/
theorem processcompress_idle (h : ¬ CompressionStarts P t fs fname (cmpName P t fname)) :
    ∃ es a s, Runs P (processcompress P fname) (t,fs) es a s ∧ ∀ e ∈ es, ∃ name create found, e = .opened name create found := by
  rw [processcompress_eq]
  by_cases hnamed : NamedOpen t fs fname
  swap
  · exact openNamed_idle P _ hnamed
  obtain ⟨past,c,hslot⟩ := Slot.exists_of_now_ne_none hnamed.found
  obtain ⟨t₁,buf,hbytes,hfaults₁,hbec₁,hruns⟩ := openNamed_runs P hnamed hslot
  have hmiss : t₁.faults.opens.headD none ≠ none ∨ fs.reach P (resolve t₁.cwd (cmpName P t fname)) true = none := by
    rw [second_open hfaults₁, hbec₁.cwd]
    by_contra hboth
    obtain ⟨hopens,hreach⟩ := not_or.mp hboth
    exact h ⟨hnamed,not_not.mp hopens,hreach⟩
  rw [← cmpName_of P hbytes] at hmiss
  obtain ⟨e,hopen⟩ := fileOpen_fails P _ true hmiss
  exact ⟨_,_,_,hruns ((Does.call (handle_iSizeRead P t₁ fs _)).bind (hopen.bind (Does.pure _ _))),by simp [Call.events]⟩

/-- The log of `process_enc_comp` from its opens to its first unlink, and the second half behind it. -/
theorem processEncComp_log (key : Ptr) (hstart : CompressionStarts P t fs fname tempTxt)
    (hslot : fs (resolve t.cwd fname) = ⟨past,some c⟩) (hne : resolve t.cwd fname ≠ resolve t.cwd tempTxt)
    {n : ℕ} (hn : (CInt.toInt c.length).toNat = n) :
    ∃ fTemp buf t' fs' a s, fTemp.path = resolve t.cwd tempTxt ∧ t'.cwd = t.cwd ∧
      Runs P (processEncComp P fname key) (t,fs) ([.opened fname false true,.opened tempTxt true true] ++
        (compressionLog P t ⟨resolve t.cwd fname,past.length⟩ fTemp c n ++
          if CompressionDies P t c n then []
          else .unlink ⟨resolve t.cwd fname,past.length⟩ (t.faults.unlinks.headD none).code ::
            logOf P (encryptTemp buf (encCompName P t fname) key) (t',fs'))) a s := by
  obtain ⟨t₁,buf,hbytes,hfaults₁,hbec₁,hruns⟩ := openNamed_runs P hstart.toNamedOpen hslot
  have hcreate : t₁.faults.opens.headD none = none := (second_open hfaults₁).trans hstart.creates
  have hne' : resolve t.cwd fname ≠ resolve t₁.cwd tempTxt := by rwa [hbec₁.cwd]
  have hreach : fs.reach P (resolve t₁.cwd tempTxt) true ≠ none := by
    rw [hbec₁.cwd]
    exact hstart.reaches
  obtain ⟨fTemp,pastTemp,t₂,fs₂,hopen,hfile,hT,hslot₂,hfaults₂,hbec₂,-⟩ := openTarget_runs P (t := t₁)
    ⟨resolve t.cwd fname,past.length⟩ tempTxt hcreate hreach hslot rfl hne'
  have hat := AtCompression.of_opens hfaults₁ hbec₁ hfaults₂ hbec₂
  have hdies := hat.dies_iff P c n
  have hunlinks : t₂.faults.unlinks = t.faults.unlinks := by rw [hat.faults]
  obtain ⟨rest,hrest⟩ : ∃ rest, (fileClose fTemp >>= fun _ => encryptTemp buf (encCompName P t fname) key) = rest := ⟨_,rfl⟩
  rw [hbec₁.cwd] at hfile
  rw [processEncComp_eq]
  by_cases hdead : CompressionDies P t c n
  · obtain ⟨s,hcompress⟩ := compressAndUnlink_dies P rest (t := t₂) hT hn (hdies.mpr hdead)
    rw [hat.log P, ← hrest] at hcompress
    refine ⟨fTemp,buf,t,fs,none,s,hfile,rfl,?_⟩
    rw [if_pos hdead, List.append_nil]
    refine hruns ?_
    rw [hbytes]
    exact hopen.bind hcompress
  · obtain ⟨t₃,fs₃,k,hbec₃,hopens₃,-,-,hgo⟩ := compressAndUnlink_runs P rest (t := t₂) hT hslot₂ rfl hn
      (fun h => hdead (hdies.mp h))
    obtain ⟨t₄,ht₄⟩ : ∃ t₄, ((t₃.closing ⟨resolve t.cwd fname,past.length⟩).spend .popUnlink).closing fTemp = t₄ := ⟨_,rfl⟩
    obtain ⟨fs₄,hfs₄⟩ : ∃ fs₄, (if t₂.faults.unlinks.headD none = none then
      Function.update fs₃ (resolve t.cwd fname) ⟨past ++ [c],none⟩ else fs₃) = fs₄ := ⟨_,rfl⟩
    have hcwd : t₄.cwd = t.cwd := by
      rw [← ht₄]
      exact ((hbec₁.trans hbec₂).trans hbec₃).cwd
    rw [hfs₄, hat.log P, hunlinks, ← hrest] at hgo
    obtain ⟨a,s,hhalf⟩ : ∃ a s, Runs P (encryptTemp buf (encCompName P t fname) key) (t₄,fs₄)
      (logOf P (encryptTemp buf (encCompName P t fname) key) (t₄,fs₄)) a s := ⟨_,_,Does.of_run_log _ _⟩
    have hclose := fileClose_runs P fTemp ((t₃.closing ⟨resolve t.cwd fname,past.length⟩).spend .popUnlink) fs₄
    rw [ht₄] at hclose
    have hend := hgo (hclose.bind hhalf)
    refine ⟨fTemp,buf,t₄,fs₄,a,s,hfile,hcwd,?_⟩
    rw [if_neg hdead]
    refine hruns ?_
    rw [hbytes]
    exact hopen.bind hend

theorem processEncComp_idle (key : Ptr) (h : ¬ CompressionStarts P t fs fname tempTxt) :
    ∃ es a s, Runs P (processEncComp P fname key) (t,fs) es a s ∧ ∀ e ∈ es, ∃ name create found, e = .opened name create found := by
  rw [processEncComp_eq]
  by_cases hnamed : NamedOpen t fs fname
  swap
  · exact openNamed_idle P _ hnamed
  obtain ⟨past,c,hslot⟩ := Slot.exists_of_now_ne_none hnamed.found
  obtain ⟨t₁,buf,hbytes,hfaults₁,hbec₁,hruns⟩ := openNamed_runs P hnamed hslot
  have hmiss : t₁.faults.opens.headD none ≠ none ∨ fs.reach P (resolve t₁.cwd tempTxt) true = none := by
    rw [second_open hfaults₁, hbec₁.cwd]
    by_contra hboth
    obtain ⟨hopens,hreach⟩ := not_or.mp hboth
    exact h ⟨hnamed,not_not.mp hopens,hreach⟩
  obtain ⟨e,hopen⟩ := fileOpen_fails P tempTxt true hmiss
  exact ⟨_,_,_,hruns (hopen.bind (Does.pure _ _)),by simp⟩

end Whole

end XClone
