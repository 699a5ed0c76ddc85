import XClone.Sync.Operations
import XClone.Sync.Contracts

/-! # When an original outlives a failure

Neither operation with compression looks at what `compress_file` reports before it removes the
original, and `process_enc_comp` removes it before it comes to the open of the trash entry.
-/
namespace XClone
open Effects Prog

/-- `compress_file` reports a failure. -/
def CompressionFailed (log : List Event) : Prop := ∃ src err, Event.compress src err ∈ log ∧ err < 0

/-- The original is removed only after a compression that succeeded. -/
def KeepsUnlessCompressed (path : Path) (log : List Event) : Prop := Removed path log → ¬ CompressionFailed log

/-- At this point of the log the entry has been opened and all its chunks are written. -/
structure EntryWritten (cwd name : Path) (before after : List Event) : Prop where
  opened : .opened name true true ∈ before
  full : ∀ f pos len n, .write f pos len n ∈ before → f.path = resolve cwd name → n = len
  done : ∀ f pos len n, .write f pos len n ∈ after → f.path ≠ resolve cwd name

/-- At every step the original is there, or the entry is completely written. -/
def HeldThroughout (path cwd name : Path) (log : List Event) : Prop :=
  ∀ before after, log = before ++ after → Removed path before → EntryWritten cwd name before after

section Logs
variable {path cwd name : Path} {l l' : List Event}

theorem compressionFailed_append : CompressionFailed (l ++ l') ↔ CompressionFailed l ∨ CompressionFailed l' := by
  simp only [CompressionFailed, List.mem_append, or_and_right, exists_or]

theorem removed_append : Removed path (l ++ l') ↔ Removed path l ∨ Removed path l' := by
  simp only [Removed, List.mem_append, or_and_right, exists_or]

variable (path) in
theorem not_removed_of_no_unlink (h : ∀ e ∈ l, ∀ f err, e ≠ .unlink f err) : ¬ Removed path l := by
  rintro ⟨f,err,hm,-⟩
  exact h _ hm f err rfl

theorem removed_unlink_iff {f : File} {x : Fault} : Removed f.path [.unlink f x.code] ↔ x = none := by
  rw [← fault_code_nonneg]
  constructor
  · rintro ⟨g,err,hm,-,hok⟩
    obtain ⟨-,rfl⟩ := Event.unlink.inj (List.mem_singleton.mp hm)
    exact hok
  · intro h
    exact ⟨f,_,List.mem_singleton_self _,rfl,h⟩

/-- What was never removed is held by the original. -/
theorem heldThroughout_of_not_removed (h : ¬ Removed path l) : HeldThroughout path cwd name l := by
  rintro before after rfl hrem
  exact absurd (removed_append.mpr (.inl hrem)) h

theorem compressLog_failed_iff (P : Platform) (noRoom : Bool) (fRead fWrite : File) (c : List Byte) (rounds : ℕ)
    (bufs : ℕ → List Byte) (f : Faults) (rest : ℕ) (pos wpos : ℤ) :
    CompressionFailed (compressLog P noRoom fRead fWrite c rounds bufs f rest pos wpos) ↔
      CompressRefuses P noRoom c rounds bufs f rest pos := by
  induction rounds generalizing bufs f rest pos wpos with
  | zero => simp [compressLog, CompressEnds, CompressionFailed]
  | succ rounds ih =>
    rw [compressLog, CompressRefuses, CompressEnds]
    by_cases hrest : rest = 0
    · rw [if_pos hrest]
      exact iff_of_false (by simp [CompressionFailed]) (fun h => h.1 hrest)
    rw [if_neg hrest]
    simp only [hrest, ne_eq, not_false_eq_true, true_and]
    rcases chunkEnd_cases P noRoom f (pageFilled (f.allocs.getD 0 false) (bufs 0)
        ((c.drop pos.toNat).take (chunkRead f c.length pos rest).toNat)) (chunkRead f c.length pos rest) with
      ⟨hend,-⟩ | ⟨-,err,z,-,⟨herr,hend⟩ | ⟨herr,-,hend⟩ | ⟨-,-,hend⟩⟩
    all_goals
      have hnext : nextEnd P noRoom (bufs 0) c f rest pos = _ := hend
      simp only [hnext]
    · exact iff_of_false (by simp [CompressionFailed]) (by simp [ChunkEnd.IsRefused, ChunkEnd.IsStored])
    · exact iff_of_true ⟨_,_,List.mem_cons_of_mem _ List.mem_cons_self,herr⟩ (.inl ⟨err,rfl⟩)
    · refine iff_of_false ?_ (by simp [ChunkEnd.IsRefused, ChunkEnd.IsStored])
      rintro ⟨src,err',hmem,hneg⟩
      simp only [List.mem_cons, List.not_mem_nil, reduceCtorEq, Event.compress.injEq, false_or, or_false] at hmem
      exact herr (hmem.2 ▸ hneg)
    · have hframe : ∀ wpos r h w len x src, ¬ CompressionFailed (frameLog fRead fWrite pos wpos r h w len x src) := by
        simp [CompressionFailed, frameLog]
      rw [compressionFailed_append, ih]
      refine ⟨fun h => .inr ⟨⟨z,rfl⟩,h.resolve_left (hframe _ _ _ _ _ _ _)⟩,?_⟩
      rintro (⟨err',h⟩ | ⟨-,h⟩)
      · cases h
      · exact .inr h

end Logs

/-! ## The second half of `process_enc_comp` -/

/-- What an open returns is the file of that name. -/
def OpensAt (cwd : Path) : (c : Call) → Answer c → Prop
  | .filpOpen name _, r => ∀ f, r = .ok f → f.path = resolve cwd name
  | _, _ => True

theorem handle_cwd (P : Platform) (c : Call) (s : Kernel) : (Kernel.handle P c s).2.1.cwd = s.1.cwd := by
  obtain ⟨t,fs⟩ := s
  cases c with
  | kmalloc size =>
    obtain ⟨r,t',hcall,ha⟩ := kmalloc_spec P size t fs
    rw [hcall]
    exact ha.cwd
  | _ =>
    simp only [Kernel.handle]
    repeat' split
    all_goals rfl

theorem handle_opensAt (P : Platform) (c : Call) (s : Kernel) (r : Answer c) (hr : (Kernel.handle P c s).1 = some r) :
    OpensAt s.1.cwd c r := by
  obtain ⟨t,fs⟩ := s
  cases c with
  | filpOpen name create =>
    rintro f rfl
    simp only [Kernel.handle] at hr
    split at hr
    · cases hr
    · split at hr
      · cases hr
      · cases hr
        rfl
  | _ => trivial

/-- Only `temp.txt` is removed. -/
theorem tempOnly_contract (cwd : Path) (key : Ptr) :
    CipherContract (fun c => ∀ f, c = .vfsUnlink f → f.path = resolve cwd tempTxt) (OpensAt cwd) key where
  plain := by
    rintro c hplain f rfl
    exact hplain.elim
  raise := by simp
  restore := by simp
  release := by simp
  releaseNull := by simp
  cipher := by simp
  freeKey := by simp

theorem encryptTemp_unlinks (P : Platform) (buf : Buf) (name : Path) (key : Ptr) (t : Task) (fs : Fs) :
    ∀ e ∈ logOf P (encryptTemp buf name key) (t,fs), ∀ f err, e = .unlink f err → f.path = resolve t.cwd tempTxt := by
  have hopen : ∀ f, OpensAt t.cwd (.filpOpen tempTxt false) (.ok f) →
      ∀ g, Call.vfsUnlink f = .vfsUnlink g → g.path = resolve t.cwd tempTxt := by
    rintro f hf g ⟨rfl⟩
    exact hf f rfl
  have hmeets := (tempOnly_contract t.cwd key).encryptTemp (b := buf) (by simp) name hopen
  refine hmeets.log_spec (I := fun s => s.1.cwd = t.cwd) ?_ ?_ ?_ rfl
  · intro c s r _ hs hr
    rw [← hs]
    exact handle_opensAt P c s r hr
  · intro c s _ hs
    exact (handle_cwd P c s).trans hs
  · intro c r hc _ e he f err hef
    subst hef
    cases c with
    | vfsUnlink g =>
      simp only [Call.events, List.mem_singleton, Event.unlink.injEq] at he
      rw [he.1]
      exact hc g rfl
    | _ => simp [Call.events] at he

/-! ## The two operations -/

/-- The unlink of the original is not reached, or it fails. -/
def OriginalStays (P : Platform) (t : Task) (fs : Fs) (fname target : Path) (c : List Byte) : Prop :=
  ¬ CompressionStarts P t fs fname target ∨ CompressionDies P t c (CInt.toInt c.length).toNat ∨
    t.faults.unlinks.headD none ≠ none

/-- The compressor refuses a chunk of the file. -/
def Refused (P : Platform) (t : Task) (c : List Byte) : Prop :=
  CompressionEnds ChunkEnd.IsRefused P t c (CInt.toInt c.length).toNat

section Operations
variable (P : Platform) {t : Task} {fs : Fs} {c : List Byte} {fname : Path}

theorem processcompress_keeps_iff (hentry : fs.entry (resolve t.cwd fname) = some c) :
    KeepsUnlessCompressed (resolve t.cwd fname) (logOf P (processcompress P fname) (t,fs)) ↔
      OriginalStays P t fs fname (cmpName P t fname) c ∨ ¬ Refused P t c := by
  obtain ⟨n,hn⟩ : ∃ n, (CInt.toInt c.length).toNat = n := ⟨_,rfl⟩
  simp only [OriginalStays, Refused, hn, or_assoc]
  by_cases hstart : CompressionStarts P t fs fname (cmpName P t fname)
  swap
  · obtain ⟨es,a,s,hruns,hopened⟩ := processcompress_idle P hstart
    have hlog : logOf P (processcompress P fname) (t,fs) = es := hruns.log
    rw [hlog]
    exact iff_of_true (fun h => absurd h (not_removed_of_opened hopened)) (.inl hstart)
  obtain ⟨past,c',hslot⟩ := Slot.exists_of_now_ne_none hstart.found
  obtain rfl : c' = c := by
    rw [Fs.entry, hslot] at hentry
    exact Option.some.inj hentry
  obtain ⟨fWrite,a,s,-,hruns,-⟩ := processcompress_log P hstart hslot hn
  have hlog : logOf P (processcompress P fname) (t,fs) = _ := hruns.log
  have hloop := fun e he => (compressLog_transfers P (t.faults.allocs.getD 4 false) ⟨resolve t.cwd fname,past.length⟩ fWrite c' n
    (fun j => t.found (5+j) 4096) t.faults.atCompression n 0 0 e he).1
  have hnone := not_removed_of_no_unlink (resolve t.cwd fname) hloop
  rw [hlog, KeepsUnlessCompressed, removed_append, removed_append, compressionFailed_append, compressionFailed_append,
    compressionLog, compressLog_failed_iff]
  by_cases hdead : CompressionDies P t c' n
  · rw [if_pos hdead]
    refine iff_of_true ?_ (.inr (.inl hdead))
    rintro (h | h | h)
    · simp [Removed] at h
    · exact absurd h hnone
    · simp [Removed] at h
  · have hquiet : ¬ CompressionFailed [.opened fname false true,.opened (cmpName P t fname) true true] := by
      simp [CompressionFailed]
    have hquiet' : ¬ CompressionFailed [.unlink ⟨resolve t.cwd fname,past.length⟩ (t.faults.unlinks.headD none).code] := by
      simp [CompressionFailed]
    have hopens : ¬ Removed (resolve t.cwd fname) [.opened fname false true,.opened (cmpName P t fname) true true] := by
      simp [Removed]
    have hunlink := removed_unlink_iff (f := ⟨resolve t.cwd fname,past.length⟩) (x := t.faults.unlinks.headD none)
    rw [if_neg hdead, or_iff_right hopens, or_iff_right hnone, or_iff_right hquiet, or_iff_left hquiet', hunlink, imp_iff_not_or]
    exact ⟨fun h => .inr (.inr h),fun h => (h.resolve_left (not_not.mpr hstart)).resolve_left hdead⟩

theorem processEncComp_held_of (key : Ptr) (h : ¬ CompressionStarts P t fs fname tempTxt) (path cwd name : Path) :
    HeldThroughout path cwd name (logOf P (processEncComp P fname key) (t,fs)) := by
  obtain ⟨es,a,s,hruns,hopened⟩ := processEncComp_idle P key h
  have hlog : logOf P (processEncComp P fname key) (t,fs) = es := hruns.log
  rw [hlog]
  exact heldThroughout_of_not_removed (not_removed_of_opened hopened)

theorem processEncComp_held_iff (key : Ptr) (hentry : fs.entry (resolve t.cwd fname) = some c)
    (hne : resolve t.cwd fname ≠ resolve t.cwd tempTxt) :
    HeldThroughout (resolve t.cwd fname) t.cwd (encCompName P t fname) (logOf P (processEncComp P fname key) (t,fs)) ↔
      OriginalStays P t fs fname tempTxt c := by
  obtain ⟨n,hn⟩ : ∃ n, (CInt.toInt c.length).toNat = n := ⟨_,rfl⟩
  simp only [OriginalStays, hn]
  by_cases hstart : CompressionStarts P t fs fname tempTxt
  swap
  · exact iff_of_true (processEncComp_held_of P key hstart _ _ _) (.inl hstart)
  obtain ⟨past,c',hslot⟩ := Slot.exists_of_now_ne_none hstart.found
  obtain rfl : c' = c := by
    rw [Fs.entry, hslot] at hentry
    exact Option.some.inj hentry
  obtain ⟨fTemp,buf,t',fs',a,s,-,hcwd,hruns⟩ := processEncComp_log P key hstart hslot hne hn
  have hlog : logOf P (processEncComp P fname key) (t,fs) = _ := hruns.log
  have hloop := fun e he => compressLog_transfers P (t.faults.allocs.getD 4 false) ⟨resolve t.cwd fname,past.length⟩ fTemp c' n
    (fun j => t.found (5+j) 4096) t.faults.atCompression n 0 0 e he
  have hnone := not_removed_of_no_unlink (resolve t.cwd fname) (fun e he => (hloop e he).1)
  rw [hlog, compressionLog]
  by_cases hdead : CompressionDies P t c' n
  · rw [if_pos hdead, List.append_nil]
    refine iff_of_true (heldThroughout_of_not_removed ?_) (.inr (.inl hdead))
    rw [removed_append]
    rintro (h | h)
    · simp [Removed] at h
    · exact absurd h hnone
  rw [if_neg hdead]
  by_cases hfault : t.faults.unlinks.headD none = none
  · have hno : ¬ (¬ CompressionStarts P t fs fname tempTxt ∨ CompressionDies P t c' n ∨
        t.faults.unlinks.headD none ≠ none) :=
      not_or.mpr ⟨not_not.mpr hstart,not_or.mpr ⟨hdead,not_not.mpr hfault⟩⟩
    refine iff_of_false (fun hheld => ?_) hno
    -- the step right behind the unlink
    have hsplit := hheld ([.opened fname false true,.opened tempTxt true true] ++
        (compressLog P (t.faults.allocs.getD 4 false) ⟨resolve t.cwd fname,past.length⟩ fTemp c' n
            (fun j => t.found (5+j) 4096) t.faults.atCompression n 0 0 ++ [.unlink ⟨resolve t.cwd fname,past.length⟩ (t.faults.unlinks.headD none).code]))
      (logOf P (encryptTemp buf (encCompName P t fname) key) (t',fs')) (by simp)
    have hopened := (hsplit ⟨⟨resolve t.cwd fname,past.length⟩,_,by simp,rfl,fault_code_nonneg.mpr hfault⟩).opened
    have hname : encCompName P t fname ≠ tempTxt := by
      rw [encCompName_eq, trashName]
      simp [usr, tempTxt]
    rw [List.mem_append, List.mem_append] at hopened
    rcases hopened with h | h | h
    · simp [hname] at h
    · exact (hloop _ h).2 _ _ _ rfl
    · simp at h
  · refine iff_of_true (heldThroughout_of_not_removed ?_) (.inr (.inr hfault))
    rintro ⟨f,err,hm,hpath,hok⟩
    rcases List.mem_append.mp hm with h | h
    · simp at h
    rcases List.mem_append.mp h with h | h
    · exact (hloop _ h).1 f err rfl
    rcases List.mem_cons.mp h with h | h
    · obtain ⟨-,rfl⟩ := Event.unlink.inj h
      exact hfault (fault_code_nonneg.mp hok)
    · have htemp := encryptTemp_unlinks P buf (encCompName P t fname) key t' fs' _ h f err rfl
      rw [hcwd] at htemp
      exact hne (hpath.symm.trans htemp)

end Operations

/-- `processcompress` removes an original only after a compression without failure, exactly when it does not come to its
unlink, the unlink fails, or no chunk is refused. `process_enc_comp` keeps the original until the entry is written
exactly when it does not come to its first unlink or that fails. -/
theorem originals_kept_iff (P : Platform) (fname : Path) (key : Ptr) {t : Task} {fs : Fs} {c : List Byte}
    (hentry : fs.entry (resolve t.cwd fname) = some c) :
    (KeepsUnlessCompressed (resolve t.cwd fname) (logOf P (processcompress P fname) (t,fs)) ↔
      OriginalStays P t fs fname (cmpName P t fname) c ∨ ¬ Refused P t c) ∧
    (¬ CompressionStarts P t fs fname tempTxt → HeldThroughout (resolve t.cwd fname) t.cwd (encCompName P t fname)
      (logOf P (processEncComp P fname key) (t,fs))) ∧
    (resolve t.cwd fname ≠ resolve t.cwd tempTxt → (HeldThroughout (resolve t.cwd fname) t.cwd (encCompName P t fname)
      (logOf P (processEncComp P fname key) (t,fs)) ↔ OriginalStays P t fs fname tempTxt c)) :=
  ⟨processcompress_keeps_iff P hentry,fun h => processEncComp_held_of P key h _ _ _,processEncComp_held_iff P key hentry⟩

section Refusal

/-- The compressor refuses the first chunk. -/
def refusal : Task := (Task.fresh ['/'] 0 { compressions := [some 0] }).withKey [107,0]

theorem originals_kept_refusal :
    (KeepsUnlessCompressed ['/','a'] (logOf .bare (processcompress .bare ['/','a']) (refusal,oneByte)) ↔
      OriginalStays .bare refusal oneByte ['/','a'] (cmpName .bare refusal ['/','a']) [7] ∨ ¬ Refused .bare refusal [7]) ∧
    (HeldThroughout ['/','a'] ['/'] (encCompName .bare refusal ['/','a'])
        (logOf .bare (processEncComp .bare ['/','a'] (some 0)) (refusal,oneByte)) ↔
      OriginalStays .bare refusal oneByte ['/','a'] tempTxt [7]) := by
  have hentry : oneByte.entry (resolve refusal.cwd ['/','a']) = some [7] := rfl
  have hkept := originals_kept_iff .bare ['/','a'] (some 0) hentry
  exact ⟨hkept.1,hkept.2.2 (by decide)⟩

/-- Both operations remove the original all the same, and the second one before the entry is there. -/
theorem originals_lost_refusal :
    ¬ KeepsUnlessCompressed ['/','a'] (logOf .bare (processcompress .bare ['/','a']) (refusal,oneByte)) ∧
    ¬ HeldThroughout ['/','a'] ['/'] (encCompName .bare refusal ['/','a'])
      (logOf .bare (processEncComp .bare ['/','a'] (some 0)) (refusal,oneByte)) := by
  constructor
  · intro h
    have hunlink : Event.unlink ⟨['/','a'],0⟩ 0 ∈ logOf .bare (processcompress .bare ['/','a']) (refusal,oneByte) := by
      decide +kernel
    have hrefused : Event.compress [7] (-1) ∈ logOf .bare (processcompress .bare ['/','a']) (refusal,oneByte) := by
      decide +kernel
    exact h ⟨_,_,hunlink,rfl,le_rfl⟩ ⟨_,_,hrefused,by decide⟩
  · intro h
    have hsplit := h _ _ (List.take_append_drop 5 _).symm ⟨⟨['/','a'],0⟩,0,by decide +kernel,rfl,le_rfl⟩
    have hopened := hsplit.opened
    revert hopened
    decide +kernel

end Refusal

end XClone
