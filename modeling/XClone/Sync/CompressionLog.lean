import XClone.Sync.RoundTrip

/-! # `compress_file` under any faults

What is seen of the loop: a read, a call of the compressor and two writes for each chunk, up
to the first chunk that the compressor refuses or in which the caller dies.
-/
namespace XClone
open Effects Prog

/-! ## One chunk -/

/-- What the compressor answers; `none` is the death of its caller. -/
def deflated (P : Platform) (noRoom : Bool) (f : Faults) (src : List Byte) (slen : ℤ) : Option (ℤ × List Byte) :=
  match f.compressions.headD none with
  | some e => some (Int.negSucc e,[])
  | none => if noRoom then some (einval,[]) else P.convert P.deflate src (CInt.toUInt slen)

/-- How a round ends: there is no compressor or it does not come back, it refuses the chunk, there is
no page for what comes out, or this is stored. -/
inductive ChunkEnd where
  | dead
  | refused (err : ℤ)
  | lost (err : ℤ)
  | stored (z : List Byte)
deriving DecidableEq, Repr

def chunkEnd (P : Platform) (noRoom : Bool) (f : Faults) (src : List Byte) (r : ℤ) : ChunkEnd :=
  if f.comps.headD none ≠ none then .dead
  else
    match deflated P noRoom f src r with
    | none => .dead
    | some (err,z) =>
      if err < 0 then .refused err else if f.allocs.getD 1 false = true ∧ z ≠ [] then .lost err else .stored z

/-- The caller dies. -/
def ChunkEnd.Dies (e : ChunkEnd) : Prop := e = .dead ∨ ∃ err, e = .lost err

def ChunkEnd.IsRefused (e : ChunkEnd) : Prop := ∃ err, e = .refused err

def ChunkEnd.IsStored (e : ChunkEnd) : Prop := ∃ z, e = .stored z

instance : DecidablePred ChunkEnd.Dies := fun e => by
  cases e <;> simp only [ChunkEnd.Dies, reduceCtorEq, exists_const, or_false, false_or, ChunkEnd.lost.injEq, exists_eq'] <;>
    infer_instance

instance : DecidablePred ChunkEnd.IsRefused := fun e => by
  cases e <;> simp only [ChunkEnd.IsRefused, reduceCtorEq, exists_const, ChunkEnd.refused.injEq, exists_eq'] <;> infer_instance

instance : DecidablePred ChunkEnd.IsStored := fun e => by
  cases e <;> simp only [ChunkEnd.IsStored, reduceCtorEq, exists_const, ChunkEnd.stored.injEq, exists_eq'] <;> infer_instance

/-- The ways in which a round ends. -/
theorem chunkEnd_cases (P : Platform) (noRoom : Bool) (f : Faults) (src : List Byte) (r : ℤ) :
    (chunkEnd P noRoom f src r = .dead ∧ (f.comps.headD none ≠ none ∨ deflated P noRoom f src r = none)) ∨
    (f.comps.headD none = none ∧ ∃ err z, deflated P noRoom f src r = some (err,z) ∧
      (err < 0 ∧ chunkEnd P noRoom f src r = .refused err ∨
        ¬ err < 0 ∧ (f.allocs.getD 1 false = true ∧ z ≠ []) ∧ chunkEnd P noRoom f src r = .lost err ∨
        ¬ err < 0 ∧ (f.allocs.getD 1 false = true → z = []) ∧ chunkEnd P noRoom f src r = .stored z)) := by
  unfold chunkEnd
  by_cases hcomp : f.comps.headD none = none
  swap
  · exact .inl ⟨if_pos hcomp,.inl hcomp⟩
  rw [if_neg (not_not_intro hcomp)]
  cases hz : deflated P noRoom f src r with
  | none => exact .inl ⟨rfl,.inr rfl⟩
  | some answer =>
    obtain ⟨err,z⟩ := answer
    refine .inr ⟨hcomp,err,z,rfl,?_⟩
    by_cases herr : err < 0
    · exact .inl ⟨herr,if_pos herr⟩
    by_cases hlost : f.allocs.getD 1 false = true ∧ z ≠ []
    · refine .inr (.inl ⟨herr,hlost,?_⟩)
      simp only [if_neg herr, if_pos hlost]
    · refine .inr (.inr ⟨herr,fun hmissing => ?_,?_⟩)
      · by_contra hne
        exact hlost ⟨hmissing,hne⟩
      · simp only [if_neg herr, if_neg hlost]

/-- What is found at a page, if there is one, behind a read. -/
def pageFilled (missing : Bool) (page x : List Byte) : List Byte := if missing then [] else Bytes.overlay 0 page 0 x

theorem filled_page (t : Task) (i a : ℕ) (x : List Byte) :
    filled (t.page i a) x = pageFilled (t.faults.allocs.getD i false) (t.found i 4096) x := by
  unfold Task.page pageFilled
  split <;> rfl

/-- What the result of a read makes of the chunk. -/
def chunkRead (f : Faults) (size : ℕ) (pos : ℤ) (rest : ℕ) : ℤ :=
  readCountInto (f.allocs.getD 0 false) (f.reads.headD .full) size pos (min 4080 rest)

/-- How the next round ends, from what its calls will return; `page` is what its first allocation holds. -/
def nextEnd (P : Platform) (noRoom : Bool) (page : List Byte) (c : List Byte) (f : Faults) (rest : ℕ) (pos : ℤ) : ChunkEnd :=
  chunkEnd P noRoom f (pageFilled (f.allocs.getD 0 false) page
    ((c.drop pos.toNat).take (chunkRead f c.length pos rest).toNat)) (chunkRead f c.length pos rest)

/-- What one round uses up. -/
def Faults.popCompressed (f : Faults) : Faults := f.popAlloc.popAlloc.popRead.popComp.popCompression.popWrite.popWrite

/-- The observations of a chunk that is stored, in order. -/
def frameLog (fRead fWrite : File) (pos wpos r h w : ℤ) (len : ℕ) (x src : List Byte) : List Event :=
  [.read fRead pos len r x,.compress src 0,.write fWrite wpos 4 h,.write fWrite (advance wpos h) 8 w]

/-! ## All chunks -/

/-- The observations of the loop, from what the calls in it will return; `bufs` are the pages it will be given. -/
def compressLog (P : Platform) (noRoom : Bool) (fRead fWrite : File) (c : List Byte) :
    ℕ → (ℕ → List Byte) → Faults → ℕ → ℤ → ℤ → List Event
  | 0, _, _, _, _, _ => []
  | rounds+1, bufs, f, rest, pos, wpos =>
    if rest = 0 then [] else
      let len := min 4080 rest
      let r := chunkRead f c.length pos rest
      let x := (c.drop pos.toNat).take r.toNat
      let src := (pageFilled (f.allocs.getD 0 false) (bufs 0) x).take (CInt.toUInt r)
      match nextEnd P noRoom (bufs 0) c f rest pos with
      | .dead => [.read fRead pos len r x]
      | .refused err => [.read fRead pos len r x,.compress src err]
      | .lost err => [.read fRead pos len r x,.compress src err]
      | .stored _ =>
        let h := writeCount (f.writes.headD .full) wpos 4
        let w := writeCountFrom (f.allocs.getD 1 false) (f.writes.getD 1 .full) (advance wpos h) 8
        frameLog fRead fWrite pos wpos r h w len x src ++
          compressLog P noRoom fRead fWrite c rounds (fun j => bufs (2+j)) f.popCompressed (rest - len)
            (CInt.toInt (pos + r)) (CInt.toInt (wpos + CInt.toInt w))

/-- The loop ends in a chunk that is as `Q` says. -/
def CompressEnds (Q : ChunkEnd → Prop) (P : Platform) (noRoom : Bool) (c : List Byte) :
    ℕ → (ℕ → List Byte) → Faults → ℕ → ℤ → Prop
  | 0, _, _, _, _ => False
  | rounds+1, bufs, f, rest, pos =>
    rest ≠ 0 ∧ (Q (nextEnd P noRoom (bufs 0) c f rest pos) ∨ (nextEnd P noRoom (bufs 0) c f rest pos).IsStored ∧
      CompressEnds Q P noRoom c rounds (fun j => bufs (2+j)) f.popCompressed (rest - min 4080 rest)
        (CInt.toInt (pos + chunkRead f c.length pos rest)))

instance CompressEnds.decidable (Q : ChunkEnd → Prop) [DecidablePred Q] (P : Platform) (noRoom : Bool) (c : List Byte) :
    ∀ rounds bufs f rest pos, Decidable (CompressEnds Q P noRoom c rounds bufs f rest pos)
  | 0, _, _, _, _ => inferInstanceAs (Decidable False)
  | rounds+1, bufs, f, rest, pos =>
    have := CompressEnds.decidable Q P noRoom c rounds (fun j => bufs (2+j)) f.popCompressed (rest - min 4080 rest)
      (CInt.toInt (pos + chunkRead f c.length pos rest))
    inferInstanceAs (Decidable (_ ∧ (_ ∨ _ ∧ _)))

/-- A chunk kills the caller. -/
abbrev CompressDies := CompressEnds ChunkEnd.Dies

/-- The compressor refuses a chunk. -/
abbrev CompressRefuses := CompressEnds ChunkEnd.IsRefused

section Rounds
variable (P : Platform) {t : Task} {fs : Fs} {fRead fWrite : File} {past : List (List Byte)} {c out : List Byte}
  {outLen : Option ℤ} {buff4 : Option Buf} {src z : List Byte} {r : ℤ}

theorem handle_cryptoCompCompress (src : List Byte) (slen : ℤ) (outLen : Option ℤ) (t : Task) (fs : Fs) :
    Kernel.handle P (.cryptoCompCompress src slen outLen) (t,fs) =
      (deflated P (decide (outLen = some 0)) t.faults src slen,t.spend .popCompression,fs) := by
  simp only [Kernel.handle, deflated, decide_eq_true_eq]
  cases t.faults.compressions.headD none with
  | some e => rfl
  | none =>
    by_cases h : outLen = some 0
    · simp only [if_pos h]
    · simp only [if_neg h]

variable (t fs outLen buff4) in
theorem compressBuffer_dies (h : t.faults.comps.headD none ≠ none ∨
      deflated P (decide (outLen = some 0)) t.faults src r = none) :
    ∃ t', Runs P (compressBuffer src r buff4 outLen) (t,fs) [] none (t',fs) := by
  have hcall := handle_cryptoAllocComp P t fs
  cases hc : t.faults.comps.headD none with
  | some e =>
    refine ⟨t.spend .popComp,?_⟩
    rw [hc] at hcall
    rw [compressBuffer]
    refine (Does.call hcall).bind ?_
    rw [if_pos (show Fault.code (some e) < 0 from Int.negSucc_lt_zero e)]
    exact die_runs P _
  | none =>
    have hnone := h.resolve_left (not_not_intro hc)
    have hdead := handle_cryptoCompCompress P src r outLen (t.spend .popComp) fs
    refine ⟨(t.spend .popComp).spend .popCompression,?_⟩
    rw [hc] at hcall
    rw [show deflated P (decide (outLen = some 0)) (t.spend .popComp).faults src r = none from hnone] at hdead
    rw [compressBuffer]
    refine (Does.call hcall).bind ?_
    rw [if_neg (show ¬ Fault.code none < 0 by decide)]
    exact (Does.dead hdead).bind_dead

variable (t fs buff4) in
theorem compressBuffer_refuses (hc : t.faults.comps.headD none = none) {err : ℤ}
    (hz : deflated P (decide (outLen = some 0)) t.faults src r = some (err,z)) (herr : err < 0) :
    Runs P (compressBuffer src r buff4 outLen) (t,fs) [.compress (src.take (CInt.toUInt r)) err] (some (-1,none))
      ((t.spend .popComp).spend .popCompression,fs) := by
  have hcall := handle_cryptoAllocComp P t fs
  have hrefused := handle_cryptoCompCompress P src r outLen (t.spend .popComp) fs
  rw [hc] at hcall
  rw [show deflated P (decide (outLen = some 0)) (t.spend .popComp).faults src r = some (err,z) from hz] at hrefused
  rw [compressBuffer]
  refine (Does.call hcall).bind ?_
  rw [if_neg (show ¬ Fault.code none < 0 by decide)]
  refine (Does.call hrefused).bind ?_
  simp only [if_pos herr]
  exact Does.pure _ _

variable (t fs) in
theorem compressBuffer_stores (hc : t.faults.comps.headD none = none) {err : ℤ}
    (hz : deflated P (decide (outLen = some 0)) t.faults src r = some (err,z)) (herr : ¬ err < 0)
    {stored : Option (Option (List Byte))} {s : Kernel}
    (hstore : Runs P (storeOutput buff4 z) ((t.spend .popComp).spend .popCompression,fs) [] stored s) :
    Runs P (compressBuffer src r buff4 outLen) (t,fs) [.compress (src.take (CInt.toUInt r)) err]
      (stored.map (fun d => ((z.length : ℤ),d))) s := by
  have hcall := handle_cryptoAllocComp P t fs
  have hdone := handle_cryptoCompCompress P src r outLen (t.spend .popComp) fs
  rw [hc] at hcall
  rw [show deflated P (decide (outLen = some 0)) (t.spend .popComp).faults src r = some (err,z) from hz] at hdone
  rw [compressBuffer]
  refine (Does.call hcall).bind ?_
  rw [if_neg (show ¬ Fault.code none < 0 by decide)]
  refine (Does.call hdone).bind ?_
  simp only [if_neg herr]
  cases stored with
  | some d => exact hstore.bind (Does.pure _ _)
  | none => exact hstore.bind_dead

variable {tei x : List Byte} {pos wpos : ℤ} {len : ℕ} {buff3 : Option Buf}

variable (wpos buff4 outLen fWrite tei) in
/-- There is no compressor, or it does not come back. -/
theorem compressRound_dies (hcontent : fs.content fRead = c) (hpos : -2147483648 ≤ pos ∧ pos < 2147483648)
    (hr : readCountInto buff3.isNone (t.faults.reads.headD .full) c.length pos len = r)
    (hx : (c.drop pos.toNat).take r.toNat = x)
    (h : t.faults.comps.headD none ≠ none ∨ deflated P (decide (outLen = some 0)) t.faults (filled buff3 x) r = none) :
    ∃ s, Runs P (compressRound fRead fWrite buff3 buff4 outLen tei len pos wpos) (t,fs) [.read fRead pos len r x] none s := by
  have hread := fileReadInto_runs P fRead t fs buff3 hpos.1 hpos.2 len (r := r) (by rw [hcontent]; exact hr)
  rw [hcontent, hx] at hread
  obtain ⟨t',hdead⟩ := compressBuffer_dies P (t.spend .popRead) fs outLen buff4 h
  refine ⟨(t',fs),?_⟩
  rw [compressRound]
  exact hread.bind hdead.bind_dead

variable (wpos fWrite tei) in
/-- There is no page for what comes out. -/
theorem compressRound_drops (hcontent : fs.content fRead = c) (hpos : -2147483648 ≤ pos ∧ pos < 2147483648)
    (hr : readCountInto buff3.isNone (t.faults.reads.headD .full) c.length pos len = r)
    (hx : (c.drop pos.toNat).take r.toNat = x) (hcomp : t.faults.comps.headD none = none) {err : ℤ}
    (hz : deflated P (decide (outLen = some 0)) t.faults (filled buff3 x) r = some (err,z)) (herr : ¬ err < 0) (hne : z ≠ []) :
    ∃ s, Runs P (compressRound fRead fWrite buff3 none outLen tei len pos wpos) (t,fs)
      [.read fRead pos len r x,.compress ((filled buff3 x).take (CInt.toUInt r)) err] none s := by
  have hread := fileReadInto_runs P fRead t fs buff3 hpos.1 hpos.2 len (r := r) (by rw [hcontent]; exact hr)
  rw [hcontent, hx] at hread
  have hdead := compressBuffer_stores P (t.spend .popRead) fs hcomp hz herr (storeOutput_dies P hne _)
  refine ⟨(((t.spend .popRead).spend .popComp).spend .popCompression,fs),?_⟩
  rw [compressRound]
  exact hread.bind hdead.bind_dead

variable (wpos buff4 fWrite tei) in
/-- A chunk that the compressor refuses. -/
theorem compressRound_fails (hcontent : fs.content fRead = c) (hpos : -2147483648 ≤ pos ∧ pos < 2147483648)
    (hr : readCountInto buff3.isNone (t.faults.reads.headD .full) c.length pos len = r)
    (hx : (c.drop pos.toNat).take r.toNat = x) (hcomp : t.faults.comps.headD none = none) {err : ℤ}
    (hz : deflated P (decide (outLen = some 0)) t.faults (filled buff3 x) r = some (err,z)) (herr : err < 0) :
    Runs P (compressRound fRead fWrite buff3 buff4 outLen tei len pos wpos) (t,fs)
      [.read fRead pos len r x,.compress ((filled buff3 x).take (CInt.toUInt r)) err] (some (.error (-1)))
      (((((t.spend .popRead).spend .popComp).spend .popCompression).freed (buff3.map Buf.addr)).freed (buff4.map Buf.addr),
        fs) := by
  have hread := fileReadInto_runs P fRead t fs buff3 hpos.1 hpos.2 len (r := r) (by rw [hcontent]; exact hr)
  rw [hcontent, hx] at hread
  have hrefused := compressBuffer_refuses P (t.spend .popRead) fs buff4 hcomp hz herr
  rw [compressRound]
  exact hread.bind (hrefused.bind ((freePages_runs P _ _).bind (Does.pure _ _)))

variable (wpos len) in
/-- One chunk that the compressor takes, whatever its transfers return. -/
theorem compressRound_runs (hT : Transfer fRead fWrite past c out fs) (htei : tei.length = 4)
    (h₄ : ∀ b, buff4 = some b → b.bytes.length = PAGE_SIZE) (hpos : -2147483648 ≤ pos ∧ pos < 2147483648)
    (hr : readCountInto buff3.isNone (t.faults.reads.headD .full) c.length pos len = r)
    (hx : (c.drop pos.toNat).take r.toNat = x) (hcomp : t.faults.comps.headD none = none) {err : ℤ}
    (hz : deflated P (decide (outLen = some 0)) t.faults (filled buff3 x) r = some (err,z)) (herr : ¬ err < 0)
    (hstore : buff4 = none → z = []) {h w : ℤ} (hh : writeCount (t.faults.writes.headD .full) wpos 4 = h)
    (hw : writeCountFrom buff4.isNone (t.faults.writes.getD 1 .full) (advance wpos h) 8 = w) :
    ∃ fs' out', Runs P (compressRound fRead fWrite buff3 buff4 outLen tei len pos wpos) (t,fs)
        [.read fRead pos len r x,.compress ((filled buff3 x).take (CInt.toUInt r)) err,.write fWrite wpos 4 h,
          .write fWrite (advance wpos h) 8 w]
        (some (.ok (r,CInt.toInt w,(z.length : ℤ),snprintf4 tei z.length))) (t.afterFrame buff3 buff4,fs') ∧
      Transfer fRead fWrite past c out' fs' ∧ ∀ path, path ≠ fWrite.path → fs' path = fs path := by
  have hread := fileReadInto_runs P fRead t fs buff3 hpos.1 hpos.2 len (r := r) (by rw [hT.source]; exact hr)
  rw [hT.source, hx] at hread
  have hdone := compressBuffer_stores P (t.spend .popRead) fs hcomp hz herr (storeOutput_runs P hstore _)
  have hheader := handle_vfsWrite_count P fWrite ((((t.spend .popRead).spend .popComp).spend .popCompression).limit .kernelDs)
    fs wpos (length_snprintf4 htei (z.length : ℤ)).ge hh
  have hT₁ := hT.write wpos.toNat ((snprintf4 tei z.length).take h.toNat)
  obtain ⟨fs₁,hfs₁⟩ : ∃ fs₁, Function.update fs fWrite.path ((fs fWrite.path).write fWrite.inode wpos.toNat
    ((snprintf4 tei z.length).take h.toNat)) = fs₁ := ⟨_,rfl⟩
  rw [hfs₁] at hheader hT₁
  have hsecond : (((((t.spend .popRead).spend .popComp).spend .popCompression).limit .kernelDs).spend
      .popWrite).faults.writes.headD .full = t.faults.writes.getD 1 .full := headD_of_drop List.drop_one.symm _
  have hfits : ∀ bytes, buff4.map (fun b => Bytes.overlay 0 b.bytes 0 z) = some bytes → sizeofPointer ≤ bytes.length := by
    rintro bytes hbytes
    obtain ⟨b,hb,rfl⟩ := Option.map_eq_some_iff.mp hbytes
    have hold := Bytes.length_old_le_overlay_zero 0 b.bytes z
    rw [h₄ b hb] at hold
    exact (by decide : sizeofPointer ≤ PAGE_SIZE).trans hold
  rw [← Option.isNone_map (f := fun b => Bytes.overlay 0 b.bytes 0 z)] at hw
  have hbody := vfsWriteFrom_runs P fWrite
    (((((t.spend .popRead).spend .popComp).spend .popCompression).limit .kernelDs).spend .popWrite) fs₁ (advance wpos h) hfits
    (w := w) (by rw [hsecond]; exact hw)
  refine ⟨_,_,?_,hT₁.write (advance wpos h).toNat
    (((buff4.map (fun b => Bytes.overlay 0 b.bytes 0 z)).getD []).take w.toNat),?_⟩
  · have hlen : ¬ (z.length : ℤ) < 0 := by omega
    rw [compressRound]
    refine hread.bind (hdone.bind ?_)
    simp only [if_neg hlen]
    exact (Does.call (handle_getFs P _ fs)).bind ((Does.call (handle_setFs P _ fs .kernelDs)).bind
      ((Does.call hheader).bind (hbody.bind ((Does.call (handle_setFs P _ _ _)).bind
        ((freePages_runs P _ _).bind (Does.pure _ _))))))
  · intro path hne
    rw [Function.update_of_ne hne, ← hfs₁, Function.update_of_ne hne]

end Rounds

/-! ## The loop -/

section Loop
variable (P : Platform) {t : Task} {fs : Fs} {fRead fWrite : File} {past : List (List Byte)} {c out : List Byte}
  {outLen : Option ℤ}

/-- What a loop of `compress_file` leaves as it was. -/
structure CompressKeeps (t t' : Task) : Prop where
  opens : t'.faults.opens = t.faults.opens
  unlinks : t'.faults.unlinks = t.faults.unlinks
  xattrs : t'.faults.xattrs = t.faults.xattrs
  ciphers : t'.faults.ciphers = t.faults.ciphers
  setkeys : t'.faults.setkeys = t.faults.setkeys
  encrypts : t'.faults.encrypts = t.faults.encrypts

theorem CompressKeeps.refl (t : Task) : CompressKeeps t t := ⟨rfl,rfl,rfl,rfl,rfl,rfl⟩

theorem CompressKeeps.trans {t t' t'' : Task} (h : CompressKeeps t t') (h' : CompressKeeps t' t'') : CompressKeeps t t'' :=
  ⟨h'.opens.trans h.opens,h'.unlinks.trans h.unlinks,h'.xattrs.trans h.xattrs,h'.ciphers.trans h.ciphers,
    h'.setkeys.trans h.setkeys,h'.encrypts.trans h.encrypts⟩

/-- How the loop ends, unless it dies: with its result, and changes in the target only. -/
structure Compressed (fRead fWrite : File) (past : List (List Byte)) (c : List Byte) (t : Task) (fs : Fs) (s : Kernel) :
    Prop where
  keeps : CompressKeeps t s.1
  becomes : ∃ k, Becomes t k s.1
  transfer : ∃ out, Transfer fRead fWrite past c out s.2
  frame : ∀ path, path ≠ fWrite.path → s.2 path = fs path

theorem Buffers.afterFrame {a₃ a₄ : ℕ} {t₁ t₂ : Task} (h : Buffers P t fs a₃ a₄ t₁ t₂) :
    Becomes t 2 (t₂.afterFrame (t.page 0 a₃) (t.page 1 a₄)) := by
  apply h.release
  · simp only [Task.afterFrame, Task.freed_garbage, Task.spend_garbage, Task.limit_garbage]
  · simp only [Task.afterFrame, Task.freed_stack, Task.spend_stack, Task.limit_stack]
  · simp only [Task.afterFrame, Task.freed_cwd, Task.spend_cwd, Task.limit_cwd]
  · simp only [Task.afterFrame, Task.freed_now, Task.spend_now, Task.limit_now]
  · simp only [Task.afterFrame, Task.freed_heap, Task.spend_heap, Task.limit_heap]

/-- The compressor succeeds with zero. -/
theorem deflated_ok {noRoom : Bool} {f : Faults} {src z : List Byte} {slen err : ℤ}
    (h : deflated P noRoom f src slen = some (err,z)) (herr : ¬ err < 0) : err = 0 := by
  unfold deflated at h
  split at h
  · cases h
    exact absurd (Int.negSucc_lt_zero _) herr
  · cases noRoom with
    | true =>
      cases h
      exact absurd (by decide) herr
    | false =>
      unfold Platform.convert at h
      simp only [Bool.false_eq_true, ↓reduceIte] at h
      split at h
      · cases h
        exact absurd (by decide) herr
      · obtain ⟨x,-,hx⟩ := Option.map_eq_some_iff.mp h
        cases hx
        rfl

/-- The loop under any faults: what is seen of it, whether it comes to its end, and what it leaves. -/
theorem compressLoop_log {noRoom : Bool} (hroom : decide (outLen = some 0) = noRoom) (rounds rest : ℕ) (err : ℤ) {tei : List Byte}
    (pos wpos : ℤ) (hT : Transfer fRead fWrite past c out fs) (htei : tei.length = 4)
    (hpos : -2147483648 ≤ pos ∧ pos < 2147483648) :
    ∃ a s, Runs P (compressLoop fRead fWrite outLen rounds err tei rest pos wpos) (t,fs)
      (compressLog P noRoom fRead fWrite c rounds (fun j => t.found j 4096) t.faults rest pos wpos) a s ∧
      (a = none ↔ CompressDies P noRoom c rounds (fun j => t.found j 4096) t.faults rest pos) ∧
      (a ≠ none → Compressed fRead fWrite past c t fs s) := by
  have hstay : ∀ t fs out, Transfer fRead fWrite past c out fs → Compressed fRead fWrite past c t fs (t,fs) :=
    fun t fs out hT => ⟨CompressKeeps.refl t,⟨0,Becomes.refl t⟩,⟨out,hT⟩,fun _ _ => rfl⟩
  induction rounds generalizing t fs rest pos wpos out err tei with
  | zero => exact ⟨_,_,Does.pure _ _,iff_of_false (by simp) id,fun _ => hstay t fs out hT⟩
  | succ rounds ih =>
    by_cases hrest : rest = 0
    · subst hrest
      rw [compressLog, if_pos rfl, compressLoop, if_neg (by decide)]
      exact ⟨_,_,Does.pure _ _,iff_of_false (by simp) (fun h => h.1 rfl),fun _ => hstay t fs out hT⟩
    have hfsize : (rest : ℤ) > 0 := by omega
    obtain ⟨a₃,a₄,t₁,t₂,hB⟩ := buffers_exist P t fs
    obtain ⟨r,hr⟩ : ∃ r, chunkRead t.faults c.length pos rest = r := ⟨_,rfl⟩
    obtain ⟨x,hx⟩ : ∃ x, (c.drop pos.toNat).take r.toNat = x := ⟨_,rfl⟩
    have hread : readCountInto (t.page 0 a₃).isNone (t₂.faults.reads.headD .full) c.length pos (min 4080 rest) = r := by
      rw [Task.isNone_page, hB.faults, ← hr]
      rfl
    have hcomps : t₂.faults.comps = t.faults.comps := by rw [hB.faults]; rfl
    have hwrites : t₂.faults.writes = t.faults.writes := by rw [hB.faults]; rfl
    have hfilled := filled_page t 0 a₃ x
    have hsame : deflated P (decide (outLen = some 0)) t₂.faults (filled (t.page 0 a₃) x) r =
        deflated P noRoom t.faults (pageFilled (t.faults.allocs.getD 0 false) (t.found 0 4096) x) r := by
      rw [hfilled, hroom, hB.faults]
      rfl
    have hend : nextEnd P noRoom (t.found 0 4096) c t.faults rest pos =
        chunkEnd P noRoom t.faults (pageFilled (t.faults.allocs.getD 0 false) (t.found 0 4096) x) r := by
      rw [nextEnd, hr, hx]
    have hkeeps₂ : CompressKeeps t t₂ := by
      constructor
      all_goals
        rw [hB.faults]
        rfl
    rw [compressLog, if_neg hrest, compressLoop, if_pos hfsize, nextChunk_natCast]
    simp only [hr, hx, CompressDies, CompressEnds, hend]
    rcases chunkEnd_cases P noRoom t.faults (pageFilled (t.faults.allocs.getD 0 false) (t.found 0 4096) x) r with
      ⟨hdead,hwhy⟩ | ⟨hcomp,err',z,hz,⟨herr,hdone⟩ | ⟨herr,⟨hmissing,hne⟩,hdone⟩ | ⟨herr,hstore,hdone⟩⟩
    · -- there is no compressor, or it does not come back
      obtain ⟨s,hround⟩ := compressRound_dies P fWrite outLen (t.page 1 a₄) tei wpos hT.source hpos hread hx
        (hwhy.imp (fun h => hcomps ▸ h) (fun h => hsame.trans h))
      rw [hdead]
      refine ⟨none,s,(Does.call hB.first).bind ((Does.call hB.second).bind hround.bind_dead),?_,fun h => absurd rfl h⟩
      exact iff_of_true rfl ⟨hrest,.inl (.inl rfl)⟩
    · -- the chunk is refused, and the loop ends with an error
      have hround := compressRound_fails P fWrite (t.page 1 a₄) tei wpos (t := t₂) hT.source hpos hread hx (hcomps ▸ hcomp)
        (hsame.trans hz) herr
      rw [hfilled] at hround
      rw [hdone]
      refine ⟨_,_,(Does.call hB.first).bind ((Does.call hB.second).bind (hround.bind (Does.pure _ _))),?_,fun _ => ?_⟩
      · refine iff_of_false (by simp) ?_
        rintro ⟨-,h | ⟨⟨z,h⟩,-⟩⟩
        · simp [ChunkEnd.Dies] at h
        · cases h
      · refine ⟨hkeeps₂.trans ⟨rfl,rfl,rfl,rfl,rfl,rfl⟩,⟨2,?_⟩,⟨out,hT⟩,fun _ _ => rfl⟩
        exact hB.release rfl rfl rfl rfl rfl
    · -- there is no page for what the compressor hands out
      obtain ⟨s,hround⟩ := compressRound_drops P fWrite tei wpos (t := t₂) hT.source hpos hread hx (hcomps ▸ hcomp)
        (hsame.trans hz) herr hne
      rw [hfilled, ← Task.page_none hmissing a₄] at hround
      rw [hdone]
      refine ⟨none,s,(Does.call hB.first).bind ((Does.call hB.second).bind hround.bind_dead),?_,fun h => absurd rfl h⟩
      exact iff_of_true rfl ⟨hrest,.inl (.inr ⟨_,rfl⟩)⟩
    · obtain rfl := deflated_ok P hz herr
      obtain ⟨h,hh⟩ : ∃ h, writeCount (t.faults.writes.headD .full) wpos 4 = h := ⟨_,rfl⟩
      obtain ⟨w,hw⟩ : ∃ w, writeCountFrom (t.faults.allocs.getD 1 false) (t.faults.writes.getD 1 .full) (advance wpos h) 8 = w :=
        ⟨_,rfl⟩
      have hroom₄ : t.page 1 a₄ = none → z = [] := by
        intro hnull
        apply hstore
        rw [← Task.isNone_page (t := t) 1 a₄, hnull, Option.isNone_none]
      obtain ⟨fs',out',hround,hT',hframe⟩ := compressRound_runs P wpos (min 4080 rest) (t := t₂) (h := h) (w := w) hT htei
        (fun b => Task.length_page) hpos hread hx (hcomps ▸ hcomp) (hsame.trans hz) herr hroom₄ (by rw [hwrites]; exact hh)
        (by rw [Task.isNone_page, hwrites]; exact hw)
      rw [hfilled] at hround
      have hfaults : (t₂.afterFrame (t.page 0 a₃) (t.page 1 a₄)).faults = t.faults.popCompressed := by
        simp only [Task.afterFrame, Task.freed_faults, Task.spend_faults, Task.limit_faults, hB.faults]
        rfl
      have hbec := hB.afterFrame P
      have hpages : (fun j => (t₂.afterFrame (t.page 0 a₃) (t.page 1 a₄)).found j 4096) = fun j => t.found (2+j) 4096 := by
        funext j
        exact hbec.found j 4096
      have hkeeps : CompressKeeps t (t₂.afterFrame (t.page 0 a₃) (t.page 1 a₄)) := by
        constructor
        all_goals
          rw [hfaults]
          rfl
      obtain ⟨a,s,hloop,hdies,hends⟩ := ih (t := t₂.afterFrame (t.page 0 a₃) (t.page 1 a₄)) (rest - min 4080 rest)
        (z.length : ℤ) (CInt.toInt (pos + r)) (CInt.toInt (wpos + CInt.toInt w)) hT' (length_snprintf4 htei _)
        (CInt.toInt_bounds _)
      rw [hfaults, hpages] at hloop hdies
      rw [hdone]
      simp only [hh, hw, frameLog]
      refine ⟨a,s,(Does.call hB.first).bind ((Does.call hB.second).bind (hround.bind hloop)),?_,fun ha => ?_⟩
      · rw [hdies]
        refine ⟨fun hd => ⟨hrest,.inr ⟨⟨z,rfl⟩,hd⟩⟩,?_⟩
        rintro ⟨-,hd | ⟨-,hd⟩⟩
        · simp [ChunkEnd.Dies] at hd
        · exact hd
      · obtain ⟨hkeep,⟨k,hbec'⟩,htrans,hother⟩ := hends ha
        refine ⟨hkeeps.trans hkeep,⟨_,hbec.trans hbec'⟩,htrans,fun path hne => ?_⟩
        exact (hother path hne).trans (hframe path hne)

/-- A negative size is none. -/
theorem compressLoop_eq (err : ℤ) (tei : List Byte) (size pos wpos : ℤ) :
    compressLoop fRead fWrite outLen size.toNat err tei size pos wpos =
      compressLoop fRead fWrite outLen size.toNat err tei (size.toNat : ℕ) pos wpos := by
  rcases Int.le_total 0 size with h | h
  · rw [Int.toNat_of_nonneg h]
  · rw [Int.toNat_of_nonpos h]
    rfl

variable (t) in
/-- The whole of `compress_file`: without its allocation the capacity is zero. -/
theorem compressFileXclone_log (hT : Transfer fRead fWrite past c out fs) {n : ℕ} (hn : (CInt.toInt c.length).toNat = n) :
    ∃ a s, Runs P (compressFileXclone fRead fWrite) (t,fs) (compressLog P (t.faults.allocs.headD false) fRead fWrite c n
        (fun j => t.found (1+j) 4096) t.faults.popAlloc n 0 0) a s ∧
      (a = none ↔ CompressDies P (t.faults.allocs.headD false) c n (fun j => t.found (1+j) 4096) t.faults.popAlloc n 0) ∧
      (a ≠ none → Compressed fRead fWrite past c t fs s) := by
  obtain ⟨r,t₁,halloc,ha⟩ := kmalloc_spec P 4 t fs
  have hbec := kmalloc_becomes P t fs 4
  rw [halloc] at hbec
  have hroom : decide (some (truncated (r.map Buf.addr)) = some 0) = t.faults.allocs.headD false := by
    cases hfault : t.faults.allocs.headD false with
    | true => rw [ha.fails.mpr hfault]; rfl
    | false =>
      cases r with
      | none => exact absurd (ha.fails.mp rfl) (Bool.eq_false_iff.mp hfault)
      | some b =>
        have haddr : truncated (some b.addr) = b.addr + 1 := rfl
        rw [decide_eq_false_iff_not, Option.map_some, haddr, Option.some.injEq]
        omega
  have hpages : (fun j => t₁.found j 4096) = fun j => t.found (1+j) 4096 := by
    funext j
    exact hbec.found j 4096
  obtain ⟨a,s,hloop,hdies,hends⟩ := compressLoop_log P hroom (t := t₁) n n 0 0 0 hT (length_leftover t₁.stack 4)
    ⟨by omega,by omega⟩
  rw [ha.faults, hpages] at hloop hdies
  have hkeeps : CompressKeeps t t₁ := by
    constructor
    all_goals
      rw [ha.faults]
      rfl
  refine ⟨a,s,?_,hdies,fun h => ?_⟩
  · refine (Does.call halloc).bind ((Does.call (handle_stackBytes P t₁ fs 4)).bind
      ((Does.call (handle_iSizeRead P t₁ fs fRead)).bind ?_))
    simp only [hT.source]
    rw [compressLoop_eq, hn]
    exact hloop
  · obtain ⟨hkeep,⟨k,hb⟩,htrans,hframe⟩ := hends h
    exact ⟨hkeeps.trans hkeep,⟨_,hbec.trans hb⟩,htrans,hframe⟩

end Loop

/-! ## What stands in the log -/

section Contents
variable (P : Platform) (noRoom : Bool) (fRead fWrite : File) (c : List Byte)

/-- The loop opens and removes nothing. -/
theorem compressLog_transfers (rounds : ℕ) (bufs : ℕ → List Byte) (f : Faults) (rest : ℕ) (pos wpos : ℤ) :
    ∀ e ∈ compressLog P noRoom fRead fWrite c rounds bufs f rest pos wpos,
      (∀ g err, e ≠ .unlink g err) ∧ ∀ name create found, e ≠ .opened name create found := by
  induction rounds generalizing bufs f rest pos wpos with
  | zero => simp [compressLog]
  | succ rounds ih =>
    rw [compressLog]
    split
    · simp
    · simp only []
      split
      · simp
      · simp
      · simp
      · rw [List.forall_mem_append]
        exact ⟨by simp [frameLog],ih _ _ _ _ _⟩

end Contents

end XClone
