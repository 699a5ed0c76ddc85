import XClone.Sync.Compression
import Mathlib.Data.List.TakeWhile

/-! # What `decompress_file` does with any file

A round reads a header and as many bytes as the header says, whatever it says, and hands that many
bytes of its buffer to the decompressor. `readFrame` is what the two reads of a round find.
-/
namespace XClone
open Effects Prog

/-! ## One frame -/

/-- What a read at any offset and of any length is answered with. -/
def readAnswer (o : Outcome) (content : List Byte) (pos len : ℤ) : ℤ × List Byte :=
  if pos < 0 ∨ len < 0 then (einval,[])
  else
    let avail := (content.drop pos.toNat).take len.toNat
    (o.count avail.length,avail.take (o.count avail.length).toNat)

/-- The same into a buffer that may be missing. -/
def readAnswerInto (missing : Bool) (o : Outcome) (content : List Byte) (pos len : ℤ) : ℤ × List Byte :=
  if missing then
    (if pos < 0 ∨ len < 0 then einval else o.countNull ((content.drop pos.toNat).take len.toNat).length,[])
  else readAnswer o content pos len

@[simp] theorem readAnswerInto_false : readAnswerInto false = readAnswer := rfl

/-- The two reads of a round: the header, the header buffer after it, the length that is in use
from then on, and the payload. -/
structure FrameRead where
  header : ℤ × List Byte
  ps : List Byte
  psize : ℤ
  body : ℤ × List Byte

def readFrame (missing : Bool) (f : Faults) (E : List Byte) (locals : FrameLocals) (m : ℤ) : FrameRead :=
  let header := readAnswer (f.reads.headD .full) E m 4
  let ps := Bytes.overlay 0 locals.ps 0 header.2
  let psize := kstrtoint (cString (ps ++ locals.beyond)) locals.psize
  ⟨header,ps,psize,readAnswerInto missing (f.reads.tail.headD .full) E (advance m header.1) psize⟩

/-- The locals after a round. -/
def FrameRead.locals (r : FrameRead) (locals : FrameLocals) : FrameLocals := { locals with psize := r.psize, ps := r.ps }

/-- What the decompressor finds at its source, over what the allocation left there. -/
def FrameRead.source (r : FrameRead) (buff3 : Option Buf) : List Byte := filled buff3 r.body.2

/-- The two reads as they are observed. -/
def FrameRead.log (r : FrameRead) (fRead : File) (m : ℤ) : List Event :=
  [.read fRead m 4 r.header.1 r.header.2,.read fRead (advance m r.header.1) r.psize r.body.1 r.body.2]

/-- What the decompressor answers; `none` is the death of its caller. -/
def inflated (P : Platform) (f : Faults) (src : List Byte) (slen : ℤ) : Option (ℤ × List Byte) :=
  match f.compressions.headD none with
  | some e => some (Int.negSucc e,[])
  | none => P.convert P.inflate src (CInt.toUInt slen)

/-- What one round uses up. -/
def Faults.popFrame (f : Faults) : Faults :=
  f.popAlloc.popAlloc.popRead.popRead.popComp.popCompression.popWrite

/-- The task after the two reads, and after a frame was decoded. -/
def Task.afterReads (t : Task) : Task := (t.spend .popRead).spend .popRead

def Task.afterDecode (t : Task) (buff3 buff4 : Option Buf) : Task :=
  ((((t.afterReads.spend .popComp).spend .popCompression).spend .popWrite).freed (buff3.map Buf.addr)).freed
    (buff4.map Buf.addr)

section Round
variable (P : Platform) {t : Task} {fs : Fs} {fRead fWrite : File} {buff3 buff4 : Option Buf} {locals : FrameLocals}
  {m w : ℤ} {r : FrameRead}

theorem handle_vfsRead_answer (f : File) (pos len : ℤ) (t : Task) (fs : Fs) :
    Kernel.handle P (.vfsRead f pos len) (t,fs) =
      (some (readAnswer (t.faults.reads.headD .full) (fs.content f) pos len),t.spend .popRead,fs) := by
  simp only [Kernel.handle, readAnswer]
  split <;> rfl

theorem vfsReadInto_answer (f : File) (buff : Option Buf) (pos len : ℤ) (t : Task) (fs : Fs) {r : ℤ × List Byte}
    (hr : readAnswerInto buff.isNone (t.faults.reads.headD .full) (fs.content f) pos len = r) :
    Runs P (vfsReadInto f buff pos len) (t,fs) [.read f pos len r.1 r.2] (some (r.1,filled buff r.2))
      (t.spend .popRead,fs) := by
  subst hr
  cases buff with
  | some b => exact (Does.call (handle_vfsRead_answer P f pos len t fs)).bind (Does.pure _ _)
  | none =>
    have hcall : Kernel.handle P (.vfsReadNull f pos len) (t,fs) = (some (if pos < 0 ∨ len < 0 then einval
        else (t.faults.reads.headD .full).countNull (((fs.content f).drop pos.toNat).take len.toNat).length),
        t.spend .popRead,fs) := by
      simp only [Kernel.handle]
      split <;> rfl
    exact (Does.call hcall).bind (Does.pure _ _)

theorem handle_cryptoCompDecompress (src : List Byte) (slen : ℤ) (t : Task) (fs : Fs) :
    Kernel.handle P (.cryptoCompDecompress src slen) (t,fs) =
      (inflated P t.faults src slen,t.spend .popCompression,fs) := by
  simp only [Kernel.handle, inflated]
  cases t.faults.compressions.headD none <;> rfl

variable (t fs buff4) in
/-- The decompressor is not reached, or it does not come back. -/
theorem decompressBuffer_dies {src : List Byte} {slen : ℤ}
    (h : t.faults.comps.headD none ≠ none ∨ inflated P t.faults src slen = none) :
    ∃ t', Runs P (decompressBuffer src slen buff4) (t,fs) [] none (t',fs) := by
  have hcall := handle_cryptoAllocComp P t fs
  cases hc : t.faults.comps.headD none with
  | some e =>
    refine ⟨t.spend .popComp,?_⟩
    rw [hc] at hcall
    rw [decompressBuffer]
    refine (Does.call hcall).bind ?_
    rw [if_pos (show Fault.code (some e) < 0 from Int.negSucc_lt_zero e)]
    exact die_runs P _
  | none =>
    have hnone := h.resolve_left (not_not_intro hc)
    have hdead := handle_cryptoCompDecompress P src slen (t.spend .popComp) fs
    refine ⟨(t.spend .popComp).spend .popCompression,?_⟩
    rw [hc] at hcall
    rw [show inflated P (t.spend .popComp).faults src slen = none from hnone] at hdead
    rw [decompressBuffer]
    refine (Does.call hcall).bind ?_
    rw [if_neg (show ¬ Fault.code none < 0 by decide)]
    exact (Does.dead hdead).bind_dead

variable (t fs buff4) in
theorem decompressBuffer_refuses {src z : List Byte} {slen err : ℤ} (hc : t.faults.comps.headD none = none)
    (hz : inflated P t.faults src slen = some (err,z)) (herr : err < 0) :
    Runs P (decompressBuffer src slen buff4) (t,fs) [.decompress src slen err] (some (-1,none))
      ((t.spend .popComp).spend .popCompression,fs) := by
  have hcall := handle_cryptoAllocComp P t fs
  have hrefused := handle_cryptoCompDecompress P src slen (t.spend .popComp) fs
  rw [hc] at hcall
  rw [show inflated P (t.spend .popComp).faults src slen = some (err,z) from hz] at hrefused
  rw [decompressBuffer]
  refine (Does.call hcall).bind ?_
  rw [if_neg (show ¬ Fault.code none < 0 by decide)]
  refine (Does.call hrefused).bind ?_
  simp only [if_pos herr]
  exact Does.pure _ _

variable (t fs) in
/-- What comes out has to be stored; only that can still be fatal. -/
theorem decompressBuffer_stores {src z : List Byte} {slen err : ℤ} (hc : t.faults.comps.headD none = none)
    (hz : inflated P t.faults src slen = some (err,z)) (herr : ¬ err < 0) {stored : Option (Option (List Byte))}
    {s : Kernel} (hstore : Runs P (storeOutput buff4 z) ((t.spend .popComp).spend .popCompression,fs) [] stored s) :
    Runs P (decompressBuffer src slen buff4) (t,fs) [.decompress src slen err]
      (stored.map (fun d => ((z.length : ℤ),d))) s := by
  have hcall := handle_cryptoAllocComp P t fs
  have hdone := handle_cryptoCompDecompress P src slen (t.spend .popComp) fs
  rw [hc] at hcall
  rw [show inflated P (t.spend .popComp).faults src slen = some (err,z) from hz] at hdone
  rw [decompressBuffer]
  refine (Does.call hcall).bind ?_
  rw [if_neg (show ¬ Fault.code none < 0 by decide)]
  refine (Does.call hdone).bind ?_
  simp only [if_neg herr]
  cases stored with
  | some d => exact hstore.bind (Does.pure _ _)
  | none => exact hstore.bind_dead

/-- The reads of a round come first, whatever the decompressor makes of them. -/
theorem decompressRound_reads (hr : readFrame buff3.isNone t.faults (fs.content fRead) locals m = r) {es : List Event}
    {a : Option (Except ℤ (ℤ × ℤ × FrameLocals))} {s : Kernel}
    (hrest : Runs P (decompressBuffer (r.source buff3) r.psize buff4 >>= fun d =>
      if d.1 < 0 then freePages buff3 buff4 >>= fun _ => pure (.error d.1)
      else fileWriteFrom fWrite w d.2 d.1 >>= fun bytes2 => freePages buff3 buff4 >>= fun _ =>
        pure (.ok (CInt.toInt r.body.1,bytes2,r.locals locals))) (t.afterReads,fs) es a s) :
    Runs P (decompressRound fRead fWrite buff3 buff4 locals m w) (t,fs) (r.log fRead m ++ es) a s := by
  subst hr
  have hbody := vfsReadInto_answer P fRead buff3
    (advance m (readFrame buff3.isNone t.faults (fs.content fRead) locals m).header.1)
    (readFrame buff3.isNone t.faults (fs.content fRead) locals m).psize ((t.limit .kernelDs).spend .popRead) fs rfl
  rw [decompressRound]
  exact (Does.call (handle_getFs P t fs)).bind ((Does.call (handle_setFs P t fs .kernelDs)).bind
    ((Does.call (handle_vfsRead_answer P fRead m 4 _ fs)).bind (hbody.bind ((Does.call (handle_setFs P _ fs _)).bind hrest))))

variable (buff4 fWrite w) in
theorem decompressRound_dies (hr : readFrame buff3.isNone t.faults (fs.content fRead) locals m = r)
    (h : t.faults.comps.headD none ≠ none ∨ inflated P t.faults (r.source buff3) r.psize = none) :
    ∃ t', Runs P (decompressRound fRead fWrite buff3 buff4 locals m w) (t,fs) (r.log fRead m) none (t',fs) := by
  obtain ⟨t',hdead⟩ := decompressBuffer_dies P t.afterReads fs buff4 h
  have hround : Runs P (decompressRound fRead fWrite buff3 buff4 locals m w) (t,fs) (r.log fRead m ++ []) none (t',fs) :=
    decompressRound_reads P hr hdead.bind_dead
  rw [List.append_nil] at hround
  exact ⟨t',hround⟩

variable (fWrite w) in
/-- Without a page for it, the first byte that the decompressor hands out is fatal. -/
theorem decompressRound_drops (hr : readFrame buff3.isNone t.faults (fs.content fRead) locals m = r)
    (hc : t.faults.comps.headD none = none) {err : ℤ} {z : List Byte}
    (hz : inflated P t.faults (r.source buff3) r.psize = some (err,z)) (herr : ¬ err < 0) (hne : z ≠ []) :
    ∃ t', Runs P (decompressRound fRead fWrite buff3 none locals m w) (t,fs)
      (r.log fRead m ++ [.decompress (r.source buff3) r.psize err]) none (t',fs) := by
  have hdead := decompressBuffer_stores P t.afterReads fs hc hz herr (storeOutput_dies P hne _)
  exact ⟨_,decompressRound_reads P hr hdead.bind_dead⟩

variable (buff4 fWrite w) in
/-- A frame is refused when the decompressor fails. -/
theorem decompressRound_fails (hr : readFrame buff3.isNone t.faults (fs.content fRead) locals m = r)
    (hc : t.faults.comps.headD none = none) {err : ℤ} {z : List Byte}
    (hz : inflated P t.faults (r.source buff3) r.psize = some (err,z)) (herr : err < 0) :
    ∃ t', Runs P (decompressRound fRead fWrite buff3 buff4 locals m w) (t,fs)
      (r.log fRead m ++ [.decompress (r.source buff3) r.psize err]) (some (.error (-1))) (t',fs) := by
  have hrefused := decompressBuffer_refuses P t.afterReads fs buff4 hc hz herr
  refine ⟨(((t.afterReads.spend .popComp).spend .popCompression).freed (buff3.map Buf.addr)).freed (buff4.map Buf.addr),
    decompressRound_reads P hr (hrefused.bind ?_)⟩
  rw [if_pos (show (-1 : ℤ) < 0 by decide)]
  exact (freePages_runs P _ _).bind (Does.pure _ _)

variable (fWrite) in
/-- A frame that is decompressed is written, and the read offset moves by its payload. -/
theorem decompressRound_runs (hr : readFrame buff3.isNone t.faults (fs.content fRead) locals m = r)
    (hc : t.faults.comps.headD none = none) {err : ℤ} {z : List Byte}
    (hz : inflated P t.faults (r.source buff3) r.psize = some (err,z)) (herr : ¬ err < 0) (hstore : buff4 = none → z = [])
    (hw : -2147483648 ≤ w ∧ w < 2147483648) {w' : ℤ}
    (hw' : writeCountFrom buff4.isNone (t.faults.writes.headD .full) w z.length = w') :
    Runs P (decompressRound fRead fWrite buff3 buff4 locals m w) (t,fs)
      (r.log fRead m ++ [.decompress (r.source buff3) r.psize err,.write fWrite w z.length w'])
      (some (.ok (CInt.toInt r.body.1,w',r.locals locals)))
      (t.afterDecode buff3 buff4,
        Function.update fs fWrite.path ((fs fWrite.path).write fWrite.inode w.toNat (z.take w'.toNat))) := by
  have hdone := decompressBuffer_stores P t.afterReads fs hc hz herr (storeOutput_runs P hstore _)
  rw [← Option.isNone_map (f := fun b => Bytes.overlay 0 b.bytes 0 z)] at hw'
  have hfits : ∀ bytes, buff4.map (fun b => Bytes.overlay 0 b.bytes 0 z) = some bytes → z.length ≤ bytes.length := by
    rintro bytes hbytes
    obtain ⟨b,hb,rfl⟩ := Option.map_eq_some_iff.mp hbytes
    exact Bytes.length_le_overlay_zero 0 b.bytes z
  have hwrite := fileWriteFrom_runs P fWrite ((t.afterReads.spend .popComp).spend .popCompression) fs hw.1 hw.2 hfits hw'
  have hcut : ((buff4.map (fun b => Bytes.overlay 0 b.bytes 0 z)).getD []).take w'.toNat = z.take w'.toNat := by
    have hle := writeCountFrom_le (buff4.map (fun b => Bytes.overlay 0 b.bytes 0 z)).isNone
      (t.faults.writes.headD .full) w z.length
    rw [hw'] at hle
    have hin : w'.toNat ≤ z.length := by omega
    have hwhole : ((buff4.map (fun b => Bytes.overlay 0 b.bytes 0 z)).getD []).take z.length = z := by
      have hfilled := take_filled hstore
      cases buff4 <;> exact hfilled
    calc ((buff4.map (fun b => Bytes.overlay 0 b.bytes 0 z)).getD []).take w'.toNat
        = (((buff4.map (fun b => Bytes.overlay 0 b.bytes 0 z)).getD []).take z.length).take w'.toNat := by
          rw [List.take_take, min_eq_left hin]
      _ = z.take w'.toNat := by rw [hwhole]
  rw [hcut] at hwrite
  have hpos : ¬ (z.length : ℤ) < 0 := by omega
  refine decompressRound_reads P hr (hdone.bind ?_)
  rw [if_neg hpos]
  exact hwrite.bind ((freePages_runs P _ _).bind (Does.pure _ _))

end Round

/-! ## The loop -/
section Loop
variable (P : Platform) {t : Task} {fs : Fs} {fRead fWrite : File} {locals locals' : FrameLocals} {fsize m w : ℤ}
  {rounds : ℕ} {a₃ a₄ : ℕ} {t₁ t₂ : Task} {s s' : Kernel} {es es' : List Event} {a : Option ℤ}

theorem decompressLoop_done (rounds : ℕ) (locals : FrameLocals) (m w : ℤ) (s : Kernel) (h : ¬ fsize > 0) :
    Runs P (decompressLoop fRead fWrite rounds locals fsize m w) s [] (some 0) s := by
  cases rounds with
  | zero => exact Does.pure _ _
  | succ rounds =>
    rw [decompressLoop, if_neg h]
    exact Does.pure _ _

variable (rounds) in
theorem decompressLoop_dies (hB : Buffers P t fs a₃ a₄ t₁ t₂) (hpos : fsize > 0)
    (hround : Runs P (decompressRound fRead fWrite (t.page 0 a₃) (t.page 1 a₄) locals m w) (t₂,fs) es none s) :
    Runs P (decompressLoop fRead fWrite (rounds+1) locals fsize m w) (t,fs) es none s := by
  rw [decompressLoop, if_pos hpos]
  exact (Does.call hB.first).bind ((Does.call hB.second).bind hround.bind_dead)

theorem decompressLoop_next (hB : Buffers P t fs a₃ a₄ t₁ t₂) (hpos : fsize > 0) {b : ℤ} {w' : ℤ}
    (hround : Runs P (decompressRound fRead fWrite (t.page 0 a₃) (t.page 1 a₄) locals m w) (t₂,fs) es
      (some (.ok (b,w',locals'))) s)
    (hgo : Runs P (decompressLoop fRead fWrite rounds locals' (nextChunk fsize).2 (CInt.toInt (m + b)) (CInt.toInt (w + w')))
      s es' a s') :
    Runs P (decompressLoop fRead fWrite (rounds+1) locals fsize m w) (t,fs) (es ++ es') a s' := by
  rw [decompressLoop, if_pos hpos]
  exact (Does.call hB.first).bind ((Does.call hB.second).bind (hround.bind hgo))

variable (rounds) in
theorem decompressLoop_refused (hB : Buffers P t fs a₃ a₄ t₁ t₂) (hpos : fsize > 0) {dLen : ℤ}
    (hround : Runs P (decompressRound fRead fWrite (t.page 0 a₃) (t.page 1 a₄) locals m w) (t₂,fs) es
      (some (.error dLen)) s) :
    Runs P (decompressLoop fRead fWrite (rounds+1) locals fsize m w) (t,fs) es (some dLen) s := by
  rw [decompressLoop, if_pos hpos, ← List.append_nil es]
  exact (Does.call hB.first).bind ((Does.call hB.second).bind (hround.bind (Does.pure _ _)))

variable (fWrite) in
theorem decompressFile_runs {E : List Byte} (hE : fs.content fRead = E)
    (h : Runs P (decompressLoop fRead fWrite (CInt.toInt E.length).toNat (FrameLocals.ofStack (leftover t.stack PAGE_SIZE))
      (CInt.toInt E.length) 0 0) (t,fs) es a s) : Runs P (decompressFile fRead fWrite) (t,fs) es a s := by
  rw [decompressFile]
  refine (Does.call (handle_stackBytes P t fs PAGE_SIZE)).bind ((Does.call (handle_iSizeRead P t fs fRead)).bind ?_)
  rw [hE]
  exact h

end Loop

/-! ## What the decompressor is given -/

/-- One iteration as it is observed: the header as it was read, the length used for the read into
`buff3`, the result of that read and the length with which the decompressor came back, if it did. -/
structure Decoding where
  header : List Byte
  psize : ℤ
  bytes1 : ℤ
  inLen : Option ℤ
deriving DecidableEq, Repr

/-- The iterations of a run. -/
def decodings : List Event → List Decoding
  | .read _ _ _ _ header :: .read _ _ psize bytes1 _ :: .decompress _ inLen _ :: log =>
    ⟨header,psize,bytes1,some inLen⟩ :: decodings log
  | .read _ _ _ _ header :: .read _ _ psize bytes1 _ :: log => ⟨header,psize,bytes1,none⟩ :: decodings log
  | _ :: log => decodings log
  | [] => []

/-- The length was parsed from this header alone, is within a page, and nothing behind the bytes
that were read is decompressed. -/
structure Decoding.Safe (d : Decoding) : Prop where
  complete : 0 ∈ d.header ∨ d.header.length = 4
  parsed : parseInt (cString d.header) = some d.psize
  nonneg : 0 ≤ d.psize
  page : d.psize ≤ PAGE_SIZE
  given : ∀ n, d.inLen = some n → n = d.psize ∧ n ≤ d.bytes1

/-- The payload of `p` bytes as it is read behind the header at `m`. -/
def payloadAt (f : Faults) (E : List Byte) (m p : ℤ) : ℤ × List Byte :=
  readAnswerInto (f.allocs.getD 0 false) (f.reads.tail.headD .full) E
    (advance m (readAnswer (f.reads.headD .full) E m 4).1) p

/-- A frame stands at `m`: a header that says `p`, and `p` bytes that can be read, if they are used. -/
structure FrameFits (f : Faults) (E : List Byte) (m p : ℤ) : Prop where
  complete : 0 ∈ (readAnswer (f.reads.headD .full) E m 4).2 ∨ (readAnswer (f.reads.headD .full) E m 4).2.length = 4
  parsed : parseInt (cString (readAnswer (f.reads.headD .full) E m 4).2) = some p
  nonneg : 0 ≤ p
  page : p ≤ PAGE_SIZE
  readable : f.comps.headD none = none → p ≤ (payloadAt f E m p).1

/-- There is a decompressor, it does not fail, and there is a page for what it makes of the payload. -/
structure FrameGoes (P : Platform) (f : Faults) (E : List Byte) (m p : ℤ) : Prop where
  comp : f.comps.headD none = none
  ok : f.compressions.headD none = none
  room : f.allocs.getD 1 false = true → P.inflate (payloadAt f E m p).2 = []

/-- From `m` on a frame stands wherever the loop looks for one, until a frame is not decompressed or the
loop ends. The next frame is looked for four bytes before the end of the last. -/
def WellFramed (P : Platform) (E : List Byte) : ℕ → Faults → ℤ → ℤ → Prop
  | 0, _, _, _ => True
  | rounds+1, f, fsize, m =>
    fsize > 0 → ∃ p, FrameFits f E m p ∧
      (FrameGoes P f E m p → WellFramed P E rounds f.popFrame (nextChunk fsize).2 (CInt.toInt (m + p)))

/-- A terminated string is read as it is, whatever follows. -/
theorem cString_append {str : List Byte} (h : 0 ∈ str) (rest : List Byte) : cString (str ++ rest) = cString str := by
  unfold cString
  rw [List.takeWhile_append, if_neg]
  intro hall
  have hne := List.takeWhile_eq_self_iff.mp ((List.takeWhile_prefix _).eq_of_length hall) 0 h
  simp at hne

theorem overlay_header (ps header : List Byte) : Bytes.overlay 0 ps 0 header = header ++ ps.drop header.length := by
  rw [Bytes.overlay_of_le _ _ (Nat.zero_le _), List.take_zero, List.nil_append, Nat.zero_add]

/-- Behind a complete header the parser sees nothing. -/
theorem cString_header {ps beyond header : List Byte} (hps : ps.length = 4) (hb : beyond.headD 0 = 0)
    (h : 0 ∈ header ∨ header.length = 4) : cString (Bytes.overlay 0 ps 0 header ++ beyond) = cString header := by
  rw [overlay_header, List.append_assoc]
  by_cases hzero : 0 ∈ header
  · exact cString_append hzero _
  · have hfull := h.resolve_left hzero
    have hall : ∀ b ∈ header, decide (b ≠ 0) = true := by
      intro b hb
      rw [decide_eq_true_eq]
      rintro rfl
      exact hzero hb
    have hnul : beyond.takeWhile (· ≠ 0) = [] := by
      cases beyond with
      | nil => rfl
      | cons b beyond =>
        rw [List.headD_cons] at hb
        rw [hb]
        rfl
    rw [List.drop_of_length_le (by omega), List.nil_append]
    unfold cString
    rw [List.takeWhile_append_of_pos hall, hnul, List.append_nil, List.takeWhile_eq_self_iff.mpr hall]

theorem length_readAnswer (o : Outcome) (content : List Byte) (pos : ℤ) (n : ℕ) :
    (readAnswer o content pos n).2.length ≤ n := by
  unfold readAnswer
  split
  · exact Nat.zero_le _
  · simp only [List.length_take, Int.toNat_natCast]
    omega

/-- A read returns as much as it says, at most what it was asked for, and through `NULL` nothing. -/
theorem readAnswerInto_spec (missing : Bool) (o : Outcome) (content : List Byte) (pos : ℤ) (n : ℕ) :
    (readAnswerInto missing o content pos n).2.length = (readAnswerInto missing o content pos n).1.toNat ∧
      (readAnswerInto missing o content pos n).1 ≤ n ∧ (missing = true → (readAnswerInto missing o content pos n).2 = []) := by
  cases missing with
  | true =>
    have hle : (if pos < 0 ∨ (n : ℤ) < 0 then einval
        else o.countNull ((content.drop pos.toNat).take (n : ℤ).toNat).length) ≤ 0 := by
      split
      · decide
      · exact o.countNull_nonpos _
    refine ⟨?_,?_,fun _ => rfl⟩
    · exact (Int.toNat_of_nonpos hle).symm
    · exact hle.trans (Int.natCast_nonneg n)
  | false =>
    have hc := o.count_le ((content.drop pos.toNat).take n).length
    simp only [readAnswerInto_false, readAnswer, Int.toNat_natCast, Bool.false_eq_true, false_implies, and_true]
    rw [List.length_take] at hc
    split
    · exact ⟨rfl,(by decide : einval ≤ 0).trans (Int.natCast_nonneg n)⟩
    · simp only [List.length_take] at hc ⊢
      omega

section Safety
variable {f : Faults} {E : List Byte} {locals : FrameLocals} {m : ℤ}

/-- The iteration that a round is seen as. -/
def FrameRead.decoding (r : FrameRead) (inLen : Option ℤ) : Decoding := ⟨r.header.2,r.psize,r.body.1,inLen⟩

theorem FrameFits.frame (hps : locals.ps.length = 4) (hb : locals.beyond.headD 0 = 0) {p : ℤ} (h : FrameFits f E m p) :
    (readFrame (f.allocs.getD 0 false) f E locals m).psize = p ∧
      (readFrame (f.allocs.getD 0 false) f E locals m).body = payloadAt f E m p := by
  have hp : (readFrame (f.allocs.getD 0 false) f E locals m).psize = p := by
    change kstrtoint _ _ = p
    rw [cString_header hps hb h.complete, kstrtoint, h.parsed]
    rfl
  refine ⟨hp,?_⟩
  rw [← hp]
  rfl

/-- A round whose decompressor comes back is safe exactly when a frame stands where it looks for one. -/
theorem safe_iff_fits (hps : locals.ps.length = 4) (hb : locals.beyond.headD 0 = 0) (hc : f.comps.headD none = none) :
    ((readFrame (f.allocs.getD 0 false) f E locals m).decoding
      (some (readFrame (f.allocs.getD 0 false) f E locals m).psize)).Safe ↔ ∃ p, FrameFits f E m p := by
  constructor
  · intro h
    exact ⟨(readFrame (f.allocs.getD 0 false) f E locals m).psize,h.complete,h.parsed,h.nonneg,h.page,
      fun _ => (h.given _ rfl).2⟩
  · rintro ⟨p,h⟩
    obtain ⟨hp,hread⟩ := h.frame hps hb
    refine ⟨h.complete,?_,?_,?_,?_⟩
    · exact h.parsed.trans (congrArg some hp.symm)
    · exact h.nonneg.trans_eq hp.symm
    · exact hp.trans_le h.page
    · rintro n ⟨rfl⟩
      refine ⟨rfl,?_⟩
      change (readFrame (f.allocs.getD 0 false) f E locals m).psize ≤ (readFrame (f.allocs.getD 0 false) f E locals m).body.1
      rw [hread, hp]
      exact h.readable hc

/-- Where the decompressor is not called, its input is not needed. -/
theorem safe_unused_iff_fits (hps : locals.ps.length = 4) (hb : locals.beyond.headD 0 = 0) (hc : f.comps.headD none ≠ none) :
    ((readFrame (f.allocs.getD 0 false) f E locals m).decoding none).Safe ↔ ∃ p, FrameFits f E m p := by
  constructor
  · intro h
    exact ⟨(readFrame (f.allocs.getD 0 false) f E locals m).psize,h.complete,h.parsed,h.nonneg,h.page,
      fun hnone => absurd hnone hc⟩
  · rintro ⟨p,h⟩
    have hp := (h.frame hps hb).1
    exact ⟨h.complete,h.parsed.trans (congrArg some hp.symm),h.nonneg.trans_eq hp.symm,hp.trans_le h.page,
      fun n hn => by cases hn⟩

theorem length_ps_readFrame (missing : Bool) (hps : locals.ps.length = 4) : (readFrame missing f E locals m).ps.length = 4 := by
  have hle := length_readAnswer (f.reads.headD .full) E m 4
  change (Bytes.overlay 0 locals.ps 0 (readAnswer (f.reads.headD .full) E m 4).2).length = 4
  rw [overlay_header, List.length_append, List.length_drop]
  have hfour : ((4 : ℕ) : ℤ) = 4 := rfl
  rw [hfour] at hle
  omega

/-- A frame that fits is read as a whole: its payload is all that the decompressor is handed. -/
theorem FrameFits.whole {p : ℤ} (h : FrameFits f E m p) (hc : f.comps.headD none = none) :
    (payloadAt f E m p).1 = p ∧ (payloadAt f E m p).2.length = p.toNat ∧
      (f.allocs.getD 0 false = true → (payloadAt f E m p).2 = []) := by
  obtain ⟨n,rfl⟩ := Int.eq_ofNat_of_zero_le h.nonneg
  obtain ⟨hlen,hle,hnull⟩ := readAnswerInto_spec (f.allocs.getD 0 false) (f.reads.tail.headD .full) E
    (advance m (readAnswer (f.reads.headD .full) E m 4).1) n
  have hfull := le_antisymm hle (h.readable hc)
  refine ⟨hfull,?_,hnull⟩
  rw [payloadAt, hlen, hfull]

/-- The decompressor is handed the payload and nothing else. -/
theorem FrameFits.inflated (P : Platform) {p : ℤ} (h : FrameFits f E m p) (hc : f.comps.headD none = none)
    (hok : f.compressions.headD none = none) {buff3 : Option Buf} (hnull : buff3.isNone = f.allocs.getD 0 false) :
    inflated P f (filled buff3 (payloadAt f E m p).2) p = some (0,P.inflate (payloadAt f E m p).2) := by
  obtain ⟨-,hlen,hmissing⟩ := h.whole hc
  have hlow := h.nonneg
  have hpage := h.page
  unfold PAGE_SIZE at hpage
  have hint : CInt.toUInt p = p.toNat := by
    unfold CInt.toUInt
    omega
  have hnone : buff3 = none → (payloadAt f E m p).2 = [] := by
    rintro rfl
    exact hmissing (hnull ▸ rfl)
  rw [XClone.inflated, hok, hint, ← hlen, convert_of_le P P.inflate (length_le_filled hnone), take_filled hnone]

end Safety

section Run
variable (P : Platform) {t : Task} {fs : Fs} {fRead fWrite : File} {E : List Byte} {locals : FrameLocals} {m w : ℤ}

/-- The iterations of a run are safe. -/
def SafeLog (log : List Event) : Prop := ∀ d ∈ decodings log, d.Safe

theorem safeLog_dead (r : FrameRead) : SafeLog (r.log fRead m) ↔ (r.decoding none).Safe :=
  List.forall_mem_singleton

theorem safeLog_refused (r : FrameRead) (src : List Byte) (err : ℤ) :
    SafeLog (r.log fRead m ++ [.decompress src r.psize err]) ↔ (r.decoding (some r.psize)).Safe :=
  List.forall_mem_singleton

theorem safeLog_stored (r : FrameRead) (src : List Byte) (err pos len n : ℤ) (log : List Event) :
    SafeLog (r.log fRead m ++ [.decompress src r.psize err,.write fWrite pos len n] ++ log) ↔
      (r.decoding (some r.psize)).Safe ∧ SafeLog log :=
  List.forall_mem_cons

variable (t) in
/-- Up to a page, an input is never longer than what there is to be read. -/
theorem inflated_ne_none {buff3 : Option Buf} (h₃ : ∀ b, buff3 = some b → b.bytes.length = 4096) (data : List Byte) {p : ℤ}
    (hlow : 0 ≤ p) (hpage : p ≤ PAGE_SIZE) : inflated P t.faults (filled buff3 data) p ≠ none := by
  unfold PAGE_SIZE at hpage
  have hint : CInt.toUInt p = p.toNat := by
    unfold CInt.toUInt
    omega
  unfold inflated
  rw [hint]
  cases t.faults.compressions.headD none with
  | some e => exact Option.some_ne_none _
  | none =>
    cases buff3 with
    | some b =>
      have hold := Bytes.length_old_le_overlay_zero 0 b.bytes data
      rw [h₃ b rfl] at hold
      have hfits : p.toNat ≤ (filled (some b) data).length := by
        change p.toNat ≤ (Bytes.overlay 0 b.bytes 0 data).length
        omega
      simp only [convert_of_le P P.inflate hfits]
      exact Option.some_ne_none _
    | none =>
      by_cases hzero : p.toNat = 0
      · simp only [hzero, convert_of_le P P.inflate (Nat.zero_le _)]
        exact Option.some_ne_none _
      · simp only [Platform.convert, if_pos (show filled none data = [] ∧ p.toNat ≠ 0 from ⟨rfl,hzero⟩)]
        exact Option.some_ne_none _

theorem inflated_refused {f : Faults} {src z : List Byte} {slen err : ℤ} (h : inflated P f src slen = some (err,z))
    (hne : f.compressions.headD none ≠ none) : err < 0 := by
  cases hf : f.compressions.headD none with
  | none => exact absurd hf hne
  | some e =>
    simp only [inflated, hf, Option.some.injEq, Prod.mk.injEq] at h
    exact h.1 ▸ Int.negSucc_lt_zero e

section Step
variable {r : FrameRead} {a₃ a₄ : ℕ} {t₂ : Task}

/-- The round that is looked at: on two pages, after both were asked for. -/
structure AtRound (t t₂ : Task) (fs : Fs) (fRead : File) (E : List Byte) (locals : FrameLocals) (m : ℤ) (r : FrameRead) : Prop where
  source : fs.content fRead = E
  ps : locals.ps.length = 4
  beyond : locals.beyond.headD 0 = 0
  faults : t₂.faults = t.faults.popAlloc.popAlloc
  frame : readFrame (t.faults.allocs.getD 0 false) t.faults E locals m = r

theorem AtRound.reads (h : AtRound t t₂ fs fRead E locals m r) :
    readFrame (t.page 0 a₃).isNone t₂.faults (fs.content fRead) locals m = r := by
  rw [Task.isNone_page, h.faults, h.source, ← h.frame]
  rfl

theorem AtRound.inflated (h : AtRound t t₂ fs fRead E locals m r) (src : List Byte) :
    inflated P t₂.faults src r.psize = inflated P t.faults src r.psize := by
  rw [h.faults]
  rfl

/-- At a frame the decompressor is handed the payload. -/
theorem AtRound.handed (h : AtRound t t₂ fs fRead E locals m r) {p : ℤ} (hp : FrameFits t.faults E m p)
    (hc : t.faults.comps.headD none = none) (hok : t.faults.compressions.headD none = none) :
    XClone.inflated P t.faults (r.source (t.page 0 a₃)) r.psize = some (0,P.inflate (payloadAt t.faults E m p).2) := by
  obtain ⟨hpsize,hbody⟩ := hp.frame h.ps h.beyond
  rw [h.frame] at hpsize hbody
  rw [FrameRead.source, hpsize, hbody]
  exact hp.inflated P hc hok (Task.isNone_page 0 a₃)

variable (fWrite w a₃ a₄) in
/-- A round that does not come to its write is safe where a frame stands, and no frame goes on there. -/
theorem decompressRound_ends (h : AtRound t t₂ fs fRead E locals m r) (hend : t.faults.comps.headD none = none → ∀ err z,
      inflated P t.faults (r.source (t.page 0 a₃)) r.psize = some (err,z) → ¬ err < 0 →
        ¬ (t.page 1 a₄ = none → z = [])) :
    ∃ es a t', Runs P (decompressRound fRead fWrite (t.page 0 a₃) (t.page 1 a₄) locals m w) (t₂,fs) es a (t',fs) ∧
      (a = none ∨ ∃ err, a = some (.error err)) ∧ (SafeLog es ↔ ∃ p, FrameFits t.faults E m p) ∧
      ∀ p, FrameFits t.faults E m p → ¬ FrameGoes P t.faults E m p := by
  have hcomp : t₂.faults.comps.headD none = t.faults.comps.headD none := by rw [h.faults]; rfl
  by_cases hc : t.faults.comps.headD none = none
  swap
  · -- there is no decompressor: the round dies behind its two reads
    obtain ⟨t',hdead⟩ := decompressRound_dies P fWrite (t.page 1 a₄) w h.reads (.inl (hcomp ▸ hc))
    have hunused := safe_unused_iff_fits (f := t.faults) (E := E) (m := m) h.ps h.beyond hc
    rw [h.frame] at hunused
    exact ⟨_,_,t',hdead,.inl rfl,(safeLog_dead r).trans hunused,fun p _ hgo => hc hgo.comp⟩
  have hsafe := safe_iff_fits (f := t.faults) (E := E) (m := m) h.ps h.beyond hc
  rw [h.frame] at hsafe
  have hc₂ := hcomp.trans hc
  cases hz : inflated P t.faults (r.source (t.page 0 a₃)) r.psize with
  | none =>
    -- the length runs out of the page: no frame fits, and the length is not safe
    obtain ⟨t',hdead⟩ := decompressRound_dies P fWrite (t.page 1 a₄) w h.reads (.inr ((h.inflated P _).trans hz))
    have hbad : 0 ≤ r.psize → r.psize ≤ PAGE_SIZE → False := by
      intro hlow hpage
      exact inflated_ne_none P t (fun b => Task.length_page) r.body.2 hlow hpage hz
    have hnone : ∀ p, ¬ FrameFits t.faults E m p := by
      intro p hp
      have hpsize := (hp.frame h.ps h.beyond).1
      rw [h.frame] at hpsize
      exact hbad (hp.nonneg.trans_eq hpsize.symm) (hpsize.trans_le hp.page)
    refine ⟨_,_,t',hdead,.inl rfl,(safeLog_dead r).trans ?_,fun p hp => absurd hp (hnone p)⟩
    exact iff_of_false (fun hsafe => hbad hsafe.nonneg hsafe.page) (fun ⟨p,hp⟩ => hnone p hp)
  | some answer =>
    obtain ⟨err,z⟩ := answer
    have hz₂ := (h.inflated P _).trans hz
    by_cases herr : err < 0
    · -- the decompressor refuses the frame
      obtain ⟨t',hruns⟩ := decompressRound_fails P fWrite (t.page 1 a₄) w h.reads hc₂ hz₂ herr
      refine ⟨_,_,t',hruns,.inr ⟨_,rfl⟩,(safeLog_refused r _ _).trans hsafe,fun p hp hgo => ?_⟩
      have hzero := hz.symm.trans (h.handed P hp hc hgo.ok)
      cases hzero
      exact absurd herr (by decide)
    · -- there is no page for what comes out
      obtain ⟨hnull,hne⟩ := Classical.not_imp.mp (hend hc err z hz herr)
      have hmissing : t.faults.allocs.getD 1 false = true := by
        rw [← Task.isNone_page (t := t) 1 a₄, hnull, Option.isNone_none]
      obtain ⟨t',hdead⟩ := decompressRound_drops P fWrite w h.reads hc₂ hz₂ herr hne
      rw [← hnull] at hdead
      refine ⟨_,_,t',hdead,.inl rfl,(safeLog_refused r _ _).trans hsafe,fun p hp hgo => ?_⟩
      have hout := hz.symm.trans (h.handed P hp hc hgo.ok)
      cases hout
      exact hne (hgo.room hmissing)

end Step

theorem decompressLoop_safe (hE : fs.content fRead = E) (hap : fRead.path ≠ fWrite.path) (rounds : ℕ)
    (hps : locals.ps.length = 4) (hb : locals.beyond.headD 0 = 0) (hw : -2147483648 ≤ w ∧ w < 2147483648) (fsize : ℤ) :
    ∃ es a s, Runs P (decompressLoop fRead fWrite rounds locals fsize m w) (t,fs) es a s ∧
      (SafeLog es ↔ WellFramed P E rounds t.faults fsize m) := by
  induction rounds generalizing t fs locals fsize m w with
  | zero => exact ⟨_,_,_,Does.pure _ _,iff_of_true (fun d hd => by cases hd) trivial⟩
  | succ rounds ih =>
    by_cases hpos : fsize > 0
    swap
    · exact ⟨_,_,_,decompressLoop_done P (rounds+1) locals m w (t,fs) hpos,
        iff_of_true (fun d hd => by cases hd) (fun h => absurd h hpos)⟩
    obtain ⟨a₃,a₄,t₁,t₂,hB⟩ := buffers_exist P t fs
    obtain ⟨r,hr⟩ : ∃ r, readFrame (t.faults.allocs.getD 0 false) t.faults E locals m = r := ⟨_,rfl⟩
    have hat : AtRound t t₂ fs fRead E locals m r := ⟨hE,hps,hb,hB.faults,hr⟩
    have hwf : WellFramed P E (rounds+1) t.faults fsize m ↔ ∃ p, FrameFits t.faults E m p ∧
        (FrameGoes P t.faults E m p → WellFramed P E rounds t.faults.popFrame (nextChunk fsize).2 (CInt.toInt (m + p))) :=
      ⟨fun h => h hpos,fun h _ => h⟩
    rw [hwf]
    by_cases hend : t.faults.comps.headD none = none → ∀ err z,
        inflated P t.faults (r.source (t.page 0 a₃)) r.psize = some (err,z) → ¬ err < 0 → ¬ (t.page 1 a₄ = none → z = [])
    · obtain ⟨es,a,t',hruns,hlast,hsafe,hstop⟩ := decompressRound_ends P fWrite w a₃ a₄ hat hend
      have hiff : SafeLog es ↔ ∃ p, FrameFits t.faults E m p ∧ (FrameGoes P t.faults E m p →
          WellFramed P E rounds t.faults.popFrame (nextChunk fsize).2 (CInt.toInt (m + p))) :=
        hsafe.trans ⟨fun ⟨p,hp⟩ => ⟨p,hp,fun hgo => absurd hgo (hstop p hp)⟩,fun ⟨p,hp,_⟩ => ⟨p,hp⟩⟩
      rcases hlast with rfl | ⟨err,rfl⟩
      · exact ⟨_,_,_,decompressLoop_dies P rounds hB hpos hruns,hiff⟩
      · exact ⟨_,_,_,decompressLoop_refused P rounds hB hpos hruns,hiff⟩
    · -- the frame is decompressed and written, and the next one is looked for
      push Not at hend
      obtain ⟨hc,err,z,hz,herr,hstore⟩ := hend
      have hsafe := safe_iff_fits (f := t.faults) (E := E) (m := m) hps hb hc
      rw [hr] at hsafe
      have hok : t.faults.compressions.headD none = none := by
        by_contra hne
        exact absurd (inflated_refused P hz hne) (Int.not_lt.mpr herr)
      have hc₂ : t₂.faults.comps.headD none = none := by
        rw [hB.faults]
        exact hc
      have hruns := decompressRound_runs P fWrite hat.reads hc₂ ((hat.inflated P _).trans hz) (Int.not_lt.mpr herr) hstore hw rfl
      have hps' : (r.locals locals).ps.length = 4 := by
        rw [← hr]
        exact length_ps_readFrame (t.faults.allocs.getD 0 false) hps
      obtain ⟨es,a,s,hgo,hrest⟩ := ih (t := t₂.afterDecode (t.page 0 a₃) (t.page 1 a₄))
        (m := CInt.toInt (m + CInt.toInt r.body.1)) ((Fs.content_update_of_ne hap _).trans hE) hps' hb
        (CInt.toInt_bounds _) (nextChunk fsize).2
      have hfaults : (t₂.afterDecode (t.page 0 a₃) (t.page 1 a₄)).faults = t.faults.popFrame := by
        simp only [Task.afterDecode, Task.afterReads, Task.freed_faults, Task.spend_faults, hB.faults]
        rfl
      have hadvance : ∀ p, FrameFits t.faults E m p → CInt.toInt r.body.1 = p := by
        intro p hp
        have hlow := hp.nonneg
        have hpage := hp.page
        unfold PAGE_SIZE at hpage
        rw [← hr, (hp.frame hps hb).2, (hp.whole hc).1]
        exact CInt.toInt_eq (by omega) (by omega)
      refine ⟨_,_,_,decompressLoop_next P hB hpos hruns hgo,?_⟩
      rw [safeLog_stored, hrest, hsafe, hfaults]
      constructor
      · rintro ⟨⟨p,hp⟩,hgo⟩
        rw [hadvance p hp] at hgo
        exact ⟨p,hp,fun _ => hgo⟩
      · rintro ⟨p,hp,hgo⟩
        rw [hadvance p hp]
        refine ⟨⟨p,hp⟩,hgo ⟨hc,hok,fun hmissing => ?_⟩⟩
        have hout := hz.symm.trans (hat.handed P hp hc hok)
        cases hout
        exact hstore (Task.page_none hmissing a₄)

theorem length_leftover (garbage : List Byte) (size : ℕ) : (leftover garbage size).length = size := by
  rw [leftover, List.length_append, List.length_take, List.length_replicate]
  omega

/-- Where the byte behind the header buffer is zero, so that the parser sees the header alone, the
iterations of `decompress_file` are safe exactly when a frame stands wherever it looks for one. -/
theorem decompressFile_safe_iff (hE : fs.content fRead = E) (hap : fRead.path ≠ fWrite.path)
    (hstack : (leftover t.stack PAGE_SIZE).getD 8 0 = 0) :
    (∀ d ∈ decodings (logOf P (decompressFile fRead fWrite) (t,fs)), d.Safe) ↔
      WellFramed P E (CInt.toInt E.length).toNat t.faults (CInt.toInt E.length) 0 := by
  have hps : (FrameLocals.ofStack (leftover t.stack PAGE_SIZE)).ps.length = 4 := by
    change (((leftover t.stack PAGE_SIZE).drop 4).take 4).length = 4
    rw [List.length_take, List.length_drop, length_leftover]
    rfl
  have hb : (FrameLocals.ofStack (leftover t.stack PAGE_SIZE)).beyond.headD 0 = 0 :=
    (headD_of_drop rfl 0).trans hstack
  obtain ⟨es,a,s,hruns,hsafe⟩ := decompressLoop_safe P (t := t) (m := 0) hE hap (CInt.toInt E.length).toNat hps hb
    (by decide : (-2147483648 : ℤ) ≤ 0 ∧ (0 : ℤ) < 2147483648) (CInt.toInt E.length)
  have hlog : logOf P (decompressFile fRead fWrite) (t,fs) = es := (decompressFile_runs P fWrite hE hruns).log
  rw [hlog]
  exact hsafe

end Run

/-- A header that asks for more than a page. -/
theorem decompressFile_trusts_header :
    ¬ ∀ d ∈ decodings (logOf .bare (decompressFile ⟨['/','a'],0⟩ ⟨['/','t'],0⟩)
      (Task.fresh ['/'] 0 {},Fs.ofList [(['/','a'],[57,57,57,57]),(['/','t'],[])])), d.Safe := by
  have hlog : decodings (logOf .bare (decompressFile ⟨['/','a'],0⟩ ⟨['/','t'],0⟩)
      (Task.fresh ['/'] 0 {},Fs.ofList [(['/','a'],[57,57,57,57]),(['/','t'],[])])) =
      [⟨[57,57,57,57],9999,0,none⟩] := by decide +kernel
  rw [hlog]
  intro h
  exact absurd (h _ List.mem_cons_self).page (by decide)

/-- One frame of one byte. -/
theorem decompressFile_safe_one :
    (∀ d ∈ decodings (logOf .bare (decompressFile ⟨['/','a'],0⟩ ⟨['/','t'],0⟩)
      (Task.fresh ['/'] 0 {},Fs.ofList [(['/','a'],[49,0,0,0,7]),(['/','t'],[])])), d.Safe) ↔
      WellFramed .bare [49,0,0,0,7] (CInt.toInt ([49,0,0,0,7] : List Byte).length).toNat {}
        (CInt.toInt ([49,0,0,0,7] : List Byte).length) 0 :=
  decompressFile_safe_iff .bare rfl (by decide) (by decide)

/-! ## What is stored of any file -/

theorem parseInt_digits {bs : List Byte} (hne : bs ≠ []) (hd : ∀ b ∈ bs, IsDigit b)
    (hv : digitsValue bs < 2147483648) : parseInt bs = some (digitsValue bs : ℤ) := by
  have hsign : splitSign bs = (false,bs) := by
    cases bs with
    | nil => rfl
    | cons b bs =>
      have hb := hd b List.mem_cons_self
      have hminus : b ≠ 45 := by
        rintro rfl
        exact absurd hb (by decide)
      have hplus : b ≠ 43 := by
        rintro rfl
        exact absurd hb (by decide)
      rw [splitSign, if_neg hminus, if_neg hplus]
  have hlast : bs.getLast? ≠ some 10 := by
    intro h
    exact absurd (hd 10 (List.mem_of_getLast? h)) (by decide)
  have hbound : (-2147483648 : ℤ) ≤ (digitsValue bs : ℤ) ∧ (digitsValue bs : ℤ) < 2147483648 := by omega
  simp only [parseInt, hsign, if_neg hlast]
  rw [if_pos ⟨hne,hd⟩]
  exact if_pos hbound

/-- Reads, writes and allocations succeed in full. -/
structure Calm (t : Task) : Prop where
  reads : t.faults.reads = []
  writes : t.faults.writes = []
  allocs : t.faults.allocs = []

theorem readAnswer_full (content : List Byte) (pos len : ℕ) :
    readAnswer .full content pos len =
      ((((content.drop pos).take len).length : ℤ),(content.drop pos).take len) := by
  have hneg : ¬ ((pos : ℤ) < 0 ∨ (len : ℤ) < 0) := by omega
  simp only [readAnswer, if_neg hneg, Int.toNat_natCast, Outcome.count, List.take_length]

/-- A complete header at the start of the file is obeyed. -/
theorem readFrame_first {f : Faults} {E header : List Byte} {p : ℕ} (hf : f.reads = []) (hE : E.take 4 = header)
    (hfour : header.length = 4) (hzero : 0 ∈ header) (hp : parseInt (cString header) = some (p : ℤ)) (locals : FrameLocals) :
    (readFrame false f E locals 0).psize = p ∧ (readFrame false f E locals 0).body.2 = (E.drop 4).take p := by
  have hheader : readAnswer .full E 0 4 = (4,header) := by
    have hread := readAnswer_full E 0 4
    rw [List.drop_zero, hE, hfour] at hread
    exact hread
  have hpsize : kstrtoint (cString (Bytes.overlay 0 locals.ps 0 header ++ locals.beyond)) locals.psize = p := by
    rw [overlay_header, List.append_assoc, cString_append hzero, kstrtoint, hp]
    rfl
  have hbody : readAnswer .full E (advance 0 4) p = ((((E.drop 4).take p).length : ℤ),(E.drop 4).take p) :=
    readAnswer_full E 4 p
  simp only [readFrame, hf, List.headD_nil, List.tail_nil, hheader, hpsize, readAnswerInto_false, hbody, and_self]

/-- The first `p` bytes of a page that held `page` and was read into. -/
def readBack (page rest : List Byte) (p : ℕ) : List Byte := (Bytes.overlay 0 page 0 (rest.take p)).take p

section Stored
variable (P : Platform) {t : Task} {fs : Fs} {fRead fWrite : File} {past : List (List Byte)} {E out : List Byte}
  {locals : FrameLocals} {m w : ℤ}

theorem Calm.page (h : Calm t) (i a : ℕ) : t.page i a = some ⟨a,t.found i 4096⟩ := by
  apply Task.page_some
  rw [h.allocs, List.getD_nil]

theorem Calm.writes_full {a₃ a₄ : ℕ} {t₁ t₂ : Task} (h : Calm t) (hB : Buffers P t fs a₃ a₄ t₁ t₂) :
    t₂.faults.writes.headD .full = .full := by
  rw [hB.faults]
  exact congrArg (List.headD · .full) h.writes

theorem Calm.afterDecode {a₃ a₄ : ℕ} {t₁ t₂ : Task} (h : Calm t) (hB : Buffers P t fs a₃ a₄ t₁ t₂) (b₃ b₄ : Option Buf) :
    Calm (t₂.afterDecode b₃ b₄) := by
  have hfaults : (t₂.afterDecode b₃ b₄).faults = t.faults.popFrame := by
    simp only [Task.afterDecode, Task.afterReads, Task.freed_faults, Task.spend_faults, hB.faults]
    rfl
  constructor
  all_goals rw [hfaults]
  · exact congrArg (List.tail ∘ List.tail) h.reads
  · exact congrArg List.tail h.writes
  · exact congrArg (List.tail ∘ List.tail) h.allocs

theorem inflated_length {f : Faults} {src z : List Byte} {slen err : ℤ} (hinflate : ∀ x, (P.inflate x).length ≤ PAGE_SIZE)
    (h : inflated P f src slen = some (err,z)) : z.length ≤ 4096 := by
  unfold inflated at h
  split at h
  · simp only [Option.some.injEq, Prod.mk.injEq] at h
    simp [← h.2]
  · unfold Platform.convert at h
    split at h
    · simp only [Option.some.injEq, Prod.mk.injEq] at h
      simp [← h.2]
    · obtain ⟨x,-,hx⟩ := Option.map_eq_some_iff.mp h
      simp only [Prod.mk.injEq] at hx
      exact hx.2 ▸ hinflate x

/-- A page more at the most, and the next offset is no further unless it has come round. -/
theorem written_bound {k : ℕ} {z : List Byte} (hz : z.length ≤ 4096) (hout : out.length ≤ k)
    (hw : -2147483648 ≤ w ∧ w < 2147483648) (hin : 0 ≤ w ∧ w ≤ k ∨ 2147483648 ≤ k) :
    (Bytes.overlay 0 out w.toNat (z.take (writeCount .full w z.length).toNat)).length ≤ k + 4096 ∧
      (0 ≤ CInt.toInt (w + writeCount .full w z.length) ∧ CInt.toInt (w + writeCount .full w z.length) ≤ (k + 4096 : ℕ) ∨
        2147483648 ≤ k + 4096) := by
  by_cases hneg : w < 0
  · have hcount : writeCount .full w z.length = einval := if_pos hneg
    refine ⟨?_,.inr (by omega)⟩
    rw [hcount, show einval.toNat = 0 from rfl, List.take_zero, Bytes.overlay_nil]
    omega
  · have hcount : writeCount .full w z.length = z.length := if_neg hneg
    rw [hcount, Int.toNat_natCast, List.take_length]
    refine ⟨Bytes.length_overlay_le 0 z (by omega) (by omega),?_⟩
    by_cases hwrap : w + z.length < 2147483648
    · left
      rw [CInt.toInt_eq (by omega) hwrap]
      omega
    · right
      omega

variable (t) in
theorem decompressFile_nil (hT : Transfer fRead fWrite past [] out fs) :
    ((decompressFile fRead fWrite).run (Kernel.handle P) (t,fs)).2.2.entry fWrite.path = some out := by
  have hfile := decompressFile_runs P fWrite (t := t) hT.source
    (decompressLoop_done P 0 _ 0 0 (t,fs) (by decide))
  rw [hfile.run]
  exact hT.entry

/-- A file of at most `PAGE_SIZE-16` bytes that starts with a complete header gives one block. -/
theorem decompressFile_first (hT : Transfer fRead fWrite past E [] fs) (hcalm : Calm t)
    (hcomp : t.faults.comps.headD none = none) (hok : t.faults.compressions.headD none = none) {header : List Byte} {p : ℕ}
    (hE : E.take 4 = header) (hfour : header.length = 4) (hzero : 0 ∈ header)
    (hp : parseInt (cString header) = some (p : ℤ)) (hpage : p ≤ PAGE_SIZE) (hlen : E.length ≤ PAGE_SIZE - 16) :
    ((decompressFile fRead fWrite).run (Kernel.handle P) (t,fs)).2.2.entry fWrite.path =
      some (P.inflate (readBack (t.found 0 PAGE_SIZE) (E.drop 4) p)) := by
  have hsmall : E.length ≤ 4080 := hlen
  obtain ⟨n,hn⟩ : ∃ n, E.length = n + 1 := by
    have hle := congrArg List.length hE
    rw [List.length_take, hfour] at hle
    exact ⟨E.length - 1,by omega⟩
  have hint : CInt.toInt (E.length : ℤ) = ((n + 1 : ℕ) : ℤ) := by
    rw [hn]
    exact CInt.toInt_natCast (by omega)
  have hgt : ((n + 1 : ℕ) : ℤ) > 0 := by omega
  have hlast : ¬ (nextChunk ((n + 1 : ℕ) : ℤ)).2 > 0 := by
    simp only [nextChunk_natCast]
    omega
  obtain ⟨a₃,a₄,t₁,t₂,hB⟩ := buffers_exist P t fs
  obtain ⟨hpsize,hbody⟩ := readFrame_first hcalm.reads hE hfour hzero hp (FrameLocals.ofStack (leftover t.stack PAGE_SIZE))
  obtain ⟨r,hr⟩ : ∃ r, readFrame false t.faults E (FrameLocals.ofStack (leftover t.stack PAGE_SIZE)) 0 = r := ⟨_,rfl⟩
  rw [hr] at hpsize hbody
  have hreads : readFrame (t.page 0 a₃).isNone t₂.faults (fs.content fRead) (FrameLocals.ofStack (leftover t.stack PAGE_SIZE)) 0 = r := by
    rw [hcalm.page, Option.isNone_some, hB.faults, hT.source, ← hr]
    rfl
  have hz : inflated P t₂.faults (r.source (t.page 0 a₃)) r.psize =
      some (0,P.inflate (readBack (t.found 0 PAGE_SIZE) (E.drop 4) p)) := by
    have hsource : r.source (t.page 0 a₃) = Bytes.overlay 0 (t.found 0 PAGE_SIZE) 0 ((E.drop 4).take p) := by
      rw [FrameRead.source, hcalm.page, hbody]
      rfl
    have hfits : p ≤ (Bytes.overlay 0 (t.found 0 PAGE_SIZE) 0 ((E.drop 4).take p)).length :=
      (hpage.trans_eq (length_found t 0 PAGE_SIZE).symm).trans (Bytes.length_old_le_overlay_zero 0 _ _)
    have hcount : CInt.toUInt (p : ℤ) = p := by
      unfold PAGE_SIZE at hpage
      unfold CInt.toUInt
      omega
    have hnone : t₂.faults.compressions.headD none = none := by
      rw [hB.faults]
      exact hok
    rw [hsource, hpsize, inflated, hnone, hcount]
    exact convert_of_le P P.inflate hfits
  have hc₂ : t₂.faults.comps.headD none = none := by
    rw [hB.faults]
    exact hcomp
  obtain ⟨z,hout⟩ : ∃ z, P.inflate (readBack (t.found 0 PAGE_SIZE) (E.drop 4) p) = z := ⟨_,rfl⟩
  rw [hout] at hz ⊢
  have hcount : writeCountFrom (t.page 1 a₄).isNone (t₂.faults.writes.headD .full) 0 z.length = z.length := by
    rw [hcalm.page, Option.isNone_some, writeCountFrom_false, hcalm.writes_full P hB]
    rfl
  have hruns := decompressRound_runs P fWrite hreads hc₂ hz (by decide)
    (fun hnull => by rw [hcalm.page] at hnull; cases hnull) (by decide : (-2147483648 : ℤ) ≤ 0 ∧ (0 : ℤ) < 2147483648) hcount
  have hdone := decompressLoop_next P hB hgt hruns (decompressLoop_done P n _ _ _ _ hlast)
  have hfile := decompressFile_runs P fWrite (t := t) hT.source (by rw [hint, Int.toNat_natCast]; exact hdone)
  have hstored := (hT.write 0 z).entry
  rw [hfile.run]
  simp only [Int.toNat_natCast, Int.toNat_zero, List.take_length]
  rw [hstored]
  exact congrArg some (Bytes.overlay_start 0 z)

variable (locals) in
/-- A round adds a page at most, wherever it writes. -/
theorem decompressLoop_bound (hinflate : ∀ x, (P.inflate x).length ≤ PAGE_SIZE) (rounds rest : ℕ) {k : ℕ}
    (hT : Transfer fRead fWrite past E out fs) (hcalm : Calm t) (hout : out.length ≤ k)
    (hw : -2147483648 ≤ w ∧ w < 2147483648) (hin : 0 ≤ w ∧ w ≤ k ∨ 2147483648 ≤ k) :
    ∃ es a s out', Runs P (decompressLoop fRead fWrite rounds locals rest m w) (t,fs) es a s ∧
      Transfer fRead fWrite past E out' s.2 ∧ out'.length ≤ k + 4096 * ((rest + 4079) / 4080) := by
  induction rounds generalizing t fs locals m w out rest k with
  | zero => exact ⟨_,_,_,out,Does.pure _ _,hT,by omega⟩
  | succ rounds ih =>
    rcases Nat.eq_zero_or_pos rest with rfl | hrest
    · exact ⟨_,_,_,out,decompressLoop_done P (rounds+1) locals m w (t,fs) (by decide),hT,by omega⟩
    have hpos : (rest : ℤ) > 0 := by omega
    obtain ⟨a₃,a₄,t₁,t₂,hB⟩ := buffers_exist P t fs
    obtain ⟨r,hr⟩ : ∃ r, readFrame (t.page 0 a₃).isNone t₂.faults (fs.content fRead) locals m = r := ⟨_,rfl⟩
    by_cases hc : t₂.faults.comps.headD none = none
    swap
    · obtain ⟨t',hdead⟩ := decompressRound_dies P fWrite (t.page 1 a₄) w hr (.inl hc)
      exact ⟨_,_,_,out,decompressLoop_dies P rounds hB hpos hdead,hT,by omega⟩
    cases hz : inflated P t₂.faults (r.source (t.page 0 a₃)) r.psize with
    | none =>
      obtain ⟨t',hdead⟩ := decompressRound_dies P fWrite (t.page 1 a₄) w hr (.inr hz)
      exact ⟨_,_,_,out,decompressLoop_dies P rounds hB hpos hdead,hT,by omega⟩
    | some answer =>
      obtain ⟨err,z⟩ := answer
      by_cases herr : err < 0
      · obtain ⟨t',hruns⟩ := decompressRound_fails P fWrite (t.page 1 a₄) w hr hc hz herr
        exact ⟨_,_,_,out,decompressLoop_refused P rounds hB hpos hruns,hT,by omega⟩
      have hpage := inflated_length P hinflate hz
      have hcount : writeCountFrom (t.page 1 a₄).isNone (t₂.faults.writes.headD .full) w z.length =
          writeCount .full w z.length := by
        rw [hcalm.page, Option.isNone_some, writeCountFrom_false, hcalm.writes_full P hB]
      have hruns := decompressRound_runs P fWrite hr hc hz herr
        (fun hnull => by rw [hcalm.page] at hnull; cases hnull) hw hcount
      obtain ⟨hstored,hnext⟩ := written_bound (z := z) hpage hout hw hin
      obtain ⟨es,a,s,out',hgo,hT',hle⟩ := ih _ (rest - min 4080 rest) (k := k + 4096)
        (m := CInt.toInt (m + CInt.toInt r.body.1)) (hT.write w.toNat (z.take (writeCount .full w z.length).toNat))
        (hcalm.afterDecode P hB (t.page 0 a₃) (t.page 1 a₄)) hstored (CInt.toInt_bounds _) hnext
      have hchunk : (nextChunk (rest : ℤ)).2 = ((rest - min 4080 rest : ℕ) : ℤ) := by rw [nextChunk_natCast]
      refine ⟨_,_,_,out',decompressLoop_next P hB hpos hruns (hchunk ▸ hgo),hT',hle.trans ?_⟩
      omega

/-- However long the file, one page is stored at most for each `PAGE_SIZE-16` bytes of it. -/
theorem decompressFile_bound (hinflate : ∀ x, (P.inflate x).length ≤ PAGE_SIZE) (hT : Transfer fRead fWrite past E [] fs)
    (hcalm : Calm t) {out : List Byte}
    (hout : ((decompressFile fRead fWrite).run (Kernel.handle P) (t,fs)).2.2.entry fWrite.path = some out) :
    out.length ≤ 4096 * ((E.length + 4079) / 4080) := by
  obtain ⟨n,hn,hfsize⟩ : ∃ n : ℕ, n ≤ E.length ∧ (CInt.toInt E.length = n ∨ CInt.toInt E.length < 0 ∧ n = 0) := by
    have hle : CInt.toInt (E.length : ℤ) ≤ E.length := by
      unfold CInt.toInt
      omega
    exact ⟨(CInt.toInt E.length).toNat,by omega,by omega⟩
  rcases hfsize with hfsize | ⟨hneg,-⟩
  · obtain ⟨es,a,s,out',hruns,hT',hle⟩ := decompressLoop_bound P (FrameLocals.ofStack (leftover t.stack PAGE_SIZE)) (m := 0)
      (k := 0) hinflate n n hT hcalm (Nat.le_refl 0)
      (by decide : (-2147483648 : ℤ) ≤ 0 ∧ (0 : ℤ) < 2147483648) (.inl ⟨le_rfl,le_rfl⟩)
    have hfile := decompressFile_runs P fWrite (t := t) hT.source (by rw [hfsize, Int.toNat_natCast]; exact hruns)
    rw [hfile.run] at hout
    have hsame : out' = out := Option.some_inj.mp (hT'.entry.symm.trans hout)
    rw [← hsame]
    omega
  · have hfile := decompressFile_runs P fWrite (t := t) hT.source (by
      rw [Int.toNat_of_nonpos hneg.le]
      exact decompressLoop_done P 0 _ 0 0 (t,fs) (by omega))
    rw [hfile.run] at hout
    have hsame : [] = out := Option.some_inj.mp (hT.entry.symm.trans hout)
    rw [← hsame]
    exact Nat.zero_le _

end Stored

/-! ## Streams of frames -/

/-- A frame of a well-formed stream: the terminated decimal length of the payload in four bytes, and
the payload. -/
structure StreamFrame where
  header : List Byte
  payload : List Byte
  four : header.length = 4
  terminated : 0 ∈ header
  digits : cString header ≠ [] ∧ ∀ b ∈ cString header, IsDigit b
  value : digitsValue (cString header) = payload.length
  pos : 1 ≤ payload.length
  small : payload.length ≤ 999

def StreamFrame.bytes (f : StreamFrame) : List Byte := f.header ++ f.payload

def stream (frames : List StreamFrame) : List Byte := frames.flatMap StreamFrame.bytes

section Streams
variable (P : Platform) {t : Task} {fs : Fs} {fRead fWrite : File} {past : List (List Byte)} {frames : List StreamFrame}

/-- Whether the target holds what the frames of a stream decompress to. -/
def Recovers (P : Platform) (fRead fWrite : File) (frames : List StreamFrame) (s : Kernel) : Prop :=
  ((decompressFile fRead fWrite).run (Kernel.handle P) s).2.2.entry fWrite.path =
    some (frames.flatMap (fun f => P.inflate f.payload))

/-- The first frame of a short stream is found, and no other. -/
theorem decompressFile_stream {f : StreamFrame} {more : List Byte} (hT : Transfer fRead fWrite past (f.bytes ++ more) [] fs)
    (hcalm : Calm t) (hcomp : t.faults.comps.headD none = none) (hfirst : t.faults.compressions.headD none = none)
    (hlen : (f.bytes ++ more).length ≤ PAGE_SIZE - 16) :
    ((decompressFile fRead fWrite).run (Kernel.handle P) (t,fs)).2.2.entry fWrite.path = some (P.inflate f.payload) := by
  have hE : f.bytes ++ more = f.header ++ (f.payload ++ more) := List.append_assoc _ _ _
  have hbound : digitsValue (cString f.header) < 2147483648 := by
    rw [f.value]
    exact f.small.trans_lt (by decide)
  have hparse := parseInt_digits f.digits.1 f.digits.2 hbound
  rw [f.value] at hparse
  have htake : (f.bytes ++ more).take 4 = f.header := by rw [hE, ← f.four, List.take_left]
  have hblock : readBack (t.found 0 PAGE_SIZE) ((f.bytes ++ more).drop 4) f.payload.length = f.payload := by
    rw [readBack, hE, ← f.four, List.drop_left, List.take_left]
    exact Bytes.take_overlay_zero 0 _ _
  have hstored := decompressFile_first P hT hcalm hcomp hfirst htake f.four f.terminated hparse
    (f.small.trans (by decide)) hlen
  rw [hstored, hblock]

/-- A stream of at most `PAGE_SIZE-16` bytes is recovered exactly when its frames after the first
decompress to nothing. A longer one is only recovered if its frames decompress to no more than a page
for each `PAGE_SIZE-16` bytes. -/
theorem decompressFile_stream_iff (hT : Transfer fRead fWrite past (stream frames) [] fs) (hcalm : Calm t)
    (hcomp : t.faults.comps.headD none = none) (hfirst : t.faults.compressions.headD none = none) :
    ((stream frames).length ≤ PAGE_SIZE - 16 →
      (Recovers P fRead fWrite frames (t,fs) ↔ ∀ f ∈ frames.tail, P.inflate f.payload = [])) ∧
    ((∀ x, (P.inflate x).length ≤ PAGE_SIZE) → Recovers P fRead fWrite frames (t,fs) →
      (frames.flatMap (fun f => P.inflate f.payload)).length ≤ PAGE_SIZE * (((stream frames).length + 4079) / 4080)) := by
  refine ⟨fun hlen => ?_,fun hinflate hrec => decompressFile_bound P hinflate hT hcalm hrec⟩
  cases frames with
  | nil =>
    exact iff_of_true (decompressFile_nil P t hT) (fun f hf => by cases hf)
  | cons f rest =>
    have hstream : stream (f :: rest) = f.bytes ++ stream rest := List.flatMap_cons
    rw [hstream] at hlen hT
    rw [Recovers, decompressFile_stream P hT hcalm hcomp hfirst hlen, Option.some.injEq, List.flatMap_cons,
      List.self_eq_append_right, List.flatMap_eq_nil_iff]
    rfl

end Streams

/-- A frame of one byte. -/
def StreamFrame.byte (b : Byte) : StreamFrame where
  header := [49,0,0,0]
  payload := [b]
  four := rfl
  terminated := by decide
  digits := by decide
  value := rfl
  pos := le_rfl
  small := (by decide : 1 ≤ 999)

/-- Of two frames the second is lost. -/
theorem decompressFile_loses_frame :
    ¬ Recovers .bare ⟨['/','a'],0⟩ ⟨['/','t'],0⟩ [.byte 7,.byte 8]
      (Task.fresh ['/'] 0 {},Fs.ofList [(['/','a'],stream [.byte 7,.byte 8]),(['/','t'],[])]) := by
  unfold Recovers
  decide +kernel

/-- A compressor that keeps every byte, with a decompressor that fills a page at most. -/
def Platform.keeping : Platform := { Platform.bare with inflate := List.take PAGE_SIZE }

theorem decompressFile_stream_one :
    let s : Kernel := (Task.fresh ['/'] 0 {},Fs.ofList [(['/','a'],stream [.byte 7]),(['/','t'],[])])
    ((stream [.byte 7]).length ≤ PAGE_SIZE - 16 →
      (Recovers .keeping ⟨['/','a'],0⟩ ⟨['/','t'],0⟩ [.byte 7] s ↔
        ∀ f ∈ [StreamFrame.byte 7].tail, Platform.keeping.inflate f.payload = [])) ∧
    ((∀ x, (Platform.keeping.inflate x).length ≤ PAGE_SIZE) → Recovers .keeping ⟨['/','a'],0⟩ ⟨['/','t'],0⟩ [.byte 7] s →
      ([StreamFrame.byte 7].flatMap (fun f => Platform.keeping.inflate f.payload)).length ≤
        PAGE_SIZE * (((stream [.byte 7]).length + 4079) / 4080)) := by
  intro s
  have hT : Transfer ⟨['/','a'],0⟩ ⟨['/','t'],0⟩ [] (stream [.byte 7]) [] s.2 := ⟨rfl,rfl,rfl,by decide⟩
  exact decompressFile_stream_iff .keeping hT ⟨rfl,rfl,rfl⟩ rfl rfl

end XClone
