import XClone.Kernel.FileOps
import XClone.Library.Observation

/-! # What a run does to the data

The log of a run keeps the opens, the transfers, the calls of the cipher and of the
compressor, and the unlinks, each with its result. The results of transfers are
given for every outcome, also for positions that have become negative.
-/
namespace XClone
open Effects Prog

inductive Event where
  | opened (name : Path) (create found : Bool)
  | read (f : File) (pos len n : ℤ) (data : List Byte)
  | write (f : File) (pos len n : ℤ)
  | setkey (err : ℤ)
  | encrypt (key src : List Byte) (err : ℤ)
  | compress (src : List Byte) (err : ℤ)
  | decompress (src : List Byte) (slen err : ℤ)
  | unlink (f : File) (err : ℤ)
deriving DecidableEq, Repr

def Call.events : (c : Call) → Answer c → List Event
  | .filpOpen name create, r => [.opened name create r.toBool]
  | .vfsRead f pos len, r => [.read f pos len r.1 r.2]
  | .vfsReadNull f pos len, n => [.read f pos len n []]
  | .vfsWrite f pos _ len, n => [.write f pos len n]
  | .vfsWriteNull f pos len, n => [.write f pos len n]
  | .cryptoBlkcipherSetkey _, err => [.setkey err]
  | .cryptoBlkcipherEncrypt key src nbytes, r => [.encrypt key (src.take nbytes) r.1]
  | .cryptoCompCompress src slen _, r => [.compress (src.take (CInt.toUInt slen)) r.1]
  | .cryptoCompDecompress src slen, r => [.decompress src slen r.1]
  | .vfsUnlink f, err => [.unlink f err]
  | _, _ => []

/-- The log of a kernel program. -/
abbrev logOf {α : Type} (P : Platform) (p : KProg α) (s : Kernel) : List Event :=
  p.log Call.events (Kernel.handle P) s

/-- How a kernel program runs and what it logs. -/
abbrev Runs {α : Type} (P : Platform) (p : KProg α) (s : Kernel) (es : List Event) (a : Option α) (s' : Kernel) :
    Prop := Does Call.events (Kernel.handle P) p s es a s'

/-- The file was removed. -/
def Removed (path : Path) (log : List Event) : Prop := ∃ f err, Event.unlink f err ∈ log ∧ f.path = path ∧ 0 ≤ err

/-- The chunks read from a file, in order. -/
def chunksRead (path : Path) (log : List Event) : List (List Byte) :=
  log.filterMap fun
    | .read f _ _ _ data => if f.path = path then some data else none
    | _ => none

/-- What the cipher was given, in order. -/
def chunksEncrypted (log : List Event) : List (List Byte) :=
  log.filterMap fun
    | .encrypt _ src _ => some src
    | _ => none

/-- What the compressor was given, in order. -/
def chunksCompressed (log : List Event) : List (List Byte) :=
  log.filterMap fun
    | .compress src _ => some src
    | _ => none

/-- How much was to be written to a file each time. -/
def lengthsWritten (path : Path) (log : List Event) : List ℤ :=
  log.filterMap fun
    | .write f _ len _ => if f.path = path then some len else none
    | _ => none

section Append
variable (path : Path) (l l' : List Event)

theorem chunksRead_append : chunksRead path (l ++ l') = chunksRead path l ++ chunksRead path l' := by
  simp [chunksRead]

theorem chunksEncrypted_append : chunksEncrypted (l ++ l') = chunksEncrypted l ++ chunksEncrypted l' := by
  simp [chunksEncrypted]

theorem chunksCompressed_append : chunksCompressed (l ++ l') = chunksCompressed l ++ chunksCompressed l' := by
  simp [chunksCompressed]

theorem lengthsWritten_append : lengthsWritten path (l ++ l') = lengthsWritten path l ++ lengthsWritten path l' := by
  simp [lengthsWritten]

end Append

/-- A transfer in full, or a success of the cipher under the key, or of the compressor. -/
def Event.Complete (key : List Byte) : Event → Prop
  | .read _ _ len n _ => n = len
  | .write _ _ len n => n = len
  | .setkey err => 0 ≤ err
  | .encrypt k _ err => k = key ∧ 0 ≤ err
  | .compress _ err => 0 ≤ err
  | _ => True

instance (key : List Byte) : DecidablePred (Event.Complete key) := fun e => by
  cases e <;> unfold Event.Complete <;> infer_instance

/-! ## Results of transfers -/

/-- What a read of a file of `size` bytes returns. -/
def readCount (o : Outcome) (size : ℕ) (pos : ℤ) (len : ℕ) : ℤ :=
  if pos < 0 then einval else o.count (min len (size - pos.toNat))

def writeCount (o : Outcome) (pos : ℤ) (len : ℕ) : ℤ := if pos < 0 then einval else o.count len

theorem readCount_le (o : Outcome) (size : ℕ) (pos : ℤ) (len : ℕ) : readCount o size pos len ≤ len := by
  have hc := o.count_le (min len (size - pos.toNat))
  unfold readCount
  split
  · unfold einval
    omega
  · omega

theorem readCount_le_rest (o : Outcome) (size : ℕ) (pos : ℤ) (len : ℕ) :
    readCount o size pos len ≤ (size - pos.toNat : ℕ) := by
  have hc := o.count_le (min len (size - pos.toNat))
  unfold readCount
  split
  · unfold einval
    omega
  · omega

theorem writeCount_le (o : Outcome) (pos : ℤ) (len : ℕ) : writeCount o pos len ≤ len := by
  have hc := o.count_le len
  unfold writeCount
  split
  · unfold einval
    omega
  · exact hc

theorem Outcome.countNull_nonpos (o : Outcome) (n : ℕ) : o.countNull n ≤ 0 := by
  cases o with
  | fail e => exact (Int.negSucc_lt_zero e).le
  | _ =>
    simp only [countNull]
    split
    · exact le_rfl
    · decide

/-- The same into a buffer that may be missing. -/
def readCountInto (missing : Bool) (o : Outcome) (size : ℕ) (pos : ℤ) (len : ℕ) : ℤ :=
  if missing then if pos < 0 then einval else o.countNull (min len (size - pos.toNat)) else readCount o size pos len

def writeCountFrom (missing : Bool) (o : Outcome) (pos : ℤ) (len : ℕ) : ℤ :=
  if missing then if pos < 0 then einval else o.countNull len else writeCount o pos len

@[simp] theorem readCountInto_false : readCountInto false = readCount := rfl
@[simp] theorem writeCountFrom_false : writeCountFrom false = writeCount := rfl

theorem readCountInto_missing (o : Outcome) (size : ℕ) (pos : ℤ) (len : ℕ) : readCountInto true o size pos len ≤ 0 := by
  rw [readCountInto, if_pos rfl]
  split
  · decide
  · exact o.countNull_nonpos _

theorem writeCountFrom_missing (o : Outcome) (pos : ℤ) (len : ℕ) : writeCountFrom true o pos len ≤ 0 := by
  rw [writeCountFrom, if_pos rfl]
  split
  · decide
  · exact o.countNull_nonpos _

theorem readCountInto_le (missing : Bool) (o : Outcome) (size : ℕ) (pos : ℤ) (len : ℕ) :
    readCountInto missing o size pos len ≤ len := by
  cases missing with
  | true => exact (readCountInto_missing o size pos len).trans (Int.natCast_nonneg len)
  | false => exact readCount_le o size pos len

theorem writeCountFrom_le (missing : Bool) (o : Outcome) (pos : ℤ) (len : ℕ) :
    writeCountFrom missing o pos len ≤ len := by
  cases missing with
  | true => exact (writeCountFrom_missing o pos len).trans (Int.natCast_nonneg len)
  | false => exact writeCount_le o pos len

theorem readCountInto_le_rest (missing : Bool) (o : Outcome) (size : ℕ) (pos : ℤ) (len : ℕ) :
    readCountInto missing o size pos len ≤ (size - pos.toNat : ℕ) := by
  cases missing with
  | true => exact (readCountInto_missing o size pos len).trans (Int.natCast_nonneg _)
  | false => exact readCount_le_rest o size pos len

/-- What is found behind a buffer once `data` was put there. -/
def filled (buff : Option Buf) (data : List Byte) : List Byte := buff.elim [] (fun b => Bytes.overlay 0 b.bytes 0 data)

section Transfers
variable (P : Platform) (f : File) (t : Task) (fs : Fs)

theorem handle_vfsRead_count (pos : ℤ) (len : ℕ) {r : ℤ}
    (hr : readCount (t.faults.reads.headD .full) (fs.content f).length pos len = r) :
    Kernel.handle P (.vfsRead f pos len) (t,fs) =
      (some (r,((fs.content f).drop pos.toNat).take r.toNat),t.spend .popRead,fs) := by
  by_cases hneg : pos < 0
  · have hinv : pos < 0 ∨ (len : ℤ) < 0 := .inl hneg
    rw [readCount, if_pos hneg] at hr
    simp only [Kernel.handle, if_pos hinv, ← hr]
    rfl
  · have hle := (t.faults.reads.headD .full).count_le (min len ((fs.content f).length - pos.toNat))
    rw [readCount, if_neg hneg] at hr
    rw [handle_vfsRead P f len (Int.not_lt.mp hneg)]
    simp only [List.length_take, List.length_drop, List.take_take, hr]
    rw [min_eq_left (by omega)]

theorem handle_vfsWrite_count (pos : ℤ) {buf : List Byte} {len : ℕ} (hlen : len ≤ buf.length) {w : ℤ}
    (hw : writeCount (t.faults.writes.headD .full) pos len = w) :
    Kernel.handle P (.vfsWrite f pos buf len) (t,fs) =
      (some w,t.spend .popWrite,Function.update fs f.path
        ((fs f.path).write f.inode pos.toNat (buf.take w.toNat))) := by
  by_cases hneg : pos < 0
  · have hinv : pos < 0 ∨ (len : ℤ) < 0 := .inl hneg
    rw [writeCount, if_pos hneg] at hw
    have hnone : (fs f.path).write f.inode pos.toNat (buf.take w.toNat) = fs f.path := by
      rw [← hw]
      exact Slot.write_nil _ _ _
    simp only [Kernel.handle, if_pos hinv, hw, hnone, Function.update_eq_self]
  · have hle := (t.faults.writes.headD .full).count_le len
    have hl : (buf.take len).length = len := List.length_take_of_le hlen
    rw [writeCount, if_neg hneg] at hw
    rw [handle_vfsWrite P f buf len (Int.not_lt.mp hneg)]
    simp only [hl, hw, List.take_take]
    rw [min_eq_left (by omega)]

theorem fileRead_runs {pos : ℤ} (hpos : -2147483648 ≤ pos) (hpos' : pos < 2147483648) (len : ℕ) {r : ℤ}
    (hr : readCount (t.faults.reads.headD .full) (fs.content f).length pos len = r) :
    Runs P (fileRead f pos len) (t,fs) [.read f pos len r (((fs.content f).drop pos.toNat).take r.toNat)]
      (some (r,((fs.content f).drop pos.toNat).take r.toNat)) (t.spend .popRead,fs) := by
  have ho : CInt.toLong pos = pos := CInt.toLong_eq (by omega) (by omega)
  have hread := handle_vfsRead_count P f (t.limit .kernelDs) fs pos len hr
  rw [fileRead, ho]
  exact (Does.call (handle_getFs P t fs)).bind ((Does.call (handle_setFs P t fs .kernelDs)).bind
    ((Does.call hread).bind ((Does.call (handle_setFs P _ fs _)).bind (Does.pure _ _))))

theorem fileWrite_runs {pos : ℤ} (hpos : -2147483648 ≤ pos) (hpos' : pos < 2147483648) {buf : List Byte} {len : ℕ}
    (hlen : len ≤ buf.length) {w : ℤ} (hw : writeCount (t.faults.writes.headD .full) pos len = w) :
    Runs P (fileWrite f pos buf len) (t,fs) [.write f pos len w] (some w)
      (t.spend .popWrite,Function.update fs f.path ((fs f.path).write f.inode pos.toNat (buf.take w.toNat))) := by
  have ho : CInt.toLong pos = pos := CInt.toLong_eq (by omega) (by omega)
  have hwrite := handle_vfsWrite_count P f (t.limit .kernelDs) fs pos hlen hw
  rw [fileWrite, ho]
  exact (Does.call (handle_getFs P t fs)).bind ((Does.call (handle_setFs P t fs .kernelDs)).bind
    ((Does.call hwrite).bind ((Does.call (handle_setFs P _ _ _)).bind (Does.pure _ _))))

theorem vfsReadInto_runs (buff : Option Buf) (pos : ℤ) (len : ℕ) {r : ℤ}
    (hr : readCountInto buff.isNone (t.faults.reads.headD .full) (fs.content f).length pos len = r) :
    Runs P (vfsReadInto f buff pos len) (t,fs) [.read f pos len r (((fs.content f).drop pos.toNat).take r.toNat)]
      (some (r,filled buff (((fs.content f).drop pos.toNat).take r.toNat))) (t.spend .popRead,fs) := by
  cases buff with
  | some b => exact (Does.call (handle_vfsRead_count P f t fs pos len hr)).bind (Does.pure _ _)
  | none =>
    have hnone : ((fs.content f).drop pos.toNat).take r.toNat = [] := by
      have hle := readCountInto_missing (t.faults.reads.headD .full) (fs.content f).length pos len
      rw [Option.isNone_none] at hr
      rw [Int.toNat_of_nonpos (hr ▸ hle), List.take_zero]
    have hcall : Kernel.handle P (.vfsReadNull f pos len) (t,fs) = (some r,t.spend .popRead,fs) := by
      rw [readCountInto, Option.isNone_none, if_pos rfl] at hr
      by_cases hneg : pos < 0
      · simp only [Kernel.handle, if_pos (show pos < 0 ∨ (len : ℤ) < 0 from .inl hneg), ← hr, if_pos hneg]
      · have hvalid : ¬ (pos < 0 ∨ (len : ℤ) < 0) := by omega
        simp only [Kernel.handle, if_neg hvalid, ← hr, if_neg hneg, List.length_take, List.length_drop, Int.toNat_natCast]
    rw [hnone]
    exact (Does.call hcall).bind (Does.pure _ _)

theorem vfsWriteFrom_runs {contents : Option (List Byte)} (pos : ℤ) {len : ℕ} (hlen : ∀ bytes, contents = some bytes → len ≤ bytes.length)
    {w : ℤ} (hw : writeCountFrom contents.isNone (t.faults.writes.headD .full) pos len = w) :
    Runs P (vfsWriteFrom f pos contents len) (t,fs) [.write f pos len w] (some w)
      (t.spend .popWrite,Function.update fs f.path ((fs f.path).write f.inode pos.toNat ((contents.getD []).take w.toNat))) := by
  cases contents with
  | some bytes => exact Does.call (handle_vfsWrite_count P f t fs pos (hlen bytes rfl) hw)
  | none =>
    have hcall : Kernel.handle P (.vfsWriteNull f pos len) (t,fs) = (some w,t.spend .popWrite,fs) := by
      rw [writeCountFrom, Option.isNone_none, if_pos rfl] at hw
      by_cases hneg : pos < 0
      · simp only [Kernel.handle, if_pos (show pos < 0 ∨ (len : ℤ) < 0 from .inl hneg), ← hw, if_pos hneg]
      · have hvalid : ¬ (pos < 0 ∨ (len : ℤ) < 0) := by omega
        simp only [Kernel.handle, if_neg hvalid, ← hw, if_neg hneg, Int.toNat_natCast]
    rw [Option.getD_none, List.take_nil, Slot.write_nil, Function.update_eq_self]
    exact Does.call hcall

theorem fileReadInto_runs (buff : Option Buf) {pos : ℤ} (hpos : -2147483648 ≤ pos) (hpos' : pos < 2147483648) (len : ℕ) {r : ℤ}
    (hr : readCountInto buff.isNone (t.faults.reads.headD .full) (fs.content f).length pos len = r) :
    Runs P (fileReadInto f buff pos len) (t,fs) [.read f pos len r (((fs.content f).drop pos.toNat).take r.toNat)]
      (some (r,filled buff (((fs.content f).drop pos.toNat).take r.toNat))) (t.spend .popRead,fs) := by
  have ho : CInt.toLong pos = pos := CInt.toLong_eq (by omega) (by omega)
  have hread := vfsReadInto_runs P f (t.limit .kernelDs) fs buff pos len hr
  rw [fileReadInto, ho]
  exact (Does.call (handle_getFs P t fs)).bind ((Does.call (handle_setFs P t fs .kernelDs)).bind
    (hread.bind ((Does.call (handle_setFs P _ fs _)).bind (Does.pure _ _))))

theorem fileWriteFrom_runs {pos : ℤ} (hpos : -2147483648 ≤ pos) (hpos' : pos < 2147483648) {contents : Option (List Byte)} {len : ℕ}
    (hlen : ∀ bytes, contents = some bytes → len ≤ bytes.length) {w : ℤ}
    (hw : writeCountFrom contents.isNone (t.faults.writes.headD .full) pos len = w) :
    Runs P (fileWriteFrom f pos contents len) (t,fs) [.write f pos len w] (some w)
      (t.spend .popWrite,Function.update fs f.path ((fs f.path).write f.inode pos.toNat ((contents.getD []).take w.toNat))) := by
  have ho : CInt.toLong pos = pos := CInt.toLong_eq (by omega) (by omega)
  have hwrite := vfsWriteFrom_runs P f (t.limit .kernelDs) fs pos hlen hw
  rw [fileWriteFrom, ho]
  exact (Does.call (handle_getFs P t fs)).bind ((Does.call (handle_setFs P t fs .kernelDs)).bind
    (hwrite.bind ((Does.call (handle_setFs P _ _ _)).bind (Does.pure _ _))))

/-- Only output through `NULL` is fatal. -/
theorem storeOutput_runs {buff : Option Buf} {out : List Byte} (h : buff = none → out = []) (s : Kernel) :
    Runs P (storeOutput buff out) s [] (some (buff.map (fun b => Bytes.overlay 0 b.bytes 0 out))) s := by
  cases buff with
  | some b => exact Does.pure _ _
  | none =>
    rw [storeOutput, if_pos (h rfl)]
    exact Does.pure _ _

theorem die_runs {α : Type} (s : Kernel) : Runs P (die : KProg α) s [] none s :=
  (Does.dead (handle_oops P s.1 s.2)).bind_dead

theorem storeOutput_dies {out : List Byte} (h : out ≠ []) (s : Kernel) : Runs P (storeOutput none out) s [] none s := by
  rw [storeOutput, if_neg h]
  exact die_runs P s

theorem freeBuffers_runs (bufs : List Buf) :
    Runs P (freeBuffers bufs) (t,fs) [] (some ()) (bufs.foldl (fun t b => t.freed (some b.addr)) t,fs) := by
  induction bufs generalizing t with
  | nil => exact Does.pure _ _
  | cons b bs ih => exact (Does.call (handle_kfree P t fs (some b.addr))).bind (ih _)

theorem fileClose_runs : Runs P (fileClose f) (t,fs) [] (some ()) (t.closing f,fs) :=
  Does.call (handle_filpClose P t fs f)

end Transfers

section Cipher
variable (P : Platform) {t : Task} (fs : Fs) (key : List Byte) {src x : List Byte} {n k : ℕ}

/-- What the cipher hands out. -/
def cipherOutput (P : Platform) (encrypt : Fault) (key x : List Byte) : List Byte :=
  match encrypt with
  | none => BlockCipher.encryptBytes (P.aes key) P.aesIv x
  | some _ => []

theorem cipherOutput_eq_nil_iff (encrypt : Fault) (hx : 16 ∣ x.length) :
    cipherOutput P encrypt key x = [] ↔ encrypt ≠ none ∨ x = [] := by
  cases encrypt with
  | some e => simp [cipherOutput]
  | none =>
    have hlen := BlockCipher.length_encryptBytes (by decide) (P.aes key) P.aesIv hx
    rw [cipherOutput, ← List.length_eq_zero_iff, hlen, List.length_eq_zero_iff]
    simp

theorem encrypt_runs (hn : n = k) (hx : src.take k = x) (hk : x.length = k) :
    Runs P (kcall (.cryptoBlkcipherEncrypt key src n)) (t,fs) [.encrypt key x (t.faults.encrypts.headD none).code]
      (some ((t.faults.encrypts.headD none).code,cipherOutput P (t.faults.encrypts.headD none) key x))
      (t.spend .popEncrypt,fs) := by
  subst hn
  have hle : ¬ src.length < n := by
    rw [← hx, List.length_take] at hk
    omega
  have hcall : Kernel.handle P (.cryptoBlkcipherEncrypt key src n) (t,fs) =
      (some ((t.faults.encrypts.headD none).code,cipherOutput P (t.faults.encrypts.headD none) key x),
        t.spend .popEncrypt,fs) := by
    simp only [Kernel.handle, if_neg hle, hx]
    cases t.faults.encrypts.headD none <;> rfl
  have hrun : Runs P _ _ (Call.events _ _) _ _ := Does.call hcall
  unfold Call.events at hrun
  simp only [hx] at hrun
  exact hrun

theorem encrypt_dies (h : src.length < n) :
    Runs P (kcall (.cryptoBlkcipherEncrypt key src n)) (t,fs) [] none (t.spend .popEncrypt,fs) := by
  apply Does.dead
  simp only [Kernel.handle, if_pos h]

end Cipher

section Opening
variable (P : Platform) {t : Task} {fs : Fs} {path : Path} {create : Bool}

theorem fileOpen_runs {i : ℕ} {s : Slot} (h : t.faults.opens.headD none = none)
    (hs : fs.reach P (resolve t.cwd path) create = some (i,s)) :
    Runs P (fileOpen path create) (t,fs) [.opened path create true] (some (.ok ⟨resolve t.cwd path,i⟩))
      (((t.limit .kernelDs).spend .popOpen).opening ⟨resolve t.cwd path,i⟩,
        Function.update fs (resolve t.cwd path) s) :=
  (Does.call (handle_getFs P t fs)).bind ((Does.call (handle_setFs P t fs .kernelDs)).bind
    (Does.call (handle_filpOpen P (t := t.limit .kernelDs) h hs)))

variable (path create) in
theorem fileOpen_fails (h : t.faults.opens.headD none ≠ none ∨ fs.reach P (resolve t.cwd path) create = none) :
    ∃ e, Runs P (fileOpen path create) (t,fs) [.opened path create false] (some (.error e))
      ((t.limit .kernelDs).spend .popOpen,fs) := by
  obtain ⟨e,he⟩ := handle_filpOpen_fails P (t := t.limit .kernelDs) h
  exact ⟨e,(Does.call (handle_getFs P t fs)).bind ((Does.call (handle_setFs P t fs .kernelDs)).bind (Does.call he))⟩

end Opening

end XClone
