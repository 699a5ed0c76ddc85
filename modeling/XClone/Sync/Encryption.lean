import XClone.Kernel.Events

/-! # Moves with encryption: `clone_encryption` and `processencryption`

The file is cut into chunks of a page less one cipher block. Each chunk is padded to
whole blocks, encrypted from the same initial vector, and appended to the `.enc` entry.
-/
namespace XClone
open Effects Prog

/-- `zero_padding` and the two-part scatter list. A cipher that cannot be allocated is the only
error reported; a failed `setkey` leaves the cipher with its empty key. -/
def cloneEncryption (key : List Byte) (dst : Option Buf) (src : List Byte) (srcLen : ℕ) :
    KProg (ℤ × ℕ × Option (List Byte)) := do
  let zeroPadding := 16 - srcLen % 16
  let tfm ← kcall .cryptoAllocBlkcipher
  if tfm < 0 then return (tfm,0,none)
  else
    let dstLen := CInt.toSize (srcLen + zeroPadding)
    let keyed ← kcall (.cryptoBlkcipherSetkey key)
    let pad := List.replicate zeroPadding (UInt8.ofNat zeroPadding)
    let ret ← kcall (.cryptoBlkcipherEncrypt (if keyed < 0 then [] else key) (src.take srcLen ++ pad)
      (CInt.toUInt dstLen))
    let stored ← storeOutput dst ret.2
    return (0,dstLen,stored)

/-- The next chunk and what is left of the file after it. -/
def nextChunk (fsize : ℤ) : ℤ × ℤ :=
  if fsize > PAGE_SIZE - 16 then (PAGE_SIZE - 16,fsize - (PAGE_SIZE - 16)) else (fsize,0)

/-- The end of a round; a missing page is no harm here. -/
def freePages (buff3 buff4 : Option Buf) : KProg Unit := do
  kcall (.kfree (buff3.map Buf.addr))
  kcall (.kfree (buff4.map Buf.addr))

/-- One chunk, from its read to the release of its buffers: the bytes read and written, or the
error of `clone_encryption`. Neither buffer is tested. -/
def encryptRound (fRead fWrite : File) (key : Ptr) (buff3 buff4 : Option Buf)
    (tempSize currReadSize currWriteSize : ℤ) : KProg (Except ℤ (ℤ × ℤ)) := do
  let (bytes1,src) ← fileReadInto fRead buff3 currReadSize tempSize
  let keyBytes ← kcall (.readString key)
  let (err,dstLen,dst) ← cloneEncryption keyBytes buff4 src (CInt.toSize bytes1)
  if err < 0 then
    freePages buff3 buff4
    return .error err
  else
    let bytes2 ← fileWriteFrom fWrite currWriteSize dst (CInt.toInt dstLen)
    freePages buff3 buff4
    return .ok (bytes1,bytes2)

/-- The loop over the chunks, `none` at its end and `some err` when a chunk ends the function.
It makes at most `rounds` rounds; `fsize` of them are always enough. -/
def encryptLoop (fRead fWrite : File) (key : Ptr) : ℕ → ℤ → ℤ → ℤ → KProg (Option ℤ)
  | 0, _, _, _ => return none
  | rounds+1, fsize, currReadSize, currWriteSize => do
    if fsize > 0 then
      let buff3 ← kcall (.kmalloc PAGE_SIZE)
      let buff4 ← kcall (.kmalloc PAGE_SIZE)
      let (tempSize,fsize) := nextChunk fsize
      match ← encryptRound fRead fWrite key buff3 buff4 tempSize currReadSize currWriteSize with
      | .error err =>
        kcall (.kfree key)
        return some err
      | .ok (bytes1,bytes2) =>
        encryptLoop fRead fWrite key rounds fsize (CInt.toInt (currReadSize + bytes1))
          (CInt.toInt (currWriteSize + bytes2))
    else return none

/-- The loop as it is entered with a file of `fsize` bytes. -/
def encryptFile (fRead fWrite : File) (key : Ptr) (fsize : ℤ) : KProg (Option ℤ) :=
  encryptLoop fRead fWrite key fsize.toNat fsize 0 0

/-- The three checked allocations of path buffers, in order. -/
def pathBuffers : ℕ → KProg Bool
  | 0 => return true
  | n+1 => do
    match ← kcall (.kmalloc PATH_MAX) with
    | none => return false
    | some _ => pathBuffers n

/-- The next `n` allocations succeed. -/
def Faults.Grants (f : Faults) (n : ℕ) : Prop := ∀ i < n, f.allocs.getD i false = false

instance (f : Faults) (n : ℕ) : Decidable (f.Grants n) := inferInstanceAs (Decidable (∀ i < n, _))

def Faults.dropAllocs (f : Faults) (n : ℕ) : Faults := { f with allocs := f.allocs.drop n }

theorem pathBuffers_runs (P : Platform) (n : ℕ) (t : Task) (fs : Fs) :
    ∃ b t', Runs P (pathBuffers n) (t,fs) [] (some b) (t',fs) ∧ (b = true ↔ t.faults.Grants n) ∧
      (b = true → t'.faults = t.faults.dropAllocs n) ∧ (b = true → Becomes t n t') ∧ t'.addrLimit = t.addrLimit := by
  induction n generalizing t with
  | zero =>
    exact ⟨true,t,Does.pure _ _,iff_of_true rfl (fun i hi => absurd hi (Nat.not_lt_zero i)),fun _ => rfl,
      fun _ => Becomes.refl t,rfl⟩
  | succ n ih =>
    obtain ⟨r,t₁,hcall,ha⟩ := kmalloc_spec P PATH_MAX t fs
    have hbec := kmalloc_becomes P t fs PATH_MAX
    rw [hcall] at hbec
    have hzero : t.faults.allocs.headD false = t.faults.allocs.getD 0 false := headD_of_drop List.drop_zero.symm false
    have hrest : ∀ i, t₁.faults.allocs.getD i false = t.faults.allocs.getD (i+1) false := fun i => by
      rw [ha.faults]
      simp only [Faults.popAlloc, List.getD_eq_getElem?_getD, List.getElem?_tail]
    rcases r with _ | b
    · refine ⟨false,t₁,?_,iff_of_false Bool.false_ne_true (fun h => ?_),
        fun h => absurd h Bool.false_ne_true,fun h => absurd h Bool.false_ne_true,ha.addrLimit⟩
      · exact (Does.call hcall).bind (Does.pure _ _)
      · have hbad := hzero.symm.trans (ha.fails.mp rfl)
        rw [h 0 (Nat.succ_pos n)] at hbad
        cases hbad
    · obtain ⟨b',t₂,hruns,hiff,hfaults,hbec₂,hlimit⟩ := ih t₁
      refine ⟨b',t₂,(Does.call hcall).bind hruns,hiff.trans ⟨fun h i hi => ?_,fun h i hi => ?_⟩,fun hb => ?_,
        fun hb => ?_,hlimit.trans ha.addrLimit⟩
      · rcases i with _ | i
        · rw [← hzero]
          exact Bool.eq_false_iff.mpr (fun hbad => absurd (ha.fails.mpr hbad) (Option.some_ne_none b))
        · exact (hrest i).symm.trans (h i (Nat.lt_of_succ_lt_succ hi))
      · exact (hrest i).trans (h (i+1) (Nat.succ_lt_succ hi))
      · rw [hfaults hb, ha.faults]
        simp only [Faults.dropAllocs, Faults.popAlloc, ← List.drop_one, List.drop_drop, Nat.add_comm]
      · have hboth := hbec.trans (hbec₂ hb)
        rwa [Nat.add_comm] at hboth

/-- The suffixes of the trash entries. -/
def encSuffix : Path := ['.','e','n','c']
def cmpSuffix : Path := ['.','c','m','p']

/-- The part of `processencryption` behind the open of the `.enc` entry. -/
def encryptAndUnlink (fRead fWrite : File) (key : Ptr) (trashbinfolderFilename : Buf) (fsize : ℤ) : KProg ℤ := do
  let keyBytes ← kcall (.readString key)
  let _keyStore ← kcall (.kmalloc (8 * keyBytes.length))
  let _keyErr ← kcall (.vfsSetxattr fWrite keyBytes)
  match ← encryptFile fRead fWrite key fsize with
  | some err => return err
  | none =>
    fileClose fRead
    let err ← kcall (.vfsUnlink fRead)
    fileClose fWrite
    kcall (.kfree (some trashbinfolderFilename.addr))
    kcall (.kfree key)
    return err

def processencryption (P : Platform) (fname : Path) (key : Ptr) : KProg ℤ := do
  match ← fileOpen fname false with
  | .error _ => return -EPERM
  | .ok fRead =>
    if ← pathBuffers 3 then
      let getTime ← kcall .doGettimeofday
      match ← kcall (.kmalloc PATH_MAX) with
      | none => die
      | some trashbinfolderFilename =>
        let path ← dPath P fRead (some PATH_MAX)
        let name := trashName P (staleTail trashbinfolderFilename.bytes) getTime path encSuffix
        let fsize := CInt.toInt (← kcall (.iSizeRead fRead))
        match ← fileOpen name true with
        | .error e => return -e
        | .ok fWrite => encryptAndUnlink fRead fWrite key trashbinfolderFilename fsize
    else return -ENOMEM

/-! ## What the loop stores -/

/-- The stored form of one chunk. -/
def encryptChunk (P : Platform) (key x : List Byte) : List Byte :=
  BlockCipher.encryptBytes (P.aes key) P.aesIv (BlockCipher.pad 16 x)

theorem length_encryptChunk (P : Platform) (key x : List Byte) :
    (encryptChunk P key x).length = x.length + BlockCipher.padLength 16 x.length := by
  rw [encryptChunk, BlockCipher.length_encryptBytes (by omega), BlockCipher.length_pad]
  rw [BlockCipher.length_pad]
  exact BlockCipher.dvd_add_padLength (by omega) _

/-- Reads, writes and the cipher succeed in full from here on, with a buffer for each of them. -/
structure FullIO (t : Task) : Prop where
  allocs : ∀ b ∈ t.faults.allocs, b = false
  reads : t.faults.reads = []
  writes : t.faults.writes = []
  setkeys : t.faults.setkeys = []
  encrypts : t.faults.encrypts = []

/-- The key the cipher works with: after a failed `setkey` it still is the empty one. -/
def keyInUse (setkey : Fault) (key : List Byte) : List Byte := if setkey.code < 0 then [] else key

/-- What the cipher is given of a chunk: a failed read leaves it a length of zero after the padding. -/
def paddedChunk (r : ℤ) (x : List Byte) : List Byte := if 0 ≤ r then BlockCipher.pad 16 x else []

theorem length_paddedChunk {r : ℤ} {x : List Byte} (hx : x.length = r.toNat) :
    (paddedChunk r x).length = if 0 ≤ r then r.toNat + BlockCipher.padLength 16 r.toNat else 0 := by
  unfold paddedChunk
  split
  · rw [BlockCipher.length_pad, hx]
  · rfl

theorem dvd_length_paddedChunk (r : ℤ) (x : List Byte) : 16 ∣ (paddedChunk r x).length := by
  unfold paddedChunk
  split
  · rw [BlockCipher.length_pad]
    exact BlockCipher.dvd_add_padLength (by decide) _
  · simp

theorem paddedChunk_eq_nil_iff {r : ℤ} {x : List Byte} : paddedChunk r x = [] ↔ r < 0 := by
  unfold paddedChunk
  split
  · next h =>
    refine iff_of_false (fun hnil => ?_) (by omega)
    have hlen := congrArg List.length hnil
    have hp := BlockCipher.padLength_pos (n := 16) (by decide) x.length
    rw [BlockCipher.length_pad, List.length_nil] at hlen
    omega
  · next h => exact iff_of_true rfl (by omega)

theorem take_filled {buff : Option Buf} {x : List Byte} (h : buff = none → x = []) : (filled buff x).take x.length = x := by
  cases buff with
  | some b => exact Bytes.take_overlay_zero 0 b.bytes x
  | none => simp [filled, h rfl]

theorem length_le_filled {buff : Option Buf} {x : List Byte} (h : buff = none → x = []) : x.length ≤ (filled buff x).length := by
  cases buff with
  | some b => exact Bytes.length_le_overlay_zero 0 b.bytes x
  | none => simp [h rfl]

section Runs
variable (P : Platform) {t : Task} {fs : Fs}

theorem toSize_negative {r : ℤ} (hr : r < 0) (hr' : -16 ≤ r) :
    CInt.toSize ((CInt.toSize r : ℤ) + ((16 - CInt.toSize r % 16 : ℕ) : ℤ)) = 0 := by
  unfold CInt.toSize
  omega

variable (fs) in
/-- All of `clone_encryption` behind the allocation of the cipher; only the store of its output can be fatal. -/
theorem cloneEncryption_stores (hc : t.faults.ciphers.headD none = none) (key : List Byte) {dst : Option Buf}
    {buf x z : List Byte} {r : ℤ} (hbuf : r ≤ buf.length) (hr : -16 ≤ r) (hr' : r ≤ 4080) (hx : buf.take r.toNat = x)
    (hz : cipherOutput P (t.faults.encrypts.headD none) (keyInUse (t.faults.setkeys.headD none) key)
      (paddedChunk r x) = z) {stored : Option (Option (List Byte))} {s : Kernel}
    (hstore : Runs P (storeOutput dst z) (((t.spend .popCipher).spend .popSetkey).spend .popEncrypt,fs) [] stored s) :
    Runs P (cloneEncryption key dst buf (CInt.toSize r)) (t,fs)
      [.setkey (t.faults.setkeys.headD none).code,
        .encrypt (keyInUse (t.faults.setkeys.headD none) key) (paddedChunk r x) (t.faults.encrypts.headD none).code]
      (stored.map (fun d => (0,(paddedChunk r x).length,d))) s := by
  have hgo : ¬ Fault.code none < 0 := by decide
  have hxlen : x.length = r.toNat := by rw [← hx, List.length_take_of_le (by omega)]
  have hsize : CInt.toSize ((CInt.toSize r : ℤ) + ((16 - CInt.toSize r % 16 : ℕ) : ℤ)) = (paddedChunk r x).length := by
    rw [length_paddedChunk hxlen]
    split
    · unfold BlockCipher.padLength CInt.toSize
      omega
    · exact toSize_negative (by omega) hr
  have hsrc : (buf.take (CInt.toSize r) ++ List.replicate (16 - CInt.toSize r % 16)
      (UInt8.ofNat (16 - CInt.toSize r % 16))).take (paddedChunk r x).length = paddedChunk r x := by
    by_cases hneg : 0 ≤ r
    · have hnat : CInt.toSize r = r.toNat := by
        unfold CInt.toSize
        omega
      rw [paddedChunk, if_pos hneg, hnat, hx, BlockCipher.pad, hxlen]
      exact List.take_of_length_le le_rfl
    · rw [paddedChunk, if_neg hneg]
      exact List.take_zero
  have hnb : CInt.toUInt (paddedChunk r x).length = (paddedChunk r x).length := by
    have hp := BlockCipher.padLength_le 16 r.toNat
    have hle : (paddedChunk r x).length ≤ 4096 := by
      rw [length_paddedChunk hxlen]
      split <;> omega
    unfold CInt.toUInt
    omega
  have henc := encrypt_runs P (t := (t.spend .popCipher).spend .popSetkey) fs
    (keyInUse (t.faults.setkeys.headD none) key) hnb hsrc rfl
  have hcipher : Kernel.handle P .cryptoAllocBlkcipher (t,fs) = (some (Fault.code none),t.spend .popCipher,fs) := by
    rw [handle_cryptoAllocBlkcipher, hc]
  have hkeyed := handle_cryptoBlkcipherSetkey P (t.spend .popCipher) fs key
  rw [cloneEncryption]
  refine (Does.call hcipher).bind ?_
  rw [if_neg hgo, hsize]
  rw [← hz] at hstore
  cases stored with
  | some d => exact (Does.call hkeyed).bind (henc.bind (hstore.bind (Does.pure _ _)))
  | none => exact (Does.call hkeyed).bind (henc.bind hstore.bind_dead)

variable (fs) in
/-- A read error beyond the block size makes the cipher run off its input. -/
theorem cloneEncryption_dies (hc : t.faults.ciphers.headD none = none) (key : List Byte) (dst : Option Buf)
    {buf : List Byte} {r : ℤ} (hbuf : buf.length ≤ 8192) (hr : r < -16) (hr' : -4096 ≤ r) :
    ∃ s, Runs P (cloneEncryption key dst buf (CInt.toSize r)) (t,fs)
      [.setkey (t.faults.setkeys.headD none).code] none s := by
  have hgo : ¬ Fault.code none < 0 := by decide
  have hcipher : Kernel.handle P .cryptoAllocBlkcipher (t,fs) = (some (Fault.code none),t.spend .popCipher,fs) := by
    rw [handle_cryptoAllocBlkcipher, hc]
  have hlarge : 8192 + 16 < CInt.toUInt (CInt.toSize ((CInt.toSize r : ℤ) + ((16 - CInt.toSize r % 16 : ℕ) : ℤ))) := by
    unfold CInt.toUInt CInt.toSize
    omega
  have hshort : (buf.take (CInt.toSize r) ++ List.replicate (16 - CInt.toSize r % 16)
      (UInt8.ofNat (16 - CInt.toSize r % 16))).length <
        CInt.toUInt (CInt.toSize ((CInt.toSize r : ℤ) + ((16 - CInt.toSize r % 16 : ℕ) : ℤ))) := by
    rw [List.length_append, List.length_take, List.length_replicate]
    omega
  refine ⟨(((t.spend .popCipher).spend .popSetkey).spend .popEncrypt,fs),?_⟩
  rw [cloneEncryption]
  refine (Does.call hcipher).bind ?_
  rw [if_neg hgo]
  exact (Does.call (handle_cryptoBlkcipherSetkey P _ fs key)).bind
    (encrypt_dies P fs _ hshort).bind_dead

variable (fs) in
theorem cloneEncryption_fails {e : ℕ} (hc : t.faults.ciphers.headD none = some e) (key : List Byte) (dst : Option Buf)
    (buf : List Byte) (n : ℕ) :
    Runs P (cloneEncryption key dst buf n) (t,fs) [] (some (Int.negSucc e,0,none)) (t.spend .popCipher,fs) := by
  have hcipher : Kernel.handle P .cryptoAllocBlkcipher (t,fs) = (some (Fault.code (some e)),t.spend .popCipher,fs) := by
    rw [handle_cryptoAllocBlkcipher, hc]
  rw [cloneEncryption]
  refine (Does.call hcipher).bind ?_
  have hfail : Fault.code (some e) < 0 := Int.negSucc_lt_zero e
  rw [if_pos hfail]
  exact Does.pure _ _

theorem freePages_runs (buff3 buff4 : Option Buf) :
    Runs P (freePages buff3 buff4) (t,fs) [] (some ())
      ((t.freed (buff3.map Buf.addr)).freed (buff4.map Buf.addr),fs) :=
  (Does.call (handle_kfree P t fs _)).bind (Does.call (handle_kfree P _ fs _))

/-- A chunk of what is left is full, or it is all that is left. -/
theorem nextChunk_natCast (rest : ℕ) :
    nextChunk rest = (((min 4080 rest : ℕ) : ℤ),((rest - min 4080 rest : ℕ) : ℤ)) := by
  by_cases h : (rest : ℤ) > PAGE_SIZE - 16
  · rw [nextChunk, if_pos h]
    simp only [PAGE_SIZE] at *
    rw [min_eq_left (by omega)]
    ext <;> omega
  · rw [nextChunk, if_neg h]
    simp only [PAGE_SIZE] at h
    rw [min_eq_right (by omega), Nat.sub_self]
    rfl

variable {fRead fWrite : File} {past : List (List Byte)} {c old out : List Byte} {key : Ptr} {K : List Byte}
  {m n : ℕ}

/-- The task after a chunk that came to its write. -/
def Task.afterChunk (t : Task) (buff3 buff4 : Option Buf) : Task :=
  ((((((t.spend .popRead).spend .popCipher).spend .popSetkey).spend .popEncrypt).spend .popWrite).freed
    (buff3.map Buf.addr)).freed (buff4.map Buf.addr)

/-- The observations of one chunk up to the cipher, in order. -/
def cipherLog (fRead : File) (K : List Byte) (f : Faults) (pos r : ℤ) (len : ℕ) (x : List Byte) : List Event :=
  [.read fRead pos len r x,.setkey (f.setkeys.headD none).code,
    .encrypt (keyInUse (f.setkeys.headD none) K) (paddedChunk r x) (f.encrypts.headD none).code]

/-- The observations of one chunk. -/
def chunkLog (fRead fWrite : File) (K : List Byte) (f : Faults) (pos wpos r w : ℤ) (len : ℕ) (x : List Byte) :
    List Event :=
  [.read fRead pos len r x,.setkey (f.setkeys.headD none).code,
    .encrypt (keyInUse (f.setkeys.headD none) K) (paddedChunk r x) (f.encrypts.headD none).code,
    .write fWrite wpos (paddedChunk r x).length w]

section Round
variable (buff3 buff4 : Option Buf) {pos wpos r w : ℤ} {len : ℕ} {x z : List Byte}

/-- What a read has put where it was asked to. -/
theorem length_readInto (hr : readCountInto buff3.isNone (t.faults.reads.headD .full) (fs.content fRead).length pos len = r)
    (hx : ((fs.content fRead).drop pos.toNat).take r.toNat = x) : x.length = r.toNat ∧ (buff3 = none → x = []) := by
  have hrest := readCountInto_le_rest buff3.isNone (t.faults.reads.headD .full) (fs.content fRead).length pos len
  rw [hr] at hrest
  have hlen : x.length = r.toNat := by
    rw [← hx, List.length_take_of_le]
    rw [List.length_drop]
    omega
  refine ⟨hlen,fun hnone => ?_⟩
  have hle := readCountInto_missing (t.faults.reads.headD .full) (fs.content fRead).length pos len
  rw [hnone, Option.isNone_none] at hr
  rw [hr] at hle
  exact List.length_eq_zero_iff.mp (by omega)

variable (fWrite) in
/-- One chunk, whatever its transfers and the cipher return. -/
theorem encryptRound_runs (hkey : t.keyIs key K) (hc : t.faults.ciphers.headD none = none)
    (h₄ : ∀ b, buff4 = some b → b.bytes.length = PAGE_SIZE) (hlen : len ≤ 4080)
    (hpos : -2147483648 ≤ pos ∧ pos < 2147483648) (hwpos : -2147483648 ≤ wpos ∧ wpos < 2147483648)
    (hr : readCountInto buff3.isNone (t.faults.reads.headD .full) (fs.content fRead).length pos len = r)
    (hx : ((fs.content fRead).drop pos.toNat).take r.toNat = x) (hlow : -16 ≤ r)
    (hw : writeCountFrom buff4.isNone (t.faults.writes.headD .full) wpos (paddedChunk r x).length = w)
    (hz : cipherOutput P (t.faults.encrypts.headD none) (keyInUse (t.faults.setkeys.headD none) K)
      (paddedChunk r x) = z) (hstore : buff4 = none → z = []) :
    ∃ fs', Runs P (encryptRound fRead fWrite key buff3 buff4 len pos wpos) (t,fs)
        (chunkLog fRead fWrite K t.faults pos wpos r w len x) (some (.ok (r,w))) (t.afterChunk buff3 buff4,fs') ∧
      fs' = Function.update fs fWrite.path ((fs fWrite.path).write fWrite.inode wpos.toNat
        ((filled buff4 z).take w.toNat)) := by
  have hle := readCountInto_le buff3.isNone (t.faults.reads.headD .full) (fs.content fRead).length pos len
  rw [hr] at hle
  obtain ⟨hxlen,hmissing⟩ := length_readInto buff3 hr hx
  have hpad := BlockCipher.padLength_le 16 r.toNat
  have hplen : (paddedChunk r x).length ≤ 4096 := by
    rw [length_paddedChunk hxlen]
    split <;> omega
  have hbuf := take_filled hmissing
  have hfit := length_le_filled hmissing
  rw [hxlen] at hbuf hfit
  have hread := fileReadInto_runs P fRead t fs buff3 hpos.1 hpos.2 len hr
  rw [hx] at hread
  have hcover : r ≤ (filled buff3 x).length := by omega
  have henc := cloneEncryption_stores P (t := t.spend .popRead) fs hc K hcover hlow (by omega) hbuf hz
    (storeOutput_runs P hstore _)
  have hfits : ∀ bytes, buff4.map (fun b => Bytes.overlay 0 b.bytes 0 z) = some bytes →
      (paddedChunk r x).length ≤ bytes.length := by
    rintro bytes hbytes
    obtain ⟨b,hb,rfl⟩ := Option.map_eq_some_iff.mp hbytes
    have hold := Bytes.length_old_le_overlay_zero 0 b.bytes z
    rw [h₄ b hb] at hold
    exact hplen.trans hold
  rw [← Option.isNone_map (f := fun b => Bytes.overlay 0 b.bytes 0 z)] at hw
  have hwrite := fileWriteFrom_runs P fWrite ((((t.spend .popRead).spend .popCipher).spend .popSetkey).spend .popEncrypt)
    fs hwpos.1 hwpos.2 hfits hw
  have hdst : CInt.toInt ((paddedChunk r x).length : ℤ) = (paddedChunk r x).length := CInt.toInt_natCast (by omega)
  have hstr := handle_readString P (t := t.spend .popRead) fs hkey
  have hcontents : (buff4.map (fun b => Bytes.overlay 0 b.bytes 0 z)).getD [] = filled buff4 z := by
    cases buff4 <;> rfl
  rw [hcontents] at hwrite
  refine ⟨_,?_,rfl⟩
  rw [encryptRound]
  refine hread.bind ((Does.call hstr).bind (henc.bind ?_))
  simp only [Int.lt_irrefl, ↓reduceIte, hdst]
  exact hwrite.bind ((freePages_runs P _ _).bind (Does.pure _ _))

variable (fWrite wpos) in
theorem encryptRound_dies (hkey : t.keyIs key K) (hc : t.faults.ciphers.headD none = none)
    (h₃ : ∀ b, buff3 = some b → b.bytes.length = PAGE_SIZE) (hpos : -2147483648 ≤ pos ∧ pos < 2147483648)
    (hr : readCountInto buff3.isNone (t.faults.reads.headD .full) (fs.content fRead).length pos len = r)
    (hx : ((fs.content fRead).drop pos.toNat).take r.toNat = x) (hlow : r < -16) (hlegal : -4096 ≤ r) :
    ∃ s, Runs P (encryptRound fRead fWrite key buff3 buff4 len pos wpos) (t,fs)
      [.read fRead pos len r x,.setkey (t.faults.setkeys.headD none).code] none s := by
  have hread := fileReadInto_runs P fRead t fs buff3 hpos.1 hpos.2 len hr
  rw [hx] at hread
  have hnil : x = [] := by
    rw [← hx, Int.toNat_of_nonpos (by omega)]
    exact List.take_zero
  have hbuf : (filled buff3 x).length ≤ 8192 := by
    rw [hnil]
    cases buff3 with
    | none => exact Nat.zero_le _
    | some b => simp [filled, Bytes.overlay_nil, h₃ b rfl, PAGE_SIZE]
  obtain ⟨s,henc⟩ := cloneEncryption_dies P (t := t.spend .popRead) fs hc K buff4 hbuf hlow hlegal
  have hstr := handle_readString P (t := t.spend .popRead) fs hkey
  refine ⟨s,?_⟩
  rw [encryptRound]
  exact hread.bind ((Does.call hstr).bind henc.bind_dead)

variable (fWrite wpos) in
/-- Without a page for it, the first byte that the cipher hands out is fatal. -/
theorem encryptRound_drops (hkey : t.keyIs key K) (hc : t.faults.ciphers.headD none = none) (hlen : len ≤ 4080)
    (hpos : -2147483648 ≤ pos ∧ pos < 2147483648)
    (hr : readCountInto buff3.isNone (t.faults.reads.headD .full) (fs.content fRead).length pos len = r)
    (hx : ((fs.content fRead).drop pos.toNat).take r.toNat = x) (hlow : -16 ≤ r)
    (hz : cipherOutput P (t.faults.encrypts.headD none) (keyInUse (t.faults.setkeys.headD none) K)
      (paddedChunk r x) ≠ []) :
    ∃ s, Runs P (encryptRound fRead fWrite key buff3 none len pos wpos) (t,fs) (cipherLog fRead K t.faults pos r len x)
      none s := by
  have hle := readCountInto_le buff3.isNone (t.faults.reads.headD .full) (fs.content fRead).length pos len
  rw [hr] at hle
  obtain ⟨hxlen,hmissing⟩ := length_readInto buff3 hr hx
  have hbuf := take_filled hmissing
  have hfit := length_le_filled hmissing
  rw [hxlen] at hbuf hfit
  have hread := fileReadInto_runs P fRead t fs buff3 hpos.1 hpos.2 len hr
  rw [hx] at hread
  have henc := cloneEncryption_stores P (t := t.spend .popRead) fs hc K (by omega) hlow (by omega) hbuf rfl
    (storeOutput_dies P hz _)
  have hstr := handle_readString P (t := t.spend .popRead) fs hkey
  refine ⟨((((t.spend .popRead).spend .popCipher).spend .popSetkey).spend .popEncrypt,fs),?_⟩
  rw [encryptRound]
  exact hread.bind ((Does.call hstr).bind henc.bind_dead)

variable (fs fRead fWrite pos wpos len) in
theorem encryptRound_fails (hkey : t.keyIs key K) {e : ℕ} (hc : t.faults.ciphers.headD none = some e)
    (hpos : -2147483648 ≤ pos ∧ pos < 2147483648)
    (hr : readCountInto buff3.isNone (t.faults.reads.headD .full) (fs.content fRead).length pos len = r)
    (hx : ((fs.content fRead).drop pos.toNat).take r.toNat = x) :
    Runs P (encryptRound fRead fWrite key buff3 buff4 len pos wpos) (t,fs) [.read fRead pos len r x]
      (some (.error (Int.negSucc e)))
      ((((t.spend .popRead).spend .popCipher).freed (buff3.map Buf.addr)).freed (buff4.map Buf.addr),fs) := by
  have hread := fileReadInto_runs P fRead t fs buff3 hpos.1 hpos.2 len hr
  rw [hx] at hread
  have hstr := handle_readString P (t := t.spend .popRead) fs hkey
  have henc := cloneEncryption_fails P (t := t.spend .popRead) fs hc K buff4 (filled buff3 x) (CInt.toSize r)
  rw [encryptRound]
  refine hread.bind ((Does.call hstr).bind (henc.bind ?_))
  simp only [if_pos (Int.negSucc_lt_zero e)]
  exact (freePages_runs P _ _).bind (Does.pure _ _)

end Round

/-! ## The loop under any faults of its transfers -/

/-- What one round uses up. -/
def Faults.popChunk (f : Faults) : Faults :=
  f.popAlloc.popAlloc.popRead.popCipher.popSetkey.popEncrypt.popWrite

theorem afterChunk_faults (b₃ b₄ : Option Buf) :
    (t.afterChunk b₃ b₄).faults = t.faults.popRead.popCipher.popSetkey.popEncrypt.popWrite := by
  simp only [Task.afterChunk, Task.freed_faults, Task.spend_faults]

theorem Buffers.afterChunk {a₃ a₄ : ℕ} {t₁ t₂ : Task} (h : Buffers P t fs a₃ a₄ t₁ t₂) :
    Becomes t 2 (t₂.afterChunk (t.page 0 a₃) (t.page 1 a₄)) := by
  apply h.release
  · simp only [Task.afterChunk, Task.freed_garbage, Task.spend_garbage]
  · simp only [Task.afterChunk, Task.freed_stack, Task.spend_stack]
  · simp only [Task.afterChunk, Task.freed_cwd, Task.spend_cwd]
  · simp only [Task.afterChunk, Task.freed_now, Task.spend_now]
  · simp only [Task.afterChunk, Task.freed_heap, Task.spend_heap]

section Step
variable {a₃ a₄ : ℕ} {t₁ t₂ : Task} {s s' : Kernel} {pos wpos r w : ℤ} {rest rounds : ℕ} {es es' : List Event}
  {a : Option (Option ℤ)}

theorem encryptLoop_done (rounds : ℕ) (pos wpos : ℤ) (s : Kernel) :
    Runs P (encryptLoop fRead fWrite key rounds (0 : ℕ) pos wpos) s [] (some none) s := by
  cases rounds with
  | zero => exact Does.pure _ _
  | succ rounds =>
    rw [encryptLoop, if_neg (by decide)]
    exact Does.pure _ _

/-- A round that stores its chunk is followed by the rest of the loop. -/
theorem encryptLoop_next (hB : Buffers P t fs a₃ a₄ t₁ t₂) (hrest : 0 < rest)
    (hround : Runs P (encryptRound fRead fWrite key (t.page 0 a₃) (t.page 1 a₄) (min 4080 rest : ℕ)
      pos wpos) (t₂,fs) es (some (.ok (r,w))) s)
    (hgo : Runs P (encryptLoop fRead fWrite key rounds (rest - min 4080 rest : ℕ) (CInt.toInt (pos + r))
      (CInt.toInt (wpos + w))) s es' a s') :
    Runs P (encryptLoop fRead fWrite key (rounds+1) rest pos wpos) (t,fs) (es ++ es') a s' := by
  have hpos : (rest : ℤ) > 0 := by omega
  rw [encryptLoop, if_pos hpos, nextChunk_natCast]
  exact (Does.call hB.first).bind ((Does.call hB.second).bind (hround.bind hgo))

theorem encryptLoop_dies (hB : Buffers P t fs a₃ a₄ t₁ t₂) (hrest : 0 < rest)
    (hround : Runs P (encryptRound fRead fWrite key (t.page 0 a₃) (t.page 1 a₄) (min 4080 rest : ℕ)
      pos wpos) (t₂,fs) es none s) :
    Runs P (encryptLoop fRead fWrite key (rounds+1) rest pos wpos) (t,fs) es none s := by
  have hpos : (rest : ℤ) > 0 := by omega
  rw [encryptLoop, if_pos hpos, nextChunk_natCast]
  exact (Does.call hB.first).bind ((Does.call hB.second).bind hround.bind_dead)

variable (rounds) in
theorem encryptLoop_error (hB : Buffers P t fs a₃ a₄ t₁ t₂) (hrest : 0 < rest) {err : ℤ}
    (hround : Runs P (encryptRound fRead fWrite key (t.page 0 a₃) (t.page 1 a₄) (min 4080 rest : ℕ)
      pos wpos) (t₂,fs) es (some (.error err)) s) :
    Runs P (encryptLoop fRead fWrite key (rounds+1) rest pos wpos) (t,fs) es (some (some err)) (s.1.freed key,s.2) := by
  have hpos : (rest : ℤ) > 0 := by omega
  rw [encryptLoop, if_pos hpos, nextChunk_natCast]
  rw [← List.append_nil es]
  exact (Does.call hB.first).bind ((Does.call hB.second).bind (hround.bind
    ((Does.call (handle_kfree P s.1 s.2 key)).bind (Does.pure _ _))))

end Step

/-- The page for what the cipher hands out is missing when it is needed. -/
def Faults.Pageless (f : Faults) (r : ℤ) : Prop :=
  f.allocs.getD 1 false = true ∧ f.encrypts.headD none = none ∧ 0 ≤ r

instance (f : Faults) (r : ℤ) : Decidable (f.Pageless r) := inferInstanceAs (Decidable (_ ∧ _ ∧ _))

/-- The observations of the loop, from what the calls in it will return. -/
def encryptLog (fRead fWrite : File) (c K : List Byte) : ℕ → Faults → ℕ → ℤ → ℤ → List Event
  | 0, _, _, _, _ => []
  | rounds+1, f, rest, pos, wpos =>
    if rest = 0 then [] else
      let len := min 4080 rest
      let r := readCountInto (f.allocs.getD 0 false) (f.reads.headD .full) c.length pos len
      let x := (c.drop pos.toNat).take r.toNat
      if f.ciphers.headD none ≠ none then [.read fRead pos len r x]
      else if r < -16 then [.read fRead pos len r x,.setkey (f.setkeys.headD none).code]
      else if f.Pageless r then cipherLog fRead K f pos r len x
      else
        let w := writeCountFrom (f.allocs.getD 1 false) (f.writes.headD .full) wpos (paddedChunk r x).length
        chunkLog fRead fWrite K f pos wpos r w len x ++
          encryptLog fRead fWrite c K rounds f.popChunk (rest - len) (CInt.toInt (pos + r)) (CInt.toInt (wpos + w))

/-- The loop does not come to its end: it lacks a cipher, a page for what the cipher hands out, or a read returns an
error on which the cipher does not survive. -/
def Interrupted (size : ℕ) : ℕ → Faults → ℕ → ℤ → Prop
  | 0, _, _, _ => False
  | rounds+1, f, rest, pos =>
    rest ≠ 0 ∧
      let r := readCountInto (f.allocs.getD 0 false) (f.reads.headD .full) size pos (min 4080 rest)
      (f.ciphers.headD none ≠ none ∨ r < -16 ∨ f.Pageless r ∨
        Interrupted size rounds f.popChunk (rest - min 4080 rest) (CInt.toInt (pos + r)))

instance Interrupted.decidable (size : ℕ) : ∀ rounds f rest pos, Decidable (Interrupted size rounds f rest pos)
  | 0, _, _, _ => inferInstanceAs (Decidable False)
  | rounds+1, f, rest, pos =>
    have := Interrupted.decidable size rounds f.popChunk (rest - min 4080 rest) (CInt.toInt (pos +
      readCountInto (f.allocs.getD 0 false) (f.reads.headD .full) size pos (min 4080 rest)))
    inferInstanceAs (Decidable (_ ∧ (_ ∨ _ ∨ _ ∨ _)))

/-- Errors of reads are within the error codes of the kernel. -/
def LegalReads (reads : List Outcome) : Prop := ∀ o ∈ reads, ∀ e, o = .fail e → e < 4095

theorem LegalReads.tail {reads : List Outcome} (h : LegalReads reads) : LegalReads reads.tail :=
  fun o ho => h o (List.mem_of_mem_tail ho)

theorem LegalReads.readCount {reads : List Outcome} (h : LegalReads reads) (missing : Bool) (size : ℕ) (pos : ℤ)
    (len : ℕ) : -4096 ≤ readCountInto missing (reads.headD .full) size pos len := by
  have hcodes : ∀ e, reads.headD .full = .fail e → e < 4095 := by
    intro e he
    cases reads with
    | nil => cases he
    | cons o reads => exact h o List.mem_cons_self e he
  unfold readCountInto XClone.readCount
  cases ho : reads.headD .full with
  | fail e =>
    have := hcodes e ho
    simp only [Outcome.countNull, Outcome.count, einval]
    split <;> split <;> omega
  | full =>
    simp only [Outcome.countNull, Outcome.count, einval, efault]
    split <;> split <;> (try split) <;> omega
  | short n =>
    simp only [Outcome.countNull, Outcome.count, einval, efault]
    split <;> split <;> (try split) <;> omega

/-- The loop under any faults: what is seen of it, and whether it comes to its end. -/
theorem encryptLoop_log (rounds rest : ℕ) (pos wpos : ℤ) (hc : fs.content fRead = c) (hap : fRead.path ≠ fWrite.path)
    (hkey : t.keyIs key K) (hlegal : LegalReads t.faults.reads) (hpos : -2147483648 ≤ pos ∧ pos < 2147483648)
    (hwpos : -2147483648 ≤ wpos ∧ wpos < 2147483648) :
    ∃ a s, Runs P (encryptLoop fRead fWrite key rounds rest pos wpos) (t,fs)
      (encryptLog fRead fWrite c K rounds t.faults rest pos wpos) a s ∧
      (a = some none ↔ ¬ Interrupted c.length rounds t.faults rest pos) ∧
      (a = some none → s.2 fRead.path = fs fRead.path ∧ s.1.faults.unlinks = t.faults.unlinks) := by
  induction rounds generalizing t fs rest pos wpos with
  | zero => exact ⟨_,_,Does.pure _ _,iff_of_true rfl id,fun _ => ⟨rfl,rfl⟩⟩
  | succ rounds ih =>
    by_cases hrest : rest = 0
    · subst hrest
      rw [encryptLog, if_pos rfl]
      exact ⟨_,_,encryptLoop_done P _ _ _ _,iff_of_true rfl (fun h => h.1 rfl),fun _ => ⟨rfl,rfl⟩⟩
    have hgo : 0 < rest := by omega
    obtain ⟨r,hr⟩ : ∃ r, readCountInto (t.faults.allocs.getD 0 false) (t.faults.reads.headD .full) c.length pos
      (min 4080 rest) = r := ⟨_,rfl⟩
    obtain ⟨x,hx⟩ : ∃ x, (c.drop pos.toNat).take r.toNat = x := ⟨_,rfl⟩
    have hlow := hlegal.readCount (t.faults.allocs.getD 0 false) c.length pos (min 4080 rest)
    rw [hr] at hlow
    have hlen : min 4080 rest ≤ 4080 := min_le_left _ _
    obtain ⟨a₃,a₄,t₁,t₂,hB⟩ := buffers_exist P t fs
    have hreads : t₂.faults.reads = t.faults.reads := by rw [hB.faults]; rfl
    have hwrites : t₂.faults.writes = t.faults.writes := by rw [hB.faults]; rfl
    have hsetkeys : t₂.faults.setkeys = t.faults.setkeys := by rw [hB.faults]; rfl
    have hencrypts : t₂.faults.encrypts = t.faults.encrypts := by rw [hB.faults]; rfl
    have hciphers : t₂.faults.ciphers = t.faults.ciphers := by rw [hB.faults]; rfl
    have hkey₂ := hB.becomes.keyIs hkey
    have hr₂ : readCountInto (t.page 0 a₃).isNone (t₂.faults.reads.headD .full) (fs.content fRead).length pos
        (min 4080 rest) = r := by
      rw [Task.isNone_page, hreads, hc]
      exact hr
    have hx₂ : ((fs.content fRead).drop pos.toNat).take r.toNat = x := by
      rw [hc]
      exact hx
    rw [encryptLog, if_neg hrest]
    simp only [hr, hx, Interrupted]
    rcases hcipher : t.faults.ciphers.headD none with _ | e
    · have hcipher₂ : t₂.faults.ciphers.headD none = none := by rw [hciphers, hcipher]
      rw [if_neg (fun h => h rfl)]
      by_cases hdies : r < -16
      · obtain ⟨s,hround⟩ := encryptRound_dies P fWrite (t.page 0 a₃) (t.page 1 a₄) wpos hkey₂ hcipher₂
          (fun b hb => Task.length_page hb) hpos hr₂ hx₂ hdies hlow
        rw [if_pos hdies]
        rw [hsetkeys] at hround
        exact ⟨_,s,encryptLoop_dies P hB hgo hround,iff_of_false nofun
          (fun h => h ⟨hrest,.inr (.inl hdies)⟩),nofun⟩
      rw [if_neg hdies]
      have hsixteen : -16 ≤ r := Int.not_lt.mp hdies
      have hnil := cipherOutput_eq_nil_iff P (keyInUse (t₂.faults.setkeys.headD none) K) (t₂.faults.encrypts.headD none)
        (dvd_length_paddedChunk r x)
      rw [paddedChunk_eq_nil_iff, hencrypts] at hnil
      have hmissing : t.page 1 a₄ = none ↔ t.faults.allocs.getD 1 false = true := by
        rw [← Option.isNone_iff_eq_none, Task.isNone_page]
      by_cases hpage : t.faults.Pageless r
      · have hout := hnil.not.mpr (not_or.mpr ⟨not_not_intro hpage.2.1,Int.not_lt.mpr hpage.2.2⟩)
        rw [← hencrypts] at hout
        obtain ⟨s,hround⟩ := encryptRound_drops P fWrite (t.page 0 a₃) wpos hkey₂ hcipher₂ hlen hpos hr₂ hx₂ hsixteen hout
        rw [← hmissing.mpr hpage.1] at hround
        rw [if_pos hpage]
        rw [cipherLog, hsetkeys, hencrypts] at hround
        exact ⟨_,s,encryptLoop_dies P hB hgo hround,iff_of_false nofun
          (fun h => h ⟨hrest,.inr (.inr (.inl hpage))⟩),nofun⟩
      · obtain ⟨w,hw⟩ : ∃ w, writeCountFrom (t.faults.allocs.getD 1 false) (t.faults.writes.headD .full) wpos
          (paddedChunk r x).length = w := ⟨_,rfl⟩
        have hw₂ : writeCountFrom (t.page 1 a₄).isNone (t₂.faults.writes.headD .full) wpos (paddedChunk r x).length = w := by
          rw [Task.isNone_page, hwrites]
          exact hw
        have hstore : t.page 1 a₄ = none → cipherOutput P (t₂.faults.encrypts.headD none)
            (keyInUse (t₂.faults.setkeys.headD none) K) (paddedChunk r x) = [] := by
          intro hnone
          rw [hencrypts, hnil]
          by_contra hno
          obtain ⟨hfail,hneg⟩ := not_or.mp hno
          exact hpage ⟨hmissing.mp hnone,not_not.mp hfail,Int.not_lt.mp hneg⟩
        obtain ⟨fs',hround,hfs⟩ := encryptRound_runs P fWrite (t.page 0 a₃) (t.page 1 a₄) hkey₂ hcipher₂
          (fun b hb => Task.length_page hb) hlen hpos hwpos hr₂ hx₂ hsixteen hw₂ rfl hstore
        have hbec := hB.afterChunk P
        have hfaults : (t₂.afterChunk (t.page 0 a₃) (t.page 1 a₄)).faults = t.faults.popChunk := by
          rw [afterChunk_faults, hB.faults]
          rfl
        have hsource : fs'.content fRead = c := by rw [hfs, Fs.content_update_of_ne hap, hc]
        obtain ⟨a,s,hloop,hend,hkeeps⟩ := ih (rest - min 4080 rest) (CInt.toInt (pos + r)) (CInt.toInt (wpos + w))
          hsource (hbec.keyIs hkey) (by rw [hfaults]; exact hlegal.tail) (CInt.toInt_bounds _) (CInt.toInt_bounds _)
        rw [hfaults] at hloop hend hkeeps
        rw [chunkLog, hsetkeys, hencrypts] at hround
        rw [if_neg hpage]
        simp only [hw]
        refine ⟨a,s,encryptLoop_next P hB hgo hround hloop,hend.trans (not_congr ?_),fun ha => ?_⟩
        rotate_left
        · obtain ⟨hslot,hunlinks⟩ := hkeeps ha
          exact ⟨by rw [hslot, hfs, Function.update_of_ne hap],hunlinks⟩
        constructor
        · exact fun h => ⟨hrest,.inr (.inr (.inr h))⟩
        · rintro ⟨-,h | h | h | h⟩
          · exact absurd rfl h
          · exact absurd h hdies
          · exact absurd h hpage
          · exact h
    · have hround := encryptRound_fails P fs fRead fWrite (t.page 0 a₃) (t.page 1 a₄) pos wpos
        (min 4080 rest) hkey₂ (hciphers ▸ hcipher) hpos hr₂ hx₂
      rw [if_pos nofun]
      exact ⟨_,_,encryptLoop_error P rounds hB hgo hround,iff_of_false nofun
        (fun h => h ⟨hrest,.inl nofun⟩),nofun⟩

/-! ## The loop with full transfers -/

theorem FullIO.popChunk {t' : Task} (hio : FullIO t) (h : t'.faults = t.faults.popChunk) : FullIO t' := by
  constructor
  all_goals rw [h]
  · exact fun b hb => hio.allocs b (List.mem_of_mem_tail (List.mem_of_mem_tail hb))
  · exact congrArg List.tail hio.reads
  · exact congrArg List.tail hio.writes
  · exact congrArg List.tail hio.setkeys
  · exact congrArg List.tail hio.encrypts

/-- Where no allocation is refused, none is. -/
theorem granted_of_all {allocs : List Bool} (h : ∀ b ∈ allocs, b = false) (i : ℕ) : allocs.getD i false = false := by
  rw [List.getD_eq_getElem?_getD]
  cases hi : allocs[i]? with
  | none => rfl
  | some b => exact h b (List.mem_of_getElem? hi)

/-- A chunk that is there is read, encrypted and stored in full behind what was written; `old` is what the entry held before. -/
theorem encryptRound_stores (buff3 buff4 : Buf) (hT : Transfer fRead fWrite past c (Bytes.overlay 0 old 0 out) fs) (hio : FullIO t) (hkey : t.keyIs key K)
    (hc : t.faults.ciphers.headD none = none) (h₄ : buff4.bytes.length = PAGE_SIZE)
    {x : List Byte} (hn : n ≤ 4080) (hmb : m < 2147483648) (hx : (c.drop m).take n = x) (hlen : x.length = n)
    (hob : out.length < 2147483648) :
    Runs P (encryptRound fRead fWrite key (some buff3) (some buff4) n m out.length) (t,fs)
      (chunkLog fRead fWrite K t.faults m out.length n (encryptChunk P K x).length n x)
      (some (.ok ((n : ℤ),((encryptChunk P K x).length : ℤ))))
      (t.afterChunk (some buff3) (some buff4),
        Function.update fs fWrite.path ⟨past,some (Bytes.overlay 0 old 0 (out ++ encryptChunk P K x))⟩) := by
  have hsize : n ≤ c.length - m := by
    rw [← hlen, ← hx, List.length_take, List.length_drop]
    exact min_le_right _ _
  have hr : readCountInto (some buff3).isNone (t.faults.reads.headD .full) (fs.content fRead).length m n = n := by
    rw [Option.isNone_some, readCountInto_false, hio.reads, hT.source, readCount, if_neg (by omega : ¬ (m : ℤ) < 0)]
    simp only [List.headD_nil, Outcome.count, Int.toNat_natCast, min_eq_left hsize]
  have hpad : paddedChunk (n : ℤ) x = BlockCipher.pad 16 x := if_pos (by omega)
  have hz : cipherOutput P (t.faults.encrypts.headD none) (keyInUse (t.faults.setkeys.headD none) K)
      (paddedChunk n x) = encryptChunk P K x := by
    rw [hio.encrypts, hio.setkeys, hpad]
    rfl
  have hplen : (paddedChunk (n : ℤ) x).length = (encryptChunk P K x).length := by
    rw [hpad, BlockCipher.length_pad, length_encryptChunk]
  have hw : writeCountFrom (some buff4).isNone (t.faults.writes.headD .full) (out.length : ℤ) (paddedChunk n x).length =
      ((encryptChunk P K x).length : ℤ) := by
    rw [Option.isNone_some, writeCountFrom_false, hio.writes, writeCount, if_neg (by omega : ¬ (out.length : ℤ) < 0), hplen]
    rfl
  have hpage : ∀ b, some buff4 = some b → b.bytes.length = PAGE_SIZE := by
    rintro b ⟨rfl⟩
    exact h₄
  obtain ⟨fs',hround,hfs⟩ := encryptRound_runs P fWrite (some buff3) (some buff4) (r := n) (x := x) hkey hc hpage hn
    ⟨by omega,by omega⟩ ⟨by omega,by omega⟩ hr (by rw [hT.source]; exact hx) (by omega) hw hz
    (fun hnone => absurd hnone (Option.some_ne_none _))
  rw [filled, Option.elim_some] at hfs
  rw [hfs, Int.toNat_natCast, Int.toNat_natCast, Bytes.take_overlay_zero, hT.target, hT.inode, Slot.write_linked,
    Bytes.overlay_overlay] at hround
  exact hround

/-- One round: the next chunk is stored behind what is there, or the loop does not come to its end. -/
theorem encryptLoop_round (hT : Transfer fRead fWrite past c (Bytes.overlay 0 old 0 out) fs) (hio : FullIO t) (hkey : t.keyIs key K)
    (hm : m < c.length) (hmb : c.length < 2147483648) (hob : out.length < 2147483648) {x : List Byte}
    (hx : x = (c.drop m).take 4080) (rounds : ℕ) :
    (∃ t', (encryptLoop fRead fWrite key (rounds+1) (c.length - m : ℕ) m out.length).run (Kernel.handle P) (t,fs) =
        (encryptLoop fRead fWrite key rounds (c.length - (m + x.length) : ℕ) ((m + x.length : ℕ) : ℤ)
          (CInt.toInt (out ++ encryptChunk P K x).length)).run (Kernel.handle P)
            (t',Function.update fs fWrite.path ⟨past,some (Bytes.overlay 0 old 0 (out ++ encryptChunk P K x))⟩) ∧
      t'.faults = t.faults.popChunk ∧ Becomes t 2 t') ∨
    (((encryptLoop fRead fWrite key (rounds+1) (c.length - m : ℕ) m out.length).run (Kernel.handle P) (t,fs)).1 ≠
        some none ∧ t.faults.ciphers ≠ []) := by
  have hlenx : x.length = min 4080 (c.length - m) := by rw [hx, List.length_take, List.length_drop]
  have htake : (c.drop m).take x.length = x := by rw [hlenx, ← List.length_drop, ← List.take_eq_take_min, hx]
  have hrest : 0 < c.length - m := by omega
  have hfull : x.length ≤ 4080 := by omega
  have hin : m + x.length ≤ c.length := by omega
  have hsub : c.length - m - x.length = c.length - (m + x.length) := by omega
  have hplen := length_encryptChunk P K x
  have hple := BlockCipher.padLength_le 16 x.length
  have hread : CInt.toInt ((m : ℤ) + x.length) = ((m + x.length : ℕ) : ℤ) := by
    rw [CInt.toInt_eq (by omega) (by omega)]
    rfl
  have hwrite : ((out ++ encryptChunk P K x).length : ℤ) = (out.length : ℤ) + (encryptChunk P K x).length := by
    rw [List.length_append]
    rfl
  obtain ⟨a₃,a₄,t₁,t₂,hB⟩ := buffers_exist P t fs
  have h₃ := Task.page_some (granted_of_all hio.allocs 0) a₃
  have h₄ := Task.page_some (granted_of_all hio.allocs 1) a₄
  have hciphers : t₂.faults.ciphers = t.faults.ciphers := by rw [hB.faults]; rfl
  have hio₂ : FullIO t₂ := by
    constructor
    all_goals rw [hB.faults]
    · exact fun b hb => hio.allocs b (List.mem_of_mem_tail (List.mem_of_mem_tail hb))
    · exact hio.reads
    · exact hio.writes
    · exact hio.setkeys
    · exact hio.encrypts
  have hkey₂ := hB.becomes.keyIs hkey
  rcases hc : t₂.faults.ciphers.headD none with _ | e
  · left
    have hround := encryptRound_stores P (m := m) ⟨a₃,t.found 0 4096⟩ ⟨a₄,t.found 1 4096⟩
      hT hio₂ hkey₂ hc (length_found t 1 4096) hfull (by omega) htake rfl (by omega)
    rw [← h₃, ← h₄] at hround
    refine ⟨t₂.afterChunk (t.page 0 a₃) (t.page 1 a₄),?_,?_,hB.afterChunk P⟩
    · rw [hlenx] at hround
      have hstep := encryptLoop_next P hB hrest hround (Does.of_run_log (encryptLoop fRead fWrite key rounds _ _ _) _)
      rw [← hlenx, hsub, hread, ← hwrite] at hstep
      exact hstep.run
    · rw [afterChunk_faults, hB.faults]
      rfl
  · right
    have hround := encryptRound_fails P fs fRead fWrite (t.page 0 a₃) (t.page 1 a₄) m out.length
      (min 4080 (c.length - m)) hkey₂ hc ⟨by omega,by omega⟩ rfl rfl
    refine ⟨?_,fun h => ?_⟩
    · rw [(encryptLoop_error P rounds hB hrest hround).run]
      intro h
      cases h
    · rw [hciphers, h] at hc
      cases hc

/-- The whole loop stores the encrypted form of every chunk that is left, and it comes to its end unless a cipher cannot be
allocated. The write position may leave the range of an `int` behind the last chunk. -/
theorem encryptLoop_run (rounds : ℕ) (hT : Transfer fRead fWrite past c (Bytes.overlay 0 old 0 out) fs) (hio : FullIO t)
    (hkey : t.keyIs key K) (hc : c.length ≤ 2139095040) (hm : m ≤ c.length) {pos : ℤ}
    (hsync : m = c.length ∨ pos = out.length ∧ 4080 * out.length = 4096 * m) (hr : c.length - m ≤ rounds) {xs : List (List Byte)}
    (hxs : Bytes.chunks 4080 (c.drop m) = xs) :
    let e := (encryptLoop fRead fWrite key rounds (c.length - m : ℕ) m pos).run (Kernel.handle P) (t,fs)
    (e.1 = some none →
      e.2.2 = Function.update fs fWrite.path ⟨past,some (Bytes.overlay 0 old 0 (out ++ xs.flatMap (encryptChunk P K)))⟩ ∧
      e.2.1.faults = Faults.popChunk^[xs.length] t.faults ∧ Becomes t (2 * xs.length) e.2.1) ∧
    (t.faults.ciphers = [] → e.1 = some none) := by
  have hsame : fs = Function.update fs fWrite.path ⟨past,some (Bytes.overlay 0 old 0 out)⟩ := by
    rw [← hT.target, Function.update_eq_self]
  induction rounds generalizing t fs m pos out xs with
  | zero =>
    have hnil : c.drop m = [] := List.drop_of_length_le (by omega)
    rw [hnil, Bytes.chunks_nil] at hxs
    rw [← hxs, List.flatMap_nil, List.append_nil]
    exact ⟨fun _ => ⟨hsame,rfl,Becomes.refl t⟩,fun _ => rfl⟩
  | succ rounds ih =>
    rcases Nat.eq_or_lt_of_le hm with hend | hlt
    · have hdone : ¬ ((c.length - m : ℕ) : ℤ) > 0 := by omega
      have hnil : c.drop m = [] := List.drop_of_length_le (by omega)
      rw [hnil, Bytes.chunks_nil] at hxs
      rw [encryptLoop, if_neg hdone, ← hxs, List.flatMap_nil, List.append_nil]
      exact ⟨fun _ => ⟨hsame,rfl,Becomes.refl t⟩,fun _ => rfl⟩
    · obtain ⟨rfl,hsync⟩ := hsync.resolve_left (by omega)
      obtain ⟨x,hx⟩ : ∃ x, x = (c.drop m).take 4080 := ⟨_,rfl⟩
      have hlen : x.length = min 4080 (c.length - m) := by rw [hx, List.length_take, List.length_drop]
      have hle : m + x.length ≤ c.length := by omega
      have hleft : c.length - (m + x.length) ≤ rounds := by omega
      have hne : c.drop m ≠ [] := by
        intro hnil
        have := congrArg List.length hnil
        rw [List.length_drop, List.length_nil] at this
        omega
      have hdrop : (c.drop m).drop 4080 = c.drop (m + x.length) := by
        rw [List.drop_drop, hlen]
        by_cases hfull : 4080 ≤ c.length - m
        · rw [min_eq_left hfull]
        · rw [List.drop_of_length_le (by omega), List.drop_of_length_le (by omega)]
      have hchunks : Bytes.chunks 4080 (c.drop m) = x :: Bytes.chunks 4080 (c.drop (m + x.length)) := by
        rw [Bytes.chunks_of_ne_nil (by omega) hne, hdrop, hx]
      rcases encryptLoop_round P hT hio hkey hlt (by omega) (by omega) hx rounds with ⟨t',hrun,hf,hb⟩ | ⟨hout,hno⟩
      · have hnext : m + x.length = c.length ∨
            CInt.toInt (out ++ encryptChunk P K x).length = ((out ++ encryptChunk P K x).length : ℤ) ∧
              4080 * (out ++ encryptChunk P K x).length = 4096 * (m + x.length) := by
          by_cases hend : m + x.length = c.length
          · exact .inl hend
          · right
            have hfull : x.length = 4080 := by omega
            have hpad : BlockCipher.padLength 16 4080 = 16 := rfl
            have hout : (out ++ encryptChunk P K x).length = out.length + 4096 := by
              rw [List.length_append, length_encryptChunk, hfull, hpad]
            rw [hout, hfull]
            exact ⟨CInt.toInt_eq (by omega) (by omega),by omega⟩
        obtain ⟨hstored,hends⟩ := ih (hT.store (Bytes.overlay 0 old 0 (out ++ encryptChunk P K x))) (hio.popChunk hf) (hb.keyIs hkey) hle hnext
          hleft rfl (by rw [Function.update_idem])
        rw [hrun, ← hxs, hchunks]
        refine ⟨fun h => ?_,fun hciphers => hends ?_⟩
        · obtain ⟨hfs,hfaults,hbec⟩ := hstored h
          refine ⟨?_,?_,?_⟩
          · rw [hfs, Function.update_idem, List.flatMap_cons, List.append_assoc]
          · rw [hfaults, hf, List.length_cons, Function.iterate_succ_apply]
          · have htwo : 2 * (x :: Bytes.chunks 4080 (c.drop (m + x.length))).length =
                2 + 2 * (Bytes.chunks 4080 (c.drop (m + x.length))).length := by
              rw [List.length_cons]
              ring
            rw [htwo]
            exact hb.trans hbec
        · rw [hf]
          exact congrArg List.tail hciphers
      · exact ⟨fun h => absurd h hout,fun h => absurd h hno⟩

end Runs

/-! ## The stored file determines the original -/

theorem encryptChunk_injective (P : Platform) (key : List Byte) : Function.Injective (encryptChunk P key) :=
  BlockCipher.encryptBytes_pad_injective (by omega) (by omega) (P.aes key) P.aesIv

theorem encryptedChunks_injective (P : Platform) (key : List Byte) {c₁ c₂ : List Byte}
    (h : (Bytes.chunks 4080 c₁).flatMap (encryptChunk P key) = (Bytes.chunks 4080 c₂).flatMap (encryptChunk P key)) :
    c₁ = c₂ := by
  apply Bytes.flatMap_chunks_injective (n := 4080) (N := 4096) (by omega) (encryptChunk_injective P key) _ _ _ h
  · intro x hx
    rw [length_encryptChunk, hx]
    rfl
  · intro x hx
    have hp := BlockCipher.padLength_le 16 x.length
    rw [length_encryptChunk]
    omega
  · intro x _ hnil
    have hp := BlockCipher.padLength_pos (n := 16) (by omega) x.length
    have hlen := congrArg List.length hnil
    rw [length_encryptChunk, List.length_nil] at hlen
    omega

section Whole
variable {P : Platform} {key : Ptr} {K c : List Byte} {fRead fWrite : File} {past : List (List Byte)}
  {t : Task} {fs : Fs}

/-- The loop from its first round on. -/
theorem encryptFile_run {old : List Byte} (hT : Transfer fRead fWrite past c old fs) (hio : FullIO t) (hkey : t.keyIs key K)
    (hc : c.length ≤ 2139095040) :
    let e := (encryptFile fRead fWrite key (CInt.toInt c.length)).run (Kernel.handle P) (t,fs)
    (e.1 = some none →
      e.2.2 = Function.update fs fWrite.path ⟨past,some (Bytes.overlay 0 old 0 ((Bytes.chunks 4080 c).flatMap (encryptChunk P K)))⟩ ∧
      e.2.1.faults = Faults.popChunk^[(Bytes.chunks 4080 c).length] t.faults ∧
      Becomes t (2 * (Bytes.chunks 4080 c).length) e.2.1) ∧
    (t.faults.ciphers = [] → e.1 = some none) := by
  have hsize : CInt.toInt c.length = (c.length : ℤ) := CInt.toInt_eq (by omega) (by omega)
  have hstart : Transfer fRead fWrite past c (Bytes.overlay 0 old 0 []) fs := hT
  have hrun := encryptLoop_run P c.length hstart hio hkey hc (Nat.zero_le _) (.inr ⟨rfl,rfl⟩) (by omega) rfl
  rw [Nat.sub_zero, List.drop_zero, List.nil_append] at hrun
  rw [encryptFile, hsize, Int.toNat_natCast]
  exact hrun

theorem encryptFile_spec (hT : Transfer fRead fWrite past c [] fs) (hio : FullIO t) (hkey : t.keyIs key K)
    (hc : c.length < 1073741824) :
    let e := (encryptFile fRead fWrite key (CInt.toInt c.length)).run (Kernel.handle P) (t,fs)
    (e.1 = some none → e.2.2.entry fWrite.path = some ((Bytes.chunks 4080 c).flatMap (encryptChunk P K))) ∧
    (t.faults.ciphers = [] → e.1 = some none) := by
  have hrun := encryptFile_run (P := P) hT hio hkey (by omega)
  refine ⟨fun he => ?_,hrun.2⟩
  have hfs := (hrun.1 he).1
  rw [Bytes.overlay_start] at hfs
  exact Fs.entry_of_eq hfs

end Whole

/-- Two files that leave the same bytes in their empty `.enc` entries, under the same key and with
every transfer in full, are the same file. -/
theorem encryptFile_injective (P : Platform) {key₁ key₂ : Ptr} {K c₁ c₂ : List Byte} {r₁ w₁ r₂ w₂ : File}
    {past₁ past₂ : List (List Byte)} {t₁ t₂ : Task} {fs₁ fs₂ : Fs}
    (hT₁ : Transfer r₁ w₁ past₁ c₁ [] fs₁) (hT₂ : Transfer r₂ w₂ past₂ c₂ [] fs₂) (hio₁ : FullIO t₁) (hio₂ : FullIO t₂)
    (hkey₁ : t₁.keyIs key₁ K) (hkey₂ : t₂.keyIs key₂ K) (hc₁ : c₁.length < 1073741824) (hc₂ : c₂.length < 1073741824)
    (hend₁ : ((encryptFile r₁ w₁ key₁ (CInt.toInt c₁.length)).run (Kernel.handle P) (t₁,fs₁)).1 = some none)
    (hend₂ : ((encryptFile r₂ w₂ key₂ (CInt.toInt c₂.length)).run (Kernel.handle P) (t₂,fs₂)).1 = some none)
    (hsame : ((encryptFile r₁ w₁ key₁ (CInt.toInt c₁.length)).run (Kernel.handle P) (t₁,fs₁)).2.2.entry w₁.path =
      ((encryptFile r₂ w₂ key₂ (CInt.toInt c₂.length)).run (Kernel.handle P) (t₂,fs₂)).2.2.entry w₂.path) :
    c₁ = c₂ := by
  have hstored₁ := (encryptFile_spec hT₁ hio₁ hkey₁ hc₁).1 hend₁
  have hstored₂ := (encryptFile_spec hT₂ hio₂ hkey₂ hc₂).1 hend₂
  rw [hstored₁, hstored₂] at hsame
  exact encryptedChunks_injective P K (Option.some.inj hsame)

/-- A task with a key in its first buffer. -/
def Task.withKey (t : Task) (bytes : List Byte) : Task := t.given bytes

/-- Two files of a full chunk and one more byte, which only this byte tells apart. -/
theorem encryptFile_separates :
    let t := (Task.fresh ['/'] 0 {}).withKey [107,0]
    let fs (c : List Byte) := Fs.ofList [(['/','a'],c),(['/','t'],[])]
    let stored (c : List Byte) := ((encryptFile ⟨['/','a'],0⟩ ⟨['/','t'],0⟩ (some 0) (CInt.toInt c.length)).run
      (Kernel.handle .bare) (t,fs c)).2.2.entry ['/','t']
    stored (List.replicate 4080 0 ++ [1]) ≠ stored (List.replicate 4080 0 ++ [2]) := by
  intro t fs stored h
  have hT : ∀ c, Transfer ⟨['/','a'],0⟩ ⟨['/','t'],0⟩ [] c [] (fs c) := fun c => ⟨rfl,rfl,rfl,by decide⟩
  have hio : FullIO t := ⟨nofun,rfl,rfl,rfl,rfl⟩
  have hkey : t.keyIs (some 0) [107] := rfl
  have hsize : ∀ b : Byte, (List.replicate 4080 0 ++ [b]).length < 1073741824 := by
    intro b
    rw [List.length_append, List.length_replicate, List.length_singleton]
    decide
  have hend : ∀ b : Byte, _ := fun b =>
    (encryptFile_spec (P := .bare) (hT (List.replicate 4080 0 ++ [b])) hio hkey (hsize b)).2 rfl
  have hsame := encryptFile_injective .bare (hT (List.replicate 4080 0 ++ [1])) (hT (List.replicate 4080 0 ++ [2]))
    hio hio hkey hkey (hsize 1) (hsize 2) (hend 1) (hend 2) h
  have hlast := (List.append_inj hsame rfl).2
  revert hlast
  decide

end XClone
