import XClone.Sync.Encryption

/-! # When an encryption is complete

The loop drops the results of `setkey`, of the cipher and of both transfers. So the original is
removed with an incomplete `.enc` entry as soon as one of them fails and the loop still ends.
-/
namespace XClone
open Effects Prog

/-! ## Schedules on which a loop does all its work -/

/-- Every call made for the next chunk, of `n` bytes, succeeds in full. -/
structure ChunkGranted (f : Faults) (n : ℕ) : Prop where
  buff3 : f.allocs.getD 0 false = false
  buff4 : f.allocs.getD 1 false = false
  read : (f.reads.headD .full).count n = n
  cipher : f.ciphers.headD none = none
  setkey : f.setkeys.headD none = none
  encrypt : f.encrypts.headD none = none
  write : (f.writes.headD .full).count (n + BlockCipher.padLength 16 n) = (n + BlockCipher.padLength 16 n : ℕ)

/-- The same for all chunks of a file. -/
def ChunksGranted : List (List Byte) → Faults → Prop
  | [], _ => True
  | x :: xs, f => ChunkGranted f x.length ∧ ChunksGranted xs f.popChunk

/-- A file was read in full, each chunk of it encrypted under the key and written in full. -/
structure StoredInFull (path trash : Path) (c key : List Byte) (log : List Event) : Prop where
  content : (chunksRead path log).flatten = c
  encrypted : chunksEncrypted log = (chunksRead path log).map (BlockCipher.pad 16)
  written : lengthsWritten trash log = (chunksEncrypted log).map (fun x => (x.length : ℤ))
  complete : ∀ e ∈ log, e.Complete key

theorem fault_code_nonneg {f : Fault} : 0 ≤ f.code ↔ f = none := by
  cases f with
  | none => exact iff_of_true le_rfl rfl
  | some e => exact iff_of_false (Int.negSucc_lt_zero e).not_ge nofun

theorem storedInFull_nil (path trash : Path) (key : List Byte) : StoredInFull path trash [] key [] :=
  ⟨rfl,rfl,rfl,by simp⟩

/-- A stored chunk in front. -/
theorem storedInFull_append {path trash : Path} {x d key : List Byte} {es : List Event} (hx : chunksRead path es = [x])
    (henc : chunksEncrypted es = [BlockCipher.pad 16 x])
    (hw : lengthsWritten trash es = [((BlockCipher.pad 16 x).length : ℤ)]) (hes : ∀ e ∈ es, e.Complete key)
    (es' : List Event) : StoredInFull path trash (x ++ d) key (es ++ es') ↔ StoredInFull path trash d key es' := by
  constructor
  · rintro ⟨hc,he,hl,hall⟩
    simp only [chunksRead_append, chunksEncrypted_append, lengthsWritten_append, hx, henc, hw, List.singleton_append,
      List.flatten_cons, List.append_cancel_left_eq, List.map_cons, List.cons.injEq, true_and] at hc he hl
    exact ⟨hc,he,hl,(List.forall_mem_append.mp hall).2⟩
  · rintro ⟨hc,he,hl,hall⟩
    constructor
    · simp [chunksRead_append, hx, hc]
    · simp [chunksRead_append, chunksEncrypted_append, hx, henc, he]
    · simp [chunksEncrypted_append, lengthsWritten_append, henc, hw, hl]
    · exact List.forall_mem_append.mpr ⟨hes,hall⟩

/-- Where the file is read from next. -/
theorem chunks_drop {c : List Byte} {m : ℕ} (hm : m < c.length) :
    Bytes.chunks 4080 (c.drop m) =
      (c.drop m).take (min 4080 (c.length - m)) :: Bytes.chunks 4080 (c.drop (m + min 4080 (c.length - m))) := by
  have hne : c.drop m ≠ [] := by
    intro hnil
    have hlen := congrArg List.length hnil
    simp only [List.length_drop, List.length_nil] at hlen
    omega
  rw [Bytes.chunks_of_ne_nil (by omega) hne, List.drop_drop, ← List.length_drop, ← List.take_eq_take_min]
  congr 2
  rw [List.length_drop]
  by_cases hfull : 4080 ≤ c.length - m
  · rw [min_eq_left hfull]
  · rw [List.drop_of_length_le (by omega), List.drop_of_length_le (by omega)]

section Log
variable {fRead fWrite : File} {c K : List Byte} {f : Faults}

theorem encryptLog_zero (rounds : ℕ) (f : Faults) (pos wpos : ℤ) :
    encryptLog fRead fWrite c K rounds f 0 pos wpos = [] := by
  cases rounds <;> simp [encryptLog]

theorem chunksRead_chunkLog (pos wpos r w : ℤ) (len : ℕ) (x : List Byte) :
    chunksRead fRead.path (chunkLog fRead fWrite K f pos wpos r w len x) = [x] := by
  simp [chunksRead, chunkLog]

theorem chunksEncrypted_chunkLog (pos wpos r w : ℤ) (len : ℕ) (x : List Byte) :
    chunksEncrypted (chunkLog fRead fWrite K f pos wpos r w len x) = [paddedChunk r x] := by
  simp [chunksEncrypted, chunkLog]

theorem lengthsWritten_chunkLog (pos wpos r w : ℤ) (len : ℕ) (x : List Byte) :
    lengthsWritten fWrite.path (chunkLog fRead fWrite K f pos wpos r w len x) = [((paddedChunk r x).length : ℤ)] := by
  simp [lengthsWritten, chunkLog]

variable (fRead fWrite c K) in
/-- No more is read than was asked for. -/
theorem length_chunksRead_encryptLog (rounds : ℕ) (f : Faults) (rest : ℕ) (pos wpos : ℤ) :
    (chunksRead fRead.path (encryptLog fRead fWrite c K rounds f rest pos wpos)).flatten.length ≤ rest := by
  induction rounds generalizing f rest pos wpos with
  | zero => exact Nat.zero_le _
  | succ rounds ih =>
    rw [encryptLog]
    split
    · exact Nat.zero_le _
    · obtain ⟨r,hr⟩ : ∃ r, readCountInto (f.allocs.getD 0 false) (f.reads.headD .full) c.length pos (min 4080 rest) = r :=
        ⟨_,rfl⟩
      have hle := readCountInto_le (f.allocs.getD 0 false) (f.reads.headD .full) c.length pos (min 4080 rest)
      have hx : ((c.drop pos.toNat).take r.toNat).length ≤ min 4080 rest := by
        simp only [List.length_take]
        omega
      have hmin : min 4080 rest ≤ rest := min_le_right _ _
      simp only [hr]
      split
      · simpa [chunksRead] using hx.trans hmin
      · split
        · simpa [chunksRead] using hx.trans hmin
        · split
          · simpa [chunksRead, cipherLog] using hx.trans hmin
          · rw [chunksRead_append, chunksRead_chunkLog, List.flatten_append, List.length_append, List.flatten_singleton]
            have hrest := ih f.popChunk (rest - min 4080 rest) (CInt.toInt (pos + r)) (CInt.toInt (wpos +
              writeCountFrom (f.allocs.getD 1 false) (f.writes.headD .full) wpos
                (paddedChunk r ((c.drop pos.toNat).take r.toNat)).length))
            omega

section Round
variable {rounds m rest : ℕ} {wpos : ℤ}

/-- What is read next when the offset is where it should be. -/
theorem readCount_rest (reads : List Outcome) (hrest : rest = c.length - m) (len : ℕ) (hlen : len ≤ rest) :
    readCount (reads.headD .full) c.length (m : ℤ) len = (reads.headD .full).count len := by
  rw [readCount, if_neg (by omega : ¬ (m : ℤ) < 0), Int.toNat_natCast, min_eq_left (by omega)]

variable (fRead fWrite K rounds) in
/-- A round that is granted everything stores its chunk. -/
theorem encryptLog_granted (hrest : rest = c.length - m) (hpos : 0 < rest) (hwpos : 0 ≤ wpos)
    (hf : ChunkGranted f (min 4080 rest)) :
    encryptLog fRead fWrite c K (rounds+1) f rest m wpos =
      chunkLog fRead fWrite K f m wpos (min 4080 rest : ℕ)
        (min 4080 rest + BlockCipher.padLength 16 (min 4080 rest) : ℕ) (min 4080 rest)
        ((c.drop m).take (min 4080 rest)) ++
      encryptLog fRead fWrite c K rounds f.popChunk (rest - min 4080 rest) (CInt.toInt (m + (min 4080 rest : ℕ)))
        (CInt.toInt (wpos + (min 4080 rest + BlockCipher.padLength 16 (min 4080 rest) : ℕ))) ∧
    (Interrupted c.length (rounds+1) f rest m ↔ Interrupted c.length rounds f.popChunk (rest - min 4080 rest)
      (CInt.toInt (m + (min 4080 rest : ℕ)))) := by
  have hcount := readCount_rest f.reads hrest (min 4080 rest) (min_le_right _ _)
  rw [hf.read] at hcount
  have hxlen : ((c.drop m).take (min 4080 rest)).length = min 4080 rest := by
    rw [List.length_take, List.length_drop]
    omega
  have hplen : (paddedChunk ((min 4080 rest : ℕ) : ℤ) ((c.drop m).take (min 4080 rest))).length =
      min 4080 rest + BlockCipher.padLength 16 (min 4080 rest) := by
    rw [length_paddedChunk (by rw [hxlen, Int.toNat_natCast]), if_pos (by omega), Int.toNat_natCast]
  have hw : writeCount (f.writes.headD .full) wpos (min 4080 rest + BlockCipher.padLength 16 (min 4080 rest)) =
      (min 4080 rest + BlockCipher.padLength 16 (min 4080 rest) : ℕ) := by
    rw [writeCount, if_neg (by omega), hf.write]
  have hlive : ¬ ((min 4080 rest : ℕ) : ℤ) < -16 := by omega
  have hpage : ¬ f.Pageless (min 4080 rest : ℕ) := by
    rw [Faults.Pageless, hf.buff4]
    simp
  constructor
  · rw [encryptLog, if_neg hpos.ne', if_neg (fun h => h hf.cipher), hf.buff3, hf.buff4]
    simp only [readCountInto_false, writeCountFrom_false, hcount, Int.toNat_natCast, hplen, hw, if_neg hlive, if_neg hpage]
  · simp only [Interrupted, hf.buff3, readCountInto_false, hcount, hf.cipher, hpage]
    simp [hpos.ne']

/-- A round that stores its chunk was granted everything. -/
theorem chunkGranted_of_complete (hrest : rest = c.length - m) (hpos : 0 < rest)
    (hend : ¬ Interrupted c.length (rounds+1) f rest m)
    (hall : ∀ e ∈ encryptLog fRead fWrite c K (rounds+1) f rest m wpos, e.Complete K) :
    ChunkGranted f (min 4080 rest) ∧ 0 ≤ wpos := by
  have hcount := readCount_rest f.reads hrest (min 4080 rest) (min_le_right _ _)
  simp only [Interrupted, not_and, not_or] at hend
  obtain ⟨hcipher,hlive,hpage,-⟩ := hend hpos.ne'
  rw [encryptLog, if_neg hpos.ne', if_neg hcipher] at hall
  simp only [if_neg hlive, if_neg hpage, chunkLog, List.cons_append, List.nil_append, List.forall_mem_cons] at hall
  obtain ⟨hread,hsetkey,⟨-,hencrypt⟩,hwrite,-⟩ := hall
  have hread : readCountInto (f.allocs.getD 0 false) (f.reads.headD .full) c.length m (min 4080 rest) =
    (min 4080 rest : ℕ) := hread
  -- both transfers moved bytes, so there was a page for each
  have h₃ : f.allocs.getD 0 false = false := by
    by_contra htrue
    have hle := readCountInto_missing (f.reads.headD .full) c.length m (min 4080 rest)
    rw [← (Bool.not_eq_false _).mp htrue, hread] at hle
    omega
  rw [h₃, readCountInto_false, hcount] at hread
  have h₄ : f.allocs.getD 1 false = false := by
    by_contra htrue
    refine hpage ⟨(Bool.not_eq_false _).mp htrue,fault_code_nonneg.mp hencrypt,?_⟩
    rw [h₃, readCountInto_false, hcount, hread]
    omega
  rw [h₃, h₄, readCountInto_false, writeCountFrom_false, hcount, hread] at hwrite
  have hxlen : ((c.drop m).take (min 4080 rest)).length = min 4080 rest := by
    rw [List.length_take, List.length_drop]
    omega
  have hplen : (paddedChunk ((min 4080 rest : ℕ) : ℤ) ((c.drop m).take (min 4080 rest))).length =
      min 4080 rest + BlockCipher.padLength 16 (min 4080 rest) := by
    rw [length_paddedChunk (by rw [hxlen, Int.toNat_natCast]), if_pos (by omega), Int.toNat_natCast]
  simp only [Int.toNat_natCast, hplen, Event.Complete] at hwrite
  have hwpos : ¬ wpos < 0 := by
    intro hneg
    rw [writeCount, if_pos hneg, einval] at hwrite
    omega
  rw [writeCount, if_neg hwpos] at hwrite
  exact ⟨⟨h₃,h₄,hread,not_not.mp hcipher,
    fault_code_nonneg.mp hsetkey,fault_code_nonneg.mp hencrypt,hwrite⟩,Int.not_lt.mp hwpos⟩

variable (fRead fWrite K) in
theorem ChunkGranted.complete {n : ℕ} (hf : ChunkGranted f n) (pos wpos : ℤ) {x : List Byte} (hx : x.length = n) :
    ∀ e ∈ chunkLog fRead fWrite K f pos wpos n (n + BlockCipher.padLength 16 n : ℕ) n x, e.Complete K := by
  have hplen : (paddedChunk (n : ℤ) x).length = n + BlockCipher.padLength 16 n := by
    rw [length_paddedChunk (by rw [hx, Int.toNat_natCast]), if_pos (by omega), Int.toNat_natCast]
  have hgo : ¬ Fault.code none < 0 := by decide
  simp only [chunkLog, hf.setkey, hf.encrypt, keyInUse, if_neg hgo, hplen]
  simp [Event.Complete, Fault.code]

end Round

variable (fRead fWrite K f) in
/-- From a chunk boundary on, the loop stores all that is left exactly when it is granted everything and
the write position stays below the largest `int`. -/
theorem encryptLog_stored_iff {rounds m k : ℕ} (hm : m ≤ c.length) (hc : c.length < 2147483648)
    (hsync : m = c.length ∨ m = 4080 * k) (hk : k ≤ 524288) (hr : c.length - m ≤ rounds) :
    (¬ Interrupted c.length rounds f (c.length - m : ℕ) m ∧
      StoredInFull fRead.path fWrite.path (c.drop m) K
        (encryptLog fRead fWrite c K rounds f (c.length - m) m (CInt.toInt (4096 * k : ℕ)))) ↔
    ChunksGranted (Bytes.chunks 4080 (c.drop m)) f ∧ (m = c.length ∨ c.length ≤ 2139095040) := by
  induction rounds generalizing f m k with
  | zero =>
    have hend : m = c.length := by omega
    subst hend
    simp [Interrupted, encryptLog, storedInFull_nil, ChunksGranted]
  | succ rounds ih =>
    rcases Nat.eq_or_lt_of_le hm with hend | hlt
    · subst hend
      simp [Interrupted, encryptLog, storedInFull_nil, ChunksGranted]
    have hboundary := hsync.resolve_left (by omega)
    obtain ⟨rest,hrest⟩ : ∃ rest, rest = c.length - m := ⟨_,rfl⟩
    have hpos : 0 < rest := by omega
    have hxlen : ((c.drop m).take (min 4080 rest)).length = min 4080 rest := by
      rw [List.length_take, List.length_drop]
      omega
    have hchunks := chunks_drop hlt
    rw [← hrest] at hchunks ⊢
    rw [hchunks, ChunksGranted, hxlen]
    by_cases hgranted : ChunkGranted f (min 4080 rest) ∧ k < 524288
    · obtain ⟨hf,hk'⟩ := hgranted
      have hwpos : CInt.toInt (4096 * k : ℕ) = (4096 * k : ℕ) := CInt.toInt_natCast (by omega)
      have hnonneg : 0 ≤ CInt.toInt (4096 * k : ℕ) := by omega
      obtain ⟨hlog,hint⟩ := encryptLog_granted fRead fWrite K rounds hrest hpos hnonneg hf
      have hwhole : (c.drop m).take (min 4080 rest) ++ c.drop (m + min 4080 rest) = c.drop m := by
        rw [← List.drop_drop, List.take_append_drop]
      have hchunk := hf.complete fRead fWrite K m (CInt.toInt (4096 * k : ℕ)) hxlen
      have hpadded : paddedChunk ((min 4080 rest : ℕ) : ℤ) ((c.drop m).take (min 4080 rest)) =
          BlockCipher.pad 16 ((c.drop m).take (min 4080 rest)) := if_pos (Int.natCast_nonneg _)
      have hstored := storedInFull_append (d := c.drop (m + min 4080 rest))
        (chunksRead_chunkLog _ _ _ _ _ _) ((chunksEncrypted_chunkLog _ _ _ _ _ _).trans (by rw [hpadded]))
        ((lengthsWritten_chunkLog _ _ _ _ _ _).trans (by rw [hpadded])) hchunk
      rw [hwhole] at hstored
      have hread : CInt.toInt ((m : ℤ) + (min 4080 rest : ℕ)) = ((m + min 4080 rest : ℕ) : ℤ) :=
        CInt.toInt_natCast (by omega)
      have hleft : rest - min 4080 rest = c.length - (m + min 4080 rest) := by omega
      rw [hlog, hint, hstored, hread, hleft]
      rcases Nat.lt_or_ge rest 4081 with hlast | hmore
      · have hend : m + min 4080 rest = c.length := by omega
        rw [hend, Nat.sub_self, encryptLog_zero]
        have hbound : c.length ≤ 2139095040 := by omega
        have hnone : ¬ Interrupted c.length rounds f.popChunk 0 c.length := by
          cases rounds <;> simp [Interrupted]
        simp [hnone, hf, hbound, storedInFull_nil, ChunksGranted]
      · have hfull : min 4080 rest = 4080 := by omega
        have hpad : BlockCipher.padLength 16 4080 = 16 := rfl
        have hwrite : CInt.toInt (CInt.toInt (4096 * k : ℕ) + (min 4080 rest + BlockCipher.padLength 16 (min 4080 rest) : ℕ)) =
            CInt.toInt (4096 * (k + 1) : ℕ) := by
          rw [CInt.toInt_add_toInt, hfull, hpad]
          congr 1
        have hnext := ih (f := f.popChunk) (m := m + min 4080 rest) (k := k + 1) (by omega) (.inr (by omega)) (by omega)
          (by omega)
        rw [hwrite, hnext]
        have hne : m + min 4080 rest ≠ c.length := by omega
        simp [hf, hne, hlt.ne]
    · refine iff_of_false ?_ ?_
      · rintro ⟨hend,hstored⟩
        obtain ⟨hf,hwpos⟩ := chunkGranted_of_complete hrest hpos hend hstored.complete
        refine hgranted ⟨hf,?_⟩
        by_contra hbig
        have htop : k = 524288 := by omega
        rw [htop] at hwpos
        exact absurd hwpos (by decide)
      · rintro ⟨⟨hf,-⟩,hbound⟩
        refine hgranted ⟨hf,?_⟩
        have := hbound.resolve_left hlt.ne
        omega

end Log

/-! ## `processencryption` as a whole -/

/-- The name of the trash entry of a request that starts in this state. -/
def encName (P : Platform) (t : Task) (fname : Path) : Path :=
  trashName P (staleTail (t.found 3 PATH_MAX)) t.now (resolve t.cwd fname) encSuffix

/-- The loop is reached. -/
structure EncryptionStarts (P : Platform) (t : Task) (fs : Fs) (fname : Path) : Prop where
  opens : t.faults.opens.getD 0 none = none
  buffers : t.faults.Grants 4
  creates : t.faults.opens.getD 1 none = none
  reaches : fs.reach P (resolve t.cwd (encName P t fname)) true ≠ none

/-- What the calls before the loop leave of the faults. -/
def Faults.atLoop (f : Faults) : Faults :=
  { f with allocs := f.allocs.drop 5, opens := f.opens.tail.tail, xattrs := f.xattrs.tail }

section Whole
variable (P : Platform) {t : Task} {fs : Fs} {fRead fWrite : File} {past pastWrite : List (List Byte)} {c o K : List Byte}
  {key : Ptr} {fname : Path}

theorem encryptFile_eq (size : ℤ) :
    encryptFile fRead fWrite key size = encryptLoop fRead fWrite key size.toNat (size.toNat : ℕ) 0 0 := by
  rw [encryptFile]
  rcases Int.le_total 0 size with h | h
  · rw [Int.toNat_of_nonneg h]
  · rw [Int.toNat_of_nonpos h]
    rfl

variable (fWrite key) in
/-- The end of the function. -/
theorem removeOriginal_runs (buf : Buf) (hslot : fs fRead.path = ⟨past,some c⟩) (hinode : fRead.inode = past.length) :
    ∃ s, Runs P (do
        fileClose fRead
        let err ← kcall (.vfsUnlink fRead)
        fileClose fWrite
        kcall (.kfree (some buf.addr))
        kcall (.kfree key)
        return err) (t,fs) [.unlink fRead (t.faults.unlinks.headD none).code]
      (some (t.faults.unlinks.headD none).code) s := by
  have hunlink := handle_vfsUnlink P (t := t.closing fRead) hslot hinode
  rw [Task.closing_faults] at hunlink
  exact ⟨_,(fileClose_runs P fRead t fs).bind ((Does.call hunlink).bind ((fileClose_runs P fWrite _ _).bind
    ((Does.call (handle_kfree P _ _ _)).bind ((Does.call (handle_kfree P _ _ _)).bind (Does.pure _ _)))))⟩

/-- The loop and the unlink behind it. -/
theorem encryptAndUnlink_log (buf : Buf) (hT : Transfer fRead fWrite pastWrite c o fs)
    (hslot : fs fRead.path = ⟨past,some c⟩) (hinode : fRead.inode = past.length) (hkey : t.keyIs key K)
    (hlegal : LegalReads t.faults.reads) {n : ℕ} (hn : (CInt.toInt c.length).toNat = n) {f : Faults}
    (hf : t.faults.popAlloc.popXattr = f) :
    ∃ a s, Runs P (encryptAndUnlink fRead fWrite key buf (CInt.toInt c.length)) (t,fs)
      (encryptLog fRead fWrite c K n f n 0 0 ++ if Interrupted c.length n f n 0 then []
        else [.unlink fRead (t.faults.unlinks.headD none).code]) a s ∧
      (¬ Interrupted c.length n f n 0 → a = some (t.faults.unlinks.headD none).code) := by
  obtain ⟨r,t₁,halloc,ha⟩ := kmalloc_spec P (8 * K.length) t fs
  have hbec := kmalloc_becomes P t fs (8 * K.length)
  rw [halloc] at hbec
  have hfaults : (t₁.spend .popXattr).faults = f := by rw [Task.spend_faults, ha.faults, hf]
  have hreads : (t₁.spend .popXattr).faults.reads = t.faults.reads := by rw [hfaults, ← hf]; rfl
  have hunlinks : (t₁.spend .popXattr).faults.unlinks = t.faults.unlinks := by rw [hfaults, ← hf]; rfl
  have hkey' : (t₁.spend .popXattr).keyIs key K := hbec.keyIs hkey
  obtain ⟨a,s,hloop,hend,hkeeps⟩ := encryptLoop_log P (t := t₁.spend .popXattr) n n 0 0 hT.source hT.apart hkey'
    (by rw [hreads]; exact hlegal) ⟨by omega,by omega⟩ ⟨by omega,by omega⟩
  rw [hfaults] at hloop hend hkeeps
  have hstart : ∀ {k : Option ℤ → KProg ℤ} {es b s'},
      Runs P (encryptFile fRead fWrite key (CInt.toInt c.length) >>= k) (t₁.spend .popXattr,fs) es b s' →
      Runs P (kcall (.readString key) >>= fun keyBytes => kcall (.kmalloc (8 * keyBytes.length)) >>= fun _ =>
        kcall (.vfsSetxattr fWrite keyBytes) >>= fun _ => encryptFile fRead fWrite key (CInt.toInt c.length) >>= k)
        (t,fs) es b s' := by
    intro k es b s' h
    exact (Does.call (handle_readString P fs hkey)).bind ((Does.call halloc).bind
      ((Does.call (handle_vfsSetxattr P t₁ fs fWrite K)).bind h))
  rw [encryptFile_eq, hn] at hstart
  rw [encryptAndUnlink, encryptFile_eq, hn]
  by_cases hint : Interrupted c.length n f n 0
  · rw [if_pos hint, List.append_nil]
    rcases a with _ | _ | err
    · exact ⟨none,s,hstart hloop.bind_dead,fun h => absurd hint h⟩
    · exact absurd hint (hend.mp rfl)
    · refine ⟨some err,s,hstart ?_,fun h => absurd hint h⟩
      rw [← List.append_nil (encryptLog _ _ _ _ _ _ _ _ _)]
      exact hloop.bind (Does.pure _ _)
  · obtain rfl := hend.mpr hint
    obtain ⟨hkept,hul⟩ := hkeeps rfl
    obtain ⟨t₂,fs₂⟩ := s
    obtain ⟨s,hrest⟩ := removeOriginal_runs P (t := t₂) fWrite key buf (hkept.trans hslot) hinode
    have hcode : t₂.faults.unlinks = t.faults.unlinks := by rw [hul, ← hfaults, hunlinks]
    rw [hcode] at hrest
    rw [if_neg hint]
    exact ⟨_,s,hstart (hloop.bind hrest),fun _ => rfl⟩

variable (t) in
theorem opening_becomes (f : File) : Becomes t 0 (((t.limit .kernelDs).spend .popOpen).opening f) :=
  Becomes.of_eq rfl rfl rfl rfl rfl

variable (key) in
/-- The two opens and the four allocations around them. -/
theorem processencryption_opens (hstart : EncryptionStarts P t fs fname)
    (hslot : fs (resolve t.cwd fname) = ⟨past,some c⟩) :
    ∃ t' fs' fWrite buf pastWrite,
      Transfer ⟨resolve t.cwd fname,past.length⟩ fWrite pastWrite c
        ((fs.entry (resolve t.cwd (encName P t fname))).getD []) fs' ∧
      fs' (resolve t.cwd fname) = ⟨past,some c⟩ ∧ fWrite.path = resolve t.cwd (encName P t fname) ∧
      t'.faults = { t.faults with allocs := t.faults.allocs.drop 4, opens := t.faults.opens.tail.tail } ∧
      Becomes t 4 t' ∧ (∀ path, path ≠ resolve t.cwd (encName P t fname) → fs' path = fs path) ∧
      ∀ es a s, Runs P (encryptAndUnlink ⟨resolve t.cwd fname,past.length⟩ fWrite key buf (CInt.toInt c.length))
        (t',fs') es a s → Runs P (processencryption P fname key) (t,fs)
          (.opened fname false true :: .opened (encName P t fname) true true :: es) a s := by
  have hfirst : t.faults.opens.headD none = none := (headD_of_drop List.drop_zero.symm none).trans hstart.opens
  have hfound := Fs.reach_found P hslot false
  have hopen := fileOpen_runs P hfirst hfound
  rw [← hslot, Function.update_eq_self] at hopen
  obtain ⟨t₁,ht₁⟩ : ∃ t₁, ((t.limit .kernelDs).spend .popOpen).opening ⟨resolve t.cwd fname,past.length⟩ = t₁ := ⟨_,rfl⟩
  have hbec₁ : Becomes t 0 t₁ := ht₁ ▸ opening_becomes t _
  have hfaults₁ : t₁.faults = t.faults.popOpen := by rw [← ht₁]; rfl
  rw [ht₁] at hopen
  obtain ⟨b,t₂,hbufs,hgrants,hfaults₂,hbec₂,-⟩ := pathBuffers_runs P 3 t₁ fs
  have hgrants₁ : t₁.faults.Grants 3 := fun i hi => by
    rw [hfaults₁]
    exact hstart.buffers i (by omega)
  obtain rfl := hgrants.mpr hgrants₁
  have hallocs₂ : t₂.faults.allocs = t.faults.allocs.drop 3 := by rw [hfaults₂ rfl, hfaults₁]; rfl
  have hname : t₂.faults.allocs.headD false = false := (headD_of_drop hallocs₂ false).trans (hstart.buffers 3 (by omega))
  obtain ⟨a,t₃,hmalloc,hfaults₃,-,hbec₃⟩ := kmalloc_ok P fs hname PATH_MAX
  have hbec : Becomes t 4 t₃ := (hbec₁.trans (hbec₂ rfl)).trans hbec₃
  have hbytes : t₂.found 0 PATH_MAX = t.found 3 PATH_MAX := (hbec₁.trans (hbec₂ rfl)).found 0 PATH_MAX
  have hsecond : t₃.faults.opens.headD none = none := by
    rw [hfaults₃, Faults.popAlloc, hfaults₂ rfl, hfaults₁]
    exact (headD_of_drop List.drop_one.symm none).trans hstart.creates
  have hnow : t₂.now = t.now := (hbec₁.trans (hbec₂ rfl)).now
  obtain ⟨trash,htrash⟩ : ∃ trash, resolve t.cwd (encName P t fname) = trash := ⟨_,rfl⟩
  have hne : resolve t.cwd fname ≠ trash := htrash ▸ (resolve_trashName_ne (by decide) P _ _ _ _).symm
  have hreach := Fs.reach_create P hstart.reaches
  rw [← hbec.cwd] at hreach
  have hcreate := fileOpen_runs P hsecond hreach
  rw [hbec.cwd, htrash] at hcreate
  rw [htrash]
  have hcontent : fs.content ⟨resolve t.cwd fname,past.length⟩ = c := by
    rw [Fs.content, hslot, Slot.content_linked]
  obtain ⟨fWrite,hfWrite⟩ : ∃ fWrite, (⟨trash,(fs trash).past.length⟩ : File) = fWrite := ⟨_,rfl⟩
  obtain ⟨slot,hslotWrite⟩ : ∃ slot, (⟨(fs trash).past,some ((fs.entry trash).getD [])⟩ : Slot) = slot := ⟨_,rfl⟩
  refine ⟨((t₃.limit .kernelDs).spend .popOpen).opening fWrite,Function.update fs trash slot,fWrite,
    ⟨a,t₂.found 0 PATH_MAX⟩,(fs trash).past,?_,?_,?_,?_,hbec.trans (opening_becomes t₃ _),?_,?_⟩
  · subst hfWrite hslotWrite
    exact ⟨(Fs.content_update_of_ne hne _).trans hcontent,Function.update_self _ _ _,rfl,hne⟩
  · rw [Function.update_of_ne hne, hslot]
  · rw [← hfWrite]
  · change t₃.faults.popOpen = _
    rw [hfaults₃, hfaults₂ rfl, hfaults₁]
    simp [Faults.popOpen, Faults.popAlloc, Faults.dropAllocs]
  · intro path hpath
    exact Function.update_of_ne hpath _ _
  · intro es a' s hrest
    change Runs P _ _ ([.opened fname false true] ++ ([] ++ ([] ++ ([] ++ ([] ++ ([] ++
      ([.opened (encName P t fname) true true] ++ es))))))) a' s
    refine hopen.bind (hbufs.bind ((Does.call (handle_doGettimeofday P t₂ fs)).bind ((Does.call hmalloc).bind
      ((Does.pure _ _).bind ((Does.call (handle_iSizeRead P t₃ fs _)).bind ?_)))))
    rw [hfWrite] at hcreate
    rw [hcontent, hnow, hbytes]
    subst hslotWrite
    exact hcreate.bind hrest

/-- Where the loop is not reached, only the opens are seen. -/
theorem processencryption_idle (h : ¬ (EncryptionStarts P t fs fname ∧ fs.entry (resolve t.cwd fname) ≠ none)) :
    ∃ es a s, Runs P (processencryption P fname key) (t,fs) es a s ∧
      ∀ e ∈ es, ∃ name create found, e = .opened name create found := by
  have hzero : t.faults.opens.headD none = t.faults.opens.getD 0 none := headD_of_drop List.drop_zero.symm none
  by_cases hmiss : t.faults.opens.headD none ≠ none ∨ fs.entry (resolve t.cwd fname) = none
  · obtain ⟨e,hopen⟩ := fileOpen_fails P fname false (hmiss.imp_right (Fs.reach_missing P))
    exact ⟨_,_,_,hopen.bind (Does.pure _ _),by simp⟩
  obtain ⟨hopens,hthere⟩ := not_or.mp hmiss
  obtain ⟨past,c,hslot⟩ := Slot.exists_of_now_ne_none hthere
  have hopen := fileOpen_runs P (not_not.mp hopens) (Fs.reach_found P hslot false)
  rw [← hslot, Function.update_eq_self] at hopen
  obtain ⟨b,t₂,hbufs,hgrants,hfaults₂,hbec₂,-⟩ := pathBuffers_runs P 3
    (((t.limit .kernelDs).spend .popOpen).opening ⟨resolve t.cwd fname,past.length⟩) fs
  have hbec₁ := opening_becomes t ⟨resolve t.cwd fname,past.length⟩
  cases b with
  | false => exact ⟨_,_,_,hopen.bind (hbufs.bind (Does.pure _ _)),by simp⟩
  | true =>
    have hallocs : t₂.faults.allocs = t.faults.allocs.drop 3 := by rw [hfaults₂ rfl]; rfl
    have htime : Runs P (kcall .doGettimeofday) (t₂,fs) [] (some t₂.now) (t₂,fs) :=
      Does.call (handle_doGettimeofday P t₂ fs)
    cases hname : t₂.faults.allocs.headD false with
    | true =>
      have hnone : Kernel.handle P (.kmalloc PATH_MAX) (t₂,fs) = (some none,t₂.dig.spend .popAlloc,fs) :=
        handle_kmalloc_fails P PATH_MAX hname
      exact ⟨_,_,_,hopen.bind (hbufs.bind (htime.bind ((Does.call hnone).bind (die_runs P _)))),by simp [Call.events]⟩
    | false =>
      obtain ⟨a,t₃,hmalloc,hfaults₃,-,hbec₃⟩ := kmalloc_ok P fs hname PATH_MAX
      have hbec : Becomes t 3 t₂ := hbec₁.trans (hbec₂ rfl)
      have hopens₃ : t₃.faults.opens = t.faults.opens.drop 1 := by
        rw [hfaults₃, Faults.popAlloc, hfaults₂ rfl]
        exact List.drop_one.symm
      have hfail : t₃.faults.opens.headD none ≠ none ∨ fs.reach P (resolve t₃.cwd (encName P t fname)) true = none := by
        by_contra hno
        obtain ⟨hsecond,hreach⟩ := not_or.mp hno
        refine h ⟨⟨hzero ▸ not_not.mp hopens,?_,?_,?_⟩,hthere⟩
        · intro i hi
          rcases Nat.lt_or_ge i 3 with hlt | hge
          · exact hgrants.mp rfl i hlt
          · obtain rfl : i = 3 := by omega
            rw [← headD_of_drop hallocs false, hname]
        · rw [← headD_of_drop hopens₃ none]
          exact not_not.mp hsecond
        · rw [(hbec.trans hbec₃).cwd] at hreach
          exact hreach
      obtain ⟨e,hcreate⟩ := fileOpen_fails P (t := t₃) (encName P t fname) true hfail
      rw [encName, ← hbec.now, ← hbec.found 0 PATH_MAX] at hcreate
      exact ⟨_,_,_,hopen.bind (hbufs.bind (htime.bind ((Does.call hmalloc).bind ((Does.pure _ _).bind
        ((Does.call (handle_iSizeRead P t₃ fs _)).bind (hcreate.bind (Does.pure _ _))))))),by simp [Call.events]⟩

/-- The log from the opens to the unlink. -/
theorem processencryption_log (hstart : EncryptionStarts P t fs fname) (hslot : fs (resolve t.cwd fname) = ⟨past,some c⟩)
    (hkey : t.keyIs key K) (hlegal : LegalReads t.faults.reads) {n : ℕ} (hn : (CInt.toInt c.length).toNat = n) :
    ∃ fWrite a s, fWrite.path = resolve t.cwd (encName P t fname) ∧
      Runs P (processencryption P fname key) (t,fs)
        ([.opened fname false true,.opened (encName P t fname) true true] ++
          (encryptLog ⟨resolve t.cwd fname,past.length⟩ fWrite c K n t.faults.atLoop n 0 0 ++
            if Interrupted c.length n t.faults.atLoop n 0 then []
            else [.unlink ⟨resolve t.cwd fname,past.length⟩ (t.faults.unlinks.headD none).code])) a s ∧
      (¬ Interrupted c.length n t.faults.atLoop n 0 → a = some (t.faults.unlinks.headD none).code) := by
  obtain ⟨t',fs',fWrite,buf,pastWrite,hT,hslot',hpath,hfaults,hbec,-,hruns⟩ := processencryption_opens P key hstart hslot
  have hloop : t'.faults.popAlloc.popXattr = t.faults.atLoop := by
    rw [hfaults]
    simp [Faults.popAlloc, Faults.popXattr, Faults.atLoop]
  have hunlinks : t'.faults.unlinks = t.faults.unlinks := by rw [hfaults]
  obtain ⟨a,s,hrun,hend⟩ := encryptAndUnlink_log P buf hT hslot' rfl (hbec.keyIs hkey) (by rw [hfaults]; exact hlegal) hn hloop
  rw [hunlinks] at hrun hend
  exact ⟨fWrite,a,s,hpath,hruns _ _ _ hrun,hend⟩

end Whole

/-! ## What is removed was stored -/

/-- The original is removed only if all of it was stored. -/
def KeepsUntilStored (path trash : Path) (c key : List Byte) (log : List Event) : Prop :=
  Removed path log → StoredInFull path trash c key log

section Removal
variable {path trash : Path} {c K : List Byte} {f : File} {es : List Event}

theorem not_removed_of_opened (h : ∀ e ∈ es, ∃ name create found, e = .opened name create found) : ¬ Removed path es := by
  rintro ⟨f,err,hm,-⟩
  obtain ⟨name,create,found,he⟩ := h _ hm
  cases he

theorem encryptLog_no_unlink (fRead fWrite : File) (c K : List Byte) (rounds : ℕ) (f : Faults) (rest : ℕ) (pos wpos : ℤ) :
    ∀ e ∈ encryptLog fRead fWrite c K rounds f rest pos wpos, ∀ g err, e ≠ .unlink g err := by
  induction rounds generalizing f rest pos wpos with
  | zero => exact fun e he => absurd he List.not_mem_nil
  | succ rounds ih =>
    rw [encryptLog]
    split
    · exact fun e he => absurd he List.not_mem_nil
    · simp only []
      split
      · simp
      · split
        · simp
        · split
          · simp [cipherLog]
          · rw [List.forall_mem_append]
            exact ⟨by simp [chunkLog],ih _ _ _ _⟩

/-- The opens and the unlink around a loop say nothing about what was stored. -/
theorem storedInFull_around {n₁ n₂ : Path} {b₁ b₂ b₃ b₄ : Bool} {us : List Event} (hus : us = [] ∨ ∃ f err, us = [.unlink f err]) :
    StoredInFull path trash c K ([.opened n₁ b₁ b₂,.opened n₂ b₃ b₄] ++ (es ++ us)) ↔ StoredInFull path trash c K es := by
  have hread : chunksRead path us = [] := by rcases hus with rfl | ⟨f,err,rfl⟩ <;> rfl
  have henc : chunksEncrypted us = [] := by rcases hus with rfl | ⟨f,err,rfl⟩ <;> rfl
  have hwrite : lengthsWritten trash us = [] := by rcases hus with rfl | ⟨f,err,rfl⟩ <;> rfl
  have hall : ∀ e ∈ us, e.Complete K := by rcases hus with rfl | ⟨f,err,rfl⟩ <;> simp [Event.Complete]
  have hread' := chunksRead_append path es us
  have henc' := chunksEncrypted_append es us
  have hwrite' := lengthsWritten_append trash es us
  rw [hread, List.append_nil] at hread'
  rw [henc, List.append_nil] at henc'
  rw [hwrite, List.append_nil] at hwrite'
  constructor
  · rintro ⟨h₁,h₂,h₃,h₄⟩
    exact ⟨hread' ▸ h₁,hread' ▸ henc' ▸ h₂,henc' ▸ hwrite' ▸ h₃,fun e he => h₄ e (by simp [he])⟩
  · rintro ⟨h₁,h₂,h₃,h₄⟩
    refine ⟨hread'.symm ▸ h₁,?_,?_,?_⟩
    · exact henc'.trans (h₂.trans (congrArg _ hread'.symm))
    · exact hwrite'.trans (h₃.trans (congrArg _ henc'.symm))
    · simpa [Event.Complete] using List.forall_mem_append.mpr ⟨h₄,hall⟩

variable (K) in
/-- The loop over a whole file, of any size. -/
theorem encryptLog_whole_iff (fRead fWrite : File) (f : Faults) {n : ℕ} (hn : (CInt.toInt c.length).toNat = n) :
    (¬ Interrupted c.length n f n 0 ∧ StoredInFull fRead.path fWrite.path c K (encryptLog fRead fWrite c K n f n 0 0)) ↔
      ChunksGranted (Bytes.chunks 4080 c) f ∧ c.length ≤ 2139095040 := by
  rcases Nat.lt_or_ge c.length 2147483648 with hsmall | hbig
  · have hsize : n = c.length := by
      rw [CInt.toInt_natCast hsmall, Int.toNat_natCast] at hn
      exact hn.symm
    subst hsize
    have hiff := encryptLog_stored_iff fRead fWrite K f (k := 0) (Nat.zero_le _)
      hsmall (.inr rfl) (by omega) (le_refl (c.length - 0))
    have hzero : 0 = c.length ∨ c.length ≤ 2139095040 ↔ c.length ≤ 2139095040 := by omega
    rw [List.drop_zero, Nat.sub_zero, hzero] at hiff
    exact hiff
  · refine iff_of_false ?_ (fun h => by omega)
    rintro ⟨-,hstored⟩
    have hle := length_chunksRead_encryptLog fRead fWrite c K n f n 0 0
    have hshort : n < c.length := by
      rw [← hn]
      have hb := CInt.toInt_bounds c.length
      omega
    rw [hstored.content] at hle
    omega

end Removal

/-- `processencryption` removes nothing that it has not stored in full exactly when it does not come to its
unlink, or the unlink fails, or every call of every chunk is granted and no offset leaves the range of `int`. -/
theorem processencryption_keeps_iff (P : Platform) (fname : Path) {key : Ptr} {K c : List Byte} {t : Task} {fs : Fs}
    (hlegal : LegalReads t.faults.reads) (hentry : fs.entry (resolve t.cwd fname) = some c) (hkey : t.keyIs key K) :
    KeepsUntilStored (resolve t.cwd fname) (resolve t.cwd (encName P t fname)) c K (logOf P (processencryption P fname key) (t,fs)) ↔
      (¬ EncryptionStarts P t fs fname ∨
        Interrupted c.length (CInt.toInt c.length).toNat t.faults.atLoop (CInt.toInt c.length).toNat 0 ∨
        t.faults.unlinks.headD none ≠ none ∨
        (ChunksGranted (Bytes.chunks 4080 c) t.faults.atLoop ∧ c.length ≤ 2139095040)) := by
  by_cases hstart : EncryptionStarts P t fs fname
  swap
  · obtain ⟨es,a,s,hruns,hopened⟩ := processencryption_idle P (fun h => hstart h.1)
    have hlog : logOf P (processencryption P fname key) (t,fs) = es := hruns.log
    rw [hlog]
    exact iff_of_true (fun h => absurd h (not_removed_of_opened hopened)) (.inl hstart)
  obtain ⟨past,c',hslot⟩ := Slot.exists_of_now_ne_none (by rw [← Fs.entry, hentry]; exact Option.some_ne_none c)
  have hcc : c' = c := by
    rw [Fs.entry, hslot] at hentry
    exact Option.some.inj hentry
  subst hcc
  obtain ⟨n,hn⟩ : ∃ n, (CInt.toInt c'.length).toNat = n := ⟨_,rfl⟩
  obtain ⟨fWrite,a,s,hpath,hruns,-⟩ := processencryption_log P hstart hslot hkey hlegal hn
  have hlog : logOf P (processencryption P fname key) (t,fs) = _ := hruns.log
  obtain ⟨ul,hulEq⟩ : ∃ ul, t.faults.unlinks.headD none = ul := ⟨_,rfl⟩
  rw [hlog, hn, hulEq, KeepsUntilStored, ← hpath]
  have hwhole := encryptLog_whole_iff K ⟨resolve t.cwd fname,past.length⟩ fWrite t.faults.atLoop hn
  have hnone := encryptLog_no_unlink ⟨resolve t.cwd fname,past.length⟩ fWrite c' K n t.faults.atLoop n 0 0
  by_cases hint : Interrupted c'.length n t.faults.atLoop n 0
  · refine iff_of_true (fun hrem => ?_) (.inr (.inl hint))
    obtain ⟨g,err,hm,-⟩ := hrem
    simp only [if_pos hint, List.append_nil, List.mem_append, List.mem_cons, List.not_mem_nil] at hm
    simp at hm
    exact absurd rfl (hnone _ hm g err)
  · rw [if_neg hint]
    by_cases hul : ul = none
    · have hrem : Removed (resolve t.cwd fname) ([.opened fname false true,.opened (encName P t fname) true true] ++
          (encryptLog ⟨resolve t.cwd fname,past.length⟩ fWrite c' K n t.faults.atLoop n 0 0 ++
            [.unlink ⟨resolve t.cwd fname,past.length⟩ ul.code])) :=
        ⟨⟨resolve t.cwd fname,past.length⟩,ul.code,by simp,rfl,fault_code_nonneg.mpr hul⟩
      rw [storedInFull_around (.inr ⟨_,_,rfl⟩), ← hwhole]
      rw [imp_iff_right hrem]
      simp [hstart, hint, hul]
    · refine iff_of_true (fun hrem => ?_) (.inr (.inr (.inl hul)))
      obtain ⟨g,err,hm,-,hok⟩ := hrem
      simp at hm
      rcases hm with hm | ⟨-,rfl⟩
      · exact absurd rfl (hnone _ hm g err)
      · exact absurd (fault_code_nonneg.mp hok) hul

section Byte

/-- The file `/a` holds one byte, and the first buffer the key. -/
def oneByte : Fs := Fs.ofList [(['/','a'],[7])]

theorem processencryption_keeps_byte :
    let t := (Task.fresh ['/'] 0 { setkeys := [some 0] }).withKey [107,0]
    KeepsUntilStored (resolve t.cwd ['/','a']) (resolve t.cwd (encName .bare t ['/','a'])) [7] [107]
        (logOf .bare (processencryption .bare ['/','a'] (some 0)) (t,oneByte)) ↔
      (¬ EncryptionStarts .bare t oneByte ['/','a'] ∨ Interrupted 1 1 t.faults.atLoop 1 0 ∨
        t.faults.unlinks.headD none ≠ none ∨ (ChunksGranted [[7]] t.faults.atLoop ∧ 1 ≤ 2139095040)) :=
  processencryption_keeps_iff .bare ['/','a'] (K := [107]) (t := (Task.fresh ['/'] 0 { setkeys := [some 0] }).withKey [107,0])
    (c := [7]) (fun _ ho => absurd ho List.not_mem_nil) rfl rfl

/-- The key is refused, the byte encrypted under the empty key, and the original removed. -/
theorem processencryption_loses_key :
    let t := (Task.fresh ['/'] 0 { setkeys := [some 0] }).withKey [107,0]
    ¬ KeepsUntilStored (resolve t.cwd ['/','a']) (resolve t.cwd (encName .bare t ['/','a'])) [7] [107]
      (logOf .bare (processencryption .bare ['/','a'] (some 0)) (t,oneByte)) := by
  intro t hkeeps
  have hremoved : Event.unlink ⟨['/','a'],0⟩ 0 ∈ logOf .bare (processencryption .bare ['/','a'] (some 0)) (t,oneByte) := by
    decide +kernel
  have hrefused : Event.setkey (-1) ∈ logOf .bare (processencryption .bare ['/','a'] (some 0)) (t,oneByte) := by
    decide +kernel
  exact absurd ((hkeeps ⟨_,_,hremoved,rfl,le_rfl⟩).complete _ hrefused) (by decide)

end Byte

end XClone
