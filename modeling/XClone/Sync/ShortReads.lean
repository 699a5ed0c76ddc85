import XClone.Sync.CompressionLog
import XClone.Sync.Completion

/-! # Chunks under short reads

Both loops count the rest of the file down by what they ask for, and the offset up by what they
are given. A short read therefore leaves bytes behind that no later round asks for.
-/
namespace XClone
open Effects Prog

/-- The chunks that are read, from a rest and an offset on. -/
def readChunks (c : List Byte) : ℕ → List Outcome → ℕ → ℕ → List (List Byte)
  | 0, _, _, _ => []
  | rounds+1, reads, rest, m =>
    if rest = 0 then [] else
      let n := ((reads.headD .full).count (min 4080 rest)).toNat
      (c.drop m).take n :: readChunks c rounds reads.tail (rest - min 4080 rest) (m + n)

/-- Each of the chunks is read at once. -/
def ReadsFull : List (List Byte) → List Outcome → Prop
  | [], _ => True
  | x :: xs, reads => (reads.headD .full).count x.length = x.length ∧ ReadsFull xs reads.tail

instance ReadsFull.decidable : ∀ xs reads, Decidable (ReadsFull xs reads)
  | [], _ => inferInstanceAs (Decidable True)
  | _ :: xs, reads =>
    have := ReadsFull.decidable xs reads.tail
    inferInstanceAs (Decidable (_ ∧ _))

theorem count_toNat_le (o : Outcome) (len : ℕ) : (o.count len).toNat ≤ len := by
  have hle := o.count_le len
  omega

variable (c : List Byte)

/-- No more is read than was asked for. -/
theorem length_readChunks (rounds : ℕ) (reads : List Outcome) (rest m : ℕ) :
    (readChunks c rounds reads rest m).flatten.length ≤ rest := by
  induction rounds generalizing reads rest m with
  | zero => simp [readChunks]
  | succ rounds ih =>
    rw [readChunks]
    split
    · simp
    · have hn := count_toNat_le (reads.headD .full) (min 4080 rest)
      have hrest := ih reads.tail (rest - min 4080 rest) (m + ((reads.headD .full).count (min 4080 rest)).toNat)
      simp only [List.flatten_cons, List.length_append, List.length_take]
      omega

variable {c} in
/-- The chunks make up what is left exactly when none of them is cut short. -/
theorem readChunks_flatten_iff {rounds m : ℕ} (reads : List Outcome) (hm : m ≤ c.length) (hr : c.length - m ≤ rounds) :
    (readChunks c rounds reads (c.length - m) m).flatten = c.drop m ↔ ReadsFull (Bytes.chunks 4080 (c.drop m)) reads := by
  induction rounds generalizing reads m with
  | zero =>
    have hend : m = c.length := by omega
    subst hend
    simp [readChunks, ReadsFull]
  | succ rounds ih =>
    rcases Nat.eq_or_lt_of_le hm with hend | hlt
    · subst hend
      simp [readChunks, ReadsFull]
    obtain ⟨rest,hrest⟩ : ∃ rest, rest = c.length - m := ⟨_,rfl⟩
    have hpos : rest ≠ 0 := by omega
    have hxlen : ((c.drop m).take (min 4080 rest)).length = min 4080 rest := by
      rw [List.length_take, List.length_drop]
      omega
    have hchunks := chunks_drop hlt
    rw [← hrest] at hchunks ⊢
    rw [hchunks, ReadsFull, hxlen, readChunks, if_neg hpos]
    by_cases hfull : (reads.headD .full).count (min 4080 rest) = (min 4080 rest : ℕ)
    · have hwhole : (c.drop m).take (min 4080 rest) ++ c.drop (m + min 4080 rest) = c.drop m := by
        rw [← List.drop_drop, List.take_append_drop]
      have hleft : rest - min 4080 rest = c.length - (m + min 4080 rest) := by omega
      have hnext := ih reads.tail (m := m + min 4080 rest) (by omega) (by omega)
      simp only [hfull, Int.toNat_natCast, List.flatten_cons, true_and]
      rw [← hnext, hleft]
      nth_rewrite 2 [← hwhole]
      rw [List.append_cancel_left_eq]
    · refine iff_of_false (fun heq => ?_) (fun h => hfull h.1)
      have hn := (reads.headD .full).count_le (min 4080 rest)
      have hlen := congrArg List.length heq
      have hmore := length_readChunks c rounds reads.tail (rest - min 4080 rest)
        (m + ((reads.headD .full).count (min 4080 rest)).toNat)
      simp only [List.flatten_cons, List.length_append, List.length_take, List.length_drop] at hlen
      omega

/-! ## What the two loops hand on -/

/-- Reads may return less than there is, and nothing else stops a loop. -/
structure ShortReads (f : Faults) : Prop where
  reads : ∀ o ∈ f.reads, ∀ e, o ≠ .fail e
  allocs : f.allocs = []
  ciphers : f.ciphers = []
  comps : f.comps = []
  compressions : f.compressions = []

section Loops
variable {c} {f : Faults} (fRead fWrite : File) (K : List Byte)

theorem ShortReads.count (h : ShortReads f) (len : ℕ) :
    (f.reads.headD .full).count len = ((f.reads.headD .full).count len).toNat := by
  cases hr : f.reads with
  | nil => simp [Outcome.count]
  | cons o reads =>
    have ho := h.reads o (by simp [hr])
    cases o with
    | full => simp [Outcome.count]
    | short n => simp [Outcome.count]
    | fail e => exact absurd rfl (ho e)

/-- What a read returns inside the file, whose buffer is there. -/
theorem ShortReads.readCountInto (h : ShortReads f) {m len : ℕ} (hin : m + len ≤ c.length) :
    XClone.readCountInto (f.allocs.getD 0 false) (f.reads.headD .full) c.length m len =
      (((f.reads.headD .full).count len).toNat : ℕ) := by
  have hpage : f.allocs.getD 0 false = false := by simp [h.allocs]
  rw [hpage, readCountInto_false, readCount, if_neg (by omega), Int.toNat_natCast, min_eq_left (by omega)]
  exact h.count _

theorem ShortReads.legal (h : ShortReads f) : LegalReads f.reads := fun o ho e he => absurd he (h.reads o ho e)

theorem ShortReads.popAlloc (h : ShortReads f) : ShortReads f.popAlloc where
  reads := h.reads
  allocs := congrArg List.tail h.allocs
  ciphers := h.ciphers
  comps := h.comps
  compressions := h.compressions

theorem ShortReads.popChunk (h : ShortReads f) : ShortReads f.popChunk where
  reads o ho := h.reads o (List.mem_of_mem_tail ho)
  allocs := congrArg (List.tail ∘ List.tail) h.allocs
  ciphers := congrArg List.tail h.ciphers
  comps := h.comps
  compressions := h.compressions

theorem ShortReads.popCompressed (h : ShortReads f) : ShortReads f.popCompressed where
  reads o ho := h.reads o (List.mem_of_mem_tail ho)
  allocs := congrArg (List.tail ∘ List.tail) h.allocs
  ciphers := h.ciphers
  comps := congrArg List.tail h.comps
  compressions := congrArg List.tail h.compressions

variable (P : Platform) in
/-- A compressor that is there takes whatever a read has filled in. -/
theorem ShortReads.nextEnd (h : ShortReads f) (page : List Byte) {m rest n : ℕ}
    (hn : chunkRead f c.length m rest = n) (hlen : ((c.drop m).take n).length = n) (hsmall : n < 4294967296) :
    ∃ z, XClone.nextEnd P false page c f rest m = .stored z := by
  have hpage : f.allocs.getD 0 false = false := by simp [h.allocs]
  have hroom : n ≤ (Bytes.overlay 0 page 0 ((c.drop m).take n)).length :=
    hlen.ge.trans (Bytes.length_le_overlay_zero 0 page _)
  have hint : CInt.toUInt (n : ℤ) = n := CInt.toUInt_natCast hsmall
  refine ⟨P.deflate ((Bytes.overlay 0 page 0 ((c.drop m).take n)).take n),?_⟩
  rw [XClone.nextEnd, hn, Int.toNat_natCast, Int.toNat_natCast, hpage, pageFilled, if_neg Bool.false_ne_true, chunkEnd,
    deflated, h.comps, h.compressions, hint, convert_of_le P P.deflate hroom]
  simp [h.allocs]

theorem chunksEncrypted_encryptLog (rounds : ℕ) {rest m : ℕ} (wpos : ℤ) (h : ShortReads f) (hin : m + rest ≤ c.length)
    (hc : c.length < 1073741824) : chunksEncrypted (encryptLog fRead fWrite c K rounds f rest m wpos) =
      (readChunks c rounds f.reads rest m).map (BlockCipher.pad 16) := by
  induction rounds generalizing f rest m wpos with
  | zero => rfl
  | succ rounds ih =>
    rw [encryptLog, readChunks]
    by_cases hrest : rest = 0
    · simp [hrest, chunksEncrypted]
    have hcipher : ¬ f.ciphers.headD none ≠ none := by simp [h.ciphers]
    have hpage : ∀ r, ¬ f.Pageless r := by
      intro r
      simp [Faults.Pageless, h.allocs]
    have hn := count_toNat_le (f.reads.headD .full) (min 4080 rest)
    rw [if_neg hrest, if_neg hrest]
    simp only [if_neg hcipher, if_neg (hpage _), h.readCountInto (show m + min 4080 rest ≤ c.length by omega),
      Int.toNat_natCast]
    obtain ⟨n,hnat⟩ : ∃ n, ((f.reads.headD .full).count (min 4080 rest)).toNat = n := ⟨_,rfl⟩
    rw [hnat] at hn ⊢
    have hlive : ¬ (n : ℤ) < -16 := by omega
    have hpadded : paddedChunk (n : ℤ) ((c.drop m).take n) = BlockCipher.pad 16 ((c.drop m).take n) := if_pos (by omega)
    have hoffset : CInt.toInt ((m : ℤ) + n) = ((m + n : ℕ) : ℤ) := CInt.toInt_natCast (by omega)
    rw [if_neg hlive, chunksEncrypted_append, chunksEncrypted_chunkLog, hpadded, hoffset, ih _ h.popChunk (by omega)]
    rfl

theorem chunksCompressed_compressLog (P : Platform) (rounds : ℕ) (bufs : ℕ → List Byte) {rest m : ℕ} (wpos : ℤ)
    (h : ShortReads f) (hin : m + rest ≤ c.length) (hc : c.length < 1073741824) :
    chunksCompressed (compressLog P false fRead fWrite c rounds bufs f rest m wpos) = readChunks c rounds f.reads rest m := by
  induction rounds generalizing bufs f rest m wpos with
  | zero => rfl
  | succ rounds ih =>
    rw [compressLog, readChunks]
    by_cases hrest : rest = 0
    · simp [hrest, chunksCompressed]
    have hn := count_toNat_le (f.reads.headD .full) (min 4080 rest)
    obtain ⟨n,hnat⟩ : ∃ n, ((f.reads.headD .full).count (min 4080 rest)).toNat = n := ⟨_,rfl⟩
    rw [hnat] at hn
    have hread : chunkRead f c.length m rest = n := by
      rw [chunkRead, h.readCountInto (show m + min 4080 rest ≤ c.length by omega), hnat]
    have hlen : ((c.drop m).take n).length = n := by
      rw [List.length_take, List.length_drop]
      omega
    have hsmall : n < 4294967296 := by omega
    obtain ⟨z,hend⟩ := h.nextEnd P (bufs 0) hread hlen hsmall
    have hpage : f.allocs.getD 0 false = false := by simp [h.allocs]
    have hsrc : (pageFilled false (bufs 0) ((c.drop m).take n)).take n = (c.drop m).take n := by
      have htake := Bytes.take_overlay_zero 0 (bufs 0) ((c.drop m).take n)
      rwa [hlen] at htake
    have hint : CInt.toUInt (n : ℤ) = n := CInt.toUInt_natCast hsmall
    have hoffset : CInt.toInt ((m : ℤ) + n) = ((m + n : ℕ) : ℤ) := CInt.toInt_natCast (by omega)
    rw [if_neg hrest, if_neg hrest]
    simp only [hend, hread, hnat, hpage, hint, Int.toNat_natCast, hoffset, hsrc]
    rw [chunksCompressed_append, ih _ _ h.popCompressed (by omega)]
    rfl

end Loops

/-- The chunks that `processencryption` hands to the cipher make up the file. -/
def CoversEncrypted (P : Platform) (fname : Path) (key : Ptr) (c : List Byte) (s : Kernel) : Prop :=
  ∃ xs : List (List Byte), chunksEncrypted (logOf P (processencryption P fname key) s) = xs.map (BlockCipher.pad 16) ∧ xs.flatten = c

/-- The chunks that `compress_file` hands to the compressor make up the file. -/
def CoversCompressed (P : Platform) (fRead fWrite : File) (c : List Byte) (s : Kernel) : Prop :=
  (chunksCompressed (logOf P (compressFileXclone fRead fWrite) s)).flatten = c

theorem map_pad_injective : Function.Injective (List.map (BlockCipher.pad 16)) :=
  List.map_injective_iff.mpr (BlockCipher.pad_injective (by omega) (by omega))

/-- Under reads of any length, the chunks of both loops make up the file exactly when no read was short. -/
theorem chunks_cover_iff (P : Platform) {t : Task} {c : List Byte} (hshort : ShortReads t.faults) (hc : c.length < 1073741824) :
    (∀ fs fRead fWrite past out, Transfer fRead fWrite past c out fs →
      (CoversCompressed P fRead fWrite c (t,fs) ↔ ReadsFull (Bytes.chunks 4080 c) t.faults.reads)) ∧
    (∀ fs fname key K, fs.entry (resolve t.cwd fname) = some c → t.keyIs key K → EncryptionStarts P t fs fname →
      (CoversEncrypted P fname key c (t,fs) ↔ ReadsFull (Bytes.chunks 4080 c) t.faults.reads)) := by
  have hn : (CInt.toInt c.length).toNat = c.length := by
    rw [CInt.toInt_natCast (by omega), Int.toNat_natCast]
  have hiff := readChunks_flatten_iff (c := c) t.faults.reads (Nat.zero_le _) (le_refl (c.length - 0))
  rw [Nat.sub_zero, List.drop_zero] at hiff
  constructor
  · intro fs fRead fWrite past out hT
    obtain ⟨a,s,hruns,-⟩ := compressFileXclone_log P t hT hn
    have hlog : logOf P (compressFileXclone fRead fWrite) (t,fs) = _ := hruns.log
    have hin : 0 + c.length ≤ c.length := by omega
    have hroom : t.faults.allocs.headD false = false := by simp [hshort.allocs]
    have hchunks := chunksCompressed_compressLog fRead fWrite P c.length (fun j => t.found (1+j) 4096) 0 hshort.popAlloc hin hc
    rw [CoversCompressed, hlog, hroom, ← hiff]
    exact iff_of_eq (congrArg (fun xs => List.flatten xs = c) hchunks)
  · intro fs fname key K hentry hkey hstart
    obtain ⟨past,c',hslot⟩ := Slot.exists_of_now_ne_none (by rw [← Fs.entry, hentry]; exact Option.some_ne_none c)
    obtain rfl : c' = c := by
      rw [Fs.entry, hslot] at hentry
      exact Option.some.inj hentry
    obtain ⟨fWrite,a,s,-,hruns,-⟩ := processencryption_log P hstart hslot hkey hshort.legal hn
    have hlog : logOf P (processencryption P fname key) (t,fs) = _ := hruns.log
    have hatLoop : ShortReads t.faults.atLoop := ⟨hshort.reads,by simp [Faults.atLoop, hshort.allocs],hshort.ciphers,hshort.comps,hshort.compressions⟩
    have hin : 0 + c'.length ≤ c'.length := by omega
    have hchunks := chunksEncrypted_encryptLog ⟨resolve t.cwd fname,past.length⟩ fWrite K c'.length 0 hatLoop hin hc
    have hends : ∀ b : Prop, [Decidable b] → chunksEncrypted (if b then [] else
        [.unlink ⟨resolve t.cwd fname,past.length⟩ (t.faults.unlinks.headD none).code]) = [] := by
      intro b hb
      split <;> rfl
    have hopens : chunksEncrypted [.opened fname false true,.opened (encName P t fname) true true] = [] := rfl
    have hall : chunksEncrypted (logOf P (processencryption P fname key) (t,fs)) =
        (readChunks c' c'.length t.faults.reads c'.length 0).map (BlockCipher.pad 16) := by
      rw [hlog, chunksEncrypted_append, chunksEncrypted_append, hopens, hends, List.append_nil, List.nil_append]
      exact hchunks
    rw [← hiff, CoversEncrypted, hall]
    constructor
    · rintro ⟨xs,hxs,hflat⟩
      rwa [map_pad_injective hxs]
    · intro hflat
      exact ⟨_,rfl,hflat⟩

section TwoBytes

/-- A file of two bytes beside an empty one. -/
def twoBytes : Fs := Fs.ofList [(['/','a'],[1,2]),(['/','t'],[])]

/-- The first read returns one byte only. -/
def shortly : Task := (Task.fresh ['/'] 0 { reads := [.short 1] }).withKey [107,0]

theorem chunks_cover_shortly :
    (CoversCompressed .bare ⟨['/','a'],0⟩ ⟨['/','t'],0⟩ [1,2] (shortly,twoBytes) ↔
      ReadsFull (Bytes.chunks 4080 [1,2]) shortly.faults.reads) ∧
    (CoversEncrypted .bare ['/','a'] (some 0) [1,2] (shortly,twoBytes) ↔
      ReadsFull (Bytes.chunks 4080 [1,2]) shortly.faults.reads) := by
  have hshort : ShortReads shortly.faults := by
    refine ⟨?_,rfl,rfl,rfl,rfl⟩
    intro o ho e he
    rw [he] at ho
    simp [shortly, Task.withKey, Task.fresh] at ho
  have hcover := chunks_cover_iff .bare hshort (c := [1,2]) (by decide)
  refine ⟨hcover.1 twoBytes ⟨['/','a'],0⟩ ⟨['/','t'],0⟩ [] [] ⟨rfl,rfl,rfl,by decide⟩,?_⟩
  refine hcover.2 twoBytes ['/','a'] (some 0) [107] rfl rfl ⟨rfl,?_,rfl,by decide⟩
  intro i _
  rfl

/-- The second byte reaches neither the compressor nor the cipher. -/
theorem chunks_cover_loses : ¬ CoversCompressed .bare ⟨['/','a'],0⟩ ⟨['/','t'],0⟩ [1,2] (shortly,twoBytes) ∧
    ¬ CoversEncrypted .bare ['/','a'] (some 0) [1,2] (shortly,twoBytes) := by
  constructor
  · unfold CoversCompressed
    decide +kernel
  · rintro ⟨xs,hxs,hflat⟩
    have hone : chunksEncrypted (logOf .bare (processencryption .bare ['/','a'] (some 0)) (shortly,twoBytes)) =
        [[1]].map (BlockCipher.pad 16) := by decide +kernel
    rw [map_pad_injective (hxs.symm.trans hone)] at hflat
    revert hflat
    decide

end TwoBytes

end XClone
