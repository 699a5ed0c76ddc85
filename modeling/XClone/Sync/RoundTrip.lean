import XClone.Sync.Decoder

/-! # What `decompress_file` makes of the output of `compress_file`

`encodeFrames` is the exact file that `compress_file` writes, chunk by chunk. The frames
are twelve bytes long and start eight bytes apart, so each header overwrites the end of
the payload before it, and the decoder finds one page worth of them in its first round.
-/
namespace XClone
open Effects Prog

/-! ## Headers -/

theorem isDigit_asciiBytes {ds : List Char} (h : ∀ c ∈ ds, c.isDigit) : ∀ b ∈ asciiBytes ds, IsDigit b := by
  intro b hb
  obtain ⟨c,hc,rfl⟩ := List.mem_map.mp hb
  have hdig := Char.isDigit_iff_toNat.mp (h c hc)
  have h0 : '0'.toNat = 48 := rfl
  have h9 : '9'.toNat = 57 := rfl
  rw [IsDigit, UInt8.toNat_ofNat_of_lt' (by rw [h9] at hdig; exact hdig.2.trans_lt (by decide)), ← h0, ← h9]
  exact hdig

theorem digitsValue_asciiBytes {ds : List Char} (h : ∀ c ∈ ds, c.isDigit) :
    digitsValue (asciiBytes ds) = Nat.ofDigitChars 10 ds 0 := by
  suffices hs : ∀ n, (asciiBytes ds).foldl (fun n b => 10 * n + (b.toNat - 48)) n = Nat.ofDigitChars 10 ds n from hs 0
  induction ds with
  | nil => intro n; rfl
  | cons c ds ih =>
    intro n
    have hdig := Char.isDigit_iff_toNat.mp (h c (List.mem_cons_self))
    have h9 : '9'.toNat = 57 := rfl
    have hbyte : (UInt8.ofNat c.toNat).toNat = c.toNat :=
      UInt8.toNat_ofNat_of_lt' (by rw [h9] at hdig; exact hdig.2.trans_lt (by decide))
    rw [Nat.ofDigitChars_cons, ← ih (fun d hd => h d (List.mem_cons_of_mem _ hd))]
    rw [asciiBytes, List.map_cons, List.foldl_cons, hbyte]
    rfl


/-- What the header of a payload of `n` bytes says: its fourth digit is cut off. -/
def headerSize (n : ℕ) : ℕ := if n < 1000 then n else n / 10

theorem take_toDigits {n : ℕ} (h : n < 10000) :
    (Nat.toDigits 10 n).take 3 = Nat.toDigits 10 (headerSize n) := by
  have hle : ∀ m, (Nat.toDigits 10 m).length ≤ 3 ↔ m < 1000 := fun m => Nat.length_toDigits_le_iff (by omega) (by omega)
  by_cases hs : n < 1000
  · rw [headerSize, if_pos hs, List.take_of_length_le ((hle n).mpr hs)]
  · have htwo : ¬ (Nat.toDigits 10 (n/10)).length ≤ 2 := by
      rw [Nat.length_toDigits_le_iff (by omega) (by omega)]
      omega
    have hthree := (hle (n/10)).mpr (by omega)
    rw [headerSize, if_neg hs, Nat.toDigits_of_base_le (by omega) (by omega), List.take_append_of_le_length (by omega),
      List.take_of_length_le hthree]

/-- Digits with a terminator are read back whatever follows them. -/
theorem parseInt_header {p : ℕ} (hp : p < 2147483648) (tail : List Byte) :
    parseInt (cString (asciiBytes (Nat.toDigits 10 p) ++ 0 :: tail)) = some (p : ℤ) := by
  have hdigits : ∀ c ∈ Nat.toDigits 10 p, c.isDigit := fun c hc => Nat.isDigit_of_mem_toDigits (by omega) (by omega) hc
  have hd := isDigit_asciiBytes hdigits
  have hc : cString (asciiBytes (Nat.toDigits 10 p) ++ 0 :: tail) = asciiBytes (Nat.toDigits 10 p) := by
    rw [cString, List.takeWhile_append_of_pos]
    · simp
    · intro b hb
      have hb' := hd b hb
      rw [decide_eq_true_eq]
      rintro rfl
      exact absurd hb' (by decide)
  have hv : digitsValue (asciiBytes (Nat.toDigits 10 p)) = p := by
    rw [digitsValue_asciiBytes hdigits, Nat.ofDigitChars_ten_toDigits]
  have hne : asciiBytes (Nat.toDigits 10 p) ≠ [] := by
    intro hnil
    exact Nat.toDigits_ne_nil (List.map_eq_nil_iff.mp hnil)
  rw [hc, parseInt_digits hne hd (by omega), hv]

/-- The header written for a payload of `n` bytes. -/
theorem snprintf4_eq (buf : List Byte) {n : ℕ} (h : n < 10000) :
    ∃ tail, snprintf4 buf n = asciiBytes (Nat.toDigits 10 (headerSize n)) ++ 0 :: tail := by
  refine ⟨buf.drop ((asciiBytes (Nat.toDigits 10 (headerSize n)) ++ [0]).length),?_⟩
  rw [snprintf4, decimal_natCast, take_toDigits h, Bytes.overlay_of_le _ _ (Nat.zero_le _), List.take_zero,
    List.nil_append, Nat.zero_add, List.append_assoc]
  rfl

/-! ## The encoder -/

theorem length_snprintf4 {buf : List Byte} (h : buf.length = 4) (n : ℤ) : (snprintf4 buf n).length = 4 := by
  have hd : (asciiBytes ((decimal n).take 3) ++ [0]).length ≤ 4 := by
    rw [List.length_append, asciiBytes, List.length_map, List.length_take, List.length_singleton]
    omega
  rw [snprintf4, Bytes.overlay_of_le _ _ (Nat.zero_le _), List.take_zero, List.nil_append, List.length_append,
    List.length_drop]
  omega

/-- The eight bytes written of a compressed chunk, out of a buffer that held `buffer`. -/
def payload (buffer z : List Byte) : List Byte := (Bytes.overlay 0 buffer 0 z).take sizeofPointer

/-- The file after a header and a payload are written at `pos`. -/
def storeFrame (out : List Byte) (pos : ℕ) (header body : List Byte) : List Byte :=
  Bytes.overlay 0 (Bytes.overlay 0 out pos header) (pos+4) body

/-- The encoded file. `bufs i` is what the `i`-th allocated page held, `tei` the header buffer. -/
def encodeFrames (P : Platform) (bufs : ℕ → List Byte) :
    ℕ → List Byte → List (List Byte) → List Byte → ℕ → List Byte
  | _, _, [], out, _ => out
  | i, tei, x :: xs, out, pos =>
    let z := P.deflate x
    let header := snprintf4 tei z.length
    encodeFrames P bufs (i+2) header xs (storeFrame out pos header (payload (bufs (i+1)) z)) (pos+8)

section Compress
variable (P : Platform) {t : Task} {fs : Fs} {fRead fWrite : File} {past : List (List Byte)} {c out : List Byte}
  {m n pos : ℕ}

variable (fs) in
/-- Unless it is told that there is no room, the compressor fills the page it is given. -/
theorem run_compressBuffer (h : t.faults = {}) {outLen : Option ℤ} (hroom : outLen ≠ some 0) {buf : List Byte}
    (hn : n ≤ buf.length) (hn' : n < 4294967296) (b₄ : Buf) :
    (compressBuffer buf n (some b₄) outLen).run (Kernel.handle P) (t,fs) =
      (some (((P.deflate (buf.take n)).length : ℤ),some (Bytes.overlay 0 b₄.bytes 0 (P.deflate (buf.take n)))),
        (t.spend .popComp).spend .popCompression,fs) := by
  have halloc : Kernel.handle P .cryptoAllocComp (t,fs) = (some (Fault.code none),t.spend .popComp,fs) := by
    rw [handle_cryptoAllocComp, h]
    rfl
  have hcount : CInt.toUInt (n : ℤ) = n := by
    unfold CInt.toUInt
    omega
  have hcomp : Kernel.handle P (.cryptoCompCompress buf n outLen) (t.spend .popComp,fs) =
      (some (0,P.deflate (buf.take n)),(t.spend .popComp).spend .popCompression,fs) := by
    have hnone : (t.spend .popComp).faults.compressions.headD none = none := by
      rw [Task.spend_faults, h]
      rfl
    simp only [Kernel.handle, hnone, if_neg hroom, hcount, convert_of_le P P.deflate hn]
  have hgo : ¬ Fault.code none < 0 := by decide
  simp only [compressBuffer, run_bind, run_perform, halloc, if_neg hgo, hcomp, Int.lt_irrefl, ↓reduceIte, storeOutput,
    run_pure]

variable (t fs) in
theorem handle_vfsWrite_full (f : File) (buf : List Byte) {p l : ℤ} {pos len : ℕ} (hp : p = pos) (hl : l = len)
    (h : t.faults = {}) (hlen : len ≤ buf.length) :
    Kernel.handle P (.vfsWrite f p buf l) (t,fs) =
      (some l,t.spend .popWrite,Function.update fs f.path ((fs f.path).write f.inode pos (buf.take len))) := by
  have ht : (buf.take len).length = len := List.length_take_of_le hlen
  subst hp hl
  rw [handle_vfsWrite P f buf len (by omega)]
  simp only [h, List.headD_nil, Outcome.count, ht, Int.toNat_natCast, List.take_take, min_self]

/-- The task after a frame was written. -/
def Task.afterFrame (t : Task) (buff3 buff4 : Option Buf) : Task :=
  ((((((((t.spend .popRead).spend .popComp).spend .popCompression).limit .kernelDs).spend .popWrite).spend .popWrite).limit
    t.addrLimit).freed (buff3.map Buf.addr)).freed (buff4.map Buf.addr)

theorem Quiet.afterFrame (h : t.faults = {}) (buff3 buff4 : Option Buf) : Quiet t 0 (t.afterFrame buff3 buff4) := by
  have q₁ := Quiet.spend h .popRead rfl
  have q₂ := q₁.trans (Quiet.spend q₁.faults .popComp rfl)
  have q₂ := q₂.trans (Quiet.spend q₂.faults .popCompression rfl)
  have q₃ := q₂.trans (Quiet.limit q₂.faults .kernelDs)
  have q₄ := q₃.trans (Quiet.spend q₃.faults .popWrite rfl)
  have q₅ := q₄.trans (Quiet.spend q₄.faults .popWrite rfl)
  have q₆ := q₅.trans (Quiet.limit q₅.faults t.addrLimit)
  have q₇ := q₆.trans (Quiet.freed q₆.faults (buff3.map Buf.addr))
  exact q₇.trans (Quiet.freed q₇.faults (buff4.map Buf.addr))

variable (pos) in
theorem run_compressRound {outLen : Option ℤ} (hroom : outLen ≠ some 0) (a₃ a₄ : ℕ) (bytes₃ : List Byte) (hT : Transfer fRead fWrite past c out fs)
    (ht : t.faults = {}) {bytes₄ tei x z : List Byte} (htei : tei.length = 4) (hpage : sizeofPointer ≤ bytes₄.length)
    (hmn : m + n ≤ c.length) (hn : n ≤ 4080) (hmb : m < 2147483648) (hx : (c.drop m).take n = x) (hz : P.deflate x = z) :
    ∃ fs', (compressRound fRead fWrite (some ⟨a₃,bytes₃⟩) (some ⟨a₄,bytes₄⟩) outLen tei n m pos).run (Kernel.handle P) (t,fs) =
        (some (.ok ((n : ℤ),8,(z.length : ℤ),snprintf4 tei z.length)),
          t.afterFrame (some ⟨a₃,bytes₃⟩) (some ⟨a₄,bytes₄⟩),fs') ∧
      Transfer fRead fWrite past c (storeFrame out pos (snprintf4 tei z.length) (payload bytes₄ z)) fs' := by
  have hlenx : x.length = n := by
    rw [← hx, List.length_take_of_le (by rw [List.length_drop]; omega)]
  have hcount : readCountInto (some (⟨a₃,bytes₃⟩ : Buf)).isNone (t.faults.reads.headD .full) (fs.content fRead).length m n = n := by
    have hneg : ¬ (m : ℤ) < 0 := by omega
    rw [Option.isNone_some, readCountInto_false, ht, readCount, if_neg hneg, hT.source, Int.toNat_natCast]
    change ((min n (c.length - m) : ℕ) : ℤ) = n
    rw [min_eq_left (by omega)]
  have hread := (fileReadInto_runs P fRead t fs (some ⟨a₃,bytes₃⟩) (by omega) (by omega) n hcount).run
  rw [hT.source, Int.toNat_natCast, Int.toNat_natCast, hx] at hread
  have q₁ : Quiet t 0 (t.spend .popRead) := Quiet.spend ht .popRead rfl
  have hbuf := Bytes.take_overlay_zero 0 bytes₃ x
  have hfit := Bytes.length_le_overlay_zero 0 bytes₃ x
  rw [hlenx] at hbuf hfit
  have hcomp := run_compressBuffer P fs q₁.faults hroom hfit (by omega) ⟨a₄,bytes₄⟩
  rw [hbuf, hz] at hcomp
  have q₂ := q₁.trans (Quiet.spend q₁.faults .popComp rfl)
  have q₂ := q₂.trans (Quiet.spend q₂.faults .popCompression rfl)
  have hfour : (4 : ℤ) = (4 : ℕ) := rfl
  have hheader := handle_vfsWrite_full P ((((t.spend .popRead).spend .popComp).spend .popCompression).limit .kernelDs) fs
    fWrite (snprintf4 tei z.length) (rfl : (pos : ℤ) = pos) hfour q₂.faults (by rw [length_snprintf4 htei])
  rw [List.take_of_length_le (length_snprintf4 htei _).le] at hheader
  have hadv : advance (pos : ℤ) 4 = ((pos + 4 : ℕ) : ℤ) := rfl
  have hT₁ := hT.write pos (snprintf4 tei z.length)
  have hbody := handle_vfsWrite_full P
    (((((t.spend .popRead).spend .popComp).spend .popCompression).limit .kernelDs).spend .popWrite)
    (Function.update fs fWrite.path ((fs fWrite.path).write fWrite.inode pos (snprintf4 tei z.length)))
    fWrite (Bytes.overlay 0 bytes₄ 0 z) hadv (rfl : (sizeofPointer : ℤ) = sizeofPointer)
    (by rw [Task.spend_faults, Task.limit_faults, q₂.faults]; rfl)
    (hpage.trans (Bytes.length_old_le_overlay_zero 0 bytes₄ z))
  refine ⟨_,?_,hT₁.write (pos+4) (payload bytes₄ z)⟩
  have hlen : ¬ (z.length : ℤ) < 0 := by omega
  rw [compressRound, run_bind_some hread]
  simp only []
  rw [show filled (some ⟨a₃,bytes₃⟩) x = Bytes.overlay 0 bytes₃ 0 x from rfl, run_bind_some hcomp]
  simp only [if_neg hlen, run_bind, run_perform, handle_getFs, handle_setFs, hheader, vfsWriteFrom, hbody, freePages,
    handle_kfree, run_pure]
  rfl

/-- One round of the loop of `compress_file`. -/
theorem run_compressLoop_ok {outLen : Option ℤ} (err : ℤ) {fsize tempSize rest currReadSize currWriteSize : ℤ} {tei : List Byte}
    {b₃ b₄ : Option Buf} {t₁ t₂ : Task} {s : Kernel} (hpos : fsize > 0) (hchunk : nextChunk fsize = (tempSize,rest))
    (h₃ : Kernel.handle P (.kmalloc PAGE_SIZE) (t,fs) = (some b₃,t₁,fs))
    (h₄ : Kernel.handle P (.kmalloc PAGE_SIZE) (t₁,fs) = (some b₄,t₂,fs)) {bytes1 bytes2 err' : ℤ}
    {tei' : List Byte}
    (hround : (compressRound fRead fWrite b₃ b₄ outLen tei tempSize currReadSize currWriteSize).run
      (Kernel.handle P) (t₂,fs) = (some (.ok (bytes1,bytes2,err',tei')),s)) (rounds : ℕ) :
    (compressLoop fRead fWrite outLen (rounds+1) err tei fsize currReadSize currWriteSize).run (Kernel.handle P) (t,fs) =
      (compressLoop fRead fWrite outLen rounds err' tei' rest (CInt.toInt (currReadSize + bytes1))
        (CInt.toInt (currWriteSize + bytes2))).run (Kernel.handle P) s := by
  simp only [compressLoop, if_pos hpos, run_bind, run_perform, h₃, h₄, hchunk, hround]

/-- Each full chunk moves the write position by eight and the read position by 4080. -/
def InStep (pos m : ℕ) : Prop := 4080 * pos ≤ 8 * m

/-- Write positions grow slower than read positions and do not wrap. -/
theorem InStep.toInt {pos m r : ℕ} (h : InStep pos m) (hm : m < r) (hr : r < 2147483648) :
    CInt.toInt ((pos : ℤ) + 8) = ((pos + 8 : ℕ) : ℤ) := by
  unfold InStep at h
  have hlt : pos + 8 < 2147483648 := by omega
  rw [CInt.toInt_eq (by omega) (by omega)]
  omega

theorem InStep.next {pos m r len : ℕ} (h : InStep pos m) (hm : m < r) (hlen : len = min 4080 (r - m)) :
    m + len = r ∨ InStep (pos + 8) (m + len) := by
  rcases Nat.lt_or_ge (r - m) 4080 with hlt | hge
  · left
    rw [hlen, min_eq_right hlt.le]
    omega
  · right
    rw [InStep, hlen, min_eq_left hge, Nat.mul_add, Nat.mul_add]
    exact Nat.add_le_add h (Nat.le_refl _)

/-- The loop writes the frames of the chunks it reads, out of the first `r` bytes of the file. -/
theorem compressLoop_run {outLen : Option ℤ} (hroom : outLen ≠ some 0) {t₀ : Task} {i r : ℕ} {tei : List Byte} (err : ℤ) (hT : Transfer fRead fWrite past c out fs)
    (hq : Quiet t₀ i t) (htei : tei.length = 4) (hr : r ≤ c.length) (hrb : r < 2147483648) (hm : m ≤ r)
    (hpos : m = r ∨ InStep pos m) {rounds : ℕ} (hrounds : r - m ≤ rounds) :
    ∃ err' t' fs', (compressLoop fRead fWrite outLen rounds err tei (r - m : ℕ) m pos).run (Kernel.handle P) (t,fs) =
        (some err',t',fs') ∧ Quiet t₀ (i + 2 * (Bytes.chunks 4080 ((c.take r).drop m)).length) t' ∧
      Transfer fRead fWrite past c (encodeFrames P (fun j => t₀.found j PAGE_SIZE) i tei
        (Bytes.chunks 4080 ((c.take r).drop m)) out pos) fs' := by
  have hlenr : (c.take r).length = r := List.length_take_of_le hr
  induction rounds generalizing t fs m out pos i tei err with
  | zero =>
    have hnil : (c.take r).drop m = [] := List.drop_of_length_le (by omega)
    rw [hnil]
    exact ⟨err,t,fs,rfl,hq,hT⟩
  | succ rounds ih =>
    rcases Nat.eq_or_lt_of_le hm with hend | hlt
    · have hdone : ¬ ((r - m : ℕ) : ℤ) > 0 := by omega
      have hnil : (c.take r).drop m = [] := List.drop_of_length_le (by omega)
      rw [hnil, compressLoop, if_neg hdone]
      exact ⟨err,t,fs,rfl,hq,hT⟩
    · have hpos := hpos.resolve_left (by omega)
      have hgo : ((r - m : ℕ) : ℤ) > 0 := by omega
      obtain ⟨x,hx⟩ : ∃ x, ((c.take r).drop m).take 4080 = x := ⟨_,rfl⟩
      have hlen : x.length = min 4080 (r - m) := by rw [← hx, List.length_take, List.length_drop, hlenr]
      have hle : m + x.length ≤ r := by omega
      have hleft : r - (m + x.length) ≤ rounds := by
        have : 0 < x.length := by omega
        omega
      have hne : (c.take r).drop m ≠ [] := by
        intro hnil
        have := congrArg List.length hnil
        rw [List.length_drop, List.length_nil, hlenr] at this
        omega
      have hread : (c.drop m).take x.length = x := by
        rw [hlen, ← hx, List.drop_take, List.take_take]
      have hdrop : ((c.take r).drop m).drop 4080 = (c.take r).drop (m + x.length) := by
        rw [List.drop_drop, hlen]
        by_cases hfull : 4080 ≤ r - m
        · rw [min_eq_left hfull]
        · rw [List.drop_of_length_le (by omega), List.drop_of_length_le (by omega)]
      have hchunks : Bytes.chunks 4080 ((c.take r).drop m) =
          x :: Bytes.chunks 4080 ((c.take r).drop (m + x.length)) := by
        rw [Bytes.chunks_of_ne_nil (by omega) hne, hdrop, hx]
      have hchunk := nextChunk_natCast (r - m)
      rw [← hlen, Nat.sub_sub] at hchunk
      obtain ⟨a₃,t₁,h₃,q₁⟩ := kmalloc_quiet P hq.faults PAGE_SIZE fs
      obtain ⟨a₄,t₂,h₄,q₂⟩ := kmalloc_quiet P q₁.faults PAGE_SIZE fs
      have hfound : t₁.found 0 PAGE_SIZE = t₀.found (i+1) PAGE_SIZE := (hq.trans q₁).found 0 PAGE_SIZE
      have hq₂ := (hq.trans q₁).trans q₂
      have hpage : sizeofPointer ≤ (t₁.found 0 PAGE_SIZE).length := by
        rw [length_found]
        decide
      obtain ⟨z,hz⟩ : ∃ z, P.deflate x = z := ⟨_,rfl⟩
      obtain ⟨fs',hround,hT'⟩ := run_compressRound P (m := m) (n := x.length) pos hroom a₃ a₄
        (t.found 0 PAGE_SIZE) hT hq₂.faults htei hpage (hle.trans hr) (by omega) (hlt.trans hrb) hread hz
      have hstep := run_compressLoop_ok P err hgo hchunk h₃ h₄ hround rounds
      have hr' : CInt.toInt ((m : ℤ) + x.length) = ((m + x.length : ℕ) : ℤ) :=
        CInt.toInt_natCast (hle.trans_lt hrb)
      have hw' := hpos.toInt hlt hrb
      rw [hr', hw'] at hstep
      have hq₃ := hq₂.trans (Quiet.afterFrame hq₂.faults (some ⟨a₃,t.found 0 PAGE_SIZE⟩) (some ⟨a₄,t₁.found 0 PAGE_SIZE⟩))
      have hnext := hpos.next hlt hlen
      obtain ⟨err',t',fs'',hrun,hq',hT''⟩ := ih (z.length : ℤ) hT' hq₃ (length_snprintf4 htei z.length) hle
        hnext hleft
      have hcount : i + 2 + 2 * (Bytes.chunks 4080 ((c.take r).drop (m + x.length))).length =
          i + 2 * ((Bytes.chunks 4080 ((c.take r).drop (m + x.length))).length + 1) := by ring
      refine ⟨err',t',fs'',hstep.trans hrun,?_,?_⟩
      · rw [hchunks, List.length_cons, ← hcount]
        exact hq'
      · rw [hchunks, encodeFrames]
        simp only [hz, ← hfound]
        exact hT''

end Compress

/-! ## The encoded file -/
section Encoded
variable {P : Platform} {bufs : ℕ → List Byte} {tei out : List Byte} {xs : List (List Byte)} {i pos : ℕ}

theorem length_payload {buffer : List Byte} (h : sizeofPointer ≤ buffer.length) (z : List Byte) :
    (payload buffer z).length = 8 :=
  List.length_take_of_le (h.trans (Bytes.length_old_le_overlay_zero 0 _ _))

variable (P bufs) in
/-- The frames one behind the other. Of each payload but the last only the first half is left. -/
def frameBytes : ℕ → List Byte → List (List Byte) → List Byte
  | _, _, [] => []
  | i, tei, x :: xs =>
    let header := snprintf4 tei (P.deflate x).length
    header ++ (payload (bufs (i+1)) (P.deflate x)).take (if xs = [] then 8 else 4) ++ frameBytes (i+2) header xs

theorem length_frameBytes (htei : tei.length = 4) (hbufs : ∀ j, sizeofPointer ≤ (bufs j).length) (hne : xs ≠ []) :
    (frameBytes P bufs i tei xs).length = 8 * xs.length + 4 := by
  induction xs generalizing i tei with
  | nil => exact absurd rfl hne
  | cons x xs ih =>
    have hlenh := length_snprintf4 htei (P.deflate x).length
    have hlenb := length_payload (hbufs (i+1)) (P.deflate x)
    rw [frameBytes, List.length_append, List.length_append, hlenh, List.length_take, hlenb, List.length_cons]
    by_cases hxs : xs = []
    · subst hxs
      rfl
    · rw [if_neg hxs, ih hlenh hxs]
      omega

variable (xs) in
/-- A frame is written over the last four bytes of the frame before it, and over nothing else. -/
theorem encodeFrames_eq (htei : tei.length = 4) (hbufs : ∀ j, sizeofPointer ≤ (bufs j).length) (hpos : pos ≤ out.length) :
    encodeFrames P bufs i tei xs out pos = Bytes.overlay 0 out pos (frameBytes P bufs i tei xs) := by
  induction xs generalizing i tei out pos with
  | nil => rfl
  | cons x xs ih =>
    obtain ⟨header,hh⟩ : ∃ header, snprintf4 tei (P.deflate x).length = header := ⟨_,rfl⟩
    obtain ⟨body,hb⟩ : ∃ body, payload (bufs (i+1)) (P.deflate x) = body := ⟨_,rfl⟩
    have hlenh : header.length = 4 := by rw [← hh, length_snprintf4 htei]
    have hlenb : body.length = 8 := by rw [← hb, length_payload (hbufs _)]
    have hstore : storeFrame out pos header body = Bytes.overlay 0 out pos (header ++ body) := by
      have hjoin := Bytes.overlay_overlap 0 body hpos hlenh.ge (by omega)
      rw [List.take_of_length_le hlenh.le] at hjoin
      exact hjoin
    have hlong : pos + 8 ≤ (Bytes.overlay 0 out pos (header ++ body)).length := by
      rw [Bytes.overlay_of_le _ _ hpos]
      simp only [List.length_append, List.length_take_of_le hpos, hlenh, hlenb]
      omega
    rw [encodeFrames, frameBytes]
    simp only [hh, hb, hstore]
    rw [ih hlenh hlong]
    by_cases hxs : xs = []
    · subst hxs
      rw [if_pos rfl, List.take_of_length_le hlenb.le]
      simp [frameBytes]
    · have hrest := length_frameBytes (P := P) (i := i+2) hlenh hbufs hxs
      rw [if_neg hxs, Bytes.overlay_overlap 0 _ hpos (by rw [List.length_append]; omega)
        (by rw [List.length_append]; omega), List.take_append, hlenh, List.take_of_length_le (by omega)]

end Encoded

/-! ## Both loops together -/

/-- The file that `compress_file` makes of `c`. -/
def encodedFile (P : Platform) (t : Task) (c : List Byte) : List Byte :=
  encodeFrames P (fun j => t.found j PAGE_SIZE) 0 (leftover t.stack 4)
    (Bytes.chunks 4080 (c.take (CInt.toInt c.length).toNat)) [] 0

section Together
variable (P : Platform) {t t' : Task} {fs fs' : Fs} {fRead fWrite r w : File} {past past' : List (List Byte)}
  {c old E : List Byte}

/-- A page holds more than a pointer. -/
theorem sizeofPointer_le_found (t : Task) (j : ℕ) : sizeofPointer ≤ (t.found j PAGE_SIZE).length := by
  rw [length_found]
  decide

theorem encodedFile_eq (t : Task) (c : List Byte) : encodedFile P t c =
    frameBytes P (fun j => t.found j PAGE_SIZE) 0 (leftover t.stack 4) (Bytes.chunks 4080 (c.take (CInt.toInt c.length).toNat)) := by
  rw [encodedFile, encodeFrames_eq _ (length_leftover t.stack 4) (sizeofPointer_le_found t) (Nat.zero_le _), Bytes.overlay_start]

/-- What is written over `old` does not depend on it. -/
theorem encodeFrames_over (t : Task) (c old : List Byte) : encodeFrames P (fun j => t.found j PAGE_SIZE) 0 (leftover t.stack 4)
    (Bytes.chunks 4080 (c.take (CInt.toInt c.length).toNat)) old 0 = Bytes.overlay 0 old 0 (encodedFile P t c) := by
  rw [encodeFrames_eq _ (length_leftover t.stack 4) (sizeofPointer_le_found t) (Nat.zero_le _), encodedFile_eq]

theorem toInt_le (n : ℕ) : (CInt.toInt n).toNat ≤ n ∧ (CInt.toInt n).toNat < 2147483648 := by
  unfold CInt.toInt
  omega

theorem compressFileInto_run {outLen : Option ℤ} (hroom : outLen ≠ some 0) (hT : Transfer fRead fWrite past c old fs)
    (ht : t.faults = {}) : ∃ err t' fs', (compressFileInto outLen fRead fWrite).run (Kernel.handle P) (t,fs) = (some err,t',fs') ∧
      Transfer fRead fWrite past c (Bytes.overlay 0 old 0 (encodedFile P t c)) fs' := by
  obtain ⟨hle,hlt⟩ := toInt_le c.length
  have hstart : InStep 0 0 := Nat.le_refl 0
  have hrun : ∃ err t' fs', (compressLoop fRead fWrite outLen (CInt.toInt c.length).toNat 0 (leftover t.stack 4)
      (CInt.toInt c.length) 0 0).run (Kernel.handle P) (t,fs) = (some err,t',fs') ∧
      Transfer fRead fWrite past c (Bytes.overlay 0 old 0 (encodedFile P t c)) fs' := by
    rcases Int.lt_or_le 0 (CInt.toInt c.length) with hpos | hneg
    · obtain ⟨err,t',fs',hrun,-,hT'⟩ := compressLoop_run P hroom 0 hT (Quiet.refl ht) (length_leftover t.stack 4) hle hlt
        (Nat.zero_le _) (.inr hstart) (show (CInt.toInt c.length).toNat - 0 ≤ (CInt.toInt c.length).toNat by omega)
      have hfsize : (((CInt.toInt c.length).toNat - 0 : ℕ) : ℤ) = CInt.toInt c.length := by omega
      rw [hfsize, Nat.cast_zero] at hrun
      rw [List.drop_zero, encodeFrames_over] at hT'
      exact ⟨err,t',fs',hrun,hT'⟩
    · have hzero : (CInt.toInt c.length).toNat = 0 := Int.toNat_of_nonpos hneg
      refine ⟨0,t,fs,?_,?_⟩
      · rw [hzero]
        rfl
      · rw [encodedFile, hzero]
        exact hT
  obtain ⟨err,t',fs',hrun,hT'⟩ := hrun
  refine ⟨err,t',fs',?_,hT'⟩
  simp only [compressFileInto, run_bind, run_perform, handle_stackBytes, handle_iSizeRead, hT.source]
  exact hrun

theorem compressFile_stores (hT : Transfer fRead fWrite past c [] fs) (ht : t.faults = {}) :
    ((compressFile fRead fWrite).run (Kernel.handle P) (t,fs)).2.2.entry fWrite.path = some (encodedFile P t c) := by
  have hroom : (none : Option ℤ) ≠ some 0 := by simp
  obtain ⟨err,t',fs',hrun,hT'⟩ := compressFileInto_run P hroom hT ht
  rw [Bytes.overlay_start] at hT'
  rw [compressFile, hrun]
  exact hT'.entry

/-- With a pointer for its capacity the compressor does the same, out of pages that are one allocation later. -/
theorem compressFileXclone_run (hT : Transfer fRead fWrite past c old fs) (ht : t.faults = {}) :
    ∃ err t' fs', (compressFileXclone fRead fWrite).run (Kernel.handle P) (t,fs) = (some err,t',fs') ∧
      Transfer fRead fWrite past c (Bytes.overlay 0 old 0 (encodedFile P t.dig c)) fs' := by
  obtain ⟨a,t₁,hcall,q⟩ := kmalloc_quiet P ht 4 fs
  have hroom : some (truncated (some a)) ≠ some 0 := by
    have hpos : truncated (some a) = a + 1 := rfl
    rw [hpos, ne_eq, Option.some.injEq]
    omega
  have hsecond : (compressFileXclone fRead fWrite).run (Kernel.handle P) (t,fs) =
      (compressFileInto (some (truncated (some a))) fRead fWrite).run (Kernel.handle P) (t₁,fs) := by
    simp only [compressFileXclone, run_bind, run_perform, hcall]
    rfl
  have hsame : encodedFile P t₁ c = encodedFile P t.dig c := by
    simp only [encodedFile, Task.found, q.garbage, q.stack, List.drop_one, Task.dig_garbage, Task.dig_stack]
  rw [hsecond, ← hsame]
  exact compressFileInto_run P hroom hT q.faults

theorem encodedFile_nil : encodedFile P t [] = [] := rfl

/-- Eight bytes for each chunk and four more. -/
theorem length_encodedFile_le (c : List Byte) :
    (encodedFile P t c).length ≤ 8 * (Bytes.chunks 4080 (c.take (CInt.toInt c.length).toNat)).length + 4 := by
  rw [encodedFile_eq]
  by_cases hxs : Bytes.chunks 4080 (c.take (CInt.toInt c.length).toNat) = []
  · rw [hxs]
    exact Nat.zero_le _
  · exact (length_frameBytes (length_leftover t.stack 4) (sizeofPointer_le_found t) hxs).le

theorem headerSize_le {n : ℕ} (h : n < 10000) : headerSize n ≤ 999 := by
  unfold headerSize
  split <;> omega

/-- What stands behind the first header when at most a page is encoded: eight bytes of the first
compressed chunk, or four of them and a second frame. -/
def behindHeader (P : Platform) (tei page₁ page₂ c : List Byte) : List Byte :=
  let z₁ := P.deflate (c.take (PAGE_SIZE - 16))
  let z₂ := P.deflate (c.drop (PAGE_SIZE - 16))
  if c.length ≤ PAGE_SIZE - 16 then payload page₁ z₁
  else (payload page₁ z₁).take 4 ++ snprintf4 (snprintf4 tei z₁.length) z₂.length ++ payload page₂ z₂

/-- The encoding of at most a page. -/
theorem encodedFile_page (hne : c ≠ []) (hlen : c.length ≤ PAGE_SIZE) :
    encodedFile P t c = snprintf4 (leftover t.stack 4) (P.deflate (c.take (PAGE_SIZE - 16))).length ++
      behindHeader P (leftover t.stack 4) (t.found 1 PAGE_SIZE) (t.found 3 PAGE_SIZE) c := by
  have hpage : c.length ≤ 4096 := hlen
  have hint : (CInt.toInt c.length).toNat = c.length := by
    rw [CInt.toInt_natCast (by omega), Int.toNat_natCast]
  have hchunks : Bytes.chunks 4080 c = c.take 4080 :: Bytes.chunks 4080 (c.drop 4080) :=
    Bytes.chunks_of_ne_nil (by omega) hne
  have hpayload : ∀ j z, (payload (t.found j PAGE_SIZE) z).take 8 = payload (t.found j PAGE_SIZE) z := fun j z =>
    List.take_of_length_le (length_payload (sizeofPointer_le_found t j) z).le
  rw [encodedFile_eq, behindHeader, hint, List.take_length, hchunks, frameBytes]
  by_cases hshort : c.length ≤ 4080
  · rw [if_pos (show c.length ≤ PAGE_SIZE - 16 from hshort), List.drop_of_length_le hshort, Bytes.chunks_nil, if_pos rfl,
      hpayload]
    simp [frameBytes, PAGE_SIZE]
  · have hrest : c.drop 4080 ≠ [] := by
      intro hnil
      have hzero := congrArg List.length hnil
      rw [List.length_drop, List.length_nil] at hzero
      omega
    have hlast : Bytes.chunks 4080 (c.drop 4080) = [c.drop 4080] := by
      have hlend : (c.drop 4080).length ≤ 4080 := by
        rw [List.length_drop]
        omega
      rw [Bytes.chunks_of_ne_nil (by omega) hrest, List.take_of_length_le hlend, List.drop_of_length_le hlend,
        Bytes.chunks_nil]
    rw [if_neg (show ¬ c.length ≤ PAGE_SIZE - 16 from hshort), hlast, if_neg (List.cons_ne_nil _ _), frameBytes, if_pos rfl,
      hpayload]
    simp [frameBytes, PAGE_SIZE]

/-- The decoder gets one block out of it, as long as the first header says. -/
theorem decompressFile_page (hT : Transfer r w past' (encodedFile P t c) [] fs') (ht' : t'.faults = {}) (hne : c ≠ [])
    (hlen : c.length ≤ PAGE_SIZE) (hdeflate : ∀ x, x.length ≤ PAGE_SIZE - 16 → (P.deflate x).length ≤ PAGE_SIZE) :
    ((decompressFile r w).run (Kernel.handle P) (t',fs')).2.2.entry w.path = some (P.inflate
      (readBack (t'.found 0 PAGE_SIZE) (behindHeader P (leftover t.stack 4) (t.found 1 PAGE_SIZE) (t.found 3 PAGE_SIZE) c)
        (headerSize (P.deflate (c.take (PAGE_SIZE - 16))).length))) := by
  have hpage : c.length ≤ 4096 := hlen
  have hcalm : Calm t' := by
    constructor
    all_goals rw [ht']
  have hz : (P.deflate (c.take (PAGE_SIZE - 16))).length < 10000 :=
    (hdeflate (c.take (PAGE_SIZE - 16)) (List.length_take_le _ _)).trans_lt (by decide)
  obtain ⟨tail,htail⟩ := snprintf4_eq (leftover t.stack 4) hz
  have hlenh := length_snprintf4 (length_leftover t.stack 4) (P.deflate (c.take (PAGE_SIZE - 16))).length
  have hE := encodedFile_page P (t := t) hne hlen
  have htake := congrArg (List.take 4) hE
  have hdrop := congrArg (List.drop 4) hE
  rw [List.take_left' hlenh] at htake
  rw [List.drop_left' hlenh] at hdrop
  have hsmall := headerSize_le hz
  have hparse := parseInt_header (p := headerSize (P.deflate (c.take (PAGE_SIZE - 16))).length) (by omega) tail
  rw [← htail] at hparse
  have hzero : 0 ∈ snprintf4 (leftover t.stack 4) (P.deflate (c.take (PAGE_SIZE - 16))).length := by
    rw [htail]
    exact List.mem_append_right _ List.mem_cons_self
  have hsize := length_encodedFile_le P (t := t) c
  rw [Bytes.length_chunks (by omega), List.length_take] at hsize
  have hshort : (encodedFile P t c).length ≤ 20 := by omega
  have hstored := decompressFile_first P hT hcalm (by rw [ht']; rfl) (by rw [ht']; rfl) htake hlenh hzero hparse
    (hsmall.trans (by decide)) (hshort.trans (by decide))
  rw [hstored, hdrop]

/-- More than a page never comes back: there are too few rounds. -/
theorem decompressFile_long (hT : Transfer r w past' (encodedFile P t c) [] fs') (ht' : t'.faults = {})
    (hlen : PAGE_SIZE < c.length) (hinflate : ∀ x, (P.inflate x).length ≤ PAGE_SIZE) :
    ((decompressFile r w).run (Kernel.handle P) (t',fs')).2.2.entry w.path ≠ some c := by
  intro hout
  have hcalm : Calm t' := by
    constructor
    all_goals rw [ht']
  have hlong : 4096 < c.length := hlen
  have hbound := decompressFile_bound P hinflate hT hcalm hout
  have hsize := length_encodedFile_le P (t := t) c
  rw [Bytes.length_chunks (by omega), List.length_take] at hsize
  omega

/-- A single chunk is read back as it was compressed if its length keeps its digits and the page holds the
bytes that were not stored. -/
theorem readBack_iff (tei page₂ : List Byte) {page₁ page : List Byte} (hlen : c.length ≤ PAGE_SIZE - 16)
    (hpage₁ : page₁.length = PAGE_SIZE) (hpage : page.length = PAGE_SIZE) (hz : (P.deflate c).length ≤ PAGE_SIZE) :
    readBack page (behindHeader P tei page₁ page₂ c) (headerSize (P.deflate (c.take (PAGE_SIZE - 16))).length) =
        P.deflate c ↔
      (P.deflate c).length ≤ 999 ∧ (P.deflate c).drop 8 = (page.drop 8).take ((P.deflate c).length - 8) := by
  obtain ⟨z,hzz⟩ : ∃ z, P.deflate c = z := ⟨_,rfl⟩
  unfold PAGE_SIZE at hpage₁ hpage hz
  rw [hzz] at hz
  have hbehind : behindHeader P tei page₁ page₂ c = payload page₁ z := by
    rw [behindHeader, if_pos hlen, List.take_of_length_le hlen, hzz]
  rw [hbehind, List.take_of_length_le hlen, hzz]
  have hlenb := length_payload (hpage₁ ▸ (by decide : sizeofPointer ≤ 4096)) z
  have hheader : headerSize z.length ≤ 999 := headerSize_le (by omega)
  -- the page: what was stored, and behind it what it held
  have hlenr : (readBack page (payload page₁ z) (headerSize z.length)).length = headerSize z.length := by
    have hold := Bytes.length_old_le_overlay_zero 0 page ((payload page₁ z).take (headerSize z.length))
    rw [readBack, List.length_take_of_le (by omega)]
  by_cases hfits : z.length ≤ 999
  swap
  · refine iff_of_false (fun heq => ?_) (fun h => hfits h.1)
    have hlenz := congrArg List.length heq
    omega
  have hsize : headerSize z.length = z.length := if_pos (by omega)
  rw [hsize, and_iff_right hfits]
  have hpay : (payload page₁ z).take z.length = z.take 8 := by
    have hover := Bytes.take_overlay_zero 0 page₁ z
    have hwhole : ((Bytes.overlay 0 page₁ 0 z).take 8).take z.length = ((Bytes.overlay 0 page₁ 0 z).take z.length).take 8 := by
      rw [List.take_take, List.take_take, min_comm]
    exact hwhole.trans (congrArg (List.take 8) hover)
  have hblock : readBack page (payload page₁ z) z.length = z.take 8 ++ (page.drop 8).take (z.length - 8) := by
    rw [readBack, hpay, Bytes.overlay_of_le _ _ (Nat.zero_le _), List.take_zero, List.nil_append, Nat.zero_add,
      List.take_append, List.take_of_length_le (List.length_take_le' 8 z), List.length_take]
    rcases Nat.le_total z.length 8 with hle | hge
    · rw [min_eq_right hle, Nat.sub_self, Nat.sub_eq_zero_of_le hle]
      simp
    · rw [min_eq_left hge]
  rw [hblock]
  calc z.take 8 ++ (page.drop 8).take (z.length - 8) = z
      ↔ z.take 8 ++ (page.drop 8).take (z.length - 8) = z.take 8 ++ z.drop 8 := by rw [List.take_append_drop]
    _ ↔ z.drop 8 = (page.drop 8).take (z.length - 8) := by
      rw [List.append_cancel_left_eq]
      exact eq_comm

/-- Whether the decoder stores `c` out of a file it reads. -/
def Restores (P : Platform) (r w : File) (c : List Byte) (s : Kernel) : Prop :=
  ((decompressFile r w).run (Kernel.handle P) s).2.2.entry w.path = some c

/-- `decompress_file` restores what `compress_file` was given exactly for the empty file and for a file
within a page whose first block decompresses to the whole of it. If nothing else decompresses to it, that is so
for a file of one chunk when the header keeps all digits of the compressed length and the page happens to hold
what is compressed behind the eight bytes that are stored. -/
theorem compress_decompress_iff (hT : Transfer fRead fWrite past c [] fs) (ht : t.faults = {})
    (hE : ((compressFile fRead fWrite).run (Kernel.handle P) (t,fs)).2.2.entry fWrite.path = some E)
    (hT' : Transfer r w past' E [] fs') (ht' : t'.faults = {})
    (hinverse : ∀ x, x.length ≤ PAGE_SIZE - 16 → P.inflate (P.deflate x) = x)
    (hdeflate : ∀ x, x.length ≤ PAGE_SIZE - 16 → (P.deflate x).length ≤ PAGE_SIZE)
    (hinflate : ∀ x, (P.inflate x).length ≤ PAGE_SIZE) :
    (Restores P r w c (t',fs') ↔ c = [] ∨ c.length ≤ PAGE_SIZE ∧ P.inflate
      (readBack (t'.found 0 PAGE_SIZE) (behindHeader P (leftover t.stack 4) (t.found 1 PAGE_SIZE) (t.found 3 PAGE_SIZE) c)
        (headerSize (P.deflate (c.take (PAGE_SIZE - 16))).length)) = c) ∧
    (c ≠ [] → c.length ≤ PAGE_SIZE - 16 → (∀ x, P.inflate x = c → x = P.deflate c) →
      (Restores P r w c (t',fs') ↔ (P.deflate c).length ≤ 999 ∧
        (P.deflate c).drop 8 = ((t'.found 0 PAGE_SIZE).drop 8).take ((P.deflate c).length - 8))) ∧
    (c.length ≤ PAGE_SIZE - 16 → (P.deflate c).length ≤ 8 → Restores P r w c (t',fs')) := by
  have hfile : encodedFile P t c = E := by
    rw [compressFile_stores P hT ht] at hE
    exact Option.some_inj.mp hE
  rw [← hfile] at hT'
  have hiff : Restores P r w c (t',fs') ↔ c = [] ∨ c.length ≤ PAGE_SIZE ∧ P.inflate
      (readBack (t'.found 0 PAGE_SIZE) (behindHeader P (leftover t.stack 4) (t.found 1 PAGE_SIZE) (t.found 3 PAGE_SIZE) c)
        (headerSize (P.deflate (c.take (PAGE_SIZE - 16))).length)) = c := by
    by_cases hne : c = []
    · subst hne
      rw [encodedFile_nil] at hT'
      exact iff_of_true (decompressFile_nil P t' hT') (.inl rfl)
    rcases Nat.lt_or_ge PAGE_SIZE c.length with hlong | hshort
    · refine iff_of_false (decompressFile_long P hT' ht' hlong hinflate) (fun h => ?_)
      exact h.elim hne (fun h => absurd h.1 (Nat.not_le.mpr hlong))
    · rw [Restores, decompressFile_page P hT' ht' hne hshort hdeflate, Option.some.injEq]
      exact ⟨fun h => .inr ⟨hshort,h⟩,fun h => (h.resolve_left hne).2⟩
  have hback : c.length ≤ PAGE_SIZE - 16 → _ := fun hlen =>
    readBack_iff P (leftover t.stack 4) (t.found 3 PAGE_SIZE) hlen (length_found t 1 PAGE_SIZE)
      (length_found t' 0 PAGE_SIZE) (hdeflate c hlen)
  refine ⟨hiff,fun hne hlen hunique => ?_,fun hlen hz => ?_⟩
  · rw [hiff, ← hback hlen]
    constructor
    · rintro (h | ⟨-,h⟩)
      · exact absurd h hne
      · exact hunique _ h
    · intro h
      rw [h, hinverse c hlen]
      exact .inr ⟨hlen.trans (by decide),rfl⟩
  · rw [hiff]
    by_cases hne : c = []
    · exact .inl hne
    · have hstored := (hback hlen).mpr ⟨hz.trans (by decide),by
        rw [List.drop_of_length_le hz, Nat.sub_eq_zero_of_le hz, List.take_zero]⟩
      rw [hstored, hinverse c hlen]
      exact .inr ⟨hlen.trans (by decide),rfl⟩

end Together

/-- Nine bytes, of which eight are stored. -/
theorem compress_decompress_loses :
    ¬ Restores .keeping ⟨['/','t'],0⟩ ⟨['/','o'],0⟩ [1,2,3,4,5,6,7,8,9]
      ((compressFile ⟨['/','a'],0⟩ ⟨['/','t'],0⟩).run (Kernel.handle .keeping) (Task.fresh ['/'] 0 {},
        Fs.ofList [(['/','a'],[1,2,3,4,5,6,7,8,9]),(['/','t'],[]),(['/','o'],[])])).2 := by
  unfold Restores
  decide +kernel

/-- Of eight bytes all are stored. -/
theorem compress_decompress_eight :
    let t := Task.fresh ['/'] 0 {}
    let E : List Byte := [56,0,0,0,1,2,3,4,5,6,7,8]
    let s : Kernel := (t,Fs.ofList [(['/','t'],E),(['/','o'],[])])
    let c : List Byte := [1,2,3,4,5,6,7,8]
    (Restores .keeping ⟨['/','t'],0⟩ ⟨['/','o'],0⟩ c s ↔ c = [] ∨ c.length ≤ PAGE_SIZE ∧ Platform.keeping.inflate
      (readBack (t.found 0 PAGE_SIZE) (behindHeader .keeping (leftover t.stack 4) (t.found 1 PAGE_SIZE) (t.found 3 PAGE_SIZE) c)
        (headerSize (Platform.keeping.deflate (c.take (PAGE_SIZE - 16))).length)) = c) ∧
    (c ≠ [] → c.length ≤ PAGE_SIZE - 16 → (∀ x, Platform.keeping.inflate x = c → x = Platform.keeping.deflate c) →
      (Restores .keeping ⟨['/','t'],0⟩ ⟨['/','o'],0⟩ c s ↔ (Platform.keeping.deflate c).length ≤ 999 ∧
        (Platform.keeping.deflate c).drop 8 =
          ((t.found 0 PAGE_SIZE).drop 8).take ((Platform.keeping.deflate c).length - 8))) ∧
    (c.length ≤ PAGE_SIZE - 16 → (Platform.keeping.deflate c).length ≤ 8 →
      Restores .keeping ⟨['/','t'],0⟩ ⟨['/','o'],0⟩ c s) := by
  intro t E s c
  have hT : Transfer ⟨['/','a'],0⟩ ⟨['/','t'],0⟩ [] c [] (Fs.ofList [(['/','a'],c),(['/','t'],[])]) :=
    ⟨rfl,rfl,rfl,by decide⟩
  have hE : ((compressFile ⟨['/','a'],0⟩ ⟨['/','t'],0⟩).run (Kernel.handle .keeping) (t,
      Fs.ofList [(['/','a'],c),(['/','t'],[])])).2.2.entry ['/','t'] = some E := by
    decide +kernel
  have hT' : Transfer ⟨['/','t'],0⟩ ⟨['/','o'],0⟩ [] E [] s.2 := ⟨rfl,rfl,rfl,by decide⟩
  exact compress_decompress_iff .keeping hT rfl hE hT' rfl
    (fun x hx => List.take_of_length_le (hx.trans (by decide))) (fun x hx => hx.trans (by decide))
    (fun x => List.length_take_le _ _)

end XClone
