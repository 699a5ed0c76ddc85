import XClone.Library.Memory
import XClone.Sync.Contracts

/-! # The bounds of one chunk

What the cipher is given is judged by the read before it: a memory keeps the result of the
last read of a run. A chunk of at most a page less one block leaves room for its padding.
-/
namespace XClone
open Effects Prog

/-- `char pad[48]` of `clone_encryption`. -/
def padCapacity : ℕ := 48

/-- The result of the last read. -/
def lastRead : (c : Call) → Answer c → Option (ℤ × List Byte) → Option (ℤ × List Byte)
  | .vfsRead _ _ _, r, _ => some r
  | .vfsReadNull _ _ _, n, _ => some (n,[])
  | _, _, g => g

/-- A read hands out as many bytes as it counts, and no more than it was asked for; through `NULL` there are none. -/
def HonestRead : (c : Call) → Answer c → Prop
  | .vfsRead _ _ len, r => 0 ≤ len → r.1 ≤ len ∧ r.2.length = r.1.toNat
  | .vfsReadNull _ _ len, n => 0 ≤ len → n ≤ 0
  | _, _ => True

theorem handle_honestRead (P : Platform) (c : Call) (s : Kernel) (r : Answer c) (hr : (Kernel.handle P c s).1 = some r) :
    HonestRead c r := by
  obtain ⟨t,fs⟩ := s
  cases c with
  | vfsRead f pos len =>
    intro hlen
    obtain ⟨n,rfl⟩ := Int.eq_ofNat_of_zero_le hlen
    change (Kernel.handle P (.vfsRead f pos (n : ℤ)) (t,fs)).1 = some r at hr
    rw [handle_vfsRead_count P f t fs pos n rfl] at hr
    obtain rfl := Option.some.inj hr
    have hle := readCount_le (t.faults.reads.headD .full) (fs.content f).length pos n
    have hrest := readCount_le_rest (t.faults.reads.headD .full) (fs.content f).length pos n
    refine ⟨hle,?_⟩
    rw [List.length_take, List.length_drop]
    omega
  | vfsReadNull f pos len =>
    intro _
    have hle := (t.faults.reads.headD .full).countNull_nonpos (((fs.content f).drop pos.toNat).take len.toNat).length
    simp only [Kernel.handle] at hr
    split at hr
    · have he : einval = r := Option.some.inj hr
      exact he ▸ (show einval ≤ 0 by decide)
    · obtain rfl := Option.some.inj hr
      exact hle
  | _ => trivial

/-- The cipher is given `src` and told `nbytes` after a read that returned `r` and `x`. -/
structure ChunkFits (r : ℤ) (x src : List Byte) (nbytes : ℕ) : Prop where
  padded : 1 ≤ (src.length : ℤ) - r ∧ (src.length : ℤ) - r ≤ 16
  padFits : (src.length : ℤ) - r ≤ padCapacity
  whole : nbytes = src.length
  blocks : 16 ∣ nbytes
  larger : r < nbytes
  fits : nbytes ≤ PAGE_SIZE
  strips : ∃ b, src.getLast? = some b ∧ src.take (src.length - b.toNat) = x

/-- The chunk with its padding, as `clone_encryption` lays it out. -/
theorem chunkFits_padded {buf x : List Byte} {r : ℤ} (hr : 0 ≤ r) (hr' : r ≤ 4080) (hx : x.length = r.toNat)
    (hbuf : buf.take x.length = x) :
    ChunkFits r x (buf.take (CInt.toSize r) ++
        List.replicate (16 - CInt.toSize r % 16) (UInt8.ofNat (16 - CInt.toSize r % 16)))
      (CInt.toUInt (CInt.toSize ((CInt.toSize r : ℤ) + ((16 - CInt.toSize r % 16 : ℕ) : ℤ)))) := by
  obtain ⟨n,rfl⟩ := Int.eq_ofNat_of_zero_le hr
  have hsize : CInt.toSize ((n : ℕ) : ℤ) = n := CInt.toSize_natCast (by omega)
  rw [hx, Int.toNat_natCast] at hbuf
  have hdst : CInt.toUInt (CInt.toSize ((n : ℤ) + ((16 - n % 16 : ℕ) : ℤ))) = n + (16 - n % 16) := by
    unfold CInt.toUInt CInt.toSize
    omega
  have hlen : (x ++ List.replicate (16 - n % 16) (UInt8.ofNat (16 - n % 16))).length = n + (16 - n % 16) := by
    rw [List.length_append, List.length_replicate, hx, Int.toNat_natCast]
  have hpad := BlockCipher.dvd_add_padLength (n := 16) (by omega) n
  simp only [hsize, hbuf, hdst]
  have hlast : (x ++ List.replicate (16 - n % 16) (UInt8.ofNat (16 - n % 16))).getLast? = some (UInt8.ofNat (16 - n % 16)) := by
    rw [List.getLast?_append, List.getLast?_replicate, if_neg (by omega), Option.some_or]
  have hbyte : (UInt8.ofNat (16 - n % 16)).toNat = 16 - n % 16 := UInt8.toNat_ofNat_of_lt' (by unfold UInt8.size; omega)
  constructor
  · rw [hlen]
    omega
  · rw [hlen, padCapacity]
    omega
  · exact hlen.symm
  · exact hpad
  · omega
  · unfold PAGE_SIZE
    omega
  · refine ⟨_,hlast,?_⟩
    rw [hlen, hbyte, Nat.add_sub_cancel]
    exact List.take_left' (by rw [hx, Int.toNat_natCast])

/-- What is remembered by a call of the cipher vouches for its input. -/
def CipherFits (c : Call) (g : Option (ℤ × List Byte)) : Prop :=
  ∀ keyBytes src nbytes, c = .cryptoBlkcipherEncrypt keyBytes src nbytes →
    ∃ r x, g = some (r,x) ∧ (0 ≤ r → ChunkFits r x src nbytes)

/-- The chunks of a file leave nothing out and never more than the file has. -/
theorem nextChunk_bounds {fsize : ℤ} (h : fsize > 0) :
    0 < (nextChunk fsize).1 ∧ (nextChunk fsize).1 ≤ PAGE_SIZE - 16 ∧ 0 ≤ (nextChunk fsize).2 ∧
      (nextChunk fsize).1 + (nextChunk fsize).2 = fsize := by
  unfold nextChunk PAGE_SIZE
  split
  · simp only []
    omega
  · simp only []
    omega

section Heeding
variable {α β : Type}

abbrev InBounds (p : KProg α) (g : Option (ℤ × List Byte)) : Prop := Heeds lastRead CipherFits HonestRead p g

/-- The contract of whoever leaves the cipher alone. -/
theorem noCipher_contract : Contract (fun c => ∀ keyBytes src n, c ≠ .cryptoBlkcipherEncrypt keyBytes src n) HonestRead where
  plain := by
    rintro c hplain keyBytes src n rfl
    exact hplain.elim
  raise := by simp
  restore := by simp
  release := by simp
  releaseNull := by simp

theorem inBounds_of_obeys {p : KProg α} (hp : Obeys (fun c => ∀ keyBytes src n, c ≠ .cryptoBlkcipherEncrypt keyBytes src n)
    HonestRead p) (g : Option (ℤ × List Byte)) : InBounds p g :=
  hp.heeds (fun _ _ hc keyBytes src n h => absurd h (hc keyBytes src n)) g

theorem inBounds_call {c : Call} (hc : ∀ keyBytes src n, c ≠ .cryptoBlkcipherEncrypt keyBytes src n) (g : Option (ℤ × List Byte)) :
    InBounds (kcall c) g := inBounds_of_obeys (Obeys.call hc) g

/-- What is left of a round behind the cipher. -/
theorem inBounds_stored (fWrite : File) (b₃ b₄ : Option Buf) (r wpos : ℤ) (x : ℤ × ℕ × Option (List Byte))
    (g : Option (ℤ × List Byte)) : InBounds (if x.1 < 0 then do
      freePages b₃ b₄
      return Except.error x.1
    else do
      let bytes2 ← fileWriteFrom fWrite wpos x.2.2 (CInt.toInt x.2.1)
      freePages b₃ b₄
      return Except.ok (r,bytes2)) g := by
  have hfree : Obeys (fun c => ∀ keyBytes src n, c ≠ .cryptoBlkcipherEncrypt keyBytes src n) HonestRead
      (freePages b₃ b₄) := Contract.freePages (by simp) (by simp)
  apply inBounds_of_obeys
  by_cases hx : x.1 < 0
  · rw [if_pos hx]
    exact hfree.bind (fun _ => Obeys.pure _)
  · rw [if_neg hx]
    exact (noCipher_contract.transfers.fileWriteFrom _ _ _ _).bind (fun _ => hfree.bind (fun _ => Obeys.pure _))

/-- The cipher of a round, after a read that left `x` at the front of the page. -/
theorem inBounds_cloneEncryption (fWrite : File) (keyBytes : List Byte) (b₃ b₄ : Option Buf) {buf x : List Byte} {r : ℤ}
    (hr : r ≤ 4080) (hx : x.length = r.toNat) (hbuf : buf.take x.length = x) (wpos : ℤ) :
    InBounds (do
      let (err,dstLen,dst) ← cloneEncryption keyBytes b₄ buf (CInt.toSize r)
      if err < 0 then
        freePages b₃ b₄
        return Except.error err
      else
        let bytes2 ← fileWriteFrom fWrite wpos dst (CInt.toInt dstLen)
        freePages b₃ b₄
        return Except.ok (r,bytes2)) (some (r,x)) := by
  rw [cloneEncryption, bind_assoc]
  refine Heeds.call (by simp [CipherFits]) (fun tfm _ => ?_)
  by_cases htfm : tfm < 0
  · rw [if_pos htfm, pure_bind]
    exact inBounds_stored fWrite b₃ b₄ r wpos (tfm,0,none) _
  · rw [if_neg htfm, bind_assoc]
    refine Heeds.call (by simp [CipherFits]) (fun keyed _ => ?_)
    rw [bind_assoc]
    refine Heeds.call ?_ (fun ret _ => ?_)
    · rintro keyBytes' src nbytes ⟨rfl,rfl,rfl⟩
      exact ⟨r,x,rfl,fun hpos => chunkFits_padded hpos hr hx hbuf⟩
    · rw [bind_assoc]
      refine Heeds.bind (inBounds_of_obeys (noCipher_contract.storeOutput _ _)) (fun stored g => ?_) _
      exact inBounds_stored fWrite b₃ b₄ r wpos (0,_,stored) g

theorem inBounds_encryptRound (fRead fWrite : File) (key : Ptr) (b₃ b₄ : Option Buf) {tempSize : ℤ} (hlow : 0 ≤ tempSize)
    (hhigh : tempSize ≤ 4080) (pos wpos : ℤ) (g : Option (ℤ × List Byte)) :
    InBounds (encryptRound fRead fWrite key b₃ b₄ tempSize pos wpos) g := by
  simp only [encryptRound, fileReadInto, bind_assoc, pure_bind]
  refine Heeds.call (by simp [CipherFits]) (fun seg _ => Heeds.call (by simp [CipherFits]) (fun _ _ => ?_))
  cases b₃ with
  | none =>
    rw [vfsReadInto, bind_assoc]
    refine Heeds.call (by simp [CipherFits]) (fun r hr => ?_)
    rw [pure_bind]
    refine Heeds.call (by simp [CipherFits]) (fun _ _ => Heeds.call (by simp [CipherFits]) (fun keyBytes _ => ?_))
    have hle : r ≤ 0 := hr hlow
    have hcap : r ≤ 4080 := Int.le_trans hle (show (0 : ℤ) ≤ 4080 by decide)
    exact inBounds_cloneEncryption fWrite keyBytes none b₄ hcap (by simp [Int.toNat_of_nonpos hle]) rfl wpos
  | some b =>
    rw [vfsReadInto, bind_assoc]
    refine Heeds.call (by simp [CipherFits]) (fun r hr => ?_)
    rw [pure_bind]
    refine Heeds.call (by simp [CipherFits]) (fun _ _ => Heeds.call (by simp [CipherFits]) (fun keyBytes _ => ?_))
    obtain ⟨hle,hlen⟩ := hr hlow
    exact inBounds_cloneEncryption fWrite keyBytes (some b) b₄ (hle.trans hhigh) hlen
      (Bytes.take_overlay_zero 0 b.bytes r.2) wpos

/-- Every chunk of the loop, whatever is left of the file. -/
theorem inBounds_encryptLoop (fRead fWrite : File) (key : Ptr) (rounds : ℕ) (fsize pos wpos : ℤ) (g : Option (ℤ × List Byte)) :
    InBounds (encryptLoop fRead fWrite key rounds fsize pos wpos) g := by
  induction rounds generalizing fsize pos wpos g with
  | zero => exact Heeds.pure _ _
  | succ rounds ih =>
    rw [encryptLoop]
    split
    case isTrue hpos =>
      obtain ⟨hlow,hhigh,-,-⟩ := nextChunk_bounds hpos
      have hcap : (nextChunk fsize).1 ≤ 4080 := by simpa [PAGE_SIZE] using hhigh
      refine Heeds.bind (inBounds_call (by simp)) (fun b₃ => Heeds.bind (inBounds_call (by simp)) (fun b₄ g => ?_)) g
      refine Heeds.bind (inBounds_encryptRound fRead fWrite key b₃ b₄ hlow.le hcap pos wpos) (fun r => ?_) g
      cases r with
      | error e => exact fun g => Heeds.bind (inBounds_call (by simp)) (fun _ g => Heeds.pure _ g) g
      | ok r => exact fun g => ih _ _ _ g
    case isFalse => exact Heeds.pure _ _

/-- The loop, and whatever follows it without the cipher. -/
theorem inBounds_encryptFile (fRead fWrite : File) (key : Ptr) (fsize : ℤ) {f : Option ℤ → KProg β}
    (hf : ∀ r, Obeys (fun c => ∀ keyBytes src n, c ≠ .cryptoBlkcipherEncrypt keyBytes src n) HonestRead (f r))
    (g : Option (ℤ × List Byte)) : InBounds (encryptFile fRead fWrite key fsize >>= f) g :=
  Heeds.bind (inBounds_encryptLoop fRead fWrite key _ _ _ _) (fun r => inBounds_of_obeys (hf r)) g

/-- What both operations do behind their loop. -/
theorem noCipher_removeOriginal (fRead fWrite : File) (key : Ptr) (b : Buf) (r : Option ℤ) :
    Obeys (fun c => ∀ keyBytes src n, c ≠ .cryptoBlkcipherEncrypt keyBytes src n) HonestRead (match r with
      | some err => return err
      | none => do
        fileClose fRead
        let err ← kcall (.vfsUnlink fRead)
        fileClose fWrite
        kcall (.kfree (some b.addr))
        kcall (.kfree key)
        return err) := by
  cases r with
  | some err => exact Obeys.pure _
  | none =>
    exact (noCipher_contract.fileClose _).bind (fun _ => (Obeys.call (by simp)).bind (fun _ =>
      (noCipher_contract.fileClose _).bind (fun _ => (Obeys.call (by simp)).bind (fun _ =>
        (Obeys.call (by simp)).bind (fun _ => Obeys.pure _)))))

theorem inBounds_processencryption (P : Platform) (fname : Path) (key : Ptr) (g : Option (ℤ × List Byte)) :
    InBounds (processencryption P fname key) g := by
  refine Heeds.bind (inBounds_of_obeys (noCipher_contract.fileOpen _ _)) (fun r => ?_) g
  cases r with
  | error e => exact Heeds.pure _
  | ok fRead =>
    refine Heeds.bind (inBounds_of_obeys (noCipher_contract.pathBuffers _)) (fun granted => ?_)
    cases granted with
    | false => exact Heeds.pure _
    | true =>
      refine Heeds.bind (inBounds_call (by simp)) (fun getTime => Heeds.bind (inBounds_call (by simp)) (fun r => ?_))
      cases r with
      | none => exact inBounds_of_obeys noCipher_contract.die
      | some b =>
        refine Heeds.bind (inBounds_of_obeys (noCipher_contract.dPath _ _ _)) (fun path =>
          Heeds.bind (inBounds_call (by simp)) (fun size =>
            Heeds.bind (inBounds_of_obeys (noCipher_contract.fileOpen _ _)) (fun r => ?_)))
        cases r with
        | error e => exact Heeds.pure _
        | ok fWrite =>
          exact Heeds.bind (inBounds_call (by simp)) (fun _ => Heeds.bind (inBounds_call (by simp)) (fun _ =>
            Heeds.bind (inBounds_call (by simp)) (fun _ => inBounds_encryptFile _ _ _ _ (noCipher_removeOriginal _ _ _ _))))

theorem inBounds_encryptTemp (b : Buf) (name : Path) (key : Ptr) (g : Option (ℤ × List Byte)) :
    InBounds (encryptTemp b name key) g := by
  refine Heeds.bind (inBounds_of_obeys (noCipher_contract.fileOpen _ _)) (fun r => ?_) g
  cases r with
  | error e => exact Heeds.pure _
  | ok fRead =>
    refine Heeds.bind (inBounds_of_obeys (noCipher_contract.fileOpen _ _)) (fun r => Heeds.bind (inBounds_call (by simp)) (fun _ =>
      Heeds.bind (inBounds_call (by simp)) (fun _ => Heeds.bind (inBounds_call (by simp)) (fun _ => ?_))))
    cases r with
    | error e => exact inBounds_of_obeys noCipher_contract.die
    | ok fWrite =>
      exact Heeds.bind (inBounds_call (by simp)) (fun _ => inBounds_encryptFile _ _ _ _ (noCipher_removeOriginal _ _ _ _))

theorem inBounds_processEncComp (P : Platform) (fname : Path) (key : Ptr) (g : Option (ℤ × List Byte)) :
    InBounds (processEncComp P fname key) g := by
  refine Heeds.bind (inBounds_of_obeys (noCipher_contract.pathBuffers _)) (fun granted => ?_) g
  cases granted with
  | false => exact Heeds.pure _
  | true =>
    refine Heeds.bind (inBounds_call (by simp)) (fun getTime => Heeds.bind (inBounds_call (by simp)) (fun r => ?_))
    cases r with
    | none => exact inBounds_of_obeys noCipher_contract.die
    | some b =>
      refine Heeds.bind (inBounds_of_obeys (noCipher_contract.fileOpen _ _)) (fun r => ?_)
      cases r with
      | error e => exact Heeds.pure _
      | ok fRead =>
        refine Heeds.bind (inBounds_of_obeys (noCipher_contract.dPath _ _ _)) (fun path =>
          Heeds.bind (inBounds_of_obeys (noCipher_contract.fileOpen _ _)) (fun r => ?_))
        cases r with
        | error e => exact Heeds.pure _
        | ok fTemp =>
          exact Heeds.bind (inBounds_of_obeys (noCipher_contract.compressFileXclone _ _)) (fun _ =>
            Heeds.bind (inBounds_of_obeys (noCipher_contract.fileClose _)) (fun _ => Heeds.bind (inBounds_call (by simp)) (fun _ =>
              Heeds.bind (inBounds_of_obeys (noCipher_contract.fileClose _)) (fun _ => inBounds_encryptTemp _ _ _))))

end Heeding

/-- Every chunk that a request with encryption hands to the cipher after a read without an error fits its
buffers, and gives the bytes that were read when its padding is stripped; and no round takes more from the
remaining size than there is. -/
theorem chunks_fit (P : Platform) (fname : Path) (key : Ptr) (s : Kernel) :
    (∀ p ∈ [processencryption P fname key,processEncComp P fname key], ∀ x ∈ p.remembered lastRead (Kernel.handle P) s none,
      ∀ keyBytes src nbytes, x.1 = .cryptoBlkcipherEncrypt keyBytes src nbytes →
        ∃ r data, x.2 = some (r,data) ∧ (0 ≤ r → ChunkFits r data src nbytes)) ∧
    ∀ fsize : ℤ, fsize > 0 → 0 < (nextChunk fsize).1 ∧ (nextChunk fsize).1 ≤ PAGE_SIZE - 16 ∧ 0 ≤ (nextChunk fsize).2 ∧
      (nextChunk fsize).1 + (nextChunk fsize).2 = fsize := by
  refine ⟨?_,fun fsize h => nextChunk_bounds h⟩
  intro p hp x hx
  have hfits : InBounds p none := by
    rcases List.mem_pair.mp hp with rfl | rfl
    · exact inBounds_processencryption P fname key none
    · exact inBounds_processEncComp P fname key none
  exact hfits.remembered_spec (handle_honestRead P) s x hx

/-- A file of two bytes of which the read returns one. -/
theorem chunks_fit_short :
    ChunkFits 1 [7] [7,15,15,15,15,15,15,15,15,15,15,15,15,15,15,15] 16 := by
  have hcall : (Call.cryptoBlkcipherEncrypt [107] [7,15,15,15,15,15,15,15,15,15,15,15,15,15,15,15] 16,some ((1 : ℤ),[(7 : Byte)])) ∈
      (processencryption .bare ['/','a'] (some 0)).remembered lastRead (Kernel.handle .bare)
        ((Task.fresh ['/'] 0 { reads := [.short 1] }).withKey [107,0],Fs.ofList [(['/','a'],[7,8])]) none := by
    decide +kernel
  obtain ⟨r,data,he,hfits⟩ := (chunks_fit .bare ['/','a'] (some 0) _).1 _ List.mem_cons_self _ hcall _ _ _ rfl
  cases he
  exact hfits (by decide)

end XClone
