import XClone.Sync.Encryption

/-! # Where the chunks of an encrypted file stand

With full transfers a chunk of `PAGE_SIZE-16` bytes fills one slot of `PAGE_SIZE` bytes, and what
is left over is padded to the next block. A slot depends on its own chunk alone.
-/
namespace XClone
open Effects Prog

/-! ## The writes of the loop -/

/-- The slots of a file of `4080*q + r` bytes, as offsets and lengths. -/
def slots (q r : ℕ) : List (ℕ × ℕ) :=
  (List.range q).map (fun i => (PAGE_SIZE * i,PAGE_SIZE)) ++ if 0 < r then [(PAGE_SIZE * q,16 * (r / 16 + 1))] else []

/-- Pieces that follow each other from an offset on. -/
def Contiguous : ℕ → List (ℕ × ℕ) → Prop
  | _, [] => True
  | pos, (p,n) :: pieces => p = pos ∧ Contiguous (pos + n) pieces

def Event.isWrite : Event → Bool
  | .write .. => true
  | _ => false

/-- The write of a piece, in full. -/
def writeOf (f : File) (o : ℕ) (piece : ℕ × ℕ) : Event := .write f (o + piece.1 : ℕ) piece.2 piece.2

theorem slots_succ (q r : ℕ) : slots (q+1) r = (0,PAGE_SIZE) :: (slots q r).map (fun s => (s.1 + PAGE_SIZE,s.2)) := by
  unfold slots
  rw [List.range_succ_eq_map, List.map_cons, List.map_map, List.cons_append, List.map_append, List.map_map]
  have hshift : ∀ i, PAGE_SIZE * (i + 1) = PAGE_SIZE * i + PAGE_SIZE := fun i => by ring
  congr 2
  split
  · rw [hshift]
    rfl
  · rfl

theorem contiguous_map {pos n : ℕ} {pieces : List (ℕ × ℕ)} (h : Contiguous pos pieces) :
    Contiguous (pos + n) (pieces.map (fun s => (s.1 + n,s.2))) := by
  induction pieces generalizing pos with
  | nil => trivial
  | cons piece pieces ih =>
    obtain ⟨hp,hrest⟩ := h
    refine ⟨congrArg (· + n) hp,?_⟩
    have hnext := ih hrest
    rw [Nat.add_right_comm] at hnext
    exact hnext

theorem contiguous_slots (q r : ℕ) : Contiguous 0 (slots q r) := by
  induction q with
  | zero =>
    unfold slots
    split
    · exact ⟨rfl,trivial⟩
    · trivial
  | succ q ih =>
    rw [slots_succ]
    exact ⟨rfl,contiguous_map ih⟩

theorem sum_slots (q r : ℕ) : ((slots q r).map Prod.snd).sum = PAGE_SIZE * q + if 0 < r then 16 * (r / 16 + 1) else 0 := by
  unfold slots
  rw [List.map_append, List.sum_append, List.map_map]
  have hfull : (List.map (Prod.snd ∘ fun i => (PAGE_SIZE * i,PAGE_SIZE)) (List.range q)).sum = PAGE_SIZE * q := by
    induction q with
    | zero => rfl
    | succ q ih =>
      rw [List.range_succ, List.map_append, List.sum_append, ih]
      exact (Nat.mul_succ _ _).symm
  rw [hfull]
  split <;> rfl

section Loop
variable {fRead fWrite : File} {c K : List Byte} {f : Faults}

/-- Nothing stands in the way of a chunk. -/
structure Faults.Clear (f : Faults) : Prop where
  allocs : ∀ b ∈ f.allocs, b = false
  reads : f.reads = []
  writes : f.writes = []
  ciphers : f.ciphers = []

theorem Faults.Clear.popChunk (h : f.Clear) : f.popChunk.Clear where
  allocs b hb := h.allocs b (List.mem_of_mem_tail (List.mem_of_mem_tail hb))
  reads := congrArg List.tail h.reads
  writes := congrArg List.tail h.writes
  ciphers := congrArg List.tail h.ciphers

/-- One round of the loop: all of the chunk is read, and its blocks are written where the write counter stands. -/
theorem encryptLog_round (fRead fWrite : File) (K : List Byte) (rounds : ℕ) {m len : ℕ} {wpos w : ℤ} (hf : f.Clear) (hm : m < c.length)
    (hlen : min 4080 (c.length - m) = len) (hw : writeCount .full wpos (16 * (len / 16 + 1)) = w) :
    ∃ x, encryptLog fRead fWrite c K (rounds+1) f (c.length - m) m wpos =
      .read fRead m len len x :: .setkey (f.setkeys.headD none).code ::
        .encrypt (keyInUse (f.setkeys.headD none) K) (paddedChunk len x) (f.encrypts.headD none).code ::
        .write fWrite wpos (16 * (len / 16 + 1) : ℕ) w ::
        encryptLog fRead fWrite c K rounds f.popChunk (c.length - (m + len)) (CInt.toInt (m + len)) (CInt.toInt (wpos + w)) := by
  have h₃ := granted_of_all hf.allocs 0
  have h₄ := granted_of_all hf.allocs 1
  have hcount : readCount (f.reads.headD .full) c.length m len = (len : ℤ) := by
    rw [hf.reads, readCount, if_neg (by omega : ¬ (m : ℤ) < 0)]
    simp only [List.headD_nil, Outcome.count, Int.toNat_natCast]
    congr 1
    omega
  obtain ⟨x,hx⟩ : ∃ x, (c.drop m).take len = x := ⟨_,rfl⟩
  have hxlen : x.length = len := by
    rw [← hx, List.length_take, List.length_drop]
    omega
  have hplen : (paddedChunk (len : ℤ) x).length = 16 * (len / 16 + 1) := by
    rw [length_paddedChunk (by rw [hxlen, Int.toNat_natCast]), if_pos (by omega), Int.toNat_natCast]
    unfold BlockCipher.padLength
    omega
  have hfull : writeCount (f.writes.headD .full) wpos (16 * (len / 16 + 1)) = w := by rw [hf.writes, ← hw]; rfl
  have hcipher : ¬ f.ciphers.headD none ≠ none := by simp [hf.ciphers]
  have hpage : ∀ r, ¬ f.Pageless r := fun r h => absurd (h₄.symm.trans h.1) Bool.false_ne_true
  refine ⟨x,?_⟩
  rw [encryptLog, if_neg (by omega : ¬ c.length - m = 0), if_neg hcipher, h₃, h₄, readCountInto_false, writeCountFrom_false]
  simp only [hlen, hcount, Int.toNat_natCast, hx, hplen, hfull, chunkLog, if_neg (hpage _)]
  rw [if_neg (by omega : ¬ (len : ℤ) < -16), Nat.sub_sub]
  rfl

/-- From a slot boundary on, the loop writes the slots of what is left. -/
theorem encryptLog_writes {rounds m o q r : ℕ} (hf : f.Clear) (hm : m ≤ c.length)
    (hleft : c.length - m = 4080 * q + r) (hr : r < 4080) (hrounds : c.length - m ≤ rounds)
    (hsync : 4080 * o = 4096 * m) (hc : c.length < 1073741824) :
    (encryptLog fRead fWrite c K rounds f (c.length - m) m o).filter Event.isWrite =
      (slots q r).map (writeOf fWrite o) := by
  induction rounds generalizing f m o q with
  | zero =>
    have hq : q = 0 := by omega
    have hrz : r = 0 := by omega
    subst hq hrz
    rfl
  | succ rounds ih =>
    by_cases hend : c.length - m = 0
    · have hq : q = 0 := by omega
      have hrz : r = 0 := by omega
      subst hq hrz
      rw [encryptLog, if_pos hend]
      rfl
    obtain ⟨len,hlen⟩ : ∃ len, min 4080 (c.length - m) = len := ⟨_,rfl⟩
    have hw : writeCount .full o (16 * (len / 16 + 1)) = (16 * (len / 16 + 1) : ℕ) := by
      rw [writeCount, if_neg (by omega : ¬ (o : ℤ) < 0)]
      rfl
    obtain ⟨x,hround⟩ := encryptLog_round fRead fWrite K rounds hf (by omega) hlen hw
    have hhead : ∀ (n r w err err' : ℤ) (x k y : List Byte) es, List.filter Event.isWrite (.read fRead m r r x :: .setkey err ::
        .encrypt k y err' :: .write fWrite o n w :: es) = .write fWrite o n w :: es.filter Event.isWrite :=
      fun _ _ _ _ _ _ _ _ _ => rfl
    rw [hround, hhead]
    rcases Nat.lt_or_ge (c.length - m) 4080 with hlast | hfull
    · have hq : q = 0 := by omega
      have hrr : r = len := by omega
      subst hq hrr
      have hnil : ∀ rounds f pos wpos, encryptLog fRead fWrite c K rounds f 0 pos wpos = [] := by
        intro rounds f pos wpos
        cases rounds <;> simp [encryptLog]
      rw [(by omega : c.length - (m + r) = 0), hnil, slots, if_pos (by omega)]
      rfl
    · obtain rfl : len = 4080 := by omega
      obtain ⟨q,rfl⟩ : ∃ p, q = p + 1 := ⟨q - 1,by omega⟩
      have hread : CInt.toInt ((m : ℤ) + ((4080 : ℕ) : ℤ)) = ((m + 4080 : ℕ) : ℤ) := by
        rw [CInt.toInt_eq (by omega) (by omega)]
        rfl
      have hwrite : CInt.toInt ((o : ℤ) + ((16 * (4080 / 16 + 1) : ℕ) : ℤ)) = ((o + 4096 : ℕ) : ℤ) := by
        rw [CInt.toInt_eq (by omega) (by omega)]
        rfl
      have hnext := ih (m := m + 4080) (o := o + 4096) (q := q) hf.popChunk (by omega) (by omega) (by omega) (by omega)
      have hsize : 16 * (4080 / 16 + 1) = PAGE_SIZE := rfl
      have hfirst : writeOf fWrite o (0,PAGE_SIZE) = .write fWrite o PAGE_SIZE PAGE_SIZE := by
        rw [writeOf, Nat.add_zero]
      rw [hread, hwrite, hnext, slots_succ, List.map_cons, List.map_map, hsize, hfirst]
      refine congrArg (List.cons _) (List.map_congr_left (fun s _ => ?_))
      have hpos : o + 4096 + s.1 = o + (s.1 + PAGE_SIZE) := by
        unfold PAGE_SIZE
        omega
      rw [writeOf, hpos]
      rfl

end Loop

/-! ## The stored file -/

theorem length_flatMap_encryptChunk (P : Platform) (K : List Byte) {c : List Byte} {q r : ℕ}
    (hlen : c.length = 4080 * q + r) (hr : r < 4080) :
    ((Bytes.chunks 4080 c).flatMap (encryptChunk P K)).length = ((slots q r).map Prod.snd).sum := by
  rw [sum_slots]
  induction q generalizing c with
  | zero =>
    rcases Nat.eq_zero_or_pos r with hzero | hpos
    · have hnil : c = [] := List.length_eq_zero_iff.mp (by omega)
      rw [hnil, Bytes.chunks_nil, hzero]
      rfl
    · have hne : c ≠ [] := by
        rintro rfl
        rw [List.length_nil] at hlen
        omega
      rw [Bytes.chunks_of_ne_nil (by omega) hne, List.drop_of_length_le (by omega), Bytes.chunks_nil,
        List.take_of_length_le (by omega), List.flatMap_singleton, length_encryptChunk, if_pos hpos, hlen]
      unfold BlockCipher.padLength
      omega
  | succ q ih =>
    have hne : c ≠ [] := by
      rintro rfl
      rw [List.length_nil] at hlen
      omega
    have hrest := ih (c := c.drop 4080) (by rw [List.length_drop]; omega)
    have hpad : BlockCipher.padLength 16 4080 = 16 := rfl
    have hmul : PAGE_SIZE * (q+1) = PAGE_SIZE * q + PAGE_SIZE := Nat.mul_succ _ _
    rw [Bytes.chunks_of_ne_nil (by omega) hne, List.flatMap_cons, List.length_append, hrest, length_encryptChunk,
      List.length_take_of_le (by omega), hpad, hmul]
    unfold PAGE_SIZE
    omega

/-- What the loop leaves of a file of `4080*q + r` bytes: its writes are the slots, one behind the
other, and the target is as long as they are. -/
theorem encryptFile_layout (P : Platform) {key : Ptr} {K c : List Byte} {fRead fWrite : File} {past : List (List Byte)}
    {t : Task} {fs : Fs} (hT : Transfer fRead fWrite past c [] fs) (hio : FullIO t) (hciphers : t.faults.ciphers = [])
    (hkey : t.keyIs key K) {q r : ℕ} (hlen : c.length = (PAGE_SIZE - 16) * q + r)
    (hr : r < PAGE_SIZE - 16) (hc : c.length < 2 ^ 30) :
    ∃ es s data, Runs P (encryptFile fRead fWrite key (CInt.toInt c.length)) (t,fs) es (some none) s ∧
      es.filter Event.isWrite = (slots q r).map (fun piece => .write fWrite piece.1 piece.2 piece.2) ∧
      Contiguous 0 (slots q r) ∧ s.2.entry fWrite.path = some data ∧
      data.length = ((slots q r).map Prod.snd).sum ∧ 16 ∣ data.length := by
  have hreads : LegalReads t.faults.reads := by
    rw [hio.reads]
    exact fun _ ho => absurd ho List.not_mem_nil
  have hfile : encryptFile fRead fWrite key (CInt.toInt c.length) =
      encryptLoop fRead fWrite key c.length c.length 0 0 := by
    have hsize : CInt.toInt c.length = (c.length : ℤ) := CInt.toInt_eq (by omega) (by omega)
    rw [encryptFile, hsize, Int.toNat_natCast]
  obtain ⟨hstored,hends⟩ := encryptFile_spec (P := P) hT hio hkey (by omega)
  obtain ⟨a,s,hruns,-,-⟩ := encryptLoop_log P c.length c.length 0 0 hT.source hT.apart hkey hreads
    ⟨by omega,by omega⟩ ⟨by omega,by omega⟩
  have hwrites : (encryptLog fRead fWrite c K c.length t.faults (c.length - 0) (0 : ℕ) (0 : ℕ)).filter Event.isWrite =
      (slots q r).map (writeOf fWrite 0) :=
    encryptLog_writes ⟨hio.allocs,hio.reads,hio.writes,hciphers⟩ (Nat.zero_le _) hlen hr (by omega) rfl (by omega)
  have hend := hends hciphers
  have hentry := hstored hend
  have hlength := length_flatMap_encryptChunk P K (c := c) hlen hr
  rw [hfile] at hend hentry ⊢
  rw [hruns.run] at hend hentry
  simp only at hend
  rw [hend] at hruns
  refine ⟨_,s,_,hruns,hwrites.trans ?_,contiguous_slots q r,hentry,hlength,?_⟩
  · refine List.map_congr_left (fun piece _ => ?_)
    rw [writeOf, Nat.zero_add]
  · rw [hlength, sum_slots]
    unfold PAGE_SIZE
    split <;> omega

/-- A full chunk and one byte more take a page and a block. -/
theorem encryptFile_layout_rest :
    let c : List Byte := List.replicate 4080 0 ++ [7]
    ∃ es s data, Runs .bare (encryptFile ⟨['/','a'],0⟩ ⟨['/','t'],0⟩ (some 0) (CInt.toInt c.length))
        ((Task.fresh ['/'] 0 {}).withKey [107,0],Fs.ofList [(['/','a'],c),(['/','t'],[])]) es (some none) s ∧
      es.filter Event.isWrite = (slots 1 1).map (fun piece => .write ⟨['/','t'],0⟩ piece.1 piece.2 piece.2) ∧
      Contiguous 0 (slots 1 1) ∧ s.2.entry ['/','t'] = some data ∧
      data.length = ((slots 1 1).map Prod.snd).sum ∧ 16 ∣ data.length := by
  intro c
  have hT : Transfer ⟨['/','a'],0⟩ ⟨['/','t'],0⟩ [] c [] (Fs.ofList [(['/','a'],c),(['/','t'],[])]) :=
    ⟨rfl,rfl,rfl,by decide⟩
  have hkey : ((Task.fresh ['/'] 0 {}).withKey [107,0]).keyIs (some 0) [107] := rfl
  have hlen : c.length = 4081 := by
    rw [List.length_append, List.length_replicate, List.length_singleton]
  exact encryptFile_layout .bare hT ⟨fun _ hb => absurd hb List.not_mem_nil,rfl,rfl,rfl,rfl⟩ rfl hkey hlen (by decide) (by rw [hlen]; decide)

/-! ## Slots and chunks -/

/-- Slot `i` is the stored form of chunk `i`. -/
theorem slot_eq_encryptChunk (P : Platform) (K : List Byte) {c : List Byte} {i : ℕ} (h : 4080 * i < c.length) :
    (((Bytes.chunks 4080 c).flatMap (encryptChunk P K)).drop (PAGE_SIZE * i)).take PAGE_SIZE =
      encryptChunk P K ((c.drop (4080 * i)).take 4080) := by
  apply Bytes.slot_flatMap_chunks (by omega) _ _ h
  · intro x hx
    rw [length_encryptChunk, hx]
    rfl
  · intro x hx
    have hp := BlockCipher.padLength_le 16 x.length
    rw [length_encryptChunk]
    unfold PAGE_SIZE
    omega

/-- Two slots of two stored files, under one key, are equal exactly when the chunks are. -/
theorem slots_eq_iff (P : Platform) {key₁ key₂ : Ptr} {K c d : List Byte} {r₁ w₁ r₂ w₂ : File}
    {past₁ past₂ : List (List Byte)} {t₁ t₂ : Task} {fs₁ fs₂ : Fs} (hT₁ : Transfer r₁ w₁ past₁ c [] fs₁)
    (hT₂ : Transfer r₂ w₂ past₂ d [] fs₂) (hio₁ : FullIO t₁) (hio₂ : FullIO t₂)
    (hciphers₁ : t₁.faults.ciphers = []) (hciphers₂ : t₂.faults.ciphers = []) (hkey₁ : t₁.keyIs key₁ K)
    (hkey₂ : t₂.keyIs key₂ K) (hc : c.length < 2 ^ 30) (hd : d.length < 2 ^ 30) {i j : ℕ} (hi : (PAGE_SIZE - 16) * i < c.length)
    (hj : (PAGE_SIZE - 16) * j < d.length) :
    ∃ stored₁ stored₂,
      ((encryptFile r₁ w₁ key₁ (CInt.toInt c.length)).run (Kernel.handle P) (t₁,fs₁)).2.2.entry w₁.path = some stored₁ ∧
      ((encryptFile r₂ w₂ key₂ (CInt.toInt d.length)).run (Kernel.handle P) (t₂,fs₂)).2.2.entry w₂.path = some stored₂ ∧
      ((stored₁.drop (PAGE_SIZE * i)).take PAGE_SIZE = (stored₂.drop (PAGE_SIZE * j)).take PAGE_SIZE ↔
        (c.drop ((PAGE_SIZE - 16) * i)).take (PAGE_SIZE - 16) = (d.drop ((PAGE_SIZE - 16) * j)).take (PAGE_SIZE - 16)) := by
  obtain ⟨hstored₁,hends₁⟩ := encryptFile_spec (P := P) hT₁ hio₁ hkey₁ (by omega)
  obtain ⟨hstored₂,hends₂⟩ := encryptFile_spec (P := P) hT₂ hio₂ hkey₂ (by omega)
  refine ⟨_,_,hstored₁ (hends₁ hciphers₁),hstored₂ (hends₂ hciphers₂),?_⟩
  rw [slot_eq_encryptChunk P K hi, slot_eq_encryptChunk P K hj]
  exact (encryptChunk_injective P K).eq_iff

/-- The rest behind a full chunk is stored as a file of its own would be. -/
theorem slots_eq_rest :
    let t := (Task.fresh ['/'] 0 {}).withKey [107,0]
    let fs (c : List Byte) := Fs.ofList [(['/','a'],c),(['/','t'],[])]
    let stored (c : List Byte) := ((encryptFile ⟨['/','a'],0⟩ ⟨['/','t'],0⟩ (some 0) (CInt.toInt c.length)).run
      (Kernel.handle .bare) (t,fs c)).2.2.entry ['/','t']
    let c : List Byte := List.replicate 4080 7 ++ [8]
    ∃ stored₁ stored₂, stored c = some stored₁ ∧ stored [8] = some stored₂ ∧
      ((stored₁.drop (PAGE_SIZE * 1)).take PAGE_SIZE = (stored₂.drop (PAGE_SIZE * 0)).take PAGE_SIZE ↔
        (c.drop ((PAGE_SIZE - 16) * 1)).take (PAGE_SIZE - 16) =
          ([8].drop ((PAGE_SIZE - 16) * 0) : List Byte).take (PAGE_SIZE - 16)) := by
  intro t fs stored c
  have hT : ∀ c, Transfer ⟨['/','a'],0⟩ ⟨['/','t'],0⟩ [] c [] (fs c) := fun c => ⟨rfl,rfl,rfl,by decide⟩
  have hio : FullIO t := ⟨fun _ hb => absurd hb List.not_mem_nil,rfl,rfl,rfl,rfl⟩
  have hkey : t.keyIs (some 0) [107] := rfl
  have hlen : c.length = 4081 := by
    rw [List.length_append, List.length_replicate, List.length_singleton]
  exact slots_eq_iff .bare (hT c) (hT [8]) hio hio rfl rfl hkey hkey
    (by rw [hlen]; decide) (by decide) (i := 1) (j := 0) (by rw [hlen]; decide) (by decide)

end XClone
