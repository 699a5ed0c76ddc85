import XClone.Sync.Slots
import XClone.Sync.Unlink
import XClone.User.Options

/-! # Counters and large files

Sizes and positions are kept in `int` variables. The write position of the encryption grows fastest:
it is the first to leave its type.
-/
namespace XClone
open Effects Prog

/-- Where a file was read, in order. -/
def offsetsRead (log : List Event) : List ℤ :=
  log.filterMap fun
    | .read _ pos _ _ _ => some pos
    | _ => none

/-- Where a file was written, in order. -/
def offsetsWritten (log : List Event) : List ℤ :=
  log.filterMap fun
    | .write _ pos _ _ => some pos
    | _ => none

/-- The rounds of the encryption of a file of `n` bytes. -/
def encryptRounds (n : ℕ) : ℕ := (n + (PAGE_SIZE - 16 - 1)) / (PAGE_SIZE - 16)

/-- The counters of a file of `n` bytes are exact: its size sends it to the right call, the encryption reads and writes chunk `k`
where it stands, and a plain move writes page `k` where it stands. -/
structure CountersExact (P : Platform) (fRead fWrite : File) (key : Ptr) (t : Task) (fs : Fs) (n : ℕ) : Prop where
  size : ((BitVec.ofNat 64 n).setWidth 32).toInt = n
  routed : ∀ (xclone2async xclone2 : Option Param → KProg ℤ) (param : Param),
    childClone xclone2async xclone2 (BitVec.ofNat 64 n) param = if 4096 < n then xclone2async (some param) else xclone2 (some param)
  fsize : CInt.toInt n = n
  encryptReads : offsetsRead (logOf P (encryptFile fRead fWrite key (CInt.toInt n)) (t,fs)) =
    (List.range (encryptRounds n)).map (fun k => (((PAGE_SIZE - 16) * k : ℕ) : ℤ))
  encryptWrites : offsetsWritten (logOf P (encryptFile fRead fWrite key (CInt.toInt n)) (t,fs)) =
    (List.range (encryptRounds n)).map (fun k => ((PAGE_SIZE * k : ℕ) : ℤ))
  copyWrites : ∀ fuel, n < fuel → offsetsWritten (logOf P (copyLoop fRead fWrite fuel 0 0) (t,fs)) =
    (List.range (n / PAGE_SIZE + 1)).map (fun k => ((PAGE_SIZE * k : ℕ) : ℤ))

/-! ## The encryption -/

section Encryption
variable {c : List Byte} {f : Faults}

/-- The reads follow the file, whatever becomes of the writes. -/
theorem encryptLog_offsetsRead (fRead fWrite : File) (K : List Byte) {rounds m : ℕ} (wpos : ℤ) (hf : f.Clear)
    (hm : m ≤ c.length) (hrounds : c.length - m ≤ rounds) (hc : c.length < 2147483648) :
    offsetsRead (encryptLog fRead fWrite c K rounds f (c.length - m) m wpos) =
        (List.range (encryptRounds (c.length - m))).map (fun k => ((m + 4080 * k : ℕ) : ℤ)) ∧
      (offsetsWritten (encryptLog fRead fWrite c K rounds f (c.length - m) m wpos)).length = encryptRounds (c.length - m) := by
  induction rounds generalizing f m wpos with
  | zero =>
    have hend : c.length - m = 0 := by omega
    rw [hend]
    exact ⟨rfl,rfl⟩
  | succ rounds ih =>
    by_cases hend : c.length - m = 0
    · rw [hend, encryptLog, if_pos rfl]
      exact ⟨rfl,rfl⟩
    obtain ⟨len,hlen⟩ : ∃ len, min 4080 (c.length - m) = len := ⟨_,rfl⟩
    obtain ⟨w,hw⟩ : ∃ w, writeCount .full wpos (16 * (len / 16 + 1)) = w := ⟨_,rfl⟩
    obtain ⟨x,hround⟩ := encryptLog_round fRead fWrite K rounds hf (by omega) hlen hw
    have hpos : CInt.toInt ((m : ℤ) + (len : ℤ)) = ((m + len : ℕ) : ℤ) := by
      rw [CInt.toInt_eq (by omega) (by omega)]
      rfl
    obtain ⟨hreads,hcount⟩ := ih (m := m + len) (CInt.toInt (wpos + w)) hf.popChunk (by omega) (by omega)
    have hnext : encryptRounds (c.length - m) = encryptRounds (c.length - (m + len)) + 1 := by
      unfold encryptRounds PAGE_SIZE
      omega
    rw [hround, hpos, hnext]
    constructor
    · have hhead : ∀ es, offsetsRead (.read fRead m len len x :: .setkey (f.setkeys.headD none).code ::
          .encrypt (keyInUse (f.setkeys.headD none) K) (paddedChunk len x) (f.encrypts.headD none).code ::
          .write fWrite wpos (16 * (len / 16 + 1) : ℕ) w :: es) = (m : ℤ) :: offsetsRead es := fun _ => rfl
      rw [hhead, hreads, List.range_succ_eq_map, List.map_cons, List.map_map]
      refine congrArg _ (List.map_congr_left (fun k hk => ?_))
      have hk' := List.mem_range.mp hk
      have hfull : len = 4080 := by
        unfold encryptRounds PAGE_SIZE at hk'
        omega
      simp only [Function.comp_apply, Nat.cast_inj, hfull]
      omega
    · have hhead : ∀ es, offsetsWritten (.read fRead m len len x :: .setkey (f.setkeys.headD none).code ::
          .encrypt (keyInUse (f.setkeys.headD none) K) (paddedChunk len x) (f.encrypts.headD none).code ::
          .write fWrite wpos (16 * (len / 16 + 1) : ℕ) w :: es) = wpos :: offsetsWritten es := fun _ => rfl
      rw [hhead, List.length_cons, hcount]

/-- The writes stand where they should until the position leaves its type. -/
theorem encryptLog_offsetsWritten (fRead fWrite : File) (K : List Byte) {rounds m o j : ℕ} (hf : f.Clear)
    (hm : m + 4080 * j < c.length) (hrounds : c.length - m ≤ rounds) (hc : c.length < 2147483648) (ho : o + 4096 * j ≤ 2147483648) :
    (offsetsWritten (encryptLog fRead fWrite c K rounds f (c.length - m) m (CInt.toInt o)))[j]? =
      some (CInt.toInt (o + 4096 * j : ℕ)) := by
  induction j generalizing rounds f m o with
  | zero =>
    obtain ⟨rounds,rfl⟩ : ∃ r, rounds = r + 1 := ⟨rounds - 1,by omega⟩
    obtain ⟨w,hw⟩ : ∃ w, writeCount .full (CInt.toInt o) (16 * (min 4080 (c.length - m) / 16 + 1)) = w := ⟨_,rfl⟩
    obtain ⟨x,hround⟩ := encryptLog_round fRead fWrite K rounds hf (by omega) rfl hw
    rw [hround]
    rfl
  | succ j ih =>
    obtain ⟨rounds,rfl⟩ : ∃ r, rounds = r + 1 := ⟨rounds - 1,by omega⟩
    have hlen : min 4080 (c.length - m) = 4080 := by omega
    have hw : writeCount .full (CInt.toInt o) (16 * (4080 / 16 + 1)) = 4096 := by
      rw [CInt.toInt_eq (by omega) (by omega), writeCount, if_neg (by omega : ¬ (o : ℤ) < 0)]
      rfl
    obtain ⟨x,hround⟩ := encryptLog_round fRead fWrite K rounds hf (by omega) hlen hw
    have hpos : CInt.toInt ((m : ℤ) + ((4080 : ℕ) : ℤ)) = ((m + 4080 : ℕ) : ℤ) := by
      rw [CInt.toInt_eq (by omega) (by omega)]
      rfl
    have hwpos : CInt.toInt (CInt.toInt o + 4096) = CInt.toInt ((o + 4096 : ℕ) : ℤ) := by
      rw [CInt.toInt_add_toInt]
      rfl
    have hrounds' : c.length - (m + 4080) ≤ rounds := by omega
    have hnext := ih (m := m + 4080) (o := o + 4096) hf.popChunk (by omega) hrounds' (by omega)
    have harith : o + 4096 + 4096 * j = o + 4096 * (j + 1) := by omega
    rw [hround, hpos, hwpos, ← harith, ← hnext]
    rfl

variable {P : Platform} {fRead fWrite : File} {key : Ptr} {K o : List Byte} {past : List (List Byte)} {t : Task} {fs : Fs}

/-- The log of the loop of a file whose size is an `int`. -/
theorem encryptFile_log (hT : Transfer fRead fWrite past c o fs) (hio : FullIO t) (hkey : t.keyIs key K)
    (hc : c.length < 2147483648) :
    logOf P (encryptFile fRead fWrite key (CInt.toInt c.length)) (t,fs) =
      encryptLog fRead fWrite c K c.length t.faults c.length 0 0 := by
  have hreads : LegalReads t.faults.reads := by
    rw [hio.reads]
    exact fun _ ho => absurd ho List.not_mem_nil
  have hsize : CInt.toInt c.length = (c.length : ℤ) := CInt.toInt_natCast hc
  obtain ⟨a,s,hruns,-,-⟩ := encryptLoop_log P c.length c.length 0 0 hT.source hT.apart hkey hreads
    ⟨by omega,by omega⟩ ⟨by omega,by omega⟩
  rw [encryptFile, hsize, Int.toNat_natCast]
  exact hruns.log

end Encryption

/-! ## The plain move -/

section Copy
variable {P : Platform} {infile trashbinfile : File} {past : List (List Byte)} {c o : List Byte} {t : Task} {fs : Fs}

/-- Full transfers write page after page. -/
theorem copyLoop_offsetsWritten (fuel : ℕ) {k : ℕ} (hT : Transfer infile trashbinfile past c o fs) (hreads : t.faults.reads = [])
    (hwrites : t.faults.writes = []) (hk : 4096 * k ≤ c.length) (hfuel : c.length < 4096 * k + fuel) (hc : c.length < 2147483648) :
    offsetsWritten (logOf P (copyLoop infile trashbinfile fuel k (4096 * k : ℕ)) (t,fs)) =
      (List.range (c.length / 4096 + 1 - k)).map (fun j => ((4096 * (k + j) : ℕ) : ℤ)) := by
  induction fuel generalizing k o t fs with
  | zero => omega
  | succ fuel ih =>
    obtain ⟨n,hn⟩ : ∃ n, min 4096 (c.length - 4096 * k) = n := ⟨_,rfl⟩
    obtain ⟨x,hx⟩ : ∃ x, (c.drop (4096 * k)).take n = x := ⟨_,rfl⟩
    have hxlen : x.length = n := by
      rw [← hx, List.length_take, List.length_drop]
      omega
    have hcount : readCount (t.faults.reads.headD .full) (fs.content infile).length (4096 * k : ℕ) 4096 = n := by
      rw [hT.source, hreads, List.headD_nil, readCount, if_neg (by omega), Int.toNat_natCast, hn]
      rfl
    have hread := fileRead_runs P infile t fs (by omega) (by omega) 4096 hcount
    rw [hT.source, Int.toNat_natCast, Int.toNat_natCast, hx] at hread
    have hall : writeCount ((t.spend .popRead).faults.writes.headD .full) (4096 * k : ℕ) n = n := by
      have hnone : (t.spend .popRead).faults.writes = [] := hwrites
      rw [hnone, writeCount, if_neg (by omega)]
      rfl
    have hwrite := fileWrite_runs P trashbinfile (t.spend .popRead) fs (by omega) (by omega) hxlen.ge hall
    have hT' := hT.write (4096 * k) (x.take n)
    have hoffset : (k : ℤ) * (PAGE_SIZE : ℤ) = ((4096 * k : ℕ) : ℤ) := by
      unfold PAGE_SIZE
      omega
    rw [Int.toNat_natCast, Int.toNat_natCast] at hwrite
    obtain ⟨s₂,hs₂⟩ : ∃ s₂, (((t.spend .popRead).spend .popWrite,Function.update fs trashbinfile.path
        ((fs trashbinfile.path).write trashbinfile.inode (4096 * k) (x.take n))) : Kernel) = s₂ := ⟨_,rfl⟩
    rw [hs₂] at hwrite
    have hhead : ∀ es, offsetsWritten ([.read infile (4096 * k : ℕ) (4096 : ℕ) n x] ++ ([.write trashbinfile (4096 * k : ℕ) n n] ++ es)) =
        ((4096 * k : ℕ) : ℤ) :: offsetsWritten es := fun _ => rfl
    have hnonneg : ¬ (n : ℤ) < 0 := by omega
    by_cases hfull : n = 4096
    · have hpage : CInt.toInt ((k : ℤ) + 1) = ((k + 1 : ℕ) : ℤ) := CInt.toInt_eq (by omega) (by omega)
      have htotal : CInt.toInt (((4096 * k : ℕ) : ℤ) + n) = ((4096 * (k + 1) : ℕ) : ℤ) := by
        rw [CInt.toInt_eq (by omega) (by omega)]
        omega
      have hmore : (n : ℤ) = (PAGE_SIZE : ℤ) := by
        unfold PAGE_SIZE
        omega
      obtain ⟨es,hes⟩ : ∃ es, logOf P (copyLoop infile trashbinfile fuel (k+1 : ℕ) (4096 * (k+1) : ℕ)) s₂ = es := ⟨_,rfl⟩
      obtain ⟨a,s,hrest⟩ : ∃ a s, Runs P (copyLoop infile trashbinfile fuel (k+1 : ℕ) (4096 * (k+1) : ℕ)) s₂ es a s :=
        ⟨_,_,⟨rfl,hes⟩⟩
      have hruns : Runs P (copyLoop infile trashbinfile (fuel+1) k (4096 * k : ℕ)) (t,fs)
          ([.read infile (4096 * k : ℕ) (4096 : ℕ) n x] ++ ([.write trashbinfile (4096 * k : ℕ) n n] ++ es)) a s := by
        rw [copyLoop, hoffset]
        refine hread.bind ?_
        simp only [if_neg hnonneg]
        refine hwrite.bind ?_
        simp only [true_and, if_pos hmore, hpage, htotal]
        exact hrest
      have hreads₂ : s₂.1.faults.reads = [] := by
        rw [← hs₂]
        exact congrArg List.tail hreads
      have hwrites₂ : s₂.1.faults.writes = [] := by
        rw [← hs₂]
        exact congrArg List.tail hwrites
      have hT₂ : Transfer infile trashbinfile past c (Bytes.overlay 0 o (4096 * k) (x.take n)) s₂.2 := by
        rw [← hs₂]
        exact hT'
      have hnext := ih (k := k + 1) hT₂ hreads₂ hwrites₂ (by omega) (by omega)
      have hsame : logOf P (copyLoop infile trashbinfile fuel (k+1 : ℕ) (4096 * (k+1) : ℕ)) (s₂.1,s₂.2) = es := hes
      rw [hsame] at hnext
      have hcount' : c.length / 4096 + 1 - k = c.length / 4096 + 1 - (k + 1) + 1 := by omega
      have hlog : logOf P (copyLoop infile trashbinfile (fuel+1) k (4096 * k : ℕ)) (t,fs) = _ := hruns.log
      rw [hlog, hhead, hnext, hcount', List.range_succ_eq_map, List.map_cons, List.map_map]
      refine congrArg _ (List.map_congr_left (fun j _ => ?_))
      simp only [Function.comp_apply, Nat.cast_inj]
      omega
    · have hlast : ¬ (n : ℤ) = (PAGE_SIZE : ℤ) := by
        unfold PAGE_SIZE
        omega
      have hruns : Runs P (copyLoop infile trashbinfile (fuel+1) k (4096 * k : ℕ)) (t,fs)
          ([.read infile (4096 * k : ℕ) (4096 : ℕ) n x] ++ ([.write trashbinfile (4096 * k : ℕ) n n] ++ [])) (some .finished) s₂ := by
        rw [copyLoop, hoffset]
        refine hread.bind ?_
        simp only [if_neg hnonneg]
        refine hwrite.bind ?_
        simp only [true_and, if_neg hlast]
        exact Does.pure _ _
      have hone : c.length / 4096 + 1 - k = 1 := by omega
      have hlog : logOf P (copyLoop infile trashbinfile (fuel+1) k (4096 * k : ℕ)) (t,fs) = _ := hruns.log
      rw [hlog, hhead, hone]
      simp [offsetsWritten]

end Copy

/-! ## Which files are small enough -/

section Sizes
variable {P : Platform} {key : Ptr} {K c o : List Byte} {past : List (List Byte)} {fRead fWrite : File} {t : Task} {fs : Fs}

theorem setWidth_toInt {n : ℕ} (hn : n < 2147483648) : ((BitVec.ofNat 64 n).setWidth 32).toInt = n := by
  have hnat : ((BitVec.ofNat 64 n).setWidth 32).toNat = n := by
    rw [BitVec.toNat_setWidth, BitVec.toNat_ofNat]
    omega
  rw [BitVec.toInt_eq_toNat_of_lt (by omega), hnat]

/-- The last write begins within an `int`. -/
theorem countersExact_of_le (hT : Transfer fRead fWrite past c o fs) (hio : FullIO t) (hciphers : t.faults.ciphers = [])
    (hkey : t.keyIs key K) (hc : c.length ≤ 2139095040) : CountersExact P fRead fWrite key t fs c.length := by
  have hclear : t.faults.Clear := ⟨hio.allocs,hio.reads,hio.writes,hciphers⟩
  have hint := setWidth_toInt (n := c.length) (by omega)
  obtain ⟨hreads,hcount⟩ := encryptLog_offsetsRead fRead fWrite K (c := c) (m := 0) 0 hclear (Nat.zero_le _) (Nat.sub_le _ _)
    (by omega)
  have hlog := encryptFile_log (P := P) hT hio hkey (by omega)
  refine ⟨hint,?_,CInt.toInt_natCast (by omega),?_,?_,?_⟩
  · intro async sync param
    unfold childClone
    simp only [hint]
    exact if_congr (by omega) rfl rfl
  · rw [hlog]
    refine Eq.trans hreads (List.map_congr_left (fun k _ => ?_))
    rw [Nat.zero_add]
    rfl
  · rw [hlog]
    apply List.ext_getElem?
    intro j
    have hbound : encryptRounds c.length = (c.length + 4079) / 4080 := rfl
    rcases Nat.lt_or_ge j (encryptRounds c.length) with hj | hj
    · have hfirst := encryptLog_offsetsWritten fRead fWrite K (c := c) (m := 0) (o := 0) (j := j) hclear (by omega)
        (Nat.sub_le _ _) (by omega) (by omega)
      rw [List.getElem?_map, List.getElem?_range hj]
      refine Eq.trans hfirst ?_
      rw [Option.map_some, Nat.zero_add, CInt.toInt_natCast (by omega)]
      rfl
    · have hshort : (offsetsWritten (encryptLog fRead fWrite c K c.length t.faults c.length 0 0)).length ≤ j :=
        (le_of_eq hcount).trans hj
      rw [List.getElem?_eq_none hshort, List.getElem?_eq_none (by simpa using hj)]
  · intro fuel hfuel
    have hpages := copyLoop_offsetsWritten (P := P) fuel (k := 0) hT hio.reads hio.writes (Nat.zero_le _) (by omega) (by omega)
    refine Eq.trans hpages (List.map_congr_left (fun j _ => ?_))
    rw [Nat.zero_add]
    rfl

/-- Beyond that size the write of chunk 524288 begins at `-2^31`. -/
theorem CountersExact.le (h : CountersExact P fRead fWrite key t fs c.length) (hT : Transfer fRead fWrite past c o fs) (hio : FullIO t)
    (hciphers : t.faults.ciphers = []) (hkey : t.keyIs key K) : c.length ≤ 2139095040 := by
  by_contra hlarge
  have hbound := (CInt.toInt_bounds c.length).2
  rw [h.fsize] at hbound
  have hclear : t.faults.Clear := ⟨hio.allocs,hio.reads,hio.writes,hciphers⟩
  have hthere := encryptLog_offsetsWritten fRead fWrite K (c := c) (m := 0) (o := 0) (j := 524288) hclear (by omega)
    (Nat.sub_le _ _) (by omega) (by omega)
  have hwrites := h.encryptWrites
  rw [encryptFile_log hT hio hkey (by omega)] at hwrites
  have hcount : encryptRounds c.length = (c.length + 4079) / 4080 := rfl
  have hclaimed : ((List.range (encryptRounds c.length)).map (fun k => ((PAGE_SIZE * k : ℕ) : ℤ)))[524288]? = some 2147483648 := by
    rw [List.getElem?_map, List.getElem?_range (by omega)]
    rfl
  rw [← hwrites] at hclaimed
  have hsame := Option.some.inj (hthere.symm.trans hclaimed)
  revert hsame
  decide

/-- Without faults, the counters of a file are exact if and only if it has at most 2139095040 bytes. -/
theorem counters_exact_iff (P : Platform) (hT : Transfer fRead fWrite past c o fs) (hio : FullIO t) (hciphers : t.faults.ciphers = [])
    (hkey : t.keyIs key K) : CountersExact P fRead fWrite key t fs c.length ↔ c.length ≤ 2139095040 :=
  ⟨fun h => h.le hT hio hciphers hkey,countersExact_of_le hT hio hciphers hkey⟩

end Sizes

section Files

/-- Two files, the first with these bytes. -/
def besideEmpty (c : List Byte) : Fs := Fs.ofList [(['/','a'],c),(['/','t'],[])]

theorem transfer_besideEmpty (c : List Byte) : Transfer ⟨['/','a'],0⟩ ⟨['/','t'],0⟩ [] c [] (besideEmpty c) :=
  ⟨rfl,rfl,rfl,by decide⟩

/-- A file of two chunks. -/
theorem counters_exact_chunks :
    let c : List Byte := List.replicate 4081 7
    CountersExact .bare ⟨['/','a'],0⟩ ⟨['/','t'],0⟩ (some 0) ((Task.fresh ['/'] 0 {}).withKey [107,0]) (besideEmpty c) c.length := by
  intro c
  have hio : FullIO ((Task.fresh ['/'] 0 {}).withKey [107,0]) := ⟨fun _ hb => absurd hb List.not_mem_nil,rfl,rfl,rfl,rfl⟩
  have hkey : ((Task.fresh ['/'] 0 {}).withKey [107,0]).keyIs (some 0) [107] := rfl
  have hlen : c.length = 4081 := List.length_replicate
  exact (counters_exact_iff .bare (transfer_besideEmpty c) hio rfl hkey).mpr (by omega)

/-- The smallest file that is too large. -/
theorem counters_wrap :
    let c : List Byte := List.replicate 2139095041 7
    ¬ CountersExact .bare ⟨['/','a'],0⟩ ⟨['/','t'],0⟩ (some 0) ((Task.fresh ['/'] 0 {}).withKey [107,0]) (besideEmpty c) c.length := by
  intro c h
  have hio : FullIO ((Task.fresh ['/'] 0 {}).withKey [107,0]) := ⟨fun _ hb => absurd hb List.not_mem_nil,rfl,rfl,rfl,rfl⟩
  have hkey : ((Task.fresh ['/'] 0 {}).withKey [107,0]).keyIs (some 0) [107] := rfl
  have hlen : c.length = 2139095041 := List.length_replicate
  have hle := h.le (transfer_besideEmpty c) hio rfl hkey
  omega

end Files

end XClone
