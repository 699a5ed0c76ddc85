import XClone.Kernel.FileOps
import Mathlib.Tactic.Ring

/-! # Plain moves: `processunlink` and its copy `processunlink_async`

The file is copied page by page into the trashbin and then unlinked. The copy loop
has one exit test for end of file, short transfers and write errors; only a failed
read leaves the function without unlinking the original.
-/
namespace XClone
open Effects Prog

/-- How the copy loop was left; `running` when the round budget of the model ran out. -/
inductive CopyExit where
  | readFailed
  | finished
  | running
deriving DecidableEq, Repr

/-- The do-while loop, for at most `fuel` rounds. -/
def copyLoop (infile trashbinfile : File) : ℕ → ℤ → ℤ → KProg CopyExit
  | 0, _, _ => return .running
  | fuel+1, pagesread, totalBytesWritten => do
    let (readbytes,tempbuf1) ← fileRead infile (pagesread * PAGE_SIZE) PAGE_SIZE
    if readbytes < 0 then
      return .readFailed
    else
      let writebytes ← fileWrite trashbinfile totalBytesWritten tempbuf1 readbytes
      let totalBytesWritten := CInt.toInt (totalBytesWritten + writebytes)
      let pagesread := if readbytes = PAGE_SIZE then CInt.toInt (pagesread + 1) else pagesread
      if readbytes = writebytes ∧ readbytes = PAGE_SIZE then
        copyLoop infile trashbinfile fuel pagesread totalBytesWritten
      else
        return .finished

/-- The part of `processunlink` behind the two opens; `none` when the round budget ran out. -/
def copyAndUnlink (fuel : ℕ) (infile trashbinfile : File) (tempbuf1 tempbuf2 trashbinfolderFilename : Buf) :
    KProg (Option ℤ) := do
  match ← copyLoop infile trashbinfile fuel 0 0 with
  | .running => return none
  | .readFailed =>
    fileClose trashbinfile
    fileClose infile
    freeBuffers [tempbuf1,tempbuf2,trashbinfolderFilename]
    return some 0
  | .finished =>
    fileClose infile
    let err ← kcall (.vfsUnlink infile)
    fileClose trashbinfile
    freeBuffers [trashbinfolderFilename,tempbuf1,tempbuf2]
    return some err

/-- From the name of the trash entry on, with the original open. -/
def moveOpened (P : Platform) (fuel : ℕ) (infile : File) (tempbuf1 tempbuf2 : Buf) : KProg (Option ℤ) := do
  match ← kcall (.kmalloc (4 + 9 + (dName infile).length + 26)) with
  | none =>
    -- `PTR_ERR(NULL)` is no error
    fileClose infile
    freeBuffers [tempbuf1,tempbuf2]
    return some 0
  | some trashbinfolderFilename =>
    let getTime ← kcall .doGettimeofday
    -- `filename`, the buffer for the path, still is `NULL`
    let path ← dPath P infile none
    match ← fileOpen (trashName P [] getTime path []) true with
    | .error _ =>
      fileClose infile
      freeBuffers [tempbuf1,tempbuf2,trashbinfolderFilename]
      return some (-EPERM)
    | .ok trashbinfile =>
      copyAndUnlink fuel infile trashbinfile tempbuf1 tempbuf2 trashbinfolderFilename

def processunlink (P : Platform) (fuel : ℕ) (fname : Path) : KProg (Option ℤ) := do
  let tempbuf1 ← kcall (.kmalloc PAGE_SIZE)
  let tempbuf2 ← kcall (.kmalloc PAGE_SIZE)
  match tempbuf1, tempbuf2 with
  | some tempbuf1, some tempbuf2 =>
    match ← fileOpen fname false with
    | .error _ =>
      freeBuffers [tempbuf1,tempbuf2]
      return some (-EPERM)
    | .ok infile => moveOpened P fuel infile tempbuf1 tempbuf2
  | _, _ => return some (-ENOMEM)

/-- The copy in `sys_xclone2async.c` differs in its messages only. -/
def processunlinkAsync (P : Platform) (fuel : ℕ) (fname : Path) : KProg (Option ℤ) :=
  processunlink P fuel fname

/-! ## The loop, round by round -/
section Rounds
variable (reads writes : List Outcome) (c : List Byte)

/-- What the read of round `k` returns when all rounds before it moved a full page. -/
def readResult (k : ℕ) : ℤ :=
  (reads.getD k .full).count (min PAGE_SIZE (c.length - PAGE_SIZE*k))

/-- What the write of round `k` returns: a position from `2^31` on has become negative. -/
def writeResult (k : ℕ) : ℤ :=
  if PAGE_SIZE*k < 2147483648 then (writes.getD k .full).count (readResult reads c k).toNat else einval

def FullRound (k : ℕ) : Prop :=
  readResult reads c k = PAGE_SIZE ∧ writeResult reads writes c k = PAGE_SIZE

instance (k : ℕ) : Decidable (FullRound reads writes c k) :=
  inferInstanceAs (Decidable (_ ∧ _))

/-- The bytes of the original in the trash file after round `k`. -/
def copied (k : ℕ) : ℕ := PAGE_SIZE*k + (writeResult reads writes c k).toNat

theorem readResult_le (k : ℕ) : readResult reads c k ≤ (c.length - PAGE_SIZE*k : ℕ) := by
  have h := (reads.getD k .full).count_le (min PAGE_SIZE (c.length - PAGE_SIZE*k))
  unfold readResult
  omega

theorem writeResult_le (k : ℕ) : (writeResult reads writes c k).toNat ≤ (readResult reads c k).toNat := by
  unfold writeResult
  split
  · have := (writes.getD k .full).count_le (readResult reads c k).toNat
    omega
  · exact Nat.zero_le _

variable {reads writes c}

/-- A full round leaves the position below the next power of two boundary. -/
theorem FullRound.bounds {k : ℕ} (h : FullRound reads writes c k) :
    PAGE_SIZE*(k+1) ≤ c.length ∧ PAGE_SIZE*(k+1) ≤ 2147483648 := by
  obtain ⟨hr,hw⟩ := h
  have hle := readResult_le reads c k
  rw [hr] at hle
  unfold writeResult at hw
  split at hw
  · simp only [PAGE_SIZE] at *
    omega
  · exact absurd hw (by decide)

variable (reads writes c) in
/-- Round `k` is the last one. -/
def Stops (k : ℕ) : Prop := (∀ i < k, FullRound reads writes c i) ∧ ¬ FullRound reads writes c k

variable (reads writes c) in
/-- Every schedule has a last round, within the pages of the file. -/
theorem exists_stops : ∃ k, Stops reads writes c k ∧ PAGE_SIZE*k ≤ c.length := by
  have hend : ∃ k, ¬ FullRound reads writes c k := by
    refine ⟨c.length,fun hfull => ?_⟩
    have := hfull.bounds.1
    simp only [PAGE_SIZE] at this
    omega
  have hbefore : ∀ i < Nat.find hend, FullRound reads writes c i :=
    fun i hi => not_not.mp (Nat.find_min hend hi)
  refine ⟨Nat.find hend,⟨hbefore,Nat.find_spec hend⟩,?_⟩
  rcases hk : Nat.find hend with _ | k
  · exact Nat.zero_le _
  · exact (hbefore k (by omega)).bounds.1

theorem Stops.bound {k K : ℕ} (hK : Stops reads writes c K) (h : k ≤ K) : PAGE_SIZE*k ≤ 2147483648 := by
  rcases k with _ | k
  · decide
  · exact (hK.1 k h).bounds.2

end Rounds

/-- In the middle of the copy: the first `m` bytes of the original `c` lie over the old contents `o`. -/
structure Copying (infile trashbinfile : File) (past : List (List Byte)) (c o : List Byte) (m : ℕ)
    (fs : Fs) : Prop where
  transfer : Transfer infile trashbinfile past c (c.take m ++ o.drop m) fs
  within : m ≤ c.length

theorem Copying.advance {infile trashbinfile : File} {past : List (List Byte)} {c o : List Byte} {m : ℕ}
    {fs : Fs} (h : Copying infile trashbinfile past c o m fs) {n : ℕ} (hn : m + n ≤ c.length) :
    Copying infile trashbinfile past c o (m+n) (Function.update fs trashbinfile.path
      ((fs trashbinfile.path).write trashbinfile.inode m ((c.drop m).take n))) where
  transfer := by
    have hwrite := h.transfer.write m ((c.drop m).take n)
    rwa [Bytes.overlay_copy 0 c o hn] at hwrite
  within := hn

section Loop
variable (P : Platform) {infile trashbinfile : File} {past : List (List Byte)} {c o : List Byte}
  {reads writes : List Outcome} {k : ℕ} {t : Task} {fs : Fs}

theorem read_round (h : Copying infile trashbinfile past c o (PAGE_SIZE*k) fs)
    (hk : PAGE_SIZE*k ≤ 2147483648) (hr : t.faults.reads = reads.drop k) :
    (fileRead infile ((k : ℤ) * PAGE_SIZE) PAGE_SIZE).run (Kernel.handle P) (t,fs) =
      (some (readResult reads c k,(c.drop (PAGE_SIZE*k)).take (readResult reads c k).toNat),
        t.spend .popRead,fs) := by
  have hpos : (k : ℤ) * PAGE_SIZE = ((PAGE_SIZE*k : ℕ) : ℤ) := by
    push_cast
    ring
  have hle := (reads.getD k .full).count_le (min PAGE_SIZE (c.length - PAGE_SIZE*k))
  have hmin : min (readResult reads c k).toNat PAGE_SIZE = (readResult reads c k).toNat := by
    apply min_eq_left
    unfold readResult
    omega
  rw [hpos, run_fileRead P infile PAGE_SIZE t fs (by omega) (by omega)]
  simp only [h.transfer.source, Int.toNat_natCast, headD_of_drop hr, List.length_take, List.length_drop,
    List.take_take]
  rw [← hmin]
  rfl

theorem write_round (h : Copying infile trashbinfile past c o (PAGE_SIZE*k) fs)
    (hk : PAGE_SIZE*k ≤ 2147483648) (hw : t.faults.writes = writes.drop k) (hr : 0 ≤ readResult reads c k) :
    ∃ fs', (fileWrite trashbinfile (CInt.toInt (PAGE_SIZE*k : ℕ))
        ((c.drop (PAGE_SIZE*k)).take (readResult reads c k).toNat) (readResult reads c k)).run
          (Kernel.handle P) (t,fs) = (some (writeResult reads writes c k),t.spend .popWrite,fs') ∧
      Copying infile trashbinfile past c o (copied reads writes c k) fs' := by
  have hle := readResult_le reads c k
  have hin := h.within
  obtain ⟨n,hn⟩ : ∃ n : ℕ, readResult reads c k = n := ⟨_,(Int.toNat_of_nonneg hr).symm⟩
  have hlen : ((c.drop (PAGE_SIZE*k)).take n).length = n :=
    List.length_take_of_le (by rw [List.length_drop]; omega)
  rw [hn, Int.toNat_natCast]
  by_cases hb : PAGE_SIZE*k < 2147483648
  · have hpos : CInt.toInt (PAGE_SIZE*k : ℕ) = ((PAGE_SIZE*k : ℕ) : ℤ) :=
      CInt.toInt_eq (by omega) (by omega)
    have hres : writeResult reads writes c k = (writes.getD k .full).count n := by
      rw [writeResult, if_pos hb, hn, Int.toNat_natCast]
    have hw' := (writes.getD k .full).count_le n
    refine ⟨_,?_,h.advance (n := (writeResult reads writes c k).toNat) (by omega)⟩
    rw [hpos, run_fileWrite P trashbinfile _ n t fs (by omega) (by omega)]
    simp only [List.take_of_length_le hlen.le, hlen, headD_of_drop hw, ← hres, Int.toNat_natCast,
      List.take_take]
    rw [min_eq_left (by omega)]
  · -- the position has wrapped to `-2^31`
    have hpos : CInt.toInt (PAGE_SIZE*k : ℕ) = -2147483648 := by
      rw [show PAGE_SIZE*k = 2147483648 by omega]
      rfl
    have hres : writeResult reads writes c k = einval := if_neg hb
    have hcop : copied reads writes c k = PAGE_SIZE*k := by
      rw [copied, hres]
      rfl
    refine ⟨fs,?_,hcop ▸ h⟩
    rw [hpos, hres]
    exact run_fileWrite_negative P trashbinfile _ _ t fs (by decide) (by decide)

/-- One round of the loop, when it goes on. -/
theorem copyLoop_full (h : Copying infile trashbinfile past c o (PAGE_SIZE*k) fs)
    (hk : PAGE_SIZE*k ≤ 2147483648) (hr : t.faults.reads = reads.drop k) (hw : t.faults.writes = writes.drop k)
    (hfull : FullRound reads writes c k) (fuel : ℕ) :
    ∃ t' fs', (copyLoop infile trashbinfile (fuel+1) k (CInt.toInt (PAGE_SIZE*k : ℕ))).run (Kernel.handle P) (t,fs) =
        (copyLoop infile trashbinfile fuel ((k+1 : ℕ) : ℤ) (CInt.toInt (PAGE_SIZE*(k+1) : ℕ))).run (Kernel.handle P)
          (t',fs') ∧
      Copying infile trashbinfile past c o (PAGE_SIZE*(k+1)) fs' ∧
      t'.faults.reads = reads.drop (k+1) ∧ t'.faults.writes = writes.drop (k+1) := by
  obtain ⟨hread,hwrite⟩ := hfull
  have hb := FullRound.bounds ⟨hread,hwrite⟩
  obtain ⟨fs',hrun,hcopy⟩ := write_round P (t := t.spend .popRead) h hk hw (by rw [hread]; decide)
  have hcop : copied reads writes c k = PAGE_SIZE*(k+1) := by
    rw [copied, hwrite]
    rfl
  have hpage : CInt.toInt ((k : ℤ) + 1) = ((k+1 : ℕ) : ℤ) := by
    simp only [PAGE_SIZE] at hb
    rw [CInt.toInt_eq (by omega) (by omega)]
    rfl
  have hpos : CInt.toInt (CInt.toInt (PAGE_SIZE*k : ℕ) + PAGE_SIZE) = CInt.toInt (PAGE_SIZE*(k+1) : ℕ) := by
    rw [CInt.toInt_add_toInt]
    congr 1
  rw [hcop] at hcopy
  refine ⟨(t.spend .popRead).spend .popWrite,fs',?_,hcopy,?_,?_⟩
  · rw [copyLoop, run_bind_some (read_round P h hk hr)]
    simp only [hread] at hrun ⊢
    rw [if_neg (by decide), run_bind_some hrun, hwrite]
    simp only [and_self, ↓reduceIte, hpage, hpos]
  · change t.faults.reads.tail = _
    rw [hr, List.tail_drop]
  · change t.faults.writes.tail = _
    rw [hw, List.tail_drop]

/-- The last round of the loop. -/
theorem copyLoop_stop (h : Copying infile trashbinfile past c o (PAGE_SIZE*k) fs)
    (hk : PAGE_SIZE*k ≤ 2147483648) (hr : t.faults.reads = reads.drop k) (hw : t.faults.writes = writes.drop k)
    (hstop : ¬ FullRound reads writes c k) (fuel : ℕ) :
    ∃ t' fs', (copyLoop infile trashbinfile (fuel+1) k (CInt.toInt (PAGE_SIZE*k : ℕ))).run (Kernel.handle P) (t,fs) =
        (some (if readResult reads c k < 0 then .readFailed else .finished),t',fs') ∧
      Copying infile trashbinfile past c o (copied reads writes c k) fs' := by
  by_cases hneg : readResult reads c k < 0
  · have hnone : copied reads writes c k = PAGE_SIZE*k := by
      have hle := writeResult_le reads writes c k
      unfold copied
      omega
    refine ⟨t.spend .popRead,fs,?_,hnone ▸ h⟩
    rw [copyLoop, run_bind_some (read_round P h hk hr)]
    simp only [if_pos hneg, run_pure]
  · obtain ⟨fs',hrun,hcopy⟩ := write_round P (t := t.spend .popRead) h hk hw (Int.not_lt.mp hneg)
    refine ⟨(t.spend .popRead).spend .popWrite,fs',?_,hcopy⟩
    have hexit : ¬ (readResult reads c k = writeResult reads writes c k ∧ readResult reads c k = PAGE_SIZE) :=
      fun he => hstop ⟨he.2,he.1.symm.trans he.2⟩
    rw [copyLoop, run_bind_some (read_round P h hk hr)]
    simp only [if_neg hneg]
    rw [run_bind_some hrun, if_neg hexit]
    rfl

/-- The whole loop: it needs one round more than the number of full ones. -/
theorem copyLoop_run {K : ℕ} (hK : Stops reads writes c K) (hkK : k ≤ K)
    (h : Copying infile trashbinfile past c o (PAGE_SIZE*k) fs) (hr : t.faults.reads = reads.drop k)
    (hw : t.faults.writes = writes.drop k) (fuel : ℕ) :
    ∃ t' fs', (copyLoop infile trashbinfile fuel k (CInt.toInt (PAGE_SIZE*k : ℕ))).run (Kernel.handle P) (t,fs) =
        (some (if k + fuel ≤ K then .running
          else if readResult reads c K < 0 then .readFailed else .finished),t',fs') ∧
      (K < k + fuel → Copying infile trashbinfile past c o (copied reads writes c K) fs') := by
  induction fuel generalizing k t fs with
  | zero =>
    refine ⟨t,fs,?_,fun hlt => absurd hlt (by omega)⟩
    rw [if_pos (by omega : k + 0 ≤ K)]
    rfl
  | succ fuel ih =>
    rcases Nat.eq_or_lt_of_le hkK with rfl | hlt
    · obtain ⟨t',fs',hrun,hcopy⟩ := copyLoop_stop P h (hK.bound hkK) hr hw hK.2 fuel
      refine ⟨t',fs',?_,fun _ => hcopy⟩
      rw [hrun, if_neg (by omega : ¬ k + (fuel+1) ≤ k)]
    · obtain ⟨t₁,fs₁,hrun,hcopy,hr₁,hw₁⟩ := copyLoop_full P h (hK.bound hkK) hr hw (hK.1 k hlt) fuel
      obtain ⟨t',fs',hrest,hend⟩ := ih hlt hcopy hr₁ hw₁
      have harith : k + 1 + fuel = k + (fuel + 1) := by omega
      rw [harith] at hrest hend
      exact ⟨t',fs',hrun.trans hrest,hend⟩

/-- The loop ends within one round per byte and one more, whatever the transfers return. -/
theorem copyLoop_terminates (h : Copying infile trashbinfile past c o 0 fs) {fuel : ℕ} (hfuel : c.length < fuel) :
    ∃ K exit t' fs', Stops t.faults.reads t.faults.writes c K ∧ exit ≠ .running ∧
      (copyLoop infile trashbinfile fuel 0 0).run (Kernel.handle P) (t,fs) = (some exit,t',fs') ∧
      Copying infile trashbinfile past c o (copied t.faults.reads t.faults.writes c K) fs' := by
  obtain ⟨K,hK,hle⟩ := exists_stops t.faults.reads t.faults.writes c
  have hKf : K < 0 + fuel := by
    unfold PAGE_SIZE at hle
    omega
  obtain ⟨t',fs',hrun,hcopy⟩ := copyLoop_run P hK (Nat.zero_le K) h rfl rfl fuel
  rw [if_neg (Nat.not_le.mpr hKf)] at hrun
  refine ⟨K,_,t',fs',hK,?_,hrun,hcopy hKf⟩
  split <;> exact CopyExit.noConfusion

/-- With full transfers and positions that fit an `int` everything is copied. -/
theorem Stops.copied_all {K : ℕ} (hK : Stops reads writes c K) (hc : c.length < 2147483648)
    (hr : ∀ i, reads.getD i .full = .full) (hw : ∀ i, writes.getD i .full = .full) :
    copied reads writes c K = c.length := by
  have hread : ∀ i, readResult reads c i = (min PAGE_SIZE (c.length - PAGE_SIZE*i) : ℕ) := fun i => by
    rw [readResult, hr]
    rfl
  have hwrite : ∀ i, PAGE_SIZE*i ≤ c.length → writeResult reads writes c i = (min PAGE_SIZE (c.length - PAGE_SIZE*i) : ℕ) :=
    fun i hi => by
      rw [writeResult, if_pos (hi.trans_lt hc), hw, hread, Int.toNat_natCast]
      rfl
  have hin : PAGE_SIZE*K ≤ c.length := by
    rcases K with _ | K
    · exact Nat.zero_le _
    · exact (hK.1 K (Nat.lt_succ_self K)).bounds.1
  have hshort : c.length - PAGE_SIZE*K < PAGE_SIZE := by
    by_contra hge
    have hmin := min_eq_left (Nat.not_lt.mp hge)
    exact hK.2 ⟨(hread K).trans (congrArg _ hmin),(hwrite K hin).trans (congrArg _ hmin)⟩
  rw [copied, hwrite K hin, Int.toNat_natCast, min_eq_right hshort.le]
  omega

/-- However it ends, the loop leaves the first `m` bytes of the original over the old contents, and all
of them when no transfer is cut short and the positions fit an `int`. -/
theorem copyLoop_exact (h : Transfer infile trashbinfile past c o fs) {fuel : ℕ} (hfuel : c.length < fuel) :
    ∃ m exit s, (copyLoop infile trashbinfile fuel 0 0).run (Kernel.handle P) (t,fs) = (some exit,s) ∧
      exit ≠ .running ∧ s.2.entry trashbinfile.path = some (c.take m ++ o.drop m) ∧ m ≤ c.length ∧
      (c.length < 2 ^ 31 → (∀ r ∈ t.faults.reads, r = .full) → (∀ w ∈ t.faults.writes, w = .full) → m = c.length) := by
  obtain ⟨K,exit,t',fs',hK,hexit,hrun,hcopy⟩ := copyLoop_terminates P (t := t) (c := c) (o := o) ⟨h,Nat.zero_le _⟩ hfuel
  refine ⟨_,exit,(t',fs'),hrun,hexit,congrArg Slot.now hcopy.transfer.target,hcopy.within,fun hc hr hw => ?_⟩
  have hfull : ∀ l : List Outcome, (∀ x ∈ l, x = .full) → ∀ i, l.getD i .full = .full := by
    intro l hl i
    rw [List.getD_eq_getElem?_getD]
    cases hi : l[i]? with
    | none => rfl
    | some x => exact hl x (List.mem_of_getElem? hi)
  exact hK.copied_all hc (hfull _ hr) (hfull _ hw)

end Loop

/-- Three bytes over four, with a write of two of them. -/
theorem copyLoop_exact_short :
    let t := Task.fresh ['/'] 0 { writes := [.short 2] }
    ∃ m exit s, (copyLoop ⟨['/','a'],0⟩ ⟨['/','t'],0⟩ 4 0 0).run (Kernel.handle .bare)
        (t,Fs.ofList [(['/','a'],[1,2,3]),(['/','t'],[9,9,9,9])]) = (some exit,s) ∧
      exit ≠ .running ∧ s.2.entry ['/','t'] = some (([1,2,3] : List Byte).take m ++ [9,9,9,9].drop m) ∧
      m ≤ ([1,2,3] : List Byte).length ∧ (([1,2,3] : List Byte).length < 2 ^ 31 → (∀ r ∈ t.faults.reads, r = .full) →
        (∀ w ∈ t.faults.writes, w = .full) → m = ([1,2,3] : List Byte).length) := by
  intro t
  have hT : Transfer ⟨['/','a'],0⟩ ⟨['/','t'],0⟩ [] [1,2,3] [9,9,9,9]
      (Fs.ofList [(['/','a'],[1,2,3]),(['/','t'],[9,9,9,9])]) := ⟨rfl,rfl,rfl,by decide⟩
  exact copyLoop_exact .bare hT (by decide)

/-! ## The unlink and what lies before it -/

/-- The calls that remove a directory entry. -/
def Call.unlinks : Call → Bool
  | .vfsUnlink _ => true
  | _ => false

theorem silent_fileOpen (path : Path) (create : Bool) : Silent Call.unlinks (fileOpen path create) :=
  (Silent.perform rfl).bind (fun _ => (Silent.perform rfl).bind (fun _ => Silent.perform rfl))

theorem silent_fileClose (f : File) : Silent Call.unlinks (fileClose f) := Silent.perform rfl

theorem silent_fileRead (f : File) (offset len : ℤ) : Silent Call.unlinks (fileRead f offset len) :=
  (Silent.perform rfl).bind (fun _ => (Silent.perform rfl).bind (fun _ =>
    (Silent.perform rfl).bind (fun _ => (Silent.perform rfl).bind (fun _ => Silent.pure _))))

theorem silent_fileWrite (f : File) (offset : ℤ) (buf : List Byte) (len : ℤ) :
    Silent Call.unlinks (fileWrite f offset buf len) :=
  (Silent.perform rfl).bind (fun _ => (Silent.perform rfl).bind (fun _ =>
    (Silent.perform rfl).bind (fun _ => (Silent.perform rfl).bind (fun _ => Silent.pure _))))

theorem silent_dPath (P : Platform) (f : File) (size : Option ℕ) : Silent Call.unlinks (dPath P f size) := by
  unfold dPath
  split
  · exact Silent.pure _
  · split
    · exact Silent.pure _
    · exact (Silent.perform rfl).bind (fun e => nomatch e)

theorem silent_freeBuffers (bufs : List Buf) : Silent Call.unlinks (freeBuffers bufs) := by
  induction bufs with
  | nil => exact Silent.pure _
  | cons b bs ih => exact (Silent.perform rfl).bind (fun _ => ih)

theorem silent_copyLoop (infile trashbinfile : File) (fuel : ℕ) (pagesread totalBytesWritten : ℤ) :
    Silent Call.unlinks (copyLoop infile trashbinfile fuel pagesread totalBytesWritten) := by
  induction fuel generalizing pagesread totalBytesWritten with
  | zero => exact Silent.pure _
  | succ fuel ih =>
    apply (silent_fileRead _ _ _).bind
    intro r
    by_cases hneg : r.1 < 0
    · simp only [if_pos hneg]
      exact Silent.pure _
    · simp only [if_neg hneg]
      apply (silent_fileWrite _ _ _ _).bind
      intro writebytes
      by_cases hloop : r.1 = writebytes ∧ r.1 = PAGE_SIZE
      · simp only [if_pos hloop]
        exact ih _ _
      · simp only [if_neg hloop]
        exact Silent.pure _

section Move
variable (P : Platform) {infile trashbinfile : File} {past : List (List Byte)} {c o : List Byte}
  {t : Task} {fs : Fs}

/-- What is seen of the unlink, once both files are open. -/
theorem seen_copyAndUnlink {reads writes : List Outcome} {K : ℕ} (hr : t.faults.reads = reads)
    (hw : t.faults.writes = writes) (hK : Stops reads writes c K)
    (h : Copying infile trashbinfile past c o 0 fs) (fuel : ℕ) (b₁ b₂ b₃ : Buf) :
    (K < fuel ∧ 0 ≤ readResult reads c K ∧
      ∃ s, (copyAndUnlink fuel infile trashbinfile b₁ b₂ b₃).seen Call.unlinks (Kernel.handle P) (t,fs) =
          [(.vfsUnlink infile,s)] ∧
        Copying infile trashbinfile past c o (copied reads writes c K) s.2) ∨
    ((fuel ≤ K ∨ readResult reads c K < 0) ∧
      (copyAndUnlink fuel infile trashbinfile b₁ b₂ b₃).seen Call.unlinks (Kernel.handle P) (t,fs) = []) := by
  obtain ⟨t',fs',hrun,hcopy⟩ := copyLoop_run P hK (Nat.zero_le K) h hr hw fuel
  rw [Nat.zero_add] at hrun hcopy
  have hseen := (silent_copyLoop infile trashbinfile fuel 0 0).seen_bind (h := Kernel.handle P) hrun
    (f := fun x => match x with
      | .running => return none
      | .readFailed => do
        fileClose trashbinfile
        fileClose infile
        freeBuffers [b₁,b₂,b₃]
        return some 0
      | .finished => do
        fileClose infile
        let err ← kcall (.vfsUnlink infile)
        fileClose trashbinfile
        freeBuffers [b₃,b₁,b₂]
        return some err)
  have hcut : (copyAndUnlink fuel infile trashbinfile b₁ b₂ b₃).seen Call.unlinks (Kernel.handle P) (t,fs) = _ := hseen
  rw [hcut]
  by_cases hf : fuel ≤ K
  · right
    refine ⟨.inl hf,?_⟩
    rw [if_pos hf]
    rfl
  · by_cases hneg : readResult reads c K < 0
    · right
      refine ⟨.inr hneg,?_⟩
      rw [if_neg hf, if_pos hneg]
      refine Silent.seen_eq_nil ?_ _
      exact (silent_fileClose _).bind (fun _ => (silent_fileClose _).bind (fun _ =>
        (silent_freeBuffers _).bind (fun _ => Silent.pure _)))
    · left
      refine ⟨by omega,by omega,((t'.closing infile),fs'),?_,hcopy (by omega)⟩
      rw [if_neg hf, if_neg hneg]
      refine ((silent_fileClose infile).seen_bind (run_fileClose P infile t' fs')).trans ?_
      apply seen_call_of_silent rfl
      intro err
      exact (silent_fileClose _).bind (fun _ => (silent_freeBuffers _).bind (fun _ => Silent.pure _))

/-- The trash entry of a plain move that starts in this state. -/
def moveName (P : Platform) (t : Task) (fname : Path) : Path :=
  trashName P [] t.now (resolve t.cwd fname) []

/-- The copy loop is reached. -/
structure Arrives (P : Platform) (t : Task) (fs : Fs) (fname : Path) : Prop where
  buffers : t.faults.allocs.getD 0 false = false ∧ t.faults.allocs.getD 1 false = false
  name : t.faults.allocs.getD 2 false = false
  opens : t.faults.opens.getD 0 none = none
  found : fs.entry (resolve t.cwd fname) ≠ none
  survives : P.dPathNull (resolve t.cwd fname) ≠ none
  creates : t.faults.opens.getD 1 none = none
  reaches : fs.reach P (resolve t.cwd (moveName P t fname)) true ≠ none

/-- The same from the open original on. -/
structure ArrivesFrom (P : Platform) (t : Task) (fs : Fs) (path : Path) : Prop where
  name : t.faults.allocs.headD false = false
  survives : P.dPathNull path ≠ none
  creates : t.faults.opens.headD none = none
  reaches : fs.reach P (resolve t.cwd (trashName P [] t.now path [])) true ≠ none

/-- The second open: the trash file is there, with what its name held before. -/
theorem seen_moveOpened (infile : File) {pastIn : List (List Byte)} {c : List Byte} (b₁ b₂ : Buf) (fuel : ℕ)
    (hin : fs infile.path = ⟨pastIn,some c⟩) (hinode : infile.inode = pastIn.length)
    (hpath : ∀ path, P.dPathNull infile.path = some path → path = infile.path) :
    (ArrivesFrom P t fs infile.path ∧
      ∃ t' fs' trashbinfile past b₃,
        (moveOpened P fuel infile b₁ b₂).seen Call.unlinks (Kernel.handle P) (t,fs) =
          (copyAndUnlink fuel infile trashbinfile b₁ b₂ b₃).seen Call.unlinks (Kernel.handle P) (t',fs') ∧
        Copying infile trashbinfile past c
          ((fs.entry (resolve t.cwd (trashName P [] t.now infile.path []))).getD []) 0 fs' ∧
        t'.faults.reads = t.faults.reads ∧ t'.faults.writes = t.faults.writes ∧
        trashbinfile.path = resolve t.cwd (trashName P [] t.now infile.path [])) ∨
    (¬ ArrivesFrom P t fs infile.path ∧
      (moveOpened P fuel infile b₁ b₂).seen Call.unlinks (Kernel.handle P) (t,fs) = []) := by
  obtain ⟨r₃,t₃,h₃,⟨n₃,f₃,d₃,w₃,_⟩⟩ := kmalloc_spec P (4 + 9 + (dName infile).length + 26) t fs
  have hname : (moveOpened P fuel infile b₁ b₂).seen Call.unlinks (Kernel.handle P) (t,fs) = _ :=
    seen_call rfl h₃
  rcases r₃ with _ | b₃
  · right
    refine ⟨fun ha => ?_,hname.trans ?_⟩
    · have := ha.name
      rw [n₃.mp rfl] at this
      cases this
    · exact ((silent_fileClose _).bind (fun _ => (silent_freeBuffers _).bind (fun _ => Silent.pure _))).seen_eq_nil _
  have hnomem : t.faults.allocs.headD false = false :=
    Bool.eq_false_iff.mpr (fun hb => absurd (n₃.mpr hb) (Option.some_ne_none _))
  have hopens : t₃.faults.opens = t.faults.opens := by rw [f₃, Faults.popAlloc]
  have htime := hname.trans (seen_call rfl (handle_doGettimeofday P t₃ fs))
  cases hd : P.dPathNull infile.path with
  | none =>
    right
    have hdead : (dPath P infile none).run (Kernel.handle P) (t₃,fs) = (none,t₃,fs) := by
      rw [dPath, hd]
      rfl
    exact ⟨fun ha => ha.survives hd,htime.trans ((silent_dPath P infile none).seen_dead hdead)⟩
  | some path =>
    obtain rfl := hpath path hd
    have hrun : (dPath P infile none).run (Kernel.handle P) (t₃,fs) = (some infile.path,t₃,fs) := by
      rw [dPath, hd]
      rfl
    have hsofar := htime.trans ((silent_dPath P infile none).seen_bind hrun)
    rw [w₃] at hsofar
    obtain ⟨trash,htrash⟩ : ∃ trash, resolve t.cwd (trashName P [] t.now infile.path []) = trash := ⟨_,rfl⟩
    have hcreate : resolve t₃.cwd (trashName P [] t.now infile.path []) = trash := by rw [d₃, htrash]
    by_cases hmiss : t₃.faults.opens.headD none ≠ none ∨
        fs.reach P (resolve t₃.cwd (trashName P [] t.now infile.path [])) true = none
    · right
      obtain ⟨e,hrun⟩ := run_fileOpen_fails P fs (trashName P [] t.now infile.path []) true hmiss
      refine ⟨fun ha => ?_,hsofar.trans (((silent_fileOpen _ _).seen_bind hrun).trans ?_)⟩
      · rcases hmiss with ho | hreach
        · rw [hopens] at ho
          exact ho ha.creates
        · rw [hcreate, ← htrash] at hreach
          exact ha.reaches hreach
      · exact ((silent_fileClose _).bind (fun _ => (silent_freeBuffers _).bind (fun _ => Silent.pure _))).seen_eq_nil _
    · left
      obtain ⟨ho,hreach⟩ := not_or.mp hmiss
      have hrun := run_fileOpen P (not_not.mp ho) (Fs.reach_create P hreach)
      have hne : infile.path ≠ trash := by
        rw [← htrash]
        exact (resolve_trashName_ne List.not_mem_nil P t.cwd [] t.now _).symm
      rw [hcreate] at hrun hreach
      have harr : ArrivesFrom P t fs infile.path := by
        constructor
        · exact hnomem
        · exact fun hnone => absurd (hd.symm.trans hnone) (Option.some_ne_none _)
        · rw [← hopens]
          exact not_not.mp ho
        · rw [htrash]
          exact hreach
      rw [htrash]
      refine ⟨harr,_,_,_,(fs trash).past,b₃,hsofar.trans ((silent_fileOpen _ _).seen_bind hrun),?_,?_,?_,rfl⟩
      · refine ⟨⟨?_,Function.update_self _ _ _,rfl,hne⟩,Nat.zero_le _⟩
        rw [Fs.content, Function.update_of_ne hne, hin, hinode, Slot.content_linked]
      · change t₃.faults.reads = _
        rw [f₃, Faults.popAlloc]
      · change t₃.faults.writes = _
        rw [f₃, Faults.popAlloc]

/-- Either the two files are opened and nothing is copied yet, or no unlink will be seen. -/
theorem seen_processunlink (fname : Path) (t : Task) (fs : Fs) (fuel : ℕ)
    (hpath : ∀ path, P.dPathNull (resolve t.cwd fname) = some path → path = resolve t.cwd fname) :
    (Arrives P t fs fname ∧ ∃ t' fs' infile trashbinfile past b₁ b₂ b₃,
      (processunlink P fuel fname).seen Call.unlinks (Kernel.handle P) (t,fs) =
        (copyAndUnlink fuel infile trashbinfile b₁ b₂ b₃).seen Call.unlinks (Kernel.handle P) (t',fs') ∧
      Copying infile trashbinfile past ((fs.entry (resolve t.cwd fname)).getD [])
        ((fs.entry (resolve t.cwd (moveName P t fname))).getD []) 0 fs' ∧
      t'.faults.reads = t.faults.reads ∧ t'.faults.writes = t.faults.writes ∧
      infile.path = resolve t.cwd fname ∧ trashbinfile.path = resolve t.cwd (moveName P t fname)) ∨
    (¬ Arrives P t fs fname ∧ (processunlink P fuel fname).seen Call.unlinks (Kernel.handle P) (t,fs) = []) := by
  obtain ⟨r₁,t₁,h₁,⟨n₁,f₁,d₁,w₁,_⟩⟩ := kmalloc_spec P PAGE_SIZE t fs
  obtain ⟨r₂,t₂,h₂,⟨n₂,f₂,d₂,w₂,_⟩⟩ := kmalloc_spec P PAGE_SIZE t₁ fs
  have hbufs : (processunlink P fuel fname).seen Call.unlinks (Kernel.handle P) (t,fs) = _ :=
    (seen_call rfl h₁).trans (seen_call rfl h₂)
  have hzero : t.faults.allocs.headD false = t.faults.allocs.getD 0 false :=
    headD_of_drop List.drop_zero.symm false
  have hone : t₁.faults.allocs.headD false = t.faults.allocs.getD 1 false := by
    rw [f₁]
    exact headD_of_drop List.drop_one.symm false
  have htwo : t₂.faults.allocs.headD false = t.faults.allocs.getD 2 false := by
    rw [f₂, f₁]
    exact headD_of_drop (by simp only [Faults.popAlloc, ← List.drop_one, List.drop_drop]) false
  rcases r₁ with _ | b₁
  · right
    refine ⟨fun ha => ?_,hbufs⟩
    have := ha.buffers.1
    rw [← hzero, n₁.mp rfl] at this
    cases this
  rcases r₂ with _ | b₂
  · right
    refine ⟨fun ha => ?_,hbufs⟩
    have := ha.buffers.2
    rw [← hone, n₂.mp rfl] at this
    cases this
  -- both buffers are there
  have hcwd : t₂.cwd = t.cwd := d₂.trans d₁
  have hopens : t₂.faults.opens = t.faults.opens := by rw [f₂, Faults.popAlloc, f₁, Faults.popAlloc]
  have hfirst : t₂.faults.opens.headD none = t.faults.opens.getD 0 none := by
    rw [hopens]
    exact headD_of_drop List.drop_zero.symm none
  by_cases hmiss : t₂.faults.opens.headD none ≠ none ∨ fs.entry (resolve t.cwd fname) = none
  · right
    have hfail : t₂.faults.opens.headD none ≠ none ∨ fs.reach P (resolve t₂.cwd fname) false = none := by
      rw [hcwd]
      exact hmiss.imp_right (Fs.reach_missing P)
    obtain ⟨e,hrun⟩ := run_fileOpen_fails P fs fname false hfail
    refine ⟨fun ha => ?_,hbufs.trans (((silent_fileOpen _ _).seen_bind hrun).trans ?_)⟩
    · rcases hmiss with ho | hn
      · exact ho (hfirst.trans ha.opens)
      · exact ha.found hn
    · exact ((silent_freeBuffers _).bind (fun _ => Silent.pure _)).seen_eq_nil _
  · obtain ⟨hnofault,hthere⟩ := not_or.mp hmiss
    obtain ⟨past,c,hslot⟩ := Slot.exists_of_now_ne_none hthere
    have hentry : fs.entry (resolve t.cwd fname) = some c := congrArg Slot.now hslot
    have hinode : fs.reach P (resolve t₂.cwd fname) false = some (past.length,⟨past,some c⟩) := by
      rw [hcwd]
      exact Fs.reach_found P hslot false
    have hrun := run_fileOpen P (not_not.mp hnofault) hinode
    rw [hcwd, ← hslot, Function.update_eq_self] at hrun
    have hseen := hbufs.trans ((silent_fileOpen _ _).seen_bind hrun)
    obtain ⟨t₃,ht₃⟩ : ∃ t₃, ((t₂.limit .kernelDs).spend .popOpen).opening ⟨resolve t.cwd fname,past.length⟩ = t₃ := ⟨_,rfl⟩
    have hcwd₃ : t₃.cwd = t.cwd := by rw [← ht₃, ← hcwd]; rfl
    have hnow₃ : t₃.now = t.now := by rw [← ht₃, ← w₁, ← w₂]; rfl
    have halloc : t₃.faults.allocs.headD false = t.faults.allocs.getD 2 false := by rw [← ht₃, ← htwo]; rfl
    have hreads : t₃.faults.reads = t.faults.reads := by
      rw [← ht₃]
      change t₂.faults.reads = _
      rw [f₂, Faults.popAlloc, f₁, Faults.popAlloc]
    have hwrites : t₃.faults.writes = t.faults.writes := by
      rw [← ht₃]
      change t₂.faults.writes = _
      rw [f₂, Faults.popAlloc, f₁, Faults.popAlloc]
    have hsecond : t₃.faults.opens.headD none = t.faults.opens.getD 1 none := by
      rw [← ht₃]
      change t₂.faults.opens.tail.headD none = _
      rw [hopens]
      exact headD_of_drop List.drop_one.symm none
    rw [ht₃] at hseen
    rcases seen_moveOpened P ⟨resolve t.cwd fname,past.length⟩ (t := t₃) b₁ b₂ fuel hslot rfl hpath with
      ⟨harr,t',fs',trashbinfile,past',b₃,hmove,hcopy,hr,hw,htrash⟩ | ⟨hno,hmove⟩
    · left
      rw [hcwd₃, hnow₃] at hcopy htrash
      have hreach := harr.reaches
      rw [hcwd₃, hnow₃] at hreach
      refine ⟨⟨⟨?_,?_⟩,halloc ▸ harr.name,hfirst ▸ not_not.mp hnofault,hthere,harr.survives,hsecond ▸ harr.creates,hreach⟩,
        t',fs',_,trashbinfile,past',b₁,b₂,b₃,hseen.trans hmove,?_,hr.trans hreads,hw.trans hwrites,rfl,htrash⟩
      · exact hzero ▸ Bool.eq_false_iff.mpr (fun hb => absurd (n₁.mpr hb) (Option.some_ne_none _))
      · exact hone ▸ Bool.eq_false_iff.mpr (fun hb => absurd (n₂.mpr hb) (Option.some_ne_none _))
      · rw [hentry]
        exact hcopy
    · right
      refine ⟨fun ha => hno ⟨halloc.trans ha.name,ha.survives,hsecond.trans ha.creates,?_⟩,hseen.trans hmove⟩
      rw [hcwd₃, hnow₃]
      exact ha.reaches

/-- When a move `prog` of `fname` removes the original, the trash entry starts with all of it. -/
def NoLoss (P : Platform) (prog : ℕ → KProg (Option ℤ)) (fname : Path) (t : Task) (fs : Fs) : Prop :=
  ∀ fuel, ∀ x ∈ (prog fuel).trace (Kernel.handle P) (t,fs), ∀ f, x.1 = .vfsUnlink f →
    f.path = resolve t.cwd fname → ∀ c, fs.entry (resolve t.cwd fname) = some c →
      ∃ stored, x.2.2.entry (resolve t.cwd (moveName P t fname)) = some stored ∧ stored.take c.length = c

/-- What the loop did not copy was in the trash file already, or a read failed. -/
def CopyCovers (reads writes : List Outcome) (c o : List Byte) : Prop :=
  ∀ k, Stops reads writes c k →
    readResult reads c k < 0 ∨ c.drop (copied reads writes c k) <+: o.drop (copied reads writes c k)

theorem take_overlaid (c o : List Byte) {m : ℕ} (h : m ≤ c.length) :
    (c.take m ++ o.drop m).take c.length = c ↔ c.drop m <+: o.drop m := by
  have hm : (c.take m).length = m := List.length_take_of_le h
  have hrest : c.length - m = (c.drop m).length := by rw [List.length_drop]
  rw [List.take_append, hm, List.take_of_length_le (by omega), hrest]
  constructor
  · intro he
    apply List.prefix_iff_eq_take.mpr
    apply List.append_cancel_left
    rw [he, List.take_append_drop]
  · intro hp
    rw [← List.prefix_iff_eq_take.mp hp, List.take_append_drop]

/-- The unlinks of a move, seen with the state they are made in. -/
theorem mem_trace_unlink {prog : KProg (Option ℤ)} {s : Kernel} {x : Call × Kernel} {f : File}
    (hx : x ∈ prog.trace (Kernel.handle P) s) (hf : x.1 = .vfsUnlink f) :
    x ∈ prog.seen Call.unlinks (Kernel.handle P) s :=
  List.mem_filter.mpr ⟨hx,by rw [hf]; rfl⟩

/-- With a `d_path` that gives the path of the file if it returns at all, a move loses nothing exactly when the copy
loop stops with the rest of the original already in the trash file, or with a failed read, or is not reached. -/
theorem noLoss_iff (fname : Path) (t : Task) (fs : Fs)
    (hpath : ∀ path, P.dPathNull (resolve t.cwd fname) = some path → path = resolve t.cwd fname) :
    NoLoss P (processunlink P · fname) fname t fs ↔ (Arrives P t fs fname →
      CopyCovers t.faults.reads t.faults.writes ((fs.entry (resolve t.cwd fname)).getD [])
        ((fs.entry (resolve t.cwd (moveName P t fname))).getD [])) := by
  constructor
  · intro hsafe harr K hK
    by_cases hneg : readResult t.faults.reads ((fs.entry (resolve t.cwd fname)).getD []) K < 0
    · exact .inl hneg
    rcases seen_processunlink P fname t fs (K+1) hpath with
      ⟨_,t',fs',infile,trashbinfile,past,b₁,b₂,b₃,hseen,hcopy,hr,hw,hin,hout⟩ | ⟨hno,_⟩
    · rcases seen_copyAndUnlink P hr hw hK hcopy (K+1) b₁ b₂ b₃ with ⟨_,_,s,hone,hend⟩ | ⟨hcut,_⟩
      · right
        have hmem : (Call.vfsUnlink infile,s) ∈
            (processunlink P (K+1) fname).seen Call.unlinks (Kernel.handle P) (t,fs) := by
          rw [hseen, hone]
          exact List.mem_singleton_self _
        obtain ⟨c,hc⟩ := Option.ne_none_iff_exists'.mp harr.found
        obtain ⟨stored,hst,htake⟩ := hsafe (K+1) _ (List.mem_filter.mp hmem).1 infile rfl hin c hc
        rw [hc] at hend ⊢
        rw [Option.getD_some] at hend ⊢
        have htarget := hend.transfer.target
        rw [hout] at htarget
        have hs : stored = _ := Option.some.inj (hst.symm.trans (congrArg Slot.now htarget))
        rw [hs, take_overlaid _ _ hend.within] at htake
        exact htake
      · rcases hcut with hf | hn
        · omega
        · exact absurd hn hneg
    · exact absurd harr hno
  · intro hcover fuel x hx f hf _ c hc
    have hsee := mem_trace_unlink P hx hf
    rcases seen_processunlink P fname t fs fuel hpath with
      ⟨harr,t',fs',infile,trashbinfile,past,b₁,b₂,b₃,hseen,hcopy,hr,hw,hin,hout⟩ | ⟨_,hnil⟩
    · obtain ⟨K,hK,_⟩ := exists_stops t.faults.reads t.faults.writes
        ((fs.entry (resolve t.cwd fname)).getD [])
      rw [hseen] at hsee
      rcases seen_copyAndUnlink P hr hw hK hcopy fuel b₁ b₂ b₃ with ⟨_,hpos,s,hone,hend⟩ | ⟨_,hnil⟩
      · rw [hone, List.mem_singleton] at hsee
        have hpre := (hcover harr K hK).resolve_left (by omega)
        rw [hc, Option.getD_some] at hend hpre
        refine ⟨_,?_,(take_overlaid _ _ hend.within).mpr hpre⟩
        have htarget := congrArg Slot.now hend.transfer.target
        rw [hout] at htarget
        rw [hsee]
        exact htarget
      · rw [hnil] at hsee
        cases hsee
    · rw [hnil] at hsee
      cases hsee

end Move

/-- `d_path` stores from the end of its buffer on, which is fatal when this is `NULL`: no move comes to the unlink of a
file that is there, and so none loses anything, whatever the transfers return. -/
theorem processunlink_noLoss (P : Platform) (hdies : ∀ path, P.dPathNull path = none) (fname : Path) (t : Task) (fs : Fs) :
    NoLoss P (processunlink P · fname) fname t fs ∧ NoLoss P (processunlinkAsync P · fname) fname t fs := by
  have hnone : NoLoss P (processunlink P · fname) fname t fs := by
    apply (noLoss_iff P fname t fs (fun path h => absurd ((hdies _).symm.trans h).symm (Option.some_ne_none _))).mpr
    exact fun harr => absurd (hdies _) harr.survives
  exact ⟨hnone,hnone⟩

/-- A move of a file of two bytes, the first read of which is short. -/
theorem processunlink_noLoss_short :
    let t := Task.fresh ['/'] 0 { reads := [.short 1] }
    let fs := Fs.ofList [(['/','a'],[1,2])]
    NoLoss .bare (processunlink .bare · ['/','a']) ['/','a'] t fs ∧
      NoLoss .bare (processunlinkAsync .bare · ['/','a']) ['/','a'] t fs :=
  processunlink_noLoss .bare (fun _ => rfl) ['/','a'] _ _

/-- With a `d_path` that bears `NULL`, the same short read ends the loop and the original is removed. -/
theorem short_read_would_lose :
    let P : Platform := { Platform.bare with dPathNull := some }
    ¬ NoLoss P (processunlink P · ['/','a']) ['/','a'] (.fresh ['/'] 0 { reads := [.short 1] })
      (.ofList [(['/','a'],[1,2])]) := by
  intro P h
  have hcover := (noLoss_iff P ['/','a'] _ _ (fun path h => (Option.some.inj h).symm)).mp h
    ⟨⟨rfl,rfl⟩,rfl,rfl,by decide,by decide,rfl,by decide⟩ 0 ⟨fun i hi => absurd hi (by omega),by decide⟩
  revert hcover
  decide

end XClone
