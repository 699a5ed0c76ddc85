import XClone.Sync.Unlink
import XClone.Sync.Compression

/-! # How often the loops run

The three chunk loops count a size down by what they ask for, not by what they get, so their
number of rounds depends on that size alone. The copy loop ends by the results of its transfers,
but a round that goes on has moved a full page.
-/
namespace XClone
open Effects Prog

/-- The number of chunks of a file whose size, as an `int`, is `fsize`. -/
def chunkCount (fsize : ℤ) : ℕ := (fsize.toNat + (PAGE_SIZE - 16) - 1) / (PAGE_SIZE - 16)

theorem chunkCount_of_nonpos {fsize : ℤ} (h : fsize ≤ 0) : chunkCount fsize = 0 := by
  simp [chunkCount, Int.toNat_of_nonpos h, PAGE_SIZE]

/-- Each round takes one chunk off. -/
theorem chunkCount_of_pos {fsize : ℤ} (h : 0 < fsize) : chunkCount fsize = chunkCount (nextChunk fsize).2 + 1 := by
  obtain ⟨n,rfl⟩ := Int.eq_ofNat_of_zero_le h.le
  simp only [nextChunk_natCast, chunkCount, Int.toNat_natCast, PAGE_SIZE]
  omega

section Countdown
variable {β S : Type} {L : ℕ → ℤ → S → β}

/-- A loop that counts the chunks down needs no more rounds than there are chunks. -/
theorem countdown_rounds (hdone : ∀ n fsize s, fsize ≤ 0 → L (n+1) fsize s = L 0 fsize s)
    (hnext : ∀ n m fsize, 0 < fsize → (∀ s, L n (nextChunk fsize).2 s = L m (nextChunk fsize).2 s) →
      ∀ s, L (n+1) fsize s = L (m+1) fsize s) {rounds : ℕ} {fsize : ℤ} (h : chunkCount fsize ≤ rounds) (s : S) :
    L rounds fsize s = L (chunkCount fsize) fsize s := by
  induction rounds generalizing fsize s with
  | zero => rw [Nat.le_zero.mp h]
  | succ rounds ih =>
    rcases Int.lt_or_le 0 fsize with hpos | hend
    · rw [chunkCount_of_pos hpos] at h ⊢
      exact hnext rounds _ fsize hpos (fun s => ih (Nat.le_of_succ_le_succ h) s) s
    · rw [chunkCount_of_nonpos hend]
      exact hdone rounds fsize s hend

end Countdown

section Loops
variable (fRead fWrite : File)

theorem encryptLoop_rounds (key : Ptr) {rounds : ℕ} {fsize : ℤ} (h : chunkCount fsize ≤ rounds) (pos wpos : ℤ) :
    encryptLoop fRead fWrite key rounds fsize pos wpos =
      encryptLoop fRead fWrite key (chunkCount fsize) fsize pos wpos := by
  refine countdown_rounds (L := fun n fsize s => encryptLoop fRead fWrite key n fsize s.1 s.2) ?_ ?_ h (pos,wpos)
  · intro n fsize s hend
    simp [encryptLoop, Int.not_lt.mpr hend]
  · intro n m fsize hpos hrest s
    simp only [encryptLoop, if_pos hpos]
    have hall : ∀ a b, encryptLoop fRead fWrite key n (nextChunk fsize).2 a b =
      encryptLoop fRead fWrite key m (nextChunk fsize).2 a b := fun a b => hrest (a,b)
    simp only [hall]

theorem compressLoop_rounds (outLen : Option ℤ) {rounds : ℕ} {fsize : ℤ} (h : chunkCount fsize ≤ rounds) (err : ℤ)
    (tei : List Byte) (pos wpos : ℤ) :
    compressLoop fRead fWrite outLen rounds err tei fsize pos wpos =
      compressLoop fRead fWrite outLen (chunkCount fsize) err tei fsize pos wpos := by
  refine countdown_rounds (S := ℤ × List Byte × ℤ × ℤ)
    (L := fun n fsize s => compressLoop fRead fWrite outLen n s.1 s.2.1 fsize s.2.2.1 s.2.2.2) ?_ ?_ h (err,tei,pos,wpos)
  · intro n fsize s hend
    simp [compressLoop, Int.not_lt.mpr hend]
  · intro n m fsize hpos hrest s
    simp only [compressLoop, if_pos hpos]
    have hall : ∀ e t a b, compressLoop fRead fWrite outLen n e t (nextChunk fsize).2 a b =
      compressLoop fRead fWrite outLen m e t (nextChunk fsize).2 a b := fun e t a b => hrest (e,t,a,b)
    simp only [hall]

theorem decompressLoop_rounds {rounds : ℕ} {fsize : ℤ} (h : chunkCount fsize ≤ rounds) (locals : FrameLocals)
    (pos wpos : ℤ) :
    decompressLoop fRead fWrite rounds locals fsize pos wpos =
      decompressLoop fRead fWrite (chunkCount fsize) locals fsize pos wpos := by
  refine countdown_rounds (L := fun n fsize s => decompressLoop fRead fWrite n s.1 fsize s.2.1 s.2.2) ?_ ?_ h
    (locals,pos,wpos)
  · intro n fsize s hend
    simp [decompressLoop, Int.not_lt.mpr hend]
  · intro n m fsize hpos hrest s
    simp only [decompressLoop, if_pos hpos]
    have hall : ∀ l a b, decompressLoop fRead fWrite n l (nextChunk fsize).2 a b =
      decompressLoop fRead fWrite m l (nextChunk fsize).2 a b := fun l a b => hrest (l,a,b)
    simp only [hall]

end Loops

section Copy
variable (P : Platform) {infile trashbinfile : File} {past : List (List Byte)} {c o : List Byte} (t : Task) {fs : Fs}

/-- The copy loop is left within a round for each page and one more. -/
theorem copyLoop_rounds (h : Transfer infile trashbinfile past c o fs) :
    ∃ exit s, (copyLoop infile trashbinfile (c.length / PAGE_SIZE + 1) 0 0).run (Kernel.handle P) (t,fs) = (some exit,s) ∧
      exit ≠ .running := by
  obtain ⟨K,hK,hle⟩ := exists_stops t.faults.reads t.faults.writes c
  have hrounds : K ≤ c.length / PAGE_SIZE := by
    rw [Nat.le_div_iff_mul_le (by decide), Nat.mul_comm]
    exact hle
  obtain ⟨t',fs',hrun,-⟩ := copyLoop_run P hK (Nat.zero_le K) ⟨h,Nat.zero_le _⟩ rfl rfl (c.length / PAGE_SIZE + 1)
  rw [if_neg (by omega)] at hrun
  refine ⟨_,_,hrun,?_⟩
  split <;> exact CopyExit.noConfusion

end Copy

/-- Whatever the calls return, the copy loop is left within `c.length / PAGE_SIZE + 1` rounds, and no chunk
loop makes more rounds than its size has chunks: with that budget it is what it is with any larger one. -/
theorem loops_terminate (P : Platform) :
    (∀ (infile trashbinfile : File) (past : List (List Byte)) (c o : List Byte) (t : Task) (fs : Fs),
      Transfer infile trashbinfile past c o fs →
      ∃ exit s, (copyLoop infile trashbinfile (c.length / PAGE_SIZE + 1) 0 0).run (Kernel.handle P) (t,fs) =
        (some exit,s) ∧ exit ≠ .running) ∧
    ∀ (fRead fWrite : File) (fsize pos wpos : ℤ) (rounds : ℕ), chunkCount fsize ≤ rounds →
      (∀ key, encryptLoop fRead fWrite key rounds fsize pos wpos =
        encryptLoop fRead fWrite key (chunkCount fsize) fsize pos wpos) ∧
      (∀ outLen err tei, compressLoop fRead fWrite outLen rounds err tei fsize pos wpos =
        compressLoop fRead fWrite outLen (chunkCount fsize) err tei fsize pos wpos) ∧
      (∀ locals, decompressLoop fRead fWrite rounds locals fsize pos wpos =
        decompressLoop fRead fWrite (chunkCount fsize) locals fsize pos wpos) := by
  constructor
  · intro infile trashbinfile past c o t fs h
    exact copyLoop_rounds P t h
  · intro fRead fWrite fsize pos wpos rounds h
    refine ⟨fun key => ?_,fun outLen err tei => ?_,fun locals => ?_⟩
    · exact encryptLoop_rounds fRead fWrite key h pos wpos
    · exact compressLoop_rounds fRead fWrite outLen h err tei pos wpos
    · exact decompressLoop_rounds fRead fWrite h locals pos wpos

/-- Three bytes take one round of any loop. -/
theorem loops_terminate_three :
    (∃ exit s, (copyLoop ⟨['/','a'],0⟩ ⟨['/','t'],0⟩ 1 0 0).run (Kernel.handle .bare) (Task.fresh ['/'] 0 {},
        Fs.ofList [(['/','a'],[1,2,3]),(['/','t'],[])]) = (some exit,s) ∧ exit ≠ .running) ∧
      ∀ locals, decompressLoop ⟨['/','a'],0⟩ ⟨['/','t'],0⟩ 3 locals 3 0 0 =
        decompressLoop ⟨['/','a'],0⟩ ⟨['/','t'],0⟩ 1 locals 3 0 0 :=
  ⟨(loops_terminate .bare).1 _ _ [] [1,2,3] [] _ _ ⟨rfl,rfl,rfl,by decide⟩,
    ((loops_terminate .bare).2 _ _ 3 0 0 3 (by decide)).2.2⟩

end XClone
