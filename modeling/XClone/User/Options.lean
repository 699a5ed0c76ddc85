import XClone.Sync.Unlink
import XClone.Sync.EncComp
import XClone.Sync.Names
import Mathlib.Data.Finset.Basic
import Mathlib.Data.Finset.Insert

/-! # From option letters to an operation

`main` of `xclone2.c` folds the letters into a word of flags and hands it to `clone`; the
patched kernel keeps it with the child. The synchronous module compares it with four decimal
numbers, the asynchronous one tests it with a mask.
-/
namespace XClone
open Effects Prog

/-! ## `flags.h`, `params.h` -/

def CLONE_PROT_MV : BitVec 32 := 0xff1
def CLONE_PROT_ZIP : BitVec 32 := 0xff2
def CLONE_PROT_ENC : BitVec 32 := 0xff4

/-- `struct Param`, and with the same layout `struct wq_data`. -/
structure Param where
  fname : Option Path
  b1 : BitVec 32

/-! ## `main` -/

/-- The option letters and the other arguments, as `getopt` of the C library sorts them. -/
def getopt : List (List Char) → List Char × List Path
  | [] => ([],[])
  | ['-','-'] :: args => ([],args)
  | ('-' :: c :: letters) :: args => (c :: letters ++ (getopt args).1,(getopt args).2)
  | arg :: args => ((getopt args).1,arg :: (getopt args).2)

/-- The loop over the letters; `none` when it leaves at `'?'`. -/
def optionLoop : List Char → BitVec 32 → Option (BitVec 32)
  | [], b1 => some b1
  | c :: letters, b1 =>
    if c = 'm' then optionLoop letters (b1 ||| CLONE_PROT_MV)
    else if c = 'c' then optionLoop letters (b1 ||| CLONE_PROT_ZIP)
    else if c = 'e' then optionLoop letters (b1 ||| CLONE_PROT_ENC)
    else none

/-- How `main` ends: with a code, or with a child that runs the system call. -/
inductive MainExit where
  | returned (code : ℤ)
  | cloned (flags : BitVec 32) (params : Param)

/-- `main`, on the arguments behind its own name and with all three `malloc` granted. -/
def main (argv : List (List Char)) : MainExit :=
  match optionLoop (getopt argv).1 0 with
  | none => .returned 1
  | some b1 =>
    match (getopt argv).2 with
    | [] => .returned (-1)
    | fname :: _ =>
      let params : Param := ⟨some fname,b1⟩
      if b1 = CLONE_PROT_MV then .cloned CLONE_PROT_MV params
      else if b1 = CLONE_PROT_ZIP then .cloned CLONE_PROT_ZIP params
      else if b1 = CLONE_PROT_ENC then .cloned CLONE_PROT_ENC params
      else if b1 = CLONE_PROT_MV ||| CLONE_PROT_ENC then .cloned (CLONE_PROT_MV ||| CLONE_PROT_ENC) params
      else if b1 = CLONE_PROT_MV ||| CLONE_PROT_ZIP then .cloned (CLONE_PROT_MV ||| CLONE_PROT_ZIP) params
      else if b1 = CLONE_PROT_ENC ||| CLONE_PROT_ZIP then .cloned (CLONE_PROT_ENC ||| CLONE_PROT_ZIP) params
      else if b1 = CLONE_PROT_MV ||| CLONE_PROT_ENC ||| CLONE_PROT_ZIP then
        .cloned (CLONE_PROT_MV ||| CLONE_PROT_ENC ||| CLONE_PROT_ZIP) params
      else .returned 0

/-- The patched kernel keeps the flags of `clone` as an `unsigned long`. -/
def xcloneFlag (flags : BitVec 32) : BitVec 64 := flags.signExtend 64

/-! ## `xclone2` and `xclone2async` -/

/-- What `xclone2` calls; `oops` is a read through a null pointer. -/
structure Operations (m : Type → Type) where
  processunlink : Param → m ℤ
  processcompress : Option Path → m ℤ
  processencryption : Option Path → m ℤ
  processEncComp : Option Path → m ℤ
  oops : m ℤ

section Syscalls
variable {m : Type → Type} [Monad m]

def xclone2 (ops : Operations m) (flag : BitVec 64) : Option Param → m ℤ
  | none =>
    -- each branch reads `param->fname` before `arg` is tested
    if flag = 4081 ∨ flag = 4083 ∨ flag = 4085 ∨ flag = 4087 then ops.oops else pure einval
  | some param => do
    if flag = 4081 then
      ops.processunlink param
    else
      if flag = 4083 then let _errZip ← ops.processcompress param.fname
      else if flag = 4085 then let _errEnc ← ops.processencryption param.fname
      else if flag = 4087 then let _encErrZip ← ops.processEncComp param.fname
      match param.fname with
      | none => return einval
      | some _ => return 0

def xclone2async (insertIntoHeadJob : Param → m ℤ) (wakeUpAll : m Unit) (flag : BitVec 64) :
    Option Param → m ℤ
  | none => return einval
  | some ⟨none,_⟩ => return einval
  | some ⟨some fname,_⟩ => do
    let b1 := flag.setWidth 32
    if b1 &&& CLONE_PROT_MV = CLONE_PROT_MV then
      let err ← insertIntoHeadJob ⟨some fname,b1⟩
      if err = 0 then wakeUpAll
      return err
    else return 0

/-- `child_clone`, with what `stat` leaves in `st.st_size`; a failed `stat` leaves what was there. -/
def childClone (xclone2async xclone2 : Option Param → m ℤ) (stSize : BitVec 64) (param : Param) : m ℤ :=
  let size := (stSize.setWidth 32).toInt
  if 4096 < size then xclone2async (some param) else xclone2 (some param)

end Syscalls

/-! ## The word of a list of letters -/

def flagWord (m c e : Bool) : BitVec 32 :=
  (if m then CLONE_PROT_MV else 0) ||| (if c then CLONE_PROT_ZIP else 0) ||| (if e then CLONE_PROT_ENC else 0)

def wordOf (letters : List Char) : BitVec 32 := flagWord ('m' ∈ letters) ('c' ∈ letters) ('e' ∈ letters)

theorem flagWord_or_m : ∀ m c e : Bool, CLONE_PROT_MV ||| flagWord m c e = flagWord true c e := by decide
theorem flagWord_or_c : ∀ m c e : Bool, CLONE_PROT_ZIP ||| flagWord m c e = flagWord m true e := by decide
theorem flagWord_or_e : ∀ m c e : Bool, CLONE_PROT_ENC ||| flagWord m c e = flagWord m c true := by decide

/-- Order and repetition of the letters do not matter. -/
theorem optionLoop_eq {letters : List Char} (h : ∀ x ∈ letters, x ∈ ['m','c','e']) (b1 : BitVec 32) :
    optionLoop letters b1 = some (b1 ||| wordOf letters) := by
  induction letters generalizing b1 with
  | nil => simp [optionLoop, wordOf, flagWord]
  | cons x letters ih =>
    have hrest := ih (fun y hy => h y (List.mem_cons_of_mem _ hy))
    have hx := h x List.mem_cons_self
    simp only [List.mem_cons, List.not_mem_nil, or_false] at hx
    rcases hx with rfl | rfl | rfl
    · rw [optionLoop, if_pos rfl, hrest, wordOf, BitVec.or_assoc, flagWord_or_m]
      simp [wordOf]
    · rw [optionLoop, if_neg (by decide), if_pos rfl, hrest, wordOf, BitVec.or_assoc, flagWord_or_c]
      simp [wordOf]
    · rw [optionLoop, if_neg (by decide), if_neg (by decide), if_pos rfl, hrest, wordOf, BitVec.or_assoc,
        flagWord_or_e]
      simp [wordOf]

theorem optionLoop_other {letters : List Char} (h : ∃ x ∈ letters, x ∉ ['m','c','e']) (b1 : BitVec 32) :
    optionLoop letters b1 = none := by
  induction letters generalizing b1 with
  | nil =>
    obtain ⟨_,hm,_⟩ := h
    cases hm
  | cons x letters ih =>
    obtain ⟨y,hm,hy⟩ := h
    rcases List.mem_cons.mp hm with rfl | hm
    · simp only [List.mem_cons, List.not_mem_nil, or_false, not_or] at hy
      rw [optionLoop, if_neg hy.1, if_neg hy.2.1, if_neg hy.2.2]
    · rw [optionLoop]
      simp only [ih ⟨y,hm,hy⟩, ite_self]

/-- Every word but the empty one is handed to `clone` as it is. -/
theorem main_eq {argv : List (List Char)} {fname : Path} {rest : List Path}
    (hletters : ∀ x ∈ (getopt argv).1, x ∈ ['m','c','e']) (hfile : (getopt argv).2 = fname :: rest) :
    main argv = if wordOf (getopt argv).1 = 0 then .returned 0
      else .cloned (wordOf (getopt argv).1) ⟨some fname,wordOf (getopt argv).1⟩ := by
  have hzero : 0 ||| wordOf (getopt argv).1 = wordOf (getopt argv).1 := BitVec.zero_or
  rw [main, optionLoop_eq hletters, hfile, hzero]
  unfold wordOf
  generalize decide ('m' ∈ (getopt argv).1) = m
  generalize decide ('c' ∈ (getopt argv).1) = c
  generalize decide ('e' ∈ (getopt argv).1) = e
  cases m <;> cases c <;> cases e <;> rfl

/-! ## The operation of a set of letters -/

def Operation.letters : Operation → Finset Char
  | .move => {'m'}
  | .compress => {'m','c'}
  | .encrypt => {'m','e'}
  | .encComp => {'m','c','e'}

/-- The operations, each of which only notes that it was called, and for which file. -/
def operationLog : Operations (StateM (List (Operation × Option Path))) :=
  let note (op : Operation) (fname : Option Path) : StateM (List (Operation × Option Path)) ℤ := do
    modify (· ++ [(op,fname)])
    return 0
  ⟨fun param => note .move param.fname,note .compress,note .encrypt,note .encComp,pure 0⟩

/-- What `xclone2` runs for the child that `main` leaves behind, and for which file. -/
def filesRun : MainExit → List (Operation × Option Path)
  | .returned _ => []
  | .cloned flags params => (xclone2 operationLog (xcloneFlag flags) (some params) []).2

/-- The operations alone. -/
def operationsRun (child : MainExit) : List Operation := (filesRun child).map Prod.fst

/-- The jobs that `xclone2async` inserts for this child. -/
def jobsInserted : MainExit → List Param
  | .returned _ => []
  | .cloned flags params =>
    (xclone2async (m := StateM (List Param)) (fun job => do modify (· ++ [job]); return 0) (pure ())
      (xcloneFlag flags) (some params) []).2

def operationOf (m c e : Bool) : Option Operation :=
  if m then some (if c then if e then .encComp else .compress else if e then .encrypt else .move) else none

/-- What the chosen operation amounts to: only a plain move hands its result on. -/
def Operations.perform {n : Type → Type} [Monad n] (ops : Operations n) (op : Option Operation) (param : Param) : n ℤ :=
  match op with
  | none => pure 0
  | some .move => ops.processunlink param
  | some .compress => do
    let _errZip ← ops.processcompress param.fname
    return 0
  | some .encrypt => do
    let _errEnc ← ops.processencryption param.fname
    return 0
  | some .encComp => do
    let _encErrZip ← ops.processEncComp param.fname
    return 0

theorem operationOf_eq_iff : ∀ (m c e : Bool) (op : Operation), operationOf m c e = some op ↔
    (m = decide ('m' ∈ op.letters) ∧ c = decide ('c' ∈ op.letters) ∧ e = decide ('e' ∈ op.letters)) := by
  intro m c e op
  cases m <;> cases c <;> cases e <;> cases op <;> decide

/-- The letters of the operations, checked one by one. -/
theorem mem_of_all {letters : List Char} (h : letters.all (fun x => x ∈ ['m','c','e']) = true) :
    ∀ x ∈ letters, x ∈ ['m','c','e'] := fun x hx => of_decide_eq_true (List.all_eq_true.mp h x hx)

theorem toFinset_eq_iff {letters : List Char} (h : ∀ x ∈ letters, x ∈ ['m','c','e']) (op : Operation) :
    letters.toFinset = op.letters ↔ operationOf ('m' ∈ letters) ('c' ∈ letters) ('e' ∈ letters) = some op := by
  have hop : ∀ x ∈ op.letters, x ∈ ['m','c','e'] := by
    cases op <;> simp [Operation.letters]
  rw [operationOf_eq_iff]
  simp only [decide_eq_decide]
  constructor
  · intro hs
    simp only [← hs, List.mem_toFinset, and_self]
  · rintro ⟨hm,hc,he⟩
    have hsub : ∀ x ∈ ['m','c','e'], x ∈ letters ↔ x ∈ op.letters := by
      intro x hx
      simp only [List.mem_cons, List.not_mem_nil, or_false] at hx
      rcases hx with rfl | rfl | rfl
      · exact hm
      · exact hc
      · exact he
    ext x
    rw [List.mem_toFinset]
    exact ⟨fun hx => (hsub x (h x hx)).mp hx,fun hx => (hsub x (hop x hx)).mpr hx⟩

section Words
variable (m c e : Bool) (fname : Path)

theorem xclone2_word {n : Type → Type} [Monad n] [LawfulMonad n] (ops : Operations n) :
    xclone2 ops (xcloneFlag (flagWord m c e)) (some ⟨some fname,flagWord m c e⟩) =
      ops.perform (operationOf m c e) ⟨some fname,flagWord m c e⟩ := by
  cases m <;> cases c <;> cases e <;> rfl

theorem filesRun_word : filesRun (.cloned (flagWord m c e) ⟨some fname,flagWord m c e⟩) =
    (operationOf m c e).toList.map (fun op => (op,some fname)) := by
  cases m <;> cases c <;> cases e <;> rfl

theorem operationsRun_word : operationsRun (.cloned (flagWord m c e) ⟨some fname,flagWord m c e⟩) =
    (operationOf m c e).toList := by
  cases m <;> cases c <;> cases e <;> rfl

theorem jobsInserted_word : jobsInserted (.cloned (flagWord m c e) ⟨some fname,flagWord m c e⟩) =
    if m then [⟨some fname,flagWord m c e⟩] else [] := by
  cases m <;> cases c <;> cases e <;> rfl

end Words

theorem operationOf_of_flagWord_eq_zero : ∀ m c e : Bool, flagWord m c e = 0 → m = false ∧ operationOf m c e = none := by
  decide

theorem operationsRun_none {letters : List Char} (h : wordOf letters = 0) : operationsRun (.returned 0) =
    (operationOf ('m' ∈ letters) ('c' ∈ letters) ('e' ∈ letters)).toList := by
  rw [(operationOf_of_flagWord_eq_zero _ _ _ h).2]
  rfl

theorem notMem_of_wordOf_eq_zero {letters : List Char} (h : wordOf letters = 0) : 'm' ∉ letters :=
  of_decide_eq_false (operationOf_of_flagWord_eq_zero _ _ _ h).1

/-- The set of letters decides what runs, whatever their order, and a strange letter stops `main`. -/
theorem options_reach_operation (argv : List (List Char)) :
    ((∀ x ∈ (getopt argv).1, x ∈ ['m','c','e']) → (getopt argv).2 ≠ [] →
      (∀ op, operationsRun (main argv) = [op] ↔ (getopt argv).1.toFinset = op.letters) ∧
      ((∀ op : Operation, (getopt argv).1.toFinset ≠ op.letters) → operationsRun (main argv) = [] ∧
        ∀ flags params, main argv = .cloned flags params → ∀ (n : Type → Type) [Monad n] [LawfulMonad n]
          (ops : Operations n), xclone2 ops (xcloneFlag flags) (some params) = pure 0) ∧
      (jobsInserted (main argv) ≠ [] ↔ 'm' ∈ (getopt argv).1.toFinset)) ∧
    ((∃ x ∈ (getopt argv).1, x ∉ ['m','c','e']) → ∀ flags params, main argv ≠ .cloned flags params) := by
  refine ⟨?_,?_⟩
  · intro hletters hfile
    obtain ⟨fname,rest,hrest⟩ := List.exists_cons_of_ne_nil hfile
    have hmain := main_eq hletters hrest
    have hset := toFinset_eq_iff hletters
    have hruns : operationsRun (main argv) = (operationOf ('m' ∈ (getopt argv).1) ('c' ∈ (getopt argv).1)
        ('e' ∈ (getopt argv).1)).toList := by
      rw [hmain]
      split
      · next hzero => exact operationsRun_none hzero
      · exact operationsRun_word _ _ _ _
    refine ⟨?_,?_,?_⟩
    · intro op
      rw [hruns, hset op, Option.toList_eq_singleton_iff]
    · intro hno
      have hnone : operationOf ('m' ∈ (getopt argv).1) ('c' ∈ (getopt argv).1) ('e' ∈ (getopt argv).1) = none :=
        Option.eq_none_iff_forall_ne_some.mpr (fun op h => hno op ((hset op).mpr h))
      refine ⟨by rw [hruns, hnone]; rfl,?_⟩
      intro flags params hclone n _ _ ops
      rw [hmain] at hclone
      split at hclone
      · cases hclone
      · cases hclone
        rw [wordOf, xclone2_word, hnone]
        rfl
    · rw [hmain, List.mem_toFinset]
      split
      · next hzero => exact iff_of_false (fun h => h rfl) (notMem_of_wordOf_eq_zero hzero)
      · rw [wordOf, jobsInserted_word]
        by_cases hm : 'm' ∈ (getopt argv).1
        · simp [hm]
        · simp [hm]
  · intro hother flags params hclone
    rw [main, optionLoop_other hother] at hclone
    cases hclone

theorem options_reach_repeated :
    ((∀ x ∈ (getopt [['-','e','m'],['f'],['-','m']]).1, x ∈ ['m','c','e']) ∧
      operationsRun (main [['-','e','m'],['f'],['-','m']]) = [.encrypt]) := by
  have h := (options_reach_operation [['-','e','m'],['f'],['-','m']]).1 (mem_of_all (by decide)) (by decide)
  exact ⟨mem_of_all (by decide),(h.1 .encrypt).mpr (by decide)⟩

end XClone
