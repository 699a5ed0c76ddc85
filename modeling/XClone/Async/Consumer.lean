import XClone.Async.Queue
import XClone.User.Options

/-! # What a consumer does with a job

`process_item` gives the consumer `w_qnode`, whatever was inserted, and `consumer_work_func` fills `args->b1` from
its own thread; it knows no operation but the plain move.
-/
namespace XClone

/-- The end of `consumer_work_func`, after the mutex, in a thread with the given flags; the result is
what the thread returns, or `none` where it goes on to the next job. -/
def consumerWork {m : Type → Type} [Monad m] (processunlinkAsync : Param → m ℤ) (flag : BitVec 64) :
    Param → m (Option ℤ)
  | ⟨none,_⟩ => return some (-1)
  | ⟨some fname,_⟩ => do
    let b1 := flag.setWidth 32
    if b1 &&& CLONE_PROT_MV = CLONE_PROT_MV then
      let _err ← processunlinkAsync ⟨some fname,b1⟩
      return none
    else return none

/-- The operations that a consumer runs for a record. -/
def consumerOperations (flag : BitVec 64) (workitem : Param) : List (Operation × Option Path) :=
  (consumerWork (m := StateM (List (Operation × Option Path))) operationLog.processunlink flag workitem []).2

/-- The job that a data pointer leads to. -/
def WqData.workitem {J : Type} : WqData J → Option J
  | .job workitem => some workitem
  | _ => none

/-- The memory that a request meets: what the data pointer of `w_qnode` holds, the node that `kmalloc` gives, and what
was in it. -/
structure QueueMemory where
  garbage : WqData Param
  node : Addr
  stale : Addr × Addr
  node_ne : node ≠ wQnode

/-- The record with which a consumer comes out of `process_item` when the job is the only one in the queue. -/
def recordTaken (mem : QueueMemory) (job : Param) : Option Param := do
  let q ← (WQueue.empty mem.garbage).insertNode mem.node mem.stale job
  let (node,q) ← q.processItem 2
  let node ← node
  (q.wqDataNode node).workitem

/-- What becomes of an inserted job: the operations of the consumer that takes a node for it. -/
def operationsConsumed (mem : QueueMemory) (flag : BitVec 64) (job : Param) : List (Operation × Option Path) :=
  ((recordTaken mem job).map (consumerOperations flag)).getD []

/-- What is run, and for which file, when the child that `main` leaves behind calls `xclone2async`. -/
def operationsAsync (mem : QueueMemory) (flag : BitVec 64) : MainExit → List (Operation × Option Path)
  | .returned _ => []
  | .cloned flags params =>
    let insertIntoHeadJob (job : Param) : StateM (List (Operation × Option Path)) ℤ := do
      modify (· ++ operationsConsumed mem flag job)
      return 0
    (xclone2async insertIntoHeadJob (pure ()) (xcloneFlag flags) (some params) []).2

/-- What is run, and for which file, for the child itself: `child_clone` chooses the system call. -/
def operationsPerformed (mem : QueueMemory) (flag : BitVec 64) (stSize : BitVec 64) :
    MainExit → List (Operation × Option Path)
  | .returned _ => []
  | .cloned flags params =>
    let insertIntoHeadJob (job : Param) : StateM (List (Operation × Option Path)) ℤ := do
      modify (· ++ operationsConsumed mem flag job)
      return 0
    (childClone (xclone2async insertIntoHeadJob (pure ()) (xcloneFlag flags)) (xclone2 operationLog (xcloneFlag flags))
      stSize params []).2

/-- A thread that carries the bits of a move. -/
def Moves (flag : BitVec 64) : Prop := flag.setWidth 32 &&& CLONE_PROT_MV = CLONE_PROT_MV

instance (flag : BitVec 64) : Decidable (Moves flag) := inferInstanceAs (Decidable (_ = _))

/-- The consumer gets the record of `w_qnode`, if it survives, and never the job. -/
theorem recordTaken_eq (mem : QueueMemory) (job : Param) : recordTaken mem job = mem.garbage.workitem := by
  have hnew : mem.node ∉ [wQnode] := by simp [mem.node_ne]
  obtain ⟨q,hadd,hring,hdata⟩ := insertNode_isRing (empty_isRing mem.garbage) hnew mem.stale job
  have hrecord : q.wqDataNode wQnode = mem.garbage := by
    rw [hdata, Function.update_of_ne mem.node_ne.symm]
    simp [WQueue.empty]
  rw [recordTaken, hadd, Option.bind_eq_bind, Option.bind_some]
  cases htake : q.processItem 2 with
  | none =>
    have hwild : mem.garbage.readable ≠ true := by
      intro hread
      have hsome := processItem_isSome hring (hrecord ▸ hread)
      rw [List.nil_append, List.length_singleton, htake] at hsome
      cases hsome
    cases hgarbage : mem.garbage with
    | wild => rfl
    | nameless => exact absurd (by rw [hgarbage]; rfl) hwild
    | job workitem => exact absurd (by rw [hgarbage]; rfl) hwild
  | some out =>
    obtain ⟨r,q'⟩ := out
    obtain ⟨hread,-,hkept,hr⟩ := processItem_eq htake
    rw [hrecord] at hr hread
    rw [hr]
    cases hgarbage : mem.garbage with
    | wild =>
      rw [hgarbage] at hread
      cases hread
    | nameless => rfl
    | job workitem =>
      change (q'.wqDataNode wQnode).workitem = some workitem
      rw [hkept, hrecord, hgarbage]
      rfl

theorem consumerOperations_none (flag : BitVec 64) (b1 : BitVec 32) : consumerOperations flag ⟨none,b1⟩ = [] := rfl

theorem consumerOperations_some (flag : BitVec 64) (fname : Path) (b1 : BitVec 32) :
    consumerOperations flag ⟨some fname,b1⟩ = if Moves flag then [(.move,some fname)] else [] := by
  by_cases h : Moves flag
  · have hmask : flag.setWidth 32 &&& CLONE_PROT_MV = CLONE_PROT_MV := h
    simp only [consumerOperations, consumerWork, if_pos h, if_pos hmask]
    rfl
  · have hmask : ¬ flag.setWidth 32 &&& CLONE_PROT_MV = CLONE_PROT_MV := h
    simp only [consumerOperations, consumerWork, if_neg h, if_neg hmask]
    rfl

/-- The consumer moves the one file that `w_qnode` leads to by chance. -/
theorem operationsConsumed_eq_iff (mem : QueueMemory) (flag : BitVec 64) (job : Param) (fname : Path) :
    operationsConsumed mem flag job = [(.move,some fname)] ↔ Moves flag ∧ ∃ b1, mem.garbage = .job ⟨some fname,b1⟩ := by
  rw [operationsConsumed, recordTaken_eq]
  cases hgarbage : mem.garbage with
  | wild => simp [WqData.workitem]
  | nameless => simp [WqData.workitem]
  | job workitem =>
    obtain ⟨name,b1⟩ := workitem
    cases name with
    | none => simp [WqData.workitem, consumerOperations_none]
    | some name =>
      rw [WqData.workitem, Option.map_some, Option.getD_some, consumerOperations_some]
      by_cases hflag : Moves flag
      · simp [hflag]
      · simp [hflag]

/-- It runs nothing else. -/
theorem mem_operationsConsumed {mem : QueueMemory} {flag : BitVec 64} {job : Param} {op : Operation} {fname : Option Path}
    (h : (op,fname) ∈ operationsConsumed mem flag job) : op = .move := by
  rw [operationsConsumed, recordTaken_eq] at h
  cases hgarbage : mem.garbage with
  | wild => simp [hgarbage, WqData.workitem] at h
  | nameless => simp [hgarbage, WqData.workitem] at h
  | job workitem =>
    obtain ⟨name,b1⟩ := workitem
    rw [hgarbage, WqData.workitem, Option.map_some, Option.getD_some] at h
    cases name with
    | none => simp [consumerOperations_none] at h
    | some name =>
      rw [consumerOperations_some] at h
      split at h
      · exact (Prod.mk.inj (List.mem_singleton.mp h)).1
      · cases h

theorem operationsPerformed_eq (mem : QueueMemory) (flag stSize : BitVec 64) (child : MainExit) :
    operationsPerformed mem flag stSize child =
      if 4096 < (stSize.setWidth 32).toInt then operationsAsync mem flag child else filesRun child := by
  cases child with
  | returned code => simp [operationsPerformed, operationsAsync, filesRun]
  | cloned flags params =>
    by_cases hlarge : 4096 < (stSize.setWidth 32).toInt
    · simp only [operationsPerformed, childClone, if_pos hlarge]
      rfl
    · simp only [operationsPerformed, childClone, if_neg hlarge]
      rfl

theorem moves_flagWord : ∀ c e : Bool, Moves ((flagWord true c e).setWidth 64) := by decide

section Agreement
variable (mem : QueueMemory) (flag : BitVec 64) (fname : Path)

theorem operationsAsync_word (m c e : Bool) :
    operationsAsync mem flag (.cloned (flagWord m c e) ⟨some fname,flagWord m c e⟩) =
      if m then operationsConsumed mem flag ⟨some fname,flagWord m c e⟩ else [] := by
  cases m <;> cases c <;> cases e <;> rfl

/-- What both paths do for a word, and what the consumer would do with the record and the flags of the job. -/
theorem agreement_word (m c e : Bool) :
    (operationsAsync mem flag (.cloned (flagWord m c e) ⟨some fname,flagWord m c e⟩) =
        filesRun (.cloned (flagWord m c e) ⟨some fname,flagWord m c e⟩) ∧
      ∀ job ∈ jobsInserted (.cloned (flagWord m c e) ⟨some fname,flagWord m c e⟩),
        operationsConsumed mem flag job = consumerOperations (job.b1.setWidth 64) job) ↔
      m = false ∨ operationOf m c e = some .move ∧ Moves flag ∧ ∃ b1, mem.garbage = .job ⟨some fname,b1⟩ := by
  rw [operationsAsync_word, filesRun_word, jobsInserted_word]
  cases m with
  | false => simp [operationOf]
  | true =>
    have hjob := moves_flagWord c e
    have hmoves : consumerOperations ((flagWord true c e).setWidth 64) ⟨some fname,flagWord true c e⟩ =
        [(.move,some fname)] := by
      rw [consumerOperations_some, if_pos hjob]
    have hmoved := operationsConsumed_eq_iff mem flag ⟨some fname,flagWord true c e⟩ fname
    simp only [if_true, List.mem_singleton, forall_eq, hmoves, hmoved, Bool.true_eq_false, false_or]
    constructor
    · rintro ⟨hsync,hown⟩
      refine ⟨?_,hown⟩
      rw [hmoved.mpr hown] at hsync
      cases hop : operationOf true c e with
      | none => simp [hop] at hsync
      | some op =>
        rw [hop] at hsync
        exact congrArg some (Prod.mk.inj (List.cons.inj hsync).1).1.symm
    · rintro ⟨hop,hown⟩
      refine ⟨?_,hown⟩
      rw [hmoved.mpr hown, hop]
      rfl

/-- The two paths agree on the words that move nothing, and on the plain move when the consumer happens to carry its
bits and the data pointer of `w_qnode` happens to lead to a record of the file. -/
theorem async_agrees_iff {argv : List (List Char)} {rest : List Path}
    (hletters : ∀ x ∈ (getopt argv).1, x ∈ ['m','c','e']) (hfile : (getopt argv).2 = fname :: rest) :
    (operationsAsync mem flag (main argv) = filesRun (main argv) ∧
      ∀ job ∈ jobsInserted (main argv), operationsConsumed mem flag job = consumerOperations (job.b1.setWidth 64) job) ↔
      'm' ∉ (getopt argv).1.toFinset ∨
        (getopt argv).1.toFinset = Operation.move.letters ∧ Moves flag ∧ ∃ b1, mem.garbage = .job ⟨some fname,b1⟩ := by
  rw [main_eq hletters hfile, toFinset_eq_iff hletters .move, List.mem_toFinset]
  split
  · next hzero =>
    have hm := notMem_of_wordOf_eq_zero hzero
    simp [hm, operationsAsync, jobsInserted, filesRun]
  · rw [wordOf, agreement_word, decide_eq_false_iff_not]

/-- What the letters ask for is done to the file exactly when the file is small, or when it is a plain move that a
consumer happens to carry out; the size is an `int`. -/
theorem child_performs_iff {argv : List (List Char)} {rest : List Path} (hfile : (getopt argv).2 = fname :: rest)
    {op : Operation} (hop : (getopt argv).1.toFinset = op.letters) (stSize : BitVec 64) :
    operationsPerformed mem flag stSize (main argv) = [(op,some fname)] ↔
      (stSize.setWidth 32).toInt ≤ 4096 ∨ op = .move ∧ Moves flag ∧ ∃ b1, mem.garbage = .job ⟨some fname,b1⟩ := by
  have hletters : ∀ x ∈ (getopt argv).1, x ∈ ['m','c','e'] := by
    intro x hx
    have hx' : x ∈ op.letters := by
      rw [← hop]
      exact List.mem_toFinset.mpr hx
    cases op <;> simp [Operation.letters] at hx' ⊢ <;> tauto
  have hword := (toFinset_eq_iff hletters op).mp hop
  have hm : decide ('m' ∈ (getopt argv).1) = true := by
    by_contra hno
    simp [operationOf, hno] at hword
  have hne : wordOf (getopt argv).1 ≠ 0 := fun hzero => notMem_of_wordOf_eq_zero hzero (of_decide_eq_true hm)
  rw [operationsPerformed_eq, main_eq hletters hfile, if_neg hne, wordOf, operationsAsync_word, filesRun_word, hword, hm]
  by_cases hlarge : 4096 < (stSize.setWidth 32).toInt
  · rw [if_pos hlarge, if_pos rfl]
    constructor
    · intro h
      have hop := mem_operationsConsumed (h ▸ List.mem_singleton.mpr rfl : (op,some fname) ∈ operationsConsumed mem flag _)
      subst hop
      exact .inr ⟨rfl,(operationsConsumed_eq_iff mem flag _ fname).mp h⟩
    · rintro (hsmall | ⟨rfl,hown⟩)
      · omega
      · exact (operationsConsumed_eq_iff mem flag _ fname).mpr hown
  · rw [if_neg hlarge]
    exact iff_of_true rfl (.inl (not_lt.mp hlarge))

end Agreement

/-- The data pointer of `w_qnode` leads to a record of `f`. -/
def recordOfF : QueueMemory := ⟨.job ⟨some ['f'],0⟩,.node 1,(wQnode,wQnode),by decide⟩

/-- A plain move of `f`, taken by a consumer with the bits of a move. -/
theorem async_agrees_move :
    (operationsAsync recordOfF 0xff1 (main [['-','m'],['f']]) = filesRun (main [['-','m'],['f']]) ∧
      ∀ job ∈ jobsInserted (main [['-','m'],['f']]),
        operationsConsumed recordOfF 0xff1 job = consumerOperations (job.b1.setWidth 64) job) ↔
      'm' ∉ (getopt [['-','m'],['f']]).1.toFinset ∨
        (getopt [['-','m'],['f']]).1.toFinset = Operation.move.letters ∧ Moves 0xff1 ∧
          ∃ b1, recordOfF.garbage = .job ⟨some ['f'],b1⟩ :=
  async_agrees_iff recordOfF 0xff1 ['f'] (mem_of_all (by decide)) rfl

/-- A file of one byte more than 4 GiB is small. -/
theorem child_performs_wrapped : operationsPerformed recordOfF 0 0x100000001 (main [['-','m','e'],['g']]) =
    [(.encrypt,some ['g'])] ↔ ((0x100000001 : BitVec 64).setWidth 32).toInt ≤ 4096 ∨
      Operation.encrypt = .move ∧ Moves 0 ∧ ∃ b1, recordOfF.garbage = .job ⟨some ['g'],b1⟩ :=
  child_performs_iff recordOfF 0 ['g'] rfl (by decide) 0x100000001

/-- A large file that is to be encrypted: another file is moved in plain text, or the consumer dies. -/
theorem async_moves_other : filesRun (main [['-','m','e'],['g']]) = [(.encrypt,some ['g'])] ∧
    operationsAsync recordOfF 0xff5 (main [['-','m','e'],['g']]) = [(.move,some ['f'])] ∧
    operationsAsync {recordOfF with garbage := .wild} 0xff5 (main [['-','m','e'],['g']]) = [] := by
  decide

end XClone
