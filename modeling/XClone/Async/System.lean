import XClone.Async.Queue
import Mathlib.Algebra.BigOperators.Group.Finset.Basic
import Mathlib.Algebra.Order.BigOperators.Group.Finset
import Mathlib.Algebra.BigOperators.Fin
import Mathlib.Data.Fintype.BigOperators
import Mathlib.Logic.Relation
import Mathlib.Tactic.Linarith

/-! # Producers and consumers at the work queue

Any number of threads run `insert_into_head_job`, two run `consumer_work_func`. One step is one
access to the mutex, to a counter or to the list. The mutex has no owner: an unlock lets a
locker in whoever calls it, and a free mutex that is unlocked again may let in two.
-/
namespace XClone

def WQ_maxsize : ℤ := 2
def maxProducers : ℤ := 2
def maxConsumers : ℕ := 2

/-- What the threads do to the list; a result `none` is the death of the caller, which may have changed the list before.
`partway` are the writes of a list operation that other threads can see before it is over. -/
structure ListOps (Q J : Type) where
  insertNode : Q → Addr → J → Option Q → Prop
  processItem : Q → Option Addr → Q → Prop
  kfree : Q → Addr → Q
  partway : Q → Q → Prop

/-- The memory shared by all threads, with a record of the nodes put in and taken out. -/
structure Shared (Q : Type) where
  queue : Q
  wqSize : ℤ
  /-- How many lockers get in before the next unlock. -/
  wqMutex : ℕ
  tProducers : ℤ
  added : List Addr
  taken : List Addr

/-- What an unlock may leave behind. -/
def Unlocked (before after : ℕ) : Prop := 0 < after ∧ after ≤ before + 1

/-- Where a thread is in `insert_into_head_job`; `held` says whether it has the mutex. -/
inductive ProducerPc where
  | idle
  | atLock
  | atTest (held : Bool)
  | atUnlock (held : Bool)
  | atGate
  | atInc
  | atWait
  | atDec
  | atAlloc (held : Bool)
  | atSize (held : Bool)
  | atReturn (held : Bool)
  | returned (held : Bool) (err : ℤ)
  | died
deriving DecidableEq

/-- Where a thread is in `consumer_work_func`. -/
inductive ConsumerPc where
  | atLock
  | atTest
  | atUnlockEmpty
  | atWait
  | atProcess (held : Bool)
  | atDec (held : Bool) (node : Addr)
  | atWakeUp (held : Bool) (node : Addr)
  | atUnlock (held : Bool) (node : Addr)
  | atWork (node : Addr)
  | ended
  | died
deriving DecidableEq

section Steps
variable {Q J : Type} (ops : ListOps Q J)

inductive ProducerStep (workitem : J) : Shared Q → ProducerPc → Shared Q → ProducerPc → Prop where
  | call (g) : ProducerStep workitem g .idle g .atLock
  | lock (g) (n : ℕ) (h : g.wqMutex = n+1) : ProducerStep workitem g .atLock {g with wqMutex := n} (.atTest true)
  | full (g) (held) (h : WQ_maxsize ≤ g.wqSize) : ProducerStep workitem g (.atTest held) g (.atUnlock held)
  | unlock (g) (held) (n : ℕ) (h : Unlocked g.wqMutex n) :
      ProducerStep workitem g (.atUnlock held) {g with wqMutex := n} .atGate
  | pass (g) (h : g.tProducers ≤ maxProducers) : ProducerStep workitem g .atGate g .atInc
  | refuse (g) (h : ¬ g.tProducers ≤ maxProducers) : ProducerStep workitem g .atGate g (.returned false (-1))
  | inc (g) : ProducerStep workitem g .atInc {g with tProducers := g.tProducers + 1} .atWait
  | wake (g) (h : g.wqSize < WQ_maxsize) : ProducerStep workitem g .atWait g .atDec
  | dec (g) : ProducerStep workitem g .atDec {g with tProducers := g.tProducers - 1} (.atTest false)
  | room (g) (held) (h : ¬ WQ_maxsize ≤ g.wqSize) : ProducerStep workitem g (.atTest held) g (.atAlloc held)
  | nomem (g) (held) : ProducerStep workitem g (.atAlloc held) g (.returned held (-1))
  | add (g) (held) (node) (q) (h : ops.insertNode g.queue node workitem (some q)) :
      ProducerStep workitem g (.atAlloc held) {g with queue := q, added := g.added ++ [node]} (.atSize held)
  | addDies (g) (held) (node) (h : ops.insertNode g.queue node workitem none) :
      ProducerStep workitem g (.atAlloc held) g .died
  | size (g) (held) : ProducerStep workitem g (.atSize held) {g with wqSize := g.wqSize + 1} (.atReturn held)
  | ret (g) (held) : ProducerStep workitem g (.atReturn held) g (.returned held 0)

inductive ConsumerStep : Shared Q → ConsumerPc → Shared Q → ConsumerPc → Prop where
  | lock (g) (n : ℕ) (h : g.wqMutex = n+1) : ConsumerStep g .atLock {g with wqMutex := n} .atTest
  | empty (g) (h : g.wqSize = 0) : ConsumerStep g .atTest g .atUnlockEmpty
  | nonempty (g) (h : g.wqSize ≠ 0) : ConsumerStep g .atTest g (.atProcess true)
  | unlockEmpty (g) (n : ℕ) (h : Unlocked g.wqMutex n) :
      ConsumerStep g .atUnlockEmpty {g with wqMutex := n} .atWait
  -- the mutex is not taken again behind the wait
  | wake (g) (h : 0 < g.wqSize) : ConsumerStep g .atWait g (.atProcess false)
  | take (g) (held) (node) (q) (h : ops.processItem g.queue (some node) q) :
      ConsumerStep g (.atProcess held) {g with queue := q, taken := g.taken ++ [node]} (.atDec held node)
  | takeDies (g) (held) (q) (h : ops.processItem g.queue none q) :
      ConsumerStep g (.atProcess held) {g with queue := q} .died
  | dec (g) (held) (node) : ConsumerStep g (.atDec held node) {g with wqSize := g.wqSize - 1} (.atWakeUp held node)
  | wakeUp (g) (held) (node) : ConsumerStep g (.atWakeUp held node) g (.atUnlock held node)
  | unlock (g) (held) (node) (n : ℕ) (h : Unlocked g.wqMutex n) :
      ConsumerStep g (.atUnlock held node) {g with wqMutex := n} (.atWork node)
  | work (g) (node) : ConsumerStep g (.atWork node) {g with queue := ops.kfree g.queue node} .atLock
  | fail (g) (node) : ConsumerStep g (.atWork node) g .ended

end Steps

/-- The system with producers of type `I`. -/
structure System (Q I : Type) where
  shared : Shared Q
  producers : I → ProducerPc
  consumers : Fin maxConsumers → ConsumerPc

section Runs
variable {Q J I : Type} [DecidableEq I] (ops : ListOps Q J) (job : I → J)

/-- One step of one thread, or of an unfinished list operation. -/
inductive Step : System Q I → System Q I → Prop where
  | producer (s : System Q I) (p : I) (g : Shared Q) (pc : ProducerPc)
      (h : ProducerStep ops (job p) s.shared (s.producers p) g pc) :
      Step s ⟨g,Function.update s.producers p pc,s.consumers⟩
  | consumer (s : System Q I) (c : Fin maxConsumers) (g : Shared Q) (pc : ConsumerPc)
      (h : ConsumerStep ops s.shared (s.consumers c) g pc) :
      Step s ⟨g,s.producers,Function.update s.consumers c pc⟩
  | partway (s : System Q I) (q : Q) (h : ops.partway s.shared.queue q) :
      Step s ⟨{s.shared with queue := q},s.producers,s.consumers⟩

def System.initial (q : Q) : System Q I :=
  ⟨⟨q,0,1,0,[],[]⟩,fun _ => .idle,fun _ => .atLock⟩

def Reachable (q : Q) (s : System Q I) : Prop := Relation.ReflTransGen (Step ops job) (System.initial q) s

/-- What every step keeps holds in every reachable state. -/
theorem Reachable.invariant {Inv : System Q I → Prop} {q : Q} {s : System Q I} (h : Reachable ops job q s)
    (hinit : Inv (System.initial q)) (hstep : ∀ s s', Step ops job s s' → Inv s → Inv s') : Inv s := by
  induction h with
  | refl => exact hinit
  | tail _ hs ih => exact hstep _ _ hs ih

end Runs

/-! ## Runs under a condition -/
section While
variable {Q J I : Type} [DecidableEq I] (ops : ListOps Q J) (job : I → J)

/-- A state reached by steps that all meet the condition `C`. -/
def ReachableWhile (C : System Q I → System Q I → Prop) (q : Q) (s : System Q I) : Prop :=
  Relation.ReflTransGen (fun s s' => Step ops job s s' ∧ C s s') (System.initial q) s

variable {ops job} {C : System Q I → System Q I → Prop} {q : Q} {s : System Q I}

theorem ReachableWhile.invariant (Inv : System Q I → Prop) (h : ReachableWhile ops job C q s)
    (hinit : Inv (System.initial q)) (hstep : ∀ s s', Step ops job s s' → C s s' → Inv s → Inv s') : Inv s := by
  induction h with
  | refl => exact hinit
  | tail _ hs ih => exact hstep _ _ hs.1 hs.2 ih

theorem ReachableWhile.reachable (h : ReachableWhile ops job C q s) : Reachable ops job q s := by
  induction h with
  | refl => exact .refl
  | tail _ hs ih => exact ih.tail hs.1

end While

/-! ## Counting threads -/
section Counting
variable {I α : Type} [Fintype I] [DecidableEq I]

/-- When one thread moves, a count over all of them changes by its part. -/
theorem sum_weight_update (weight : α → ℤ) (f : I → α) (i : I) (a : α) :
    ∑ j, weight (Function.update f i a j) + weight (f i) = ∑ j, weight (f j) + weight a := by
  have hcomp : (fun j => weight (Function.update f i a j)) = Function.update (fun j => weight (f j)) i (weight a) := by
    funext j
    by_cases hj : j = i
    · subst hj
      rw [Function.update_self, Function.update_self]
    · rw [Function.update_of_ne hj, Function.update_of_ne hj]
  have hmem : i ∈ (Finset.univ : Finset I) := Finset.mem_univ i
  rw [hcomp, Finset.sum_update_of_mem hmem, ← Finset.sum_sdiff (Finset.subset_univ {i}), Finset.sum_singleton]
  omega

end Counting

/-! ## The permits of the mutex -/

/-- A producer that has the mutex and may still turn it into a queued job. -/
def ProducerPc.permit : ProducerPc → ℤ
  | .atTest true | .atUnlock true | .atAlloc true | .atSize true => 1
  | _ => 0

/-- A consumer that is going to unlock the mutex without taking from the counter again. -/
def ConsumerPc.permit : ConsumerPc → ℤ
  | .atTest | .atUnlockEmpty | .atProcess true | .atDec true _ | .atWakeUp _ _ | .atUnlock _ _ => 1
  | _ => 0

/-- A producer between the increment and the decrement of `t_producers`. -/
def ProducerPc.waiting : ProducerPc → ℤ
  | .atWait | .atDec => 1
  | _ => 0

/-- Where no producer gets to while the queue has room. -/
def ProducerPc.Throttled : ProducerPc → Prop
  | .atTest held => held = false
  | .atAlloc held => held = false
  | .atSize held => held = false
  | .atUnlock _ | .atGate | .atInc | .atWait | .atDec => True
  | _ => False

theorem ProducerPc.permit_nonneg (pc : ProducerPc) : 0 ≤ pc.permit := by
  unfold permit
  split <;> omega

theorem ConsumerPc.permit_nonneg (pc : ConsumerPc) : 0 ≤ pc.permit := by
  unfold permit
  split <;> omega

section Invariants
variable {Q J I : Type} [Fintype I] [DecidableEq I] {ops : ListOps Q J} {job : I → J}

/-- Jobs counted, free permits and permits held. -/
def System.permits (s : System Q I) : ℤ :=
  s.shared.wqSize + s.shared.wqMutex + ∑ p, (s.producers p).permit + ∑ c, (s.consumers c).permit

/-- A producer turns its permit into a job and never gives it back. -/
theorem producerStep_permits {workitem : J} {g g' : Shared Q} {pc pc' : ProducerPc}
    (h : ProducerStep ops workitem g pc g' pc') (ht : ¬ pc.Throttled) (hs : g.wqSize < WQ_maxsize) :
    g'.wqSize + g'.wqMutex + pc'.permit ≤ g.wqSize + g.wqMutex + pc.permit ∧ ¬ pc'.Throttled := by
  cases h with
  | call => exact ⟨le_rfl,id⟩
  | lock n h =>
    rw [h]
    refine ⟨?_,by simp [ProducerPc.Throttled]⟩
    simp only [ProducerPc.permit]
    push_cast
    omega
  | full held h => omega
  | unlock | pass | refuse | inc | wake | dec => exact absurd trivial ht
  | room held h =>
    cases held
    · exact absurd rfl ht
    · exact ⟨le_rfl,by simp [ProducerPc.Throttled]⟩
  | nomem held =>
    refine ⟨?_,id⟩
    have := (ProducerPc.atAlloc held).permit_nonneg
    simp only [ProducerPc.permit] at this ⊢
    omega
  | add held node q h =>
    cases held
    · exact absurd rfl ht
    · exact ⟨le_rfl,by simp [ProducerPc.Throttled]⟩
  | addDies held node h =>
    refine ⟨?_,id⟩
    have := (ProducerPc.atAlloc held).permit_nonneg
    simp only [ProducerPc.permit] at this ⊢
    omega
  | size held =>
    cases held
    · exact absurd rfl ht
    · refine ⟨?_,id⟩
      simp only [ProducerPc.permit]
      omega
  | ret held => exact ⟨le_rfl,id⟩

/-- A consumer that unlocks has taken from the counter first, or has locked before. -/
theorem consumerStep_permits {g g' : Shared Q} {pc pc' : ConsumerPc} (h : ConsumerStep ops g pc g' pc') :
    g'.wqSize + g'.wqMutex + pc'.permit ≤ g.wqSize + g.wqMutex + pc.permit := by
  cases h with
  | lock n h =>
    rw [h]
    simp only [ConsumerPc.permit]
    push_cast
    omega
  | empty | nonempty | wake | work | fail | wakeUp => exact le_rfl
  | unlockEmpty n h =>
    obtain ⟨_,hle⟩ := h
    simp only [ConsumerPc.permit]
    omega
  | take held node q h => cases held <;> exact le_rfl
  | takeDies held q h =>
    have := (ConsumerPc.atProcess held).permit_nonneg
    simp only [ConsumerPc.permit] at this ⊢
    omega
  | dec held node =>
    cases held <;> simp only [ConsumerPc.permit] <;> omega
  | unlock held node n h =>
    obtain ⟨_,hle⟩ := h
    simp only [ConsumerPc.permit]
    omega

/-- The gate's counter follows the producers behind it. -/
theorem producerStep_waiting {workitem : J} {g g' : Shared Q} {pc pc' : ProducerPc}
    (h : ProducerStep ops workitem g pc g' pc') : g'.tProducers - pc'.waiting = g.tProducers - pc.waiting := by
  cases h <;> simp only [ProducerPc.waiting] <;> omega

theorem consumerStep_tProducers {g g' : Shared Q} {pc pc' : ConsumerPc} (h : ConsumerStep ops g pc g' pc') :
    g'.tProducers = g.tProducers := by
  cases h <;> rfl

/-- At most one permit is about, and no producer is behind the test for room. -/
structure Unthrottled (s : System Q I) : Prop where
  permits : s.permits ≤ 1
  free : ∀ p, ¬ (s.producers p).Throttled
  counted : s.shared.tProducers = ∑ p, (s.producers p).waiting

omit [DecidableEq I] in
theorem Unthrottled.wqSize_lt {s : System Q I} (h : Unthrottled s) : s.shared.wqSize < WQ_maxsize := by
  have hp := Finset.sum_nonneg (fun p (_ : p ∈ Finset.univ) => (s.producers p).permit_nonneg)
  have hc := Finset.sum_nonneg (fun c (_ : c ∈ Finset.univ) => (s.consumers c).permit_nonneg)
  have hle := h.permits
  unfold System.permits at hle
  unfold WQ_maxsize
  omega

omit [DecidableEq I] in
theorem unthrottled_initial (q : Q) : Unthrottled (System.initial (I := I) q) := by
  refine ⟨?_,fun _ => id,?_⟩
  · simp [System.permits, System.initial, ProducerPc.permit, ConsumerPc.permit]
  · simp [System.initial, ProducerPc.waiting]

theorem Unthrottled.step {s s' : System Q I} (hs : Step ops job s s') (h : Unthrottled s) : Unthrottled s' := by
  obtain ⟨hpermits,hfree,hcounted⟩ := id h
  unfold System.permits at hpermits
  cases hs with
  | producer p g pc hp =>
    obtain ⟨hle,hthrottled⟩ := producerStep_permits hp (hfree p) h.wqSize_lt
    have hwait := producerStep_waiting hp
    have hsum := sum_weight_update ProducerPc.permit s.producers p pc
    have hwaits := sum_weight_update ProducerPc.waiting s.producers p pc
    refine ⟨?_,?_,?_⟩
    · change g.wqSize + (g.wqMutex : ℤ) + ∑ j, (Function.update s.producers p pc j).permit +
        ∑ c, (s.consumers c).permit ≤ 1
      omega
    · intro p'
      change ¬ (Function.update s.producers p pc p').Throttled
      by_cases hp' : p' = p
      · rw [hp', Function.update_self]
        exact hthrottled
      · rw [Function.update_of_ne hp']
        exact hfree p'
    · change g.tProducers = ∑ j, (Function.update s.producers p pc j).waiting
      omega
  | consumer c g pc hc =>
    have hle := consumerStep_permits hc
    have hsum := sum_weight_update ConsumerPc.permit s.consumers c pc
    refine ⟨?_,hfree,(consumerStep_tProducers hc).trans hcounted⟩
    change g.wqSize + (g.wqMutex : ℤ) + ∑ p, (s.producers p).permit +
      ∑ j, (Function.update s.consumers c pc j).permit ≤ 1
    omega
  | partway q hq => exact ⟨hpermits,hfree,hcounted⟩

theorem Reachable.unthrottled {q : Q} {s : System Q I} (h : Reachable ops job q s) : Unthrottled s :=
  h.invariant ops job (unthrottled_initial q) (fun _ _ hs hi => hi.step hs)

end Invariants

/-! ## The throttle -/

/-- The producers between the increment and the decrement around `wait_event_interruptible`. -/
def System.waitingProducers {Q I : Type} [Fintype I] (s : System Q I) : Finset I :=
  Finset.univ.filter (fun p => s.producers p = .atWait ∨ s.producers p = .atDec)

theorem waiting_eq (pc : ProducerPc) : pc.waiting = if pc = .atWait ∨ pc = .atDec then 1 else 0 := by
  cases pc <;> rfl

/-- `t_producers` counts the waiting producers and stays within its bound. No run reaches the gate, so that both are zero
throughout: the queue never fills, since a producer that inserts a job keeps the mutex until a consumer has taken one. -/
theorem throttle_bound {Q J I : Type} [Fintype I] [DecidableEq I] {ops : ListOps Q J} {job : I → J} {q : Q}
    {s : System Q I} (h : Reachable ops job q s) :
    s.shared.tProducers = s.waitingProducers.card ∧ s.shared.tProducers ≤ maxProducers ∧
      ∀ p, s.producers p = .atGate → maxProducers ≤ s.waitingProducers.card →
        ∀ g pc, ProducerStep ops (job p) s.shared (s.producers p) g pc → pc = .returned false (-1) := by
  have hu := h.unthrottled
  have hcard : s.shared.tProducers = s.waitingProducers.card := by
    rw [hu.counted, System.waitingProducers, Finset.card_filter]
    push_cast
    exact Finset.sum_congr rfl (fun p _ => waiting_eq _)
  have hzero : s.waitingProducers = ∅ := by
    refine Finset.filter_eq_empty_iff.mpr ?_
    rintro p _ (hp | hp)
    · exact hu.free p (hp ▸ trivial)
    · exact hu.free p (hp ▸ trivial)
  refine ⟨hcard,?_,?_⟩
  · rw [hcard, hzero, Finset.card_empty]
    decide
  · intro p hp _ g pc _
    exact absurd (hp ▸ trivial) (hu.free p)

/-- The gate alone is no bound: with two producers waiting, which no run reaches, it admits a third. -/
theorem gate_admits_third {Q J I : Type} [DecidableEq I] (ops : ListOps Q J) (job : I → J) (s : System Q I) (p : I)
    (hp : s.producers p = .atGate) (ht : s.shared.tProducers = maxProducers) :
    ∃ s', Relation.ReflTransGen (Step ops job) s s' ∧ s'.shared.tProducers = maxProducers + 1 := by
  have hpass : Step ops job s ⟨s.shared,Function.update s.producers p .atInc,s.consumers⟩ :=
    .producer s p s.shared .atInc (hp ▸ .pass s.shared ht.le)
  have hinc : Step ops job ⟨s.shared,Function.update s.producers p .atInc,s.consumers⟩
      ⟨{s.shared with tProducers := s.shared.tProducers + 1},
        Function.update (Function.update s.producers p .atInc) p .atWait,s.consumers⟩ := by
    refine .producer _ p _ .atWait ?_
    change ProducerStep ops (job p) s.shared (Function.update s.producers p .atInc p) _ _
    rw [Function.update_self]
    exact .inc s.shared
  refine ⟨_,(Relation.ReflTransGen.single hpass).tail hinc,?_⟩
  change s.shared.tProducers + 1 = _
  rw [ht]

/-! ## The system over the ring -/

/-- The list operations of the module; a new node is one that is not in use and no poison. -/
def ringOps (J : Type) : ListOps (WQueue J) J where
  insertNode q node workitem r :=
    node ≠ wQnode ∧ node ≠ .poison1 ∧ q.wqList.next node = none ∧ ∃ stale, r = q.insertNode node stale workitem
  processItem q r q' :=
    (∃ rounds, q.processItem rounds = some (r,q')) ∨ (r = none ∧ q' = q ∧ ∀ rounds, q.processItem rounds = none)
  kfree := WQueue.kfree
  partway _ _ := False

/-! ## A job that is waited for -/
section Waited

/-- No consumer is in `process_item` and no producer has returned. -/
structure Underway {Q I : Type} (s : System Q I) : Prop where
  consumers : ∀ c held, s.consumers c ≠ .atProcess held
  producers : ∀ p held err, s.producers p ≠ .returned held err

variable {I : Type} [DecidableEq I] {job : I → ℕ} {garbage : WqData ℕ} {s : System (WQueue ℕ) I}
  {C : System (WQueue ℕ) I → System (WQueue ℕ) I → Prop}

/-- A run of the ring that has not come to `process_item` or to a return. -/
structure RunsUnderway (job : I → ℕ) (garbage : WqData ℕ) (C : System (WQueue ℕ) I → System (WQueue ℕ) I → Prop)
    (s : System (WQueue ℕ) I) : Prop where
  reachable : ReachableWhile (ringOps ℕ) job C (WQueue.empty garbage) s
  underway : Underway s

theorem RunsUnderway.consumer (hC : ∀ s s', Underway s → (∀ p held err, s'.producers p ≠ .returned held err) → C s s')
    (h : RunsUnderway job garbage C s) (c : Fin maxConsumers) {g : Shared (WQueue ℕ)} {pc : ConsumerPc}
    (hs : ConsumerStep (ringOps ℕ) s.shared (s.consumers c) g pc) (hpc : ∀ held, pc ≠ .atProcess held) :
    RunsUnderway job garbage C ⟨g,s.producers,Function.update s.consumers c pc⟩ := by
  refine ⟨h.reachable.tail ⟨.consumer s c g pc hs,hC _ _ h.underway h.underway.producers⟩,?_,h.underway.producers⟩
  intro c' held
  by_cases hc' : c' = c
  · simp [hc', hpc held]
  · simp [Function.update_of_ne hc', h.underway.consumers c' held]

theorem RunsUnderway.producer (hC : ∀ s s', Underway s → (∀ p held err, s'.producers p ≠ .returned held err) → C s s')
    (h : RunsUnderway job garbage C s) (p : I) {g : Shared (WQueue ℕ)} {pc : ProducerPc}
    (hs : ProducerStep (ringOps ℕ) (job p) s.shared (s.producers p) g pc) (hpc : ∀ held err, pc ≠ .returned held err) :
    RunsUnderway job garbage C ⟨g,Function.update s.producers p pc,s.consumers⟩ := by
  have hproducers : ∀ p' held err, Function.update s.producers p pc p' ≠ .returned held err := by
    intro p' held err
    by_cases hp' : p' = p
    · simp [hp', hpc held err]
    · simp [Function.update_of_ne hp', h.underway.producers p' held err]
  exact ⟨h.reachable.tail ⟨.producer s p g pc hs,hC _ _ h.underway hproducers⟩,h.underway.consumers,hproducers⟩

/-- A consumer waits on the empty queue, a producer adds its job and counts it, and the consumer goes on. -/
theorem job_waited_for (job : Fin 3 → ℕ) (garbage : WqData ℕ) {C : System (WQueue ℕ) (Fin 3) → System (WQueue ℕ) (Fin 3) → Prop}
    (hC : ∀ s s', Underway s → (∀ p held err, s'.producers p ≠ .returned held err) → C s s') :
    ∃ (s : System (WQueue ℕ) (Fin 3)) (q : WQueue ℕ), ReachableWhile (ringOps ℕ) job C (WQueue.empty garbage) s ∧
      (WQueue.empty garbage).insertNode (.node 1) (wQnode,wQnode) (job 0) = some q ∧
      s = ⟨⟨q,1,0,0,[.node 1],[]⟩,Function.update (fun _ => .idle) 0 (.atReturn true),
        Function.update (fun _ => .atLock) ⟨0,by decide⟩ (.atProcess false)⟩ := by
  obtain ⟨q,hadd,-⟩ := insertNode_isRing (empty_isRing garbage) (show Addr.node 1 ∉ [wQnode] by decide) (wQnode,wQnode) (job 0)
  let c : Fin maxConsumers := ⟨0,by decide⟩
  have h₀ : RunsUnderway job garbage C (System.initial (WQueue.empty garbage)) := ⟨.refl,nofun,nofun⟩
  have h₁ := h₀.consumer hC c (.lock _ 0 rfl) nofun
  have h₂ := h₁.consumer hC c (.empty _ rfl) nofun
  have h₃ := h₂.consumer hC c (.unlockEmpty _ 1 ⟨Nat.one_pos,Nat.le_refl 1⟩) nofun
  have h₄ := h₃.producer hC 0 (.call _) nofun
  have h₅ := h₄.producer hC 0 (.lock _ 0 rfl) nofun
  have h₆ := h₅.producer hC 0 (.room _ true (show ¬ WQ_maxsize ≤ (0 : ℤ) by decide)) nofun
  have h₇ := h₆.producer hC 0 (.add _ true (.node 1) q ⟨by decide,by decide,rfl,(wQnode,wQnode),hadd.symm⟩) nofun
  have h₈ := h₇.producer hC 0 (.size _ true) nofun
  have h₉ := h₈.reachable.tail ⟨.consumer _ c _ _ (.wake _ (show (0 : ℤ) < 0 + 1 by decide)),
    hC _ _ h₈.underway h₈.underway.producers⟩
  refine ⟨_,q,h₉,hadd,?_⟩
  simp only [System.initial, Function.update_idem]
  rfl

end Waited

/-- Three producers at a queue in which one job was waited for. -/
theorem throttle_bound_waited : ∃ s : System (WQueue ℕ) (Fin 3),
    s.shared.added = [.node 1] ∧ s.producers 0 = .atReturn true ∧
      s.shared.tProducers = s.waitingProducers.card ∧ s.shared.tProducers ≤ maxProducers ∧
      ∀ p, s.producers p = .atGate → maxProducers ≤ s.waitingProducers.card →
        ∀ g pc, ProducerStep (ringOps ℕ) p.val s.shared (s.producers p) g pc → pc = .returned false (-1) := by
  obtain ⟨s,q,hrun,-,hs⟩ := job_waited_for (C := fun _ _ => True) Fin.val .wild (fun _ _ _ _ => trivial)
  have h : Reachable (ringOps ℕ) (fun p : Fin 3 => p.val) (WQueue.empty .wild) s := hrun.reachable
  have hadded : s.shared.added = [.node 1] := by rw [hs]
  have hreturn : s.producers 0 = .atReturn true := by simp [hs]
  exact ⟨s,hadded,hreturn,throttle_bound h⟩

end XClone
