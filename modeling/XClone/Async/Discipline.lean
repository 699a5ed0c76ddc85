import XClone.Async.Delivery

/-! # Who unlocks, who modifies, and who leaves with the mutex

`insert_into_head_job` has no unlock behind its test for room, and a consumer that has waited does not lock
again. So the mutex is well kept just as long as no producer that has found room comes to one of the two returns
behind that test, and no consumer gets as far as `list_del`.
-/
namespace XClone

/-- A producer that has locked the mutex and has not unlocked it since. -/
def ProducerPc.Holds : ProducerPc → Prop
  | .atTest held | .atUnlock held | .atAlloc held | .atSize held | .atReturn held | .returned held _ => held = true
  | _ => False

def ProducerPc.Unlocks : ProducerPc → Prop
  | .atUnlock _ => True
  | _ => False

/-- Asleep in `wait_event_interruptible`, or back from the call. -/
def ProducerPc.Outside : ProducerPc → Prop
  | .atWait | .returned _ _ => True
  | _ => False

def ProducerPc.FoundRoom : ProducerPc → Prop
  | .atAlloc _ | .atSize _ | .atReturn _ => True
  | _ => False

def ConsumerPc.Holds : ConsumerPc → Prop
  | .atTest | .atUnlockEmpty => True
  | .atProcess held | .atDec held _ | .atWakeUp held _ | .atUnlock held _ => held = true
  | _ => False

def ConsumerPc.Unlocks : ConsumerPc → Prop
  | .atUnlockEmpty | .atUnlock _ _ => True
  | _ => False

def ConsumerPc.Outside : ConsumerPc → Prop
  | .atWait => True
  | _ => False

/-- The discipline of a step of one thread. -/
structure Disciplined {Q Pc : Type} (Holds Unlocks Outside : Pc → Prop) (g g' : Shared Q) (pc pc' : Pc) : Prop where
  unlock : Unlocks pc → Holds pc
  change : g'.queue ≠ g.queue ∨ g'.wqSize ≠ g.wqSize → Holds pc
  outside : Outside pc' → ¬ Holds pc'

section Discipline
variable {J I : Type} [DecidableEq I]

/-- The thread that moves keeps the discipline. -/
def DisciplinedStep (s s' : System (WQueue J) I) : Prop :=
  (∀ p, s'.producers p ≠ s.producers p →
    Disciplined ProducerPc.Holds ProducerPc.Unlocks ProducerPc.Outside s.shared s'.shared (s.producers p)
      (s'.producers p)) ∧
  ∀ c, s'.consumers c ≠ s.consumers c →
    Disciplined ConsumerPc.Holds ConsumerPc.Unlocks ConsumerPc.Outside s.shared s'.shared (s.consumers c)
      (s'.consumers c)

/-- No producer that has found room returns, be it for want of memory or with its job on the list. -/
def Unreturned (s s' : System (WQueue J) I) : Prop :=
  ∀ p held err, (s.producers p).FoundRoom → s'.producers p ≠ .returned held err

/-! ## Where the threads are before the first return and the first `list_del` -/

def ProducerPc.Entered : ProducerPc → Prop
  | .idle | .atLock | .died => True
  | .atTest held | .atAlloc held | .atSize held | .atReturn held => held = true
  | _ => False

/-- A consumer gets to `process_item` without the mutex only. -/
def ConsumerPc.Early : ConsumerPc → Prop
  | .atLock | .atTest | .atUnlockEmpty | .atWait | .died => True
  | .atProcess held => held = false
  | _ => False

/-- Before that a producer that steps keeps the discipline, or it is the first to return, and has the mutex. -/
theorem producerStep_entered {ops : ListOps (WQueue J) J} {workitem : J} {g g' : Shared (WQueue J)}
    {pc pc' : ProducerPc} (h : ProducerStep ops workitem g pc g' pc') (hpc : pc.Entered) (hsize : g.wqSize < WQ_maxsize) :
    (pc.FoundRoom ∧ ∃ err, pc' = .returned true err) ∨
      (pc'.Entered ∧ Disciplined ProducerPc.Holds ProducerPc.Unlocks ProducerPc.Outside g g' pc pc') := by
  cases h with
  | call => exact .inr ⟨trivial,nofun,by simp,nofun⟩
  | lock n h => exact .inr ⟨rfl,nofun,by simp,nofun⟩
  | full held h => omega
  | unlock | pass | refuse | inc | wake | dec => exact hpc.elim
  | room held h => exact .inr ⟨hpc,nofun,by simp,nofun⟩
  | nomem held =>
    obtain rfl : held = true := hpc
    exact .inl ⟨trivial,-1,rfl⟩
  | add held node q h => exact .inr ⟨hpc,nofun,fun _ => hpc,nofun⟩
  | addDies held node h => exact .inr ⟨trivial,nofun,by simp,nofun⟩
  | size held => exact .inr ⟨hpc,nofun,fun _ => hpc,nofun⟩
  | ret held =>
    obtain rfl : held = true := hpc
    exact .inl ⟨trivial,0,rfl⟩

/-- A consumer that steps keeps it too, as long as the record of `w_qnode` cannot be read. -/
theorem consumerStep_early {g g' : Shared (WQueue J)} {pc pc' : ConsumerPc}
    (h : ConsumerStep (ringOps J) g pc g' pc') (hpc : pc.Early) (hsize : pc = .atTest → g.wqSize = 0)
    (hdata : ∀ held, pc = .atProcess held → pc' ≠ .atProcess held → (g.queue.wqDataNode wQnode).readable = false) :
    pc'.Early ∧ Disciplined ConsumerPc.Holds ConsumerPc.Unlocks ConsumerPc.Outside g g' pc pc' := by
  cases h with
  | lock n h => exact ⟨trivial,nofun,by simp,nofun⟩
  | empty h => exact ⟨trivial,nofun,by simp,nofun⟩
  | nonempty h => exact absurd (hsize rfl) h
  | unlockEmpty n h => exact ⟨trivial,fun _ => trivial,by simp,fun _ => id⟩
  | wake h => exact ⟨rfl,nofun,by simp,nofun⟩
  | take held node q h =>
    obtain ⟨hnone,-⟩ := processItem_unreadable h (hdata held rfl nofun)
    cases hnone
  | takeDies held q h =>
    obtain ⟨-,hqueue⟩ := processItem_unreadable h (hdata held rfl nofun)
    exact ⟨trivial,nofun,by simp [hqueue],nofun⟩
  | dec | wakeUp | unlock | work | fail => exact hpc.elim

section Runs
variable [Fintype I] {job : I → J} {garbage : WqData J} {s s' : System (WQueue J) I}

/-- The queue is counted and the one permit is about; whoever has found room has the mutex. -/
structure Orderly (s : System (WQueue J) I) : Prop where
  unthrottled : Unthrottled s
  counted : ∃ nodes, Counted s nodes
  producers : ∀ p, (s.producers p).Entered
  consumers : ∀ c, (s.consumers c).Early

omit [DecidableEq I] in
theorem orderly_initial (garbage : WqData J) : Orderly (I := I) (System.initial (WQueue.empty garbage)) :=
  ⟨unthrottled_initial _,⟨[],counted_initial garbage⟩,fun _ => trivial,fun _ => trivial⟩

omit [DecidableEq I] in
/-- A consumer that has locked finds the queue empty: a counted job is the permit of its producer. -/
theorem Orderly.wqSize_eq_zero (h : Orderly s) {c : Fin maxConsumers} (hc : s.consumers c = .atTest) :
    s.shared.wqSize = 0 := by
  obtain ⟨nodes,hcounted⟩ := h.counted
  have hpermits := h.unthrottled.permits
  have hnonneg := hcounted.nonneg
  have hproducers := Finset.sum_nonneg (fun p (_ : p ∈ Finset.univ) => (s.producers p).permit_nonneg)
  have hone : (s.consumers c).permit ≤ ∑ c, (s.consumers c).permit :=
    Finset.single_le_sum (fun c _ => (s.consumers c).permit_nonneg) (Finset.mem_univ c)
  have hpermit : (s.consumers c).permit = 1 := by rw [hc]; rfl
  unfold System.permits at hpermits
  omega

theorem Orderly.step (h : Orderly s) (hs : Step (ringOps J) job s s') (hr : Unreturned s s') (hu : Undelivered s s') :
    Orderly s' ∧ DisciplinedStep s s' := by
  obtain ⟨nodes,hcounted⟩ := h.counted
  obtain ⟨more,hcounted'⟩ := hcounted.step hs hu
  have hunthrottled := h.unthrottled.step hs
  cases hs with
  | producer p g pc hp =>
    rcases producerStep_entered hp (h.producers p) h.unthrottled.wqSize_lt with ⟨hroom,err,rfl⟩ | ⟨hentered,hdisciplined⟩
    · exact absurd (Function.update_self p _ _) (hr p true err hroom)
    · refine ⟨⟨hunthrottled,⟨_,hcounted'⟩,?_,h.consumers⟩,?_,fun c hc => absurd rfl hc⟩
      · intro p'
        by_cases hp' : p' = p
        · simp [hp', hentered]
        · simp [Function.update_of_ne hp', h.producers p']
      · intro p' hmoved
        by_cases hp' : p' = p
        · subst hp'
          simpa using hdisciplined
        · exact absurd (Function.update_of_ne hp' _ _) hmoved
  | consumer c g pc hc =>
    have hdata := hu c
    simp only [Function.update_self] at hdata
    obtain ⟨hearly,hdisciplined⟩ := consumerStep_early hc (h.consumers c) (fun htest => h.wqSize_eq_zero htest) hdata
    refine ⟨⟨hunthrottled,⟨_,hcounted'⟩,h.producers,?_⟩,fun p hp => absurd rfl hp,?_⟩
    · intro c'
      by_cases hc' : c' = c
      · simp [hc', hearly]
      · simp [Function.update_of_ne hc', h.consumers c']
    · intro c' hmoved
      by_cases hc' : c' = c
      · subst hc'
        simpa using hdisciplined
      · exact absurd (Function.update_of_ne hc' _ _) hmoved
  | partway q hq => exact hq.elim

/-- Whoever returns has kept the mutex. -/
theorem Orderly.unreturned (h : Orderly s) (hs : Step (ringOps J) job s s') (hd : DisciplinedStep s s') :
    Unreturned s s' := by
  intro p held err hroom hret
  have hmoved : s'.producers p ≠ s.producers p := by
    intro heq
    rw [← heq, hret] at hroom
    exact hroom
  have hout := (hd.1 p hmoved).outside
  cases hs with
  | producer p' g pc hp =>
    have hpp : p = p' := by
      by_contra hne
      exact hmoved (Function.update_of_ne hne _ _)
    subst hpp
    simp only [Function.update_self] at hret hout
    subst hret
    rcases producerStep_entered hp (h.producers p) h.unthrottled.wqSize_lt with ⟨-,err',heq⟩ | ⟨hentered,-⟩
    · cases heq
      exact hout trivial rfl
    · exact hentered
  | consumer | partway => exact hmoved rfl

/-- Whoever unlinks `w_qnode` does not have the mutex. -/
theorem Orderly.undelivered (h : Orderly s) (hs : Step (ringOps J) job s s') (hd : DisciplinedStep s s') :
    Undelivered s s' := by
  intro c held hpc hleft
  by_contra hunreadable
  have hdata : (s.shared.queue.wqDataNode wQnode).readable = true := by simpa using hunreadable
  obtain ⟨nodes,hcounted⟩ := h.counted
  have hheld : held = false := by
    have hearly := h.consumers c
    rw [hpc] at hearly
    exact hearly
  have hchange := (hd.2 c (fun heq => hleft (heq.trans hpc))).change
  have hunlinked : s'.shared.queue.wqList.next wQnode = some .poison1 := by
    cases hs with
    | producer p g pc hp => exact absurd hpc hleft
    | partway q hq => exact hq.elim
    | consumer c' g pc hc =>
      have hcc : c = c' := by
        by_contra hne
        exact hleft ((Function.update_of_ne hne _ _).trans hpc)
      subst hcc
      rw [hpc] at hc
      cases hc with
      | take _ node q htake => exact (processItem_readable htake hcounted.ring hdata).1
      | takeDies _ q hdies => exact (processItem_readable hdies hcounted.ring hdata).1
  have hqueue : s'.shared.queue ≠ s.shared.queue := by
    intro heq
    rw [heq] at hunlinked
    exact next_ne_poison1 hcounted.ring hcounted.unpoisoned hunlinked
  have hholds := hchange (.inl hqueue)
  rw [hpc, hheld] at hholds
  cases hholds

/-- The mutex discipline holds up to the first producer that returns behind its test for room or the first consumer that
gets to `list_del`, and this one breaks it. -/
theorem mutex_disciplined
    (h : ReachableWhile (ringOps J) job (fun s s' => Unreturned s s' ∧ Undelivered s s') (WQueue.empty garbage) s)
    (hs : Step (ringOps J) job s s') : DisciplinedStep s s' ↔ Unreturned s s' ∧ Undelivered s s' := by
  have ho := h.invariant Orderly (orderly_initial garbage) (fun _ _ hs hc ho => (ho.step hs hc.1 hc.2).1)
  exact ⟨fun hd => ⟨ho.unreturned hs hd,ho.undelivered hs hd⟩,fun hc => (ho.step hs hc.1 hc.2).2⟩

end Runs

end Discipline

/-- A consumer that has waited for the first job dies at the first message of `process_item`. -/
theorem mutex_disciplined_waited : ∃ s s' : System (WQueue ℕ) (Fin 3),
    s.shared.added = [.node 1] ∧ s.consumers ⟨0,by decide⟩ = .atProcess false ∧ s'.consumers ⟨0,by decide⟩ = .died ∧
      (DisciplinedStep s s' ↔ Unreturned s s' ∧ Undelivered s s') := by
  obtain ⟨s,q,hrun,hadd,rfl⟩ := job_waited_for (C := fun s s' => Unreturned s s' ∧ Undelivered s s') (fun p => p.val) .wild
    (fun s s' hs hs' => ⟨fun p held err _ => hs' p held err,fun c held hc _ => absurd hc (hs.consumers c held)⟩)
  have hwild : (q.wqDataNode wQnode).readable = false := by
    obtain ⟨q',hadd',-,hdata⟩ := insertNode_isRing (empty_isRing (.wild : WqData ℕ)) (show Addr.node 1 ∉ [wQnode] by decide)
      (wQnode,wQnode) 0
    obtain rfl : q = q' := Option.some.inj (hadd.symm.trans hadd')
    rw [hdata]
    rfl
  have hdies : (ringOps ℕ).processItem q none q := by
    refine .inr ⟨rfl,rfl,fun rounds => ?_⟩
    by_contra hsome
    obtain ⟨⟨r,q'⟩,hr⟩ := Option.ne_none_iff_exists'.mp hsome
    obtain ⟨hread,-⟩ := processItem_eq hr
    rw [hwild] at hread
    cases hread
  refine ⟨_,_,rfl,rfl,?_,mutex_disciplined hrun (.consumer _ ⟨0,by decide⟩ _ _ (.takeDies _ false q hdies))⟩
  rfl

/-- A single request on the empty queue: `insert_into_head_job` returns 0 with the mutex. -/
theorem mutex_kept_on_return :
    ∃ s s' : System (WQueue ℕ) (Fin 3),
      Reachable (ringOps ℕ) (fun p : Fin 3 => p.val) (WQueue.empty .wild) s ∧
        Step (ringOps ℕ) (fun p : Fin 3 => p.val) s s' ∧ s'.producers 0 = .returned true 0 ∧ ¬ DisciplinedStep s s' := by
  obtain ⟨s,q,hrun,hadd,rfl⟩ := job_waited_for (C := fun _ _ => True) (fun p => p.val) .wild (fun _ _ _ _ => trivial)
  refine ⟨_,_,hrun.reachable,.producer _ 0 _ _ (.ret _ true),rfl,?_⟩
  intro hd
  exact (hd.1 0 (by simp)).outside trivial rfl

end XClone
