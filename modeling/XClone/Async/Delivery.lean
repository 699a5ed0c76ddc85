import XClone.Async.System

/-! # Delivery and the counter of the queue

`process_item` always takes `w_qnode`. Up to the first call that gets as far as `list_del`, the list and
its counter are as they should be.
-/
namespace XClone

/-- A consumer that `process_item` has given a node. -/
def ConsumerPc.Delivered : ConsumerPc → Prop
  | .atDec _ _ | .atWakeUp _ _ | .atUnlock _ _ | .atWork _ | .ended => True
  | _ => False

/-- A producer whose node is on the list and not in the counter. -/
def ProducerPc.uncounted : ProducerPc → ℤ
  | .atSize _ => 1
  | _ => 0

section Delivery
variable {J I : Type} [DecidableEq I]

/-- No consumer in `process_item` gets to `list_del`: where one leaves it, it has died at the first message, since the
data pointer of `w_qnode`, which was never set, could not be followed. -/
def Undelivered (s s' : System (WQueue J) I) : Prop :=
  ∀ c held, s.consumers c = .atProcess held → s'.consumers c ≠ .atProcess held →
    (s.shared.queue.wqDataNode wQnode).readable = false

/-- The nodes taken are the first of those added, in their order, and the others are on the list. -/
def ExactlyOnce (s : System (WQueue J) I) : Prop :=
  ∃ nodes, Ring.IsRing s.shared.queue.wqList wQnode nodes ∧ s.shared.added = s.shared.taken ++ nodes

/-- Nothing was taken, and what was added is on the list. -/
structure Kept (s : System (WQueue J) I) (nodes : List Addr) : Prop where
  ring : Ring.IsRing s.shared.queue.wqList wQnode nodes
  unpoisoned : Addr.poison1 ∉ nodes
  added : s.shared.added = nodes
  taken : s.shared.taken = []
  undelivered : ∀ c, ¬ (s.consumers c).Delivered

/-- A call that cannot read the record dies with the list as it was. -/
theorem processItem_unreadable {q q' : WQueue J} {r : Option Addr} (h : (ringOps J).processItem q r q')
    (hdata : (q.wqDataNode wQnode).readable = false) : r = none ∧ q' = q := by
  rcases h with ⟨rounds,h⟩ | ⟨hr,hq,-⟩
  · obtain ⟨hread,-⟩ := processItem_eq h
    simp [hdata] at hread
  · exact ⟨hr,hq⟩

/-- A call that can read it unlinks `w_qnode`, be it that it dies thereafter. -/
theorem processItem_readable {q q' : WQueue J} {r : Option Addr} {nodes : List Addr}
    (h : (ringOps J).processItem q r q') (hring : Ring.IsRing q.wqList wQnode nodes)
    (hdata : (q.wqDataNode wQnode).readable = true) :
    q'.wqList.next wQnode = some .poison1 ∧ ∀ node, r = some node → node = wQnode := by
  rcases h with ⟨rounds,h⟩ | ⟨-,-,hnone⟩
  · obtain ⟨-,hnext,-,hr⟩ := processItem_eq h
    refine ⟨hnext,fun node hnode => ?_⟩
    rw [hnode] at hr
    split at hr
    · exact Option.some.inj hr
    · cases hr
  · have hsome := processItem_isSome hring hdata
    simp [hnone] at hsome

/-- What a producer's step does to the list: at most one node is added at its end. -/
theorem producerStep_list {workitem : J} {g g' : Shared (WQueue J)} {pc pc' : ProducerPc} {nodes : List Addr}
    (h : ProducerStep (ringOps J) workitem g pc g' pc') (hring : Ring.IsRing g.queue.wqList wQnode nodes) :
    ∃ more, Ring.IsRing g'.queue.wqList wQnode (nodes ++ more) ∧ .poison1 ∉ more ∧ g'.added = g.added ++ more ∧
      g'.taken = g.taken ∧ g'.wqSize + pc'.uncounted = g.wqSize + pc.uncounted + more.length ∧
      g.wqSize ≤ g'.wqSize := by
  cases h with
  | add held node q h =>
    obtain ⟨-,hpoison,hfree,stale,hq⟩ := h
    have hnew : node ∉ wQnode :: nodes := by
      intro hm
      obtain ⟨x,hx⟩ := hring.exists_next hm
      rw [hfree] at hx
      cases hx
    obtain ⟨q',hq',hring',-⟩ := insertNode_isRing hring hnew stale workitem
    rw [hq'] at hq
    cases hq
    exact ⟨[node],hring',by simp [hpoison.symm],rfl,rfl,by simp [ProducerPc.uncounted],le_rfl⟩
  | size held =>
    refine ⟨[],by simpa using hring,List.not_mem_nil,by simp,rfl,?_,?_⟩
    · simp [ProducerPc.uncounted]
    · exact Int.le_add_one le_rfl
  | _ => exact ⟨[],by simpa using hring,List.not_mem_nil,by simp,rfl,by simp [ProducerPc.uncounted],le_rfl⟩

/-- A consumer that is kept before or in `process_item` touches the mutex only. -/
theorem consumerStep_undelivered {g g' : Shared (WQueue J)} {pc pc' : ConsumerPc}
    (h : ConsumerStep (ringOps J) g pc g' pc') (hpc : ¬ pc.Delivered)
    (hdata : ∀ held, pc = .atProcess held → pc' ≠ .atProcess held → (g.queue.wqDataNode wQnode).readable = false) :
    g'.queue = g.queue ∧ g'.added = g.added ∧ g'.taken = g.taken ∧ g'.wqSize = g.wqSize ∧ ¬ pc'.Delivered := by
  cases h with
  | lock | empty | nonempty | unlockEmpty | wake => exact ⟨rfl,rfl,rfl,rfl,id⟩
  | take held node q h =>
    obtain ⟨hnone,-⟩ := processItem_unreadable h (hdata held rfl nofun)
    cases hnone
  | takeDies held q h =>
    obtain ⟨-,hqueue⟩ := processItem_unreadable h (hdata held rfl nofun)
    exact ⟨hqueue,rfl,rfl,rfl,id⟩
  | dec | wakeUp | unlock | work | fail => exact absurd trivial hpc

section Runs
variable {job : I → J} {garbage : WqData J} {s s' : System (WQueue J) I} {nodes : List Addr}

omit [DecidableEq I] in
theorem kept_initial (garbage : WqData J) : Kept (I := I) (System.initial (WQueue.empty garbage)) [] :=
  ⟨empty_isRing garbage,List.not_mem_nil,rfl,rfl,fun _ => id⟩

/-- What a step does as long as nothing is delivered: at most one node is added, at the end. -/
theorem Kept.producer {p : I} {g : Shared (WQueue J)} {pc : ProducerPc} (h : Kept s nodes)
    (hp : ProducerStep (ringOps J) (job p) s.shared (s.producers p) g pc) :
    ∃ more, Kept ⟨g,Function.update s.producers p pc,s.consumers⟩ (nodes ++ more) ∧
      g.wqSize + pc.uncounted = s.shared.wqSize + (s.producers p).uncounted + more.length ∧
      s.shared.wqSize ≤ g.wqSize := by
  obtain ⟨more,hring,hpoison,hadded,htaken,hcount,hle⟩ := producerStep_list hp h.ring
  refine ⟨more,⟨hring,?_,?_,htaken.trans h.taken,h.undelivered⟩,hcount,hle⟩
  · simp [h.unpoisoned, hpoison]
  · exact hadded.trans (congrArg (· ++ more) h.added)

omit [DecidableEq I] in
theorem Kept.consumer {c : Fin maxConsumers} {g : Shared (WQueue J)} {pc : ConsumerPc} (h : Kept s nodes)
    (hc : ConsumerStep (ringOps J) s.shared (s.consumers c) g pc)
    (hu : Undelivered s ⟨g,s.producers,Function.update s.consumers c pc⟩) :
    Kept ⟨g,s.producers,Function.update s.consumers c pc⟩ nodes ∧ g.wqSize = s.shared.wqSize := by
  have hdata := hu c
  simp only [Function.update_self] at hdata
  obtain ⟨hqueue,hadded,htaken,hsize,hpc⟩ := consumerStep_undelivered hc (h.undelivered c) hdata
  refine ⟨⟨hqueue ▸ h.ring,h.unpoisoned,hadded.trans h.added,htaken.trans h.taken,?_⟩,hsize⟩
  intro c'
  by_cases hc' : c' = c
  · simp [hc', hpc]
  · simp [Function.update_of_ne hc', h.undelivered c']

theorem Kept.step (h : Kept s nodes) (hs : Step (ringOps J) job s s') (hu : Undelivered s s') :
    ∃ more, Kept s' (nodes ++ more) := by
  cases hs with
  | producer p g pc hp =>
    obtain ⟨more,hk,-⟩ := h.producer hp
    exact ⟨more,hk⟩
  | consumer c g pc hc => exact ⟨[],by simpa using (h.consumer hc hu).1⟩
  | partway q hq => exact hq.elim

theorem ReachableWhile.kept (h : ReachableWhile (ringOps J) job Undelivered (WQueue.empty garbage) s) :
    ∃ nodes, Kept s nodes := by
  refine h.invariant (fun s => ∃ nodes, Kept s nodes) ?_ ?_
  · exact ⟨[],kept_initial garbage⟩
  · rintro s s' hs hu ⟨nodes,hk⟩
    obtain ⟨more,hk'⟩ := hk.step hs hu
    exact ⟨nodes ++ more,hk'⟩

omit [DecidableEq I] in
theorem Kept.exactlyOnce (h : Kept s nodes) : ExactlyOnce s :=
  ⟨nodes,h.ring,by simp [h.added, h.taken]⟩

/-- A ring is not headed by the poison that `list_del` leaves. -/
theorem next_ne_poison1 {m : Ring.Mem Addr} (hring : Ring.IsRing m wQnode nodes) (hpoison : Addr.poison1 ∉ nodes) :
    m.next wQnode ≠ some .poison1 := by
  intro hnext
  rcases List.mem_cons.mp (hring.next_head_mem hnext) with hm | hm
  · cases hm
  · exact hpoison hm

/-- The first call that gets to `list_del` takes `w_qnode`, which is no job, or dies behind it and leaves no list. -/
theorem Kept.undelivered_of_exactlyOnce (h : Kept s nodes) (hs : Step (ringOps J) job s s') (he : ExactlyOnce s') :
    Undelivered s s' := by
  intro c held hpc hleft
  by_contra hunreadable
  have hdata : (s.shared.queue.wqDataNode wQnode).readable = true := by simpa using hunreadable
  have hsentinel : wQnode ∉ nodes := (List.nodup_cons.mp h.ring.nodup).1
  cases hs with
  | producer p g pc hp => exact hleft hpc
  | partway q hq => exact hq.elim
  | consumer c' g pc hc =>
    have hcc : c = c' := by
      by_contra hne
      exact hleft ((Function.update_of_ne hne _ _).trans hpc)
    subst hcc
    rw [hpc] at hc
    cases hc with
    | take _ node q htake =>
      obtain ⟨-,hnode⟩ := processItem_readable htake h.ring hdata
      obtain ⟨nodes',-,hadded⟩ := he
      simp only [h.added, h.taken, hnode node rfl, List.nil_append, List.singleton_append] at hadded
      simp [hadded] at hsentinel
    | takeDies _ q hdies =>
      obtain ⟨hnext,-⟩ := processItem_readable hdies h.ring hdata
      obtain ⟨nodes',hring,hadded⟩ := he
      have hnodes : nodes = nodes' := by simpa [h.added, h.taken] using hadded
      exact next_ne_poison1 hring (hnodes ▸ h.unpoisoned) hnext

/-- The delivery is exact up to the first call of `process_item` that gets to `list_del`, and no further. -/
theorem delivery_while_undelivered (h : ReachableWhile (ringOps J) job Undelivered (WQueue.empty garbage) s) :
    ExactlyOnce s ∧ ∀ s', Step (ringOps J) job s s' → (ExactlyOnce s' ↔ Undelivered s s') := by
  obtain ⟨nodes,hk⟩ := h.kept
  refine ⟨hk.exactlyOnce,fun s' hs => ⟨hk.undelivered_of_exactlyOnce hs,?_⟩⟩
  intro hu
  obtain ⟨more,hk'⟩ := hk.step hs hu
  exact hk'.exactlyOnce

/-! ## The counter -/

/-- The number of jobs on the list, while the mutex is free, and the bounds. -/
def CounterExact (s : System (WQueue J) I) : Prop :=
  (0 < s.shared.wqMutex → ∃ nodes, Ring.IsRing s.shared.queue.wqList wQnode nodes ∧ s.shared.wqSize = nodes.length) ∧
    0 ≤ s.shared.wqSize ∧ s.shared.wqSize ≤ WQ_maxsize

theorem ProducerPc.uncounted_le (pc : ProducerPc) (h : ¬ pc.Throttled) : pc.uncounted ≤ pc.permit := by
  cases pc with
  | atSize held =>
    cases held
    · exact absurd rfl h
    · exact le_rfl
  | _ => exact ProducerPc.permit_nonneg _

section Counter
variable [Fintype I]

/-- The counter and the producers that are going to raise it make up the list. -/
structure Counted (s : System (WQueue J) I) (nodes : List Addr) : Prop extends Kept s nodes where
  counted : s.shared.wqSize + ∑ p, (s.producers p).uncounted = nodes.length
  nonneg : 0 ≤ s.shared.wqSize

omit [DecidableEq I] in
theorem counted_initial (garbage : WqData J) : Counted (I := I) (System.initial (WQueue.empty garbage)) [] :=
  ⟨kept_initial garbage,by simp [System.initial, ProducerPc.uncounted],le_rfl⟩

theorem Counted.step (h : Counted s nodes) (hs : Step (ringOps J) job s s') (hu : Undelivered s s') :
    ∃ more, Counted s' (nodes ++ more) := by
  have hcounted := h.counted
  have hnonneg := h.nonneg
  cases hs with
  | producer p g pc hp =>
    obtain ⟨more,hk,hcount,hle⟩ := h.toKept.producer hp
    have hsum := sum_weight_update ProducerPc.uncounted s.producers p pc
    refine ⟨more,hk,?_,le_trans hnonneg hle⟩
    simp only [List.length_append, Nat.cast_add]
    omega
  | consumer c g pc hc =>
    obtain ⟨hk,hsize⟩ := h.toKept.consumer hc hu
    exact ⟨[],by simpa using hk,by simpa [hsize] using hcounted,by simpa [hsize] using hnonneg⟩
  | partway q hq => exact hq.elim

omit [DecidableEq I] in
/-- With the mutex free the one permit about is its own, so no producer is left to count a node. -/
theorem Counted.counterExact (h : Counted s nodes) (hu : Unthrottled s) : CounterExact s := by
  have hlt := hu.wqSize_lt
  refine ⟨fun hfree => ⟨nodes,h.ring,?_⟩,h.nonneg,hlt.le⟩
  have hpermits := hu.permits
  unfold System.permits at hpermits
  have hcounted := h.counted
  have hnonneg := h.nonneg
  have hconsumers := Finset.sum_nonneg (fun c (_ : c ∈ Finset.univ) => (s.consumers c).permit_nonneg)
  have hle : ∑ p, (s.producers p).uncounted ≤ ∑ p, (s.producers p).permit :=
    Finset.sum_le_sum (fun p _ => (s.producers p).uncounted_le (hu.free p))
  have hzero : 0 ≤ ∑ p, (s.producers p).uncounted := by
    refine Finset.sum_nonneg (fun p _ => ?_)
    cases s.producers p <;> simp [ProducerPc.uncounted]
  omega

theorem counter_while_undelivered (h : ReachableWhile (ringOps J) job Undelivered (WQueue.empty garbage) s) :
    CounterExact s := by
  have hinv : Unthrottled s ∧ ∃ nodes, Counted s nodes := by
    refine h.invariant (fun s => Unthrottled s ∧ ∃ nodes, Counted s nodes) ?_ ?_
    · exact ⟨unthrottled_initial _,[],counted_initial garbage⟩
    · rintro s s' hs hu ⟨ht,nodes,hk⟩
      obtain ⟨more,hk'⟩ := hk.step hs hu
      exact ⟨ht.step hs,nodes ++ more,hk'⟩
  obtain ⟨ht,nodes,hk⟩ := hinv
  exact hk.counterExact ht

end Counter

end Runs

end Delivery

/-! ## The first delivery -/

/-- A producer has added its job, and a consumer that has waited for it is in `process_item`. -/
theorem delivery_while_undelivered_waited : ∃ s : System (WQueue ℕ) (Fin 3),
    s.shared.added = [.node 1] ∧ s.consumers ⟨0,by decide⟩ = .atProcess false ∧ ExactlyOnce s ∧
      ∀ s', Step (ringOps ℕ) (fun p : Fin 3 => p.val) s s' → (ExactlyOnce s' ↔ Undelivered s s') := by
  obtain ⟨s,q,hrun,-,hs⟩ := job_waited_for (C := Undelivered) (fun p => p.val) .wild
    (fun s s' hs _ c held hc _ => absurd hc (hs.consumers c held))
  refine ⟨s,by rw [hs],by simp [hs],?_⟩
  exact delivery_while_undelivered hrun

theorem counter_while_undelivered_waited : ∃ s : System (WQueue ℕ) (Fin 3),
    s.shared.added = [.node 1] ∧ s.shared.wqSize = 1 ∧ CounterExact s := by
  obtain ⟨s,q,hrun,-,hs⟩ := job_waited_for (C := Undelivered) (fun p => p.val) .wild
    (fun s s' hs _ c held hc _ => absurd hc (hs.consumers c held))
  refine ⟨s,by rw [hs],by rw [hs],?_⟩
  exact counter_while_undelivered hrun

/-- A consumer waits on the empty queue, a producer adds a job and keeps the mutex, the consumer wakes
and takes `w_qnode`; at the end of its critical section it frees the mutex in the producer's place. -/
theorem sentinel_taken :
    ∃ s₁ s₂ : System (WQueue ℕ) (Fin 3),
      Reachable (ringOps ℕ) (fun p : Fin 3 => p.val) (WQueue.empty (.job 0)) s₁ ∧
        s₁.shared.added = [.node 1] ∧ s₁.shared.taken = [wQnode] ∧
      Reachable (ringOps ℕ) (fun p : Fin 3 => p.val) (WQueue.empty (.job 0)) s₂ ∧
        s₂.shared.wqMutex = 1 ∧ s₂.shared.queue.wqList.next wQnode = some .poison1 ∧
        s₂.shared.queue.wqList.next .poison1 = none := by
  obtain ⟨s,q₁,hrun,hadd,rfl⟩ := job_waited_for (C := fun _ _ => True) (fun p => p.val) (.job 0) (fun _ _ _ _ => trivial)
  have hqueue : (((WQueue.empty (.job 0)).insertNode (.node 1) (wQnode,wQnode) 0).bind (WQueue.processItem 4)).map
      (fun r => (r.1,r.2.wqList.next wQnode,r.2.wqList.next .poison1)) = some (some wQnode,some .poison1,none) := by
    decide
  obtain ⟨⟨node,q₂⟩,htake,hnode⟩ := Option.map_eq_some_iff.mp hqueue
  obtain ⟨q₁',hadd',htake⟩ := Option.bind_eq_some_iff.mp htake
  obtain ⟨rfl,hpoison⟩ := Prod.mk.inj hnode
  obtain ⟨hnext,hnone⟩ := Prod.mk.inj hpoison
  obtain rfl : q₁ = q₁' := Option.some.inj (hadd.symm.trans hadd')
  let c : Fin maxConsumers := ⟨0,by decide⟩
  have h₁ := hrun.reachable.tail (.consumer _ c _ _ (.take _ false wQnode q₂ (.inl ⟨4,htake⟩)))
  have h₂ := h₁.tail (.consumer _ c _ _ (.dec _ false wQnode))
  have h₃ := h₂.tail (.consumer _ c _ _ (.wakeUp _ false wQnode))
  have h₄ := h₃.tail (.consumer _ c _ _ (.unlock _ false wQnode 1 ⟨Nat.one_pos,Nat.le_refl 1⟩))
  exact ⟨_,_,h₁,rfl,rfl,h₄,rfl,hnext,hnone⟩

/-- The first job taken was never added. -/
theorem delivery_takes_sentinel :
    ∃ s : System (WQueue ℕ) (Fin 3),
      Reachable (ringOps ℕ) (fun p : Fin 3 => p.val) (WQueue.empty (.job 0)) s ∧ ¬ ExactlyOnce s := by
  obtain ⟨s,_,h,hadded,htaken,-⟩ := sentinel_taken
  refine ⟨s,h,?_⟩
  rintro ⟨nodes,-,heq⟩
  rw [hadded, htaken] at heq
  cases heq

/-- The mutex is free and there is no list to count. -/
theorem counter_without_list :
    ∃ s : System (WQueue ℕ) (Fin 3),
      Reachable (ringOps ℕ) (fun p : Fin 3 => p.val) (WQueue.empty (.job 0)) s ∧ ¬ CounterExact s := by
  obtain ⟨_,s,-,-,-,h,hfree,hnext,hnone⟩ := sentinel_taken
  refine ⟨s,h,?_⟩
  rintro ⟨hcount,-⟩
  obtain ⟨nodes,hring,-⟩ := hcount (by simp [hfree])
  obtain ⟨y,hy⟩ := hring.exists_next (hring.next_head_mem hnext)
  simp [hnone] at hy

end XClone
