import XClone.Library.Ring

/-! # The work queue of `sys_xclone2async.c`

The jobs hang on a ring through the node `w_qnode`, which holds no job and whose data pointer
is never set. `process_item` walks the ring with an empty body and takes the node at the cursor.
-/
namespace XClone

/-- Addresses of queue nodes, and the two that `list_del` leaves behind. -/
inductive Addr where
  | node (n : ℕ)
  | poison1
  | poison2
deriving DecidableEq, Repr

/-- The address of `w_qnode`. -/
def wQnode : Addr := .node 0

/-- What a data pointer leads to: nowhere, to a record whose name cannot be read, or to a job. -/
inductive WqData (J : Type) where
  | wild
  | nameless
  | job (workitem : J)

/-- The record can be read. -/
def WqData.readable {J : Type} : WqData J → Bool
  | .wild => false
  | _ => true

/-- The string that its `fname` points to can be read as well. -/
def WqData.named {J : Type} : WqData J → Bool
  | .job _ => true
  | _ => false

structure WQueue (J : Type) where
  wqList : Ring.Mem Addr
  wqDataNode : Addr → WqData J

variable {J : Type}

/-- `initialise_wq`: the list head is set up, the data pointer keeps what the allocation held. -/
def initialiseWq (stale : Addr × Addr) (garbage : WqData J) : Option (WQueue J) := do
  let wqList ← Ring.init (Ring.Mem.alloc ⟨fun _ => none,fun _ => none⟩ wQnode stale) wQnode
  return ⟨wqList,Function.update (fun _ => .wild) wQnode garbage⟩

/-- The end of `insert_into_head_job`, with the node that `kmalloc` gave. -/
def WQueue.insertNode (q : WQueue J) (node : Addr) (stale : Addr × Addr) (workitem : J) : Option (WQueue J) := do
  let wqList ← Ring.addTail (q.wqList.alloc node stale) node wQnode
  return ⟨wqList,Function.update q.wqDataNode node (.job workitem)⟩

/-- `process_item`; its first message reads the record, the second one, behind `list_del`, the name. A result without a node
is the death of the caller at the second message. -/
def WQueue.processItem (rounds : ℕ) (q : WQueue J) : Option (Option Addr × WQueue J) := do
  let wqHlist1 ← Ring.cursorAfter rounds q.wqList wQnode
  if (q.wqDataNode wqHlist1).readable then
    let wqList ← Ring.del (.poison1,.poison2) q.wqList wqHlist1
    return (if (q.wqDataNode wqHlist1).named then some wqHlist1 else none,{q with wqList})
  else none

/-- `kfree(current_job_item)` of the consumer. -/
def WQueue.kfree (q : WQueue J) (node : Addr) : WQueue J :=
  ⟨q.wqList.free node,Function.update q.wqDataNode node .wild⟩

/-! ## Sequences of calls -/

inductive QueueOp (J : Type) where
  | insert (node : Addr) (stale : Addr × Addr) (workitem : J)
  | processItem

/-- The calls one after the other; the nodes returned, or `none` when a call dies. -/
def runQueue (rounds : ℕ) : List (QueueOp J) → WQueue J → Option (List Addr × WQueue J)
  | [], q => some ([],q)
  | .insert node stale workitem :: ops, q => do
    let q ← q.insertNode node stale workitem
    runQueue rounds ops q
  | .processItem :: ops, q => do
    let (node,q) ← q.processItem rounds
    let node ← node
    let (returned,q) ← runQueue rounds ops (q.kfree node)
    return (node :: returned,q)

/-- A first-in first-out queue: the nodes taken and the nodes left. -/
def fifo : List (QueueOp J) → List Addr → List Addr × List Addr
  | [], nodes => ([],nodes)
  | .insert node _ _ :: ops, nodes => fifo ops (nodes ++ [node])
  | .processItem :: ops, [] => fifo ops []
  | .processItem :: ops, node :: nodes => (node :: (fifo ops nodes).1,(fifo ops nodes).2)

/-- Each insertion gets a node of its own, and nothing is taken from an empty queue. -/
def Admissible : List (QueueOp J) → List Addr → Prop
  | [], _ => True
  | .insert node _ _ :: ops, nodes => node ∉ wQnode :: nodes ∧ Admissible ops (nodes ++ [node])
  | .processItem :: ops, nodes => nodes ≠ [] ∧ Admissible ops nodes.tail

/-- The calls return what the first-in first-out queue returns and leave a ring of the rest. -/
def WellKept (rounds : ℕ) (q : WQueue J) (ops : List (QueueOp J)) (nodes : List Addr) : Prop :=
  ∃ returned q', runQueue rounds ops q = some (returned,q') ∧ returned = (fifo ops nodes).1 ∧
    Ring.IsRing q'.wqList wQnode (fifo ops nodes).2

/-- The queue as it is set up. -/
def WQueue.empty (garbage : WqData J) : WQueue J :=
  ⟨⟨Function.update (fun _ => none) wQnode (some wQnode),Function.update (fun _ => none) wQnode (some wQnode)⟩,
    Function.update (fun _ => .wild) wQnode garbage⟩

theorem initialiseWq_eq (stale : Addr × Addr) (garbage : WqData J) :
    initialiseWq stale garbage = some (WQueue.empty garbage) := by
  simp [initialiseWq, Ring.init, Ring.Mem.setNext, Ring.Mem.setPrev, Ring.Mem.alloc, WQueue.empty]

theorem empty_isRing (garbage : WqData J) : Ring.IsRing (WQueue.empty garbage).wqList wQnode [] :=
  ⟨List.nodup_singleton _,rfl,rfl,trivial⟩

theorem insertNode_isRing {q : WQueue J} {nodes : List Addr} (h : Ring.IsRing q.wqList wQnode nodes) {node : Addr}
    (hnew : node ∉ wQnode :: nodes) (stale : Addr × Addr) (workitem : J) :
    ∃ q', q.insertNode node stale workitem = some q' ∧ Ring.IsRing q'.wqList wQnode (nodes ++ [node]) ∧
      q'.wqDataNode = Function.update q.wqDataNode node (.job workitem) := by
  have hkeep : Ring.IsRing (q.wqList.alloc node stale) wQnode nodes := by
    refine ⟨h.nodup,h.chain.transport ?_ ?_⟩
    · intro x hx
      refine Function.update_of_ne ?_ _ _
      rintro rfl
      rw [List.dropLast_concat] at hx
      exact hnew hx
    · intro x hx
      refine Function.update_of_ne ?_ _ _
      rintro rfl
      rw [List.cons_append, List.tail_cons, List.mem_append, List.mem_singleton] at hx
      rcases hx with hx | rfl
      · exact hnew (List.mem_cons_of_mem _ hx)
      · exact hnew List.mem_cons_self
  obtain ⟨m,hm,hring,_⟩ := Ring.addTail_isRing hkeep hnew (by simp [Ring.Mem.alloc]) (by simp [Ring.Mem.alloc])
  refine ⟨⟨m,Function.update q.wqDataNode node (.job workitem)⟩,?_,hring,rfl⟩
  rw [WQueue.insertNode, hm]
  rfl

/-- A call that unlinks has read the record of `w_qnode` and poisons its fields; it returns `w_qnode`, if that record has
a name. -/
theorem processItem_eq {rounds : ℕ} {q q' : WQueue J} {r : Option Addr} (h : q.processItem rounds = some (r,q')) :
    (q.wqDataNode wQnode).readable = true ∧ q'.wqList.next wQnode = some .poison1 ∧ q'.wqDataNode = q.wqDataNode ∧
      r = if (q.wqDataNode wQnode).named then some wQnode else none := by
  obtain ⟨c,hc,hrest⟩ := Option.bind_eq_some_iff.mp h
  obtain rfl := Ring.cursorAfter_eq hc
  split at hrest
  · next hread =>
    obtain ⟨m,hm,hrest⟩ := Option.bind_eq_some_iff.mp hrest
    cases hrest
    exact ⟨hread,Ring.next_of_del hm,rfl,rfl⟩
  · cases hrest

/-- On a ring it gets that far when the data pointer of `w_qnode` can be followed. -/
theorem processItem_isSome {q : WQueue J} {nodes : List Addr} (h : Ring.IsRing q.wqList wQnode nodes)
    (hdata : (q.wqDataNode wQnode).readable = true) : (q.processItem (nodes.length + 1)).isSome := by
  obtain ⟨m,hm⟩ := Option.isSome_iff_exists.mp (h.del_head (.poison1,.poison2))
  rw [WQueue.processItem, h.cursorAfter_eq (Nat.lt_succ_self _)]
  simp [hdata, hm]

theorem mem_runQueue {rounds : ℕ} {ops : List (QueueOp J)} {q q' : WQueue J} {returned : List Addr}
    (h : runQueue rounds ops q = some (returned,q')) : ∀ node ∈ returned, node = wQnode := by
  induction ops generalizing q returned with
  | nil =>
    cases h
    exact fun _ hm => absurd hm List.not_mem_nil
  | cons op ops ih =>
    cases op with
    | insert node stale workitem =>
      obtain ⟨q₁,_,hrest⟩ := Option.bind_eq_some_iff.mp h
      exact ih hrest
    | processItem =>
      obtain ⟨⟨r,q₁⟩,hnode,hrest⟩ := Option.bind_eq_some_iff.mp h
      obtain ⟨node,hr,hrest⟩ := Option.bind_eq_some_iff.mp hrest
      obtain ⟨⟨rest,q₂⟩,hrun,hrest⟩ := Option.bind_eq_some_iff.mp hrest
      cases hrest
      obtain ⟨_,_,_,hsome⟩ := processItem_eq hnode
      have hsentinel : node = wQnode := by
        have heq : some node = if (q.wqDataNode wQnode).named then some wQnode else none := hr.symm.trans hsome
        split at heq
        · exact Option.some.inj heq
        · cases heq
      intro x hx
      rcases List.mem_cons.mp hx with rfl | hx
      · exact hsentinel
      · exact ih hrun x hx

theorem runQueue_ne_nil {rounds : ℕ} {ops : List (QueueOp J)} {q q' : WQueue J} {returned : List Addr}
    (h : runQueue rounds ops q = some (returned,q')) (hop : .processItem ∈ ops) : returned ≠ [] := by
  induction ops generalizing q returned with
  | nil => cases hop
  | cons op ops ih =>
    cases op with
    | insert node stale workitem =>
      obtain ⟨q₁,_,hrest⟩ := Option.bind_eq_some_iff.mp h
      exact ih hrest ((List.mem_cons.mp hop).resolve_left (fun h => nomatch h))
    | processItem =>
      obtain ⟨⟨r,q₁⟩,hnode,hrest⟩ := Option.bind_eq_some_iff.mp h
      obtain ⟨node,hr,hrest⟩ := Option.bind_eq_some_iff.mp hrest
      obtain ⟨⟨rest,q₂⟩,hrun,hrest⟩ := Option.bind_eq_some_iff.mp hrest
      cases hrest
      exact List.cons_ne_nil _ _

/-- The first-in first-out queue returns inserted nodes only. -/
theorem fifo_ne_wQnode {ops : List (QueueOp J)} {nodes : List Addr} (ha : Admissible ops nodes)
    (hn : wQnode ∉ nodes) : wQnode ∉ (fifo ops nodes).1 := by
  induction ops generalizing nodes with
  | nil => exact List.not_mem_nil
  | cons op ops ih =>
    cases op with
    | insert node stale workitem =>
      obtain ⟨hnew,ha⟩ := ha
      refine ih ha ?_
      intro hm
      rcases List.mem_append.mp hm with hm | hm
      · exact hn hm
      · exact hnew (List.mem_singleton.mp hm ▸ List.mem_cons_self)
    | processItem =>
      cases nodes with
      | nil => exact absurd rfl ha.1
      | cons node nodes =>
        obtain ⟨hne,hn⟩ := not_or.mp (List.mem_cons.not.mp hn)
        intro hm
        rcases List.mem_cons.mp hm with h | hm
        · exact hne h
        · exact ih ha.2 hn hm

/-- Insertions alone keep the ring. -/
theorem wellKept_of_notMem {rounds : ℕ} {ops : List (QueueOp J)} {q : WQueue J} {nodes : List Addr}
    (hq : Ring.IsRing q.wqList wQnode nodes) (ha : Admissible ops nodes) (hop : .processItem ∉ ops) :
    WellKept rounds q ops nodes := by
  induction ops generalizing q nodes with
  | nil => exact ⟨[],q,rfl,rfl,hq⟩
  | cons op ops ih =>
    cases op with
    | insert node stale workitem =>
      obtain ⟨q₁,hq₁,hring,_⟩ := insertNode_isRing hq ha.1 stale workitem
      obtain ⟨returned,q',hrun,hret,hend⟩ := ih hring ha.2 (fun h => hop (List.mem_cons_of_mem _ h))
      refine ⟨returned,q',?_,hret,hend⟩
      rw [runQueue, hq₁]
      exact hrun
    | processItem => exact absurd List.mem_cons_self hop

theorem Admissible.of_prefix {pre ops : List (QueueOp J)} {nodes : List Addr} (hp : pre <+: ops)
    (ha : Admissible ops nodes) : Admissible pre nodes := by
  induction pre generalizing ops nodes with
  | nil => trivial
  | cons op pre ih =>
    obtain ⟨rest,rfl⟩ := hp
    cases op with
    | insert node stale workitem => exact ⟨ha.1,ih (List.prefix_append pre rest) ha.2⟩
    | processItem => exact ⟨ha.1,ih (List.prefix_append pre rest) ha.2⟩

/-- The ring is kept through every call exactly when nothing is ever taken from it. -/
theorem queue_wellKept_iff (garbage : WqData J) (rounds : ℕ) {ops : List (QueueOp J)} (ha : Admissible ops []) :
    (∀ pre, pre <+: ops → WellKept rounds (WQueue.empty garbage) pre []) ↔ .processItem ∉ ops := by
  constructor
  · intro h hop
    obtain ⟨returned,q',hrun,hret,_⟩ := h ops List.prefix_rfl
    obtain ⟨node,hnode⟩ := List.exists_mem_of_ne_nil _ (runQueue_ne_nil hrun hop)
    have hmem := hnode
    rw [mem_runQueue hrun node hnode, hret] at hmem
    exact fifo_ne_wQnode ha List.not_mem_nil hmem
  · intro hop pre hpre
    exact wellKept_of_notMem (empty_isRing garbage) (ha.of_prefix hpre) (fun h => hop (hpre.subset h))

theorem queue_wellKept_two :
    (∀ pre, pre <+: [.insert (.node 1) (wQnode,wQnode) 5,.insert (.node 2) (wQnode,wQnode) 6] →
      WellKept 4 (WQueue.empty (.wild : WqData ℕ)) pre []) ↔
        .processItem ∉ [QueueOp.insert (.node 1) (wQnode,wQnode) 5,.insert (.node 2) (wQnode,wQnode) 6] :=
  queue_wellKept_iff .wild 4 ⟨by decide,⟨by decide,trivial⟩⟩

/-- With one job in the queue `process_item` returns and unlinks `w_qnode`. -/
theorem process_item_takes_sentinel :
    Admissible [QueueOp.insert (.node 1) (wQnode,wQnode) 5,.processItem] [] ∧
      (runQueue 4 [.insert (.node 1) (wQnode,wQnode) 5,.processItem] (WQueue.empty (.job 0))).map Prod.fst =
        some [wQnode] ∧
      ¬ WellKept 4 (WQueue.empty (.job 0)) [.insert (.node 1) (wQnode,wQnode) 5,.processItem] [] := by
  have hrun : (runQueue 4 [.insert (.node 1) (wQnode,wQnode) 5,.processItem] (WQueue.empty (.job 0))).map Prod.fst =
      some [wQnode] := by
    decide
  refine ⟨⟨by decide,by decide,trivial⟩,hrun,?_⟩
  rintro ⟨returned,q',h,hret,_⟩
  rw [h] at hrun
  cases hrun
  exact absurd hret (by decide)

end XClone
