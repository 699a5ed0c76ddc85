import XClone.Async.Queue

/-! # Unloading `sys_xclone2async`

`exit_sys_xclone2async` walks the queue with an empty body, as `process_item` does, so the one
node it unlinks and frees is `w_qnode`, whatever still hangs on it.
-/
namespace XClone
variable {J : Type}

/-- What was unlinked and freed, in order, and the queue after it. -/
structure Unloaded (J : Type) where
  unlinked : List Addr
  freed : List Addr
  queue : WQueue J

/-- `exit_sys_xclone2async`; `list_entry` of a node in a queue is never null. -/
def WQueue.exitSysXclone2async (rounds : ℕ) (q : WQueue J) : Option (Unloaded J) := do
  let wqHlist1 ← Ring.cursorAfter rounds q.wqList wQnode
  let wqList ← Ring.del (.poison1,.poison2) q.wqList wqHlist1
  return ⟨[wqHlist1],[wqHlist1],WQueue.kfree {q with wqList} wqHlist1⟩

/-- Every queued node was unlinked and freed once, and nothing else was freed but `w_qnode` after them. -/
structure Drained (nodes : List Addr) (u : Unloaded J) : Prop where
  unlinked : ∀ node ∈ nodes, u.unlinked.count node = 1
  freed : ∀ node ∈ nodes, u.freed.count node = 1
  others : ∀ before addr after, u.freed = before ++ addr :: after →
    addr ∈ nodes ∨ (addr = wQnode ∧ ∀ node ∈ nodes, node ∈ before)

/-- On a ring the module unlinks and frees `w_qnode`. -/
theorem exitSysXclone2async_eq {q : WQueue J} {nodes : List Addr} (h : Ring.IsRing q.wqList wQnode nodes) {r : ℕ}
    (hr : nodes.length < r) : ∃ q', q.exitSysXclone2async r = some ⟨[wQnode],[wQnode],q'⟩ := by
  obtain ⟨m,hm⟩ := Option.isSome_iff_exists.mp (h.del_head (.poison1,.poison2))
  exact ⟨_,by simp [WQueue.exitSysXclone2async, h.cursorAfter_eq hr, hm]; rfl⟩

/-- The queue is drained exactly when it was empty. -/
theorem exit_drains_iff {q : WQueue J} {nodes : List Addr} (h : Ring.IsRing q.wqList wQnode nodes) {rounds : ℕ}
    (hr : nodes.length < rounds) :
    (∃ u, q.exitSysXclone2async rounds = some u ∧ Drained nodes u) ↔ nodes = [] := by
  obtain ⟨q',hexit⟩ := exitSysXclone2async_eq h hr
  constructor
  · rintro ⟨u,hu,hdrained⟩
    rw [hexit] at hu
    cases hu
    by_contra hne
    obtain ⟨node,hnode⟩ := List.exists_mem_of_ne_nil _ hne
    have hfreed := List.count_pos_iff.mp (lt_of_lt_of_eq Nat.one_pos (hdrained.freed node hnode).symm)
    obtain rfl := List.mem_singleton.mp hfreed
    exact (List.nodup_cons.mp h.nodup).1 hnode
  · rintro rfl
    refine ⟨_,hexit,by simp,by simp,?_⟩
    intro before addr after heq
    have hmem : addr ∈ [wQnode] := by
      rw [show [wQnode] = before ++ addr :: after from heq]
      simp
    exact .inr ⟨List.mem_singleton.mp hmem,by simp⟩

/-- One job, inserted into a new queue. -/
def oneJob : List (QueueOp ℕ) := [.insert (.node 1) (wQnode,wQnode) 5]

theorem oneJob_isRing : ∃ q, (runQueue 4 oneJob (WQueue.empty .wild)).map Prod.snd = some q ∧
    Ring.IsRing q.wqList wQnode [.node 1] := by
  have hkept : WellKept 4 (WQueue.empty .wild) oneJob [] :=
    wellKept_of_notMem (empty_isRing .wild) ⟨by decide,trivial⟩ (by simp [oneJob])
  obtain ⟨returned,q,hrun,-,hring⟩ := hkept
  exact ⟨q,by simp [hrun],hring⟩

theorem exit_drains_one : ∃ q, (runQueue 4 oneJob (WQueue.empty .wild)).map Prod.snd = some q ∧
    ((∃ u, q.exitSysXclone2async 2 = some u ∧ Drained [.node 1] u) ↔ [Addr.node 1] = []) := by
  obtain ⟨q,hrun,hring⟩ := oneJob_isRing
  exact ⟨q,hrun,exit_drains_iff hring (by decide)⟩

/-- With one job in the queue only `w_qnode` is freed. -/
theorem exit_frees_sentinel : ∃ q, (runQueue 4 oneJob (WQueue.empty .wild)).map Prod.snd = some q ∧
    (q.exitSysXclone2async 2).map Unloaded.freed = some [wQnode] ∧
    ¬ ∃ u, q.exitSysXclone2async 2 = some u ∧ Drained [.node 1] u := by
  obtain ⟨q,hrun,hring⟩ := oneJob_isRing
  obtain ⟨q',hexit⟩ := exitSysXclone2async_eq hring (r := 2) (by decide)
  refine ⟨q,hrun,by simp [hexit],?_⟩
  rintro ⟨u,hu,hdrained⟩
  rw [hexit] at hu
  cases hu
  have hone : [wQnode].count (.node 1) = 1 := hdrained.freed (.node 1) (by simp)
  exact absurd hone (by decide)

end XClone
