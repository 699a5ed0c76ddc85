import Mathlib.Data.List.Nodup
import Mathlib.Logic.Function.Basic

/-! # Circular doubly linked lists

Nodes are linked by two fields each, as in the lists of a kernel. A field of a node outside
the memory cannot be read or written, and a deleted node is left with two poisoned fields.
-/
namespace Ring
variable {α : Type*} [DecidableEq α]

/-- The link fields of the nodes; `none` where there is no node. -/
structure Mem (α : Type*) where
  next : α → Option α
  prev : α → Option α

def Mem.setNext (m : Mem α) (x y : α) : Option (Mem α) :=
  (m.next x).map (fun _ => {m with next := Function.update m.next x (some y)})

def Mem.setPrev (m : Mem α) (x y : α) : Option (Mem α) :=
  (m.prev x).map (fun _ => {m with prev := Function.update m.prev x (some y)})

/-- A new node, with whatever its fields held. -/
def Mem.alloc (m : Mem α) (x : α) (stale : α × α) : Mem α :=
  ⟨Function.update m.next x (some stale.1),Function.update m.prev x (some stale.2)⟩

def Mem.free (m : Mem α) (x : α) : Mem α :=
  ⟨Function.update m.next x none,Function.update m.prev x none⟩

/-! ## The operations -/

def init (m : Mem α) (head : α) : Option (Mem α) := do
  let m ← m.setNext head head
  m.setPrev head head

/-- Insertion between the last node and the head. -/
def addTail (m : Mem α) (new head : α) : Option (Mem α) := do
  let last ← m.prev head
  let m ← m.setPrev head new
  let m ← m.setNext new head
  let m ← m.setPrev new last
  m.setNext last new

def del (poison : α × α) (m : Mem α) (entry : α) : Option (Mem α) := do
  let before ← m.prev entry
  let after ← m.next entry
  let m ← m.setPrev after before
  let m ← m.setNext before after
  let m ← m.setNext entry poison.1
  m.setPrev entry poison.2

/-- The walk from a node to the head, reading each successor before the body would run; the node
it ends at. `none` when a field cannot be read or the budget of rounds is spent. -/
def walk (m : Mem α) (head : α) : ℕ → α → Option α
  | 0, _ => none
  | rounds+1, pos =>
    if pos = head then some pos
    else do
      let following ← m.next pos
      walk m head rounds following

/-- The cursor behind a traversal whose body is empty. -/
def cursorAfter (rounds : ℕ) (m : Mem α) (head : α) : Option α := do
  let first ← m.next head
  walk m head rounds first

/-- A deleted node is poisoned. -/
theorem next_of_del {poison : α × α} {m m' : Mem α} {entry : α} (h : del poison m entry = some m') :
    m'.next entry = some poison.1 := by
  obtain ⟨before,_,h⟩ := Option.bind_eq_some_iff.mp h
  obtain ⟨after,_,h⟩ := Option.bind_eq_some_iff.mp h
  obtain ⟨m₁,_,h⟩ := Option.bind_eq_some_iff.mp h
  obtain ⟨m₂,_,h⟩ := Option.bind_eq_some_iff.mp h
  obtain ⟨m₃,hnext,hprev⟩ := Option.bind_eq_some_iff.mp h
  obtain ⟨_,_,rfl⟩ := Option.map_eq_some_iff.mp hnext
  obtain ⟨_,_,rfl⟩ := Option.map_eq_some_iff.mp hprev
  exact Function.update_self _ _ _

/-! ## Chains and rings -/

/-- Neighbours are linked both ways. -/
def Chain (m : Mem α) : List α → Prop
  | x :: y :: nodes => m.next x = some y ∧ m.prev y = some x ∧ Chain m (y :: nodes)
  | _ => True

/-- The nodes between the head and itself, each once. -/
structure IsRing (m : Mem α) (head : α) (nodes : List α) : Prop where
  nodup : (head :: nodes).Nodup
  chain : Chain m (head :: nodes ++ [head])

omit [DecidableEq α] in
theorem chain_append {m : Mem α} (xs : List α) (x : α) (ys : List α) :
    Chain m (xs ++ x :: ys) ↔ Chain m (xs ++ [x]) ∧ Chain m (x :: ys) := by
  induction xs with
  | nil => exact ⟨fun h => ⟨trivial,h⟩,fun h => h.2⟩
  | cons a xs ih =>
    cases xs with
    | nil =>
      constructor
      · rintro ⟨h₁,h₂,h₃⟩
        exact ⟨⟨h₁,h₂,trivial⟩,h₃⟩
      · rintro ⟨⟨h₁,h₂,_⟩,h₃⟩
        exact ⟨h₁,h₂,h₃⟩
    | cons b xs =>
      constructor
      · rintro ⟨h₁,h₂,h₃⟩
        obtain ⟨hl,hr⟩ := ih.mp h₃
        exact ⟨⟨h₁,h₂,hl⟩,hr⟩
      · rintro ⟨⟨h₁,h₂,hl⟩,hr⟩
        exact ⟨h₁,h₂,ih.mpr ⟨hl,hr⟩⟩

omit [DecidableEq α] in
/-- A chain reads the successors of all nodes but the last and the predecessors of all but the first. -/
theorem Chain.transport {m m' : Mem α} {nodes : List α} (h : Chain m nodes)
    (hnext : ∀ x ∈ nodes.dropLast, m'.next x = m.next x) (hprev : ∀ x ∈ nodes.tail, m'.prev x = m.prev x) :
    Chain m' nodes := by
  induction nodes with
  | nil => trivial
  | cons x nodes ih =>
    cases nodes with
    | nil => trivial
    | cons y nodes =>
      obtain ⟨hn,hp,hrest⟩ := h
      refine ⟨(hnext x List.mem_cons_self).trans hn,(hprev y List.mem_cons_self).trans hp,ih hrest ?_ ?_⟩
      · intro z hz
        exact hnext z (List.mem_cons_of_mem _ hz)
      · intro z hz
        exact hprev z (List.mem_cons_of_mem _ hz)

omit [DecidableEq α] in
/-- The nodes of a chain have successors, but for the last one. -/
theorem Chain.exists_next {m : Mem α} {nodes : List α} (h : Chain m nodes) {x : α} (hx : x ∈ nodes.dropLast) :
    ∃ y, m.next x = some y := by
  induction nodes with
  | nil => cases hx
  | cons a nodes ih =>
    cases nodes with
    | nil => cases hx
    | cons b nodes =>
      obtain ⟨hn,-,hrest⟩ := h
      rcases List.mem_cons.mp hx with rfl | hx
      · exact ⟨b,hn⟩
      · exact ih hrest hx

omit [DecidableEq α] in
theorem IsRing.exists_next {m : Mem α} {head : α} {nodes : List α} (h : IsRing m head nodes) {x : α}
    (hx : x ∈ head :: nodes) : ∃ y, m.next x = some y :=
  h.chain.exists_next (by rwa [List.dropLast_concat])

omit [DecidableEq α] in
theorem IsRing.next_head_mem {m : Mem α} {head y : α} {nodes : List α} (h : IsRing m head nodes)
    (hy : m.next head = some y) : y ∈ head :: nodes := by
  obtain ⟨first,hfirst,hmem⟩ : ∃ first, m.next head = some first ∧ first ∈ head :: nodes := by
    cases nodes with
    | nil => exact ⟨head,h.chain.1,List.mem_cons_self⟩
    | cons x nodes => exact ⟨x,h.chain.1,by simp⟩
  rw [hy] at hfirst
  cases hfirst
  exact hmem

omit [DecidableEq α] in
/-- The last node of a ring, the head when it is empty. -/
theorem IsRing.exists_last {m : Mem α} {head : α} {nodes : List α} (h : IsRing m head nodes) :
    ∃ before last, head :: nodes = before ++ [last] ∧ m.prev head = some last ∧ m.next last = some head ∧
      last ∉ before := by
  obtain ⟨before,last,heq⟩ : ∃ before last, head :: nodes = before ++ [last] :=
    ⟨_,_,(List.dropLast_append_getLast (List.cons_ne_nil head nodes)).symm⟩
  have hchain := h.chain
  rw [heq, List.append_assoc] at hchain
  obtain ⟨_,hn,hp,_⟩ := (chain_append before last [head]).mp hchain
  have hnodup := h.nodup
  rw [heq] at hnodup
  refine ⟨before,last,heq,hp,hn,?_⟩
  intro hm
  exact List.disjoint_of_nodup_append hnodup hm List.mem_cons_self

/-- Insertion at the tail appends the node. -/
theorem addTail_isRing {m : Mem α} {head new : α} {nodes : List α} (h : IsRing m head nodes)
    (hnew : new ∉ head :: nodes) (hn : (m.next new).isSome) (hp : (m.prev new).isSome) :
    ∃ m', addTail m new head = some m' ∧ IsRing m' head (nodes ++ [new]) ∧
      (∀ x, x ∉ head :: nodes → x ≠ new → m'.next x = m.next x ∧ m'.prev x = m.prev x) := by
  obtain ⟨before,last,heq,hlast,hback,hnotin⟩ := h.exists_last
  obtain ⟨n,hn⟩ := Option.isSome_iff_exists.mp hn
  obtain ⟨p,hp⟩ := Option.isSome_iff_exists.mp hp
  have hhead : new ≠ head := fun he => hnew (he ▸ List.mem_cons_self)
  have hmem : last ∈ head :: nodes := heq ▸ List.mem_append_right _ List.mem_cons_self
  have hlastne : last ≠ new := fun he => hnew (he ▸ hmem)
  let m' : Mem α := ⟨Function.update (Function.update m.next new (some head)) last (some new),
    Function.update (Function.update m.prev head (some new)) new (some last)⟩
  have hnextLast : m'.next last = some new := Function.update_self _ _ _
  have hnextNew : m'.next new = some head := by
    change Function.update _ _ _ _ = _
    rw [Function.update_of_ne hlastne.symm, Function.update_self]
  have hprevNew : m'.prev new = some last := Function.update_self _ _ _
  have hprevHead : m'.prev head = some new := by
    change Function.update _ _ _ _ = _
    rw [Function.update_of_ne hhead.symm, Function.update_self]
  have hframe : ∀ x, x ≠ new → (x ≠ last → m'.next x = m.next x) ∧ (x ≠ head → m'.prev x = m.prev x) := by
    intro x hx
    constructor
    · intro hxl
      change Function.update _ _ _ _ = _
      rw [Function.update_of_ne hxl, Function.update_of_ne hx]
    · intro hxh
      change Function.update _ _ _ _ = _
      rw [Function.update_of_ne hx, Function.update_of_ne hxh]
  have hbefore : ∀ x ∈ before, x ∈ head :: nodes := fun x hx => heq ▸ List.mem_append_left _ hx
  have hchain := h.chain
  rw [heq, List.append_assoc] at hchain
  refine ⟨m',?_,⟨?_,?_⟩,?_⟩
  · simp [addTail, Mem.setNext, Mem.setPrev, hlast, hn, hp, hback, m', Function.update_of_ne hhead,
      Function.update_of_ne hlastne]
  · rw [← List.cons_append, List.nodup_append]
    refine ⟨h.nodup,List.nodup_singleton _,?_⟩
    rintro x hx y hy rfl
    exact hnew (List.mem_singleton.mp hy ▸ hx)
  · have hl := ((chain_append before last [head]).mp hchain).1
    rw [← List.cons_append, heq, List.append_assoc, List.append_assoc]
    refine (chain_append before last _).mpr ⟨hl.transport ?_ ?_,hnextLast,hprevNew,hnextNew,hprevHead,trivial⟩
    · intro x hx
      rw [List.dropLast_concat] at hx
      exact (hframe x (fun he => hnew (he ▸ hbefore x hx))).1 (fun he => hnotin (he ▸ hx))
    · intro x hx
      rw [← heq, List.tail_cons] at hx
      have hxh : x ≠ head := fun he => (List.nodup_cons.mp h.nodup).1 (he ▸ hx)
      exact (hframe x (fun he => hnew (he ▸ List.mem_cons_of_mem _ hx))).2 hxh
  · intro x hx hxn
    exact ⟨(hframe x hxn).1 (fun he => hx (he ▸ hmem)),(hframe x hxn).2 (fun he => hx (he ▸ List.mem_cons_self))⟩

/-! ## The traversal with an empty body -/

/-- Whatever the memory, such a traversal can only end at the head. -/
theorem walk_eq {m : Mem α} {head pos c : α} {rounds : ℕ} (h : walk m head rounds pos = some c) : c = head := by
  induction rounds generalizing pos with
  | zero => cases h
  | succ rounds ih =>
    rw [walk] at h
    split at h
    · next hpos =>
      cases h
      exact hpos
    · obtain ⟨following,_,hrest⟩ := Option.bind_eq_some_iff.mp h
      exact ih hrest

theorem cursorAfter_eq {m : Mem α} {head c : α} {rounds : ℕ} (h : cursorAfter rounds m head = some c) : c = head := by
  obtain ⟨_,_,hwalk⟩ := Option.bind_eq_some_iff.mp h
  exact walk_eq hwalk

/-- In a ring it does end. -/
theorem IsRing.cursorAfter_eq {m : Mem α} {head : α} {nodes : List α} (h : IsRing m head nodes) {rounds : ℕ}
    (hr : nodes.length < rounds) : cursorAfter rounds m head = some head := by
  have hwalk : ∀ (xs : List α) (x : α) (rounds : ℕ), Chain m (x :: xs ++ [head]) → xs.length + 1 < rounds →
      walk m head rounds x = some head := by
    intro xs
    induction xs with
    | nil =>
      intro x rounds hc hlen
      have htwo : 1 < rounds := hlen
      obtain ⟨r,rfl⟩ : ∃ r, rounds = r+2 := ⟨rounds-2,by omega⟩
      obtain ⟨hn,_⟩ := hc
      by_cases hx : x = head
      · simp [walk, hx]
      · simp [walk, hx, hn]
    | cons y xs ih =>
      intro x rounds hc hlen
      obtain ⟨r,rfl⟩ := Nat.exists_eq_succ_of_ne_zero (show rounds ≠ 0 by omega)
      obtain ⟨hn,_,hrest⟩ := hc
      have hrec := ih y r hrest (by rw [List.length_cons] at hlen; omega)
      by_cases hx : x = head
      · simp [walk, hx]
      · simp [walk, hx, hn, hrec]
  cases nodes with
  | nil =>
    obtain ⟨hn,_⟩ := h.chain
    obtain ⟨r,rfl⟩ := Nat.exists_eq_succ_of_ne_zero (show rounds ≠ 0 by omega)
    simp [cursorAfter, hn, walk]
  | cons x nodes =>
    obtain ⟨hn,_,hrest⟩ := h.chain
    simp only [cursorAfter, hn]
    exact hwalk nodes x rounds hrest hr

/-- An entry whose neighbours can be written can be unlinked. -/
theorem del_isSome {m : Mem α} {entry before after : α} (poison : α × α) (hprev : m.prev entry = some before)
    (hnext : m.next entry = some after) (hb : (m.next before).isSome) (ha : (m.prev after).isSome) :
    (del poison m entry).isSome := by
  obtain ⟨b,hb⟩ := Option.isSome_iff_exists.mp hb
  obtain ⟨a,ha⟩ := Option.isSome_iff_exists.mp ha
  have hn : ∃ y, Function.update m.next before (some after) entry = some y := by
    by_cases h : entry = before
    · exact ⟨after,by rw [h, Function.update_self]⟩
    · exact ⟨after,by rw [Function.update_of_ne h, hnext]⟩
  have hp : ∃ y, Function.update m.prev after (some before) entry = some y := by
    by_cases h : entry = after
    · exact ⟨before,by rw [h, Function.update_self]⟩
    · exact ⟨before,by rw [Function.update_of_ne h, hprev]⟩
  obtain ⟨y,hy⟩ := hn
  obtain ⟨z,hz⟩ := hp
  simp [del, hprev, hnext, Mem.setPrev, Mem.setNext, ha, hb, hy, hz]

theorem IsRing.del_head {m : Mem α} {head : α} {nodes : List α} (h : IsRing m head nodes) (poison : α × α) :
    (del poison m head).isSome := by
  obtain ⟨before,last,-,hprev,hnext,-⟩ := h.exists_last
  obtain ⟨first,hfirst,hback⟩ : ∃ first, m.next head = some first ∧ m.prev first = some head := by
    cases nodes with
    | nil => exact ⟨head,h.chain.1,h.chain.2.1⟩
    | cons x nodes => exact ⟨x,h.chain.1,h.chain.2.1⟩
  exact del_isSome poison hprev hfirst (by rw [hnext]; rfl) (by rw [hback]; rfl)

end Ring
