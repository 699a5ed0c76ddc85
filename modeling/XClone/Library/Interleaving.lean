import XClone.Library.Program
import Mathlib.Data.List.Pairwise

/-! # Interleaving two programs over a shared store

Each program has a private state; the store maps locations to values, and a call
touches at most one location. If on every location the calls of the left program
all come before those of the right one, any interleaving ends in the state of
running the left program first and the right one after it.
-/
namespace Effects
variable {C : Type} {R : C → Type} {L Loc V α β : Type}

/-- A handler on a private state and a shared store, with the location each call touches.
`act_congr` is locality of reads, `act_frame` locality of writes. -/
structure Sharing (C : Type) (R : C → Type) (L Loc V : Type) where
  act : Handler C R (L × (Loc → V))
  touch : C → L → Option Loc
  act_congr : ∀ c l (σ τ : Loc → V), (∀ ℓ, touch c l = some ℓ → σ ℓ = τ ℓ) →
    (act c (l,σ)).1 = (act c (l,τ)).1 ∧ (act c (l,σ)).2.1 = (act c (l,τ)).2.1 ∧
    ∀ ℓ, touch c l = some ℓ → (act c (l,σ)).2.2 ℓ = (act c (l,τ)).2.2 ℓ
  act_frame : ∀ c l (σ : Loc → V) ℓ, touch c l ≠ some ℓ → (act c (l,σ)).2.2 ℓ = σ ℓ

/-- A thread is a program still to run and its private state; `none` is a dead thread. -/
structure Thread (C : Type) (R : C → Type) (L α : Type) where
  code : Option (Prog C R α)
  priv : L

namespace Sharing
variable (M : Sharing C R L Loc V)

def Thread.Finished (t : Thread C R L α) : Prop :=
  t.code = none ∨ ∃ a, t.code = some (.ret a)

instance (t : Thread C R L α) : Decidable (Thread.Finished t) :=
  match h : t.code with
  | none => .isTrue (.inl h)
  | some (.ret a) => .isTrue (.inr ⟨a,h⟩)
  | some (.call _ _) => .isFalse (by
    rintro (hn | ⟨a,ha⟩)
    · rw [h] at hn
      cases hn
    · rw [h] at ha
      cases ha)

/-- One call of a thread; a finished thread stays as it is. -/
def stepThread (t : Thread C R L α) (σ : Loc → V) : Thread C R L α × (Loc → V) :=
  match t.code with
  | some (.call c k) =>
    match M.act c (t.priv,σ) with
    | (some r, l, σ') => (⟨some (k r),l⟩,σ')
    | (none, l, σ') => (⟨none,l⟩,σ')
  | _ => (t,σ)

/-- The location the next call of a thread touches. -/
def nextTouch (t : Thread C R L α) : Option Loc :=
  match t.code with
  | some (.call c _) => M.touch c t.priv
  | _ => none

/-- A thread run to its end on its own. -/
def finish (t : Thread C R L α) (σ : Loc → V) : Thread C R L α × (Loc → V) :=
  match t.code with
  | none => (t,σ)
  | some p =>
    let e := p.run M.act (t.priv,σ)
    (⟨e.1.map .ret,e.2.1⟩,e.2.2)

/-- The locations a thread touches when it runs on its own. -/
def touched : Prog C R α → L → (Loc → V) → List Loc
  | .ret _, _, _ => []
  | .call c k, l, σ =>
    (M.touch c l).toList ++ match M.act c (l,σ) with
      | (some r, l', σ') => touched (k r) l' σ'
      | (none, _, _) => []

inductive Side where
  | left | right
deriving DecidableEq

/-- Two threads over one store. -/
structure Pair (C : Type) (R : C → Type) (L Loc V α β : Type) where
  left : Thread C R L α
  right : Thread C R L β
  store : Loc → V

def step (P : Pair C R L Loc V α β) : Side → Pair C R L Loc V α β
  | .left => let n := M.stepThread P.left P.store
    { P with left := n.1, store := n.2 }
  | .right => let n := M.stepThread P.right P.store
    { P with right := n.1, store := n.2 }

/-- Run a schedule, which names the thread that makes each next call. -/
def exec (w : List Side) (P : Pair C R L Loc V α β) : Pair C R L Loc V α β :=
  w.foldl M.step P

def accessOf (P : Pair C R L Loc V α β) : Side → List (Side × Loc)
  | .left => (M.nextTouch P.left).toList.map (Side.left,·)
  | .right => (M.nextTouch P.right).toList.map (Side.right,·)

/-- The accesses to the store in a schedule, in order. -/
def accesses : List Side → Pair C R L Loc V α β → List (Side × Loc)
  | [], _ => []
  | i :: w, P => M.accessOf P i ++ accesses w (M.step P i)

/-- No access of the right thread precedes one of the left thread to the same location. -/
def LeftFirst (log : List (Side × Loc)) : Prop :=
  log.Pairwise (fun x y => ¬ (x.1 = .right ∧ y.1 = .left ∧ x.2 = y.2))

instance [DecidableEq Loc] (log : List (Side × Loc)) : Decidable (LeftFirst log) :=
  inferInstanceAs (Decidable (log.Pairwise _))

def Complete (P : Pair C R L Loc V α β) : Prop :=
  Thread.Finished P.left ∧ Thread.Finished P.right

instance (P : Pair C R L Loc V α β) : Decidable (Complete P) := inferInstanceAs (Decidable (_ ∧ _))

/-- The left thread to its end, then the right one. -/
def sequential (P : Pair C R L Loc V α β) : Pair C R L Loc V α β :=
  let l := M.finish P.left P.store
  let r := M.finish P.right l.2
  ⟨l.1,r.1,r.2⟩

/-! ## Locality of a whole run -/

/-- A run leaves alone what it does not touch. -/
theorem run_frame {p : Prog C R α} {l : L} {σ : Loc → V} {ℓ : Loc} (hℓ : ℓ ∉ M.touched p l σ) :
    (p.run M.act (l,σ)).2.2 ℓ = σ ℓ := by
  induction p generalizing l σ with
  | ret a => rfl
  | call c k ih =>
    simp only [touched, List.mem_append, Option.mem_toList, not_or] at hℓ
    have hf := M.act_frame c l σ ℓ hℓ.1
    simp only [Prog.run]
    rcases hc : M.act c (l,σ) with ⟨_ | r, l', σ'⟩
    · rw [hc] at hf
      exact hf
    · rw [hc] at hf hℓ
      exact (ih r hℓ.2).trans hf

/-- A run only depends on what it touches. -/
theorem run_congr {p : Prog C R α} {l : L} {σ τ : Loc → V} (h : ∀ ℓ ∈ M.touched p l σ, σ ℓ = τ ℓ) :
    M.touched p l σ = M.touched p l τ ∧
    (p.run M.act (l,σ)).1 = (p.run M.act (l,τ)).1 ∧
    (p.run M.act (l,σ)).2.1 = (p.run M.act (l,τ)).2.1 ∧
    ∀ ℓ, σ ℓ = τ ℓ → (p.run M.act (l,σ)).2.2 ℓ = (p.run M.act (l,τ)).2.2 ℓ := by
  induction p generalizing l σ τ with
  | ret a => exact ⟨rfl,rfl,rfl,fun _ h => h⟩
  | call c k ih =>
    simp only [touched, List.mem_append, Option.mem_toList] at h
    obtain ⟨hr,hl,hs⟩ := M.act_congr c l σ τ (fun ℓ hℓ => h ℓ (.inl hℓ))
    -- the stores still agree, after the call, wherever they agreed before it
    have hkeep : ∀ ℓ, σ ℓ = τ ℓ → (M.act c (l,σ)).2.2 ℓ = (M.act c (l,τ)).2.2 ℓ := by
      intro ℓ he
      by_cases ht : M.touch c l = some ℓ
      · exact hs ℓ ht
      · rw [M.act_frame c l σ ℓ ht, M.act_frame c l τ ℓ ht, he]
    simp only [Prog.run, touched]
    rcases hσ : M.act c (l,σ) with ⟨_ | r, l', σ'⟩ <;> rcases hτ : M.act c (l,τ) with ⟨_ | r', l'', τ'⟩ <;>
      rw [hσ, hτ] at hr hl hkeep <;> cases hr <;> cases hl
    · exact ⟨rfl,rfl,rfl,hkeep⟩
    · rw [hσ] at h
      obtain ⟨h1,h2,h3,h4⟩ := ih r (fun ℓ hℓ => hkeep ℓ (h ℓ (.inr hℓ)))
      exact ⟨congrArg ((M.touch c l).toList ++ ·) h1,h2,h3,fun ℓ he => h4 ℓ (hkeep ℓ he)⟩

/-! ## Serial order -/

/-- What the left thread still touches if it runs on its own from here. -/
def remaining (t : Thread C R L α) (σ : Loc → V) : List Loc :=
  match t.code with
  | none => []
  | some p => M.touched p t.priv σ

theorem finish_of_finished {t : Thread C R L α} (ht : Thread.Finished t) (σ : Loc → V) :
    M.finish t σ = (t,σ) := by
  rcases t with ⟨code,l⟩
  rcases ht with ht | ⟨a,ht⟩ <;> cases ht <;> rfl

theorem remaining_of_finished {t : Thread C R L α} (ht : Thread.Finished t) (σ : Loc → V) :
    M.remaining t σ = [] := by
  rcases t with ⟨code,l⟩
  rcases ht with ht | ⟨a,ht⟩ <;> cases ht <;> rfl

/-- A thread finishes the same way after one of its own calls. -/
theorem finish_stepThread (t : Thread C R L α) (σ : Loc → V) :
    M.finish (M.stepThread t σ).1 (M.stepThread t σ).2 = M.finish t σ := by
  rcases t with ⟨_ | p, l⟩
  · rfl
  · cases p with
    | ret a => rfl
    | call c k =>
      simp only [stepThread, finish, Prog.run]
      rcases M.act c (l,σ) with ⟨_ | r, l', σ'⟩ <;> rfl

theorem remaining_stepThread (t : Thread C R L α) (σ : Loc → V) :
    M.remaining t σ =
      (M.nextTouch t).toList ++ M.remaining (M.stepThread t σ).1 (M.stepThread t σ).2 := by
  rcases t with ⟨_ | p, l⟩
  · rfl
  · cases p with
    | ret a => rfl
    | call c k =>
      simp only [stepThread, remaining, touched, nextTouch]
      rcases M.act c (l,σ) with ⟨_ | r, l', σ'⟩ <;> rfl

/-- The step of one thread only changes what it touches. -/
theorem stepThread_frame (t : Thread C R L α) (σ : Loc → V) {ℓ : Loc} (hℓ : M.nextTouch t ≠ some ℓ) :
    (M.stepThread t σ).2 ℓ = σ ℓ := by
  rcases t with ⟨_ | p, l⟩
  · rfl
  · cases p with
    | ret a => rfl
    | call c k =>
      have hf := M.act_frame c l σ ℓ hℓ
      simp only [stepThread]
      rcases hc : M.act c (l,σ) with ⟨_ | r, l', σ'⟩ <;> rw [hc] at hf <;> exact hf

theorem finish_frame (t : Thread C R L α) (σ : Loc → V) {ℓ : Loc} (hℓ : ℓ ∉ M.remaining t σ) :
    (M.finish t σ).2 ℓ = σ ℓ := by
  rcases t with ⟨_ | p, l⟩
  · rfl
  · exact M.run_frame hℓ

theorem finish_congr (t : Thread C R L α) {σ τ : Loc → V} (h : ∀ ℓ ∈ M.remaining t σ, σ ℓ = τ ℓ) :
    M.remaining t σ = M.remaining t τ ∧ (M.finish t σ).1 = (M.finish t τ).1 ∧
    ∀ ℓ, σ ℓ = τ ℓ → (M.finish t σ).2 ℓ = (M.finish t τ).2 ℓ := by
  rcases t with ⟨_ | p, l⟩
  · exact ⟨rfl,rfl,fun _ h => h⟩
  · obtain ⟨h1,h2,h3,h4⟩ := M.run_congr h
    exact ⟨h1,by simp only [finish, h2, h3],h4⟩

theorem stepThread_congr (t : Thread C R L α) {σ τ : Loc → V}
    (h : ∀ ℓ, M.nextTouch t = some ℓ → σ ℓ = τ ℓ) :
    (M.stepThread t σ).1 = (M.stepThread t τ).1 ∧
    ∀ ℓ, M.nextTouch t = some ℓ → (M.stepThread t σ).2 ℓ = (M.stepThread t τ).2 ℓ := by
  rcases t with ⟨_ | p, l⟩
  · exact ⟨rfl,fun ℓ hℓ => by cases hℓ⟩
  · cases p with
    | ret a => exact ⟨rfl,fun ℓ hℓ => by cases hℓ⟩
    | call c k =>
      obtain ⟨hr,hl,hs⟩ := M.act_congr c l σ τ h
      simp only [stepThread, nextTouch]
      rcases hσ : M.act c (l,σ) with ⟨_ | r, l', σ'⟩ <;> rcases hτ : M.act c (l,τ) with ⟨_ | r', l'', τ'⟩ <;>
        rw [hσ, hτ] at hr hl hs <;> cases hr <;> cases hl <;> exact ⟨rfl,hs⟩

/-- A step of the right thread commutes with the whole rest of a left thread that
does not touch its location. -/
theorem right_step_commutes (t : Thread C R L α) (u : Thread C R L β) (σ : Loc → V)
    (h : ∀ ℓ, M.nextTouch u = some ℓ → ℓ ∉ M.remaining t (M.stepThread u σ).2) :
    M.remaining t (M.stepThread u σ).2 = M.remaining t σ ∧
    (M.finish t (M.stepThread u σ).2).1 = (M.finish t σ).1 ∧
    M.stepThread u (M.finish t σ).2 = ((M.stepThread u σ).1,(M.finish t (M.stepThread u σ).2).2) := by
  have hoff : ∀ ℓ, M.nextTouch u ≠ some ℓ → (M.stepThread u σ).2 ℓ = σ ℓ :=
    fun ℓ hℓ => M.stepThread_frame u σ hℓ
  obtain ⟨hrem,hfin,hst⟩ := M.finish_congr t (σ := (M.stepThread u σ).2) (τ := σ)
    (fun ℓ hℓ => hoff ℓ (fun hu => h ℓ hu hℓ))
  have hkept : ∀ ℓ, M.nextTouch u = some ℓ → (M.finish t σ).2 ℓ = σ ℓ :=
    fun ℓ hu => M.finish_frame t σ (hrem ▸ h ℓ hu)
  obtain ⟨hcode,hval⟩ := M.stepThread_congr u (σ := (M.finish t σ).2) (τ := σ) hkept
  refine ⟨hrem,hfin,Prod.ext hcode ?_⟩
  funext ℓ
  by_cases hu : M.nextTouch u = some ℓ
  · exact (hval ℓ hu).trans (M.finish_frame t _ (h ℓ hu)).symm
  · exact (M.stepThread_frame u _ hu).trans (hst ℓ (hoff ℓ hu)).symm

theorem mem_accessOf_left {P : Pair C R L Loc V α β} {ℓ : Loc} (h : M.nextTouch P.left = some ℓ) :
    (Side.left,ℓ) ∈ M.accessOf P .left := by
  simp [accessOf, h]

/-- A complete schedule in which every shared location is used by the left thread
first ends where the sequential run ends. -/
theorem exec_eq_sequential {w : List Side} {P : Pair C R L Loc V α β} (hc : Complete (M.exec w P))
    (hl : LeftFirst (M.accesses w P)) : M.exec w P = M.sequential P := by
  suffices h : M.exec w P = M.sequential P ∧
      ∀ ℓ ∈ M.remaining P.left P.store, (Side.left,ℓ) ∈ M.accesses w P from h.1
  induction w generalizing P with
  | nil =>
    obtain ⟨hL,hR⟩ : Thread.Finished P.left ∧ Thread.Finished P.right := hc
    refine ⟨?_,?_⟩
    · change P = M.sequential P
      simp only [sequential, M.finish_of_finished hL, M.finish_of_finished hR]
    · simp only [M.remaining_of_finished hL, List.not_mem_nil, false_implies, implies_true]
  | cons i w ih =>
    have hlog := List.pairwise_append.mp hl
    obtain ⟨hseq,hrem⟩ := ih (P := M.step P i) hc hlog.2.1
    cases i with
    | left =>
      refine ⟨?_,?_⟩
      · refine hseq.trans ?_
        simp only [sequential, step, M.finish_stepThread]
      · intro ℓ hℓ
        rw [M.remaining_stepThread, List.mem_append, Option.mem_toList] at hℓ
        rcases hℓ with hℓ | hℓ
        · exact List.mem_append_left _ (M.mem_accessOf_left hℓ)
        · exact List.mem_append_right _ (hrem ℓ hℓ)
    | right =>
      have hsep : ∀ ℓ, M.nextTouch P.right = some ℓ →
          ℓ ∉ M.remaining P.left (M.stepThread P.right P.store).2 := by
        intro ℓ hu hℓ
        exact hlog.2.2 (Side.right,ℓ) (by simp [accessOf, hu]) (Side.left,ℓ) (hrem ℓ hℓ)
          ⟨rfl,rfl,rfl⟩
      obtain ⟨hr,hf,hs⟩ := M.right_step_commutes P.left P.right P.store hsep
      refine ⟨?_,?_⟩
      · refine hseq.trans ?_
        have hfin := M.finish_stepThread P.right (M.finish P.left P.store).2
        rw [hs] at hfin
        simp only [sequential, step, hf, ← hfin]
      · intro ℓ hℓ
        rw [← hr] at hℓ
        exact List.mem_append_right _ (hrem ℓ hℓ)

/-! ## The other order -/

def Side.swap : Side → Side
  | .left => .right
  | .right => .left

def Pair.swap (P : Pair C R L Loc V α β) : Pair C R L Loc V β α := ⟨P.right,P.left,P.store⟩

/-- No access of the left thread precedes one of the right thread to the same location. -/
def RightFirst (log : List (Side × Loc)) : Prop := LeftFirst (log.map (fun x => (x.1.swap,x.2)))

theorem step_swap (P : Pair C R L Loc V α β) (i : Side) : M.step P.swap i.swap = (M.step P i).swap := by
  cases i <;> rfl

theorem exec_swap (w : List Side) (P : Pair C R L Loc V α β) :
    M.exec (w.map Side.swap) P.swap = (M.exec w P).swap := by
  induction w generalizing P with
  | nil => rfl
  | cons i w ih =>
    change M.exec (w.map Side.swap) (M.step P.swap i.swap) = _
    rw [M.step_swap]
    exact ih _

theorem accesses_swap (w : List Side) (P : Pair C R L Loc V α β) :
    M.accesses (w.map Side.swap) P.swap = (M.accesses w P).map (fun x => (x.1.swap,x.2)) := by
  induction w generalizing P with
  | nil => rfl
  | cons i w ih =>
    have hone : M.accessOf P.swap i.swap = (M.accessOf P i).map (fun x => (x.1.swap,x.2)) := by
      cases i <;> simp [accessOf, Side.swap, Pair.swap]
    simp only [List.map_cons, accesses, List.map_append, hone, M.step_swap, ih]

theorem exec_eq_sequential_swap {w : List Side} {P : Pair C R L Loc V α β} (hc : Complete (M.exec w P))
    (hr : RightFirst (M.accesses w P)) : M.exec w P = (M.sequential P.swap).swap := by
  have hseq := M.exec_eq_sequential (w := w.map Side.swap) (P := P.swap)
    (by rw [M.exec_swap]; exact ⟨hc.2,hc.1⟩) (by rw [M.accesses_swap]; exact hr)
  rw [← hseq, M.exec_swap]
  rfl

end Sharing
end Effects
